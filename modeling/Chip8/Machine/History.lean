import Chip8.Machine.Execute

/-!
# Cycles and histories

A cycle fetches a word, carries out its instruction and ticks both timers. Faults are reported
and never stop the machine: an illegal word is passed over, a stack fault is met again. Everything
else that can happen to a machine is data too, so that a history is a list of commands.
-/
namespace Chip8

/-- What happened in one cycle. -/
structure Cycle where
  word : Word
  request : Request
  fault : Option Fault
  /-- The sound timer moved onto zero. -/
  soundStopped : Bool
  deriving DecidableEq

namespace Machine

/-- The word at the program counter, noted as the one fetched last. -/
def fetch (m : Machine) : Machine := { m with word := m.memory.fetch m.pc }

/-- Carries out the word that was fetched last. -/
def executeWord (m : Machine) : Reply (Except Fault Request) :=
  match Instruction.decode m.word with
  | .error e => ⟨m.advance .next, .error (.opcode e), []⟩
  | .ok i => m.execute i

/-- An instruction that could not be carried out asks for nothing. -/
def requestOf : Except Fault Request → Request
  | .ok request => request
  | .error _ => .none

def faultOf : Except Fault Request → Option Fault
  | .ok _ => none
  | .error f => some f

def step (m : Machine) : Reply Cycle :=
  let done := m.fetch.executeWord
  let word := m.fetch.word
  let fault := faultOf done.answer
  { machine := done.machine.tick
    answer := ⟨word, requestOf done.answer, fault, done.machine.sound.expires⟩
    log := .fetched word m.pc :: done.log ++ (fault.map (.badWord word m.pc)).toList }

/-- A number of cycles in a row. -/
def run : Nat → Machine → Reply (List Cycle)
  | 0, m => ⟨m, [], []⟩
  | n + 1, m =>
    let first := m.step
    let rest := run n first.machine
    ⟨rest.machine, first.answer :: rest.answer, first.log ++ rest.log⟩

/-- A run seen from its last cycle. -/
theorem run_succ_machine (n : Nat) (m : Machine) :
    (run (n + 1) m).machine = (run n m).machine.step.machine := by
  induction n generalizing m with
  | zero => rfl
  | succ n ih => exact ih m.step.machine

theorem length_run (n : Nat) (m : Machine) : (run n m).answer.length = n := by
  induction n generalizing m with
  | zero => rfl
  | succ n ih => simp only [run, List.length_cons, ih]

/-- What a run reports about a cycle is what a step reports from where the run then stands. -/
theorem getElem_run {n k : Nat} {m : Machine} (h : k < (run n m).answer.length) :
    (run n m).answer[k] = (run k m).machine.step.answer := by
  induction n generalizing m k with
  | zero => exact absurd h (Nat.not_lt_zero k)
  | succ n ih =>
    cases k with
    | zero => rfl
    | succ k => exact ih (Nat.lt_of_succ_lt_succ h)

end Machine

inductive Command
  | step
  | load (image : List UInt8)
  | reset (seed : UInt64)
  | keypad (command : Keypad.Command)
  | clearDrawn
  | advance (a : Advance)
  /-- Carry out an instruction that was not fetched; the timers stand still. -/
  | execute (i : Instruction)
  /-- The same without moving the program counter. -/
  | handle (i : Instruction)

/-- What a command answers. -/
inductive Answer
  | done
  | cycle (c : Cycle)
  | loaded (result : Except ImageTooLarge Unit)
  | executed (result : Except Fault Request)
  | handled (result : Except Fault (Advance × Request))

namespace Machine

def handled (m : Machine) (i : Instruction) : Reply (Except Fault (Advance × Request)) :=
  match m.handle i with
  | .error f => ⟨m, .error f, []⟩
  | .ok e => ⟨e.machine, .ok (e.advance, e.request), e.log⟩

def perform (m : Machine) : Command → Reply Answer
  | .step => m.step.map .cycle
  | .load image => (m.load image).map .loaded
  | .reset seed => (m.reset seed).map fun _ => .done
  | .keypad c => (m.useKeypad c).map fun _ => .done
  | .clearDrawn => ⟨m.clearDrawn, .done, []⟩
  | .advance a => ⟨m.advance a, .done, []⟩
  | .execute i => (m.execute i).map .executed
  | .handle i => (m.handled i).map .handled

/-- A whole history, with all its answers. -/
def performAll : List Command → Machine → Reply (List Answer)
  | [], m => ⟨m, [], []⟩
  | c :: cs, m =>
    let first := m.perform c
    let rest := performAll cs first.machine
    ⟨rest.machine, first.answer :: rest.answer, first.log ++ rest.log⟩

theorem performAll_append (cs es : List Command) (m : Machine) :
    (performAll (cs ++ es) m).machine = (performAll es (performAll cs m).machine).machine := by
  induction cs generalizing m with
  | nil => rfl
  | cons c cs ih => exact ih _

end Machine
end Chip8
