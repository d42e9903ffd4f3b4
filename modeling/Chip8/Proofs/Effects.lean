import Chip8.Machine.History

/-!
# Effects

What one instruction, and from it one command, may change of a machine. Only calls and returns
reach the stack and only two instructions reach the picture; a command that carries out an
instruction adds nothing to it but the program counter, the timers and the word fetched last.
-/
namespace Chip8

/-- Clearing and drawing are all that touches the picture. -/
def Instruction.draws : Instruction → Bool
  | .clear | .draw .. => true
  | _ => false

/-- One operation on a stack: nothing, a call from `pc` or a return. -/
inductive CallStack.Move (pc : UInt16) (s : CallStack) : CallStack → Prop
  | keep : Move pc s s
  | push {t : CallStack} : s.push pc = .ok t → Move pc s t
  | pop {a : UInt16} {t : CallStack} : s.pop = .ok (a, t) → Move pc s t

namespace Command

/-- A reset is the only command that keeps nothing. -/
def resets : Command → Bool
  | .reset _ => true
  | _ => false

/-- The two commands that lower the flag of a drawing. -/
def lowers : Command → Bool
  | .reset _ | .clearDrawn => true
  | _ => false

theorem resets_of_lowers {c : Command} (h : c.lowers = false) : c.resets = false := by
  cases c <;> first | rfl | cases h

end Command

namespace Machine

/-- The instruction that a command carries out, if it carries out one. -/
def instruction? (m : Machine) : Command → Option Instruction
  | .step => Instruction.decode? (m.memory.fetch m.pc)
  | .execute i | .handle i => some i
  | _ => none

theorem decode_of_decode? {w : Word} {i : Instruction} (h : Instruction.decode? w = some i) :
    Instruction.decode w = .ok i := by
  simp only [Instruction.decode, h]

theorem decode_of_decode?_none {w : Word} (h : Instruction.decode? w = none) :
    Instruction.decode w = .error ⟨w⟩ := by
  simp only [Instruction.decode, h]

theorem execute_machine (m : Machine) (i : Instruction) :
    ∃ pc, (m.execute i).machine = { (m.handled i).machine with pc } := by
  unfold execute handled
  cases m.handle i with
  | error f => exact ⟨m.pc, rfl⟩
  | ok e => exact ⟨_, rfl⟩

theorem step_machine_of_some {m : Machine} {i : Instruction}
    (h : Instruction.decode? (m.memory.fetch m.pc) = some i) :
    m.step.machine = (m.fetch.execute i).machine.tick := by
  have hw : Instruction.decode m.fetch.word = .ok i := decode_of_decode? h
  simp only [step, executeWord, hw]

theorem step_machine_of_none {m : Machine}
    (h : Instruction.decode? (m.memory.fetch m.pc) = none) :
    m.step.machine = (m.fetch.advance .next).tick := by
  have hw : Instruction.decode m.fetch.word = .error ⟨m.fetch.word⟩ := decode_of_decode?_none h
  simp only [step, executeWord, hw]

theorem step_answer_of_some {m : Machine} {i : Instruction}
    (h : Instruction.decode? (m.memory.fetch m.pc) = some i) :
    m.step.answer =
      ⟨m.memory.fetch m.pc, requestOf (m.fetch.execute i).answer,
        faultOf (m.fetch.execute i).answer, (m.fetch.execute i).machine.sound.expires⟩ := by
  have hw : Instruction.decode m.fetch.word = .ok i := decode_of_decode? h
  simp only [step, executeWord, hw]
  rfl

theorem step_answer_of_none {m : Machine}
    (h : Instruction.decode? (m.memory.fetch m.pc) = none) :
    m.step.answer =
      ⟨m.memory.fetch m.pc, .none, some (.opcode ⟨m.memory.fetch m.pc⟩), m.sound.expires⟩ := by
  have hw : Instruction.decode m.fetch.word = .error ⟨m.fetch.word⟩ := decode_of_decode?_none h
  simp only [step, executeWord, hw]
  rfl

/-- A command that carries out an instruction does what the instruction does, apart from the
program counter, the timers and the word. -/
theorem perform_of_instruction {m : Machine} {c : Command} {i : Instruction}
    (h : m.instruction? c = some i) :
    ∃ word pc delay sound, (m.perform c).machine =
      { ({ m with word }.handled i).machine with pc, delay, sound } := by
  cases c with
  | step =>
    obtain ⟨pc, hpc⟩ := m.fetch.execute_machine i
    have hs : (m.perform .step).machine = m.step.machine := rfl
    rw [hs, step_machine_of_some h, hpc]
    exact ⟨m.fetch.word, pc, _, _, rfl⟩
  | execute j =>
    cases h
    obtain ⟨pc, hpc⟩ := m.execute_machine i
    exact ⟨m.word, pc, _, _, hpc⟩
  | handle j =>
    cases h
    exact ⟨m.word, _, _, _, rfl⟩
  | _ => cases h

theorem handled_ret (m : Machine) :
    (∃ a t, m.stack.pop = .ok (a, t) ∧ (m.handled .ret).machine = { m with stack := t }) ∨
      (m.handled .ret).machine = m := by
  unfold handled handle
  cases h : m.stack.pop with
  | error e => exact Or.inr rfl
  | ok popped => exact Or.inl ⟨popped.1, popped.2, rfl, rfl⟩

theorem handled_call (m : Machine) (nnn : UInt16) :
    (∃ t, m.stack.push m.pc = .ok t ∧ (m.handled (.call nnn)).machine = { m with stack := t }) ∨
      (m.handled (.call nnn)).machine = m := by
  unfold handled handle
  cases h : m.stack.push m.pc with
  | error e => exact Or.inr rfl
  | ok t => exact Or.inl ⟨t, rfl, rfl⟩

theorem handled_awaitKey (m : Machine) (x : Register) :
    ∃ registers, (m.handled (.awaitKey x)).machine = { m with registers } := by
  unfold handled handle
  cases h : m.keypad.lowestDown? with
  | none => exact ⟨_, rfl⟩
  | some key => exact ⟨_, rfl⟩

/-- What an instruction may do to the parts of `m` outside its registers, memory and timers. -/
structure Framed (i : Instruction) (m n : Machine) : Prop where
  pc : n.pc = m.pc
  stack : m.stack.Move m.pc n.stack
  drawn : n.drawn = (m.drawn || i.draws)
  display : i.draws = false → n.display = m.display

theorem framed_of_eq {i : Instruction} {m n : Machine} (hi : i.draws = false) (hp : n.pc = m.pc)
    (hs : m.stack.Move m.pc n.stack) (hf : n.drawn = m.drawn) (hd : n.display = m.display) :
    Framed i m n :=
  ⟨hp, hs, by rw [hf, hi, Bool.or_false], fun _ => hd⟩

theorem handled_framed (m : Machine) (i : Instruction) : Framed i m (m.handled i).machine := by
  cases i with
  | clear => exact ⟨rfl, .keep, (Bool.or_true _).symm, fun h => by cases h⟩
  | draw x y n => exact ⟨rfl, .keep, (Bool.or_true _).symm, fun h => by cases h⟩
  | ret =>
    rcases m.handled_ret with ⟨a, t, hp, hm⟩ | hm
    · rw [hm]
      exact framed_of_eq rfl rfl (.pop hp) rfl rfl
    · rw [hm]
      exact framed_of_eq rfl rfl .keep rfl rfl
  | call nnn =>
    rcases m.handled_call nnn with ⟨t, hp, hm⟩ | hm
    · rw [hm]
      exact framed_of_eq rfl rfl (.push hp) rfl rfl
    · rw [hm]
      exact framed_of_eq rfl rfl .keep rfl rfl
  | awaitKey x =>
    obtain ⟨registers, hm⟩ := m.handled_awaitKey x
    rw [hm]
    exact framed_of_eq rfl rfl .keep rfl rfl
  | _ =>
    simp only [handled, handle]
    exact framed_of_eq rfl rfl .keep rfl rfl

/-- A command without an instruction leaves the stack, the picture and the random words alone, a
reset apart. -/
theorem perform_of_no_instruction {m : Machine} {c : Command} (h : m.instruction? c = none)
    (hr : c.resets = false) :
    (m.perform c).machine.stack = m.stack ∧ (m.perform c).machine.display = m.display ∧
      (m.perform c).machine.random = m.random ∧
      (c.lowers = false → (m.perform c).machine.drawn = m.drawn) := by
  cases c with
  | step =>
    have hs : (m.perform .step).machine = (m.fetch.advance .next).tick := step_machine_of_none h
    rw [hs]
    exact ⟨rfl, rfl, rfl, fun _ => rfl⟩
  | load image =>
    simp only [perform, load]
    split <;> exact ⟨rfl, rfl, rfl, fun _ => rfl⟩
  | reset seed => cases hr
  | keypad k => exact ⟨rfl, rfl, rfl, fun _ => rfl⟩
  | clearDrawn => exact ⟨rfl, rfl, rfl, fun hl => by cases hl⟩
  | advance a => exact ⟨rfl, rfl, rfl, fun _ => rfl⟩
  | execute i => cases h
  | handle i => cases h

theorem perform_stack {m : Machine} {c : Command} (hr : c.resets = false) :
    m.stack.Move m.pc (m.perform c).machine.stack := by
  cases h : m.instruction? c with
  | none =>
    rw [(perform_of_no_instruction h hr).1]
    exact .keep
  | some i =>
    obtain ⟨word, pc, delay, sound, hm⟩ := perform_of_instruction h
    rw [hm]
    exact (handled_framed { m with word } i).stack

/-- Whether a command clears the picture or draws a sprite. -/
def draws (m : Machine) (c : Command) : Bool := (m.instruction? c).any Instruction.draws

theorem perform_drawn {m : Machine} {c : Command} (hl : c.lowers = false) :
    (m.perform c).machine.drawn = (m.drawn || m.draws c) := by
  unfold draws
  cases h : m.instruction? c with
  | none =>
    rw [(perform_of_no_instruction h (Command.resets_of_lowers hl)).2.2.2 hl]
    exact (Bool.or_false _).symm
  | some i =>
    obtain ⟨word, pc, delay, sound, hm⟩ := perform_of_instruction h
    rw [hm]
    exact (handled_framed { m with word } i).drawn

theorem perform_display {m : Machine} {c : Command} (hr : c.resets = false)
    (hd : m.draws c = false) : (m.perform c).machine.display = m.display := by
  unfold draws at hd
  cases h : m.instruction? c with
  | none => exact (perform_of_no_instruction h hr).2.1
  | some i =>
    obtain ⟨word, pc, delay, sound, hm⟩ := perform_of_instruction h
    rw [hm]
    rw [h] at hd
    exact (handled_framed { m with word } i).display hd

end Machine
end Chip8
