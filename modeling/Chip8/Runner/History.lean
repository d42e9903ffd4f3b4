import Chip8.Machine.History

/-!
# Runners

A runner drives a machine in frames: it samples the keys, runs a fixed number of cycles, keeps
a tone in step with the sound timer and shows the picture when it was drawn on. Calls to the
host's devices are recorded in order. A history of a runner has commands to its machine between the
frames.
-/
namespace Chip8

inductive DeviceCall
  | readKeys
  | startSound
  | stopSound
  | display (picture : Display)
  deriving DecidableEq

/-- A summary of one frame. -/
structure Frame where
  cycles : Nat
  faults : Nat
  drawn : Bool
  deriving DecidableEq

structure Runner where
  machine : Machine
  cyclesPerFrame : Nat
  /-- Whether the tone is on. -/
  playing : Bool

namespace Runner

/-- What a part of a frame leaves behind. -/
structure Report (α : Type) where
  runner : Runner
  answer : α
  calls : List DeviceCall
  log : Log

def Report.map {α β : Type} (f : α → β) (r : Report α) : Report β :=
  ⟨r.runner, f r.answer, r.calls, r.log⟩

def defaultCycles : Nat := Machine.hertz / Timer.hertz

def ofMachine (m : Machine) : Runner := ⟨m, defaultCycles, false⟩

/-- At least one cycle is run per frame. -/
def withCycles (r : Runner) (cycles : Nat) : Runner := { r with cyclesPerFrame := max 1 cycles }

/-- Switches the tone off or on after a cycle, if it has to change. -/
def updateSound (r : Runner) (c : Cycle) : Report Unit :=
  if r.playing && (c.soundStopped || !r.machine.sound.running) then
    ⟨{ r with playing := false }, (), [.stopSound], [.soundOff]⟩
  else if !r.playing && r.machine.sound.running then
    ⟨{ r with playing := true }, (), [.startSound], [.soundOn]⟩
  else ⟨r, (), [], []⟩

def cycle (r : Runner) : Report Cycle :=
  let done := r.machine.step
  let heard := { r with machine := done.machine }.updateSound done.answer
  ⟨heard.runner, done.answer, heard.calls, done.log ++ heard.log⟩

def cycles : Nat → Runner → Report (List Cycle)
  | 0, r => ⟨r, [], [], []⟩
  | n + 1, r =>
    let first := r.cycle
    let rest := cycles n first.runner
    ⟨rest.runner, first.answer :: rest.answer, first.calls ++ rest.calls, first.log ++ rest.log⟩

def sampleKeys (r : Runner) (keys : Keypad) : Runner :=
  { r with machine := { r.machine with keypad := keys } }

/-- Hands the picture to the host if it was drawn on since the last time. -/
def present (r : Runner) : Report Bool :=
  if r.machine.drawn then
    ⟨{ r with machine := r.machine.clearDrawn }, true, [.display r.machine.display], []⟩
  else ⟨r, false, [], []⟩

def frame (r : Runner) (keys : Keypad) : Report Frame :=
  let ran := cycles r.cyclesPerFrame (r.sampleKeys keys)
  let shown := ran.runner.present
  { runner := shown.runner
    answer :=
      { cycles := ran.answer.length
        faults := ran.answer.countP fun c => c.fault.isSome
        drawn := shown.answer }
    calls := .readKeys :: (ran.calls ++ shown.calls)
    log := ran.log ++ shown.log }

inductive Event
  | frame (keys : Keypad)
  | command (c : Command)

inductive Outcome
  | framed (f : Frame)
  | answered (a : Answer)

/-- A command reaches the machine alone: no device is called and the tone stays as it is. -/
def perform (r : Runner) : Event → Report Outcome
  | .frame keys => (r.frame keys).map .framed
  | .command c =>
    let done := r.machine.perform c
    ⟨{ r with machine := done.machine }, .answered done.answer, [], done.log⟩

def performAll : List Event → Runner → Report (List Outcome)
  | [], r => ⟨r, [], [], []⟩
  | e :: es, r =>
    let first := r.perform e
    let rest := performAll es first.runner
    ⟨rest.runner, first.answer :: rest.answer, first.calls ++ rest.calls, first.log ++ rest.log⟩

theorem performAll_append (es fs : List Event) (r : Runner) :
    (performAll (es ++ fs) r).runner = (performAll fs (performAll es r).runner).runner := by
  induction es generalizing r with
  | nil => rfl
  | cons e es ih => exact ih _

theorem performAll_calls_append (es fs : List Event) (r : Runner) :
    (performAll (es ++ fs) r).calls =
      (performAll es r).calls ++ (performAll fs (performAll es r).runner).calls := by
  induction es generalizing r with
  | nil => rfl
  | cons e es ih => simp only [List.cons_append, performAll, ih, List.append_assoc]

theorem performAll_commands (cs : List Command) (r : Runner) :
    (performAll (cs.map Event.command) r).runner =
      { r with machine := (Machine.performAll cs r.machine).machine } := by
  induction cs generalizing r with
  | nil => rfl
  | cons c cs ih => exact ih _

theorem commands_calls (cs : List Command) (r : Runner) :
    (performAll (cs.map .command) r).calls = [] := by
  induction cs generalizing r with
  | nil => rfl
  | cons c cs ih => exact ih _

end Runner
end Chip8
