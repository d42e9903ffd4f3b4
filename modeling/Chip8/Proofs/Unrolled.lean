import Chip8.Proofs.Effects
import Chip8.Proofs.Tone

/-!
# Frames unrolled into commands

To the machine in a runner a frame is nothing but commands: the keys are set, the cycles are stepped
through and the flag of a drawing is lowered. What holds for all histories of a machine holds for
its histories in a runner.
-/
namespace Chip8.Runner

/-- What an event is for the machine, when a frame has `n` cycles. -/
def Event.commands (n : Nat) : Event → List Command
  | .frame keys => .keypad (.setAll keys) :: (List.replicate n .step ++ [.clearDrawn])
  | .command c => [c]

def Event.resets : Event → Bool
  | .frame _ => false
  | .command c => c.resets

theorem resets_of_mem_commands {n : Nat} {e : Event} (he : e.resets = false) {c : Command}
    (hc : c ∈ e.commands n) : c.resets = false := by
  cases e with
  | frame keys =>
    simp only [Event.commands, List.mem_cons, List.mem_append, List.mem_replicate,
      List.not_mem_nil, or_false] at hc
    rcases hc with rfl | ⟨_, rfl⟩ | rfl
    all_goals rfl
  | command d =>
    rw [List.mem_singleton.mp hc]
    exact he

theorem cycles_machine (n : Nat) (r : Runner) :
    (cycles n r).runner.machine =
      (Machine.performAll (List.replicate n .step) r.machine).machine := by
  induction n generalizing r with
  | zero => rfl
  | succ n ih =>
    obtain ⟨hr, _, _⟩ := r.cycle_eq
    rw [cycles, ih, hr]
    rfl

theorem perform_machine (r : Runner) (e : Event) :
    (r.perform e).runner.machine =
      (Machine.performAll (e.commands r.cyclesPerFrame) r.machine).machine := by
  cases e with
  | command c => rfl
  | frame keys =>
    have hframe : (r.perform (.frame keys)).runner.machine =
        (r.framed keys).runner.machine.clearDrawn := by
      simp only [perform, Report.map, frame_eq]
    rw [hframe, framed, cycles_machine, Event.commands, Machine.performAll,
      Machine.performAll_append]
    rfl

theorem perform_cyclesPerFrame (r : Runner) (e : Event) :
    (r.perform e).runner.cyclesPerFrame = r.cyclesPerFrame := by
  cases e with
  | command c => rfl
  | frame keys =>
    simp only [perform, Report.map, frame_eq, framed, cyclesPerFrame_cycles]
    rfl

theorem performAll_cyclesPerFrame (es : List Event) (r : Runner) :
    (performAll es r).runner.cyclesPerFrame = r.cyclesPerFrame := by
  induction es generalizing r with
  | nil => rfl
  | cons e es ih => rw [performAll, ih, perform_cyclesPerFrame]

theorem performAll_machine (es : List Event) (r : Runner) :
    (performAll es r).runner.machine =
      (Machine.performAll (es.flatMap (Event.commands r.cyclesPerFrame)) r.machine).machine := by
  induction es generalizing r with
  | nil => rfl
  | cons e es ih =>
    rw [performAll, ih, List.flatMap_cons, Machine.performAll_append, perform_cyclesPerFrame,
      perform_machine]

end Chip8.Runner
