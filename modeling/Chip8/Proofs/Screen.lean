import Chip8.Proofs.Effects
import Chip8.Proofs.Tone

/-!
# The host's screen is never stale

While no drawing is waiting to be shown, the last picture that the host was handed is the picture
of the machine. Only drawings raise the flag, and a frame shows the picture exactly when one of
them happened since the frame before.
-/
namespace Chip8

/-- The word of the cycle stands for an instruction that touches the picture. -/
def Cycle.draws (c : Cycle) : Bool := (Instruction.decode? c.word).any Instruction.draws

namespace Machine

def drawsIn : List Command → Machine → Bool
  | [], _ => false
  | c :: cs, m => m.draws c || drawsIn cs (m.perform c).machine

theorem performAll_drawn {cs : List Command} {m : Machine} (h : ∀ c ∈ cs, c.lowers = false) :
    (performAll cs m).machine.drawn = (m.drawn || drawsIn cs m) := by
  induction cs generalizing m with
  | nil => exact (Bool.or_false _).symm
  | cons c cs ih =>
    have hc := perform_drawn (m := m) (h c (by simp))
    rw [performAll, ih fun e he => h e (by simp [he]), hc, drawsIn, Bool.or_assoc]

theorem step_drawn (m : Machine) :
    m.step.machine.drawn = (m.drawn || m.step.answer.draws) :=
  perform_drawn (c := .step) rfl

theorem step_display {m : Machine} (h : m.step.answer.draws = false) :
    m.step.machine.display = m.display :=
  perform_display (c := .step) rfl h

end Machine

namespace Runner

def Event.lowers : Event → Bool
  | .frame _ => false
  | .command c => c.lowers

def picture? : DeviceCall → Option Display
  | .display picture => some picture
  | _ => none

/-- What the screen shows after these calls; it starts dark. -/
def shown (calls : List DeviceCall) : Display :=
  (calls.filterMap picture?).getLast?.getD Display.blank

theorem pictures_of_tones {es : List DeviceCall} (h : ∀ c ∈ es, isTone c = true) :
    es.filterMap picture? = [] := by
  apply List.filterMap_eq_nil_iff.mpr
  intro c hc
  have ht := h c hc
  cases c <;> first | rfl | cases ht

theorem shown_append_of_tones {cs es : List DeviceCall} (h : ∀ c ∈ es, isTone c = true) :
    shown (cs ++ es) = shown cs := by
  rw [shown, List.filterMap_append, pictures_of_tones h, List.append_nil, shown]

theorem shown_append_display (cs : List DeviceCall) (picture : Display) :
    shown (cs ++ [.display picture]) = picture := by
  simp [shown, picture?]

theorem cycles_drawn (n : Nat) (r : Runner) :
    (cycles n r).runner.machine.drawn =
      (r.machine.drawn || (cycles n r).answer.any Cycle.draws) := by
  induction n generalizing r with
  | zero => exact (Bool.or_false _).symm
  | succ n ih =>
    obtain ⟨hr, ha, _⟩ := r.cycle_eq
    have hm : r.cycle.runner.machine = r.machine.step.machine := by rw [hr]
    simp only [cycles, ih, hm, ha, Machine.step_drawn, List.any_cons, Bool.or_assoc]

theorem cycles_display {n : Nat} {r : Runner} (h : (cycles n r).answer.any Cycle.draws = false) :
    (cycles n r).runner.machine.display = r.machine.display := by
  induction n generalizing r with
  | zero => rfl
  | succ n ih =>
    obtain ⟨hr, ha, _⟩ := r.cycle_eq
    have hm : r.cycle.runner.machine = r.machine.step.machine := by rw [hr]
    simp only [cycles, List.any_cons, Bool.or_eq_false_iff, ha] at h
    rw [cycles, ih h.2, hm, Machine.step_display h.1]

theorem frame_shows (r : Runner) (keys : Keypad) :
    (r.frame keys).answer.drawn = (r.framed keys).runner.machine.drawn ∧
      (r.frame keys).runner.machine.drawn = false ∧
      (r.frame keys).runner.machine.display = (r.framed keys).runner.machine.display ∧
      (r.frame keys).calls = .readKeys :: ((r.framed keys).calls ++
        if (r.frame keys).answer.drawn then [.display (r.frame keys).runner.machine.display]
        else []) := by
  rw [frame_eq]
  exact ⟨rfl, rfl, rfl, rfl⟩

theorem framed_drawn (r : Runner) (keys : Keypad) :
    (r.framed keys).runner.machine.drawn =
      (r.machine.drawn || (r.framed keys).answer.any Cycle.draws) :=
  cycles_drawn _ _

/-- As long as no drawing waits to be shown, the screen shows the picture of the machine. -/
def Fresh (calls : List DeviceCall) (m : Machine) : Prop :=
  m.drawn = false → shown calls = m.display

theorem frame_fresh {calls : List DeviceCall} {r : Runner} (h : Fresh calls r.machine)
    (keys : Keypad) :
    shown (calls ++ (r.frame keys).calls) = (r.frame keys).runner.machine.display := by
  obtain ⟨ha, _, hp, hc⟩ := r.frame_shows keys
  have htones : ∀ c ∈ (r.framed keys).calls, isTone c = true := fun c hc => isTone_of_mem_cycles hc
  have hbefore : shown (calls ++ .readKeys :: (r.framed keys).calls) = shown calls := by
    rw [← List.singleton_append, ← List.append_assoc, shown_append_of_tones htones]
    simp [shown, picture?]
  rw [hc, ha, hp]
  cases hd : (r.framed keys).runner.machine.drawn with
  | true =>
    rw [if_pos rfl, ← List.cons_append, ← List.append_assoc, shown_append_display]
  | false =>
    rw [framed_drawn, Bool.or_eq_false_iff] at hd
    rw [if_neg Bool.false_ne_true, List.append_nil, hbefore, h hd.1]
    exact (cycles_display hd.2).symm

theorem perform_fresh {calls : List DeviceCall} {r : Runner} {e : Event}
    (h : Fresh calls r.machine) (he : e.lowers = false) :
    Fresh (calls ++ (r.perform e).calls) (r.perform e).runner.machine := by
  cases e with
  | frame keys => exact fun _ => frame_fresh h keys
  | command c =>
    have hl : c.lowers = false := he
    intro hd
    have hdrawn : (r.machine.perform c).machine.drawn = false := hd
    rw [Machine.perform_drawn hl, Bool.or_eq_false_iff] at hdrawn
    have hkeep := Machine.perform_display (Command.resets_of_lowers hl) hdrawn.2
    have hcalls : calls ++ (r.perform (.command c)).calls = calls := List.append_nil calls
    rw [hcalls, h hdrawn.1]
    exact hkeep.symm

theorem performAll_fresh {es : List Event} {calls : List DeviceCall} {r : Runner}
    (h : Fresh calls r.machine) (he : ∀ e ∈ es, e.lowers = false) :
    Fresh (calls ++ (performAll es r).calls) (performAll es r).runner.machine := by
  induction es generalizing calls r with
  | nil =>
    rw [performAll, List.append_nil]
    exact h
  | cons e es ih =>
    rw [performAll, ← List.append_assoc]
    exact ih (perform_fresh h (he e (by simp))) fun f hf => he f (by simp [hf])

/-- A history begins, or a frame has just ended. -/
def AtFrame (es : List Event) : Prop := es = [] ∨ ∃ fs keys, es = fs ++ [.frame keys]

theorem drawn_atFrame {es : List Event} {r : Runner} (h : AtFrame es)
    (hr : r.machine.drawn = false) : (performAll es r).runner.machine.drawn = false := by
  rcases h with rfl | ⟨fs, keys, rfl⟩
  · exact hr
  · rw [performAll_append]
    exact ((performAll fs r).runner.frame_shows keys).2.1

/-- A frame of a runner that was set up around a new machine: after it the screen shows the
picture, and it was handed over, behind all cycles, exactly if something was drawn. -/
theorem screen_fresh_after_frame (seed : UInt64) (n : Nat) (before : List Event)
    (between : List Command) (keys : Keypad) (hstart : AtFrame before)
    (hbefore : ∀ e ∈ before, e.lowers = false) (hbetween : ∀ c ∈ between, c.lowers = false) :
    let start := (ofMachine (Machine.powerOn seed)).withCycles n
    let last := (performAll before start).runner
    let done := performAll (before ++ between.map .command) start
    let shot := done.runner.frame keys
    let ran := done.runner.framed keys
    shown (done.calls ++ shot.calls) = shot.runner.machine.display ∧
      shot.runner.machine.drawn = false ∧
      shot.calls = .readKeys :: (ran.calls ++
        if shot.answer.drawn then [.display shot.runner.machine.display] else []) ∧
      (∀ c ∈ ran.calls, isTone c = true) ∧
      (shot.answer.drawn = true ↔
        Machine.drawsIn between last.machine = true ∨ ∃ c ∈ ran.answer, c.draws = true) := by
  intro start last done shot ran
  have hall : ∀ e ∈ before ++ between.map Event.command, e.lowers = false := by
    intro e he
    rcases List.mem_append.mp he with he | he
    · exact hbefore e he
    · obtain ⟨c, hc, rfl⟩ := List.mem_map.mp he
      exact hbetween c hc
  have hdark : Fresh [] start.machine := fun _ => rfl
  have hfresh : Fresh done.calls done.runner.machine := performAll_fresh hdark hall
  obtain ⟨hanswer, hflag, _, hcalls⟩ := done.runner.frame_shows keys
  have hmachine : done.runner.machine = (Machine.performAll between last.machine).machine := by
    have h := performAll_append before (between.map Event.command) start
    rw [performAll_commands] at h
    exact congrArg Runner.machine h
  have hwaiting : done.runner.machine.drawn = Machine.drawsIn between last.machine := by
    rw [hmachine, Machine.performAll_drawn hbetween, drawn_atFrame hstart rfl, Bool.false_or]
  refine ⟨frame_fresh hfresh keys, hflag, hcalls, fun c hc => isTone_of_mem_cycles hc, ?_⟩
  rw [hanswer, framed_drawn, hwaiting, Bool.or_eq_true, List.any_eq_true]

/-- A digit that the host draws itself. -/
def glyph : List Command :=
  [.execute (.indexGlyph Registers.first), .execute (.draw Registers.first Registers.first 5)]

theorem screen_fresh_after_glyph :
    let start := (ofMachine (Machine.powerOn 0)).withCycles 1
    let done := performAll ([.frame Keypad.allUp] ++ glyph.map .command) start
    let shot := done.runner.frame Keypad.allUp
    shown (done.calls ++ shot.calls) = shot.runner.machine.display ∧ shot.answer.drawn = true := by
  intro start done shot
  have hstart : AtFrame [.frame Keypad.allUp] := Or.inr ⟨[], Keypad.allUp, rfl⟩
  have hbefore : ∀ e ∈ [Event.frame Keypad.allUp], e.lowers = false := by simp [Event.lowers]
  have hglyph : ∀ c ∈ glyph, c.lowers = false := by simp [glyph, Command.lowers]
  obtain ⟨hshown, _, _, _, hdrawn⟩ :=
    screen_fresh_after_frame 0 1 [.frame Keypad.allUp] glyph Keypad.allUp hstart hbefore hglyph
  have hdrew :
      Machine.drawsIn glyph (performAll [.frame Keypad.allUp] start).runner.machine = true := by
    decide +kernel
  -- unfolding the histories here would run them
  with_reducible exact ⟨hshown, hdrawn.mpr (Or.inl hdrew)⟩

end Runner
end Chip8
