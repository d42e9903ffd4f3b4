import Mathlib.Algebra.GroupWithZero.Nat
import Chip8.Proofs.Footprint
import Chip8.Proofs.Screen

/-!
# Frames can be cut anywhere

The same cycles under the same keys do the same whether they are run in one frame or in several.
What happens between two frames is invisible to the cycles that follow: the keys are already there,
and no instruction reads the flag of a drawing or the number of cycles in a frame.
-/
namespace Chip8

namespace Machine

/-- The machine as it would be with an earlier drawing not yet shown. -/
def raise (m : Machine) (b : Bool) : Machine := { m with drawn := m.drawn || b }

end Machine

def Effect.raise (e : Effect) (b : Bool) : Effect := { e with machine := e.machine.raise b }

def Reply.raise {α : Type} (r : Reply α) (b : Bool) : Reply α :=
  { r with machine := r.machine.raise b }

namespace Machine

theorem handle_raise (m : Machine) (b : Bool) (i : Instruction) :
    (m.raise b).handle i = (m.handle i).map fun e => e.raise b := by
  cases i with
  | ret =>
    have hs : (m.raise b).stack = m.stack := rfl
    simp only [handle, hs]
    cases m.stack.pop <;> rfl
  | call nnn =>
    have hs : (m.raise b).stack.push (m.raise b).pc = m.stack.push m.pc := rfl
    simp only [handle, hs]
    cases m.stack.push m.pc <;> rfl
  | awaitKey x =>
    have hk : (m.raise b).keypad = m.keypad := rfl
    simp only [handle, hk]
    cases m.keypad.lowestDown? <;> rfl
  | _ => rfl

theorem execute_raise (m : Machine) (b : Bool) (i : Instruction) :
    (m.raise b).execute i = (m.execute i).raise b := by
  simp only [execute, handle_raise]
  cases m.handle i <;> rfl

theorem step_raise (m : Machine) (b : Bool) : (m.raise b).step = m.step.raise b := by
  have hfetch : (m.raise b).fetch = m.fetch.raise b := rfl
  have hword : (m.fetch.raise b).executeWord = m.fetch.executeWord.raise b := by
    have hw : (m.fetch.raise b).word = m.fetch.word := rfl
    simp only [executeWord, hw]
    cases Instruction.decode m.fetch.word with
    | error e => rfl
    | ok i => exact m.fetch.execute_raise b i
  simp only [step, hfetch, hword]
  rfl

theorem step_keypad (m : Machine) : m.step.machine.keypad = m.keypad := by
  cases h : Instruction.decode? (m.memory.fetch m.pc) with
  | none =>
    rw [step_machine_of_none h]
    rfl
  | some i =>
    obtain ⟨pc, hpc⟩ := m.fetch.execute_machine i
    rw [step_machine_of_some h, hpc]
    exact (m.fetch.handled_confined i).keypad

end Machine

namespace Runner

/-- The runner with an earlier drawing not yet shown, and with other frames ahead of it. -/
def adjust (r : Runner) (b : Bool) (n : Nat) : Runner :=
  { r with machine := r.machine.raise b, cyclesPerFrame := n }

def Report.adjust {α : Type} (done : Report α) (b : Bool) (n : Nat) : Report α :=
  { done with runner := done.runner.adjust b n }

theorem updateSound_adjust (r : Runner) (b : Bool) (n : Nat) (c : Cycle) :
    (r.adjust b n).updateSound c = (r.updateSound c).adjust b n := by
  have hsound : (r.adjust b n).machine.sound = r.machine.sound := rfl
  have hplaying : (r.adjust b n).playing = r.playing := rfl
  unfold updateSound
  rw [hsound, hplaying]
  split
  · rfl
  · split <;> rfl

theorem cycle_adjust (r : Runner) (b : Bool) (n : Nat) :
    (r.adjust b n).cycle = r.cycle.adjust b n := by
  have hstep : (r.adjust b n).machine.step = r.machine.step.raise b := r.machine.step_raise b
  have hsound : ∀ m : Machine, ({ r.adjust b n with machine := m.raise b } : Runner) =
      ({ r with machine := m } : Runner).adjust b n := fun _ => rfl
  simp only [cycle, hstep, Reply.raise, hsound, updateSound_adjust]
  rfl

theorem cycles_adjust (k : Nat) (r : Runner) (b : Bool) (n : Nat) :
    cycles k (r.adjust b n) = (cycles k r).adjust b n := by
  induction k generalizing r with
  | zero => rfl
  | succ k ih =>
    have hnext : (r.cycle.adjust b n).runner = r.cycle.runner.adjust b n := rfl
    simp only [cycles, cycle_adjust, hnext, ih]
    rfl

theorem cycles_add (a b : Nat) (r : Runner) :
    let first := cycles a r
    let rest := cycles b first.runner
    cycles (a + b) r =
      ⟨rest.runner, first.answer ++ rest.answer, first.calls ++ rest.calls,
        first.log ++ rest.log⟩ := by
  induction a generalizing r with
  | zero => simp [cycles]
  | succ a ih =>
    rw [Nat.add_right_comm]
    simp only [cycles, ih, List.cons_append, List.append_assoc]

theorem cycles_keypad (n : Nat) (r : Runner) :
    (cycles n r).runner.machine.keypad = r.machine.keypad := by
  induction n generalizing r with
  | zero => rfl
  | succ n ih =>
    obtain ⟨hr, _, _⟩ := r.cycle_eq
    rw [cycles, ih, hr]
    exact r.machine.step_keypad

theorem adjust_adjust (r : Runner) (b : Bool) (n k : Nat) :
    (r.adjust b n).adjust false k = r.adjust b k := by
  simp only [adjust, Machine.raise, Bool.or_false]

/-- Lowering the flag, setting another rate and sampling the keys that are there is undone by
raising the flag again. -/
theorem adjust_between (r : Runner) (n : Nat) :
    (({ r with machine := r.machine.clearDrawn }.withCycles n).sampleKeys
      r.machine.keypad).adjust r.machine.drawn r.cyclesPerFrame = r := rfl

/-- A frame of `a` cycles, with the flag lowered and the keys sampled behind it, and a frame of `b`
cycles run what a frame of `a + b` cycles runs. -/
theorem framed_add (r : Runner) (keys : Keypad) {a b : Nat} (ha : 1 ≤ a) (hb : 1 ≤ b) :
    let first := (r.withCycles a).framed keys
    let rest := (((r.withCycles a).frame keys).runner.withCycles b).framed keys
    (r.withCycles (a + b)).framed keys =
      ⟨rest.runner.adjust first.runner.machine.drawn (a + b), first.answer ++ rest.answer,
        first.calls ++ rest.calls, first.log ++ rest.log⟩ := by
  intro first rest
  have hrate : ∀ n, 1 ≤ n → ∀ s : Runner, (s.withCycles n).framed keys =
      cycles n ((s.withCycles n).sampleKeys keys) := by
    intro n hn s
    have hmax : (s.withCycles n).cyclesPerFrame = n := Nat.max_eq_right hn
    rw [framed, hmax]
  -- both ways start from the same machine, up to the rate, which no cycle reads
  have hstart : (r.withCycles (a + b)).sampleKeys keys =
      ((r.withCycles a).sampleKeys keys).adjust false (a + b) := by
    simp only [sampleKeys, withCycles, adjust, Machine.raise, Bool.or_false]
    rw [Nat.max_eq_right (by omega)]
  have hkeys : first.runner.machine.keypad = keys := cycles_keypad _ _
  have hbetween : ((((r.withCycles a).frame keys).runner.withCycles b).sampleKeys keys).adjust
      first.runner.machine.drawn first.runner.cyclesPerFrame = first.runner := by
    have h := first.runner.adjust_between b
    rw [hkeys] at h
    rw [frame_eq]
    exact h
  have hfirst : first = cycles a ((r.withCycles a).sampleKeys keys) := hrate a ha r
  have hrest : rest = cycles b ((((r.withCycles a).frame keys).runner.withCycles b).sampleKeys
      keys) := hrate b hb _
  have hcycles := cycles_adjust b ((((r.withCycles a).frame keys).runner.withCycles b).sampleKeys
    keys) first.runner.machine.drawn first.runner.cyclesPerFrame
  rw [hbetween, ← hrest] at hcycles
  rw [hrate _ (by omega), hstart, cycles_adjust, cycles_add, ← hfirst, hcycles]
  simp only [Report.adjust, adjust_adjust]

/-- The picture that was handed over last, if there was one. -/
def lastPicture? (calls : List DeviceCall) : Option Display := (calls.filterMap picture?).getLast?

theorem frame_lastPicture? (r : Runner) (keys : Keypad) :
    lastPicture? (r.frame keys).calls =
      if (r.framed keys).runner.machine.drawn then some (r.framed keys).runner.machine.display
      else none := by
  have hnone : (r.framed keys).calls.filterMap picture? = [] :=
    pictures_of_tones fun c hc => isTone_of_mem_cycles hc
  have hkeys : picture? .readKeys = none := rfl
  rw [frame_eq, lastPicture?, List.filterMap_cons_none hkeys, List.filterMap_append, hnone]
  split <;> rfl

theorem lastPicture?_append (cs es : List DeviceCall) :
    lastPicture? (cs ++ es) = (lastPicture? es).or (lastPicture? cs) := by
  rw [lastPicture?, List.filterMap_append, List.getLast?_append, lastPicture?, lastPicture?]

/-- A frame that has nothing to show leaves the picture alone. -/
theorem framed_display {r : Runner} {keys : Keypad}
    (h : (r.framed keys).runner.machine.drawn = false) :
    (r.framed keys).runner.machine.display = r.machine.display := by
  rw [framed_drawn, Bool.or_eq_false_iff] at h
  exact cycles_display h.2

/-- A frame does what several frames do: it leaves the same behind, plays the same tones, counts the
same cycles and faults and ends with the same picture. -/
structure Amounts (many : Report (List Frame)) (one : Report Frame) : Prop where
  machine : many.runner.machine = one.runner.machine
  playing : many.runner.playing = one.runner.playing
  tones : many.calls.filter isTone = one.calls.filter isTone
  cycles : (many.answer.map Frame.cycles).sum = one.answer.cycles
  faults : (many.answer.map Frame.faults).sum = one.answer.faults
  drawn : many.answer.any Frame.drawn = one.answer.drawn
  picture : lastPicture? many.calls = lastPicture? one.calls

theorem frame_add (r : Runner) (keys : Keypad) {a b : Nat} (ha : 1 ≤ a) (hb : 1 ≤ b)
    {first second : Report Frame} (hfirst : (r.withCycles a).frame keys = first)
    (hsecond : (first.runner.withCycles b).frame keys = second) :
    Amounts ⟨second.runner, [first.answer, second.answer], first.calls ++ second.calls,
      first.log ++ second.log⟩ ((r.withCycles (a + b)).frame keys) := by
  subst hfirst hsecond
  have hadd := r.framed_add keys ha hb
  refine ⟨?_, ?_, ?_, ?_, ?_, ?_, ?_⟩
  · simp only [frame_eq, hadd]
    rfl
  · simp only [frame_eq, hadd]
    rfl
  · rw [List.filter_append, frame_tones, frame_tones, frame_tones, hadd]
  · simp [frame_eq, hadd]
  · simp [frame_eq, hadd]
  · simp [frame_eq, hadd, adjust, Machine.raise, Bool.or_comm]
  · rw [lastPicture?_append, frame_lastPicture?, frame_lastPicture?, frame_lastPicture?, hadd]
    simp only [adjust, Machine.raise]
    by_cases hdrawn : ((((r.withCycles a).frame keys).runner.withCycles b).framed
        keys).runner.machine.drawn = true
    · simp [hdrawn]
    · -- what the second frame did not draw is still the picture of the first one
      have hkept := framed_display (Bool.eq_false_iff.mpr hdrawn)
      have hpicture : ((((r.withCycles a).frame keys).runner.withCycles b).machine.display =
          ((r.withCycles a).framed keys).runner.machine.display) := by
        rw [frame_eq]
        rfl
      simp [hdrawn, hkept, hpicture]

/-- Frames of different lengths under the same keys. -/
def frames (keys : Keypad) : List Nat → Runner → Report (List Frame)
  | [], r => ⟨r, [], [], []⟩
  | n :: ns, r =>
    let first := (r.withCycles n).frame keys
    let rest := frames keys ns first.runner
    ⟨rest.runner, first.answer :: rest.answer, first.calls ++ rest.calls, first.log ++ rest.log⟩

theorem Amounts.cons {first second one : Report Frame} {rest : Report (List Frame)}
    (hrest : Amounts rest second)
    (hboth : Amounts ⟨second.runner, [first.answer, second.answer], first.calls ++ second.calls,
      first.log ++ second.log⟩ one) :
    Amounts ⟨rest.runner, first.answer :: rest.answer, first.calls ++ rest.calls,
      first.log ++ rest.log⟩ one := by
  refine ⟨hrest.machine.trans hboth.machine, hrest.playing.trans hboth.playing, ?_, ?_, ?_, ?_, ?_⟩
  · have h := hboth.tones
    rwa [List.filter_append, ← hrest.tones, ← List.filter_append] at h
  · simpa [hrest.cycles] using hboth.cycles
  · simpa [hrest.faults] using hboth.faults
  · simpa [hrest.drawn] using hboth.drawn
  · have h := hboth.picture
    rwa [lastPicture?_append, ← hrest.picture, ← lastPicture?_append] at h

/-- Any partition of the cycles into frames amounts to the single frame that runs them all. -/
theorem frames_amount_to_frame (r : Runner) (keys : Keypad) (counts : List Nat)
    (hne : counts ≠ []) (hpos : ∀ n ∈ counts, 1 ≤ n) :
    Amounts (frames keys counts r) ((r.withCycles counts.sum).frame keys) := by
  induction counts generalizing r with
  | nil => exact absurd rfl hne
  | cons n ns ih =>
    have hn : 1 ≤ n := hpos n (by simp)
    cases ns with
    | nil =>
      simp only [frames, List.sum_cons, List.sum_nil, Nat.add_zero, List.append_nil]
      refine ⟨rfl, rfl, rfl, ?_, ?_, ?_, rfl⟩ <;> simp
    | cons k ks =>
      have hks : ∀ c ∈ k :: ks, 1 ≤ c := fun c hc => hpos c (by simp [hc])
      have hsum : 1 ≤ (k :: ks).sum := by
        have hk := hks k (by simp)
        rw [List.sum_cons]
        omega
      exact (ih _ (List.cons_ne_nil k ks) hks).cons (r.frame_add keys hn hsum rfl rfl)

/-- A program that draws a digit, starts a beep and draws the digit again, over and over. -/
def busy : Machine :=
  ((Machine.powerOn 0).load
    [0xF0, 0x29, 0xD1, 0x15, 0x62, 0x02, 0xF2, 0x18, 0xD1, 0x15, 0x12, 0x00]).machine

theorem frames_amount_to_busy_frame :
    Amounts (frames Keypad.allUp [2, 3, 1, 1] (ofMachine busy))
        (((ofMachine busy).withCycles 7).frame Keypad.allUp) ∧
      (((ofMachine busy).withCycles 7).frame Keypad.allUp).answer = ⟨7, 0, true⟩ := by
  have hbusy := frames_amount_to_frame (ofMachine busy) Keypad.allUp [2, 3, 1, 1] (by decide)
    (by decide)
  exact ⟨hbusy, by decide +kernel⟩

end Runner
end Chip8
