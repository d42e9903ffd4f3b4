import Mathlib.Data.List.Sort
import Chip8.Proofs.Effects

/-!
# Timers over whole runs

A timer shows the value that was written to it last, less one for every tick since. So the sound
timer stops once for each value that is left in force until it has run out, in the cycle in which
it runs out, and at no other time.
-/
namespace Chip8

namespace Timer

/-- Which of the two timers. -/
inductive Role
  | delay | sound
  deriving DecidableEq

end Timer

/-- The register whose value an instruction writes to a timer, if it writes to it. -/
def Instruction.timerSource? : Instruction → Timer.Role → Option Register
  | .setDelay x, .delay | .setSound x, .sound => some x
  | _, _ => none

namespace Machine

def timer (m : Machine) : Timer.Role → Timer
  | .delay => m.delay
  | .sound => m.sound

/-- The value that the coming cycle writes to a timer. -/
def written? (m : Machine) (t : Timer.Role) : Option UInt8 :=
  (m.instruction? .step).bind fun i => (i.timerSource? t).map m.v

/-- The timer as the tick at the end of the coming cycle finds it. -/
def loaded (m : Machine) (t : Timer.Role) : Timer := ((m.written? t).map Timer.mk).getD (m.timer t)

theorem handled_timer (m : Machine) (i : Instruction) (t : Timer.Role) :
    (m.handled i).machine.timer t =
      (((i.timerSource? t).map m.v).map Timer.mk).getD (m.timer t) := by
  cases i with
  | ret =>
    rcases m.handled_ret with ⟨_, _, _, hm⟩ | hm
    all_goals rw [hm]; cases t <;> rfl
  | call nnn =>
    rcases m.handled_call nnn with ⟨_, _, hm⟩ | hm
    all_goals rw [hm]; cases t <;> rfl
  | awaitKey x =>
    obtain ⟨registers, hm⟩ := m.handled_awaitKey x
    rw [hm]
    cases t <;> rfl
  | _ => cases t <;> simp only [handled, handle] <;> rfl

theorem handled_timer_of_some {m : Machine} {i : Instruction}
    (h : Instruction.decode? (m.memory.fetch m.pc) = some i) (t : Timer.Role) :
    (m.fetch.handled i).machine.timer t = m.loaded t := by
  rw [handled_timer, loaded, written?, instruction?, h]
  cases t <;> rfl

/-- A cycle ticks both timers, after its instruction had its say. -/
theorem step_timer (m : Machine) (t : Timer.Role) : m.step.machine.timer t = (m.loaded t).tick := by
  cases h : Instruction.decode? (m.memory.fetch m.pc) with
  | none =>
    rw [step_machine_of_none h, loaded, written?, instruction?, h]
    cases t <;> rfl
  | some i =>
    obtain ⟨pc, hpc⟩ := m.fetch.execute_machine i
    rw [step_machine_of_some h, hpc, ← handled_timer_of_some h t]
    cases t <;> rfl

theorem step_soundStopped (m : Machine) :
    m.step.answer.soundStopped = (m.loaded .sound).expires := by
  cases h : Instruction.decode? (m.memory.fetch m.pc) with
  | none =>
    rw [step_answer_of_none h, loaded, written?, instruction?, h]
    rfl
  | some i =>
    obtain ⟨pc, hpc⟩ := m.fetch.execute_machine i
    rw [step_answer_of_some h, hpc, ← handled_timer_of_some h .sound]
    rfl

/-- The value that cycle `k` of a run gives to a timer, the cycles counted from 1. What the timer
shows at the start counts as given in cycle 0. -/
def setting? (m : Machine) (t : Timer.Role) : Nat → Option UInt8
  | 0 => some (m.timer t).value
  | k + 1 => (run k m).machine.written? t

/-- The first cycle whose tick meets a value of cycle `k`: that cycle itself, or the first one. -/
def firstTick (k : Nat) : Nat := max 1 k

theorem firstTick_le {k n : Nat} (h : k ≤ n + 1) : firstTick k ≤ n + 1 :=
  Nat.max_le.mpr ⟨Nat.le_add_left 1 n, h⟩

/-- After cycle `k` and up to cycle `n` nothing is written to the timer. -/
def Untouched (m : Machine) (t : Timer.Role) (k n : Nat) : Prop :=
  ∀ j ≤ n, k < j → m.setting? t j = none

instance (m : Machine) (t : Timer.Role) (k n : Nat) : Decidable (m.Untouched t k n) :=
  inferInstanceAs (Decidable (∀ j ≤ n, k < j → m.setting? t j = none))

/-- Cycle `k` gave the timer the value `v`, and it is still in force in cycle `n`. -/
structure InForce (m : Machine) (t : Timer.Role) (k : Nat) (v : UInt8) (n : Nat) : Prop where
  given : m.setting? t k = some v
  le : k ≤ n
  untouched : m.Untouched t k n

theorem exists_inForce (m : Machine) (t : Timer.Role) (n : Nat) : ∃ k v, m.InForce t k v n := by
  induction n with
  | zero => exact ⟨0, (m.timer t).value, rfl, Nat.le_refl 0, fun j hj hk => by omega⟩
  | succ n ih =>
    cases h : m.setting? t (n + 1) with
    | some v => exact ⟨n + 1, v, h, Nat.le_refl _, fun j hj hk => by omega⟩
    | none =>
      obtain ⟨k, v, hgiven, hle, huntouched⟩ := ih
      refine ⟨k, v, hgiven, by omega, fun j hj hk => ?_⟩
      rcases Nat.lt_or_eq_of_le hj with hj | rfl
      · exact huntouched j (by omega) hk
      · exact h

/-- A value that cycle `n + 1` does not give itself was in force before it. -/
theorem InForce.pred {m : Machine} {t : Timer.Role} {k n : Nat} {v : UInt8}
    (h : m.InForce t k v (n + 1)) (hk : k ≤ n) : m.InForce t k v n :=
  ⟨h.given, hk, fun j hj => h.untouched j (by omega)⟩

theorem loaded_of_inForce {m : Machine} {t : Timer.Role} {k n : Nat} {v : UInt8}
    (h : m.InForce t k v (n + 1))
    (hbefore : k ≤ n → (run n m).machine.timer t = (Timer.mk v).after (n + 1 - firstTick k)) :
    (run n m).machine.loaded t = (Timer.mk v).after (n + 1 - firstTick k) := by
  rcases Nat.lt_or_eq_of_le h.le with hk | rfl
  · have hnone : (run n m).machine.written? t = none := h.untouched (n + 1) (Nat.le_refl _) hk
    rw [loaded, hnone, ← hbefore (by omega)]
    rfl
  · have hgiven : (run n m).machine.written? t = some v := h.given
    have hfirst : n + 1 - firstTick (n + 1) = 0 :=
      Nat.sub_eq_zero_of_le (Nat.le_max_right 1 (n + 1))
    rw [loaded, hgiven, hfirst, Timer.after_zero]
    rfl

/-- After `n` cycles a timer shows the value in force less the ticks that met it. -/
theorem run_timer {m : Machine} {t : Timer.Role} {k n : Nat} {v : UInt8}
    (h : m.InForce t k v n) :
    (run n m).machine.timer t = (Timer.mk v).after (n + 1 - firstTick k) := by
  induction n with
  | zero =>
    obtain rfl : k = 0 := Nat.le_zero.mp h.le
    obtain rfl : (m.timer t).value = v := Option.some.inj h.given
    exact (Timer.after_zero _).symm
  | succ n ih =>
    have hloaded := loaded_of_inForce h fun hk => ih (h.pred hk)
    have hticks : n + 1 - firstTick k + 1 = n + 1 + 1 - firstTick k :=
      (Nat.succ_sub (firstTick_le h.le)).symm
    rw [run_succ_machine, step_timer, hloaded, Timer.tick_after, hticks]

/-- The value in force stops the sound in the cycle in which it runs out. -/
theorem soundStopped_of_inForce {m : Machine} {k n : Nat} {v : UInt8}
    (h : m.InForce .sound k v (n + 1)) :
    (run n m).machine.step.answer.soundStopped = true ↔ firstTick k + v.toNat = n + 2 := by
  rw [step_soundStopped, loaded_of_inForce h fun hk => run_timer (h.pred hk), Timer.expires_after]
  have hfirst := firstTick_le h.le
  change v.toNat = _ ↔ _
  omega

/-- The cycle of a run of `n` cycles in which the value of cycle `k` stops the sound: the one in
which it runs out, if it is within the run and nothing is written before. -/
def stop? (m : Machine) (n k : Nat) : Option Nat :=
  (m.setting? .sound k).bind fun v =>
    let last := firstTick k + v.toNat - 1
    if 1 ≤ v.toNat ∧ last ≤ n ∧ m.Untouched .sound k last then some last else none

theorem stop?_eq_some_iff (m : Machine) (n k c : Nat) :
    m.stop? n k = some c ↔
      ∃ v, m.setting? .sound k = some v ∧ 1 ≤ v.toNat ∧ firstTick k + v.toNat = c + 1 ∧ c ≤ n ∧
        m.Untouched .sound k c := by
  have hfirst : 1 ≤ firstTick k := Nat.le_max_left 1 k
  simp only [stop?, Option.bind_eq_some_iff, Option.ite_none_right_eq_some, Option.some.injEq]
  constructor
  · rintro ⟨v, hv, ⟨hpos, hle, huntouched⟩, rfl⟩
    exact ⟨v, hv, hpos, by omega, hle, huntouched⟩
  · rintro ⟨v, hv, hpos, hsum, hle, huntouched⟩
    obtain rfl : firstTick k + v.toNat - 1 = c := by omega
    exact ⟨v, hv, ⟨hpos, hle, huntouched⟩, rfl⟩

/-- The cycles, counted from 1, that report that the sound stopped. -/
def stops (cycles : List Cycle) : List Nat := cycles.findIdxs Cycle.soundStopped 1

theorem mem_stops_run_iff (m : Machine) (n c : Nat) :
    c + 1 ∈ stops (run n m).answer ↔ c < n ∧ (run c m).machine.step.answer.soundStopped = true := by
  rw [stops, List.mem_findIdxs_iff_getElem_sub_pos, Nat.add_sub_cancel]
  constructor
  · rintro ⟨_, hlt, hstop⟩
    rw [getElem_run] at hstop
    exact ⟨length_run n m ▸ hlt, hstop⟩
  · rintro ⟨hlt, hstop⟩
    refine ⟨by omega, (length_run n m).symm ▸ hlt, ?_⟩
    rwa [getElem_run]

/-- Every stop belongs to a value that runs out, and every value that runs out stops the sound. -/
theorem mem_stops_iff (m : Machine) (n c : Nat) :
    c ∈ stops (run n m).answer ↔ ∃ k, m.stop? n k = some c := by
  simp only [stop?_eq_some_iff]
  cases c with
  | zero =>
    constructor
    · intro h
      exact absurd (List.ge_of_mem_findIdxs 0 h) (Nat.not_succ_le_zero 0)
    · rintro ⟨k, v, _, hpos, hsum, _⟩
      have hfirst : 1 ≤ firstTick k := Nat.le_max_left 1 k
      omega
  | succ c =>
    rw [mem_stops_run_iff]
    constructor
    · rintro ⟨hlt, hstop⟩
      obtain ⟨k, v, h⟩ := m.exists_inForce .sound (c + 1)
      have hsum := (soundStopped_of_inForce h).mp hstop
      have hfirst := firstTick_le h.le
      exact ⟨k, v, h.given, by omega, hsum, hlt, h.untouched⟩
    · rintro ⟨k, v, hgiven, hpos, hsum, hlt, huntouched⟩
      have hfirst : k ≤ firstTick k := Nat.le_max_right 1 k
      exact ⟨hlt, (soundStopped_of_inForce ⟨hgiven, by omega, huntouched⟩).mpr hsum⟩

/-- A value that stops the sound does so before the next value is written, and so before that one
does. -/
theorem stop?_lt {m : Machine} {n j k b c : Nat} (hjk : j < k) (hb : m.stop? n j = some b)
    (hc : m.stop? n k = some c) : b < c := by
  obtain ⟨v, _, _, _, _, huntouched⟩ := (m.stop?_eq_some_iff n j b).mp hb
  obtain ⟨w, hw, hpos, hsum, _⟩ := (m.stop?_eq_some_iff n k c).mp hc
  have hfirst : k ≤ firstTick k := Nat.le_max_right 1 k
  by_contra hle
  have hnone := huntouched k (by omega) hjk
  rw [hw] at hnone
  cases hnone

theorem stops_eq_filterMap (m : Machine) (n : Nat) :
    stops (run n m).answer = (List.range (n + 1)).filterMap (m.stop? n) := by
  have hincreasing : ((List.range (n + 1)).filterMap (m.stop? n)).Pairwise (· < ·) := by
    rw [List.pairwise_filterMap]
    exact List.pairwise_lt_range.imp fun hjk b hb c hc => stop?_lt hjk hb hc
  refine List.Pairwise.eq_of_mem_iff List.pairwise_findIdxs hincreasing fun c => ?_
  rw [mem_stops_iff, List.mem_filterMap]
  constructor
  · rintro ⟨k, hk⟩
    obtain ⟨v, _, hpos, hsum, hle, _⟩ := (m.stop?_eq_some_iff n k c).mp hk
    have hfirst : k ≤ firstTick k := Nat.le_max_right 1 k
    exact ⟨k, List.mem_range.mpr (by omega), hk⟩
  · rintro ⟨k, _, hk⟩
    exact ⟨k, hk⟩

/-- In the cycle that writes it, a value stops the sound only if it is one. -/
theorem mem_stops_of_setting {m : Machine} {n c : Nat} {v : UInt8}
    (hv : m.setting? .sound (c + 1) = some v) (hc : c < n) :
    c + 1 ∈ stops (run n m).answer ↔ v = 1 := by
  have h : m.InForce .sound (c + 1) v (c + 1) :=
    ⟨hv, Nat.le_refl _, fun j hj hk => absurd hk (Nat.not_lt.mpr hj)⟩
  have hfirst : firstTick (c + 1) = c + 1 := Nat.max_eq_right (Nat.le_add_left 1 c)
  rw [mem_stops_run_iff, soundStopped_of_inForce h, hfirst, ← UInt8.toNat_inj]
  change _ ↔ v.toNat = 1
  omega

theorem step_getDelay {m : Machine} {x : Register} (h : m.instruction? .step = some (.getDelay x)) :
    m.step.machine.v x = m.delay.value := by
  obtain ⟨word, pc, delay, sound, hm⟩ := perform_of_instruction h
  have hs : (m.perform .step).machine = m.step.machine := rfl
  rw [← hs, hm]
  simp [v, handled, handle, setRegister, get_setAt]

/-- The sound and the timers of any run. The stops are those of the values that run out, one for
each and in their order, in particular none in a cycle that writes 0 and one in each that writes 1.
A timer shows the value in force less the ticks that met it, and what an instruction reads of the
delay timer is what the cycle before it left there. -/
theorem stops_follow_settings (m : Machine) (n : Nat) :
    stops (run n m).answer = (List.range (n + 1)).filterMap (m.stop? n) ∧
      (∀ c < n, ∀ v, m.setting? .sound (c + 1) = some v →
        (c + 1 ∈ stops (run n m).answer ↔ v = 1)) ∧
      (∀ t, ∃ k v, m.InForce t k v n ∧
        ((run n m).machine.timer t).value.toNat = v.toNat - (n + 1 - firstTick k)) ∧
      ∀ j < n, ∀ x, (run j m).machine.instruction? .step = some (.getDelay x) →
        (run (j + 1) m).machine.v x = (run j m).machine.delay.value := by
  refine ⟨m.stops_eq_filterMap n, fun c hc v hv => mem_stops_of_setting hv hc, fun t => ?_,
    fun j _ x hx => ?_⟩
  · obtain ⟨k, v, h⟩ := m.exists_inForce t n
    exact ⟨k, v, h, by rw [run_timer h, Timer.toNat_after]⟩
  · rw [run_succ_machine]
    exact step_getDelay hx

/-- Two beeps: the first one takes the place of a sound that is on already, the other one is over in
its cycle. -/
def twoBeeps : Machine :=
  { ((powerOn 0).load [0xF1, 0x18, 0x61, 0x01, 0xF1, 0x18]).machine with
    registers := setAt Registers.zeros 1 2
    sound := ⟨2⟩ }

theorem stops_follow_settings_of_two_beeps :
    stops (run 3 twoBeeps).answer = [2, 3] ∧ twoBeeps.setting? .sound 0 = some 2 := by
  obtain ⟨hstops, _⟩ := stops_follow_settings twoBeeps 3
  have hdue : (List.range 4).filterMap (twoBeeps.stop? 3) = [2, 3] := by decide +kernel
  exact ⟨hstops.trans hdue, rfl⟩

end Machine
end Chip8
