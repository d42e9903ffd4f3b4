/-!
# Timers

A timer counts down to zero, one per tick, and stays there.
-/
namespace Chip8

structure Timer where
  value : UInt8
  deriving DecidableEq

namespace Timer

/-- Ticks per second that a host is expected to keep up. -/
def hertz : Nat := 60

def zero : Timer := ⟨0⟩

def tick (t : Timer) : Timer := if t.value = 0 then t else ⟨t.value - 1⟩

/-- Whether the next tick is the one that moves the timer onto zero. -/
def expires (t : Timer) : Bool := t.value == 1

def running (t : Timer) : Bool := t.value != 0

theorem ext_toNat {a b : Timer} (h : a.value.toNat = b.value.toNat) : a = b := by
  cases a
  cases b
  exact congrArg Timer.mk (UInt8.toNat_inj.mp h)

theorem toNat_tick (t : Timer) : t.tick.value.toNat = t.value.toNat - 1 := by
  unfold tick
  split
  · simp_all
  · rename_i h
    have hpos : t.value.toNat ≠ 0 := fun h0 => h (UInt8.toNat_inj.mp h0)
    have hle : (1 : UInt8) ≤ t.value := UInt8.le_iff_toNat_le.mpr (Nat.pos_of_ne_zero hpos)
    simp [UInt8.toNat_sub_of_le _ _ hle]

/-- A timer expires on the tick that takes it from a running value to zero. -/
theorem expires_iff (t : Timer) : t.expires = true ↔ t.running = true ∧ t.tick.running = false := by
  simp only [expires, running, beq_iff_eq, bne_iff_ne, bne_eq_false_iff_eq, ← UInt8.toNat_inj,
    ne_eq, toNat_tick]
  change t.value.toNat = 1 ↔ ¬ t.value.toNat = 0 ∧ t.value.toNat - 1 = 0
  omega

/-- A timer `n` ticks on. -/
def after (t : Timer) (n : Nat) : Timer := ⟨UInt8.ofNat (t.value.toNat - n)⟩

theorem toNat_after (t : Timer) (n : Nat) : (t.after n).value.toNat = t.value.toNat - n := by
  have := t.value.toNat_lt
  simp only [after, UInt8.toNat_ofNat']
  omega

theorem after_zero (t : Timer) : t.after 0 = t :=
  ext_toNat (by rw [toNat_after, Nat.sub_zero])

theorem after_after (t : Timer) (k n : Nat) : (t.after k).after n = t.after (k + n) :=
  ext_toNat (by rw [toNat_after, toNat_after, toNat_after, Nat.sub_sub])

theorem tick_eq_after (t : Timer) : t.tick = t.after 1 :=
  ext_toNat (by rw [toNat_tick, toNat_after])

theorem tick_after (t : Timer) (n : Nat) : (t.after n).tick = t.after (n + 1) := by
  rw [tick_eq_after, after_after]

theorem expires_after (t : Timer) (n : Nat) :
    (t.after n).expires = true ↔ t.value.toNat = n + 1 := by
  rw [expires, beq_iff_eq, ← UInt8.toNat_inj, toNat_after]
  change t.value.toNat - n = 1 ↔ _
  omega

end Timer
end Chip8
