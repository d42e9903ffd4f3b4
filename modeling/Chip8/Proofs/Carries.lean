import Chip8.Proofs.Footprint

/-!
# Carries and borrows

With its flag an operation on bytes tells all of the exact result: a sum is the byte and the carry, a
difference the byte and the missing borrow, a shift the byte and the bit that fell out. Both operands
are those from before, also when one of them is the flag register, and the flag wins over the result.
-/
namespace Chip8

namespace ArithmeticOp

/-- The byte `r` and the flag `f` balance the numbers that the operation is about. Where nothing is
told in the flag there is nothing to balance. -/
def Balances (a b r f : Int) : ArithmeticOp → Prop
  | .add => r + 256 * f = a + b
  | .sub => r = a - b + 256 * (1 - f) ∧ (f = 1 ↔ b ≤ a)
  | .subReverse => r = b - a + 256 * (1 - f) ∧ (f = 1 ↔ a ≤ b)
  | .shiftRight => a = 2 * r + f
  | .shiftLeft => 2 * a = r + 256 * f
  | .assign | .or | .and | .xor => False

/-- `r` is a byte and `f` a bit, and together they are what the operation makes of `a` and `b`. -/
structure Exact (op : ArithmeticOp) (a b r f : Int) : Prop where
  byte : 0 ≤ r ∧ r ≤ 255
  bit : f = 0 ∨ f = 1
  balance : op.Balances a b r f

/-- There is only one such byte and one such bit. -/
theorem Exact.unique {op : ArithmeticOp} {a b r f s g : Int} (h : op.Exact a b r f)
    (h' : op.Exact a b s g) : r = s ∧ f = g := by
  have hr := h.byte
  have hs := h'.byte
  have hf := h.bit
  have hg := h'.bit
  have hbalance := h.balance
  have hbalance' := h'.balance
  cases op with
  | assign | or | and | xor => exact hbalance.elim
  | _ =>
    simp only [Balances] at hbalance hbalance'
    omega

theorem toNat_bit (p : Prop) [Decidable p] :
    (if p then 1 else 0 : UInt8).toNat = if p then 1 else 0 := by
  split <;> rfl

theorem exact_of_balances {op : ArithmeticOp} {a b : Int} {r : UInt8} {f : Nat} (hf : f ≤ 1)
    (h : op.Balances a b r.toNat f) : op.Exact a b r.toNat f := by
  have hr := r.toNat_lt
  exact ⟨by omega, by omega, h⟩

/-- The carry is the place above the byte. -/
theorem exact_add (a b : UInt8) :
    add.Exact a.toNat b.toNat (a + b).toNat
      (if 256 ≤ a.toNat + b.toNat then 1 else 0 : UInt8).toNat := by
  have ha := a.toNat_lt
  have hb := b.toNat_lt
  have hsum : (a + b).toNat = (a.toNat + b.toNat) % 256 := UInt8.toNat_add a b
  rw [toNat_bit]
  split
  all_goals
    refine exact_of_balances (by omega) ?_
    simp only [Balances]
    omega

/-- The flag is one when nothing has to be borrowed from the place above the byte. -/
theorem exact_sub (a b : UInt8) :
    sub.Exact a.toNat b.toNat (a - b).toNat (if b ≤ a then 1 else 0 : UInt8).toNat := by
  have ha := a.toNat_lt
  have hb := b.toNat_lt
  have hdifference : (a - b).toNat = (256 - b.toNat + a.toNat) % 256 := UInt8.toNat_sub a b
  rw [toNat_bit]
  simp only [UInt8.le_iff_toNat_le]
  split
  all_goals
    refine exact_of_balances (by omega) ?_
    simp only [Balances]
    omega

theorem exact_shiftRight (a b : UInt8) :
    shiftRight.Exact a.toNat b.toNat (a >>> 1).toNat (a &&& 1).toNat := by
  have hhalf : (a >>> 1).toNat = a.toNat / 2 := by
    rw [UInt8.toNat_shiftRight]
    exact Nat.shiftRight_eq_div_pow a.toNat 1
  have hlow : (a &&& 1).toNat = a.toNat % 2 := by
    rw [UInt8.toNat_and]
    exact Nat.and_one_is_mod a.toNat
  refine exact_of_balances (by omega) ?_
  simp only [Balances]
  omega

theorem exact_shiftLeft (a b : UInt8) :
    shiftLeft.Exact a.toNat b.toNat (a <<< 1).toNat (a >>> 7).toNat := by
  have ha := a.toNat_lt
  have hdouble : (a <<< 1).toNat = a.toNat * 2 % 256 := by
    rw [UInt8.toNat_shiftLeft, Nat.shiftLeft_eq]
    rfl
  have hhigh : (a >>> 7).toNat = a.toNat / 128 := by
    rw [UInt8.toNat_shiftRight]
    exact Nat.shiftRight_eq_div_pow a.toNat 7
  refine exact_of_balances (by omega) ?_
  simp only [Balances]
  omega

/-- An operation that tells something in the flag loses nothing of its result. -/
theorem exact_result {op : ArithmeticOp} (h : op.setsFlag = true) (a b : UInt8) :
    ∃ f, op.flag a b = some f ∧ op.Exact a.toNat b.toNat (op.result a b).toNat f.toNat := by
  cases op with
  | add => exact ⟨_, rfl, exact_add a b⟩
  | sub => exact ⟨_, rfl, exact_sub a b⟩
  | subReverse =>
    have hexact := exact_sub b a
    exact ⟨_, rfl, hexact.byte, hexact.bit, hexact.balance⟩
  | shiftRight => exact ⟨_, rfl, exact_shiftRight a b⟩
  | shiftLeft => exact ⟨_, rfl, exact_shiftLeft a b⟩
  | _ => cases h

theorem Exact.setsFlag {op : ArithmeticOp} {a b r f : Int} (h : op.Exact a b r f) :
    op.setsFlag = true := by
  cases op with
  | assign | or | and | xor => exact h.balance.elim
  | _ => rfl

end ArithmeticOp

namespace Registers

variable {v : Registers} {op : ArithmeticOp} {x y : Register} {f : UInt8}

theorem get_arithmetic_flag (h : op.flag (v.get x) (v.get y) = some f) :
    (v.arithmetic op x y).get flag = f := by
  simp only [arithmetic, h, setFlag, get_setAt, if_pos]

/-- The flag is written last, and only over a target that is the flag register. -/
theorem get_arithmetic_target (h : x ≠ flag ∨ op.setsFlag = false) :
    (v.arithmetic op x y).get x = op.result (v.get x) (v.get y) := by
  simp only [arithmetic]
  cases hf : op.flag (v.get x) (v.get y) with
  | none => rw [setFlag, get_setAt, if_pos rfl]
  | some f =>
    have hx : x ≠ flag := by
      refine h.resolve_right fun hno => ?_
      rw [op.flag_eq_none hno] at hf
      cases hf
    rw [setFlag, get_setAt, if_neg hx.symm, get_setAt, if_pos rfl]

/-- Whatever numbers balance an operation are the ones that it leaves in the registers. -/
theorem arithmetic_of_exact {r f : Int}
    (h : op.Exact (v.get x).toNat (v.get y).toNat r f) :
    ((v.arithmetic op x y).get flag).toNat = f ∧
      (x ≠ flag → ((v.arithmetic op x y).get x).toNat = r) := by
  obtain ⟨bit, hflag, hexact⟩ := op.exact_result h.setsFlag (v.get x) (v.get y)
  obtain ⟨hr, hf⟩ := hexact.unique h
  refine ⟨?_, fun hx => ?_⟩
  · rw [get_arithmetic_flag hflag, hf]
  · rw [get_arithmetic_target (.inl hx), hr]

end Registers

namespace Machine

/-- What the nine operations leave in the registers, whichever of them are the same register. A sum,
a difference or a shift is exact to the last bit, with the flag winning over the result; the others
set the target alone. -/
theorem arithmetic_is_exact (m : Machine) (x y : Register) :
    let done := fun op => m.execute (.arithmetic op x y)
    (∀ op, op.setsFlag = true →
      (∃ r f : Int, op.Exact (m.v x).toNat (m.v y).toNat r f) ∧
        ∀ r f : Int, op.Exact (m.v x).toNat (m.v y).toNat r f →
          ((done op).machine.v Registers.flag).toNat = f ∧
            (x ≠ Registers.flag → ((done op).machine.v x).toNat = r)) ∧
      (done .assign).machine.v x = m.v y ∧
      (done .or).machine.v x = m.v x ||| m.v y ∧
      (done .and).machine.v x = m.v x &&& m.v y ∧
      (done .xor).machine.v x = m.v x ^^^ m.v y ∧
      (∀ op k, k ≠ x → (op.setsFlag = true → k ≠ Registers.flag) →
        (done op).machine.v k = m.v k) ∧
      ∀ op, (done op).answer = .ok .none ∧ (done op).machine =
        { m with registers := (done op).machine.registers, pc := Advance.next.apply m.pc } := by
  intro done
  have htarget : ∀ op, op.setsFlag = false →
      (done op).machine.v x = op.result (m.v x) (m.v y) := fun op hop =>
    Registers.get_arithmetic_target (.inr hop)
  refine ⟨fun op hop => ⟨?_, fun r f h => Registers.arithmetic_of_exact h⟩, htarget _ rfl,
    htarget _ rfl, htarget _ rfl, htarget _ rfl, fun op k hk hflag => ?_, fun op => ⟨rfl, rfl⟩⟩
  · obtain ⟨f, _, hexact⟩ := op.exact_result hop (m.v x) (m.v y)
    exact ⟨_, _, hexact⟩
  · refine get_arithmetic_of_ne ?_
    rintro (hx | ⟨hset, hf⟩)
    · exact hk hx
    · exact hflag hset hf

/-- A machine with large numbers in two registers, one of them the flag register. -/
def atFlag : Machine := ((powerOn 0).setRegister 1 100).setRegister Registers.flag 200

/-- The flag register is an operand and is overwritten by the carry; as the target it keeps only the
carry. -/
theorem arithmetic_is_exact_at_flag :
    ArithmeticOp.add.Exact (atFlag.v 1).toNat (atFlag.v Registers.flag).toNat 44 1 ∧
      ((atFlag.execute (.arithmetic .add 1 Registers.flag)).machine.v Registers.flag).toNat = 1 ∧
      ((atFlag.execute (.arithmetic .add 1 Registers.flag)).machine.v 1).toNat = 44 ∧
      ((atFlag.execute (.arithmetic .add Registers.flag 1)).machine.v Registers.flag).toNat = 1 ∧
      (atFlag.execute (.arithmetic .add Registers.flag 1)).machine.v 1 = 100 := by
  have hone : atFlag.v 1 = 100 := by decide +kernel
  have hflag : atFlag.v Registers.flag = 200 := by decide +kernel
  have hexact : ArithmeticOp.add.Exact (100 : UInt8).toNat (200 : UInt8).toNat 44 1 :=
    ⟨by omega, .inr rfl, rfl⟩
  have hswapped : ArithmeticOp.add.Exact (200 : UInt8).toNat (100 : UInt8).toNat 44 1 :=
    ⟨by omega, .inr rfl, rfl⟩
  obtain ⟨hoperand, _⟩ := arithmetic_is_exact atFlag 1 Registers.flag
  obtain ⟨htarget, _, _, _, _, hkept, _⟩ := arithmetic_is_exact atFlag Registers.flag 1
  rw [← hone, ← hflag] at hexact hswapped
  obtain ⟨hcarry, hsum⟩ := (hoperand .add rfl).2 _ _ hexact
  obtain ⟨hcarry', _⟩ := (htarget .add rfl).2 _ _ hswapped
  have hother := hkept .add 1 (by decide) (fun _ => by decide)
  exact ⟨hexact, Int.ofNat_inj.mp hcarry, Int.ofNat_inj.mp (hsum (by decide)),
    Int.ofNat_inj.mp hcarry', hother.trans hone⟩

end Machine
end Chip8
