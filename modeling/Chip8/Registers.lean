import Chip8.Slots
import Chip8.Word

/-!
# Registers

Sixteen bytes `V0` to `VF`. The last one doubles as the flag of the instructions that report a
carry, a missing borrow, a shifted-out bit or a collision. The nine two-operand operations read both
operands before anything is written and write the flag last, so it wins when the target is the flag
register.
-/
namespace Chip8

abbrev Register := Nibble
abbrev Registers := Vector UInt8 16

namespace Registers

def size : Nat := 16

def flag : Register := Fin.last 15

def first : Register := ⟨0, by decide⟩

def zeros : Registers := Vector.replicate 16 0

/-- Replaces `V0` to `Vlast` by the bytes that `source` gives for their numbers. -/
def fill (v : Registers) (last : Register) (source : Nat → UInt8) : Registers :=
  Vector.ofFn fun k => if k ≤ last then source k.val else v.get k

/-- The bytes of `V0` to `Vlast`. -/
def upTo (v : Registers) (last : Register) : List UInt8 :=
  v.toList.take (last.val + 1)

theorem get_fill (v : Registers) (last k : Register) (source : Nat → UInt8) :
    (v.fill last source).get k = if k ≤ last then source k.val else v.get k := by
  simp [fill, get_eq_getElem]

theorem length_upTo (v : Registers) (last : Register) : (v.upTo last).length = last.val + 1 := by
  simp only [upTo, List.length_take, Vector.length_toList]
  omega

theorem getElem?_upTo (v : Registers) (last k : Register) (h : k ≤ last) :
    (v.upTo last)[k.val]? = some (v.get k) := by
  rw [upTo, List.getElem?_take_of_lt (Nat.lt_succ_of_le h)]
  simp [get_eq_getElem]

end Registers

inductive ArithmeticOp
  | assign | or | and | xor | add | sub | shiftRight | subReverse | shiftLeft
  deriving DecidableEq

namespace ArithmeticOp

def result : ArithmeticOp → UInt8 → UInt8 → UInt8
  | .assign, _, b => b
  | .or, a, b => a ||| b
  | .and, a, b => a &&& b
  | .xor, a, b => a ^^^ b
  | .add, a, b => a + b
  | .sub, a, b => a - b
  | .shiftRight, a, _ => a >>> 1
  | .subReverse, a, b => b - a
  | .shiftLeft, a, _ => a <<< 1

/-- Carry of a sum, missing borrow of a difference, the bit that a shift drops. -/
def flag : ArithmeticOp → UInt8 → UInt8 → Option UInt8
  | .add, a, b => some (if 256 ≤ a.toNat + b.toNat then 1 else 0)
  | .sub, a, b => some (if b ≤ a then 1 else 0)
  | .shiftRight, a, _ => some (a &&& 1)
  | .subReverse, a, b => some (if a ≤ b then 1 else 0)
  | .shiftLeft, a, _ => some (a >>> 7)
  | _, _, _ => none

end ArithmeticOp

namespace Registers

def setFlag (v : Registers) : Option UInt8 → Registers
  | none => v
  | some f => setAt v flag f

def arithmetic (v : Registers) (op : ArithmeticOp) (x y : Register) : Registers :=
  let a := v.get x
  let b := v.get y
  setFlag (setAt v x (op.result a b)) (op.flag a b)

end Registers
end Chip8
