/-!
# Moving the program counter

Every instruction says how the program counter goes on; the result always has twelve bits.
-/
namespace Chip8

/-- How the program counter goes on from an instruction. -/
inductive Advance
  | stay
  | next
  | skip
  | jump (target : UInt16)
  deriving DecidableEq

namespace Advance

/-- Addresses have twelve bits. -/
def addressMask : UInt16 := 0x0FFF

/-- An instruction is two bytes long. -/
def wordSize : UInt16 := 2

def skipIf (condition : Bool) : Advance := if condition then .skip else .next

/-- Where the counter stands before the mask cuts it down to an address. -/
def target (pc : UInt16) : Advance → UInt16
  | .stay => pc
  | .next => pc + wordSize
  | .skip => pc + 2 * wordSize
  | .jump address => address

def apply (a : Advance) (pc : UInt16) : UInt16 := a.target pc &&& addressMask

theorem toNat_apply (a : Advance) (pc : UInt16) :
    (a.apply pc).toNat = (a.target pc).toNat % 4096 := by
  simp only [apply, addressMask, UInt16.toNat_and]
  exact Nat.and_two_pow_sub_one_eq_mod _ 12

/-- A moved program counter is an address of the memory. -/
theorem apply_lt (a : Advance) (pc : UInt16) : (a.apply pc).toNat < 4096 := by
  rw [toNat_apply]
  omega

/-- Staying cuts the program counter down to an address, too. -/
theorem apply_stay (pc : UInt16) : stay.apply pc = UInt16.ofNat (pc.toNat % 4096) := by
  have hstay : (stay.apply pc).toNat = pc.toNat % 4096 := toNat_apply stay pc
  rw [← hstay, UInt16.ofNat_toNat]

theorem toNat_apply_next (pc : UInt16) : (next.apply pc).toNat = (pc.toNat + 2) % 4096 := by
  rw [toNat_apply]
  simp only [target, wordSize, UInt16.toNat_add]
  change (pc.toNat + 2) % 65536 % 4096 = _
  omega

theorem apply_next (pc : UInt16) : next.apply pc = UInt16.ofNat ((pc.toNat + 2) % 4096) := by
  rw [← toNat_apply_next, UInt16.ofNat_toNat]

theorem toNat_apply_skip (pc : UInt16) : (skip.apply pc).toNat = (pc.toNat + 4) % 4096 := by
  rw [toNat_apply]
  simp only [target, wordSize, UInt16.toNat_add]
  change (pc.toNat + 4) % 65536 % 4096 = _
  omega

end Advance
end Chip8
