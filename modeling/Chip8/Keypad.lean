import Chip8.Diagnostic
import Chip8.Slots

/-!
# Keypad

Sixteen keys `0` to `F`, each up or down. Commands may name any key; those beyond the sixteen
change nothing.
-/
namespace Chip8

abbrev Keypad := Vector Bool 16

namespace Keypad

def size : Nat := 16

def allUp : Keypad := Vector.replicate 16 false

def setKey (p : Keypad) (key : Nat) (down : Bool) : Keypad :=
  if h : key < 16 then p.set key down else p

def toggleKey (p : Keypad) (key : Nat) : Keypad :=
  if h : key < 16 then p.set key (!p[key]) else p

/-- The state of the key in the low nibble of a byte. -/
def isDown (p : Keypad) (value : UInt8) : Bool := p[value.toNat % 16]

def lowestDown? (p : Keypad) : Option Nibble := (List.finRange 16).find? fun k => p.get k

/-- What can be done to a keypad. -/
inductive Command
  | setKey (key : Nat) (down : Bool)
  | toggleKey (key : Nat)
  | setAll (keys : Keypad)
  | releaseAll

def perform (p : Keypad) : Command → Keypad
  | .setKey key down => p.setKey key down
  | .toggleKey key => p.toggleKey key
  | .setAll keys => keys
  | .releaseAll => allUp

/-- Setting an unknown key is reported, toggling one is not. -/
def Command.log : Command → Log
  | .setKey key _ => if key < 16 then [] else [.unknownKey key]
  | _ => []

theorem get_setKey (p : Keypad) (key : Nat) (down : Bool) (k : Nibble) :
    (p.setKey key down).get k = if key = k.val then down else p.get k := by
  unfold setKey
  split
  · simp [get_eq_getElem, Vector.getElem_set]
  · have := k.isLt
    rw [if_neg (by omega)]

theorem get_toggleKey (p : Keypad) (key : Nat) (k : Nibble) :
    (p.toggleKey key).get k = if key = k.val then !p.get k else p.get k := by
  unfold toggleKey
  split
  · simp only [get_eq_getElem, Vector.getElem_set]
    split
    · simp_all
    · rfl
  · have := k.isLt
    rw [if_neg (by omega)]

theorem lowestDown?_eq_none_iff (p : Keypad) :
    p.lowestDown? = none ↔ ∀ k : Nibble, p.get k = false := by
  simp [lowestDown?]

theorem lowestDown?_eq_some_iff (p : Keypad) (k : Nibble) :
    p.lowestDown? = some k ↔ p.get k = true ∧ ∀ j < k, p.get j = false := by
  simp only [lowestDown?, List.find?_eq_some_iff_getElem, List.getElem_finRange, Bool.not_eq_true']
  constructor
  · rintro ⟨hdown, i, _, rfl, hbelow⟩
    exact ⟨hdown, fun j hj => hbelow j.val hj⟩
  · rintro ⟨hdown, hbelow⟩
    refine ⟨hdown, k.val, ?_, rfl, fun j hj => hbelow _ hj⟩
    rw [List.length_finRange]
    exact k.isLt

end Keypad
end Chip8
