import Mathlib.Data.List.DropRight
import Mathlib.Data.Nat.Bits
import Chip8.Proofs.Checked.Refinement

/-!
# The history of a key

A key stands as it was last put, turned over once for every toggle since then. Keys that the keypad
does not have change nothing, and only setting one of them is reported.
-/
namespace Chip8

namespace Keypad

/-- How a command puts key `k`, whatever it was before. -/
def Command.puts? (k : Nibble) : Command → Option Bool
  | .setKey key down => if key = k.val then some down else none
  | .toggleKey _ => none
  | .setAll keys => some (keys.get k)
  | .releaseAll => some false

/-- Whether a command turns key `k` over. -/
def Command.toggles (k : Nibble) : Command → Bool
  | .toggleKey key => key = k.val
  | _ => false

/-- The key that a command tries to set in vain. -/
def Command.unknown? : Command → Option Nat
  | .setKey key _ => if 16 ≤ key then some key else none
  | _ => none

def performAll (cs : List Command) (p : Keypad) : Keypad := cs.foldl perform p

/-- How key `k` was last put; at first every key is up. -/
def lastPut (k : Nibble) (cs : List Command) : Bool :=
  (cs.filterMap (Command.puts? k)).getLast?.getD false

/-- The number of toggles of key `k` since it was last put. -/
def togglesSince (k : Nibble) (cs : List Command) : Nat :=
  (cs.rtakeWhile fun c => (c.puts? k).isNone).countP (Command.toggles k)

/-! ### How a key stands -/

theorem get_allUp (k : Nibble) : allUp.get k = false := by
  simp [allUp, get_eq_getElem]

theorem get_perform (p : Keypad) (c : Command) (k : Nibble) :
    (p.perform c).get k = (c.puts? k).getD (p.get k ^^ c.toggles k) := by
  cases c with
  | setKey key down =>
    simp only [perform, get_setKey, Command.puts?, Command.toggles, Bool.xor_false]
    split <;> rfl
  | toggleKey key =>
    simp only [perform, get_toggleKey, Command.puts?, Command.toggles, Option.getD_none]
    by_cases h : key = k.val <;> simp [h]
  | setAll keys => rfl
  | releaseAll => exact get_allUp k

theorem performAll_concat (cs : List Command) (c : Command) (p : Keypad) :
    performAll (cs ++ [c]) p = (performAll cs p).perform c := by
  rw [performAll, List.foldl_concat, performAll]

theorem lastPut_concat (k : Nibble) (cs : List Command) (c : Command) :
    lastPut k (cs ++ [c]) = (c.puts? k).getD (lastPut k cs) := by
  rw [lastPut, List.filterMap_append]
  cases h : c.puts? k <;> simp [lastPut, h]

theorem togglesSince_concat (k : Nibble) (cs : List Command) (c : Command) :
    togglesSince k (cs ++ [c]) =
      if (c.puts? k).isNone then togglesSince k cs + (c.toggles k).toNat else 0 := by
  rw [togglesSince, List.rtakeWhile_concat]
  split
  · rw [List.countP_append, togglesSince]
    cases h : c.toggles k <;> simp [h]
  · rfl

theorem get_performAll (cs : List Command) (k : Nibble) :
    (performAll cs allUp).get k = (lastPut k cs ^^ (togglesSince k cs).bodd) := by
  induction cs using List.reverseRecOn with
  | nil => simp [performAll, get_allUp, lastPut, togglesSince]
  | append_singleton cs c ih =>
    rw [performAll_concat, get_perform, lastPut_concat, togglesSince_concat, ih]
    cases c.puts? k with
    | some down => simp
    | none =>
      have hodd : (c.toggles k).toNat.bodd = c.toggles k := by cases c.toggles k <;> rfl
      simp [Nat.bodd_add, hodd]

theorem setKey_of_unknown {key : Nat} (h : 16 ≤ key) (p : Keypad) (down : Bool) :
    p.setKey key down = p := dif_neg (Nat.not_lt.mpr h)

theorem toggleKey_of_unknown {key : Nat} (h : 16 ≤ key) (p : Keypad) : p.toggleKey key = p :=
  dif_neg (Nat.not_lt.mpr h)

theorem log_eq (c : Command) : c.log = (c.unknown?.map .unknownKey).toList := by
  cases c with
  | setKey key down =>
    rcases Nat.lt_or_ge key 16 with h | h
    · simp [Command.log, Command.unknown?, h, Nat.not_le.mpr h]
    · simp [Command.log, Command.unknown?, h, Nat.not_lt.mpr h]
  | _ => rfl

end Keypad

/-! ### On a bare array -/

namespace Checked

/-- Setting a key that the array does not have is reported. -/
def setKey (p : Keypad) (key : Nat) (down : Bool) : Keypad × Log :=
  match put p key down with
  | .ok q => (q, [])
  | .error _ => (p, [.unknownKey key])

/-- Toggling a key sets it to what it is not, if the array has it. -/
def toggleKey (p : Keypad) (key : Nat) : Keypad × Log :=
  match get p key with
  | .ok down => setKey p key (!down)
  | .error _ => (p, [])

def obey (p : Keypad) : Keypad.Command → Keypad × Log
  | .setKey key down => setKey p key down
  | .toggleKey key => toggleKey p key
  | .setAll keys => (keys, [])
  | .releaseAll => (Keypad.allUp, [])

/-- A history of commands, with everything that they report. -/
def obeyAll : List Keypad.Command → Keypad → Keypad × Log
  | [], p => (p, [])
  | c :: cs, p =>
    let first := obey p c
    let rest := obeyAll cs first.1
    (rest.1, first.2 ++ rest.2)

theorem setKey_eq (p : Keypad) (key : Nat) (down : Bool) :
    setKey p key down = (p.setKey key down, (Keypad.Command.setKey key down).log) := by
  by_cases h : key < 16
  · rw [setKey, put_of_lt p h, Keypad.setKey, dif_pos h, Keypad.Command.log, if_pos h]
  · rw [setKey, put, dif_neg h, Keypad.setKey, dif_neg h, Keypad.Command.log, if_neg h]

theorem toggleKey_eq (p : Keypad) (key : Nat) : toggleKey p key = (p.toggleKey key, []) := by
  by_cases h : key < 16
  · rw [toggleKey, get_of_lt p h]
    simp only [setKey_eq, Keypad.setKey, Keypad.toggleKey, Keypad.Command.log, dif_pos h, if_pos h]
  · rw [toggleKey, get, dif_neg h, Keypad.toggleKey_of_unknown (Nat.not_lt.mp h)]

theorem obey_eq (p : Keypad) (c : Keypad.Command) : obey p c = (p.perform c, c.log) := by
  cases c with
  | setKey key down => exact setKey_eq p key down
  | toggleKey key => exact toggleKey_eq p key
  | setAll keys | releaseAll => rfl

theorem obeyAll_eq (cs : List Keypad.Command) (p : Keypad) :
    obeyAll cs p =
      (Keypad.performAll cs p, (cs.filterMap Keypad.Command.unknown?).map .unknownKey) := by
  induction cs generalizing p with
  | nil => rfl
  | cons c cs ih =>
    simp only [obeyAll, obey_eq, ih, Keypad.log_eq]
    cases h : c.unknown? <;> simp [h, Keypad.performAll]

end Checked

namespace Keypad

/-- How a keypad stands after a history of commands, and what is read from it. -/
structure Stands (cs : List Command) (p : Keypad) : Prop where
  keys : ∀ k, p.get k = (lastPut k cs ^^ (togglesSince k cs).bodd)
  lowest : ∀ k, p.lowestDown? = some k ↔ p.get k = true ∧ ∀ j < k, p.get j = false
  released : p.lowestDown? = none ↔ ∀ k, p.get k = false
  nibble : ∀ value : UInt8,
    p.isDown value = p.get ⟨value.toNat % 16, Nat.mod_lt _ (Nat.succ_pos 15)⟩
  masked : ∀ value : UInt8, Checked.get p (value &&& 0x0F).toNat = .ok (p.isDown value)

theorem performAll_stands (cs : List Command) : Stands cs (performAll cs allUp) where
  keys := get_performAll cs
  lowest := lowestDown?_eq_some_iff _
  released := lowestDown?_eq_none_iff _
  nibble _ := rfl
  masked := Checked.State.isDown_ofMachine
    { Machine.powerOn 0 with keypad := performAll cs allUp }

/-- After any history of a new keypad each key stands as it was last put, turned over by an odd
number of toggles since. Keys that there are not change nothing; setting one is reported, once, and
toggling one is not, also where toggling means setting a bare array. -/
theorem keys_stand_as_last_put :
    (∀ cs : List Command,
      Checked.obeyAll cs allUp =
          (performAll cs allUp, (cs.filterMap Command.unknown?).map .unknownKey) ∧
        Stands cs (performAll cs allUp)) ∧
      (∀ (p : Keypad) (key : Nat), 16 ≤ key →
        (∀ down, p.setKey key down = p) ∧ p.toggleKey key = p) ∧
      (∀ (p : Keypad) (c : Command), Checked.obey p c = (p.perform c, c.log)) ∧
      (∀ key down, (Command.setKey key down).log = if 16 ≤ key then [.unknownKey key] else []) ∧
      ∀ key, (Command.toggleKey key).log = [] ∧ (Diagnostic.unknownKey key).level = .warn := by
  refine ⟨fun cs => ⟨Checked.obeyAll_eq cs allUp, performAll_stands cs⟩, fun p key h => ?_,
    Checked.obey_eq, fun key down => ?_, fun key => ⟨rfl, rfl⟩⟩
  · exact ⟨setKey_of_unknown h p, toggleKey_of_unknown h p⟩
  · rw [log_eq, Command.unknown?]
    split <;> rfl

/-- Key A is pressed and turned over, key 3 is turned over three times, and two of the keys are
not there. -/
def fumbling : List Command :=
  [.setKey 0xA true, .toggleKey 0x3, .setKey 0x10 true, .toggleKey 0xA, .toggleKey 0x3,
    .toggleKey 0x42, .toggleKey 0x3]

theorem keys_stand_as_last_put_after_fumbling :
    16 ≤ 0x42 ∧ allUp.toggleKey 0x42 = allUp ∧
      (performAll fumbling allUp).get 0xA = false ∧ (performAll fumbling allUp).get 0x3 = true ∧
      (performAll fumbling allUp).lowestDown? = some 0x3 ∧
      (Checked.obeyAll fumbling allUp).2 = [.unknownKey 0x10] := by
  obtain ⟨hall, hunknown, _⟩ := keys_stand_as_last_put
  obtain ⟨hobeyed, hstands⟩ := hall fumbling
  have hthree : (performAll fumbling allUp).get 0x3 = true := by
    rw [hstands.keys]
    decide
  have hbelow : ∀ j < (0x3 : Nibble), (performAll fumbling allUp).get j = false := by decide
  refine ⟨by decide, (hunknown allUp 0x42 (by decide)).2, ?_, hthree,
    (hstands.lowest 0x3).mpr ⟨hthree, hbelow⟩, ?_⟩
  · rw [hstands.keys]
    decide
  · rw [hobeyed]
    rfl

end Keypad
end Chip8
