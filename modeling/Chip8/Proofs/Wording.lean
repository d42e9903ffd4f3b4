import Chip8.Diagnostic
import Chip8.Proofs.Dump.Fields

/-!
# Reports name what they are about

No two diagnostics read alike: the first letters of a text tell what kind of report it is, and the
numbers in it are cut out one behind the other.
-/
namespace Chip8

namespace Numeral

theorem bareHexDigits_ne_nil (n : Nat) : bareHexDigits n ≠ [] := by
  rw [bareHexDigits]
  split <;> simp

theorem bareHexDigits_inj {a b : Nat} (h : bareHexDigits a = bareHexDigits b) : a = b := by
  induction a using Nat.strongRecOn generalizing b with
  | ind a ih =>
    rw [bareHexDigits.eq_def a, bareHexDigits.eq_def b] at h
    split at h
    case isTrue ha =>
      split at h
      case isTrue hb => exact hexDigit_inj a ha b hb (List.head_eq_of_cons_eq h)
      case isFalse =>
        -- a single digit has nothing in front of it
        have hdigit : [] ++ [hexDigit a] = bareHexDigits (b / 16) ++ [hexDigit (b % 16)] := h
        exact absurd (List.append_inj' hdigit rfl).1.symm (bareHexDigits_ne_nil _)
    case isFalse ha =>
      split at h
      case isTrue =>
        have hdigit : bareHexDigits (a / 16) ++ [hexDigit (a % 16)] = [] ++ [hexDigit b] := h
        exact absurd (List.append_inj' hdigit rfl).1 (bareHexDigits_ne_nil _)
      case isFalse hb =>
        obtain ⟨hhigh, hlow⟩ := List.append_inj' h rfl
        have hquot := ih (a / 16) (by omega) hhigh
        have hrem := hexDigit_inj _ (Nat.mod_lt a (by omega)) _ (Nat.mod_lt b (by omega))
          (List.head_eq_of_cons_eq hlow)
        omega

theorem bare_inj {a b : Nat} (h : bare a = bare b) : a = b := by
  have hdigits : bareHexDigits a = bareHexDigits b := by
    simpa [bare, marked] using h
  exact bareHexDigits_inj hdigits

end Numeral

theorem IllegalInstruction.message_inj {c d : IllegalInstruction} (h : c.message = d.message) :
    c = d := by
  have hletters := congrArg String.toList h
  unfold message at hletters
  simp only [toString, String.toList_append, String.toList_ofList, List.append_assoc,
    List.append_cancel_left_eq] at hletters
  cases c
  cases d
  exact congrArg _ (Dump.word_append_inj hletters).1

theorem StackError.message_inj {e f : StackError} (h : e.message = f.message) : e = f := by
  revert h
  cases e <;> cases f <;> decide

theorem Fault.message_inj {f g : Fault} (h : f.message = g.message) : f = g := by
  have hletters := congrArg String.toList h
  unfold message at hletters
  cases f with
  | opcode c =>
    cases g with
    | opcode d =>
      simp only [toString, String.toList_append, List.append_assoc,
        List.append_cancel_left_eq, List.append_cancel_right_eq] at hletters
      rw [IllegalInstruction.message_inj (String.toList_inj.mp hletters)]
    | stack e => simp [toString] at hletters
  | stack e =>
    cases g with
    | opcode d => simp [toString] at hletters
    | stack f =>
      simp only [toString, String.toList_append, List.append_assoc,
        List.append_cancel_left_eq, List.append_cancel_right_eq] at hletters
      rw [StackError.message_inj (String.toList_inj.mp hletters)]

namespace Diagnostic

/-- A bad word is placed behind the start of the programs, counted around the end of sixteen bits. -/
theorem message_badWord (w : Word) (pc : UInt16) (f : Fault) :
    (badWord w pc f).message = "Bad opcode " ++ wordText w ++ " at " ++ wordText pc ++ " (" ++
      wordText (UInt16.ofNat ((pc.toNat + 65536 - 0x200) % 65536)) ++ "): " ++ f.message := by
  have hplace : UInt16.ofNat ((pc.toNat + 65536 - 0x200) % 65536) = pc - 0x200 := by
    rw [← UInt16.toNat_inj, UInt16.toNat_ofNat', UInt16.toNat_sub]
    change (pc.toNat + 65536 - 512) % 65536 % 65536 = (65536 - 512 + pc.toNat) % 65536
    omega
  rw [hplace]
  rfl

/-- How the reports about cycles and the tone read. Numbers are written with upper-case digits: a
word with four of them, a key and a register with one. -/
structure Texts : Prop where
  digit : ∀ d < 16, "0123456789ABCDEF".toList[d]? = some (Numeral.hexDigit d)
  word : ∀ w : Word, wordText w = String.ofList ['0', 'x', Numeral.hexDigit w.family,
    Numeral.hexDigit w.x, Numeral.hexDigit w.y, Numeral.hexDigit w.n]
  key : ∀ d : Nibble, bareText d.val = String.ofList ['0', 'x', Numeral.hexDigit d]
  register : ∀ d : Nibble, nibbleText d = String.ofList [Numeral.hexDigit d]
  fetched : ∀ w pc, (fetched w pc).message = "opcode " ++ wordText w ++ " at " ++ wordText pc
  returned : ∀ caller, (returned caller).message = "return to " ++ wordText caller
  machineCall : ∀ target, (machineCall target).message =
    "machine code routine at " ++ wordText target ++ " handled as a jump"
  jumped : ∀ target, (jumped target).message = "jump to " ++ wordText target
  called : ∀ target pc, (called target pc).message =
    "call " ++ wordText target ++ " from " ++ wordText pc
  keyStored : ∀ key x, (keyStored key x).message =
    "key " ++ bareText key.val ++ " pressed, stored in V" ++ nibbleText x
  soundOn : soundOn.message = "sound on"
  soundOff : soundOff.message = "sound off"
  illegal : ∀ w, (Fault.opcode ⟨w⟩).message =
    "Invalid opcode state '" ++ ("An unsupported opcode was used " ++ wordText w ++ ".") ++ "'."
  overflow : (Fault.stack .overflow).message = "Invalid stack state 'Stack is full!'."
  underflow : (Fault.stack .underflow).message = "Invalid stack state 'Stack is empty!'."

theorem wordText_eq (w : Word) :
    wordText w = String.ofList ['0', 'x', Numeral.hexDigit w.family, Numeral.hexDigit w.x,
      Numeral.hexDigit w.y, Numeral.hexDigit w.n] := by
  have hx : w.toNat / 16 / 16 = w.toNat / 256 := Nat.div_div_eq_div_mul _ 16 16
  have hfamily : w.toNat / 256 / 16 = w.toNat / 4096 := Nat.div_div_eq_div_mul _ 256 16
  simp only [wordText, Numeral.word, Numeral.marked, Numeral.hexDigits, hx, hfamily]
  rfl

theorem bareText_eq (d : Nibble) :
    bareText d.val = String.ofList ['0', 'x', Numeral.hexDigit d] := by
  rw [bareText, Numeral.bare, Numeral.bareHexDigits, if_pos d.isLt]
  rfl

theorem nibbleText_eq (d : Nibble) : nibbleText d = String.ofList [Numeral.hexDigit d] := by
  rw [nibbleText, Numeral.hexDigits, Nat.mod_eq_of_lt d.isLt]
  rfl

theorem texts : Texts where
  digit := by decide
  word := wordText_eq
  key := bareText_eq
  register := nibbleText_eq
  fetched _ _ := rfl
  returned _ := rfl
  machineCall _ := rfl
  jumped _ := rfl
  called _ _ := rfl
  keyStored _ _ := rfl
  soundOn := rfl
  soundOff := rfl
  illegal _ := rfl
  overflow := rfl
  underflow := rfl

/-- The first six letters of a text. Only the two reports about the tone begin alike. -/
def opening : Diagnostic → String
  | .resetting _ => "resett"
  | .loaded _ => "loaded"
  | .refused .. => "Refusi"
  | .fetched .. => "opcode"
  | .badWord .. => "Bad op"
  | .returned _ => "return"
  | .machineCall _ => "machin"
  | .jumped _ => "jump t"
  | .called .. => "call 0"
  | .keyStored .. => "key 0x"
  | .unknownKey _ => "Ignori"
  | .soundOn | .soundOff => "sound "

theorem toList_opening (d : Diagnostic) : d.opening.toList = d.message.toList.take 6 := by
  unfold message
  cases d <;>
    simp [opening, toString, wordText, bareText, Numeral.word, Numeral.bare, Numeral.marked]

theorem word_label_word_inj {v w p q : UInt16} {label : List Char}
    (h : Numeral.word v ++ (label ++ Numeral.word p) = Numeral.word w ++ (label ++ Numeral.word q)) :
    v = w ∧ p = q := by
  obtain ⟨hfirst, hrest⟩ := Dump.word_append_inj h
  exact ⟨hfirst, Numeral.word_inj (List.append_cancel_left hrest)⟩

theorem message_injective : Function.Injective message := by
  intro d e h
  have hletters := congrArg String.toList h
  have hopening : d.opening = e.opening := by
    rw [← String.toList_inj, toList_opening, toList_opening, hletters]
  unfold message at hletters
  -- two kinds of reports differ in their first letters, so the same kind is left on both sides
  cases d <;> cases e <;> simp only [opening, String.reduceEq] at hopening
  all_goals simp only [toString, wordText, bareText, nibbleText, String.toList_append,
    String.toList_ofList, Nat.toList_repr, List.append_assoc, List.append_cancel_left_eq] at hletters
  case resetting.resetting a b => rw [UInt64.toNat_inj.mp (Numeral.bare_inj hletters)]
  case loaded.loaded a b => rw [Numeral.decimal_inj (List.append_cancel_right hletters)]
  case refused.refused a b c d =>
    have hlabel : " bytes, only ".toList = ' ' :: "bytes, only ".toList := by simp
    rw [hlabel] at hletters
    obtain ⟨hsize, hrest⟩ := Dump.decimal_append_inj hletters
    rw [hsize, Numeral.decimal_inj (List.append_cancel_right hrest)]
  case fetched.fetched | called.called =>
    obtain ⟨hfirst, hpc⟩ := word_label_word_inj hletters
    rw [hfirst, hpc]
  case badWord.badWord =>
    obtain ⟨hword, hrest⟩ := Dump.word_append_inj hletters
    obtain ⟨hpc, hrest⟩ := Dump.word_append_inj (List.append_cancel_left hrest)
    obtain ⟨-, hrest⟩ := Dump.word_append_inj (List.append_cancel_left hrest)
    have hfault := String.toList_inj.mp (List.append_cancel_left hrest)
    rw [hword, hpc, Fault.message_inj hfault]
  case returned.returned | jumped.jumped => rw [Numeral.word_inj hletters]
  case machineCall.machineCall => rw [Numeral.word_inj (List.append_cancel_right hletters)]
  case keyStored.keyStored j x k y =>
    rw [← List.append_assoc, ← List.append_assoc] at hletters
    obtain ⟨hkey, hx⟩ := List.append_inj' hletters
      ((Numeral.hexDigits_length 1 _).trans (Numeral.hexDigits_length 1 _).symm)
    have hj := Fin.ext (Numeral.bare_inj (List.append_cancel_right hkey))
    rw [hj, Fin.ext (Numeral.hexDigits_inj x.isLt y.isLt hx)]
  case unknownKey.unknownKey => rw [Numeral.bare_inj hletters]
  case soundOn.soundOff | soundOff.soundOn => simp at hletters
  case soundOn.soundOn | soundOff.soundOff => rfl

end Diagnostic
end Chip8
