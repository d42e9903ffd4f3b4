import Mathlib.Data.Fin.Basic
import Chip8.Instruction

/-!
# The grammar of instruction words

Decoding accepts exactly the words of the instruction table and loses nothing of them: encoding
gives the word back, and every instruction whose operands fit into a word is read from its own.
-/
namespace Chip8

theorem ArithmeticOp.ofNibble?_eq_some_iff (n : Nibble) (op : ArithmeticOp) :
    ofNibble? n = some op ↔ n.val = op.code := by
  cases op <;> decide +revert

theorem ArithmeticOp.code_lt (op : ArithmeticOp) : op.code < 16 := by
  cases op <;> decide

namespace Instruction

/-- The words of the table, by their first hexadecimal digit and by their last one or two. -/
def Legal (w : Word) : Prop :=
  let family := w.toNat / 0x1000
  let digit := w.toNat % 0x10
  let byte := w.toNat % 0x100
  family ∈ [0x0, 0x1, 0x2, 0x3, 0x4, 0x6, 0x7, 0xA, 0xB, 0xC, 0xD] ∨
    family ∈ [0x5, 0x9] ∧ digit = 0x0 ∨
    family = 0x8 ∧ digit ∈ [0x0, 0x1, 0x2, 0x3, 0x4, 0x5, 0x6, 0x7, 0xE] ∨
    family = 0xE ∧ byte ∈ [0x9E, 0xA1] ∨
    family = 0xF ∧ byte ∈ [0x07, 0x0A, 0x15, 0x18, 0x1E, 0x29, 0x33, 0x55, 0x65]

instance (w : Word) : Decidable (Legal w) := inferInstanceAs (Decidable (_ ∨ _ ∨ _))

/-! ### Which words are accepted -/

theorem isSome_ofNibble? (n : Nibble) :
    (ArithmeticOp.ofNibble? n).isSome = true ↔
      n.val ∈ [0x0, 0x1, 0x2, 0x3, 0x4, 0x5, 0x6, 0x7, 0xE] := by
  decide +revert

theorem isSome_ofFamilyE? (x : Register) (b : UInt8) :
    (ofFamilyE? x b).isSome = true ↔ b.toNat ∈ [0x9E, 0xA1] := by
  unfold ofFamilyE?
  split <;> simp_all [← UInt8.toNat_inj]

theorem isSome_ofFamilyF? (x : Register) (b : UInt8) :
    (ofFamilyF? x b).isSome = true ↔
      b.toNat ∈ [0x07, 0x0A, 0x15, 0x18, 0x1E, 0x29, 0x33, 0x55, 0x65] := by
  unfold ofFamilyF?
  split <;> simp_all [← UInt8.toNat_inj]

theorem isSome_decode? (w : Word) : (decode? w).isSome = true ↔ Legal w := by
  have hfamily : w.toNat / 0x1000 = w.family.val := by
    have := w.toNat_lt
    simp only [Word.family]
    omega
  have hdigit : w.toNat % 0x10 = w.n.val := rfl
  simp only [Legal, hfamily, hdigit, ← Word.toNat_nn]
  unfold decode?
  split
  case h_6 hw | h_10 hw => split <;> simp_all
  case h_9 hw => simp [hw, isSome_ofNibble?]
  case h_15 hw => simp [hw, isSome_ofFamilyE?]
  case h_16 =>
    have hw : w.family = 0xF := by grind
    simp [hw, isSome_ofFamilyF?]
  all_goals simp_all

/-! ### From a word to its instruction and back -/

theorem encode_ofFamily0 {w : Word} (hw : w.family.val = 0x0) : (ofFamily0 w.nnn).encode = w := by
  have h := Word.ofAddress_nnn hw
  unfold ofFamily0
  split
  case isTrue hn => rw [← h, hn]; rfl
  case isFalse =>
    split
    case isTrue hn => rw [← h, hn]; rfl
    case isFalse => exact h

theorem encode_of_ofFamilyE? {w : Word} {i : Instruction} (hw : w.family.val = 0xE)
    (h : ofFamilyE? w.x w.nn = some i) : i.encode = w := by
  have hword := Word.ofByte_nn hw
  unfold ofFamilyE? at h
  split at h <;> cases h <;> simp_all [encode, Condition.encode]

theorem encode_of_ofFamilyF? {w : Word} {i : Instruction} (hw : w.family.val = 0xF)
    (h : ofFamilyF? w.x w.nn = some i) : i.encode = w := by
  have hword := Word.ofByte_nn hw
  unfold ofFamilyF? at h
  split at h <;> cases h <;> simp_all [encode]

theorem encode_of_decode? {w : Word} {i : Instruction} (h : decode? w = some i) :
    i.encode = w := by
  unfold decode? at h
  split at h
  case h_1 hw =>
    cases h
    exact encode_ofFamily0 (congrArg Fin.val hw)
  case h_2 hw | h_3 hw | h_11 hw | h_12 hw =>
    cases h
    exact Word.ofAddress_nnn (congrArg Fin.val hw)
  case h_4 hw | h_5 hw | h_7 hw | h_8 hw | h_13 hw =>
    cases h
    exact Word.ofByte_nn (congrArg Fin.val hw)
  case h_6 hw | h_10 hw =>
    split at h
    case isTrue hn =>
      cases h
      have hword := Word.ofNibbles_n (congrArg Fin.val hw)
      rwa [hn] at hword
    case isFalse => cases h
  case h_9 hw =>
    obtain ⟨op, hop, rfl⟩ := Option.map_eq_some_iff.mp h
    have hword := Word.ofNibbles_n (congrArg Fin.val hw)
    rwa [(ArithmeticOp.ofNibble?_eq_some_iff _ _).mp hop] at hword
  case h_14 hw =>
    cases h
    have hn : (UInt8.ofNat w.n.val).toNat = w.n.val := by
      rw [UInt8.toNat_ofNat', Nat.mod_eq_of_lt (by omega)]
    have hword := Word.ofNibbles_n (congrArg Fin.val hw)
    rwa [← hn] at hword
  case h_15 hw => exact encode_of_ofFamilyE? (congrArg Fin.val hw) h
  case h_16 =>
    have hw : w.family = 0xF := by grind
    exact encode_of_ofFamilyF? (congrArg Fin.val hw) h

theorem encodable_of_decode? {w : Word} {i : Instruction} (h : decode? w = some i) :
    i.Encodable := by
  have hnnn : w.nnn.toNat < 4096 := by
    rw [Word.toNat_nnn]
    omega
  unfold decode? at h
  split at h
  case h_1 =>
    cases h
    unfold ofFamily0
    split
    · exact trivial
    · split
      · exact trivial
      · exact hnnn
  case h_2 | h_3 | h_11 | h_12 =>
    cases h
    exact hnnn
  case h_6 | h_10 =>
    split at h
    · cases h
      exact trivial
    · cases h
  case h_9 =>
    obtain ⟨op, _, rfl⟩ := Option.map_eq_some_iff.mp h
    exact trivial
  case h_14 =>
    cases h
    have hn : (UInt8.ofNat w.n.val).toNat < 16 := by
      rw [UInt8.toNat_ofNat']
      omega
    exact hn
  case h_15 =>
    unfold ofFamilyE? at h
    split at h <;> cases h <;> exact trivial
  case h_16 =>
    unfold ofFamilyF? at h
    split at h <;> cases h <;> exact trivial
  case h_4 | h_5 | h_7 | h_8 | h_13 =>
    cases h
    exact trivial

theorem decode?_encode {i : Instruction} (h : i.Encodable) (hclear : i ≠ .machineCall 0x0E0)
    (hret : i ≠ .machineCall 0x0EE) : decode? i.encode = some i := by
  cases i with
  | clear => rfl
  | ret => rfl
  | machineCall nnn =>
    have hn : nnn.toNat < 4096 := h
    simp only [ne_eq, machineCall.injEq] at hclear hret
    simp [encode, decode?, ofFamily0, hn, hclear, hret]
  | jump nnn | call nnn | setIndex nnn | jumpOffset nnn =>
    have hn : nnn.toNat < 4096 := h
    simp [encode, decode?, hn]
  | skip condition => cases condition <;> simp [encode, Condition.encode, decode?, ofFamilyE?]
  | arithmetic op x y =>
    have hop : ArithmeticOp.ofNibble? ⟨op.code, op.code_lt⟩ = some op :=
      (ArithmeticOp.ofNibble?_eq_some_iff _ op).mpr rfl
    simp [encode, decode?, op.code_lt, hop]
  | draw x y n =>
    have hn : n.toNat < 16 := h
    simp [encode, decode?, hn]
  | _ => simp [encode, decode?, ofFamilyF?]

theorem decode_eq_ok_iff {w : Word} {i : Instruction} :
    decode w = .ok i ↔ decode? w = some i := by
  unfold decode
  cases decode? w <;> simp

/-- Words and instructions: what is accepted, that nothing of it is lost, and that an instruction
is read from its own word, except the two machine calls that are written like a whole word. -/
theorem decode_legal_words :
    (∀ w, (∃ i, decode w = .ok i) ↔ Legal w) ∧
    (∀ w, ¬ Legal w → decode w = .error ⟨w⟩) ∧
    (∀ w i, decode w = .ok i → i.encode = w ∧ i.Encodable) ∧
    (∀ i : Instruction, i.Encodable → i ≠ .machineCall 0x0E0 → i ≠ .machineCall 0x0EE →
      decode i.encode = .ok i) ∧
    decode (machineCall 0x0E0).encode = .ok .clear ∧
    decode (machineCall 0x0EE).encode = .ok .ret ∧
    ∀ w v i, decode w = .ok i → decode v = .ok i → w = v := by
  have hencode : ∀ w i, decode w = .ok i → i.encode = w := fun w i h =>
    encode_of_decode? (decode_eq_ok_iff.mp h)
  refine ⟨fun w => ?_, fun w h => ?_, fun w i h => ?_, fun i h hclear hret => ?_, rfl, rfl,
    fun w v i hw hv => ?_⟩
  · rw [← isSome_decode?, Option.isSome_iff_exists]
    exact exists_congr fun i => decode_eq_ok_iff
  · have hnone : decode? w = none := by
      rwa [← isSome_decode?, Option.not_isSome_iff_eq_none] at h
    rw [decode, hnone]
  · exact ⟨hencode w i h, encodable_of_decode? (decode_eq_ok_iff.mp h)⟩
  · exact decode_eq_ok_iff.mpr (decode?_encode h hclear hret)
  · rw [← hencode w i hw, ← hencode v i hv]

/-- A word of family 8, its neighbour in the gap of the table, and the way back from both sides. -/
theorem decode_legal_words_around_gap :
    (∃ i, decode 0x8AB7 = .ok i ∧ i.encode = 0x8AB7 ∧ i.Encodable) ∧
      decode 0x8AB8 = .error ⟨0x8AB8⟩ ∧
      decode (arithmetic .subReverse 0xA 0xB).encode = .ok (.arithmetic .subReverse 0xA 0xB) ∧
      (arithmetic .subReverse 0xA 0xB).encode = 0x8AB7 := by
  obtain ⟨haccepts, hrefuses, hback, hround, _, _, honce⟩ := decode_legal_words
  obtain ⟨i, hi⟩ := (haccepts 0x8AB7).mpr (by decide)
  have hread : decode 0x8AB7 = .ok (.arithmetic .subReverse 0xA 0xB) := by decide
  have hown := hround (.arithmetic .subReverse 0xA 0xB) trivial (by decide) (by decide)
  exact ⟨⟨i, hi, hback _ _ hi⟩, hrefuses 0x8AB8 (by decide), hown, honce _ _ _ hown hread⟩

end Instruction
end Chip8
