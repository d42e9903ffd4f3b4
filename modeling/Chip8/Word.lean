/-!
# Instruction words

A word is sixteen bits wide and falls into four nibbles. The highest nibble names the family,
the others hold the operands `x`, `y`, `n`, `nn` and `nnn` at fixed places.
-/
namespace Chip8

abbrev Word := UInt16
abbrev Nibble := Fin 16

namespace Word

def family (w : Word) : Nibble := ⟨w.toNat / 4096 % 16, by omega⟩
def x (w : Word) : Nibble := ⟨w.toNat / 256 % 16, by omega⟩
def y (w : Word) : Nibble := ⟨w.toNat / 16 % 16, by omega⟩
def n (w : Word) : Nibble := ⟨w.toNat % 16, by omega⟩

/-- The low byte. -/
def nn (w : Word) : UInt8 := UInt8.ofNat (w.toNat % 256)

/-- The low twelve bits, an address. -/
def nnn (w : Word) : UInt16 := UInt16.ofNat (w.toNat % 4096)

/-- Words are stored high byte first. -/
def ofBytes (high low : UInt8) : Word := UInt16.ofNat (high.toNat * 256 + low.toNat)

/-- The two bytes of a word as they are stored. -/
def bytes (w : Word) : List UInt8 := [UInt8.ofNat (w.toNat / 256), w.nn]

/-- The word `TNNN`, for a family and an address of twelve bits. -/
def ofAddress (family : Nat) (nnn : UInt16) : Word := UInt16.ofNat (family * 4096 + nnn.toNat)

/-- The word `TXNN`. -/
def ofByte (family : Nat) (x : Nibble) (nn : UInt8) : Word :=
  UInt16.ofNat (family * 4096 + x.val * 256 + nn.toNat)

/-- The word `TXYN`. -/
def ofNibbles (family : Nat) (x y : Nibble) (n : Nat) : Word :=
  UInt16.ofNat (family * 4096 + x.val * 256 + y.val * 16 + n)

theorem toNat_nn (w : Word) : w.nn.toNat = w.toNat % 256 := by
  simp [nn]

theorem toNat_nnn (w : Word) : w.nnn.toNat = w.toNat % 4096 := by
  simp only [nnn, UInt16.toNat_ofNat']
  omega

theorem toNat_ofBytes (high low : UInt8) :
    (ofBytes high low).toNat = high.toNat * 256 + low.toNat := by
  have := high.toNat_lt
  have := low.toNat_lt
  simp only [ofBytes, UInt16.toNat_ofNat']
  omega

theorem bytes_ofBytes (high low : UInt8) : (ofBytes high low).bytes = [high, low] := by
  have hh := high.toNat_lt
  have hl := low.toNat_lt
  simp only [bytes, nn, toNat_ofBytes]
  congr 1
  · apply UInt8.toNat_inj.mp
    simp only [UInt8.toNat_ofNat']
    omega
  · congr 1
    apply UInt8.toNat_inj.mp
    simp only [UInt8.toNat_ofNat']
    omega

theorem bytes_inj {v w : Word} (h : v.bytes = w.bytes) : v = w := by
  have hv := v.toNat_lt
  have hw := w.toNat_lt
  simp only [bytes, List.cons.injEq, and_true, ← UInt8.toNat_inj, toNat_nn,
    UInt8.toNat_ofNat'] at h
  apply UInt16.toNat_inj.mp
  omega

/-- A word is its family and its address. -/
theorem toNat_eq_address (w : Word) : w.toNat = w.family.val * 4096 + w.nnn.toNat := by
  have := w.toNat_lt
  rw [toNat_nnn]
  simp only [family]
  omega

theorem toNat_eq_byte (w : Word) : w.toNat = w.family.val * 4096 + w.x.val * 256 + w.nn.toNat := by
  have := w.toNat_lt
  rw [toNat_nn]
  simp only [family, x]
  omega

theorem toNat_eq_nibbles (w : Word) :
    w.toNat = w.family.val * 4096 + w.x.val * 256 + w.y.val * 16 + w.n.val := by
  have := w.toNat_lt
  simp only [family, x, y, n]
  omega

/-- Each field is what a mask leaves of the word, shifted down to its place. -/
theorem fields_eq_masks (w : Word) :
    w.family.val = ((w &&& 0xF000) >>> 12).toNat ∧ w.x.val = ((w &&& 0x0F00) >>> 8).toNat ∧
      w.y.val = ((w &&& 0x00F0) >>> 4).toNat ∧ w.n.val = (w &&& 0x000F).toNat ∧
      w.nn = (w &&& 0x00FF).toUInt8 ∧ w.nnn = w &&& 0x0FFF := by
  have hlow : ∀ bits, w.toNat &&& 2 ^ bits - 1 = w.toNat % 2 ^ bits :=
    Nat.and_two_pow_sub_one_eq_mod w.toNat
  have hnibble : ∀ shift, w.toNat / 2 ^ shift % 16 = (w.toNat &&& 0xF <<< shift) >>> shift := by
    intro shift
    rw [Nat.shiftRight_and_distrib, Nat.shiftLeft_shiftRight, Nat.shiftRight_eq_div_pow]
    exact (Nat.and_two_pow_sub_one_eq_mod _ 4).symm
  have hnn : w.nn.toNat = (w &&& 0x00FF).toUInt8.toNat := by
    rw [toNat_nn, UInt16.toNat_toUInt8, UInt16.toNat_and]
    exact ((congrArg (· % 256) (hlow 8)).trans (Nat.mod_mod _ 256)).symm
  have hnnn : w.nnn.toNat = (w &&& 0x0FFF).toNat := (toNat_nnn w).trans (hlow 12).symm
  exact ⟨hnibble 12, hnibble 8, hnibble 4, (hlow 4).symm, UInt8.toNat_inj.mp hnn,
    UInt16.toNat_inj.mp hnnn⟩

section Fields

variable {t n : Nat} {x y : Nibble} {nn : UInt8} {nnn : UInt16}

theorem toNat_ofAddress (ht : t < 16) (h : nnn.toNat < 4096) :
    (ofAddress t nnn).toNat = t * 4096 + nnn.toNat := by
  rw [ofAddress, UInt16.toNat_ofNat']
  omega

theorem toNat_ofByte (ht : t < 16) :
    (ofByte t x nn).toNat = t * 4096 + x.val * 256 + nn.toNat := by
  have := nn.toNat_lt
  rw [ofByte, UInt16.toNat_ofNat']
  omega

theorem toNat_ofNibbles (ht : t < 16) (hn : n < 16) :
    (ofNibbles t x y n).toNat = t * 4096 + x.val * 256 + y.val * 16 + n := by
  rw [ofNibbles, UInt16.toNat_ofNat']
  omega

@[simp] theorem family_ofAddress (ht : t < 16) (h : nnn.toNat < 4096) :
    (ofAddress t nnn).family = ⟨t, ht⟩ := by
  simp only [family, toNat_ofAddress ht h, Fin.mk.injEq]
  omega

@[simp] theorem nnn_ofAddress (ht : t < 16) (h : nnn.toNat < 4096) :
    (ofAddress t nnn).nnn = nnn := by
  rw [← UInt16.toNat_inj, toNat_nnn, toNat_ofAddress ht h]
  omega

@[simp] theorem family_ofByte (ht : t < 16) : (ofByte t x nn).family = ⟨t, ht⟩ := by
  have := nn.toNat_lt
  simp only [family, toNat_ofByte ht, Fin.mk.injEq]
  omega

@[simp] theorem x_ofByte (ht : t < 16) : (ofByte t x nn).x = x := by
  have := nn.toNat_lt
  simp only [Word.x, toNat_ofByte ht, Fin.ext_iff]
  omega

@[simp] theorem nn_ofByte (ht : t < 16) : (ofByte t x nn).nn = nn := by
  have := nn.toNat_lt
  rw [← UInt8.toNat_inj, toNat_nn, toNat_ofByte ht]
  omega

@[simp] theorem family_ofNibbles (ht : t < 16) (hn : n < 16) :
    (ofNibbles t x y n).family = ⟨t, ht⟩ := by
  simp only [family, toNat_ofNibbles ht hn, Fin.mk.injEq]
  omega

@[simp] theorem x_ofNibbles (ht : t < 16) (hn : n < 16) : (ofNibbles t x y n).x = x := by
  simp only [Word.x, toNat_ofNibbles ht hn, Fin.ext_iff]
  omega

@[simp] theorem y_ofNibbles (ht : t < 16) (hn : n < 16) : (ofNibbles t x y n).y = y := by
  simp only [Word.y, toNat_ofNibbles ht hn, Fin.ext_iff]
  omega

@[simp] theorem n_ofNibbles (ht : t < 16) (hn : n < 16) : (ofNibbles t x y n).n = ⟨n, hn⟩ := by
  simp only [Word.n, toNat_ofNibbles ht hn, Fin.mk.injEq]
  omega

end Fields

/-- A word is put together again from the fields that its family names. -/
theorem ofAddress_nnn {w : Word} {t : Nat} (h : w.family.val = t) : ofAddress t w.nnn = w := by
  rw [ofAddress, ← h, ← toNat_eq_address, UInt16.ofNat_toNat]

theorem ofByte_nn {w : Word} {t : Nat} (h : w.family.val = t) : ofByte t w.x w.nn = w := by
  rw [ofByte, ← h, ← toNat_eq_byte, UInt16.ofNat_toNat]

theorem ofNibbles_n {w : Word} {t : Nat} (h : w.family.val = t) :
    ofNibbles t w.x w.y w.n.val = w := by
  rw [ofNibbles, ← h, ← toNat_eq_nibbles, UInt16.ofNat_toNat]

end Word
end Chip8
