/-!
# Written numbers

Addresses, words and bytes are written in upper-case hexadecimal behind `0x`, with as many digits
as their width has nibbles; counts are written in decimal.
-/
namespace Chip8.Numeral

def hexDigit (d : Nat) : Char :=
  if d < 10 then Char.ofNat ('0'.toNat + d) else Char.ofNat ('A'.toNat + (d - 10))

/-- The lowest `width` hexadecimal digits of a number, highest first. -/
def hexDigits : Nat → Nat → List Char
  | 0, _ => []
  | width + 1, n => hexDigits width (n / 16) ++ [hexDigit (n % 16)]

/-- The digits of a number without leading zeros; zero has one digit. -/
def bareHexDigits (n : Nat) : List Char :=
  if n < 16 then [hexDigit n] else bareHexDigits (n / 16) ++ [hexDigit (n % 16)]
termination_by n

def marked (digits : List Char) : List Char := '0' :: 'x' :: digits

/-- Four digits, as in `0x0200`. -/
def word (w : UInt16) : List Char := marked (hexDigits 4 w.toNat)

/-- Two digits, as in `0x0F`. -/
def byte (b : UInt8) : List Char := marked (hexDigits 2 b.toNat)

/-- As few digits as the number needs. -/
def bare (n : Nat) : List Char := marked (bareHexDigits n)

def decimal (n : Nat) : List Char := Nat.toDigits 10 n

theorem hexDigits_length (width n : Nat) : (hexDigits width n).length = width := by
  induction width generalizing n with
  | zero => rfl
  | succ width ih => simp [hexDigits, ih]

theorem word_length (w : UInt16) : (word w).length = 6 := by
  simp [word, marked, hexDigits_length]

theorem hexDigit_inj : ∀ a < 16, ∀ b < 16, hexDigit a = hexDigit b → a = b := by decide

theorem hexDigit_isAlphanum : ∀ d < 16, (hexDigit d).isAlphanum = true := by decide

theorem isAlphanum_of_mem_hexDigits {width n : Nat} {c : Char} (h : c ∈ hexDigits width n) :
    c.isAlphanum = true := by
  induction width generalizing n with
  | zero => cases h
  | succ width ih =>
    rcases List.mem_append.mp h with h | h
    · exact ih h
    · rw [List.mem_singleton.mp h]
      exact hexDigit_isAlphanum _ (Nat.mod_lt _ (by omega))

theorem isAlphanum_of_mem_marked {digits : List Char} (hd : ∀ c ∈ digits, c.isAlphanum = true)
    {c : Char} (h : c ∈ marked digits) : c.isAlphanum = true := by
  rcases List.mem_cons.mp h with rfl | h
  · decide
  · rcases List.mem_cons.mp h with rfl | h
    · decide
    · exact hd c h

theorem decimal_inj {a b : Nat} (h : decimal a = decimal b) : a = b := by
  have hread := congrArg (fun digits => Nat.ofDigitChars 10 digits 0) h
  simpa [decimal] using hread

theorem isAlphanum_of_mem_word {w : UInt16} {c : Char} (h : c ∈ word w) : c.isAlphanum = true :=
  isAlphanum_of_mem_marked (fun _ hc => isAlphanum_of_mem_hexDigits hc) h

theorem isAlphanum_of_mem_byte {b : UInt8} {c : Char} (h : c ∈ byte b) : c.isAlphanum = true :=
  isAlphanum_of_mem_marked (fun _ hc => isAlphanum_of_mem_hexDigits hc) h

theorem isAlphanum_of_mem_decimal {n : Nat} {c : Char} (h : c ∈ decimal n) :
    c.isAlphanum = true := by
  have hdigit : c.isDigit = true := Nat.isDigit_of_mem_toDigits (by omega) (by omega) h
  simp [Char.isAlphanum, hdigit]

end Chip8.Numeral
