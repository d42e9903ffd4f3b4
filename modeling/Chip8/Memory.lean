import Chip8.Word

/-!
# Memory

4096 bytes in a ring: every address is taken modulo the size, so a window that runs over
the end continues at the start. Below the programs lies the font, the sixteen hexadecimal digits as
sprites four pixels wide and five rows high.
-/
namespace Chip8

abbrev Memory := Vector UInt8 4096

namespace Memory

def size : Nat := 4096

/-- Programs start here; the bytes below belong to the machine. -/
def programStart : Nat := 0x200

def programCapacity : Nat := size - programStart

def zeros : Memory := Vector.replicate 4096 0

def read (m : Memory) (address : Nat) : UInt8 :=
  m[address % 4096]

def write (m : Memory) (address : Nat) (byte : UInt8) : Memory :=
  m.set (address % 4096) byte

/-- Writes the bytes at consecutive addresses. -/
def writeList (m : Memory) (address : Nat) : List UInt8 → Memory
  | [] => m
  | b :: bs => (m.write address b).writeList (address + 1) bs

def readList (m : Memory) (address count : Nat) : List UInt8 :=
  (List.range count).map fun k => m.read (address + k)

/-- The word at an address, high byte first. -/
def fetch (m : Memory) (pc : UInt16) : Word :=
  Word.ofBytes (m.read pc.toNat) (m.read (pc.toNat + 1))

theorem read_write (m : Memory) (a b : Nat) (byte : UInt8) :
    (m.write a byte).read b = if a % 4096 = b % 4096 then byte else m.read b := by
  simp only [read, write, Vector.getElem_set]

theorem read_mod (m : Memory) (a : Nat) : m.read (a % 4096) = m.read a := by
  simp only [read, Nat.mod_mod]

theorem write_mod (m : Memory) (a : Nat) (byte : UInt8) :
    m.write (a % 4096) byte = m.write a byte := by
  simp only [write, Nat.mod_mod]

/-- Addresses that agree modulo the size are the same place. -/
theorem read_congr (m : Memory) {a b : Nat} (h : a % 4096 = b % 4096) : m.read a = m.read b := by
  rw [← m.read_mod a, ← m.read_mod b, h]

theorem write_congr (m : Memory) {a b : Nat} (h : a % 4096 = b % 4096) (byte : UInt8) :
    m.write a byte = m.write b byte := by
  rw [← m.write_mod a, ← m.write_mod b, h]

theorem writeList_congr (m : Memory) {a b : Nat} (h : a % 4096 = b % 4096) (bytes : List UInt8) :
    m.writeList a bytes = m.writeList b bytes := by
  induction bytes generalizing m a b with
  | nil => rfl
  | cons x xs ih =>
    have hnext : (a + 1) % 4096 = (b + 1) % 4096 := by omega
    rw [writeList, writeList, m.write_congr h x, ih _ hnext]

theorem getElem?_readList (m : Memory) (a count k : Nat) (h : k < count) :
    (m.readList a count)[k]? = some (m.read (a + k)) := by
  simp [readList, h]

/-- Bytes outside the written window keep their value. -/
theorem read_writeList_of_ne (m : Memory) (a b : Nat) (bytes : List UInt8)
    (h : ∀ k < bytes.length, (a + k) % 4096 ≠ b % 4096) :
    (m.writeList a bytes).read b = m.read b := by
  induction bytes generalizing m a with
  | nil => rfl
  | cons x xs ih =>
    rw [writeList, ih, read_write, if_neg]
    · simpa using h 0 (by simp)
    · intro k hk
      have := h (k + 1) (by simpa using hk)
      rwa [Nat.add_assoc, Nat.add_comm 1 k]

/-- A window no longer than the memory reads back what was written into it. -/
theorem read_writeList (m : Memory) (a k : Nat) (bytes : List UInt8)
    (hk : k < bytes.length) (hsize : bytes.length ≤ 4096) :
    (m.writeList a bytes).read (a + k) = bytes[k] := by
  induction bytes generalizing m a k with
  | nil => simp at hk
  | cons x xs ih =>
    rw [List.length_cons] at hk hsize
    cases k with
    | zero =>
      rw [writeList, read_writeList_of_ne, read_write]
      · simp
      · intro j hj
        omega
    | succ k =>
      have := ih (m.write a x) (a + 1) k (by omega) (by omega)
      rw [writeList, show a + (k + 1) = a + 1 + k by omega, this]
      rfl

theorem bytes_fetch (m : Memory) {a : Nat} (h : a < 65536) :
    (m.fetch (UInt16.ofNat a)).bytes = [m.read a, m.read (a + 1)] := by
  rw [fetch, Word.bytes_ofBytes, UInt16.toNat_ofNat', Nat.mod_eq_of_lt h]

/-- Only the address modulo the size counts. -/
theorem fetch_mod (m : Memory) (p q : UInt16) (h : p.toNat % 4096 = q.toNat % 4096) :
    m.fetch p = m.fetch q := by
  have hnext : (p.toNat + 1) % 4096 = (q.toNat + 1) % 4096 := by omega
  rw [fetch, fetch, m.read_congr h, m.read_congr hnext]

end Memory

namespace Font

def location : Nat := 0x50

/-- Bytes, and so rows, of one digit. -/
def glyphSize : Nat := 5

def glyphs : List UInt8 :=
  [0xF0, 0x90, 0x90, 0x90, 0xF0,
   0x20, 0x60, 0x20, 0x20, 0x70,
   0xF0, 0x10, 0xF0, 0x80, 0xF0,
   0xF0, 0x10, 0xF0, 0x10, 0xF0,
   0x90, 0x90, 0xF0, 0x10, 0x10,
   0xF0, 0x80, 0xF0, 0x10, 0xF0,
   0xF0, 0x80, 0xF0, 0x90, 0xF0,
   0xF0, 0x10, 0x20, 0x40, 0x40,
   0xF0, 0x90, 0xF0, 0x90, 0xF0,
   0xF0, 0x90, 0xF0, 0x10, 0xF0,
   0xF0, 0x90, 0xF0, 0x90, 0x90,
   0xE0, 0x90, 0xE0, 0x90, 0xE0,
   0xF0, 0x80, 0x80, 0x80, 0xF0,
   0xE0, 0x90, 0x90, 0x90, 0xE0,
   0xF0, 0x80, 0xF0, 0x80, 0xF0,
   0xF0, 0x80, 0xF0, 0x80, 0x80]

/-- Where the digit in the low nibble of a byte lies. -/
def address (digit : UInt8) : UInt16 :=
  UInt16.ofNat (location + glyphSize * (digit.toNat % 16))

/-- All zeros but for the font. -/
def memory : Memory := Memory.zeros.writeList location glyphs

end Font
end Chip8
