import Chip8.Slots

/-!
# Display

Thirty-two rows of sixty-four pixels, on or off, stored row after row. A sprite is a stack of bytes,
one per row, whose most significant bit is the leftmost pixel.
-/
namespace Chip8

abbrev Cell := Fin 2048
abbrev Display := Vector Bool 2048

namespace Display

def width : Nat := 64
def height : Nat := 32
def resolution : Nat := width * height

def blank : Display := Vector.replicate 2048 false

/-- The pixel at a row and a column; beyond an edge it lies at the opposite one. -/
def cell (row col : Nat) : Cell := ⟨row % 32 * 64 + col % 64, by omega⟩

def flip (d : Display) (c : Cell) : Display := setAt d c (!d.get c)

def flipAll (d : Display) (cells : List Cell) : Display := cells.foldl flip d

/-- Whether flipping the cells one after the other turns a lit one off. -/
def hits (d : Display) : List Cell → Bool
  | [] => false
  | c :: cs => d.get c || hits (d.flip c) cs

def row (d : Display) (r : Nat) : List Bool := (List.range 64).map fun c => d.get (cell r c)

def rows (d : Display) : List (List Bool) := (List.range 32).map d.row

theorem get_flip (d : Display) (c k : Cell) :
    (d.flip c).get k = if c = k then !d.get k else d.get k := by
  rw [flip, get_setAt]
  split <;> simp_all

theorem flipAll_append (d : Display) (cs es : List Cell) :
    d.flipAll (cs ++ es) = (d.flipAll cs).flipAll es := List.foldl_append

theorem rows_length (d : Display) : d.rows.length = 32 := by simp [rows]

end Display

namespace Sprite

/-- The columns of the set bits of a row, from the left. -/
def columns (row : UInt8) : List Nat := (List.range 8).filter fun j => row.toNat.testBit (7 - j)

/-- The pixels of the set bits, row after row, with the upper left corner at (`left`, `top`). -/
def cells (rows : Nat → UInt8) (height left top : Nat) : List Cell :=
  (List.range height).flatMap fun i =>
    (columns (rows i)).map fun j => Display.cell (top + i) (left + j)

theorem mem_columns (row : UInt8) (j : Nat) :
    j ∈ columns row ↔ j < 8 ∧ row.toNat.testBit (7 - j) = true := by
  simp [columns]

theorem mem_cells (rows : Nat → UInt8) (height left top : Nat) (c : Cell) :
    c ∈ cells rows height left top ↔
      ∃ i < height, ∃ j ∈ columns (rows i), Display.cell (top + i) (left + j) = c := by
  simp [cells]

end Sprite
end Chip8
