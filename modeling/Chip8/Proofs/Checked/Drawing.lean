import Mathlib.Data.Nat.Bitwise
import Chip8.Proofs.Checked.Machine

/-!
# Drawing on a checked machine

The two loops of a drawing go over the cells of a sprite. Along them a checked machine that is laid
out like a machine flips what the machine flips, and no check fails.
-/
namespace Chip8

theorem map_setAt {α β : Type} {n : Nat} (f : α → β) (v : Vector α n) (i : Fin n) (a : α) :
    (setAt v i a).map f = setAt (v.map f) i (f a) := Vector.map_set

namespace Sprite

/-- The first `k` columns of a row that are set, as cells. -/
def rowCells (row : UInt8) (top left k : Nat) : List Cell :=
  ((List.range k).filter fun j => row.toNat.testBit (7 - j)).map fun j =>
    Display.cell top (left + j)

theorem rowCells_succ (row : UInt8) (top left k : Nat) :
    rowCells row top left (k + 1) =
      rowCells row top left k ++
        if row.toNat.testBit (7 - k) then [Display.cell top (left + k)] else [] := by
  simp only [rowCells, List.range_succ, List.filter_append, List.map_append]
  congr 1
  cases h : row.toNat.testBit (7 - k) <;> simp [h]

theorem cells_succ (rows : Nat → UInt8) (height left top : Nat) :
    cells rows (height + 1) left top =
      cells rows height left top ++ rowCells (rows height) (top + height) left 8 := by
  simp only [cells, List.range_succ, List.flatMap_append, List.flatMap_cons, List.flatMap_nil,
    List.append_nil]
  rfl

/-- The mask that walks down a row picks one bit after the other. -/
theorem bit_eq_zero_iff (row : UInt8) {j : Nat} (h : j < 8) :
    row &&& ((0x80 : UInt8) >>> UInt8.ofNat j) = 0 ↔ row.toNat.testBit (7 - j) = false := by
  have hmod : j % 2 ^ 8 % 8 = j := by omega
  have hmask : ((0x80 : UInt8) >>> UInt8.ofNat j).toNat = 2 ^ (7 - j) := by
    have hpow : 2 ^ 7 / 2 ^ j = 2 ^ (7 - j) := Nat.pow_div (by omega) (by omega)
    rw [UInt8.toNat_shiftRight, UInt8.toNat_ofNat', hmod, Nat.shiftRight_eq_div_pow]
    exact hpow
  rw [← UInt8.toNat_inj, UInt8.toNat_and, hmask, Nat.and_two_pow]
  cases row.toNat.testBit (7 - j) <;> simp

end Sprite

namespace Checked.State

def ofMachine (m : Machine) : State where
  word := m.word
  memory := m.memory
  registers := m.registers
  index := m.index
  pc := m.pc
  slots := m.stack.slots
  pointer := m.stack.depth
  delay := m.delay.value
  sound := m.sound.value
  cells := m.display.map Bool.toUInt8
  drawn := m.drawn
  keypad := m.keypad
  random := m.random

theorem map_blank : Display.blank.map Bool.toUInt8 = Vector.replicate 2048 0 :=
  Vector.map_replicate

@[simp] theorem register_ofMachine (m : Machine) (x : Register) :
    (ofMachine m).register x = .ok (m.v x) := get_val m.registers x

@[simp] theorem setRegister_ofMachine (m : Machine) (x : Register) (byte : UInt8) :
    (ofMachine m).setRegister x byte = .ok (ofMachine (m.setRegister x byte)) := by
  have h : put (ofMachine m).registers x.val byte = _ := put_val m.registers x byte
  rw [setRegister, h]
  rfl

/-- One pixel of a drawing; the flag goes up if the pixel goes out. -/
def flipCell (m : Machine) (c : Cell) : Machine :=
  { m with
    display := m.display.flip c
    registers := if m.display.get c then setAt m.registers Registers.flag 1 else m.registers }

def paint (m : Machine) (cells : List Cell) : Machine := cells.foldl flipCell m

theorem paint_append (m : Machine) (cs es : List Cell) :
    paint m (cs ++ es) = paint (paint m cs) es := List.foldl_append

theorem paint_eq (m : Machine) (cells : List Cell) :
    paint m cells =
      { m with
        display := m.display.flipAll cells
        registers :=
          if m.display.hits cells then setAt m.registers Registers.flag 1 else m.registers } := by
  induction cells generalizing m with
  | nil => rfl
  | cons c cs ih =>
    have hp : paint m (c :: cs) = paint (flipCell m c) cs := rfl
    have hd : m.display.flipAll (c :: cs) = (m.display.flip c).flipAll cs := rfl
    rw [hp, ih, hd, Display.hits]
    cases hc : m.display.get c <;> cases hcs : (m.display.flip c).hits cs <;>
      simp [flipCell, hc, hcs, setAt]

theorem toUInt8_not (b : Bool) : (!b).toUInt8 = b.toUInt8 ^^^ 1 := by cases b <;> rfl

theorem toUInt8_eq_one_iff (b : Bool) : b.toUInt8 = 1 ↔ b = true := by cases b <;> decide

theorem flipPixel_ofMachine (m : Machine) (c : Cell) :
    (ofMachine m).flipPixel c.val = .ok (ofMachine (flipCell m c)) := by
  have hget : get (ofMachine m).cells c.val = .ok (m.display.get c).toUInt8 := by
    rw [get_val, get_eq_getElem, get_eq_getElem]
    exact congrArg Except.ok (Vector.getElem_map _ _)
  have hput : put (ofMachine m).cells c.val ((m.display.get c).toUInt8 ^^^ 1) =
      .ok ((m.display.flip c).map Bool.toUInt8) := by
    rw [put_val, Display.flip, map_setAt, toUInt8_not]
    rfl
  simp only [flipPixel, hget, ok_bind, toUInt8_eq_one_iff]
  by_cases hc : m.display.get c = true
  · have hkept : (ofMachine (m.setRegister Registers.flag 1)).cells = (ofMachine m).cells := rfl
    rw [if_pos hc, setRegister_ofMachine, ok_bind, hkept, hput, flipCell, if_pos hc]
    rfl
  · rw [if_neg hc, hput, flipCell, if_neg hc]
    rfl

/-- A set bit flips its pixel. -/
theorem drawBit_ofMachine (m : Machine) (row : UInt8) (left : Nat) {top j : Nat}
    (htop : top < 32) (hj : j < 8) :
    drawBit row left top j (ofMachine m) =
      .ok (ofMachine (paint m
        (if row.toNat.testBit (7 - j) then [Display.cell top (left + j)] else []))) := by
  unfold drawBit
  by_cases hbit : row.toNat.testBit (7 - j) = true
  · have hset : ¬ row &&& ((0x80 : UInt8) >>> UInt8.ofNat j) = 0 := by
      rw [Sprite.bit_eq_zero_iff row hj, hbit]
      exact Bool.noConfusion
    have hplace : top * 64 + (left + j) % 64 = (Display.cell top (left + j)).val := by
      simp only [Display.cell]
      omega
    rw [if_neg hset, if_pos hbit, hplace]
    exact flipPixel_ofMachine m _
  · have hclear : row &&& ((0x80 : UInt8) >>> UInt8.ofNat j) = 0 := by
      rw [Sprite.bit_eq_zero_iff row hj]
      exact Bool.eq_false_iff.mpr hbit
    rw [if_pos hclear, if_neg hbit]
    rfl

theorem drawRow_ofMachine (m : Machine) (left top i : Nat) :
    drawRow (left % 64) (top % 32) i (ofMachine m) =
      .ok (ofMachine (paint m (Sprite.rowCells (m.indexed i) (top + i) left 8))) := by
  have hrow : get (ofMachine m).memory ((ofMachine m).indexed i) = .ok (m.indexed i) :=
    get_memory m.memory _
  have hcell : ∀ j, Display.cell ((top % 32 + i) % 32) (left % 64 + j) =
      Display.cell (top + i) (left + j) := by
    intro j
    simp only [Display.cell, Fin.mk.injEq]
    omega
  rw [drawRow, hrow, ok_bind]
  apply loop_of_steps fun j => ofMachine (paint m (Sprite.rowCells (m.indexed i) (top + i) left j))
  intro j hj
  rw [drawBit_ofMachine _ _ _ (Nat.mod_lt _ (by omega)) hj, ← paint_append, hcell,
    Sprite.rowCells_succ]

theorem indexed_paint (m : Machine) (cells : List Cell) : (paint m cells).indexed = m.indexed := by
  rw [paint_eq]
  rfl

/-- A sprite is drawn row by row, from a lowered flag on. -/
theorem draw_ofMachine (m : Machine) (x y : Register) (n : UInt8) :
    (ofMachine m).draw x y n = .ok (ofMachine (m.drawSprite x y n)) := by
  have hrows : loop (drawRow ((m.v x).toNat % 64) ((m.v y).toNat % 32)) n.toNat
      (ofMachine (m.setRegister Registers.flag 0)) =
        .ok (ofMachine (paint (m.setRegister Registers.flag 0) (m.spriteCells x y n))) := by
    apply loop_of_steps fun i => ofMachine (paint (m.setRegister Registers.flag 0)
      (Sprite.cells m.indexed i (m.v x).toNat (m.v y).toNat))
    intro i _
    rw [drawRow_ofMachine, indexed_paint, ← paint_append, Sprite.cells_succ]
    rfl
  simp only [draw, register_ofMachine, setRegister_ofMachine, ok_bind, hrows, pure_eq_ok]
  rw [paint_eq]
  cases h : m.display.hits (m.spriteCells x y n) <;>
    simp [ofMachine, Machine.drawSprite, Machine.setRegister, setAt, h]

end Checked.State
end Chip8
