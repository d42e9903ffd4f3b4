import Mathlib.Algebra.BigOperators.Group.Finset.Sigma
import Mathlib.Algebra.Group.Nat.Even
import Chip8.Proofs.Checked.Refinement
import Chip8.Proofs.Sprites

/-!
# What a sprite does to a pixel

A pixel is flipped once for every set bit of the sprite that falls on it. A sprite higher than the
display falls on some pixels more than once, so the picture after a drawing is the one before with
the pixels flipped that an odd number of set bits fall on.
-/
namespace Chip8

namespace Display

/-- Flips that meet no pixel twice hit a lit one exactly if they leave a pixel dark that was lit. -/
theorem hits_iff_darkened {cs : List Cell} (h : cs.Nodup) (d : Display) :
    d.hits cs = true ↔ ∃ c, d.get c = true ∧ (d.flipAll cs).get c = false := by
  rw [hits_iff h]
  constructor
  · rintro ⟨c, hc, hlit⟩
    refine ⟨c, hlit, ?_⟩
    simp [get_flipAll, hlit, List.count_eq_one_of_mem h hc]
  · rintro ⟨c, hlit, hdark⟩
    rw [get_flipAll, hlit, Bool.true_xor, Bool.not_eq_false', decide_eq_true_eq] at hdark
    exact ⟨c, List.count_pos_iff.mp (by omega), hlit⟩

end Display

namespace Sprite

theorem cell_eq_iff {r c row col : Nat} (hrow : row < 32) (hcol : col < 64) :
    Display.cell r c = Display.cell row col ↔ r % 32 = row ∧ c % 64 = col := by
  constructor
  · intro h
    have hplace := cell_inj h
    rwa [Nat.mod_eq_of_lt hrow, Nat.mod_eq_of_lt hcol] at hplace
  · rintro ⟨rfl, rfl⟩
    simp only [Display.cell, Nat.mod_mod]

/-- The bits of one row that fall on a pixel. -/
theorem count_columns (byte : UInt8) {top left row col : Nat} (hrow : row < 32) (hcol : col < 64) :
    ((columns byte).map fun j => Display.cell top (left + j)).count (Display.cell row col) =
      ((Finset.range 8).filter fun j =>
        byte.toNat.testBit (7 - j) = true ∧ top % 32 = row ∧ (left + j) % 64 = col).card := by
  rw [List.count, List.countP_map, columns, List.countP_filter, List.countP_eq_length_filter]
  refine congrArg List.length (List.filter_congr fun j _ => ?_)
  rw [Bool.eq_iff_iff]
  simp [cell_eq_iff hrow hcol, and_comm]

theorem count_cells (rows : Nat → UInt8) (height left top : Nat) {row col : Nat} (hrow : row < 32)
    (hcol : col < 64) :
    (cells rows height left top).count (Display.cell row col) =
      ((Finset.range height ×ˢ Finset.range 8).filter fun b =>
        (rows b.1).toNat.testBit (7 - b.2) = true ∧
          (top + b.1) % 32 = row ∧ (left + b.2) % 64 = col).card := by
  rw [Finset.card_filter, Finset.sum_product, cells, List.count_flatMap]
  change ∑ i ∈ Finset.range height, _ = _
  refine Finset.sum_congr rfl fun i _ => ?_
  rw [Function.comp_apply, count_columns _ hrow hcol, Finset.card_filter]

end Sprite

namespace Machine

/-- The set bits of the sprite at the index that fall on a pixel, as pairs of a row and a column of
the sprite. The corner of the sprite is brought onto the display first. -/
def bitsOn (m : Machine) (x y : Register) (n : UInt8) (row col : Nat) : Finset (Nat × Nat) :=
  let left := (m.v x).toNat % 64
  let top := (m.v y).toNat % 32
  (Finset.range n.toNat ×ˢ Finset.range 8).filter fun b =>
    m.memory[(m.index.toNat + b.1) % 4096].toNat.testBit (7 - b.2) = true ∧
      (top + b.1) % 32 = row ∧ (left + b.2) % 64 = col

theorem count_spriteCells (m : Machine) (x y : Register) (n : UInt8) {row col : Nat}
    (hrow : row < 32) (hcol : col < 64) :
    (m.spriteCells x y n).count (Display.cell row col) = (m.bitsOn x y n row col).card := by
  rw [spriteCells, Sprite.count_cells _ _ _ _ hrow hcol, bitsOn]
  simp only [Nat.mod_add_mod]
  rfl

theorem draw_pixel (m : Machine) (x y : Register) (n : UInt8) {row col : Nat} (hrow : row < 32)
    (hcol : col < 64) :
    (m.execute (.draw x y n)).machine.display.get (Display.cell row col) =
      (m.display.get (Display.cell row col) ^^ decide (Odd (m.bitsOn x y n row col).card)) := by
  rw [(m.execute_draw_flipped x y n).display, Display.get_flipAll,
    m.count_spriteCells x y n hrow hcol]
  simp only [Nat.odd_iff]

theorem draw_flag (m : Machine) (x y : Register) (n : UInt8) :
    (m.execute (.draw x y n)).machine.v Registers.flag = 0 ∨
      (m.execute (.draw x y n)).machine.v Registers.flag = 1 := by
  rw [execute_draw_flag]
  split
  · exact .inr rfl
  · exact .inl rfl

theorem draw_flag_iff (m : Machine) (x y : Register) {n : UInt8} (hn : n.toNat ≤ 32) :
    (m.execute (.draw x y n)).machine.v Registers.flag = 1 ↔
      ∃ c, m.display.get c = true ∧ (m.execute (.draw x y n)).machine.display.get c = false := by
  rw [execute_draw_flag, (m.execute_draw_flipped x y n).display,
    ← Display.hits_iff_darkened (m.nodup_spriteCells hn)]
  cases m.display.hits (m.spriteCells x y n) <;> simp

/-- A drawing flips the pixels that an odd number of set bits fall on, raises the drawn flag and
tells in the flag register whether a pixel went out, and that is all it does. The loops over bare
arrays, with the corner read before the flag register is cleared, come to the same. -/
theorem draw_flips_odd_pixels (m : Machine) (x y : Register) (n : UInt8) :
    let done := m.execute (.draw x y n)
    done.answer = .ok .draw ∧
      (∀ row < 32, ∀ col < 64, done.machine.display.get (Display.cell row col) =
        (m.display.get (Display.cell row col) ^^ decide (Odd (m.bitsOn x y n row col).card))) ∧
      (done.machine.v Registers.flag = 0 ∨ done.machine.v Registers.flag = 1) ∧
      (n.toNat ≤ 32 → (done.machine.v Registers.flag = 1 ↔
        ∃ c, m.display.get c = true ∧ done.machine.display.get c = false)) ∧
      (∀ k ≠ Registers.flag, done.machine.v k = m.v k) ∧
      done.machine = { m with
        display := done.machine.display
        drawn := true
        registers := done.machine.registers
        pc := Advance.next.apply m.pc } ∧
      (Checked.State.ofMachine m).execute (.draw x y n) =
        .ok (Checked.State.ofMachine done.machine, done.answer) := by
  refine ⟨rfl, fun row hrow col hcol => m.draw_pixel x y n hrow hcol, m.draw_flag x y n,
    fun hn => m.draw_flag_iff x y hn, (m.execute_draw_flipped x y n).registers, rfl, ?_⟩
  exact Checked.State.execute_ofMachine rfl

/-- A machine with one lit pixel in its first row that draws a digit over the lower right corner,
with the flag register as a coordinate. -/
def aroundCorner : Machine :=
  { ((powerOn 0).setRegister 0 62).setRegister Registers.flag 31 with
    index := 0x50
    display := Display.blank.flip (Display.cell 0 1) }

/-- The second row of the digit lies in the first row of the display and puts the pixel out. -/
theorem draw_flips_odd_pixels_around_corner :
    (5 : UInt8).toNat ≤ 32 ∧ aroundCorner.display.get (Display.cell 0 1) = true ∧
      let done := aroundCorner.execute (.draw 0 Registers.flag 5)
      done.machine.display.get (Display.cell 0 1) = false ∧
      done.machine.v Registers.flag = 1 := by
  have hheight : (5 : UInt8).toNat ≤ 32 := by decide
  have hlit : aroundCorner.display.get (Display.cell 0 1) = true := by
    simp [aroundCorner, Display.get_flip, Display.get_blank]
  have hbits : (aroundCorner.bitsOn 0 Registers.flag 5 0 1).card = 1 := by decide +kernel
  obtain ⟨_, hpixel, _, hflag, _⟩ := draw_flips_odd_pixels aroundCorner 0 Registers.flag 5
  have hdark := hpixel 0 (by omega) 1 (by omega)
  rw [hlit, hbits] at hdark
  exact ⟨hheight, hlit, hdark, (hflag hheight).mpr ⟨_, hlit, hdark⟩⟩

end Machine
end Chip8
