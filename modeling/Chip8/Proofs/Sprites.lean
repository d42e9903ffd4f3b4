import Mathlib.Algebra.BigOperators.Group.Finset.Basic
import Mathlib.Algebra.BigOperators.Ring.Finset
import Chip8.Proofs.Effects

/-!
# Sprites commute and cancel

Drawing flips the pixels of a sprite, and which pixels these are is read from parts of the machine
that no drawing touches. So the picture after any number of sprites depends only on how often each
of them was drawn, odd or even.
-/
namespace Chip8

namespace Display

/-- Of all flips of a pixel only the parity counts. -/
theorem get_flipAll (d : Display) (cs : List Cell) (k : Cell) :
    (d.flipAll cs).get k = (d.get k ^^ decide (cs.count k % 2 = 1)) := by
  induction cs generalizing d with
  | nil => simp [flipAll]
  | cons c cs ih =>
    have hcons : d.flipAll (c :: cs) = (d.flip c).flipAll cs := rfl
    rw [hcons, ih, get_flip, List.count_cons]
    by_cases hc : c = k
    · have hparity : decide ((cs.count k + 1) % 2 = 1) = !decide (cs.count k % 2 = 1) := by
        rw [← decide_not, decide_eq_decide]
        omega
      simp [hc, hparity]
    · simp [hc]

theorem flipAll_perm {cs es : List Cell} (h : cs.Perm es) (d : Display) :
    d.flipAll cs = d.flipAll es := by
  apply ext_get
  intro k
  rw [get_flipAll, get_flipAll, h.count_eq]

theorem flipAll_of_even {cs : List Cell} (h : ∀ k, Even (cs.count k)) (d : Display) :
    d.flipAll cs = d := by
  apply ext_get
  intro k
  have heven : cs.count k % 2 = 0 := Nat.even_iff.mp (h k)
  simp [get_flipAll, heven]

theorem flipAll_flipAll (d : Display) (cs : List Cell) : (d.flipAll cs).flipAll cs = d := by
  rw [← flipAll_append]
  apply flipAll_of_even
  intro k
  rw [List.count_append]
  exact Even.add_self _

theorem hits_iff {cs : List Cell} (h : cs.Nodup) (d : Display) :
    d.hits cs = true ↔ ∃ c ∈ cs, d.get c = true := by
  induction cs generalizing d with
  | nil => simp [hits]
  | cons c cs ih =>
    obtain ⟨hc, hcs⟩ := List.nodup_cons.mp h
    have hrest : (∃ e ∈ cs, (d.flip c).get e = true) ↔ ∃ e ∈ cs, d.get e = true := by
      refine exists_congr fun e => and_congr_right fun he => ?_
      have hne : c ≠ e := fun heq => hc (heq ▸ he)
      rw [get_flip, if_neg hne]
    rw [hits, Bool.or_eq_true, ih hcs, hrest]
    simp

/-- Flipping the same pixels once more hits one exactly if one of them was dark at first. -/
theorem hits_flipAll_iff {cs : List Cell} (h : cs.Nodup) (d : Display) :
    (d.flipAll cs).hits cs = true ↔ ∃ c ∈ cs, d.get c = false := by
  rw [hits_iff h]
  refine exists_congr fun c => and_congr_right fun hc => ?_
  simp [get_flipAll, List.count_eq_one_of_mem h hc]

theorem get_blank (c : Cell) : blank.get c = false := by
  simp [blank, get_eq_getElem]

end Display

namespace Sprite

theorem cell_inj {row row' col col' : Nat} (h : Display.cell row col = Display.cell row' col') :
    row % 32 = row' % 32 ∧ col % 64 = col' % 64 := by
  simp only [Display.cell, Fin.mk.injEq] at h
  omega

/-- No pixel is covered twice by a sprite that is not higher than the display. -/
theorem nodup_cells (rows : Nat → UInt8) {height : Nat} (left top : Nat) (h : height ≤ 32) :
    (cells rows height left top).Nodup := by
  rw [cells, List.nodup_flatMap]
  constructor
  · intro i _
    apply List.Nodup.map_on _ (List.nodup_range.filter _)
    intro j hj j' hj' heq
    have hlt := ((mem_columns _ j).mp hj).1
    have hlt' := ((mem_columns _ j').mp hj').1
    have hcol := (cell_inj heq).2
    omega
  · apply List.Pairwise.imp_of_mem _ List.pairwise_lt_range
    intro i i' hi hi' hlt c hc hc'
    obtain ⟨j, _, rfl⟩ := List.mem_map.mp hc
    obtain ⟨j', _, heq⟩ := List.mem_map.mp hc'
    have hrow := (cell_inj heq).1
    rw [List.mem_range] at hi hi'
    omega

end Sprite

/-- A sprite to draw: where its rows lie, which registers hold its place, how high it is. -/
structure Stamp where
  index : UInt16
  x : Register
  y : Register
  n : UInt8
  deriving DecidableEq

namespace Stamp

def commands (s : Stamp) : List Command :=
  [.execute (.setIndex s.index), .execute (.draw s.x s.y s.n)]

/-- The place is not held by the flag register, which every drawing overwrites. -/
def Placed (s : Stamp) : Prop := s.x ≠ Registers.flag ∧ s.y ≠ Registers.flag

def cells (m : Machine) (s : Stamp) : List Cell :=
  { m with index := s.index }.spriteCells s.x s.y s.n

end Stamp

namespace Machine

/-- Draws sprites one after the other. -/
def stampAll (m : Machine) (stamps : List Stamp) : Machine :=
  (performAll (stamps.flatMap Stamp.commands) m).machine

/-- A set bit of the sprite at the index lies on the pixel. -/
def Covers (m : Machine) (x y : Register) (n : UInt8) (c : Cell) : Prop :=
  ∃ i < n.toNat, ∃ j < 8, (m.memory.read (m.index.toNat + i)).toNat.testBit (7 - j) = true ∧
    c.val = ((m.v y).toNat + i) % 32 * 64 + ((m.v x).toNat + j) % 64

/-- From `m` to `n` pixels were flipped, and the flag is the only register that may differ. -/
structure Flipped (m n : Machine) (cells : List Cell) : Prop where
  memory : n.memory = m.memory
  registers : ∀ k ≠ Registers.flag, n.v k = m.v k
  display : n.display = m.display.flipAll cells

theorem mem_spriteCells (m : Machine) (x y : Register) (n : UInt8) (c : Cell) :
    c ∈ m.spriteCells x y n ↔ m.Covers x y n c := by
  simp only [spriteCells, Covers, Sprite.mem_cells, Sprite.mem_columns, indexed, Display.cell,
    Fin.ext_iff, and_assoc, eq_comm]

theorem Flipped.trans {m n o : Machine} {cs es : List Cell} (h : Flipped m n cs)
    (h' : Flipped n o es) : Flipped m o (cs ++ es) := by
  refine ⟨h'.memory.trans h.memory, fun k hk => ?_, ?_⟩
  · rw [h'.registers k hk, h.registers k hk]
  · rw [h'.display, h.display, Display.flipAll_append]

theorem Flipped.spriteCells {m n : Machine} {cs : List Cell} (h : Flipped m n cs)
    {x y : Register} (hx : x ≠ Registers.flag) (hy : y ≠ Registers.flag) (height : UInt8)
    (hindex : n.index = m.index) : n.spriteCells x y height = m.spriteCells x y height := by
  have hrows : n.indexed = m.indexed := by
    funext offset
    rw [indexed, indexed, h.memory, hindex]
  rw [Machine.spriteCells, Machine.spriteCells, hrows, h.registers x hx, h.registers y hy]

theorem execute_draw_flipped (m : Machine) (x y : Register) (n : UInt8) :
    Flipped m (m.execute (.draw x y n)).machine (m.spriteCells x y n) := by
  refine ⟨rfl, fun k hk => ?_, rfl⟩
  have hset : (m.execute (.draw x y n)).machine.v k =
      (setAt m.registers Registers.flag _).get k := rfl
  rw [hset, get_setAt, if_neg hk.symm]

theorem execute_draw_flag (m : Machine) (x y : Register) (n : UInt8) :
    (m.execute (.draw x y n)).machine.v Registers.flag =
      if m.display.hits (m.spriteCells x y n) then 1 else 0 := by
  have hset : (m.execute (.draw x y n)).machine.v Registers.flag =
      (setAt m.registers Registers.flag _).get Registers.flag := rfl
  rw [hset, get_setAt, if_pos rfl]

theorem stamp_flipped (m : Machine) (s : Stamp) :
    Flipped m (performAll s.commands m).machine (s.cells m) := by
  have hindexed : Flipped m (m.execute (.setIndex s.index)).machine [] :=
    ⟨rfl, fun _ _ => rfl, rfl⟩
  exact hindexed.trans (execute_draw_flipped _ s.x s.y s.n)

theorem Flipped.cells {m n : Machine} {cs : List Cell} (h : Flipped m n cs) {s : Stamp}
    (hs : s.Placed) : s.cells n = s.cells m := by
  have hplaced : Flipped { m with index := s.index } { n with index := s.index } cs :=
    ⟨h.memory, h.registers, h.display⟩
  exact hplaced.spriteCells hs.1 hs.2 s.n rfl

theorem Flipped.stampAll {m n : Machine} {cs : List Cell} (h : Flipped m n cs)
    {stamps : List Stamp} (hs : ∀ s ∈ stamps, s.Placed) :
    Flipped m (n.stampAll stamps) (cs ++ stamps.flatMap (Stamp.cells m)) := by
  induction stamps generalizing n cs with
  | nil => simpa [Machine.stampAll, performAll] using h
  | cons s stamps ih =>
    have hfirst : Flipped m (performAll s.commands n).machine (cs ++ s.cells m) := by
      rw [← h.cells (hs s (by simp))]
      exact h.trans (n.stamp_flipped s)
    have hrest := ih hfirst fun t ht => hs t (by simp [ht])
    rw [Machine.stampAll, List.flatMap_cons, performAll_append, List.flatMap_cons,
      ← List.append_assoc]
    exact hrest

theorem stampAll_flipped (m : Machine) {stamps : List Stamp} (hs : ∀ s ∈ stamps, s.Placed) :
    Flipped m (m.stampAll stamps) (stamps.flatMap (Stamp.cells m)) := by
  have hstart : Flipped m m [] := ⟨rfl, fun _ _ => rfl, rfl⟩
  exact hstart.stampAll hs

theorem even_count_flatMap {stamps : List Stamp} (h : ∀ s, Even (stamps.count s))
    (f : Stamp → List Cell) (k : Cell) : Even ((stamps.flatMap f).count k) := by
  rw [List.count_flatMap, Finset.sum_list_map_count, even_iff_two_dvd]
  apply Finset.dvd_sum
  intro s _
  rw [Nat.nsmul_eq_mul]
  exact (h s).two_dvd.mul_right _

section Redraw

variable (m : Machine) {x y : Register} {n : UInt8} (hx : x ≠ Registers.flag)
  (hy : y ≠ Registers.flag)

theorem nodup_spriteCells (hn : n.toNat ≤ 32) : (m.spriteCells x y n).Nodup :=
  Sprite.nodup_cells _ _ _ hn

theorem draw_flag_of_blank (hn : n.toNat ≤ 32) (h : m.display = Display.blank) :
    (m.execute (.draw x y n)).machine.v Registers.flag = 0 := by
  have hdark : ¬ m.display.hits (m.spriteCells x y n) = true := by
    rw [Display.hits_iff (m.nodup_spriteCells hn), h]
    rintro ⟨c, _, hc⟩
    rw [Display.get_blank] at hc
    cases hc
  exact (m.execute_draw_flag x y n).trans (if_neg hdark)

include hx hy

theorem redraw_spriteCells :
    (m.execute (.draw x y n)).machine.spriteCells x y n = m.spriteCells x y n :=
  (m.execute_draw_flipped x y n).spriteCells hx hy n rfl

theorem redraw_display :
    ((m.execute (.draw x y n)).machine.execute (.draw x y n)).machine.display = m.display := by
  have hsecond := (m.execute (.draw x y n)).machine.execute_draw_flipped x y n
  rw [m.redraw_spriteCells hx hy] at hsecond
  rw [((m.execute_draw_flipped x y n).trans hsecond).display, Display.flipAll_append,
    Display.flipAll_flipAll]

theorem redraw_flag (hn : n.toNat ≤ 32) :
    ((m.execute (.draw x y n)).machine.execute (.draw x y n)).machine.v Registers.flag = 1 ↔
      ∃ c, m.Covers x y n c ∧ m.display.get c = false := by
  have hset := (m.execute (.draw x y n)).machine.execute_draw_flag x y n
  rw [m.redraw_spriteCells hx hy, (m.execute_draw_flipped x y n).display] at hset
  simp only [← mem_spriteCells, ← Display.hits_flipAll_iff (m.nodup_spriteCells hn)]
  rw [hset]
  cases (m.display.flipAll (m.spriteCells x y n)).hits (m.spriteCells x y n) <;> decide

end Redraw

/-- Sprites can be drawn in any order, and drawn an even number of times they leave no trace. The
second of two equal drawings reports a hit exactly if the first one lit a pixel. -/
theorem sprites_commute_and_cancel (m : Machine) :
    (∀ stamps others : List Stamp, stamps.Perm others → (∀ s ∈ stamps, s.Placed) →
      (m.stampAll others).display = (m.stampAll stamps).display ∧
      (m.stampAll others).memory = (m.stampAll stamps).memory ∧
      ∀ k ≠ Registers.flag, (m.stampAll others).v k = (m.stampAll stamps).v k) ∧
    (∀ stamps : List Stamp, (∀ s ∈ stamps, s.Placed) → (∀ s, Even (stamps.count s)) →
      (m.stampAll stamps).display = m.display) ∧
    ∀ (x y : Register) (n : UInt8), x ≠ Registers.flag → y ≠ Registers.flag → n.toNat ≤ 32 →
      let once := (m.execute (.draw x y n)).machine
      let twice := (once.execute (.draw x y n)).machine
      twice.display = m.display ∧
      (twice.v Registers.flag = 1 ↔ ∃ c, m.Covers x y n c ∧ m.display.get c = false) ∧
      (m.display = Display.blank → (∃ c, m.Covers x y n c) →
        once.v Registers.flag = 0 ∧ twice.v Registers.flag = 1) := by
  refine ⟨fun stamps others hperm hs => ?_, fun stamps hs heven => ?_,
    fun x y n hx hy hn => ?_⟩
  · have hother : ∀ s ∈ others, s.Placed := fun s hmem => hs s (hperm.mem_iff.mpr hmem)
    have h := m.stampAll_flipped hs
    have h' := m.stampAll_flipped hother
    refine ⟨?_, h'.memory.trans h.memory.symm, fun k hk => ?_⟩
    · rw [h.display, h'.display]
      exact Display.flipAll_perm (hperm.symm.flatMap_right _) _
    · rw [h.registers k hk, h'.registers k hk]
  · rw [(m.stampAll_flipped hs).display]
    exact Display.flipAll_of_even (even_count_flatMap heven _) _
  · have hflag := m.redraw_flag hx hy hn
    refine ⟨m.redraw_display hx hy, hflag, fun hblank hcovers => ⟨?_, ?_⟩⟩
    · exact m.draw_flag_of_blank hn hblank
    · obtain ⟨c, hc⟩ := hcovers
      exact hflag.mpr ⟨c, hc, by rw [hblank, Display.get_blank]⟩

/-- A machine that draws over the lower right corner, with a digit at the index. -/
def atCorner : Machine :=
  { ((powerOn 0).setRegister 0 62).setRegister 1 30 with index := 0x50 }

/-- Two digits, each of them twice. -/
def digitPairs : List Stamp :=
  [⟨0x50, 0, 1, 5⟩, ⟨0x5A, 1, 0, 5⟩, ⟨0x5A, 1, 0, 5⟩, ⟨0x50, 0, 1, 5⟩]

theorem sprites_commute_and_cancel_at_corner :
    (atCorner.stampAll (digitPairs.rotate 1)).display = (atCorner.stampAll digitPairs).display ∧
      (atCorner.stampAll digitPairs).display = Display.blank ∧
      let once := (atCorner.execute (.draw 0 1 5)).machine
      let twice := (once.execute (.draw 0 1 5)).machine
      twice.display = Display.blank ∧ once.v Registers.flag = 0 ∧ twice.v Registers.flag = 1 := by
  obtain ⟨hcommute, hcancel, htwice⟩ := sprites_commute_and_cancel atCorner
  have hplaced : ∀ s ∈ digitPairs, s.Placed := by
    simp [digitPairs, Stamp.Placed, Registers.flag]
  have heven : ∀ s, Even (digitPairs.count s) := by
    intro s
    simp only [digitPairs, List.count_cons, List.count_nil]
    split <;> split <;> decide
  have hperm : digitPairs.Perm (digitPairs.rotate 1) := (List.rotate_perm _ _).symm
  have hcovers : atCorner.Covers 0 1 5 (Display.cell 30 62) :=
    ⟨0, by decide, 0, by decide, by decide +kernel, by decide⟩
  obtain ⟨hback, _, hflags⟩ := htwice 0 1 5 (by decide) (by decide) (by decide)
  exact ⟨(hcommute _ _ hperm hplaced).1, hcancel _ hplaced heven, hback, hflags rfl ⟨_, hcovers⟩⟩

end Machine
end Chip8
