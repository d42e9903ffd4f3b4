import Chip8.Proofs.Checked.Refinement
import Chip8.Proofs.Footprint
import Chip8.Proofs.StraightLine

/-!
# Program images

An image that fits lies in the program area byte for byte and nothing else is touched; one that does
not fit changes nothing. What a second image does not cover stays of the first one, and words that
were written as bytes are fetched again as words.
-/
namespace Chip8

namespace Memory

variable {a b : List UInt8}

/-- Every place is so many places behind a given one. -/
theorem ext_from {m n : Memory} (start : Nat)
    (h : ∀ k < 4096, m.read (start + k) = n.read (start + k)) : m = n := by
  apply Machine.memory_ext
  intro c
  have hk := h ((c + 4096 - start % 4096) % 4096) (by omega)
  have hplace : (start + (c + 4096 - start % 4096) % 4096) % 4096 = c % 4096 := by omega
  rwa [m.read_congr hplace, n.read_congr hplace] at hk

/-- After a write each place holds the byte that was written there, if there is one. -/
theorem read_writeList_getD (m : Memory) (start : Nat) (ha : a.length ≤ 4096) {k : Nat}
    (hk : k < 4096) : (m.writeList start a).read (start + k) = a.getD k (m.read (start + k)) := by
  by_cases hin : k < a.length
  · rw [m.read_writeList start k a hin ha, List.getD_eq_getElem a _ hin]
  · rw [List.getD_eq_default a _ (Nat.le_of_not_lt hin)]
    apply read_writeList_of_ne
    intro j hj
    omega

/-- Of two lists written from one place on, the second wins where it reaches. -/
theorem writeList_writeList (m : Memory) (start : Nat) (ha : a.length ≤ 4096)
    (hb : b.length ≤ 4096) :
    (m.writeList start a).writeList start b = m.writeList start (b ++ a.drop b.length) := by
  have hboth : (b ++ a.drop b.length).length ≤ 4096 := by
    rw [List.length_append, List.length_drop]
    omega
  apply ext_from start
  intro k hk
  rw [read_writeList_getD _ _ hb hk, read_writeList_getD _ _ ha hk,
    read_writeList_getD _ _ hboth hk]
  by_cases hin : k < b.length
  · rw [List.getD_append b _ _ k hin, List.getD_eq_getElem b _ hin, List.getD_eq_getElem b _ hin]
  · have hout := Nat.le_of_not_lt hin
    rw [List.getD_append_right b _ _ k hout, List.getD_eq_default b _ hout]
    simp only [List.getD_eq_getElem?_getD, List.getElem?_drop, Nat.add_sub_of_le hout]

theorem Holds.fetch {m : Memory} {start : Nat} {ws : List Word} (h : m.Holds start ws) {k : Nat}
    (hk : k < ws.length) : m.fetch (UInt16.ofNat ((start + 2 * k) % 4096)) = ws[k] := by
  induction ws generalizing start k with
  | nil => cases hk
  | cons w ws ih =>
    cases k with
    | zero => rw [Nat.mul_zero, Nat.add_zero, fetch_ofNat, h.1]; rfl
    | succ k =>
      have hnext := ih h.2 (Nat.lt_of_succ_lt_succ hk)
      rwa [Nat.add_assoc, Nat.add_comm 2] at hnext

theorem getElem?_eq_read (m : Memory) {address : Nat} (h : address < 4096) :
    m[address]? = some (m.read address) := by
  simp only [read, Nat.mod_eq_of_lt h, Vector.getElem?_eq_getElem h]

end Memory

namespace Machine

variable {m : Machine} {image : List UInt8}

/-- `n` is `m` with the image in its program area. -/
structure Loaded (image : List UInt8) (m n : Machine) : Prop where
  inside : ∀ k (hk : k < image.length), n.memory[0x200 + k]? = some image[k]
  outside : ∀ a, a < 0x200 ∨ 0x200 + image.length ≤ a → n.memory[a]? = m.memory[a]?
  rest : n = { m with memory := n.memory }

theorem load_of_le (h : image.length ≤ 3584) :
    m.load image = ⟨{ m with memory := m.memory.writeList 0x200 image }, .ok (),
      [.loaded image.length]⟩ := if_pos h

theorem load_of_lt (h : 3584 < image.length) :
    m.load image = ⟨m, .error ⟨image.length, 3584⟩, [.refused image.length 3584]⟩ :=
  if_neg (Nat.not_le.mpr h)

theorem load_eq_ok_iff (m : Machine) (image : List UInt8) :
    (m.load image).answer = .ok () ↔ image.length ≤ 3584 := by
  rcases Nat.lt_or_ge 3584 image.length with hlarge | hfits
  · rw [load_of_lt hlarge]
    simp [hlarge]
  · rw [load_of_le hfits]
    simp [hfits]

theorem load_loaded (h : image.length ≤ 3584) : Loaded image m (m.load image).machine := by
  rw [load_of_le h]
  refine ⟨fun k hk => ?_, fun a ha => ?_, rfl⟩
  · rw [Memory.getElem?_eq_read _ (by omega), m.memory.read_writeList _ k image hk (by omega)]
  · rcases Nat.lt_or_ge a 4096 with hlt | hge
    · rw [Memory.getElem?_eq_read _ hlt, Memory.getElem?_eq_read _ hlt]
      refine congrArg some (m.memory.read_writeList_of_ne _ a image fun k hk => ?_)
      omega
    · rw [Vector.getElem?_eq_none hge, Vector.getElem?_eq_none hge]

theorem load_load {a b : List UInt8} (ha : a.length ≤ 3584) (hb : b.length ≤ 3584) :
    (b ++ a.drop b.length).length ≤ 3584 ∧
      ((m.load a).machine.load b).machine = (m.load (b ++ a.drop b.length)).machine := by
  have hboth : (b ++ a.drop b.length).length ≤ 3584 := by
    rw [List.length_append, List.length_drop]
    omega
  refine ⟨hboth, ?_⟩
  rw [load_of_le ha, load_of_le hb, load_of_le hboth,
    ← m.memory.writeList_writeList 0x200 (by omega) (by omega)]

theorem fetch_load {ws : List Word} (h : (ws.flatMap Word.bytes).length ≤ 3584) {k : Nat}
    (hk : k < ws.length) :
    (m.load (ws.flatMap Word.bytes)).machine.memory.fetch (UInt16.ofNat (0x200 + 2 * k)) =
      ws[k] := by
  have hlength := Word.length_flatMap_bytes ws
  have hplace : (0x200 + 2 * k) % 4096 = 0x200 + 2 * k := Nat.mod_eq_of_lt (by omega)
  have hall : 2 * ws.length ≤ 4096 := by omega
  have hholds := (m.memory.holds_writeList 0x200 hall).fetch hk
  rw [load_of_le h, ← hplace]
  exact hholds

/-- Images of at most 3584 bytes, and no others, are taken into the program area and nowhere else. A
second image leaves what it does not cover of the first, words come back as they were written, and
addresses are read modulo the size of the memory. Copying byte by byte into a bare array comes to the
same and never runs over its end. -/
theorem image_lies_in_program_area (m : Machine) :
    (∀ image, (m.load image).answer = .ok () ↔ image.length ≤ 3584) ∧
      (∀ image, image.length ≤ 3584 → Loaded image m (m.load image).machine) ∧
      (∀ image, 3584 < image.length →
        (m.load image).machine = m ∧ (m.load image).answer = .error ⟨image.length, 3584⟩) ∧
      (∀ a b, a.length ≤ 3584 → b.length ≤ 3584 →
        (b ++ a.drop b.length).length ≤ 3584 ∧
          ((m.load a).machine.load b).machine = (m.load (b ++ a.drop b.length)).machine) ∧
      (∀ ws : List Word, (ws.flatMap Word.bytes).length ≤ 3584 → ∀ k (hk : k < ws.length),
        (m.load (ws.flatMap Word.bytes)).machine.memory.fetch (UInt16.ofNat (0x200 + 2 * k)) =
          ws[k]) ∧
      (∀ p, m.memory.fetch p = m.memory.fetch (UInt16.ofNat (p.toNat % 4096))) ∧
      ∀ image, (Checked.State.ofMachine m).load image =
        .ok (Checked.State.ofMachine (m.load image).machine, (m.load image).answer) := by
  refine ⟨m.load_eq_ok_iff, fun image h => load_loaded h, fun image h => ?_,
    fun a b ha hb => load_load ha hb, fun ws h k hk => fetch_load h hk, fun p => ?_,
    Checked.State.load_ofMachine m⟩
  · rw [load_of_lt h]
    exact ⟨rfl, rfl⟩
  · apply m.memory.fetch_mod
    rw [UInt16.toNat_ofNat']
    omega

/-- As many bytes as fit. -/
def fullImage : List UInt8 := List.replicate 3584 7

/-- The last byte of a full image lies in the last place, one byte more is refused, and a short image
over it leaves the rest. -/
theorem image_lies_in_program_area_up_to_end :
    let m := powerOn 0
    fullImage.length ≤ 3584 ∧ 3584 < (7 :: fullImage).length ∧
      (m.load fullImage).machine.memory[0xFFF]? = some 7 ∧
      (m.load (7 :: fullImage)).machine = m ∧
      ((m.load fullImage).machine.load [1, 2]).machine =
        (m.load ([1, 2] ++ fullImage.drop 2)).machine ∧
      (m.load ([0x00E0, 0x1200].flatMap Word.bytes)).machine.memory.fetch 0x202 = 0x1200 := by
  intro m
  have hlength : fullImage.length = 3584 := List.length_replicate
  have hfits : fullImage.length ≤ 3584 := Nat.le_of_eq hlength
  have hlarge : 3584 < (7 :: fullImage).length := by
    rw [List.length_cons, hlength]
    exact Nat.lt_succ_self 3584
  have hlast : 3583 < fullImage.length := by
    rw [hlength]
    exact Nat.lt_succ_self 3583
  obtain ⟨_, hloaded, hrefused, htwice, hwords, _⟩ := image_lies_in_program_area m
  have hbyte := (hloaded fullImage hfits).inside 3583 hlast
  have hseven : fullImage[3583] = 7 := List.getElem_replicate hlast
  rw [hseven] at hbyte
  exact ⟨hfits, hlarge, hbyte, (hrefused _ hlarge).1, (htwice fullImage [1, 2] hfits (by simp)).2,
    hwords [0x00E0, 0x1200] (by simp [Word.bytes]) 1 (by simp)⟩

end Machine
end Chip8
