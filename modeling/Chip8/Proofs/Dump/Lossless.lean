import Mathlib.Data.List.Basic
import Chip8.Proofs.Dump.Fields

/-!
# Dumps lose nothing

Machines with the same dump are the same in everything that a dump shows. A row that the memory
section leaves out is a row of zeros, and every written row carries its address. So equal sections
write the same rows, and a row that neither of them writes is zero in both memories.
-/
namespace Chip8.Dump

/-- Everything that a dump shows is the same in both machines. -/
structure Agree (m n : Machine) : Prop where
  pc : m.pc = n.pc
  word : m.word = n.word
  index : m.index = n.index
  depth : m.stack.depth = n.stack.depth
  delay : m.delay = n.delay
  sound : m.sound = n.sound
  registers : m.registers = n.registers
  live : m.stack.live = n.stack.live
  program : ∀ a, Memory.programStart ≤ a → a < Memory.size → m.memory.read a = n.memory.read a
  display : m.display = n.display

/-! ### Which rows are written -/

/-- The first row writes no row but itself, and that unless it is a row of zeros with a row of zeros
before it. What it leaves to the rows behind it is whether it was one. -/
theorem entriesFrom_cons (row : Nat) (gap : Gap) (zero : Bool) (rest : List Bool) :
    ∃ written next,
      entriesFrom row gap (zero :: rest) = written ++ entriesFrom (row + 1) next rest ∧
      (∀ r, .row r ∈ written ↔ r = row ∧ (zero = false ∨ gap = .none)) ∧
      (next = .none ↔ zero = false) := by
  cases zero with
  | false => exact ⟨[.row row], .none, rfl, by simp, by simp⟩
  | true =>
    cases gap with
    | none => exact ⟨[.row row], .zeroRow, rfl, by simp, by simp⟩
    | zeroRow => exact ⟨[.filler], .filled, rfl, by simp, by simp⟩
    | filled => exact ⟨[], .filled, rfl, by simp, by simp⟩

theorem bounds_of_row_mem {row r : Nat} {gap : Gap} {flags : List Bool}
    (h : .row r ∈ entriesFrom row gap flags) : row ≤ r ∧ r < row + flags.length := by
  induction flags generalizing row gap with
  | nil => cases h
  | cons zero rest ih =>
    obtain ⟨written, next, heq, hwritten, -⟩ := entriesFrom_cons row gap zero rest
    rw [heq] at h
    rw [List.length_cons]
    rcases List.mem_append.mp h with h | h
    · have := ((hwritten r).mp h).1
      omega
    · have := ih h
      omega

theorem row_mem_entriesFrom_iff {row i : Nat} {gap : Gap} {flags : List Bool}
    (hi : i < flags.length) :
    .row (row + i) ∈ entriesFrom row gap flags ↔
      flags[i]? = some false ∨ i = 0 ∧ gap = .none ∨ 0 < i ∧ flags[i - 1]? = some false := by
  induction flags generalizing row i gap with
  | nil => exact absurd hi (Nat.not_lt_zero i)
  | cons zero rest ih =>
    obtain ⟨written, next, heq, hwritten, hnext⟩ := entriesFrom_cons row gap zero rest
    rw [heq, List.mem_append, hwritten]
    cases i with
    | zero =>
      -- behind the first row only later ones are written
      have hlater : .row row ∉ entriesFrom (row + 1) next rest := fun h => by
        have := (bounds_of_row_mem h).1
        omega
      simp [hlater]
    | succ i =>
      have hrow : row + (i + 1) = row + 1 + i := by omega
      have hne : row + 1 + i ≠ row := by omega
      rw [hrow, ih (Nat.lt_of_succ_lt_succ hi), hnext]
      cases i with
      | zero => simp
      | succ i => simp [hne]

theorem row_lt_of_mem_entries {m : Memory} {r : Nat} (h : .row r ∈ entries m) : r < rowCount := by
  simpa [entries] using (bounds_of_row_mem h).2

theorem row_mem_entries_iff {m : Memory} {r : Nat} (hr : r < rowCount) :
    .row r ∈ entries m ↔
      isZeroRow m r = false ∨ r = 0 ∨ 0 < r ∧ isZeroRow m (r - 1) = false := by
  have hflag : ∀ i < rowCount,
      (((List.range rowCount).map (isZeroRow m))[i]? = some false ↔ isZeroRow m i = false) := by
    intro i hi
    simp [hi]
  have hmem := @row_mem_entriesFrom_iff 0 r .none ((List.range rowCount).map (isZeroRow m))
    (by simpa using hr)
  rw [Nat.zero_add, hflag r hr, hflag (r - 1) (by omega), and_iff_left rfl] at hmem
  exact hmem

/-! ### The program area -/

/-- The bytes of a row are the same in both memories. -/
def SameRow (m n : Memory) (row : Nat) : Prop :=
  ∀ k < rowSize, m.read (rowAddress row + k) = n.read (rowAddress row + k)

theorem sameRows_iff {m n : Memory} : (∀ r < rowCount, SameRow m n r) ↔
    ∀ a, Memory.programStart ≤ a → a < Memory.size → m.read a = n.read a := by
  simp only [SameRow, rowAddress, rowCount, rowSize, Memory.programCapacity, Memory.size,
    Memory.programStart]
  constructor
  · intro h a hlow hhigh
    obtain ⟨r, k, hr, hk, rfl⟩ :
        ∃ r k, r < (4096 - 0x200) / 16 ∧ k < 16 ∧ a = 0x200 + r * 16 + k :=
      ⟨(a - 0x200) / 16, (a - 0x200) % 16, by omega, by omega, by omega⟩
    exact h r hr k hk
  · intro h r hr k hk
    exact h _ (by omega) (by omega)

theorem SameRow.symm {m n : Memory} {r : Nat} (h : SameRow m n r) : SameRow n m r :=
  fun k hk => (h k hk).symm

theorem SameRow.isZeroRow {m n : Memory} {r : Nat} (h : SameRow m n r) :
    isZeroRow m r = isZeroRow n r := by
  have hbytes : m.readList (rowAddress r) rowSize = n.readList (rowAddress r) rowSize :=
    List.map_congr_left fun k hk => h k (List.mem_range.mp hk)
  rw [Dump.isZeroRow, Dump.isZeroRow, hbytes]

theorem sameRow_of_isZeroRow {m n : Memory} {r : Nat} (hm : isZeroRow m r = true)
    (hn : isZeroRow n r = true) : SameRow m n r := by
  have hzero {o : Memory} (ho : isZeroRow o r = true) :
      ∀ k < rowSize, o.read (rowAddress r + k) = 0 := by
    intro k hk
    have hmem := List.mem_of_getElem? (o.getElem?_readList (rowAddress r) rowSize k hk)
    simpa using List.all_eq_true.mp ho _ hmem
  intro k hk
  rw [hzero hm k hk, hzero hn k hk]

/-- The words of a row hold its bytes, two in each. -/
theorem rowWords_eq_iff {m n : Memory} {r : Nat} (hr : r < rowCount) :
    rowWords m r = rowWords n r ↔ SameRow m n r := by
  have haddress := rowAddress_lt hr
  have hword {o : Memory} {j : Nat} (hj : j < 8) :
      (o.fetch (UInt16.ofNat (rowAddress r + 2 * j))).bytes =
        [o.read (rowAddress r + 2 * j), o.read (rowAddress r + (2 * j + 1))] := by
    rw [Memory.bytes_fetch o (by omega), Nat.add_assoc]
  rw [rowWords, rowWords, List.map_inj_left]
  constructor
  · intro h k hk
    simp only [rowSize] at hk
    have hbytes := congrArg Word.bytes (h (k / 2) (by simp; omega))
    rw [hword (by omega), hword (by omega)] at hbytes
    simp only [List.cons.injEq, and_true] at hbytes
    rcases Nat.mod_two_eq_zero_or_one k with heven | hodd
    · have hk' : 2 * (k / 2) = k := by omega
      rw [← hk']
      exact hbytes.1
    · have hk' : 2 * (k / 2) + 1 = k := by omega
      rw [← hk']
      exact hbytes.2
  · intro h j hj
    rw [List.mem_range] at hj
    apply Word.bytes_inj
    rw [hword hj, hword hj, h (2 * j) (by simp only [rowSize]; omega),
      h (2 * j + 1) (by simp only [rowSize]; omega)]

theorem rowWords_of_memoryLines {m n : Memory} {r : Nat} (h : memoryLines m = memoryLines n)
    (hr : .row r ∈ entries m) : rowWords m r = rowWords n r := by
  -- the line of the row stands in the other section too, and there it is the line of the same row
  have hline : rowLine m r ∈ (entries n).map (entryLine n) :=
    List.tail_eq_of_cons_eq h ▸ List.mem_map_of_mem (f := entryLine m) hr
  obtain ⟨e, he, hsame⟩ := List.mem_map.mp hline
  cases e with
  | filler => exact absurd hsame.symm (rowLine_ne_fillerLine m r)
  | row s =>
    obtain ⟨rfl, hwords⟩ := rowLine_inj (row_lt_of_mem_entries he) (row_lt_of_mem_entries hr) hsame
    exact hwords.symm

/-- Equal memory sections come from equal bytes, also in the rows that are left out. -/
theorem sameRow_of_memoryLines {m n : Memory} {r : Nat} (hr : r < rowCount)
    (h : memoryLines m = memoryLines n) : SameRow m n r := by
  cases hm : isZeroRow m r with
  | false =>
    have hwords := rowWords_of_memoryLines h ((row_mem_entries_iff hr).mpr (.inl hm))
    exact (rowWords_eq_iff hr).mp hwords
  | true =>
    cases hn : isZeroRow n r with
    | false =>
      have hwords := rowWords_of_memoryLines h.symm ((row_mem_entries_iff hr).mpr (.inl hn))
      exact ((rowWords_eq_iff hr).mp hwords).symm
    | true => exact sameRow_of_isZeroRow hm hn

theorem memoryLines_of_sameRow {m n : Memory} (h : ∀ r < rowCount, SameRow m n r) :
    memoryLines m = memoryLines n := by
  have hflags : (List.range rowCount).map (isZeroRow m) = (List.range rowCount).map (isZeroRow n) :=
    List.map_congr_left fun r hr => (h r (List.mem_range.mp hr)).isZeroRow
  have hentries : entries m = entries n := by
    rw [entries, entries, hflags]
  have hline : ∀ e ∈ entries m, entryLine m e = entryLine n e := by
    intro e he
    cases e with
    | filler => rfl
    | row r =>
      have hr := row_lt_of_mem_entries he
      simp only [entryLine, rowLine, (rowWords_eq_iff hr).mpr (h r hr)]
  rw [memoryLines, memoryLines, ← hentries, List.map_congr_left hline]

/-! ### The whole dump -/

theorem displayLines_length (d : Display) : (displayLines d).length = 33 := by
  simp [displayLines, Display.rows_length]

/-- A dump reads nothing beyond what it shows. -/
theorem text_congr {m n : Machine} (h : Agree m n) : text m = text n := by
  have hhead : headLine m = headLine n := by
    unfold headLine
    rw [h.pc, h.word, h.index, h.depth, h.delay, h.sound]
  unfold text lines stackLine
  rw [hhead, h.registers, h.live, memoryLines_of_sameRow (sameRows_iff.mpr h.program), h.display]

/-- A dump gives away everything that it shows. -/
theorem text_lossless (m n : Machine) (h : text m = text n) : Agree m n := by
  have hlines : lines m = lines n :=
    terminated_inj (newline_not_mem_lines m) (newline_not_mem_lines n) (String.ofList_injective h)
  have hlength : (displayLines m.display).length = (displayLines n.display).length := by
    rw [displayLines_length, displayLines_length]
  -- only the memory section varies in length: four lines stand before it, the display behind it
  obtain ⟨hfront, hdisplay⟩ := List.append_inj' hlines hlength
  obtain ⟨hhead, hmemory⟩ := List.append_inj hfront (by simp only [List.length_cons])
  simp only [List.cons.injEq, true_and, and_true] at hhead
  obtain ⟨hfirst, hregisters, hstack⟩ := hhead
  obtain ⟨hpc, hword, hindex, hdepth, hdelay, hsound⟩ := headLine_inj hfirst
  exact ⟨hpc, hword, hindex, hdepth, hdelay, hsound, registerLine_inj hregisters,
    stackLine_inj hstack, sameRows_iff.mp fun _ hr => sameRow_of_memoryLines hr hmemory,
    displayLines_inj hdisplay⟩

/-- A machine inside a call, with a word at the start of the program area and zeros behind it. -/
def called : Machine :=
  { Machine.powerOn 0 with
    memory := Font.memory.write Memory.programStart 0x22
    stack := ⟨setAt (Vector.replicate 16 0) 0 0x202, 1, by decide⟩ }

/-- The same machine with another byte below the program area, an old address in a dead slot, a
raised drawn flag and other random numbers to come. -/
def calledBefore : Machine :=
  { Machine.powerOn 1 with
    memory := (Font.memory.write 0 0xFF).write Memory.programStart 0x22
    stack := ⟨setAt (setAt (Vector.replicate 16 0) 0 0x202) 1 0x300, 1, by decide⟩
    drawn := true }

theorem text_lossless_inside_call :
    text called = text calledBefore ∧ Agree called calledBefore ∧
      called.memory.read 0 ≠ calledBefore.memory.read 0 := by
  have hprogram : ∀ a, Memory.programStart ≤ a → a < Memory.size →
      called.memory.read a = calledBefore.memory.read a := by
    intro a hlow hhigh
    simp only [Memory.programStart, Memory.size] at hlow hhigh
    have hpositive : 0 % 4096 ≠ a % 4096 := by omega
    simp only [called, calledBefore, Memory.read_write, if_neg hpositive]
  have htext : text called = text calledBefore :=
    text_congr ⟨rfl, rfl, rfl, rfl, rfl, rfl, rfl, rfl, hprogram, rfl⟩
  exact ⟨htext, text_lossless called calledBefore htext, by decide +kernel⟩

end Chip8.Dump
