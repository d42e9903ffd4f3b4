import Mathlib.Data.List.Chain
import Mathlib.Data.List.SplitBy
import Chip8.Proofs.Dump.Lossless

/-!
# The layout of the memory section

The rows of the program area fall into runs, each of them as long as it can be, of zero rows and of
others. A run of others is written row by row. A run of zero rows is written as its first row, with
one filler behind it if there is more to leave out.
-/
namespace Chip8.Dump

/-- The row holds a byte other than zero. -/
def Marked (m : Memory) (row : Nat) : Prop := ∃ k < rowSize, m.read (rowAddress row + k) ≠ 0

/-- The rows in order, cut wherever a zero row meets another one. -/
def runs (m : Memory) : List (List Nat) :=
  (List.range rowCount).splitBy fun a b => isZeroRow m a == isZeroRow m b

/-- What is written for a run, given which rows are zero. -/
def runEntries (zero : Nat → Bool) (run : List Nat) : List Entry :=
  if run.all zero then (run.take 1).map .row ++ if 1 < run.length then [.filler] else []
  else run.map .row

theorem isZeroRow_eq_false_iff (m : Memory) (row : Nat) :
    isZeroRow m row = false ↔ Marked m row := by
  simp [isZeroRow, Marked, Memory.readList]

/-! ### From rows to runs -/

theorem entriesFrom_marked (row k : Nat) (gap : Gap) (flags : List Bool) :
    entriesFrom row gap (List.replicate (k + 1) false ++ flags) =
      (List.range' row (k + 1)).map .row ++ entriesFrom (row + (k + 1)) .none flags := by
  induction k generalizing row gap with
  | zero => rfl
  | succ k ih =>
    have hrow : row + 1 + (k + 1) = row + (k + 1 + 1) := by omega
    rw [List.replicate_succ, List.cons_append, entriesFrom, ih, hrow,
      List.range'_succ (n := k + 1)]
    rfl

theorem entriesFrom_filled (row k : Nat) (flags : List Bool) :
    entriesFrom row .filled (List.replicate k true ++ flags) =
      entriesFrom (row + k) .filled flags := by
  induction k generalizing row with
  | zero => rfl
  | succ k ih =>
    have hrow : row + 1 + k = row + (k + 1) := by omega
    rw [List.replicate_succ, List.cons_append, ← hrow]
    exact ih (row + 1)

theorem entriesFrom_zero (row k : Nat) (flags : List Bool) :
    ∃ gap, entriesFrom row .none (List.replicate (k + 1) true ++ flags) =
      .row row :: (if 0 < k then [.filler] else []) ++ entriesFrom (row + (k + 1)) gap flags := by
  cases k with
  | zero => exact ⟨.zeroRow, rfl⟩
  | succ k =>
    have hrest := entriesFrom_filled (row + 2) k flags
    have hrow : row + 2 + k = row + (k + 1 + 1) := by omega
    rw [hrow] at hrest
    refine ⟨.filled, ?_⟩
    rw [if_pos (Nat.succ_pos k), ← hrest]
    rfl

/-- Where the two runs meet, one row is zero and the other is not. -/
def Cut (zero : Nat → Bool) (run next : List Nat) : Prop :=
  ∃ hrun hnext, (zero (run.getLast hrun) == zero (next.head hnext)) = false

/-- The rows of a run are all zero or all not. -/
theorem map_eq_replicate {zero : Nat → Bool} {row : Nat} {run : List Nat} (hhead : row ∈ run.head?)
    (hsame : run.IsChain fun a b => (zero a == zero b) = true) :
    run.map zero = List.replicate run.length (zero row) := by
  have hchain : (run.map zero).IsChain (· = ·) := by
    rw [List.isChain_map]
    exact hsame.imp fun a b h => beq_iff_eq.mp h
  have hall := List.isChain_eq_iff_eq_replicate.mp hchain (zero row)
    (by rw [List.head?_map]; exact Option.mem_map_of_mem zero hhead)
  rwa [List.length_map] at hall

theorem eq_of_mem_run {zero : Nat → Bool} {row r : Nat} {run : List Nat} (hhead : row ∈ run.head?)
    (hsame : run.IsChain fun a b => (zero a == zero b) = true) (hr : r ∈ run) :
    zero r = zero row := by
  have hflag : zero r ∈ run.map zero := List.mem_map_of_mem hr
  rw [map_eq_replicate hhead hsame] at hflag
  exact List.eq_of_mem_replicate hflag

theorem append_eq_range' {run rest : List Nat} {row len : Nat} (hne : run ≠ [])
    (h : run ++ rest = List.range' row len) :
    ∃ k, run = List.range' row (k + 1) ∧ rest = List.range' (row + (k + 1)) (len - (k + 1)) := by
  obtain ⟨k, _, hrun, hrest⟩ := List.range'_eq_append_iff.mp h.symm
  rw [Nat.mul_one] at hrest
  cases k with
  | zero => exact absurd hrun hne
  | succ k => exact ⟨k, hrun, hrest⟩

theorem head_eq_false_of_cut {zero : Nat → Bool} {run : List Nat} {rest : List (List Nat)}
    (hcut : (run :: rest).IsChain (Cut zero)) (hzero : ∀ r ∈ run, zero r = true) :
    ∀ r ∈ rest.flatten.head?, zero r = false := by
  cases rest with
  | nil => simp
  | cons next rest =>
    obtain ⟨hrun, hnext, hdiffer⟩ := (List.isChain_cons_cons.mp hcut).1
    rw [hzero _ (List.getLast_mem hrun)] at hdiffer
    intro r hr
    rw [List.flatten_cons, List.head?_append_of_ne_nil _ hnext, List.head?_eq_some_head hnext] at hr
    rw [← Option.some.inj hr]
    simpa using hdiffer

/-- The entries of rows that fall into runs. What was written before does not matter unless a run of
zero rows comes first. -/
theorem entriesFrom_runs {zero : Nat → Bool} {runs : List (List Nat)} {row len : Nat} {gap : Gap}
    (hrows : runs.flatten = List.range' row len) (hnil : [] ∉ runs)
    (hsame : ∀ run ∈ runs, run.IsChain fun a b => (zero a == zero b) = true)
    (hcut : runs.IsChain (Cut zero))
    (hgap : gap = .none ∨ ∀ r ∈ runs.flatten.head?, zero r = false) :
    entriesFrom row gap ((List.range' row len).map zero) = runs.flatMap (runEntries zero) := by
  induction runs generalizing row len gap with
  | nil =>
    rw [← hrows]
    rfl
  | cons run rest ih =>
    obtain ⟨hne, hnil⟩ := List.ne_and_not_mem_of_not_mem_cons hnil
    rw [List.flatten_cons] at hrows hgap
    obtain ⟨k, hrun, hrest⟩ := append_eq_range' hne.symm hrows
    have hhead : row ∈ run.head? := by rw [hrun]; rfl
    have hlength : run.length = k + 1 := by rw [hrun, List.length_range']
    have hflags := map_eq_replicate hhead (hsame run List.mem_cons_self)
    have hsamerest : ∀ r ∈ rest, r.IsChain fun a b => (zero a == zero b) = true :=
      fun r hr => hsame r (List.mem_cons_of_mem run hr)
    rw [← hrows, List.map_append, hflags, hlength, List.flatMap_cons, hrest]
    -- the first row of the run settles of which kind the whole run is
    cases hzero : zero row with
    | false =>
      have hall : run.all zero = false :=
        List.all_eq_false.mpr ⟨row, List.mem_of_mem_head? hhead, by simp [hzero]⟩
      rw [entriesFrom_marked, ih hrest hnil hsamerest hcut.tail (.inl rfl), runEntries, hall, hrun]
      rfl
    | true =>
      have hall : ∀ r ∈ run, zero r = true := fun r hr =>
        (eq_of_mem_run hhead (hsame run List.mem_cons_self) hr).trans hzero
      have hnone : gap = .none := by
        refine hgap.resolve_right fun hmarked => ?_
        rw [hmarked row (by rw [List.head?_append_of_ne_nil _ hne.symm]; exact hhead)] at hzero
        cases hzero
      obtain ⟨next, hentries⟩ := entriesFrom_zero row k
        ((List.range' (row + (k + 1)) (len - (k + 1))).map zero)
      have hmarked := head_eq_false_of_cut hcut hall
      rw [hnone, hentries, ih hrest hnil hsamerest hcut.tail (.inr hmarked), runEntries,
        List.all_eq_true.mpr hall, hlength, hrun]
      simp [List.range'_succ]

theorem flatten_runs (m : Memory) : (runs m).flatten = List.range rowCount :=
  List.flatten_splitBy _ _

theorem nil_notMem_runs (m : Memory) : [] ∉ runs m := List.nil_notMem_splitBy _ _

theorem isChain_runs (m : Memory) : (runs m).IsChain (Cut (isZeroRow m)) :=
  List.isChain_getLast_head_splitBy (fun a b => isZeroRow m a == isZeroRow m b) _

theorem isZeroRow_of_mem_runs {m : Memory} {run : List Nat} {a b : Nat} (h : run ∈ runs m)
    (ha : a ∈ run) (hb : b ∈ run) : isZeroRow m a = isZeroRow m b := by
  have hsame := List.isChain_of_mem_splitBy h
  cases run with
  | nil => cases ha
  | cons row rest =>
    have hhead : row ∈ (row :: rest).head? := rfl
    exact (eq_of_mem_run hhead hsame ha).trans (eq_of_mem_run hhead hsame hb).symm

theorem entries_eq_runs (m : Memory) :
    entries m = (runs m).flatMap (runEntries (isZeroRow m)) := by
  have hrows := flatten_runs m
  rw [List.range_eq_range'] at hrows
  rw [entries, List.range_eq_range']
  exact entriesFrom_runs hrows (nil_notMem_runs m)
    (fun run hrun => List.isChain_of_mem_splitBy hrun) (isChain_runs m) (.inl rfl)

/-! ### From entries to lines -/

/-- Behind a filler the next entry is a row. -/
theorem head?_entriesFrom_filled (row : Nat) (flags : List Bool) :
    (entriesFrom row .filled flags).head? ≠ some .filler := by
  induction flags generalizing row with
  | nil => simp [entriesFrom]
  | cons zero rest ih =>
    cases zero with
    | false => simp [entriesFrom]
    | true => exact ih (row + 1)

theorem isChain_entriesFrom (row : Nat) (gap : Gap) (flags : List Bool) :
    (entriesFrom row gap flags).IsChain fun e f => ¬ (e = .filler ∧ f = .filler) := by
  induction flags generalizing row gap with
  | nil => exact .nil
  | cons zero rest ih =>
    cases zero with
    | false => exact List.isChain_cons.mpr ⟨by simp, ih _ _⟩
    | true =>
      cases gap with
      | none => exact List.isChain_cons.mpr ⟨by simp, ih _ _⟩
      | zeroRow =>
        -- the filler is written here, and the gap stays filled until a row is written
        refine List.isChain_cons.mpr ⟨fun f hf hboth => ?_, ih _ _⟩
        rw [hboth.2] at hf
        exact head?_entriesFrom_filled _ _ hf
      | filled => exact ih _ _

theorem entryLine_eq_fillerLine_iff (m : Memory) (e : Entry) :
    entryLine m e = fillerLine ↔ e = .filler := by
  cases e with
  | row r => simp [entryLine, rowLine_ne_fillerLine]
  | filler => simp [entryLine]

theorem isChain_memoryLines (m : Memory) :
    (memoryLines m).IsChain fun a b => ¬ (a = fillerLine ∧ b = fillerLine) := by
  have hhead : "memory:".toList ≠ fillerLine := by decide
  refine List.isChain_cons.mpr ⟨fun b _ hboth => hhead hboth.1, ?_⟩
  rw [List.isChain_map]
  simp only [entryLine_eq_fillerLine_iff]
  exact isChain_entriesFrom _ _ _

theorem rowLine_mem_memoryLines_iff {m : Memory} {r : Nat} (hr : r < rowCount) :
    rowLine m r ∈ memoryLines m ↔ .row r ∈ entries m := by
  have hhead : rowLine m r ≠ "memory:".toList := fun h => by
    have hfirst := congrArg List.head? h
    simp [rowLine, indent, blanks] at hfirst
  rw [memoryLines, List.mem_cons, or_iff_right hhead, List.mem_map]
  constructor
  · rintro ⟨e, he, hline⟩
    cases e with
    | filler => exact absurd hline.symm (rowLine_ne_fillerLine m r)
    | row s =>
      obtain ⟨rfl, _⟩ := rowLine_inj (row_lt_of_mem_entries he) hr hline
      exact he
  · exact fun he => ⟨.row r, he, rfl⟩

/-- The line of a row, from its bytes. -/
theorem rowLine_eq (m : Memory) {r : Nat} (hr : r < rowCount) :
    rowLine m r =
      let first := 0x200 + r * 16
      "  ".toList ++ Numeral.word (UInt16.ofNat first) ++ " - ".toList
        ++ Numeral.word (UInt16.ofNat (first + 15)) ++ " :".toList
        ++ (List.range 8).flatMap fun k =>
          ' ' :: Numeral.word
            (Word.ofBytes (m.read (first + 2 * k)) (m.read (first + 2 * k + 1))) := by
  have haddress := rowAddress_lt hr
  have hwords : rowWords m r = (List.range 8).map fun k =>
      Word.ofBytes (m.read (rowAddress r + 2 * k)) (m.read (rowAddress r + 2 * k + 1)) := by
    refine List.map_congr_left fun k hk => ?_
    have hk := List.mem_range.mp hk
    rw [Memory.fetch, UInt16.toNat_ofNat', Nat.mod_eq_of_lt (by omega)]
  rw [rowLine, hwords, wordList, List.flatMap_map]
  rfl

/-- The memory section is the runs of rows in order, which are of one kind each and as long as they
can be. So a row is written exactly if it is marked, or is the first one, or stands behind a marked
one, no two fillers stand together, and a filler is as long as a row, with its dots below the middle
of the words. -/
theorem memory_section_by_runs (m : Memory) :
    memoryLines m = "memory:".toList ::
        (runs m).flatMap (fun run => (runEntries (isZeroRow m) run).map (entryLine m)) ∧
      (runs m).flatten = List.range rowCount ∧
      (∀ run ∈ runs m, run ≠ [] ∧ ∀ a ∈ run, ∀ b ∈ run, isZeroRow m a = isZeroRow m b) ∧
      (runs m).IsChain (Cut (isZeroRow m)) ∧
      (∀ r < rowCount, (isZeroRow m r = false ↔ Marked m r) ∧
        (rowLine m r ∈ memoryLines m ↔ Marked m r ∨ r = 0 ∨ 0 < r ∧ Marked m (r - 1)) ∧
        rowLine m r =
          let first := 0x200 + r * 16
          "  ".toList ++ Numeral.word (UInt16.ofNat first) ++ " - ".toList
            ++ Numeral.word (UInt16.ofNat (first + 15)) ++ " :".toList
            ++ (List.range 8).flatMap fun k => ' ' :: Numeral.word
              (Word.ofBytes (m.read (first + 2 * k)) (m.read (first + 2 * k + 1)))) ∧
      (memoryLines m).IsChain (fun a b => ¬ (a = fillerLine ∧ b = fillerLine)) ∧
      fillerLine = blanks 46 ++ "...".toList ++ blanks 26 ∧
      ∀ r, (rowLine m r).length = fillerLine.length := by
  refine ⟨?_, flatten_runs m, fun run hrun => ⟨?_, fun a ha b hb => ?_⟩, isChain_runs m,
    fun r hr => ⟨isZeroRow_eq_false_iff m r, ?_, rowLine_eq m hr⟩, isChain_memoryLines m,
    fillerLine_eq, length_rowLine m⟩
  · rw [memoryLines, entries_eq_runs, List.map_flatMap]
  · rintro rfl
    exact nil_notMem_runs m hrun
  · exact isZeroRow_of_mem_runs hrun ha hb
  · rw [rowLine_mem_memoryLines_iff hr, row_mem_entries_iff hr, isZeroRow_eq_false_iff,
      isZeroRow_eq_false_iff]

/-- A memory with a byte in the first row of the program area and one in the fourth. -/
def spread : Memory := (Memory.zeros.write 0x200 0x12).write 0x230 0x34

theorem read_spread {a : Nat} (ha : a < 4096) :
    spread.read a = if 0x230 = a then 0x34 else if 0x200 = a then 0x12 else 0 := by
  simp only [spread, Memory.read_write, Nat.mod_eq_of_lt ha]
  simp [Memory.zeros, Memory.read]

/-- Of the two rows of zeros between them the first one is written and the other one is not. -/
theorem memory_section_by_runs_of_spread :
    1 < rowCount ∧ 2 < rowCount ∧ rowLine spread 1 ∈ memoryLines spread ∧
      rowLine spread 2 ∉ memoryLines spread := by
  have hfirst : Marked spread 0 :=
    ⟨0, by decide, by simp [read_spread, rowAddress, Memory.programStart]⟩
  have hzero : ∀ r, r = 1 ∨ r = 2 → ¬ Marked spread r := by
    rintro r hr ⟨k, hk, hmarked⟩
    simp only [rowAddress, Memory.programStart, rowSize] at hk hmarked
    rw [read_spread (by omega), if_neg (by omega), if_neg (by omega)] at hmarked
    exact hmarked rfl
  have hrow : 2 < rowCount := by decide
  obtain ⟨_, _, _, _, hwritten, _⟩ := memory_section_by_runs spread
  refine ⟨Nat.lt_of_succ_lt hrow, hrow, ?_, fun hmem => ?_⟩
  · exact (hwritten 1 (Nat.lt_of_succ_lt hrow)).2.1.mpr (.inr (.inr ⟨Nat.one_pos, hfirst⟩))
  · rcases (hwritten 2 hrow).2.1.mp hmem with hmarked | hfirst | ⟨_, hmarked⟩
    · exact hzero 2 (.inr rfl) hmarked
    · cases hfirst
    · exact hzero 1 (.inl rfl) hmarked

end Chip8.Dump
