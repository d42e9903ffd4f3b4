import Mathlib.Algebra.Group.Nat.Defs
import Mathlib.Data.List.Basic
import Chip8.Machine.Dump

/-!
# Fields of a dump

Each line of a dump determines what is written in it. Numbers of a fixed width are cut out by their
length, decimal ones by the blank behind them, and the lines by their ends.
-/
namespace Chip8

namespace Numeral

theorem hexDigits_inj {width a b : Nat} (ha : a < 16 ^ width) (hb : b < 16 ^ width)
    (h : hexDigits width a = hexDigits width b) : a = b := by
  induction width generalizing a b with
  | zero => simp_all
  | succ width ih =>
    rw [Nat.pow_succ] at ha hb
    obtain ⟨hhigh, hlow⟩ := List.append_inj' h rfl
    have hquot := ih (Nat.div_lt_of_lt_mul (by omega)) (Nat.div_lt_of_lt_mul (by omega)) hhigh
    have hrem := hexDigit_inj _ (Nat.mod_lt a (by omega)) _ (Nat.mod_lt b (by omega))
      (List.head_eq_of_cons_eq hlow)
    omega

theorem word_inj {v w : UInt16} (h : word v = word w) : v = w := by
  have hdigits : hexDigits 4 v.toNat = hexDigits 4 w.toNat := by
    simpa [word, marked] using h
  exact UInt16.toNat_inj.mp (hexDigits_inj v.toNat_lt w.toNat_lt hdigits)

theorem byte_inj {a b : UInt8} (h : byte a = byte b) : a = b := by
  have hdigits : hexDigits 2 a.toNat = hexDigits 2 b.toNat := by
    simpa [byte, marked] using h
  exact UInt8.toNat_inj.mp (hexDigits_inj a.toNat_lt b.toNat_lt hdigits)

end Numeral

namespace Dump

/-- A separator cuts a list at its first place. -/
theorem sep_inj {α : Type} {a : α} {xs ys rest rest' : List α} (hx : a ∉ xs) (hy : a ∉ ys)
    (h : xs ++ a :: rest = ys ++ a :: rest') : xs = ys ∧ rest = rest' := by
  induction xs generalizing ys with
  | nil =>
    cases ys with
    | nil => exact ⟨rfl, List.tail_eq_of_cons_eq h⟩
    | cons y ys => exact absurd (List.head_eq_of_cons_eq h ▸ List.mem_cons_self) hy
  | cons x xs ih =>
    cases ys with
    | nil => exact absurd (List.head_eq_of_cons_eq h ▸ List.mem_cons_self) hx
    | cons y ys =>
      simp only [List.mem_cons, not_or] at hx hy
      simp only [List.cons_append, List.cons.injEq] at h
      obtain ⟨hxs, hrest⟩ := ih hx.2 hy.2 h.2
      exact ⟨by rw [h.1, hxs], hrest⟩

theorem terminated_inj {ls ms : List Line} (hl : ∀ l ∈ ls, '\n' ∉ l) (hm : ∀ l ∈ ms, '\n' ∉ l)
    (h : (ls.flatMap fun l => l ++ ['\n']) = ms.flatMap fun l => l ++ ['\n']) : ls = ms := by
  induction ls generalizing ms with
  | nil =>
    cases ms with
    | nil => rfl
    | cons m ms => simp at h
  | cons l ls ih =>
    cases ms with
    | nil => simp at h
    | cons m ms =>
      simp only [List.flatMap_cons, List.append_assoc, List.singleton_append] at h
      obtain ⟨hline, hrest⟩ := sep_inj (hl l (by simp)) (hm m (by simp)) h
      rw [hline, ih (fun k hk => hl k (by simp [hk])) (fun k hk => hm k (by simp [hk])) hrest]

theorem not_mem_intercalate {α : Type} {a : α} {sep : List α} {ls : List (List α)}
    (hsep : a ∉ sep) (hl : ∀ l ∈ ls, a ∉ l) : a ∉ sep.intercalate ls := by
  induction ls with
  | nil => simp
  | cons l ls ih =>
    cases ls with
    | nil => simpa using hl
    | cons k ks =>
      rw [List.intercalate_cons_cons]
      simp only [List.mem_append, not_or]
      exact ⟨⟨hl l (by simp), hsep⟩, ih fun j hj => hl j (List.mem_cons_of_mem l hj)⟩

/-! ### Numbers hold no blanks and no ends of lines -/

section Separators

variable {c : Char} (hc : c.isAlphanum = false)
include hc

theorem not_mem_of_isAlphanum {digits : List Char}
    (h : ∀ {d : Char}, d ∈ digits → d.isAlphanum = true) : c ∉ digits := by
  intro hmem
  rw [h hmem] at hc
  cases hc

theorem not_mem_word (w : UInt16) : c ∉ Numeral.word w :=
  not_mem_of_isAlphanum hc Numeral.isAlphanum_of_mem_word

theorem not_mem_byte (b : UInt8) : c ∉ Numeral.byte b :=
  not_mem_of_isAlphanum hc Numeral.isAlphanum_of_mem_byte

theorem not_mem_decimal (n : Nat) : c ∉ Numeral.decimal n :=
  not_mem_of_isAlphanum hc Numeral.isAlphanum_of_mem_decimal

theorem not_mem_hexDigits (width n : Nat) : c ∉ Numeral.hexDigits width n :=
  not_mem_of_isAlphanum hc Numeral.isAlphanum_of_mem_hexDigits

theorem not_mem_registerText (hequal : c ≠ '=') (v : Registers) :
    ∀ l ∈ (List.finRange 16).map (registerText v), c ∉ l := by
  intro l hl
  obtain ⟨x, -, rfl⟩ := List.mem_map.mp hl
  have hname : c ≠ 'V' := by
    rintro rfl
    exact absurd hc (by decide)
  simp [registerText, hequal, hname, not_mem_hexDigits hc, not_mem_byte hc]

end Separators

theorem newline_not_mem_headLine (m : Machine) : '\n' ∉ headLine m := by
  have hword := not_mem_word (c := '\n') (by decide)
  have hdecimal := not_mem_decimal (c := '\n') (by decide)
  unfold headLine
  simp [hword, hdecimal]

theorem newline_not_mem_registerLine (v : Registers) : '\n' ∉ registerLine v := by
  have htexts := not_mem_registerText (c := '\n') (by decide) (by decide) v
  unfold registerLine
  rw [List.mem_append, not_or]
  exact ⟨by decide, not_mem_intercalate (by decide) htexts⟩

theorem newline_not_mem_wordList (words : List UInt16) : '\n' ∉ wordList words := by
  have hword := not_mem_word (c := '\n') (by decide)
  simp [wordList, hword]

theorem newline_not_mem_entryLine (m : Memory) (e : Entry) : '\n' ∉ entryLine m e := by
  have hword := not_mem_word (c := '\n') (by decide)
  cases e with
  | filler => exact (by decide : '\n' ∉ fillerLine)
  | row r =>
    unfold entryLine rowLine
    simp [indent, blanks, hword, newline_not_mem_wordList]

theorem newline_not_mem_lines (m : Machine) : ∀ l ∈ lines m, '\n' ∉ l := by
  intro l hl
  unfold lines memoryLines displayLines at hl
  simp only [List.mem_append, List.mem_cons, List.mem_map, List.not_mem_nil, or_false] at hl
  rcases hl with ((rfl | rfl | rfl | rfl) | rfl | ⟨e, _, rfl⟩) | rfl | ⟨row, _, rfl⟩
  · exact newline_not_mem_headLine m
  · decide
  · exact newline_not_mem_registerLine m.registers
  · unfold stackLine
    simp [newline_not_mem_wordList]
  · decide
  · exact newline_not_mem_entryLine m.memory e
  · decide
  · simp [indent, blanks, pixel]

/-! ### What a line determines -/

theorem word_append_inj {v w : UInt16} {xs ys : List Char}
    (h : Numeral.word v ++ xs = Numeral.word w ++ ys) : v = w ∧ xs = ys := by
  obtain ⟨hword, hrest⟩ := List.append_inj h (by simp only [Numeral.word_length])
  exact ⟨Numeral.word_inj hword, hrest⟩

/-- A decimal number is cut out by the blank that begins the label behind it. -/
theorem decimal_append_inj {a b : Nat} {label xs ys : List Char}
    (h : Numeral.decimal a ++ (' ' :: label ++ xs) = Numeral.decimal b ++ (' ' :: label ++ ys)) :
    a = b ∧ xs = ys := by
  have hblank := not_mem_decimal (c := ' ') (by decide)
  obtain ⟨hdecimal, hrest⟩ := sep_inj (hblank a) (hblank b) h
  exact ⟨Numeral.decimal_inj hdecimal, List.append_cancel_left hrest⟩

theorem wordList_inj {vs ws : List UInt16} (h : wordList vs = wordList ws) : vs = ws := by
  induction vs generalizing ws with
  | nil =>
    cases ws with
    | nil => rfl
    | cons w ws => simp [wordList] at h
  | cons v vs ih =>
    cases ws with
    | nil => simp [wordList] at h
    | cons w ws =>
      simp only [wordList, List.flatMap_cons, List.cons_append, List.cons.injEq, true_and] at h
      obtain ⟨hhead, hrest⟩ := word_append_inj h
      rw [hhead, ih hrest]

theorem headLine_inj {m n : Machine} (h : headLine m = headLine n) :
    m.pc = n.pc ∧ m.word = n.word ∧ m.index = n.index ∧ m.stack.depth = n.stack.depth ∧
      m.delay = n.delay ∧ m.sound = n.sound := by
  unfold headLine at h
  simp only [List.append_assoc, List.append_cancel_left_eq] at h
  obtain ⟨hpc, h⟩ := word_append_inj h
  obtain ⟨hword, h⟩ := word_append_inj (List.append_cancel_left h)
  obtain ⟨hindex, h⟩ := word_append_inj (List.append_cancel_left h)
  obtain ⟨hdepth, h⟩ := decimal_append_inj (List.append_cancel_left h)
  obtain ⟨hdelay, hsound⟩ := decimal_append_inj h
  exact ⟨hpc, hword, hindex, hdepth, Timer.ext_toNat hdelay,
    Timer.ext_toNat (Numeral.decimal_inj hsound)⟩

theorem stackLine_inj {s t : CallStack} (h : stackLine s = stackLine t) : s.live = t.live := by
  unfold stackLine at h
  exact wordList_inj (List.append_cancel_left h)

theorem registerText_inj {v w : Registers} {x : Register} (h : registerText v x = registerText w x) :
    v.get x = w.get x := by
  have hvalue := List.append_cancel_left (List.tail_eq_of_cons_eq h)
  exact Numeral.byte_inj (List.tail_eq_of_cons_eq hvalue)

theorem registerLine_inj {v w : Registers} (h : registerLine v = registerLine w) : v = w := by
  have hblank := not_mem_registerText (c := ' ') (by decide) (by decide)
  -- no register text holds a blank, so the blanks cut the line into the texts again
  have hsplit := congrArg (List.splitOn ' ') (List.append_cancel_left h)
  rw [List.splitOn_intercalate ' ' (hblank v) (by simp),
    List.splitOn_intercalate ' ' (hblank w) (by simp)] at hsplit
  exact ext_get fun x => registerText_inj (List.map_inj_left.mp hsplit x (List.mem_finRange x))

theorem pixel_inj {a b : Bool} (h : pixel a = pixel b) : a = b := by
  revert a b
  decide

theorem displayLines_inj {d e : Display} (h : displayLines d = displayLines e) : d = e := by
  have hrows := List.tail_eq_of_cons_eq h
  simp only [Display.rows, List.map_map] at hrows
  apply ext_get
  intro k
  have hrow := List.map_inj_left.mp hrows (k.val / 64) (by simp; omega)
  have hpixels := List.append_cancel_left hrow
  simp only [Display.row, List.map_map] at hpixels
  have hcell := pixel_inj (List.map_inj_left.mp hpixels (k.val % 64) (by simp; omega))
  have hk : Display.cell (k.val / 64) (k.val % 64) = k := by
    simp only [Display.cell, Fin.ext_iff]
    omega
  simpa only [hk] using hcell

theorem rowAddress_lt {row : Nat} (h : row < rowCount) : rowAddress row < 4096 := by
  simp only [rowCount, Memory.programCapacity, Memory.size, Memory.programStart, rowSize] at h
  simp only [rowAddress, Memory.programStart, rowSize]
  omega

theorem rowLine_inj {m n : Memory} {r s : Nat} (hr : r < rowCount) (hs : s < rowCount)
    (h : rowLine m r = rowLine n s) : r = s ∧ rowWords m r = rowWords n s := by
  unfold rowLine at h
  simp only [List.append_assoc, List.append_cancel_left_eq] at h
  obtain ⟨hfirst, h⟩ := word_append_inj h
  obtain ⟨-, h⟩ := word_append_inj (List.append_cancel_left h)
  have hwords := wordList_inj (List.append_cancel_left h)
  refine ⟨?_, hwords⟩
  have haddress := congrArg UInt16.toNat hfirst
  have hr' := rowAddress_lt hr
  have hs' := rowAddress_lt hs
  simp only [UInt16.toNat_ofNat'] at haddress
  simp only [rowAddress, Memory.programStart, rowSize] at haddress hr' hs'
  omega

/-- The filler has a blank where the first address of a row begins. -/
theorem rowLine_ne_fillerLine (m : Memory) (row : Nat) : rowLine m row ≠ fillerLine := by
  intro h
  have hthird := congrArg (fun l => l[2]?) h
  unfold rowLine at hthird
  simp [indent, blanks, fillerLine, Numeral.word, Numeral.marked] at hthird

end Dump
end Chip8
