import Chip8.Proofs.Checked.Refinement
import Chip8.Proofs.Footprint

/-!
# Registers in the memory

Storing and filling move the registers between the machine and a window of the memory that starts
at the index and may run over the end. The window is shorter than the memory, so no two of its
places are the same, and what is stored there can be read back register by register. The decimal
digits of a register take the same way, also where it is one of those that they are read into.
-/
namespace Chip8.Machine

/-- The place of a register in the window at the index. -/
def window (m : Machine) (k : Register) : Fin 4096 := Fin.ofNat 4096 (m.index.toNat + k.val)

/-- `n` is `m` with `V0` to `Vx` written into the window. -/
structure Stored (x : Register) (m n : Machine) : Prop where
  inside : ∀ k ≤ x, n.memory.get (m.window k) = m.v k
  outside : ∀ a, (∀ k ≤ x, m.window k ≠ a) → n.memory.get a = m.memory.get a
  rest : n = { m with memory := n.memory, pc := Advance.next.apply m.pc }

/-- `n` is `m` with `V0` to `Vx` read from the window. -/
structure Filled (x : Register) (m n : Machine) : Prop where
  inside : ∀ k ≤ x, n.v k = m.memory.get (m.window k)
  outside : ∀ k, x < k → n.v k = m.v k
  rest : n = { m with registers := n.registers, pc := Advance.next.apply m.pc }

variable {x y : Register} {m n s t : Machine}

theorem window_congr (h : n.index = m.index) (k : Register) : n.window k = m.window k := by
  simp only [window, h]

theorem Stored.index (h : Stored x m n) : n.index = m.index := by rw [h.rest]

theorem Filled.index (h : Filled x m n) : n.index = m.index := by rw [h.rest]

theorem Filled.memory (h : Filled x m n) : n.memory = m.memory := by rw [h.rest]

/-- What was stored comes back, however the registers were used in between. -/
theorem Filled.restores (h : Filled y n t) (hs : Stored x m s) (hmemory : n.memory = s.memory)
    (hindex : n.index = s.index) (hy : y ≤ x) {k : Register} (hk : k ≤ y) : t.v k = m.v k := by
  rw [h.inside k hk, hmemory, window_congr (hindex.trans hs.index)]
  exact hs.inside k (Nat.le_trans hk hy)

/-- Registers that were just read from the window are there already. -/
theorem Stored.memory_eq (h : Stored x n s) (hn : Filled x m n) : s.memory = m.memory := by
  apply ext_get
  intro a
  by_cases hwindow : ∃ k ≤ x, n.window k = a
  · obtain ⟨k, hk, rfl⟩ := hwindow
    rw [h.inside k hk, hn.inside k hk, window_congr hn.index]
  · push Not at hwindow
    rw [h.outside a hwindow, hn.memory]

/-- What is stored stands in the window, byte by byte. -/
theorem get_store (m : Machine) {bytes : List UInt8} (hsize : bytes.length ≤ 16) {k : Register}
    (hk : k.val < bytes.length) : (m.store bytes).memory.get (m.window k) = bytes[k.val] :=
  m.memory.read_writeList m.index.toNat k.val bytes hk (by omega)

theorem get_store_of_outside {m : Machine} {bytes : List UInt8} (hsize : bytes.length ≤ 16)
    {a : Fin 4096} (h : ∀ k : Register, k.val < bytes.length → m.window k ≠ a) :
    (m.store bytes).memory.get a = m.memory.get a := by
  have hread : (m.store bytes).memory.read a.val = m.memory.read a.val := by
    apply store_read
    rintro ⟨k, hk, heq⟩
    have hsixteen : k < 16 := by omega
    refine h ⟨k, hsixteen⟩ hk (Fin.ext ?_)
    rwa [Nat.mod_eq_of_lt a.isLt] at heq
  simp only [Memory.read, Nat.mod_eq_of_lt a.isLt] at hread
  exact hread

theorem get_store_upTo (m : Machine) {k : Register} (hk : k ≤ x) :
    (m.store (m.registers.upTo x)).memory.get (m.window k) = m.v k := by
  have hlength := m.registers.length_upTo x
  have hlt : k.val < (m.registers.upTo x).length := by
    rw [hlength]
    exact Nat.lt_succ_of_le hk
  have hbyte : (m.registers.upTo x)[k.val] = m.v k := by
    have hsome := m.registers.getElem?_upTo x k hk
    rwa [List.getElem?_eq_getElem hlt, Option.some_inj] at hsome
  exact (m.get_store (by omega) hlt).trans hbyte

theorem get_store_upTo_of_outside {m : Machine} {a : Fin 4096} (h : ∀ k ≤ x, m.window k ≠ a) :
    (m.store (m.registers.upTo x)).memory.get a = m.memory.get a := by
  have hlength := m.registers.length_upTo x
  refine get_store_of_outside (by omega) fun k hk => h k (Nat.le_of_lt_succ ?_)
  rwa [hlength] at hk

theorem execute_stored (m : Machine) (x : Register) :
    Stored x m (m.execute (.storeRegisters x)).machine where
  inside _ hk := m.get_store_upTo hk
  outside _ ha := get_store_upTo_of_outside ha
  rest := rfl

theorem execute_filled (m : Machine) (x : Register) :
    Filled x m (m.execute (.fillRegisters x)).machine where
  inside k hk := (m.registers.get_fill x k m.indexed).trans (if_pos hk)
  outside k hk := (m.registers.get_fill x k m.indexed).trans (if_neg (Nat.not_le_of_lt hk))
  rest := rfl

/-- Storing and filling are inverse to each other: what was stored can be read back after any use of
the registers, in whole or in part, and what was read can be stored again without a change to the
memory. The loops over bare arrays come to the same. -/
theorem registers_survive_memory (m : Machine) (x : Register) :
    let stored := m.execute (.storeRegisters x)
    let filled := m.execute (.fillRegisters x)
    (stored.answer = .ok .none ∧ Stored x m stored.machine) ∧
      (filled.answer = .ok .none ∧ Filled x m filled.machine) ∧
      (∀ y ≤ x, ∀ n : Machine, n.memory = stored.machine.memory → n.index = stored.machine.index →
        let back := n.execute (.fillRegisters y)
        (∀ k ≤ y, back.machine.v k = m.v k) ∧ ∀ k, y < k → back.machine.v k = n.v k) ∧
      (filled.machine.execute (.storeRegisters x)).machine.memory = m.memory ∧
      ∀ i ∈ [Instruction.storeRegisters x, Instruction.fillRegisters x],
        (Checked.State.ofMachine m).execute i =
          .ok (Checked.State.ofMachine (m.execute i).machine, (m.execute i).answer) := by
  have hstored := m.execute_stored x
  have hfilled := m.execute_filled x
  refine ⟨⟨rfl, hstored⟩, ⟨rfl, hfilled⟩, fun y hy n hmemory hindex => ?_, ?_, fun i hi => ?_⟩
  · have hback := n.execute_filled y
    exact ⟨fun k hk => hback.restores hstored hmemory hindex hy hk, hback.outside⟩
  · exact (execute_stored _ x).memory_eq hfilled
  · have hi : i = .storeRegisters x ∨ i = .fillRegisters x := by simpa using hi
    rcases hi with rfl | rfl <;> exact Checked.State.execute_ofMachine rfl

/-- A machine whose window starts two bytes before the end of the index register's range. -/
def endOfIndex : Machine := { (powerOn 0).setRegister 3 7 with index := 0xFFFE }

/-- The last register lies behind the end of the memory and comes back into an empty machine. -/
theorem registers_survive_memory_over_end :
    let stored := (endOfIndex.execute (.storeRegisters 3)).machine
    (endOfIndex.window 3).val = 1 ∧ stored.memory.get 1 = 7 ∧
      ∃ n : Machine, n.memory = stored.memory ∧ n.index = stored.index ∧ n.v 3 = 0 ∧
        (n.execute (.fillRegisters 3)).machine.v 3 = 7 := by
  obtain ⟨⟨_, hstored⟩, _, hback, _⟩ := registers_survive_memory endOfIndex 3
  have hvalue : endOfIndex.v 3 = 7 := by decide +kernel
  have hbyte := hstored.inside 3 (Fin.le_refl 3)
  rw [hvalue] at hbyte
  let emptied : Machine :=
    { (endOfIndex.execute (.storeRegisters 3)).machine with registers := Registers.zeros }
  obtain ⟨hrestored, _⟩ := hback 3 (Fin.le_refl 3) emptied rfl rfl
  refine ⟨rfl, hbyte, emptied, rfl, rfl, rfl, ?_⟩
  rw [hrestored 3 (Fin.le_refl 3), hvalue]

theorem toNat_hundreds (b : UInt8) : (b / 100).toNat = b.toNat / 100 := UInt8.toNat_div b 100

theorem toNat_tens (b : UInt8) : (b / 10 % 10).toNat = b.toNat / 10 % 10 := by
  rw [UInt8.toNat_mod, UInt8.toNat_div]
  rfl

theorem toNat_ones (b : UInt8) : (b % 10).toNat = b.toNat % 10 := UInt8.toNat_mod b 10

/-- The window holds the digits, the highest first. -/
theorem get_store_decimalDigits (m : Machine) (b : UInt8) :
    let n := m.store (decimalDigits b)
    (n.memory.get (m.window 0)).toNat = b.toNat / 100 ∧
      (n.memory.get (m.window 1)).toNat = b.toNat / 10 % 10 ∧
      (n.memory.get (m.window 2)).toNat = b.toNat % 10 := by
  have hsize : (decimalDigits b).length ≤ 16 := by simp [decimalDigits]
  have hget {k : Register} (hk : k.val < 3) := congrArg UInt8.toNat (m.get_store hsize hk)
  exact ⟨(hget (by decide)).trans (toNat_hundreds b), (hget (by decide)).trans (toNat_tens b),
    (hget (by decide)).trans (toNat_ones b)⟩

/-- The digits of a register go to the window and come back as `V0`, `V1` and `V2`, the highest
first. They make up the value that the register had, and nothing else is changed. The loops over bare
arrays come to the same. -/
theorem digits_make_up_the_value (m : Machine) (x : Register) :
    let stored := m.execute (.storeDigits x)
    let done := stored.machine.execute (.fillRegisters 2)
    stored.answer = .ok .none ∧ done.answer = .ok .none ∧
      ((done.machine.v 0).toNat ≤ 9 ∧ (done.machine.v 1).toNat ≤ 9 ∧
        (done.machine.v 2).toNat ≤ 9) ∧
      100 * (done.machine.v 0).toNat + 10 * (done.machine.v 1).toNat + (done.machine.v 2).toNat =
        (m.v x).toNat ∧
      (∀ k, 2 < k → done.machine.v k = m.v k) ∧
      (∀ k ≤ 2, done.machine.memory.get (m.window k) = done.machine.v k) ∧
      (∀ a, (∀ k ≤ 2, m.window k ≠ a) → done.machine.memory.get a = m.memory.get a) ∧
      done.machine = { m with
        memory := done.machine.memory
        registers := done.machine.registers
        pc := Advance.next.apply (Advance.next.apply m.pc) } ∧
      (Checked.State.ofMachine m).execute (.storeDigits x) =
        .ok (Checked.State.ofMachine stored.machine, stored.answer) ∧
      (Checked.State.ofMachine stored.machine).execute (.fillRegisters 2) =
        .ok (Checked.State.ofMachine done.machine, done.answer) := by
  intro stored done
  have hfilled : Filled 2 stored.machine done.machine := stored.machine.execute_filled 2
  have hread : ∀ k ≤ 2, done.machine.v k = stored.machine.memory.get (m.window k) := hfilled.inside
  have hdigit : ∀ k ≤ 2, (done.machine.v k).toNat = (stored.machine.memory.get (m.window k)).toNat :=
    fun k hk => congrArg UInt8.toNat (hread k hk)
  obtain ⟨hhundreds, htens, hones⟩ := m.get_store_decimalDigits (m.v x)
  have h0 := (hdigit 0 (by decide)).trans hhundreds
  have h1 := (hdigit 1 (by decide)).trans htens
  have h2 := (hdigit 2 (by decide)).trans hones
  have hbyte := (m.v x).toNat_lt
  have hsize : (decimalDigits (m.v x)).length ≤ 16 := by simp [decimalDigits]
  refine ⟨rfl, rfl, by omega, by omega, hfilled.outside, fun k hk => ?_, fun a ha => ?_, rfl,
    Checked.State.execute_ofMachine rfl, Checked.State.execute_ofMachine rfl⟩
  · rw [hread k hk, hfilled.memory]
  · rw [hfilled.memory]
    exact get_store_of_outside hsize fun k hk => ha k (Nat.le_of_lt_succ hk)

/-- A machine whose window at the last place of the memory takes the digits of `V1`. -/
def atLastPlace : Machine := { (powerOn 0).setRegister 1 246 with index := 0xFFF }

/-- Two of the digits lie behind the end of the memory, and the register itself is overwritten. -/
theorem digits_make_up_the_value_over_end :
    let done := ((atLastPlace.execute (.storeDigits 1)).machine.execute (.fillRegisters 2)).machine
    100 * (done.v 0).toNat + 10 * (done.v 1).toNat + (done.v 2).toNat = 246 ∧
      done.memory.get 1 = done.v 2 ∧ done.memory.get 2 = atLastPlace.memory.get 2 ∧
      done.v 3 = atLastPlace.v 3 := by
  have hvalue : (atLastPlace.v 1).toNat = 246 := by decide +kernel
  have houtside : ∀ k ≤ 2, atLastPlace.window k ≠ 2 := by decide +kernel
  obtain ⟨_, _, _, hsum, hregisters, hinside, houter, _⟩ := digits_make_up_the_value atLastPlace 1
  exact ⟨hsum.trans hvalue, hinside 2 (by decide), houter 2 houtside, hregisters 3 (by decide)⟩

end Chip8.Machine
