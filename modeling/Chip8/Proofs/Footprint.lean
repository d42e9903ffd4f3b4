import Chip8.Proofs.Timers

/-!
# What an instruction may change

Every instruction writes to a few places that it names, and leaves everything else of the machine
alone. A byte of the memory changes only in a cycle that writes over it.
-/
namespace Chip8

/-- The operations that tell something in the flag register. -/
def ArithmeticOp.setsFlag : ArithmeticOp → Bool
  | .add | .sub | .subReverse | .shiftRight | .shiftLeft => true
  | _ => false

theorem ArithmeticOp.flag_eq_none {op : ArithmeticOp} (h : op.setsFlag = false) (a b : UInt8) :
    op.flag a b = none := by
  cases op <;> first | rfl | cases h

namespace Instruction

/-- The number of bytes that an instruction writes from the index on. -/
def stored : Instruction → Nat
  | .storeDigits _ => 3
  | .storeRegisters x => x.val + 1
  | _ => 0

def setsIndex : Instruction → Bool
  | .setIndex _ | .addIndex _ | .indexGlyph _ => true
  | _ => false

def movesStack : Instruction → Bool
  | .call _ | .ret => true
  | _ => false

def rolls : Instruction → Bool
  | .random .. => true
  | _ => false

end Instruction

namespace Machine

/-- An instruction may write at the address, which counts modulo the size of the memory. -/
def Writes (m : Machine) (i : Instruction) (a : Nat) : Prop :=
  ∃ k < i.stored, (m.index.toNat + k) % 4096 = a % 4096

/-- An instruction may change the register. -/
def Targets (m : Machine) : Instruction → Register → Prop
  | .setConst x _, r | .addConst x _, r | .random x _, r | .getDelay x, r | .awaitKey x, r => r = x
  | .arithmetic op x _, r => r = x ∨ op.setsFlag = true ∧ r = Registers.flag
  | .draw .., r => r = Registers.flag
  | .addIndex x, r => r = Registers.flag ∧ 65536 ≤ m.index.toNat + (m.v x).toNat
  | .fillRegisters x, r => r ≤ x
  | _, _ => False

/-- `n` is `m` but for its program counter and for what instruction `i` may change. -/
structure Confined (i : Instruction) (m n : Machine) : Prop where
  memory : ∀ a, ¬ m.Writes i a → n.memory.read a = m.memory.read a := by intros; rfl
  registers : ∀ r, ¬ m.Targets i r → n.v r = m.v r := by intros; rfl
  index : i.setsIndex = false → n.index = m.index := by intros; rfl
  stack : i.movesStack = false → n.stack = m.stack := by intros; rfl
  display : i.draws = false → n.display = m.display := by intros; rfl
  drawn : i.draws = false → n.drawn = m.drawn := by intros; rfl
  timer : ∀ t, i.timerSource? t = none → n.timer t = m.timer t := by
    intro t _; cases t <;> simp only [timer] <;> rfl
  random : i.rolls = false → n.random = m.random := by intros; rfl
  keypad : n.keypad = m.keypad := by rfl
  word : n.word = m.word := by rfl

theorem get_setAt_of_ne {v : Registers} {x r : Register} {b : UInt8} (h : r ≠ x) :
    (setAt v x b).get r = v.get r := by
  rw [get_setAt, if_neg h.symm]

theorem get_arithmetic_of_ne {v : Registers} {op : ArithmeticOp} {x y r : Register}
    (h : ¬ (r = x ∨ op.setsFlag = true ∧ r = Registers.flag)) :
    (v.arithmetic op x y).get r = v.get r := by
  obtain ⟨hx, hflag⟩ := not_or.mp h
  change (Registers.setFlag (setAt v x _) (op.flag (v.get x) (v.get y))).get r = _
  cases hs : op.setsFlag with
  | false =>
    rw [op.flag_eq_none hs]
    exact get_setAt_of_ne hx
  | true =>
    have hne : r ≠ Registers.flag := fun hr => hflag ⟨hs, hr⟩
    cases op.flag (v.get x) (v.get y) with
    | none => exact get_setAt_of_ne hx
    | some f => exact (get_setAt_of_ne hne).trans (get_setAt_of_ne hx)

theorem addIndex_v {m : Machine} {x r : Register}
    (h : ¬ (r = Registers.flag ∧ 65536 ≤ m.index.toNat + (m.v x).toNat)) :
    (m.addIndex x).v r = m.v r := by
  change (if m.index.toNat + (m.v x).toNat < 65536 then m.registers
    else setAt m.registers Registers.flag 1).get r = _
  split
  · rfl
  · rename_i hover
    exact get_setAt_of_ne fun hr => h ⟨hr, Nat.le_of_not_lt hover⟩

theorem store_read {m : Machine} {bytes : List UInt8} {a : Nat}
    (h : ¬ ∃ k < bytes.length, (m.index.toNat + k) % 4096 = a % 4096) :
    (m.store bytes).memory.read a = m.memory.read a :=
  m.memory.read_writeList_of_ne _ _ _ fun k hk heq => h ⟨k, hk, heq⟩

/-- Every instruction keeps to what it may change. What a case does not mention is the same by
definition. -/
theorem handled_confined (m : Machine) (i : Instruction) :
    Confined i m (m.handled i).machine := by
  cases i with
  | clear => exact { display := nofun, drawn := nofun }
  | ret =>
    rcases m.handled_ret with ⟨a, t, _, hm⟩ | hm
    · rw [hm]
      exact { stack := nofun }
    · rw [hm]
      exact {}
  | call nnn =>
    rcases m.handled_call nnn with ⟨t, _, hm⟩ | hm
    · rw [hm]
      exact { stack := nofun }
    · rw [hm]
      exact {}
  | machineCall nnn | jump nnn | jumpOffset nnn => exact {}
  | skip condition => exact {}
  | setConst x nn | addConst x nn => exact { registers := fun r hr => get_setAt_of_ne hr }
  | arithmetic op x y => exact { registers := fun r hr => get_arithmetic_of_ne hr }
  | setIndex nnn => exact { index := nofun }
  | random x nn => exact { registers := fun r hr => get_setAt_of_ne hr, random := nofun }
  | draw x y n =>
    exact { registers := fun r hr => get_setAt_of_ne hr, display := nofun, drawn := nofun }
  | getDelay x => exact { registers := fun r hr => get_setAt_of_ne hr }
  | awaitKey x =>
    unfold handled handle
    cases m.keypad.lowestDown? with
    | none => exact {}
    | some key => exact { registers := fun r hr => get_setAt_of_ne hr }
  | setDelay x =>
    refine { timer := fun t ht => ?_ }
    cases t with
    | delay => cases ht
    | sound => rfl
  | setSound x =>
    refine { timer := fun t ht => ?_ }
    cases t with
    | delay => rfl
    | sound => cases ht
  | addIndex x => exact { registers := fun r hr => addIndex_v hr, index := nofun }
  | indexGlyph x => exact { index := nofun }
  | storeDigits x => exact { memory := fun a ha => store_read ha }
  | storeRegisters x =>
    refine { memory := fun a ha => store_read ?_ }
    rwa [Registers.length_upTo]
  | fillRegisters x =>
    have hkept : ∀ r, ¬ r ≤ x → (m.registers.fill x m.indexed).get r = m.v r := fun r hr =>
      (m.registers.get_fill x r m.indexed).trans (if_neg hr)
    simp only [handled, handle]
    exact { registers := hkept }

theorem execute_confined (m : Machine) (i : Instruction) :
    Confined i m (m.execute i).machine := by
  have h := m.handled_confined i
  obtain ⟨pc, hpc⟩ := m.execute_machine i
  rw [hpc]
  refine ⟨h.memory, h.registers, h.index, h.stack, h.display, h.drawn, fun t ht => ?_, h.random,
    h.keypad, h.word⟩
  have htimer := h.timer t ht
  cases t <;> exact htimer

/-- A byte that a cycle does not write over is the same after it. -/
theorem step_read {m : Machine} {a : Nat}
    (h : ∀ i, m.instruction? .step = some i → ¬ m.Writes i a) :
    m.step.machine.memory.read a = m.memory.read a := by
  cases hi : m.instruction? .step with
  | none =>
    rw [step_machine_of_none hi]
    rfl
  | some i =>
    rw [step_machine_of_some hi]
    exact (m.fetch.execute_confined i).memory a (h i hi)

theorem run_read {m : Machine} {n a : Nat}
    (h : ∀ k < n, ∀ i, (run k m).machine.instruction? .step = some i →
      ¬ (run k m).machine.Writes i a) :
    (run n m).machine.memory.read a = m.memory.read a := by
  induction n with
  | zero => rfl
  | succ n ih =>
    rw [run_succ_machine, step_read (h n (Nat.lt_succ_self n))]
    exact ih fun k hk => h k (Nat.lt_succ_of_lt hk)

theorem memory_ext {m n : Memory} (h : ∀ a, m.read a = n.read a) : m = n := by
  apply Vector.ext
  intro a ha
  have hread := h a
  simpa only [Memory.read, Nat.mod_eq_of_lt ha] using hread

/-- Every instruction changes only what it may, and over a run a byte of the memory changes only in
a cycle that writes over it. A program that never writes keeps the whole memory. -/
theorem changes_keep_to_footprint (m : Machine) :
    (∀ i, Confined i m (m.execute i).machine) ∧
      (∀ n a, (∀ k < n, ∀ i, (run k m).machine.instruction? .step = some i →
          ¬ (run k m).machine.Writes i a) →
        (run n m).machine.memory.read a = m.memory.read a) ∧
      ∀ n, (∀ k < n, ∀ i, (run k m).machine.instruction? .step = some i → i.stored = 0) →
        (run n m).machine.memory = m.memory := by
  refine ⟨m.execute_confined, fun n a h => run_read h, fun n h => memory_ext fun a => ?_⟩
  refine run_read fun k hk i hi => ?_
  rintro ⟨j, hj, _⟩
  rw [h k hk i hi] at hj
  exact Nat.not_lt_zero j hj

/-- A program that stores two registers over the end of the memory. -/
def spilling : Machine := { ((powerOn 0).load [0xF1, 0x55]).machine with index := 0xFFF }

theorem changes_keep_to_footprint_over_end :
    spilling.Writes (.storeRegisters 1) 0 ∧ ¬ spilling.Writes (.storeRegisters 1) 1 ∧
      (run 1 spilling).machine.memory.read 1 = spilling.memory.read 1 := by
  have hword : spilling.instruction? .step = some (.storeRegisters 1) := by decide +kernel
  have hover : ¬ spilling.Writes (.storeRegisters 1) 1 := by
    rintro ⟨j, hj, haddress⟩
    change j < 2 at hj
    change (0xFFF + j) % 4096 = 1 at haddress
    omega
  obtain ⟨_, hread, _⟩ := changes_keep_to_footprint spilling
  refine ⟨⟨1, Nat.one_lt_two, rfl⟩, hover, hread 1 1 fun k hk i hi => ?_⟩
  obtain rfl : k = 0 := Nat.lt_one_iff.mp hk
  obtain rfl : .storeRegisters 1 = i := Option.some.inj (hword.symm.trans hi)
  exact hover

end Machine
end Chip8
