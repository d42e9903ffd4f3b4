import Mathlib.Data.Nat.ModEq
import Chip8.Proofs.Footprint

/-!
# Only the low bits of the index show

Addresses are taken modulo the size of the memory, so a program can tell two indices apart only by
adding to them until the larger one leaves its sixteen bits. Machines whose indices agree in the low
twelve bits do the same, and once the index is set anew they are the same machine.
-/
namespace Chip8

namespace Instruction

/-- The sum of `FX1E` takes in the high bits of the index. -/
def addsIndex : Instruction → Bool
  | .addIndex _ => true
  | _ => false

/-- `ANNN` and `FX29` set the index, whatever it was. -/
def loadsIndex : Instruction → Bool
  | .setIndex _ | .indexGlyph _ => true
  | _ => false

theorem setsIndex_eq (i : Instruction) : i.setsIndex = (i.addsIndex || i.loadsIndex) := by
  cases i <;> rfl

end Instruction

/-- The cycle carried out an `FX1E`. -/
def Cycle.addsIndex (c : Cycle) : Bool := (Instruction.decode? c.word).any Instruction.addsIndex

/-- The cycle carried out an `ANNN` or an `FX29`. -/
def Cycle.loadsIndex (c : Cycle) : Bool := (Instruction.decode? c.word).any Instruction.loadsIndex

namespace Machine

/-- The same machine with another index. -/
def reindex (m : Machine) (index : UInt16) : Machine := { m with index }

/-- `n` is `m` but for the index, and the indices agree in the low twelve bits. -/
structure Congruent (m n : Machine) : Prop where
  index : m.index.toNat ≡ n.index.toNat [MOD 4096]
  rest : n = m.reindex n.index

/-- Adding the register takes the index out of its sixteen bits. -/
def Overflows (m : Machine) (x : Register) : Prop := 65536 ≤ m.index.toNat + (m.v x).toNat

/-- The instruction is a sum, and exactly one of the two machines raises the flag for it. -/
def TellsApart (m n : Machine) : Instruction → Prop
  | .addIndex x => ¬ (m.Overflows x ↔ n.Overflows x)
  | _ => False

end Machine

/-- The same answer and the same log, and machines that differ in the high bits of the index
alone. -/
structure Reply.Congruent {α : Type} (r s : Reply α) : Prop where
  machine : r.machine.Congruent s.machine
  answer : s.answer = r.answer
  log : s.log = r.log

namespace Machine

variable {m n : Machine} {index : UInt16}

theorem congruent_reindex (h : m.index.toNat ≡ index.toNat [MOD 4096]) :
    m.Congruent (m.reindex index) := ⟨h, rfl⟩

theorem Congruent.word (h : m.Congruent n) : n.word = m.word := by
  rw [h.rest]
  rfl

theorem Congruent.sound (h : m.Congruent n) : n.sound = m.sound := by
  rw [h.rest]
  rfl

theorem Congruent.v (h : m.Congruent n) (r : Register) : n.v r = m.v r := by
  rw [h.rest]
  rfl

theorem indexed_reindex (h : m.index.toNat ≡ index.toNat [MOD 4096]) :
    (m.reindex index).indexed = m.indexed := by
  funext k
  exact m.memory.read_congr (h.symm.add_right k)

theorem store_reindex (h : m.index.toNat ≡ index.toNat [MOD 4096]) (bytes : List UInt8) :
    (m.reindex index).store bytes = (m.store bytes).reindex index := by
  have hmemory := m.memory.writeList_congr h.symm bytes
  exact congrArg (fun memory => { m.reindex index with memory }) hmemory

theorem drawSprite_reindex (h : m.index.toNat ≡ index.toNat [MOD 4096]) (x y : Register)
    (n : UInt8) :
    (m.reindex index).drawSprite x y n = (m.drawSprite x y n).reindex index := by
  have hcells : (m.reindex index).spriteCells x y n = m.spriteCells x y n :=
    congrArg (fun rows => Sprite.cells rows n.toNat (m.v x).toNat (m.v y).toNat) (indexed_reindex h)
  simp only [drawSprite, hcells]
  rfl

/-- An instruction that does not set the index does the same with another one. -/
theorem handle_reindex (h : m.index.toNat ≡ index.toNat [MOD 4096]) {i : Instruction}
    (hi : i.setsIndex = false) :
    (m.reindex index).handle i =
      (m.handle i).map fun e => { e with machine := e.machine.reindex index } := by
  cases i with
  | setIndex nnn | addIndex x | indexGlyph x => cases hi
  | ret =>
    have hstack : (m.reindex index).stack = m.stack := rfl
    simp only [handle, hstack]
    cases m.stack.pop <;> rfl
  | call nnn =>
    have hpush : (m.reindex index).stack.push (m.reindex index).pc = m.stack.push m.pc := rfl
    simp only [handle, hpush]
    cases m.stack.push m.pc <;> rfl
  | skip c =>
    have hholds : (m.reindex index).holds c = m.holds c := by cases c <;> rfl
    simp only [handle, hholds]
    rfl
  | awaitKey x =>
    have hkeypad : (m.reindex index).keypad = m.keypad := rfl
    simp only [handle, hkeypad]
    cases m.keypad.lowestDown? <;> rfl
  | draw x y height =>
    simp only [handle, drawSprite_reindex h]
    rfl
  | storeDigits x =>
    simp only [handle, store_reindex h]
    rfl
  | storeRegisters x =>
    simp only [handle, store_reindex h]
    rfl
  | fillRegisters x =>
    simp only [handle, indexed_reindex h]
    rfl
  | _ => rfl

theorem execute_reindex (h : m.index.toNat ≡ index.toNat [MOD 4096]) {i : Instruction}
    (hi : i.setsIndex = false) :
    (m.reindex index).execute i =
      { m.execute i with machine := (m.execute i).machine.reindex index } := by
  rw [execute, handle_reindex h hi, execute]
  cases m.handle i <;> rfl

theorem execute_reindex_of_loads {i : Instruction} (hi : i.loadsIndex = true) (index : UInt16) :
    (m.reindex index).execute i = m.execute i := by
  cases i with
  | setIndex nnn | indexGlyph x => rfl
  | _ => cases hi

theorem Congruent.execute_of_loads (h : m.Congruent n) {i : Instruction}
    (hi : i.loadsIndex = true) : n.execute i = m.execute i := by
  rw [h.rest, execute_reindex_of_loads hi]

theorem Congruent.execute (h : m.Congruent n) {i : Instruction} (hi : i.addsIndex = false) :
    (m.execute i).Congruent (n.execute i) := by
  cases hloads : i.loadsIndex with
  | false =>
    have hset : i.setsIndex = false := by rw [i.setsIndex_eq, hi, hloads]; rfl
    have hkept := (m.execute_confined i).index hset
    rw [h.rest, execute_reindex h.index hset]
    exact ⟨congruent_reindex (hkept ▸ h.index), rfl, rfl⟩
  | true =>
    rw [h.execute_of_loads hloads]
    exact ⟨⟨rfl, rfl⟩, rfl, rfl⟩

/-! ### Sums -/

theorem addIndex_flag_of_overflows {x : Register} (h : m.Overflows x) :
    (m.addIndex x).v Registers.flag = 1 := by
  have hregisters : (m.addIndex x).registers = setAt m.registers Registers.flag 1 :=
    if_neg (Nat.not_lt.mpr h)
  rw [v, hregisters, get_setAt, if_pos rfl]

theorem addIndex_flag_of_not_overflows {x : Register} (h : ¬ m.Overflows x) :
    (m.addIndex x).v Registers.flag = m.v Registers.flag := by
  have hregisters : (m.addIndex x).registers = m.registers := if_pos (Nat.lt_of_not_le h)
  rw [v, hregisters]

theorem addIndex_registers (h : m.Congruent n) (x : Register) :
    setAt (n.addIndex x).registers Registers.flag ((m.addIndex x).v Registers.flag) =
      (m.addIndex x).registers := by
  apply ext_get
  intro r
  rw [get_setAt]
  by_cases hr : Registers.flag = r
  · rw [if_pos hr, ← hr]
  · have hn : (n.addIndex x).v r = n.v r := addIndex_v fun hflag => hr hflag.1.symm
    have hm : (m.addIndex x).v r = m.v r := addIndex_v fun hflag => hr hflag.1.symm
    rw [if_neg hr]
    exact hn.trans ((h.v r).trans hm.symm)

/-- Sums of congruent indices are congruent, and besides them only the flag can tell. -/
theorem Congruent.addIndex (h : m.Congruent n) (x : Register) :
    (m.addIndex x).Congruent
      ((n.addIndex x).setRegister Registers.flag ((m.addIndex x).v Registers.flag)) := by
  have hregisters := addIndex_registers h x
  have hindex := h.index
  have hrest := h.rest
  generalize n.index = index at hindex hrest
  subst hrest
  constructor
  · change (UInt16.ofNat (m.index.toNat + (m.v x).toNat)).toNat ≡
      (UInt16.ofNat (index.toNat + (m.v x).toNat)).toNat [MOD 4096]
    simp only [UInt16.toNat_ofNat', Nat.ModEq] at hindex ⊢
    omega
  · exact congrArg (fun registers => { (m.reindex index).addIndex x with registers }) hregisters

theorem setRegister_self (m : Machine) (x : Register) : m.setRegister x (m.v x) = m :=
  congrArg (fun registers => { m with registers }) (setAt_get m.registers x)

theorem Congruent.addIndex_of_iff (h : m.Congruent n) {x : Register}
    (hx : m.Overflows x ↔ n.Overflows x) : (m.addIndex x).Congruent (n.addIndex x) := by
  have hflag : (m.addIndex x).v Registers.flag = (n.addIndex x).v Registers.flag := by
    by_cases hover : m.Overflows x
    · rw [addIndex_flag_of_overflows hover, addIndex_flag_of_overflows (hx.mp hover)]
    · rw [addIndex_flag_of_not_overflows hover,
        addIndex_flag_of_not_overflows fun hn => hover (hx.mpr hn), h.v]
  have hsum := h.addIndex x
  rwa [hflag, setRegister_self] at hsum

theorem Congruent.advance (h : m.Congruent n) (a : Advance) :
    (m.advance a).Congruent (n.advance a) := by
  refine ⟨h.index, ?_⟩
  rw [h.rest]
  rfl

theorem Congruent.execute_of_not_tellsApart (h : m.Congruent n) {i : Instruction}
    (hi : ¬ m.TellsApart n i) : (m.execute i).Congruent (n.execute i) := by
  cases hadds : i.addsIndex with
  | false => exact h.execute hadds
  | true =>
    cases i with
    | addIndex x => exact ⟨(h.addIndex_of_iff (not_not.mp hi)).advance .next, rfl, rfl⟩
    | _ => cases hadds

/-- With the flag taken over from the other machine, no instruction is an exception. -/
theorem Congruent.execute_setRegister (h : m.Congruent n) (i : Instruction) :
    let d := m.execute i
    let e := n.execute i
    d.Congruent
      { e with machine := e.machine.setRegister Registers.flag (d.machine.v Registers.flag) } := by
  intro d e
  by_cases hi : m.TellsApart n i
  · cases i with
    | addIndex x => exact ⟨(h.addIndex x).advance .next, rfl, rfl⟩
    | _ => exact hi.elim
  · have hsame : d.Congruent e := h.execute_of_not_tellsApart hi
    rw [← hsame.machine.v, setRegister_self]
    exact hsame

/-! ### Runs -/

theorem Congruent.fetch (h : m.Congruent n) : m.fetch.Congruent n.fetch := by
  refine ⟨h.index, ?_⟩
  rw [h.rest]
  rfl

theorem Congruent.tick (h : m.Congruent n) : m.tick.Congruent n.tick := by
  refine ⟨h.index, ?_⟩
  rw [h.rest]
  rfl

theorem Congruent.executeWord (h : m.Congruent n)
    (hw : (Instruction.decode? m.word).any Instruction.addsIndex = false) :
    m.executeWord.Congruent n.executeWord := by
  rw [Machine.executeWord, Machine.executeWord, h.word, Instruction.decode]
  cases hi : Instruction.decode? m.word with
  | none => exact ⟨h.advance .next, rfl, rfl⟩
  | some i =>
    rw [hi] at hw
    exact h.execute hw

theorem Congruent.step (h : m.Congruent n) (hc : m.step.answer.addsIndex = false) :
    m.step.Congruent n.step := by
  have hdone := h.fetch.executeWord hc
  have hword := h.fetch.word
  have hpc : n.pc = m.pc := by rw [h.rest]; rfl
  have hsound := hdone.machine.sound
  refine ⟨hdone.machine.tick, ?_, ?_⟩
  · simp only [Machine.step, hword, hdone.answer, hsound]
  · simp only [Machine.step, hword, hdone.answer, hdone.log, hpc]

theorem Congruent.step_of_loads (h : m.Congruent n) (hc : m.step.answer.loadsIndex = true) :
    n.step.machine = m.step.machine := by
  have hword : n.memory.fetch n.pc = m.memory.fetch m.pc := h.fetch.word
  obtain ⟨i, hi, hloads⟩ := (Option.any_eq_true _ _).mp hc
  change Instruction.decode? (m.memory.fetch m.pc) = some i at hi
  have hn : Instruction.decode? (n.memory.fetch n.pc) = some i := by rw [hword, hi]
  rw [step_machine_of_some hi, step_machine_of_some hn, h.fetch.execute_of_loads hloads]

theorem Congruent.run (h : m.Congruent n) (k : Nat)
    (hk : ∀ c ∈ (run k m).answer, c.addsIndex = false) :
    (run k m).Congruent (run k n) := by
  induction k generalizing m n with
  | zero => exact ⟨h, rfl, rfl⟩
  | succ k ih =>
    have hfirst : m.step.Congruent n.step := h.step (hk _ (by simp [Machine.run]))
    have hrest := ih hfirst.machine fun c hc => hk c (by simp [Machine.run, hc])
    refine ⟨hrest.machine, ?_, ?_⟩
    · simp only [Machine.run, hfirst.answer, hrest.answer]
    · simp only [Machine.run, hfirst.log, hrest.log]

/-- A cycle that sets the index makes the machines the same, and then they stay the same. -/
theorem Congruent.run_of_loads (h : m.Congruent n) (k : Nat)
    (hk : ∀ c ∈ (Machine.run k m).answer, c.addsIndex = false)
    (hloads : ∃ c ∈ (Machine.run k m).answer, c.loadsIndex = true) :
    (Machine.run k n).machine = (Machine.run k m).machine := by
  induction k generalizing m n with
  | zero =>
    obtain ⟨c, hc, _⟩ := hloads
    cases hc
  | succ k ih =>
    obtain ⟨c, hc, hload⟩ := hloads
    rcases List.mem_cons.mp hc with rfl | hc
    · exact congrArg (fun m => (Machine.run k m).machine) (h.step_of_loads hload)
    · have hfirst : m.step.Congruent n.step := h.step (hk _ (by simp [Machine.run]))
      exact ih hfirst.machine (fun c hc => hk c (by simp [Machine.run, hc])) ⟨c, hc, hload⟩

/-- Machines whose indices agree in the low twelve bits give the same replies and stay so, but for
the flag of `FX1E` when one of the two sums leaves its sixteen bits. Without an `FX1E` they go
through the same cycles, and from the first instruction that sets the index on they are the same machine. -/
theorem low_index_is_all_that_shows (h : m.Congruent n) :
    (∀ i, ¬ m.TellsApart n i → (m.execute i).Congruent (n.execute i)) ∧
      (∀ i, let d := m.execute i
        let e := n.execute i
        d.Congruent
          { e with machine := e.machine.setRegister Registers.flag (d.machine.v Registers.flag) }) ∧
      ∀ k, (∀ c ∈ (run k m).answer, c.addsIndex = false) →
        (run k m).Congruent (run k n) ∧
          ((∃ c ∈ (run k m).answer, c.loadsIndex = true) →
            (run k n).machine = (run k m).machine) :=
  ⟨fun _ hi => h.execute_of_not_tellsApart hi, h.execute_setRegister,
    fun k hk => ⟨h.run k hk, h.run_of_loads k hk⟩⟩

/-- A program that stores two registers, here over the end of the memory, and sets the index. -/
def storingAt (index : UInt16) : Machine :=
  { ((powerOn 0).load [0xF1, 0x55, 0xA3, 0x00]).machine.setRegister 1 2 with index }

/-- The program cannot tell the end of the memory from the end of the index. A sum can, because only
one of them leaves the sixteen bits. -/
theorem low_index_is_all_that_shows_at_ends :
    (storingAt 0xFFF).Congruent (storingAt 0xFFFF) ∧
      ((storingAt 0xFFF).execute (.storeRegisters 1)).Congruent
        ((storingAt 0xFFFF).execute (.storeRegisters 1)) ∧
      (storingAt 0xFFF).TellsApart (storingAt 0xFFFF) (.addIndex 1) ∧
      (∀ c ∈ (run 2 (storingAt 0xFFF)).answer, c.addsIndex = false) ∧
      (∃ c ∈ (run 2 (storingAt 0xFFF)).answer, c.loadsIndex = true) ∧
      (run 2 (storingAt 0xFFFF)).machine = (run 2 (storingAt 0xFFF)).machine := by
  have hcongruent : (storingAt 0xFFF).Congruent (storingAt 0xFFFF) := ⟨rfl, rfl⟩
  obtain ⟨hquiet, hloads⟩ : (∀ c ∈ (run 2 (storingAt 0xFFF)).answer, c.addsIndex = false) ∧
      ∃ c ∈ (run 2 (storingAt 0xFFF)).answer, c.loadsIndex = true := by decide +kernel
  have hstays : ¬ (storingAt 0xFFF).Overflows 1 := by unfold Overflows; decide +kernel
  have hleaves : (storingAt 0xFFFF).Overflows 1 := by unfold Overflows; decide +kernel
  obtain ⟨hsame, _, hruns⟩ := low_index_is_all_that_shows hcongruent
  exact ⟨hcongruent, hsame _ not_false, fun hiff => hstays (hiff.mpr hleaves), hquiet, hloads,
    (hruns 2 hquiet).2 hloads⟩

end Machine
end Chip8
