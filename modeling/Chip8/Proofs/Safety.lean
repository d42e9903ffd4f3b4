import Chip8.Proofs.Checked.Refinement
import Chip8.Proofs.Effects

/-!
# Machines never leave their ranges

The program counter and every slot of the stack, dead or alive, stay addresses of the memory, and
that is all that a machine needs to go on without a failed check, whatever lies in its memory.
-/
namespace Chip8

namespace CallStack

def Addressed (s : CallStack) : Prop := ∀ a ∈ s.slots, a.toNat < 4096

theorem Move.addressed {pc : UInt16} {s t : CallStack} (h : s.Move pc t) (hs : s.Addressed)
    (hpc : pc.toNat < 4096) : t.Addressed := by
  cases h with
  | keep => exact hs
  | push hp =>
    unfold CallStack.push at hp
    split at hp
    · rename_i hroom
      cases hp
      intro a ha
      have hset : a ∈ s.slots.set s.depth pc hroom := ha
      rcases Vector.mem_or_eq_of_mem_set hset with ha | rfl
      · exact hs a ha
      · exact hpc
    · cases hp
  | pop hp =>
    unfold CallStack.pop at hp
    split at hp
    · cases hp
      exact hs
    · cases hp

end CallStack

namespace Machine

/-- The program counter and the slots of the stack are addresses of the memory. -/
structure Addressed (m : Machine) : Prop where
  pc : m.pc.toNat < 4096
  stack : m.stack.Addressed

theorem powerOn_addressed (seed : UInt64) : (powerOn seed).Addressed := by
  have hpc : (powerOn seed).pc = 0x200 := rfl
  refine ⟨by rw [hpc]; decide, fun a ha => ?_⟩
  have hzero : a = 0 := (Vector.mem_replicate.mp ha).2
  rw [hzero]
  decide

theorem execute_pc {m : Machine} (h : m.pc.toNat < 4096) (i : Instruction) :
    (m.execute i).machine.pc.toNat < 4096 := by
  unfold execute
  cases m.handle i with
  | error f => exact h
  | ok e => exact Advance.apply_lt _ _

theorem step_pc {m : Machine} (h : m.pc.toNat < 4096) : m.step.machine.pc.toNat < 4096 := by
  cases hi : Instruction.decode? (m.memory.fetch m.pc) with
  | none =>
    rw [step_machine_of_none hi]
    exact Advance.apply_lt _ _
  | some i =>
    rw [step_machine_of_some hi]
    exact execute_pc (m := m.fetch) h i

theorem perform_addressed {m : Machine} (h : m.Addressed) (c : Command) :
    (m.perform c).machine.Addressed := by
  by_cases hr : c.resets = true
  · cases c with
    | reset seed => exact powerOn_addressed seed
    | _ => cases hr
  · have hstack := (perform_stack (m := m) (Bool.eq_false_iff.mpr hr)).addressed h.stack h.pc
    refine ⟨?_, hstack⟩
    cases c with
    | step => exact step_pc h.pc
    | load image =>
      simp only [perform, Reply.map, load]
      split <;> exact h.pc
    | reset seed => exact absurd rfl hr
    | advance a => exact Advance.apply_lt _ _
    | execute i => exact execute_pc h.pc i
    | handle i =>
      have hpc : (m.perform (.handle i)).machine.pc = m.pc := (handled_framed m i).pc
      rw [hpc]
      exact h.pc
    | _ => exact h.pc

theorem performAll_addressed {cs : List Command} {m : Machine} (h : m.Addressed) :
    (performAll cs m).machine.Addressed := by
  induction cs generalizing m with
  | nil => exact h
  | cons c cs ih => exact ih (perform_addressed h c)

end Machine

namespace Checked.State

/-- The ranges of the parts of a machine. -/
structure Safe (s : State) : Prop where
  pc : s.pc.toNat < 4096
  pointer : s.pointer ≤ 16
  slots : ∀ a ∈ s.slots, a.toNat < 4096
  cells : ∀ b ∈ s.cells, b = 0 ∨ b = 1

theorem safe_ofMachine {m : Machine} (h : m.Addressed) : (ofMachine m).Safe := by
  refine ⟨h.pc, m.stack.depth_le, h.stack, fun b hb => ?_⟩
  obtain ⟨lit, _, rfl⟩ := Vector.mem_map.mp hb
  cases lit with
  | false => exact Or.inl rfl
  | true => exact Or.inr rfl

/-- Within the ranges every checked machine is laid out like some machine. -/
theorem exists_ofMachine {s : State} (h : s.Safe) :
    ∃ m : Machine, m.Addressed ∧ s = ofMachine m := by
  have hcells : (s.cells.map (· == 1)).map Bool.toUInt8 = s.cells := by
    rw [Vector.map_map]
    refine (Vector.map_congr_left fun b hb => ?_).trans (Vector.map_id s.cells)
    rcases h.cells b hb with rfl | rfl
    · rfl
    · rfl
  refine ⟨{ s with
    stack := ⟨s.slots, s.pointer, h.pointer⟩
    delay := ⟨s.delay⟩
    sound := ⟨s.sound⟩
    display := s.cells.map (· == 1) }, ⟨h.pc, h.slots⟩, ?_⟩
  rw [ofMachine, hcells]

/-- No history of a new machine meets a trap, it ends within the ranges, and within the ranges no
step meets one either, whatever lies in the memory. -/
theorem runs_without_trap (seed : UInt64) (history : List Command)
    (h : Machine.sumsFit history (Machine.powerOn seed) = true) :
    (∃ s, (powerOn seed >>= performAll history) =
        .ok (s, (Machine.performAll history (Machine.powerOn seed)).answer) ∧
      s = ofMachine (Machine.performAll history (Machine.powerOn seed)).machine ∧ s.Safe) ∧
    ∀ s : State, s.Safe → ∃ m : Machine, s = ofMachine m ∧
      s.step = .ok (ofMachine m.step.machine, m.step.answer) ∧ (ofMachine m.step.machine).Safe := by
  have hstart := Machine.powerOn_addressed seed
  refine ⟨⟨_, ?_, rfl, safe_ofMachine (Machine.performAll_addressed hstart)⟩, fun s hs => ?_⟩
  · rw [powerOn_eq, ok_bind, performAll_ofMachine h]
  · obtain ⟨m, hm, rfl⟩ := exists_ofMachine hs
    exact ⟨m, rfl, step_ofMachine m, safe_ofMachine (Machine.perform_addressed hm .step)⟩

/-- A jump over the end of the memory, a sprite over the edges and a return too many. -/
def overrun : List Command :=
  [.load [0x60, 0xFF, 0xBF, 0xFF], .step, .step, .handle (.setIndex 0xFFFE),
    .execute (.draw Registers.first Registers.first 255),
    .execute (.jumpOffset 0xFF00), .handle .ret]

theorem runs_without_trap_over_edges :
    Machine.sumsFit overrun (Machine.powerOn 0) = true ∧
      ∃ s answers, (powerOn 0 >>= performAll overrun) = .ok (s, answers) ∧ s.Safe := by
  have h : Machine.sumsFit overrun (Machine.powerOn 0) = true := by decide +kernel
  obtain ⟨⟨s, hs, _, hsafe⟩, _⟩ := runs_without_trap 0 overrun h
  exact ⟨h, s, _, hs, hsafe⟩

end Checked.State
end Chip8
