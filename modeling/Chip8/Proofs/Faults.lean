import Chip8.Proofs.Checked.Refinement
import Chip8.Proofs.Effects

/-!
# Faults are exact and leave no trace

Only a call on a full stack and a return on an empty one fail, and then the whole machine is what it
was. A cycle reports a fault for these and for a word that is no instruction; the word is noted, the
timers tick, an illegal word is passed over, and nothing else happens.
-/
namespace Chip8

/-- The instructions that a stack does not let through, and why. -/
inductive CallStack.Refuses (s : CallStack) : Instruction → Fault → Prop
  | call {nnn : UInt16} (full : s.depth = 16) : s.Refuses (.call nnn) (.stack .overflow)
  | ret (empty : s.depth = 0) : s.Refuses .ret (.stack .underflow)

namespace Machine

theorem handle_eq_error_iff (m : Machine) (i : Instruction) (f : Fault) :
    m.handle i = .error f ↔ m.stack.Refuses i f := by
  constructor
  · intro h
    cases i with
    | ret =>
      cases hp : m.stack.pop with
      | error e =>
        obtain ⟨rfl, hempty⟩ := (m.stack.pop_eq_error_iff e).mp hp
        simp only [handle, hp] at h
        cases h
        exact .ret hempty
      | ok popped => simp only [handle, hp, reduceCtorEq] at h
    | call nnn =>
      cases hp : m.stack.push m.pc with
      | error e =>
        obtain ⟨rfl, hfull⟩ := (m.stack.push_eq_error_iff m.pc e).mp hp
        simp only [handle, hp] at h
        cases h
        exact .call hfull
      | ok t => simp only [handle, hp, reduceCtorEq] at h
    | awaitKey x =>
      -- waiting is no failure
      cases hk : m.keypad.lowestDown? <;> simp only [handle, hk, reduceCtorEq] at h
    | _ => cases h
  · rintro (hfull | hempty)
    · have hp := (m.stack.push_eq_error_iff m.pc .overflow).mpr ⟨rfl, hfull⟩
      simp only [handle, hp]
    · have hp := (m.stack.pop_eq_error_iff .underflow).mpr ⟨rfl, hempty⟩
      simp only [handle, hp]

theorem execute_eq_error_iff (m : Machine) (i : Instruction) (f : Fault) :
    (m.execute i).answer = .error f ↔ m.stack.Refuses i f := by
  rw [← handle_eq_error_iff, execute]
  cases m.handle i <;> simp

theorem execute_of_refuses {m : Machine} {i : Instruction} {f : Fault}
    (h : m.stack.Refuses i f) : m.execute i = ⟨m, .error f, []⟩ := by
  rw [execute, (m.handle_eq_error_iff i f).mpr h]

theorem faultOf_eq_some_iff (r : Except Fault Request) (f : Fault) :
    faultOf r = some f ↔ r = .error f := by
  cases r <;> simp [faultOf]

/-- What a cycle at `m` finds wrong: the word is no instruction, or the stack refuses it. -/
def FaultAt (m : Machine) (f : Fault) : Prop :=
  match Instruction.decode (m.memory.fetch m.pc) with
  | .error e => f = .opcode e
  | .ok i => m.stack.Refuses i f

theorem step_fault_iff (m : Machine) (f : Fault) :
    m.step.answer.fault = some f ↔ m.FaultAt f := by
  cases h : Instruction.decode? (m.memory.fetch m.pc) with
  | none =>
    rw [step_answer_of_none h, FaultAt, decode_of_decode?_none h, Option.some.injEq]
    exact eq_comm
  | some i =>
    rw [step_answer_of_some h, FaultAt, decode_of_decode? h, faultOf_eq_some_iff]
    exact m.fetch.execute_eq_error_iff i f

/-- A cycle in which nothing was carried out: an illegal word is passed over, a refused one is met
again. -/
def idle (m : Machine) : Machine :=
  let word := m.memory.fetch m.pc
  { m with
    word
    pc := if (Instruction.decode? word).isSome then m.pc
      else UInt16.ofNat ((m.pc.toNat + 2) % 4096)
    delay := m.delay.tick
    sound := m.sound.tick }

theorem step_of_illegal {m : Machine}
    (h : Instruction.decode? (m.memory.fetch m.pc) = none) :
    m.step.answer.request = .none ∧ m.step.machine = m.idle := by
  rw [step_answer_of_none h, step_machine_of_none h, idle, h, ← Advance.apply_next]
  exact ⟨rfl, rfl⟩

theorem step_of_refuses {m : Machine} {i : Instruction} {f : Fault}
    (h : Instruction.decode? (m.memory.fetch m.pc) = some i) (hr : m.stack.Refuses i f) :
    m.step.answer.request = .none ∧ m.step.machine = m.idle := by
  have hrun : m.fetch.execute i = ⟨m.fetch, .error f, []⟩ := execute_of_refuses hr
  rw [step_answer_of_some h, step_machine_of_some h, hrun, idle, h]
  exact ⟨rfl, rfl⟩

theorem step_of_fault {m : Machine} {f : Fault} (h : m.FaultAt f) :
    m.step.answer.request = .none ∧ m.step.machine = m.idle := by
  cases hi : Instruction.decode? (m.memory.fetch m.pc) with
  | none => exact step_of_illegal hi
  | some i =>
    rw [FaultAt, decode_of_decode? hi] at h
    exact step_of_refuses hi h

/-- Faults of instructions and of cycles: when there is one, and what is left behind. On bare arrays
an instruction that fails hands back a state of its own, and that is the one it was given, also
where no machine is laid out like it. A timer of an idle machine is one lower, or zero. -/
theorem faults_leave_no_trace (m : Machine) :
    (∀ i f, (m.execute i).answer = .error f ↔ m.stack.Refuses i f) ∧
    (∀ i f, (m.execute i).answer = .error f → (m.execute i).machine = m) ∧
    (∀ i, m.sumFits i = true → ∀ s f,
      (Checked.State.ofMachine m).execute i = .ok (s, .error f) ↔
        m.stack.Refuses i f ∧ s = Checked.State.ofMachine m) ∧
    (∀ (s t : Checked.State) i f, s.execute i = .ok (t, .error f) → t = s) ∧
    (∀ f, m.step.answer.fault = some f ↔ m.FaultAt f) ∧
    (∀ f, m.step.answer.fault = some f →
      m.step.answer.request = .none ∧ m.step.machine = m.idle) ∧
    m.idle.delay.value.toNat = m.delay.value.toNat - 1 ∧
    m.idle.sound.value.toNat = m.sound.value.toNat - 1 := by
  refine ⟨m.execute_eq_error_iff, fun i f h => ?_, fun i hsum s f => ?_,
    fun _ _ _ _ => Checked.State.execute_of_error, m.step_fault_iff,
    fun f h => step_of_fault ((m.step_fault_iff f).mp h), m.delay.toNat_tick, m.sound.toNat_tick⟩
  · rw [execute_of_refuses ((m.execute_eq_error_iff i f).mp h)]
  · rw [Checked.State.execute_ofMachine hsum, ← execute_eq_error_iff]
    constructor
    · intro h
      obtain ⟨hs, ha⟩ := Prod.mk.inj (Except.ok.inj h)
      rw [execute_of_refuses ((m.execute_eq_error_iff i f).mp ha)] at hs
      exact ⟨ha, hs.symm⟩
    · rintro ⟨ha, rfl⟩
      rw [execute_of_refuses ((m.execute_eq_error_iff i f).mp ha)]

/-- A program that has called itself until the stack was full. -/
def endless : Machine :=
  { ((powerOn 0).load [0x22, 0x00]).machine with
    stack := ⟨Vector.replicate 16 0x200, 16, Nat.le_refl 16⟩ }

theorem faults_leave_no_trace_on_full_stack :
    endless.step.answer.fault = some (.stack .overflow) ∧
      endless.step.answer.request = .none ∧ endless.step.machine = endless.idle ∧
      (endless.execute (.call 0x200)).machine = endless ∧
      (Checked.State.ofMachine endless).execute (.call 0x200) =
        .ok (Checked.State.ofMachine endless, .error (.stack .overflow)) := by
  have hword : Instruction.decode? (endless.memory.fetch endless.pc) = some (.call 0x200) := by
    decide +kernel
  have hrefused : endless.stack.Refuses (.call 0x200) (.stack .overflow) := .call rfl
  obtain ⟨hanswer, hkept, harrays, _, hfault, hidle, _⟩ := faults_leave_no_trace endless
  have hcycle : endless.step.answer.fault = some (.stack .overflow) := by
    rw [hfault, FaultAt, decode_of_decode? hword]
    exact hrefused
  obtain ⟨hrequest, hmachine⟩ := hidle _ hcycle
  exact ⟨hcycle, hrequest, hmachine, hkept _ _ ((hanswer _ _).mpr hrefused),
    (harrays _ rfl _ _).mpr ⟨hrefused, rfl⟩⟩

end Machine
end Chip8
