import Chip8.Proofs.Calls

/-!
# Peripherals stay outside the program

Keys, random words and timers reach a program only through the instructions that read them. Machines
that differ in nothing else than these, the flag of a drawing, the last word and the dead slots of
the stack run the same cycles for as long as no such instruction comes up.
-/
namespace Chip8

/-- The instructions that read the random words, the keys or the delay timer. -/
def Instruction.consults : Instruction → Bool
  | .random .. | .skip (.pressed _) | .skip (.released _) | .awaitKey _ | .getDelay _ => true
  | _ => false

/-- The word of the cycle stands for an instruction that reads a peripheral. -/
def Cycle.consults (c : Cycle) : Bool := (Instruction.decode? c.word).any Instruction.consults

/-- A cycle without the event of the sound timer. -/
structure Cycle.Deed where
  word : Word
  request : Request
  fault : Option Fault
  deriving DecidableEq

def Cycle.deed (c : Cycle) : Deed := ⟨c.word, c.request, c.fault⟩

namespace CallStack

/-- The same open calls; the slots above them may differ. -/
structure Agree (s t : CallStack) : Prop where
  depth : s.depth = t.depth
  live : s.live = t.live

theorem agree_of_live {s t : CallStack} (h : s.live = t.live) : s.Agree t :=
  ⟨by rw [← length_live, ← length_live, h], h⟩

theorem Agree.push {s t : CallStack} (h : s.Agree t) (a : UInt16) :
    (∃ e, s.push a = .error e ∧ t.push a = .error e) ∨
      ∃ u v, s.push a = .ok u ∧ t.push a = .ok v ∧ u.Agree v := by
  by_cases hroom : s.depth < 16
  · obtain ⟨u, hu⟩ := push_of_lt hroom a
    obtain ⟨v, hv⟩ := push_of_lt (h.depth ▸ hroom) a
    refine Or.inr ⟨u, v, hu, hv, agree_of_live ?_⟩
    rw [live_push hu, live_push hv, h.live]
  · have hfull : s.depth = 16 := Nat.le_antisymm s.depth_le (Nat.not_lt.mp hroom)
    exact Or.inl ⟨.overflow, (s.push_eq_error_iff a _).mpr ⟨rfl, hfull⟩,
      (t.push_eq_error_iff a _).mpr ⟨rfl, h.depth ▸ hfull⟩⟩

theorem Agree.pop {s t : CallStack} (h : s.Agree t) :
    (∃ e, s.pop = .error e ∧ t.pop = .error e) ∨
      ∃ a u v, s.pop = .ok (a, u) ∧ t.pop = .ok (a, v) ∧ u.Agree v := by
  by_cases hpos : 0 < s.depth
  · obtain ⟨a, u, hu⟩ := pop_of_pos hpos
    obtain ⟨b, v, hv⟩ := pop_of_pos (h.depth ▸ hpos)
    have hlive : u.live ++ [a] = v.live ++ [b] := by rw [← live_pop hu, ← live_pop hv, h.live]
    obtain ⟨huv, hab⟩ := List.append_inj' hlive rfl
    obtain rfl : a = b := List.head_eq_of_cons_eq hab
    exact Or.inr ⟨a, u, v, hu, hv, agree_of_live huv⟩
  · have hempty : s.depth = 0 := Nat.eq_zero_of_not_pos hpos
    exact Or.inl ⟨.underflow, (s.pop_eq_error_iff _).mpr ⟨rfl, hempty⟩,
      (t.pop_eq_error_iff _).mpr ⟨rfl, h.depth ▸ hempty⟩⟩

end CallStack

namespace Machine

/-- What a program can tell of its machine without reading a peripheral is the same. -/
structure Alike (m n : Machine) : Prop where
  memory : m.memory = n.memory
  registers : m.registers = n.registers
  index : m.index = n.index
  pc : m.pc = n.pc
  stack : m.stack.Agree n.stack
  display : m.display = n.display

/-- Nothing but the peripherals, the flag, the last word and the stack has to be exchanged. -/
theorem Alike.exists_eq {m n : Machine} (h : Alike m n) :
    ∃ word stack delay sound drawn keypad random, m.stack.Agree stack ∧
      n = { m with word, stack, delay, sound, drawn, keypad, random } := by
  refine ⟨n.word, n.stack, n.delay, n.sound, n.drawn, n.keypad, n.random, h.stack, ?_⟩
  rw [h.memory, h.registers, h.index, h.pc, h.display]

/-- Two outcomes of one instruction that a program cannot tell apart. -/
inductive SameOutcome : Except Fault Effect → Except Fault Effect → Prop
  | fault (f : Fault) : SameOutcome (.error f) (.error f)
  | effect {d e : Effect} (machine : Alike d.machine e.machine) (advance : d.advance = e.advance)
      (request : d.request = e.request) : SameOutcome (.ok d) (.ok e)

theorem handle_alike {m n : Machine} (h : Alike m n) {i : Instruction}
    (hi : i.consults = false) : SameOutcome (m.handle i) (n.handle i) := by
  obtain ⟨word, stack, delay, sound, drawn, keypad, random, hstack, rfl⟩ := h.exists_eq
  cases i with
  | ret =>
    rcases hstack.pop with ⟨e, hs, ht⟩ | ⟨a, u, v, hs, ht, huv⟩
    · simp only [handle, hs, ht]
      exact .fault _
    · simp only [handle, hs, ht]
      exact .effect ⟨rfl, rfl, rfl, rfl, huv, rfl⟩ rfl rfl
  | call nnn =>
    rcases hstack.push m.pc with ⟨e, hs, ht⟩ | ⟨u, v, hs, ht, huv⟩
    · simp only [handle, hs, ht]
      exact .fault _
    · simp only [handle, hs, ht]
      exact .effect ⟨rfl, rfl, rfl, rfl, huv, rfl⟩ rfl rfl
  | skip c =>
    cases c with
    | pressed x | released x => cases hi
    | _ => exact .effect ⟨rfl, rfl, rfl, rfl, hstack, rfl⟩ rfl rfl
  | random x nn | awaitKey x | getDelay x => cases hi
  | _ => exact .effect ⟨rfl, rfl, rfl, rfl, hstack, rfl⟩ rfl rfl

theorem Alike.advance {m n : Machine} (h : Alike m n) (a : Advance) :
    Alike (m.advance a) (n.advance a) :=
  { h with pc := congrArg a.apply h.pc }

theorem execute_alike {m n : Machine} (h : Alike m n) {i : Instruction}
    (hi : i.consults = false) :
    Alike (m.execute i).machine (n.execute i).machine ∧
      (m.execute i).answer = (n.execute i).answer := by
  have hout := handle_alike h hi
  unfold execute
  generalize m.handle i = r at hout ⊢
  generalize n.handle i = s at hout ⊢
  cases hout with
  | fault f => exact ⟨h, rfl⟩
  | effect hmachine hadvance hrequest =>
    simp only [hadvance, hrequest]
    exact ⟨hmachine.advance _, trivial⟩

theorem step_alike {m n : Machine} (h : Alike m n) (hc : m.step.answer.consults = false) :
    Alike m.step.machine n.step.machine ∧ m.step.answer.deed = n.step.answer.deed := by
  have hword : m.memory.fetch m.pc = n.memory.fetch n.pc := by rw [h.memory, h.pc]
  have hfetch : Alike m.fetch n.fetch := { h with }
  cases hi : Instruction.decode? (m.memory.fetch m.pc) with
  | none =>
    have hi' := hword ▸ hi
    rw [step_machine_of_none hi, step_machine_of_none hi', step_answer_of_none hi,
      step_answer_of_none hi', hword]
    exact ⟨{ hfetch.advance .next with }, rfl⟩
  | some i =>
    have hi' := hword ▸ hi
    rw [step_answer_of_some hi, Cycle.consults, hi] at hc
    obtain ⟨hmachine, hanswer⟩ := execute_alike hfetch hc
    rw [step_machine_of_some hi, step_machine_of_some hi', step_answer_of_some hi,
      step_answer_of_some hi', hword]
    simp only [Cycle.deed, hanswer]
    exact ⟨{ hmachine with }, trivial⟩

/-- Machines that differ only in what no instruction of the one's run reads go through the same
cycles, and they differ in nothing else afterwards. -/
theorem run_alike {m n : Machine} (h : Alike m n) (k : Nat)
    (hk : ∀ c ∈ (run k m).answer, c.consults = false) :
    (∀ c ∈ (run k n).answer, c.consults = false) ∧
      (run k m).answer.map Cycle.deed = (run k n).answer.map Cycle.deed ∧
      Alike (run k m).machine (run k n).machine := by
  induction k generalizing m n with
  | zero => exact ⟨hk, rfl, h⟩
  | succ k ih =>
    have hfirst : m.step.answer.consults = false := hk _ (by simp [run])
    obtain ⟨hmachine, hdeed⟩ := step_alike h hfirst
    obtain ⟨hrest, hdeeds, hend⟩ := ih hmachine fun c hc => hk c (by simp [run, hc])
    have hword : n.step.answer.word = m.step.answer.word := congrArg Cycle.Deed.word hdeed.symm
    refine ⟨fun c hc => ?_, ?_, hend⟩
    · rcases List.mem_cons.mp hc with rfl | hc
      · rwa [Cycle.consults, hword]
      · exact hrest c hc
    · simp only [run, List.map_cons, hdeed, hdeeds]

/-- A subroutine at `204` that starts a beep and returns. -/
def beeper : Machine :=
  ((powerOn 0).load [0x22, 0x04, 0x12, 0x02, 0xF0, 0x18, 0x00, 0xEE]).machine

/-- The same program with keys down, timers running, random words used and litter on the stack. -/
def litteredBeeper : Machine :=
  { beeper with
    word := 0xFFFF
    stack := { CallStack.empty with slots := Vector.replicate 16 0xABC }
    delay := ⟨9⟩
    sound := ⟨1⟩
    drawn := true
    keypad := Vector.replicate 16 true
    random := Generator.ofSeed 7 }

theorem run_alike_of_beepers :
    Alike beeper litteredBeeper ∧ (∀ c ∈ (run 4 beeper).answer, c.consults = false) ∧
      (run 4 beeper).answer.map Cycle.deed = (run 4 litteredBeeper).answer.map Cycle.deed ∧
      Alike (run 4 beeper).machine (run 4 litteredBeeper).machine := by
  have halike : Alike beeper litteredBeeper :=
    ⟨rfl, rfl, rfl, rfl, CallStack.agree_of_live rfl, rfl⟩
  have hquiet : ∀ c ∈ (run 4 beeper).answer, c.consults = false := by decide +kernel
  exact ⟨halike, hquiet, (run_alike halike 4 hquiet).2⟩

end Machine
end Chip8
