import Chip8.Proofs.Effects

/-!
# Calls and returns

A return goes back behind the call that it belongs to, whatever happens in between: as long as
the stack never gets lower than the call left it, the addresses that were open after the call
stay at the bottom of the stack.
-/
namespace Chip8

namespace CallStack

theorem live_pop {s t : CallStack} {a : UInt16} (h : s.pop = .ok (a, t)) :
    s.live = t.live ++ [a] := by
  unfold pop at h
  split at h
  · rename_i hpos
    cases h
    have hle := s.depth_le
    have hd : s.slots.toList.take s.depth = s.slots.toList.take (s.depth - 1 + 1) :=
      congrArg (fun n => s.slots.toList.take n) (by omega)
    simp only [live]
    rw [hd, List.take_succ_eq_append_getElem (by simp; omega), Vector.getElem_toList]
  · cases h

theorem push_of_lt {s : CallStack} (h : s.depth < 16) (a : UInt16) : ∃ t, s.push a = .ok t := by
  simp only [push, h, ↓reduceDIte, Except.ok.injEq, exists_eq']

theorem pop_of_pos {s : CallStack} (h : 0 < s.depth) : ∃ a t, s.pop = .ok (a, t) := by
  simp only [pop, h, ↓reduceDIte]
  exact ⟨_, _, rfl⟩

/-- Addresses at the bottom of the stack stay there while the stack covers them. -/
theorem Move.prefix_live {pc : UInt16} {s t : CallStack} {frames : List UInt16}
    (h : s.Move pc t) (hs : frames <+: s.live) (ht : frames.length ≤ t.depth) :
    frames <+: t.live := by
  cases h with
  | keep => exact hs
  | push hp =>
    rw [live_push hp]
    exact hs.trans (List.prefix_append _ _)
  | pop hp =>
    rw [live_pop hp] at hs
    exact List.prefix_of_prefix_length_le hs (List.prefix_append _ _) (by rwa [length_live])

end CallStack

namespace Machine

/-- A command that carries out `i` and lets the program counter move on. -/
def Executes (m : Machine) (i : Instruction) : Command → Prop
  | .step => Instruction.decode? (m.memory.fetch m.pc) = some i
  | .execute j => j = i
  | _ => False

instance (m : Machine) (i : Instruction) : (c : Command) → Decidable (m.Executes i c)
  | .step => inferInstanceAs (Decidable (Instruction.decode? (m.memory.fetch m.pc) = some i))
  | .execute j => inferInstanceAs (Decidable (j = i))
  | .load _ | .reset _ | .keypad _ | .clearDrawn | .advance _ | .handle _ =>
    inferInstanceAs (Decidable False)

theorem executes_call {m : Machine} {c : Command} {nnn : UInt16} {t : CallStack}
    (h : m.Executes (.call nnn) c) (hp : m.stack.push m.pc = .ok t) :
    (m.perform c).machine.stack = t := by
  have he : ∀ n : Machine, n.stack = m.stack → n.pc = m.pc →
      (n.execute (.call nnn)).machine.stack = t := by
    intro n hs hpc
    rw [← hs, ← hpc] at hp
    simp only [execute, handle, hp]
    rfl
  cases c with
  | step =>
    have hm : (m.perform .step).machine = m.step.machine := rfl
    rw [hm, step_machine_of_some h]
    exact he m.fetch rfl rfl
  | execute j =>
    cases h
    exact he m rfl rfl
  | _ => cases h

/-- What a machine reports about a command that went wrong. -/
def faultIn : Answer → Option Fault
  | .cycle c => c.fault
  | .executed (.error f) | .handled (.error f) => some f
  | _ => none

theorem executes_ret {m : Machine} {c : Command} {a : UInt16} {t : CallStack}
    (h : m.Executes .ret c) (hp : m.stack.pop = .ok (a, t)) :
    faultIn (m.perform c).answer = none ∧ (m.perform c).machine.stack = t ∧
      (m.perform c).machine.pc.toNat = (a.toNat + 2) % 4096 := by
  have he : ∀ n : Machine, n.stack = m.stack →
      (n.execute .ret) =
        ⟨({ n with stack := t } : Machine).advance (.jump (Advance.next.apply a)), .ok .none,
          [.returned a]⟩ := by
    intro n hs
    rw [← hs] at hp
    simp only [execute, handle, hp]
  have hpc : ((Advance.jump (Advance.next.apply a)).apply m.pc).toNat = (a.toNat + 2) % 4096 := by
    rw [Advance.toNat_apply, Advance.target, Advance.toNat_apply_next, Nat.mod_mod]
  cases c with
  | step =>
    have hw : Instruction.decode m.fetch.word = .ok .ret := decode_of_decode? h
    simp only [perform, Reply.map, step, executeWord, hw, he m.fetch rfl]
    exact ⟨rfl, rfl, hpc⟩
  | execute j =>
    cases h
    simp only [perform, Reply.map, he m rfl]
    exact ⟨rfl, rfl, hpc⟩
  | _ => cases h

theorem performAll_prefix_live {frames : List UInt16} {cs : List Command} {m : Machine}
    (hm : frames <+: m.stack.live) (hr : ∀ c ∈ cs, c.resets = false)
    (hd : ∀ n ≤ cs.length, frames.length ≤ (performAll (cs.take n) m).machine.stack.depth) :
    frames <+: (performAll cs m).machine.stack.live := by
  induction cs generalizing m with
  | nil => exact hm
  | cons c cs ih =>
    have hfirst : frames.length ≤ (m.perform c).machine.stack.depth := hd 1 (by simp)
    refine ih ((perform_stack (hr c (by simp))).prefix_live hm hfirst)
      (fun e he => hr e (by simp [he])) ?_
    intro n hn
    exact hd (n + 1) (by simpa using hn)

/-- A call at `m` and the first return on its level that follows: the return succeeds, the program
goes on behind the call, and the stack is the one that the call found. -/
theorem return_matches_call {m : Machine} {first last : Command} {nnn : UInt16}
    {body : List Command} (hcall : m.Executes (.call nnn) first) (hroom : m.stack.depth < 16)
    (hreset : ∀ c ∈ body, c.resets = false)
    (hopen : ∀ n ≤ body.length, m.stack.depth + 1 ≤
      (performAll (body.take n) (m.perform first).machine).machine.stack.depth)
    (hlevel : (performAll (first :: body) m).machine.stack.depth = m.stack.depth + 1)
    (hret : (performAll (first :: body) m).machine.Executes .ret last) :
    faultIn ((performAll (first :: body) m).machine.perform last).answer = none ∧
      (performAll (first :: body ++ [last]) m).machine.pc.toNat = (m.pc.toNat + 2) % 4096 ∧
      (performAll (first :: body ++ [last]) m).machine.stack.depth = m.stack.depth ∧
      (performAll (first :: body ++ [last]) m).machine.stack.live = m.stack.live := by
  obtain ⟨t, ht⟩ := CallStack.push_of_lt hroom m.pc
  have hcalled : (m.perform first).machine.stack.live = m.stack.live ++ [m.pc] := by
    rw [executes_call hcall ht, CallStack.live_push ht]
  have hstart : m.stack.live ++ [m.pc] <+: (m.perform first).machine.stack.live := by
    simp only [hcalled, List.prefix_rfl]
  have hlen : (m.stack.live ++ [m.pc]).length = m.stack.depth + 1 := by
    simp [CallStack.length_live]
  have hkept := performAll_prefix_live hstart hreset (by rwa [hlen])
  -- on the level of the call nothing lies above its address
  have hlive : m.stack.live ++ [m.pc] = (performAll (first :: body) m).machine.stack.live :=
    hkept.eq_of_length (by rw [hlen, CallStack.length_live]; exact hlevel.symm)
  obtain ⟨a, u, hpop⟩ := CallStack.pop_of_pos (s := (performAll (first :: body) m).machine.stack)
    (by omega)
  have hsplit := hlive.trans (CallStack.live_pop hpop)
  obtain ⟨hu, ha⟩ := List.append_inj' hsplit rfl
  obtain ⟨hfault, hstack, hpc⟩ := executes_ret hret hpop
  have hend : (performAll (first :: body ++ [last]) m).machine =
      ((performAll (first :: body) m).machine.perform last).machine :=
    performAll_append (first :: body) [last] m
  have ha' : m.pc = a := by simpa using ha
  refine ⟨hfault, ?_, ?_, ?_⟩
  · rw [hend, hpc, ha']
  · rw [hend, hstack, ← CallStack.length_live, ← hu, CallStack.length_live]
  · rw [hend, hstack, hu]

/-- A subroutine at `206` that calls another one at `204` before it returns. -/
def nested : Machine :=
  ((powerOn 0).load [0x22, 0x06, 0x12, 0x02, 0x00, 0xEE, 0x22, 0x04, 0x00, 0xEE]).machine

theorem return_matches_nested_call :
    faultIn ((performAll [.step, .step, .step] nested).machine.perform .step).answer = none ∧
      (performAll [.step, .step, .step, .step] nested).machine.pc.toNat =
        (nested.pc.toNat + 2) % 4096 ∧
      (performAll [.step, .step, .step, .step] nested).machine.stack.depth =
        nested.stack.depth ∧
      (performAll [.step, .step, .step, .step] nested).machine.stack.live = nested.stack.live :=
  @return_matches_call nested .step .step 0x206 [.step, .step] (by decide +kernel)
    (by decide +kernel) (by decide) (by decide +kernel) (by decide +kernel) (by decide +kernel)

end Machine
end Chip8
