import Chip8.Diagnostic

/-!
# Call stack

Sixteen slots for the addresses of open calls. Slots above the depth are dead: they keep what
was last written but no return reaches them.
-/
namespace Chip8

structure CallStack where
  slots : Vector UInt16 16
  depth : Nat
  depth_le : depth ≤ 16

namespace CallStack

def capacity : Nat := 16

def empty : CallStack := ⟨Vector.replicate 16 0, 0, by omega⟩

/-- The addresses of the open calls, oldest first. -/
def live (s : CallStack) : List UInt16 := s.slots.toList.take s.depth

def push (s : CallStack) (address : UInt16) : Except StackError CallStack :=
  if h : s.depth < 16 then .ok ⟨s.slots.set s.depth address, s.depth + 1, h⟩
  else .error .overflow

/-- The youngest open call and the stack without it. -/
def pop (s : CallStack) : Except StackError (UInt16 × CallStack) :=
  if h : 0 < s.depth then
    have := s.depth_le
    .ok (s.slots[s.depth - 1], ⟨s.slots, s.depth - 1, by omega⟩)
  else .error .underflow

theorem length_live (s : CallStack) : s.live.length = s.depth := by
  have := s.depth_le
  simp only [live, List.length_take, Vector.length_toList]
  omega

theorem push_eq_error_iff (s : CallStack) (a : UInt16) (e : StackError) :
    s.push a = .error e ↔ e = .overflow ∧ s.depth = 16 := by
  have := s.depth_le
  unfold push
  split
  · simp only [reduceCtorEq, false_iff]
    omega
  · constructor
    · rintro ⟨⟩
      exact ⟨rfl, by omega⟩
    · rintro ⟨rfl, _⟩
      rfl

theorem pop_eq_error_iff (s : CallStack) (e : StackError) :
    s.pop = .error e ↔ e = .underflow ∧ s.depth = 0 := by
  unfold pop
  split
  · simp only [reduceCtorEq, false_iff]
    omega
  · constructor
    · rintro ⟨⟩
      exact ⟨rfl, by omega⟩
    · rintro ⟨rfl, _⟩
      rfl

theorem live_push {s t : CallStack} {a : UInt16} (h : s.push a = .ok t) :
    t.live = s.live ++ [a] := by
  unfold push at h
  split at h
  · cases h
    simp only [live, Vector.toList_set]
    rw [List.take_succ_eq_append_getElem (by simpa)]
    simp [List.take_set_of_le]
  · cases h

end CallStack
end Chip8
