/-!
# Slots

Reading and writing vectors at indices that are in range by their type. Beside it stand accesses to
bare arrays, sums and differences that fail where there is no answer, and loops over them: a loop
that is known to go through the states `f 0`, `f 1`, ... never fails.
-/
namespace Chip8

/-- A numeral for a key, a register or a slot rests on sixteen not being zero. Under this name the
proof is one and the same in all modules, where it would else be a nameless lemma of each of them.
The zero is written out because Mathlib has another one to offer. -/
instance neZero_sixteen : @NeZero Nat Zero.ofOfNat0 16 := ⟨by decide⟩

def setAt {α : Type} {n : Nat} (v : Vector α n) (i : Fin n) (a : α) : Vector α n := v.set i a

theorem get_eq_getElem {α : Type} {n : Nat} (v : Vector α n) (i : Fin n) : v.get i = v[i.val] := rfl

theorem get_setAt {α : Type} {n : Nat} (v : Vector α n) (i k : Fin n) (a : α) :
    (setAt v i a).get k = if i = k then a else v.get k := by
  simp [setAt, get_eq_getElem, Vector.getElem_set, Fin.ext_iff]

theorem setAt_get {α : Type} {n : Nat} (v : Vector α n) (i : Fin n) : setAt v i (v.get i) = v :=
  Vector.set_getElem_self i.isLt

theorem ext_get {α : Type} {n : Nat} {v w : Vector α n} (h : ∀ k, v.get k = w.get k) : v = w := by
  apply Vector.ext
  intro i hi
  exact h ⟨i, hi⟩

namespace Checked

inductive Trap
  | index (position size : Nat)
  | sum
  | difference
  deriving DecidableEq

def get {α : Type} {n : Nat} (v : Vector α n) (i : Nat) : Except Trap α :=
  if h : i < n then .ok v[i] else .error (.index i n)

def put {α : Type} {n : Nat} (v : Vector α n) (i : Nat) (a : α) : Except Trap (Vector α n) :=
  if h : i < n then .ok (v.set i a) else .error (.index i n)

def addWord (a b : UInt16) : Except Trap UInt16 :=
  if a.toNat + b.toNat < 65536 then .ok (a + b) else .error .sum

def subNat (a b : Nat) : Except Trap Nat := if b ≤ a then .ok (a - b) else .error .difference

def subByte (a b : UInt8) : Except Trap UInt8 := if b ≤ a then .ok (a - b) else .error .difference

/-- The body for 0, 1, 2, ... below the bound. -/
def loop {σ : Type} (body : Nat → σ → Except Trap σ) : Nat → σ → Except Trap σ
  | 0, s => .ok s
  | n + 1, s => loop body n s >>= body n

@[simp] theorem ok_bind {α β : Type} (a : α) (f : α → Except Trap β) :
    (Except.ok a >>= f) = f a := rfl

@[simp] theorem pure_eq_ok {α : Type} (a : α) : (pure a : Except Trap α) = .ok a := rfl

/-- What went through went through both parts. -/
theorem exists_of_bind_eq_ok {α β : Type} {x : Except Trap α} {f : α → Except Trap β} {b : β}
    (h : (x >>= f) = .ok b) : ∃ a, x = .ok a ∧ f a = .ok b := by
  cases x with
  | error trap => cases h
  | ok a => exact ⟨a, rfl, h⟩

theorem get_of_lt {α : Type} {n i : Nat} (v : Vector α n) (h : i < n) : get v i = .ok v[i] := by
  rw [get, dif_pos h]

theorem put_of_lt {α : Type} {n i : Nat} (v : Vector α n) (h : i < n) (a : α) :
    put v i a = .ok (v.set i a) := by
  rw [put, dif_pos h]

@[simp] theorem get_val {α : Type} {n : Nat} (v : Vector α n) (i : Fin n) :
    get v i.val = .ok (v.get i) := get_of_lt v i.isLt

@[simp] theorem put_val {α : Type} {n : Nat} (v : Vector α n) (i : Fin n) (a : α) :
    put v i.val a = .ok (setAt v i a) := put_of_lt v i.isLt a

/-- The rule for loops: `f k` is the state before the body runs for `k`. -/
theorem loop_of_steps {σ : Type} {body : Nat → σ → Except Trap σ} {n : Nat} (f : Nat → σ)
    (h : ∀ k < n, body k (f k) = .ok (f (k + 1))) : loop body n (f 0) = .ok (f n) := by
  induction n with
  | zero => rfl
  | succ n ih =>
    rw [loop, ih fun k hk => h k (by omega), ok_bind]
    exact h n (by omega)

end Checked
end Chip8
