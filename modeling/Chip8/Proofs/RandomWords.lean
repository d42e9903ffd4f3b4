import Chip8.Proofs.Footprint
import Chip8.Proofs.Unrolled

/-!
# Random words in order

The random instructions of a history take the words that follow from the seed one after the other,
and nothing else takes one. The words are those of a reader that goes through the blocks of a key.
-/
namespace Chip8

namespace Generator

/-- A generator with the block that it reads from at hand, and the place of the next word in it. -/
structure Reader where
  key : ChaCha.Key
  number : UInt64
  block : ChaCha.Block
  place : Fin 16

namespace Reader

def start (key : ChaCha.Key) : Reader := ⟨key, 0, ChaCha.block key 0, 0⟩

def word (r : Reader) : UInt32 := r.block.get r.place

/-- The place behind; after the last one the block with the next number is made. -/
def next (r : Reader) : Reader :=
  if r.place = 15 then ⟨r.key, r.number + 1, ChaCha.block r.key (r.number + 1), 0⟩
  else { r with place := r.place + 1 }

/-- A reader that has read `k` words. -/
def after (key : ChaCha.Key) (k : Nat) : Reader :=
  ⟨key, UInt64.ofNat (k / 16), ChaCha.block key (UInt64.ofNat (k / 16)), Fin.ofNat 16 k⟩

theorem next_after (key : ChaCha.Key) (k : Nat) : (after key k).next = after key (k + 1) := by
  unfold next
  split
  case isTrue h =>
    have hlast : k % 16 = 15 := congrArg Fin.val h
    have hnumber : UInt64.ofNat (k / 16) + 1 = UInt64.ofNat ((k + 1) / 16) := by
      rw [show (k + 1) / 16 = k / 16 + 1 by omega, UInt64.ofNat_add]
      rfl
    have hplace : (0 : Fin 16) = Fin.ofNat 16 (k + 1) := by
      apply Fin.ext
      change 0 = (k + 1) % 16
      omega
    simp only [after, hnumber, ← hplace]
  case isFalse h =>
    have hlast : k % 16 ≠ 15 := fun hk => h (Fin.ext hk)
    have hnumber : k / 16 = (k + 1) / 16 := by omega
    have hplace : Fin.ofNat 16 k + 1 = Fin.ofNat 16 (k + 1) := by
      apply Fin.ext
      change (k % 16 + 1) % 16 = (k + 1) % 16
      omega
    simp only [after, ← hnumber, hplace]

theorem repeat_next (key : ChaCha.Key) (k : Nat) : Nat.repeat next k (start key) = after key k := by
  induction k with
  | zero => rfl
  | succ k ih => rw [Nat.repeat, ih, next_after]

end Reader

/-- Reading on from block to block gives the words of the stream in order. -/
theorem word_eq_reader (g : Generator) (k : Nat) :
    g.word k = (Nat.repeat Reader.next k (Reader.start g.key)).word := by
  rw [Reader.repeat_next]
  rfl

theorem toNat_byte (g : Generator) : g.byte.toNat = (g.word g.used).toNat % 256 :=
  UInt32.toNat_toUInt8 _

end Generator

/-- A random instruction that was carried out: its operands and what it left in its register. -/
structure Roll where
  x : Register
  nn : UInt8
  value : UInt8
  deriving DecidableEq

namespace Machine

/-- The random instruction that a command carries out, if it carries out one. -/
def roll? (m : Machine) (c : Command) : Option Roll :=
  match m.instruction? c with
  | some (.random x nn) => some ⟨x, nn, (m.perform c).machine.v x⟩
  | _ => none

/-- The random instructions of a history, in order. -/
def rolls : List Command → Machine → List Roll
  | [], _ => []
  | c :: cs, m => (m.roll? c).toList ++ rolls cs (m.perform c).machine

theorem random_of_roll?_none {m : Machine} {c : Command} (h : m.roll? c = none)
    (hr : c.resets = false) : (m.perform c).machine.random = m.random := by
  cases hi : m.instruction? c with
  | none => exact (perform_of_no_instruction hi hr).2.2.1
  | some i =>
    have hrolls : i.rolls = false := by
      cases i with
      | random x nn =>
        rw [roll?, hi] at h
        cases h
      | _ => rfl
    obtain ⟨word, pc, delay, sound, hm⟩ := perform_of_instruction hi
    rw [hm]
    exact (handled_confined { m with word } i).random hrolls

theorem random_of_roll?_some {m : Machine} {c : Command} {roll : Roll}
    (h : m.roll? c = some roll) :
    (m.perform c).machine.random = m.random.next ∧ roll.value = roll.nn &&& m.random.byte := by
  unfold roll? at h
  split at h
  case h_1 x nn hi =>
    obtain ⟨word, pc, delay, sound, hm⟩ := perform_of_instruction hi
    cases h
    rw [hm]
    refine ⟨rfl, ?_⟩
    simp [v, handled, handle, setRegister, get_setAt]
  case h_2 => cases h

/-- The `j`-th random instruction of a history takes word `j`, counted from those already used, and
as many words are used as random instructions were carried out. -/
theorem performAll_random {cs : List Command} {m : Machine}
    (hr : ∀ c ∈ cs, c.resets = false) :
    (performAll cs m).machine.random =
        ⟨m.random.key, m.random.used + (rolls cs m).length⟩ ∧
      ∀ j roll, (rolls cs m)[j]? = some roll → roll.value.toNat =
        roll.nn.toNat &&& ((m.random.word (m.random.used + j)).toNat % 256) := by
  induction cs generalizing m with
  | nil => exact ⟨rfl, fun j roll h => by simp [rolls] at h⟩
  | cons c cs ih =>
    obtain ⟨hused, hvalues⟩ := ih (m := (m.perform c).machine) fun e he => hr e (by simp [he])
    cases hroll : m.roll? c with
    | none =>
      have hsame := random_of_roll?_none hroll (hr c (by simp))
      rw [hsame] at hused hvalues
      simp only [performAll, rolls, hroll, Option.toList_none, List.nil_append]
      exact ⟨hused, hvalues⟩
    | some first =>
      obtain ⟨hnext, hfirst⟩ := random_of_roll?_some hroll
      rw [hnext] at hused hvalues
      simp only [performAll, rolls, hroll, Option.toList_some, List.singleton_append]
      refine ⟨?_, fun j roll h => ?_⟩
      · rw [hused, List.length_cons, Generator.next, Nat.add_right_comm]
        rfl
      · cases j with
        | zero =>
          cases h
          rw [hfirst, UInt8.toNat_and, Generator.toNat_byte]
          rfl
        | succ j =>
          have hj := hvalues j roll h
          rw [hj, Nat.add_comm j 1, ← Nat.add_assoc]
          rfl

end Machine

namespace Runner

/-- In a history that began with a seed, random instruction number `j` leaves word `j` of the seed's
stream masked in its register, wherever it was carried out; frames, loads, keys, waits, faults and
all other instructions leave the place in the stream alone. -/
theorem rolls_follow_seed {seed : UInt64} {r : Runner} {es : List Event}
    (hstart : r.machine = (Machine.start seed).machine ∨
      ∃ old : Machine, r.machine = (old.reset seed).machine)
    (hes : ∀ e ∈ es, e.resets = false) :
    let key := (Generator.ofSeed seed).key
    let word := fun k => (Nat.repeat Generator.Reader.next k (Generator.Reader.start key)).word
    let commands := es.flatMap (Event.commands r.cyclesPerFrame)
    let rolls := Machine.rolls commands r.machine
    let done := (performAll es r).runner.machine
    done = (Machine.performAll commands r.machine).machine ∧
      (∀ j roll, rolls[j]? = some roll →
        roll.value.toNat = roll.nn.toNat &&& ((word j).toNat % 256)) ∧
      done.random = ⟨key, rolls.length⟩ ∧
      ∀ k, word k = (ChaCha.block key (UInt64.ofNat (k / 16))).get (Fin.ofNat 16 k) := by
  intro key word commands rolls done
  have hrandom : r.machine.random = Generator.ofSeed seed := by
    rcases hstart with h | ⟨old, h⟩
    · rw [h, Machine.start_eq]
      rfl
    · rw [h, Machine.reset_eq_start, Machine.start_eq]
      rfl
  have hcommands : ∀ c ∈ commands, c.resets = false := by
    intro c hc
    obtain ⟨e, he, hce⟩ := List.mem_flatMap.mp hc
    exact resets_of_mem_commands (hes e he) hce
  have hdone : done = (Machine.performAll commands r.machine).machine := performAll_machine es r
  have hword : ∀ k, (Generator.ofSeed seed).word k = word k := Generator.word_eq_reader _
  obtain ⟨hused, hvalues⟩ := Machine.performAll_random hcommands
  rw [hrandom] at hused hvalues
  refine ⟨hdone, fun j roll hj => ?_, ?_, fun k => (hword k).symm⟩
  · rw [hvalues j roll hj, ← hword, Generator.used_ofSeed, Nat.zero_add]
  · rw [hdone, hused, Generator.used_ofSeed, Nat.zero_add]

/-- A frame that takes four words in its eight cycles, then words taken by hand up to the second
block. -/
def dice : List Event :=
  [.command (.load [0xC0, 0xFF, 0x12, 0x00]), .frame (Keypad.allUp.setKey 7 true)] ++
    List.replicate 12 (.command (.handle (.random 3 0))) ++
    [.command (.execute (.random 5 0x0F))]

theorem rolls_follow_seed_into_second_block :
    ∃ value, (Machine.rolls (dice.flatMap (Event.commands 8)) (Machine.powerOn 1))[16]? =
        some ⟨5, 0x0F, value⟩ ∧
      value.toNat =
        (0x0F : UInt8).toNat &&&
          (((ChaCha.block (Generator.ofSeed 1).key 1).get 0).toNat % 256) := by
  have hkept : ∀ e ∈ dice, e.resets = false := by simp [dice, Event.resets, Command.resets]
  obtain ⟨_, hvalues, _, hwords⟩ :=
    @rolls_follow_seed 1 (ofMachine (Machine.powerOn 1)) dice (Or.inl rfl) hkept
  have hlast : ((Machine.rolls (dice.flatMap (Event.commands 8)) (Machine.powerOn 1))[16]?.map
      fun roll => (roll.x, roll.nn)) = some (5, 0x0F) := by decide +kernel
  obtain ⟨⟨x, nn, value⟩, hroll, heq⟩ := Option.map_eq_some_iff.mp hlast
  obtain ⟨rfl, rfl⟩ := Prod.mk.inj heq
  have hplace :
      (ChaCha.block (Generator.ofSeed 1).key (UInt64.ofNat (16 / 16))).get (Fin.ofNat 16 16) =
        (ChaCha.block (Generator.ofSeed 1).key 1).get 0 := rfl
  exact ⟨value, hroll, by rw [hvalues 16 _ hroll, hwords 16, hplace]⟩

end Runner

end Chip8
