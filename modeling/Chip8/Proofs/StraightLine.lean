import Chip8.Proofs.Effects

/-!
# Straight-line programs

A program without jumps, skips, calls, waits and writes to memory runs like the list of its words:
the cycles take one word after the other, each does what its instruction does by itself, and a word
that is no instruction does nothing.
-/
namespace Chip8

/-- The instructions that go on with the next word and leave the memory alone. -/
def Instruction.straight : Instruction → Bool
  | .clear | .setConst .. | .addConst .. | .arithmetic .. | .setIndex _ | .random .. | .draw ..
  | .getDelay _ | .setDelay _ | .setSound _ | .addIndex _ | .indexGlyph _ | .fillRegisters _ => true
  | _ => false

namespace Word

/-- The word stands for such an instruction, or for none at all. -/
def straight (w : Word) : Bool := (Instruction.decode? w).all Instruction.straight

/-- What is reported about the word when it is no instruction. -/
def fault? (w : Word) : Option Fault :=
  if (Instruction.decode? w).isNone then some (.opcode ⟨w⟩) else none

theorem ofBytes_bytes (w : Word) : ofBytes (UInt8.ofNat (w.toNat / 256)) w.nn = w :=
  bytes_inj (bytes_ofBytes _ _)

theorem length_flatMap_bytes (ws : List Word) : (ws.flatMap bytes).length = 2 * ws.length := by
  induction ws with
  | nil => rfl
  | cons w ws ih =>
    rw [List.flatMap_cons, List.length_append, ih, List.length_cons]
    simp only [bytes, List.length_cons, List.length_nil]
    omega

end Word

namespace Memory

/-- The words lie in the memory one after the other, the first one at the address. -/
def Holds (m : Memory) (a : Nat) : List Word → Prop
  | [] => True
  | w :: ws => Word.ofBytes (m.read a) (m.read (a + 1)) = w ∧ m.Holds (a + 2) ws

theorem holds_of_read {m : Memory} {a : Nat} {ws : List Word}
    (h : ∀ k b, (ws.flatMap Word.bytes)[k]? = some b → m.read (a + k) = b) : m.Holds a ws := by
  induction ws generalizing a with
  | nil => trivial
  | cons w ws ih =>
    have hhigh : m.read a = UInt8.ofNat (w.toNat / 256) := h 0 _ rfl
    have hlow : m.read (a + 1) = w.nn := h 1 _ rfl
    refine ⟨?_, ih fun k b hk => ?_⟩
    · rw [hhigh, hlow, Word.ofBytes_bytes]
    · have hnext := h (k + 2) b hk
      rwa [Nat.add_comm k 2, ← Nat.add_assoc] at hnext

theorem holds_writeList (m : Memory) (a : Nat) {ws : List Word} (h : 2 * ws.length ≤ 4096) :
    (m.writeList a (ws.flatMap Word.bytes)).Holds a ws := by
  have hlen := Word.length_flatMap_bytes ws
  refine holds_of_read fun k b hk => ?_
  obtain ⟨hlt, rfl⟩ := List.getElem?_eq_some_iff.mp hk
  exact m.read_writeList a k _ hlt (hlen ▸ h)

theorem Holds.take {m : Memory} {a : Nat} {ws : List Word} (h : m.Holds a ws) (n : Nat) :
    m.Holds a (ws.take n) := by
  induction ws generalizing a n with
  | nil => rwa [List.take_nil]
  | cons w ws ih =>
    cases n with
    | zero => trivial
    | succ n => exact ⟨h.1, ih h.2 n⟩

theorem fetch_ofNat (m : Memory) (a : Nat) :
    m.fetch (UInt16.ofNat (a % 4096)) = Word.ofBytes (m.read a) (m.read (a + 1)) := by
  have hnat : (UInt16.ofNat (a % 4096)).toNat = a % 4096 := by
    rw [UInt16.toNat_ofNat']
    omega
  have hnext : m.read (a % 4096 + 1) = m.read (a + 1) := m.read_congr (Nat.mod_add_mod a 4096 1)
  rw [fetch, hnat, hnext, read_mod]

end Memory

namespace Machine

/-- The same machine elsewhere in its program. -/
def place (m : Machine) (pc : UInt16) (word : Word) : Machine := { m with pc, word }

/-- What a word does by itself: its instruction is carried out, if there is one, and the timers
tick. -/
def process (m : Machine) (w : Word) : Machine :=
  match Instruction.decode? w with
  | some i => (m.handled i).machine.tick
  | none => m.tick

theorem handle_place (m : Machine) (pc : UInt16) (word : Word) {i : Instruction}
    (hi : i.straight = true) :
    ∃ e, m.handle i = .ok e ∧
      (m.place pc word).handle i = .ok { e with machine := e.machine.place pc word } ∧
      e.advance = .next ∧ e.machine.memory = m.memory := by
  cases i with
  | ret | machineCall nnn | jump nnn | call nnn | skip c | jumpOffset nnn | awaitKey x
  | storeDigits x | storeRegisters x => cases hi
  | _ => exact ⟨_, rfl, rfl, rfl, rfl⟩

theorem process_memory (m : Machine) {w : Word} (hw : w.straight = true) :
    (m.process w).memory = m.memory := by
  unfold process
  cases hi : Instruction.decode? w with
  | none => rfl
  | some i =>
    rw [Word.straight, hi] at hw
    obtain ⟨e, he, _, _, hmemory⟩ := m.handle_place m.pc m.word hw
    simp only [handled, he]
    exact hmemory

theorem step_place {m : Machine} {pc : UInt16} {w : Word} (word : Word)
    (hfetch : m.memory.fetch pc = w) (hw : w.straight = true) :
    (m.place pc word).step.machine = (m.process w).place (Advance.next.apply pc) w ∧
      (m.place pc word).step.answer.word = w ∧
      (m.place pc word).step.answer.fault = w.fault? := by
  have hplace : (m.place pc word).memory.fetch (m.place pc word).pc = w := hfetch
  have hnoted : (m.place pc word).fetch = m.place pc w := by
    rw [fetch, hplace]
    rfl
  cases hi : Instruction.decode? w with
  | none =>
    rw [← hplace] at hi
    rw [step_machine_of_none hi, step_answer_of_none hi, hnoted, process, Word.fault?, ← hplace, hi]
    exact ⟨rfl, rfl, rfl⟩
  | some i =>
    have hs : i.straight = true := by rwa [Word.straight, hi] at hw
    obtain ⟨e, he, hmoved, hnext, _⟩ := m.handle_place pc w hs
    have hfault : w.fault? = none := by rw [Word.fault?, hi]; rfl
    have hdone : (m.process w) = e.machine.tick := by
      simp only [process, hi, handled, he]
    rw [← hplace] at hi
    rw [step_machine_of_some hi, step_answer_of_some hi, hnoted, hfault, hdone]
    simp only [execute, hmoved, hnext]
    exact ⟨rfl, hplace, rfl⟩

/-- The cycles over words that lie from `a` on, one by one against the list. -/
theorem run_place {P : List Word} {m : Machine} {a : Nat} (word : Word)
    (hP : ∀ w ∈ P, w.straight = true) (hold : m.memory.Holds a P) :
    let ran := run P.length (m.place (UInt16.ofNat (a % 4096)) word)
    ran.answer.map (fun c => (c.word, c.fault)) = P.map (fun w => (w, w.fault?)) ∧
      ran.machine = (P.foldl process m).place (UInt16.ofNat ((a + 2 * P.length) % 4096))
        (P.getLastD word) := by
  induction P generalizing m a word with
  | nil => exact ⟨rfl, rfl⟩
  | cons w ws ih =>
    have hw : w.straight = true := hP w (by simp)
    have hfetch : m.memory.fetch (UInt16.ofNat (a % 4096)) = w := by
      rw [Memory.fetch_ofNat, hold.1]
    obtain ⟨hmachine, hword, hfault⟩ := step_place word hfetch hw
    have hnext : Advance.next.apply (UInt16.ofNat (a % 4096)) = UInt16.ofNat ((a + 2) % 4096) := by
      rw [Advance.apply_next, UInt16.toNat_ofNat']
      congr 1
      omega
    -- no word of the program changes the words behind it
    have hrest : (m.process w).memory.Holds (a + 2) ws := m.process_memory hw ▸ hold.2
    obtain ⟨hanswers, hend⟩ := ih w (fun v hv => hP v (by simp [hv])) hrest
    rw [← hnext, ← hmachine] at hanswers hend
    have hbehind : a + 2 + 2 * ws.length = a + 2 * (ws.length + 1) := by omega
    refine ⟨?_, ?_⟩
    · simp only [run, List.length_cons, List.map_cons, hanswers, hword, hfault]
    · simp only [run, List.length_cons, List.foldl_cons, List.getLastD_cons, hend]
      rw [hbehind]

/-- A straight-line program that fills at most the program area, loaded and run for its first `n`
words: the cycles report these words, and the machine is the one that they make one after the other,
with the program counter behind them. -/
theorem straight_program_runs_as_list {m : Machine} {P : List Word} {n : Nat}
    (hsize : P.length ≤ 1792) (hP : ∀ w ∈ P, w.straight = true) (hpc : m.pc = 0x200)
    (hn : n ≤ P.length) :
    let loaded := (m.load (P.flatMap Word.bytes)).machine
    let ran := run n loaded
    (m.load (P.flatMap Word.bytes)).answer = .ok () ∧
      ran.answer.map (fun c => (c.word, c.fault)) = (P.take n).map (fun w => (w, w.fault?)) ∧
      ran.machine = ((P.take n).foldl process loaded).place
        (UInt16.ofNat ((0x200 + 2 * n) % 4096)) ((P.take n).getLastD loaded.word) := by
  have hfits : (P.flatMap Word.bytes).length ≤ Memory.programCapacity := by
    rw [Word.length_flatMap_bytes]
    exact Nat.mul_le_mul_left 2 hsize
  have hload : m.load (P.flatMap Word.bytes) = ⟨{ m with memory := _ }, .ok (), _⟩ := if_pos hfits
  intro loaded ran
  have hold : loaded.memory.Holds 0x200 (P.take n) := by
    have hall : 2 * P.length ≤ 4096 := by omega
    have hmemory := m.memory.holds_writeList Memory.programStart hall
    simp only [loaded, hload]
    exact hmemory.take n
  have hstart : loaded.place (UInt16.ofNat (0x200 % 4096)) loaded.word = loaded := by
    simp only [loaded, hload, place]
    rw [hpc]
    rfl
  have hlength : (P.take n).length = n := List.length_take_of_le hn
  have hrun := run_place loaded.word (fun w hw => hP w (List.mem_of_mem_take hw)) hold
  rw [hstart, hlength] at hrun
  exact ⟨by rw [hload], hrun⟩

/-- Sets a register, starts a beep with it, has a word of no instruction, draws a random byte and
then a sprite. -/
def medley : List Word := [0x6005, 0xF018, 0x5001, 0xC1FF, 0xD005]

theorem straight_program_runs_as_list_over_gap :
    let loaded := ((powerOn 0).load (medley.flatMap Word.bytes)).machine
    let ran := run 4 loaded
    ran.answer.map (fun c => (c.word, c.fault)) =
        [(0x6005, none), (0xF018, none), (0x5001, some (.opcode ⟨0x5001⟩)), (0xC1FF, none)] ∧
      ran.machine = ([0x6005, 0xF018, 0x5001, 0xC1FF].foldl process loaded).place 0x208 0xC1FF := by
  have hfits : medley.length ≤ 1792 := by simp [medley]
  have hstraight : ∀ w ∈ medley, w.straight = true := List.all_eq_true.mp rfl
  have hprefix : 4 ≤ medley.length := by simp [medley]
  obtain ⟨_, hanswers, hmachine⟩ :=
    @straight_program_runs_as_list (powerOn 0) medley 4 hfits hstraight rfl hprefix
  exact ⟨hanswers, hmachine⟩

end Machine
end Chip8
