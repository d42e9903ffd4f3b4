import Chip8.Proofs.Faults
import Chip8.Proofs.Timers

/-!
# Blocked machines lose nothing

A machine that waits for a key, and one whose stack refuses the instruction, meet the same word in
every cycle. Only the timers go on, until a key is pressed.
-/
namespace Chip8

namespace Machine

/-- A machine that does not get past the word at its program counter, with what its cycles ask for
and report: no key is down for it to take, or the stack refuses the instruction. -/
inductive Blocked (m : Machine) : Request → Option Fault → Prop
  | waiting {x : Register} (word : m.instruction? .step = some (.awaitKey x))
      (keys : ∀ k, m.keypad.get k = false) : Blocked m .wait none
  | refused {e : StackError} (fault : m.step.answer.fault = some (.stack e)) :
      Blocked m .none (some (.stack e))

/-- A machine after `n` cycles in which nothing went on but its timers. -/
def held (m : Machine) (n : Nat) : Machine :=
  { m with
    word := m.memory.fetch m.pc
    delay := m.delay.after n
    sound := m.sound.after n }

/-- Where a blocked machine leaves its program counter: waiting for a key cuts it down to an address,
a refused word does not touch it. -/
def resting (fault : Option Fault) (pc : UInt16) : UInt16 :=
  if fault.isSome then pc else UInt16.ofNat (pc.toNat % 4096)

theorem toNat_resting (fault : Option Fault) (pc : UInt16) :
    (resting fault pc).toNat % 4096 = pc.toNat % 4096 := by
  unfold resting
  split
  · rfl
  · rw [UInt16.toNat_ofNat']
    omega

theorem resting_resting (fault : Option Fault) (pc : UInt16) :
    resting fault (resting fault pc) = resting fault pc := by
  cases fault with
  | some f => rfl
  | none => exact congrArg UInt16.ofNat (toNat_resting none pc)

theorem resting_of_lt (fault : Option Fault) {pc : UInt16} (h : pc.toNat < 4096) :
    resting fault pc = pc := by
  unfold resting
  split
  · rfl
  · rw [Nat.mod_eq_of_lt h, UInt16.ofNat_toNat]

/-- `n` is `m` after `k` ticks and cycles with this fault, or without one, perhaps with another
word. -/
structure Idled (m : Machine) (fault : Option Fault) (n : Machine) (k : Nat) : Prop where
  eq : n = { m with
    word := n.word
    pc := n.pc
    delay := m.delay.after k
    sound := m.sound.after k }
  pc : n.pc = if k = 0 then m.pc else resting fault m.pc

variable {m n : Machine} {request : Request} {fault : Option Fault} {k : Nat}

theorem Idled.refl (m : Machine) (fault : Option Fault) : Idled m fault m 0 :=
  ⟨by rw [Timer.after_zero, Timer.after_zero], rfl⟩

theorem Idled.address (h : Idled m fault n k) : n.pc.toNat % 4096 = m.pc.toNat % 4096 := by
  rw [h.pc]
  split
  · rfl
  · exact toNat_resting fault m.pc

theorem Idled.memory (h : Idled m fault n k) : n.memory = m.memory := by
  rw [h.eq]

theorem Idled.fetch (h : Idled m fault n k) : n.memory.fetch n.pc = m.memory.fetch m.pc := by
  rw [h.memory, m.memory.fetch_mod _ _ h.address]

/-- What blocks a machine is still there after a tick. -/
theorem Idled.blocked (h : Idled m fault n k) (hm : m.Blocked request fault) :
    n.Blocked request fault := by
  cases hm with
  | waiting word keys =>
    refine .waiting (by rwa [instruction?, h.fetch]) ?_
    rw [h.eq]
    exact keys
  | refused hfault =>
    have hstack : n.stack = m.stack := by rw [h.eq]
    rw [step_fault_iff, FaultAt, ← h.fetch, ← hstack] at hfault
    exact .refused ((n.step_fault_iff _).mpr hfault)

theorem Idled.tick (m : Machine) (fault : Option Fault) (word : Word) :
    Idled m fault { m with
      word
      pc := resting fault m.pc
      delay := m.delay.tick
      sound := m.sound.tick } 1 :=
  ⟨by rw [← Timer.tick_eq_after, ← Timer.tick_eq_after], rfl⟩

/-- A cycle of a blocked machine. -/
theorem Blocked.step (h : m.Blocked request fault) :
    m.step.answer = ⟨m.memory.fetch m.pc, request, fault, m.sound.expires⟩ ∧
      Idled m fault m.step.machine 1 ∧ m.step.machine.word = m.memory.fetch m.pc := by
  cases h with
  | @waiting x word keys =>
    have hnone : m.fetch.keypad.lowestDown? = none := m.keypad.lowestDown?_eq_none_iff.mpr keys
    have hrun : m.fetch.execute (.awaitKey x) =
        ⟨{ m.fetch with pc := resting none m.pc }, .ok .wait, []⟩ := by
      simp only [execute, handle, hnone, advance, Advance.apply_stay]
      rfl
    rw [step_answer_of_some word, step_machine_of_some word, hrun]
    exact ⟨rfl, Idled.tick m none _, rfl⟩
  | @refused e hfault =>
    rw [step_fault_iff, FaultAt] at hfault
    cases hi : Instruction.decode? (m.memory.fetch m.pc) with
    | none =>
      rw [decode_of_decode?_none hi] at hfault
      cases hfault
    | some i =>
      rw [decode_of_decode? hi] at hfault
      have hrun : m.fetch.execute i = ⟨m.fetch, .error (.stack e), []⟩ :=
        execute_of_refuses hfault
      rw [step_answer_of_some hi, step_machine_of_some hi, hrun]
      exact ⟨rfl, Idled.tick m (some (.stack e)) _, rfl⟩

theorem Idled.succ {l : Machine} (h : Idled l fault m k) (hnext : Idled m fault n 1) :
    Idled l fault n (k + 1) := by
  refine ⟨?_, ?_⟩
  · rw [hnext.eq, h.eq]
    simp only [Timer.after_after]
  · have hpc : n.pc = resting fault m.pc := hnext.pc
    rw [hpc, h.pc, if_neg (Nat.succ_ne_zero k)]
    split
    · rfl
    · exact resting_resting fault l.pc

theorem run_idled (h : m.Blocked request fault) (n : Nat) : Idled m fault (run n m).machine n := by
  induction n with
  | zero => exact Idled.refl m fault
  | succ n ih =>
    rw [run_succ_machine]
    exact ih.succ (ih.blocked h).step.2.1

/-- All cycles of a blocked machine are the same, but for the one in which the sound stops. -/
theorem run_answer_of_blocked (h : m.Blocked request fault) (n : Nat) :
    (run n m).answer = (List.range n).map fun k =>
      ⟨m.memory.fetch m.pc, request, fault, decide (m.sound.value.toNat = k + 1)⟩ := by
  apply List.ext_getElem
  · rw [length_run, List.length_map, List.length_range]
  · intro k hk hk'
    have hidled := run_idled h k
    have hsound : (run k m).machine.sound = m.sound.after k := by rw [hidled.eq]
    have hexpires : (m.sound.after k).expires = decide (m.sound.value.toNat = k + 1) := by
      rw [Bool.eq_iff_iff, Timer.expires_after, decide_eq_true_iff]
    rw [getElem_run, (hidled.blocked h).step.1, hidled.fetch, hsound, hexpires, List.getElem_map,
      List.getElem_range]

theorem run_machine_of_blocked (h : m.Blocked request fault) {n : Nat} (hn : 1 ≤ n) :
    (run n m).machine = { m.held n with pc := resting fault m.pc } := by
  obtain ⟨n, rfl⟩ := Nat.exists_eq_add_of_le' hn
  have hidled := run_idled h n
  have hlast := run_idled h (n + 1)
  have hword : (run (n + 1) m).machine.word = m.memory.fetch m.pc := by
    rw [run_succ_machine, (hidled.blocked h).step.2.2, hidled.fetch]
  have hpc : (run (n + 1) m).machine.pc = resting fault m.pc :=
    hlast.pc.trans (if_neg (Nat.succ_ne_zero n))
  have heq := hlast.eq
  rwa [hword, hpc] at heq

/-- Once a key is down, a waiting machine takes the lowest one and goes on. -/
theorem step_awaitKey {m : Machine} {x : Register}
    (hword : m.instruction? .step = some (.awaitKey x)) (hkeys : ∃ k, m.keypad.get k = true) :
    ∃ key : Nibble, m.keypad.get key = true ∧ (∀ k < key, m.keypad.get k = false) ∧
      m.step.machine.v x = UInt8.ofNat key.val ∧ m.step.answer.request = .none ∧
      m.step.machine.pc.toNat = (m.pc.toNat + 2) % 4096 := by
  obtain ⟨key, hkey⟩ : ∃ key, m.keypad.lowestDown? = some key := by
    rw [← Option.isSome_iff_exists, Option.isSome_iff_ne_none, ne_eq,
      Keypad.lowestDown?_eq_none_iff]
    obtain ⟨k, hk⟩ := hkeys
    exact fun hnone => Bool.noConfusion ((hnone k).symm.trans hk)
  obtain ⟨hdown, hlowest⟩ := (m.keypad.lowestDown?_eq_some_iff key).mp hkey
  have hfetched : m.fetch.keypad.lowestDown? = some key := hkey
  have hrun : m.fetch.execute (.awaitKey x) =
      ⟨(m.fetch.setRegister x (UInt8.ofNat key.val)).advance .next, .ok .none,
        [.keyStored key x]⟩ := by
    simp only [execute, handle, hfetched]
  refine ⟨key, hdown, hlowest, ?_⟩
  rw [step_machine_of_some hword, step_answer_of_some hword, hrun]
  refine ⟨?_, rfl, Advance.toNat_apply_next m.pc⟩
  have hset : (setAt m.registers x (UInt8.ofNat key.val)).get x = UInt8.ofNat key.val := by
    rw [get_setAt, if_pos rfl]
  exact hset

/-- A blocked machine repeats its cycle and keeps everything but its timers, whose sound stops when
it has to. That holds for the program counter too as long as it lies within the memory, where every
history of commands leaves it (`performAll_addressed`). Beyond, a refused word keeps it all the same
and waiting brings it back to the place in the memory that it stands for. A machine that waits goes
on as soon as a key is down, with the lowest one. -/
theorem blocked_stays_blocked {m : Machine} {request : Request} {fault : Option Fault}
    (h : m.Blocked request fault) {n : Nat} (hn : 1 ≤ n) :
    (run n m).answer = (List.range n).map (fun k =>
        ⟨m.memory.fetch m.pc, request, fault, decide (m.sound.value.toNat = k + 1)⟩) ∧
      (fault.isSome = true → (run n m).machine = m.held n) ∧
      (fault = none →
        (run n m).machine = { m.held n with pc := UInt16.ofNat (m.pc.toNat % 4096) }) ∧
      (m.pc.toNat < 4096 → (run n m).machine = m.held n) ∧
      ∀ x, m.instruction? .step = some (.awaitKey x) →
        ∀ keys : Keypad, (∃ k, keys.get k = true) →
          let woken := ((run n m).machine.perform (.keypad (.setAll keys))).machine.step
          ∃ key : Nibble, keys.get key = true ∧ (∀ k < key, keys.get k = false) ∧
            woken.machine.v x = UInt8.ofNat key.val ∧ woken.answer.request = .none ∧
            woken.machine.pc.toNat = (m.pc.toNat + 2) % 4096 := by
  have hidled := run_idled h n
  have hmachine := run_machine_of_blocked h hn
  refine ⟨run_answer_of_blocked h n, fun hfault => ?_, fun hnone => ?_, fun haddress => ?_, ?_⟩
  · rw [hmachine, resting, if_pos hfault]
    rfl
  · rw [hmachine, hnone]
    rfl
  · rw [hmachine, resting_of_lt fault haddress]
    rfl
  intro x hx keys hkeys woken
  have hword : ((run n m).machine.perform (.keypad (.setAll keys))).machine.instruction? .step =
      some (.awaitKey x) := by
    rw [← hx, instruction?, instruction?, ← hidled.fetch]
    rfl
  obtain ⟨key, hdown, hlowest, hv, hrequest, hpc⟩ := step_awaitKey hword hkeys
  refine ⟨key, hdown, hlowest, hv, hrequest, hpc.trans ?_⟩
  have haddress := hidled.address
  change ((run n m).machine.pc.toNat + 2) % 4096 = _
  omega

/-- A machine that waits for a key at the end of its memory while the sound is on. -/
def waitingAtEnd : Machine :=
  { powerOn 0 with
    memory := Font.memory.writeList 0xFFF [0xF3, 0x0A]
    pc := 0xFFF
    sound := ⟨2⟩ }

theorem blocked_stays_blocked_at_end :
    waitingAtEnd.Blocked .wait none ∧
      (run 3 waitingAtEnd).answer =
        [⟨0xF30A, .wait, none, false⟩, ⟨0xF30A, .wait, none, true⟩, ⟨0xF30A, .wait, none, false⟩] ∧
      (run 3 waitingAtEnd).machine = waitingAtEnd.held 3 := by
  have hfetch : waitingAtEnd.memory.fetch waitingAtEnd.pc = 0xF30A := by decide +kernel
  have hword : waitingAtEnd.instruction? .step = some (.awaitKey 3) := by
    rw [instruction?, hfetch]
    rfl
  have hkeys : ∀ k, waitingAtEnd.keypad.get k = false := by decide
  have hblocked : waitingAtEnd.Blocked .wait none := .waiting hword hkeys
  have haddress : (0xFFF : UInt16).toNat < 4096 := by decide
  obtain ⟨hanswer, _, _, hmachine, _⟩ := @blocked_stays_blocked _ _ _ hblocked 3 (by omega)
  rw [hfetch] at hanswer
  exact ⟨hblocked, hanswer, hmachine haddress⟩

end Machine
end Chip8
