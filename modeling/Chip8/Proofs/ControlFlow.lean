import Chip8.Proofs.Calls
import Chip8.Proofs.Faults
import Chip8.Proofs.Grammar

/-!
# Where a program goes on

The word at the program counter and what it asks about settle where a cycle leaves the program
counter. Only jumps, calls, returns, taken skips, waits and refused stack operations go anywhere
but to the next word, and the end of the memory is followed by its start.
-/
namespace Chip8

/-- What the other skip of the same pair asks. -/
def Condition.opposite : Condition → Condition
  | .equalConst x nn => .notEqualConst x nn
  | .notEqualConst x nn => .equalConst x nn
  | .equalRegister x y => .notEqualRegister x y
  | .notEqualRegister x y => .equalRegister x y
  | .pressed x => .released x
  | .released x => .pressed x

theorem Advance.toNat_apply_jump (target pc : UInt16) :
    ((jump target).apply pc).toNat = target.toNat % 4096 := toNat_apply _ _

namespace Machine

/-- Where a return goes on: behind the call it belongs to, or nowhere when no call is open. -/
def returnTarget (m : Machine) : Nat :=
  match m.stack.live.getLast? with
  | some caller => (caller.toNat + 2) % 4096
  | none => m.pc.toNat

def nextWord (m : Machine) : Nat := (m.pc.toNat + 2) % 4096

/-- The word is a skip that is taken. -/
def skips (m : Machine) (w : Word) : Bool :=
  match w.family with
  | 0x3 => m.v w.x = w.nn
  | 0x4 => m.v w.x ≠ w.nn
  | 0x5 => w.n = 0 ∧ m.v w.x = m.v w.y
  | 0x9 => w.n = 0 ∧ m.v w.x ≠ m.v w.y
  | 0xE =>
    let down := m.keypad[(m.v w.x).toNat % 16]
    w.nn = 0x9E ∧ down = true ∨ w.nn = 0xA1 ∧ down = false
  | _ => false

/-- Where the program goes on from a word at the program counter. -/
def successor (m : Machine) (w : Word) : Nat :=
  match w.family with
  | 0x0 =>
    if w.nnn = 0x0E0 then m.nextWord
    else if w.nnn = 0x0EE then m.returnTarget
    else w.nnn.toNat
  | 0x1 => w.nnn.toNat
  | 0x2 => if m.stack.depth < 16 then w.nnn.toNat else m.pc.toNat
  | 0xB => (w.nnn.toNat + (m.v 0).toNat) % 4096
  | 0xF => if w.nn = 0x0A ∧ ∀ k, m.keypad.get k = false then m.pc.toNat else m.nextWord
  | _ => if m.skips w then (m.pc.toNat + 4) % 4096 else m.nextWord

/-- The same for an instruction. Its operands may be larger than in a word. -/
def target (m : Machine) : Instruction → Nat
  | .ret => m.returnTarget
  | .machineCall nnn | .jump nnn => nnn.toNat % 4096
  | .call nnn => if m.stack.depth < 16 then nnn.toNat % 4096 else m.pc.toNat
  | .jumpOffset nnn => (nnn.toNat + (m.v 0).toNat) % 4096
  | .skip c => if m.holds c then (m.pc.toNat + 4) % 4096 else m.nextWord
  | .awaitKey _ => if ∀ k, m.keypad.get k = false then m.pc.toNat else m.nextWord
  | _ => m.nextWord

/-! ### From an instruction -/

theorem execute_pc_of_ok {m : Machine} {i : Instruction} {e : Effect} (h : m.handle i = .ok e) :
    (m.execute i).machine.pc = e.advance.apply m.pc := by
  have hpc := (m.handled_framed i).pc
  simp only [handled, h] at hpc
  simp only [execute, h, advance, hpc]

theorem execute_ret_pc (m : Machine) : (m.execute .ret).machine.pc.toNat = m.returnTarget := by
  rcases Nat.eq_zero_or_pos m.stack.depth with hempty | hpos
  · have hlive : m.stack.live = [] := by rwa [← List.length_eq_zero_iff, CallStack.length_live]
    rw [execute_of_refuses (.ret hempty), returnTarget, hlive]
    rfl
  · obtain ⟨caller, rest, hp⟩ := CallStack.pop_of_pos hpos
    have hdone : m.Executes .ret (.execute .ret) := rfl
    rw [returnTarget, CallStack.live_pop hp, List.getLast?_concat]
    exact (executes_ret hdone hp).2.2

theorem execute_call_pc (m : Machine) (nnn : UInt16) :
    (m.execute (.call nnn)).machine.pc.toNat =
      if m.stack.depth < 16 then nnn.toNat % 4096 else m.pc.toNat := by
  by_cases hroom : m.stack.depth < 16
  · obtain ⟨stack, hp⟩ := CallStack.push_of_lt hroom m.pc
    have hdone : m.handle (.call nnn) =
        .ok { machine := { m with stack }, advance := .jump nnn, log := [.called nnn m.pc] } := by
      simp only [handle, hp]
    rw [execute_pc_of_ok hdone, Advance.toNat_apply_jump, if_pos hroom]
  · have hfull : m.stack.depth = 16 := Nat.le_antisymm m.stack.depth_le (Nat.le_of_not_lt hroom)
    rw [execute_of_refuses (.call hfull), if_neg hroom]

theorem execute_skip_pc (m : Machine) (c : Condition) :
    (m.execute (.skip c)).machine.pc.toNat =
      if m.holds c then (m.pc.toNat + 4) % 4096 else m.nextWord := by
  have hpc : (m.execute (.skip c)).machine.pc = (Advance.skipIf (m.holds c)).apply m.pc := rfl
  rw [hpc, Advance.skipIf]
  split
  · exact Advance.toNat_apply_skip m.pc
  · exact Advance.toNat_apply_next m.pc

theorem execute_awaitKey_pc {m : Machine} (hpc : m.pc.toNat < 4096) (x : Register) :
    (m.execute (.awaitKey x)).machine.pc.toNat =
      if ∀ k, m.keypad.get k = false then m.pc.toNat else m.nextWord := by
  cases hk : m.keypad.lowestDown? with
  | none =>
    have hwait : m.handle (.awaitKey x) =
        .ok { machine := m, advance := .stay, request := .wait } := by
      simp only [handle, hk]
    rw [execute_pc_of_ok hwait, if_pos (m.keypad.lowestDown?_eq_none_iff.mp hk),
      Advance.toNat_apply]
    exact Nat.mod_eq_of_lt hpc
  | some key =>
    have hdown : ¬ ∀ k, m.keypad.get k = false := by
      rw [← Keypad.lowestDown?_eq_none_iff, hk]
      exact Option.some_ne_none key
    have htaken : m.handle (.awaitKey x) =
        .ok { machine := m.setRegister x (UInt8.ofNat key.val), log := [.keyStored key x] } := by
      simp only [handle, hk]
    rw [execute_pc_of_ok htaken, if_neg hdown]
    exact Advance.toNat_apply_next m.pc

theorem execute_pc_eq_target {m : Machine} (hpc : m.pc.toNat < 4096) (i : Instruction) :
    (m.execute i).machine.pc.toNat = m.target i := by
  cases i with
  | ret => exact m.execute_ret_pc
  | call nnn => exact m.execute_call_pc nnn
  | machineCall nnn | jump nnn => exact Advance.toNat_apply_jump nnn m.pc
  | jumpOffset nnn =>
    -- the sum may leave sixteen bits, and only its low twelve bits count
    have hjump := Advance.toNat_apply_jump (nnn + (m.v Registers.first).toUInt16) m.pc
    rw [UInt16.toNat_add] at hjump
    refine hjump.trans ?_
    simp only [UInt8.toNat_toUInt16, target]
    change (nnn.toNat + (m.v 0).toNat) % 65536 % 4096 = _
    omega
  | skip c => exact m.execute_skip_pc c
  | awaitKey x => exact execute_awaitKey_pc hpc x
  | _ => exact Advance.toNat_apply_next m.pc

/-! ### From a word -/

theorem target_ofFamily0 (m : Machine) {nnn : UInt16} (h : nnn.toNat < 4096) :
    m.target (Instruction.ofFamily0 nnn) =
      if nnn = 0x0E0 then m.nextWord else if nnn = 0x0EE then m.returnTarget else nnn.toNat := by
  unfold Instruction.ofFamily0
  split
  · rfl
  · split
    · rfl
    · exact Nat.mod_eq_of_lt h

theorem target_ofFamilyE? {m : Machine} {w : Word} {i : Instruction} (hw : w.family = 0xE)
    (h : Instruction.ofFamilyE? w.x w.nn = some i) :
    m.target i = if m.skips w then (m.pc.toNat + 4) % 4096 else m.nextWord := by
  unfold Instruction.ofFamilyE? at h
  split at h
  case h_1 hnn =>
    cases h
    have hskip : m.skips w = m.holds (.pressed w.x) := by
      simp [skips, hw, hnn, holds, Keypad.isDown]
    rw [hskip, target]
  case h_2 hnn =>
    cases h
    have hskip : m.skips w = m.holds (.released w.x) := by
      simp [skips, hw, hnn, holds, Keypad.isDown]
    rw [hskip, target]
  case h_3 => cases h

theorem target_ofFamilyF? {m : Machine} {w : Word} {i : Instruction}
    (h : Instruction.ofFamilyF? w.x w.nn = some i) :
    m.target i =
      if w.nn = 0x0A ∧ ∀ k, m.keypad.get k = false then m.pc.toNat else m.nextWord := by
  unfold Instruction.ofFamilyF? at h
  split at h <;> cases h
  all_goals simp_all [target]

/-- A word goes on where its instruction does. -/
theorem successor_eq_target {w : Word} {i : Instruction} (m : Machine)
    (h : Instruction.decode? w = some i) : m.successor w = m.target i := by
  have hnnn : w.nnn.toNat < 4096 := by
    rw [Word.toNat_nnn]
    omega
  unfold Instruction.decode? at h
  split at h
  case h_1 hw =>
    cases h
    simp only [successor, hw, m.target_ofFamily0 hnnn]
  case h_2 hw | h_3 hw | h_12 hw =>
    cases h
    simp only [successor, hw, target, Nat.mod_eq_of_lt hnnn]
  case h_4 hw | h_5 hw =>
    cases h
    simp [successor, skips, hw, target, holds]
  case h_6 hw | h_10 hw =>
    split at h
    case isTrue hn =>
      cases h
      have hzero : w.n = 0 := Fin.ext hn
      simp [successor, skips, hw, hzero, target, holds]
    case isFalse => cases h
  case h_7 hw | h_8 hw | h_11 hw | h_13 hw | h_14 hw =>
    cases h
    simp [successor, skips, hw, target]
  case h_9 hw =>
    obtain ⟨op, _, rfl⟩ := Option.map_eq_some_iff.mp h
    simp [successor, skips, hw, target]
  case h_15 hw =>
    simp only [successor, hw]
    exact (target_ofFamilyE? hw h).symm
  case h_16 =>
    have hw : w.family = 0xF := by grind
    simp only [successor, hw]
    exact (target_ofFamilyF? h).symm

/-- A word that is no instruction is passed over. -/
theorem successor_eq_nextWord {w : Word} (m : Machine) (h : Instruction.decode? w = none) :
    m.successor w = m.nextWord := by
  unfold Instruction.decode? at h
  split at h
  case h_6 hw | h_10 hw =>
    have hn : w.n ≠ 0 := by
      rintro hzero
      simp [hzero] at h
    simp [successor, skips, hw, hn]
  case h_9 hw => simp [successor, skips, hw]
  case h_15 hw =>
    have hpressed : w.nn ≠ 0x9E := by
      intro hnn
      simp [hnn, Instruction.ofFamilyE?] at h
    have hreleased : w.nn ≠ 0xA1 := by
      intro hnn
      simp [hnn, Instruction.ofFamilyE?] at h
    simp [successor, skips, hw, hpressed, hreleased]
  case h_16 =>
    have hw : w.family = 0xF := by grind
    have hawait : w.nn ≠ 0x0A := by
      intro hnn
      simp [hnn, Instruction.ofFamilyF?] at h
    simp [successor, hw, hawait]
  all_goals cases h

theorem step_pc_eq_successor {m : Machine} (hpc : m.pc.toNat < 4096) :
    m.step.machine.pc.toNat = m.successor (m.memory.fetch m.pc) := by
  cases hi : Instruction.decode? (m.memory.fetch m.pc) with
  | none =>
    rw [step_machine_of_none hi, m.successor_eq_nextWord hi]
    exact Advance.toNat_apply_next m.pc
  | some i =>
    rw [step_machine_of_some hi, m.successor_eq_target hi]
    exact execute_pc_eq_target (m := m.fetch) hpc i

/-! ### Pairs of skips -/

theorem holds_opposite (m : Machine) (c : Condition) : m.holds c.opposite = !m.holds c := by
  cases c <;> simp [Condition.opposite, holds, bne]

theorem holds_congr {m n : Machine} (hv : n.registers = m.registers) (hk : n.keypad = m.keypad)
    (c : Condition) : n.holds c = m.holds c := by
  have hread : ∀ x, n.v x = m.v x := fun x => congrArg (fun v : Registers => v.get x) hv
  cases c <;> simp only [holds, hread, hk]

theorem decode?_encode_skip (c : Condition) : Instruction.decode? c.encode = some (.skip c) :=
  Instruction.decode?_encode (i := .skip c) trivial (by simp) (by simp)

theorem step_skip_pc_iff {m : Machine} {c : Condition} (hc : m.memory.fetch m.pc = c.encode) :
    m.step.machine.pc.toNat = (m.pc.toNat + 4) % 4096 ↔ m.holds c = true := by
  have hi : Instruction.decode? (m.memory.fetch m.pc) = some (.skip c) := by
    rw [hc, decode?_encode_skip]
  have hpc : m.step.machine.pc.toNat =
      if m.holds c then (m.pc.toNat + 4) % 4096 else m.nextWord := by
    rw [step_machine_of_some hi]
    exact m.fetch.execute_skip_pc c
  rw [hpc]
  constructor
  · intro hfour
    by_contra hfails
    rw [if_neg hfails, nextWord] at hfour
    -- two and four places on are different places, also around the end
    omega
  · exact fun hholds => if_pos hholds

/-- A cycle goes on where the table of words says, and of two skips of a pair that meet the same
registers and keys exactly one goes over the next word. -/
theorem step_follows_word {m : Machine} (hpc : m.pc.toNat < 4096) :
    m.step.machine.pc.toNat = m.successor (m.memory.fetch m.pc) ∧
      ∀ (c : Condition) (other : Machine), m.memory.fetch m.pc = c.encode →
        other.memory.fetch other.pc = c.opposite.encode →
        other.registers = m.registers → other.keypad = m.keypad →
        (m.step.machine.pc.toNat = (m.pc.toNat + 4) % 4096 ↔
          ¬ other.step.machine.pc.toNat = (other.pc.toNat + 4) % 4096) := by
  refine ⟨step_pc_eq_successor hpc, fun c other hc hother hregisters hkeypad => ?_⟩
  rw [step_skip_pc_iff hc, step_skip_pc_iff hother, holds_opposite,
    holds_congr hregisters hkeypad]
  simp

/-- A machine that meets the word in the last place of its memory. -/
def atLastWord (w : Word) : Machine :=
  { powerOn 0 with
    memory := Font.memory.writeList 0xFFE w.bytes
    pc := 0xFFE }

theorem fetch_atLastWord (w : Word) : (atLastWord w).memory.fetch (atLastWord w).pc = w := by
  have hlength : w.bytes.length = 2 := rfl
  have hhigh := Font.memory.read_writeList 0xFFE 0 w.bytes (by omega) (by omega)
  have hlow := Font.memory.read_writeList 0xFFE 1 w.bytes (by omega) (by omega)
  have hbytes := (Font.memory.writeList 0xFFE w.bytes).bytes_fetch (a := 0xFFE) (by omega)
  rw [hlow, ← Nat.add_zero 0xFFE, hhigh] at hbytes
  exact Word.bytes_inj hbytes

theorem step_follows_last_word :
    (atLastWord 0x3000).pc.toNat < 4096 ∧
      (atLastWord 0x3000).step.machine.pc.toNat = 2 ∧
      (atLastWord 0x4000).step.machine.pc.toNat ≠ 2 := by
  have hpc : (atLastWord 0x3000).pc.toNat < 4096 := by simp [atLastWord]
  have hskip : (atLastWord 0x3000).memory.fetch (atLastWord 0x3000).pc =
      (Condition.equalConst 0 0).encode := fetch_atLastWord _
  have hopposite : (atLastWord 0x4000).memory.fetch (atLastWord 0x4000).pc =
      (Condition.equalConst 0 0).opposite.encode := fetch_atLastWord _
  obtain ⟨hstep, hpair⟩ := step_follows_word hpc
  have hover : (atLastWord 0x3000).step.machine.pc.toNat = 2 := by
    rw [hstep, hskip]
    rfl
  exact ⟨hpc, hover, (hpair _ _ hskip hopposite rfl rfl).mp hover⟩

end Machine
end Chip8
