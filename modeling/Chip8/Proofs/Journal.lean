import Chip8.Proofs.Calls
import Chip8.Proofs.Faults
import Chip8.Proofs.Grammar
import Chip8.Proofs.Tone
import Chip8.Proofs.Wording

/-!
# The log tells what happened

A cycle reports the word that it fetched, then the jump, the call, the return or the key that the
word brought about, or else what was wrong with it. Over a frame these reports keep step with the
cycles, the faults and the calls for the tone.
-/
namespace Chip8

namespace Diagnostic

/-- The word of a report about fetching. -/
def fetched? : Diagnostic → Option Word
  | .fetched w _ => some w
  | _ => none

/-- The fault of a warning about a bad word. -/
def fault? : Diagnostic → Option Fault
  | .badWord _ _ f => some f
  | _ => none

/-- The call that a report about the tone goes with. -/
def toneCall? : Diagnostic → Option DeviceCall
  | .soundOn => some .startSound
  | .soundOff => some .stopSound
  | _ => none

theorem level_eq_trace_iff (d : Diagnostic) : d.level = .trace ↔ d.fetched?.isSome = true := by
  cases d <;> simp [level, fetched?]

theorem level_of_toneCall? (d : Diagnostic) (h : d.toneCall?.isSome = true) : d.level = .debug := by
  cases d with
  | soundOn | soundOff => rfl
  | _ => cases h

end Diagnostic

theorem filterMap_toList {α β : Type} (o : Option α) (f : α → Option β) :
    o.toList.filterMap f = (o.bind f).toList := by
  cases o with
  | none => rfl
  | some a => cases h : f a <;> simp [h]

namespace Machine

/-- What a cycle at `m` notes about the word that it carries out. -/
inductive Notes (m : Machine) (w : Word) : Diagnostic → Prop
  | returned {caller : UInt16} (word : w = 0x00EE)
      (youngest : m.stack.live.getLast? = some caller) : Notes m w (.returned caller)
  | machineCall (family : w.family = 0x0) (clear : w ≠ 0x00E0) (ret : w ≠ 0x00EE) :
      Notes m w (.machineCall w.nnn)
  | jumped (family : w.family = 0x1) : Notes m w (.jumped w.nnn)
  | called (family : w.family = 0x2) (room : m.stack.depth < 16) : Notes m w (.called w.nnn m.pc)
  | keyStored {key : Nibble} (family : w.family = 0xF) (byte : w.nn = 0x0A)
      (down : m.keypad.get key = true) (lowest : ∀ k < key, m.keypad.get k = false) :
      Notes m w (.keyStored key w.x)

/-- A note is neither about fetching nor about a fault nor about the tone. -/
theorem Notes.apart {m : Machine} {w : Word} {d : Diagnostic} (h : m.Notes w d) :
    d.level = .debug ∧ d.fetched? = none ∧ d.fault? = none ∧ d.toneCall? = none := by
  cases h <;> exact ⟨rfl, rfl, rfl, rfl⟩

/-- The same for an instruction. -/
def note? (m : Machine) : Instruction → Option Diagnostic
  | .ret => m.stack.live.getLast?.map .returned
  | .machineCall nnn => some (.machineCall nnn)
  | .jump nnn => some (.jumped nnn)
  | .call nnn => if m.stack.depth < 16 then some (.called nnn m.pc) else none
  | .awaitKey x => m.keypad.lowestDown?.map fun key => .keyStored key x
  | _ => none

/-! ### From an instruction -/

theorem execute_log (m : Machine) (i : Instruction) : (m.execute i).log = (m.note? i).toList := by
  cases i with
  | ret =>
    rcases Nat.eq_zero_or_pos m.stack.depth with hempty | hpos
    · have hlive : m.stack.live = [] := by rwa [← List.length_eq_zero_iff, CallStack.length_live]
      rw [execute_of_refuses (.ret hempty), note?, hlive]
      rfl
    · obtain ⟨caller, rest, hp⟩ := CallStack.pop_of_pos hpos
      simp only [execute, handle, hp, note?, CallStack.live_pop hp, List.getLast?_concat]
      rfl
  | call nnn =>
    by_cases hroom : m.stack.depth < 16
    · obtain ⟨t, hp⟩ := CallStack.push_of_lt hroom m.pc
      simp only [execute, handle, hp, note?, if_pos hroom]
      rfl
    · have hfull : m.stack.depth = 16 := Nat.le_antisymm m.stack.depth_le (Nat.le_of_not_lt hroom)
      rw [execute_of_refuses (.call hfull), note?, if_neg hroom]
      rfl
  | awaitKey x =>
    cases hk : m.keypad.lowestDown? <;> simp only [execute, handle, hk, note?] <;> rfl
  | _ => rfl

/-- An instruction that the stack refuses passes without a note. -/
theorem note?_of_refuses {m : Machine} {i : Instruction} {f : Fault} (h : m.stack.Refuses i f) :
    m.note? i = none := by
  have hlog := m.execute_log i
  rw [execute_of_refuses h] at hlog
  exact Option.toList_eq_nil_iff.mp hlog.symm

/-! ### From a word -/

theorem decode?_of_notes {m : Machine} {w : Word} {d : Diagnostic} (h : m.Notes w d) :
    ∃ i, Instruction.decode? w = some i ∧ m.note? i = some d := by
  cases h with
  | returned word youngest =>
    subst word
    exact ⟨.ret, rfl, by rw [note?, youngest, Option.map_some]⟩
  | machineCall family clear ret =>
    have hword := Word.ofAddress_nnn (congrArg Fin.val family)
    have hclear : w.nnn ≠ 0x0E0 := fun hn => clear (by rw [← hword, hn]; rfl)
    have hret : w.nnn ≠ 0x0EE := fun hn => ret (by rw [← hword, hn]; rfl)
    have hdecode : Instruction.decode? w = some (.machineCall w.nnn) := by
      simp [Instruction.decode?, family, Instruction.ofFamily0, hclear, hret]
    exact ⟨_, hdecode, rfl⟩
  | jumped family =>
    have hdecode : Instruction.decode? w = some (.jump w.nnn) := by
      simp [Instruction.decode?, family]
    exact ⟨_, hdecode, rfl⟩
  | called family room =>
    have hdecode : Instruction.decode? w = some (.call w.nnn) := by
      simp [Instruction.decode?, family]
    exact ⟨_, hdecode, if_pos room⟩
  | @keyStored key family byte down lowest =>
    have hdecode : Instruction.decode? w = some (.awaitKey w.x) := by
      simp [Instruction.decode?, family, Instruction.ofFamilyF?, byte]
    have hkey := (m.keypad.lowestDown?_eq_some_iff key).mpr ⟨down, lowest⟩
    exact ⟨_, hdecode, by rw [note?, hkey, Option.map_some]⟩

theorem fields_of_eq_ofAddress {w : Word} {t : Nat} {nnn : UInt16} (ht : t < 16)
    (hn : nnn.toNat < 4096) (h : Word.ofAddress t nnn = w) : w.family = ⟨t, ht⟩ ∧ nnn = w.nnn := by
  rw [← h]
  exact ⟨Word.family_ofAddress ht hn, (Word.nnn_ofAddress ht hn).symm⟩

theorem notes_of_decode? {m : Machine} {w : Word} {d : Diagnostic} {i : Instruction}
    (h : Instruction.decode? w = some i) (hd : m.note? i = some d) : m.Notes w d := by
  have hword := Instruction.encode_of_decode? h
  have hfits := Instruction.encodable_of_decode? h
  cases i with
  | ret =>
    obtain ⟨caller, hlast, rfl⟩ := Option.map_eq_some_iff.mp hd
    exact .returned hword.symm hlast
  | machineCall nnn =>
    cases hd
    obtain ⟨hfamily, hnnn⟩ := fields_of_eq_ofAddress (by omega) hfits hword
    have hclear : w ≠ 0x00E0 := by
      rintro rfl
      cases h
    have hret : w ≠ 0x00EE := by
      rintro rfl
      cases h
    rw [hnnn]
    exact .machineCall hfamily hclear hret
  | jump nnn =>
    cases hd
    obtain ⟨hfamily, hnnn⟩ := fields_of_eq_ofAddress (by omega) hfits hword
    rw [hnnn]
    exact .jumped hfamily
  | call nnn =>
    obtain ⟨hfamily, hnnn⟩ := fields_of_eq_ofAddress (by omega) hfits hword
    simp only [note?, Option.ite_none_right_eq_some, Option.some.injEq] at hd
    obtain ⟨hroom, rfl⟩ := hd
    rw [hnnn]
    exact .called hfamily hroom
  | awaitKey x =>
    obtain ⟨key, hkey, rfl⟩ := Option.map_eq_some_iff.mp hd
    obtain ⟨hdown, hlowest⟩ := (m.keypad.lowestDown?_eq_some_iff key).mp hkey
    have hbyte : Word.ofByte 0xF x 0x0A = w := hword
    have hx : x = w.x := by rw [← hbyte, Word.x_ofByte (by omega)]
    rw [hx]
    refine .keyStored ?_ ?_ hdown hlowest
    · rw [← hbyte, Word.family_ofByte (by omega)]
      rfl
    · rw [← hbyte, Word.nn_ofByte (by omega)]
  | _ => cases hd

theorem notes_iff (m : Machine) (w : Word) (d : Diagnostic) :
    m.Notes w d ↔ (Instruction.decode? w).bind m.note? = some d := by
  rw [Option.bind_eq_some_iff]
  exact ⟨decode?_of_notes, fun ⟨_, hdecode, hnote⟩ => notes_of_decode? hdecode hnote⟩

/-! ### From a cycle -/

/-- The log of a cycle at `m`: the word that it fetched, then a note or a warning or neither. -/
structure Accounts (m : Machine) (note : Option Diagnostic) : Prop where
  log : m.step.log = .fetched (m.memory.fetch m.pc) m.pc :: (note.toList ++
    (m.step.answer.fault.map (.badWord (m.memory.fetch m.pc) m.pc)).toList)
  noted : ∀ d, note = some d ↔ m.Notes (m.memory.fetch m.pc) d
  apart : note = none ∨ m.step.answer.fault = none

theorem step_log_of_none {m : Machine} (h : Instruction.decode? (m.memory.fetch m.pc) = none) :
    m.step.log = [.fetched (m.memory.fetch m.pc) m.pc,
      .badWord (m.memory.fetch m.pc) m.pc (.opcode ⟨m.memory.fetch m.pc⟩)] := by
  have hw : Instruction.decode m.fetch.word = .error ⟨m.fetch.word⟩ := decode_of_decode?_none h
  simp only [step, executeWord, hw]
  rfl

theorem step_log_of_some {m : Machine} {i : Instruction}
    (h : Instruction.decode? (m.memory.fetch m.pc) = some i) :
    m.step.log = .fetched (m.memory.fetch m.pc) m.pc :: ((m.note? i).toList ++
      (m.step.answer.fault.map (.badWord (m.memory.fetch m.pc) m.pc)).toList) := by
  have hw : Instruction.decode m.fetch.word = .ok i := decode_of_decode? h
  have hnote : (m.fetch.execute i).log = (m.note? i).toList := m.fetch.execute_log i
  simp only [step, executeWord, hw, hnote]
  rfl

theorem step_accounts (m : Machine) : ∃ note, m.Accounts note := by
  refine ⟨(Instruction.decode? (m.memory.fetch m.pc)).bind m.note?, ?_, ?_, ?_⟩
  · cases h : Instruction.decode? (m.memory.fetch m.pc) with
    | none =>
      rw [step_log_of_none h, step_answer_of_none h]
      rfl
    | some i => exact step_log_of_some h
  · exact fun d => (m.notes_iff _ d).symm
  · cases h : Instruction.decode? (m.memory.fetch m.pc) with
    | none => exact Or.inl rfl
    | some i =>
      cases hf : m.step.answer.fault with
      | none => exact Or.inr rfl
      | some f =>
        have hrefused := (m.step_fault_iff f).mp hf
        rw [FaultAt, decode_of_decode? h] at hrefused
        exact Or.inl (note?_of_refuses hrefused)

/-- What a reader that is blind to notes finds in the log of a cycle. -/
theorem step_log_filterMap {α : Type} (m : Machine) {f : Diagnostic → Option α}
    (hf : ∀ w d, m.Notes w d → f d = none) :
    m.step.log.filterMap f = (f (.fetched (m.memory.fetch m.pc) m.pc)).toList ++
      ((m.step.answer.fault.map (.badWord (m.memory.fetch m.pc) m.pc)).bind f).toList := by
  obtain ⟨note, h⟩ := m.step_accounts
  have hword := filterMap_toList (some (.fetched (m.memory.fetch m.pc) m.pc)) f
  have hnote : note.toList.filterMap f = [] := by
    rw [List.filterMap_eq_nil_iff]
    intro d hd
    exact hf _ d ((h.noted d).mp (Option.mem_toList.mp hd))
  calc m.step.log.filterMap f
      = (Option.toList (some (.fetched (m.memory.fetch m.pc) m.pc))).filterMap f ++
          (note.toList.filterMap f ++ (m.step.answer.fault.map
            (.badWord (m.memory.fetch m.pc) m.pc)).toList.filterMap f) := by
        rw [h.log, ← List.filterMap_append, ← List.filterMap_append]
        rfl
    _ = _ := by
        rw [hword, hnote, filterMap_toList]
        rfl

theorem step_log_words (m : Machine) :
    m.step.log.filterMap Diagnostic.fetched? = [m.step.answer.word] := by
  rw [m.step_log_filterMap fun _ _ h => h.apart.2.1]
  cases m.step.answer.fault <;> rfl

theorem step_log_faults (m : Machine) :
    m.step.log.filterMap Diagnostic.fault? = m.step.answer.fault.toList := by
  rw [m.step_log_filterMap fun _ _ h => h.apart.2.2.1]
  cases m.step.answer.fault <;> rfl

theorem step_log_tones (m : Machine) : m.step.log.filterMap Diagnostic.toneCall? = [] := by
  rw [m.step_log_filterMap fun _ _ h => h.apart.2.2.2]
  cases m.step.answer.fault <;> rfl

end Machine

/-! ### From a frame -/

namespace Runner

theorem cycle_log (r : Runner) :
    r.cycle.log = r.machine.step.log ++ r.cycle.calls.flatMap toneLog := by
  have hs : ({ r with machine := r.machine.step.machine } : Runner).updateSound
      r.machine.step.answer = _ := updateSound_eq Machine.running_of_soundStopped
  simp only [cycle, hs]

/-- What the reports about the tone say: the calls, and nothing about words and faults. -/
theorem toneLogs_edge (before after : Bool) :
    let log := (edge before after).flatMap toneLog
    log.filterMap Diagnostic.fetched? = [] ∧ log.filterMap Diagnostic.fault? = [] ∧
      log.filterMap Diagnostic.toneCall? = edge before after := by
  cases before <;> cases after <;> exact ⟨rfl, rfl, rfl⟩

/-- The log of some cycles tells their words, their faults and their calls, each in order. -/
structure InStep (done : Report (List Cycle)) : Prop where
  words : done.log.filterMap Diagnostic.fetched? = done.answer.map Cycle.word
  faults : done.log.filterMap Diagnostic.fault? = done.answer.filterMap Cycle.fault
  tones : done.log.filterMap Diagnostic.toneCall? = done.calls

theorem cycle_inStep (r : Runner) : InStep (r.cycle.map fun c => [c]) := by
  obtain ⟨_, hanswer, hcalls⟩ := r.cycle_eq
  obtain ⟨hwords, hfaults, htones⟩ :=
    toneLogs_edge r.playing r.machine.step.machine.sound.running
  refine ⟨?_, ?_, ?_⟩
  · simp only [Report.map, cycle_log, hcalls, hanswer, List.filterMap_append, hwords,
      Machine.step_log_words]
    rfl
  · simp only [Report.map, cycle_log, hcalls, hanswer, List.filterMap_append, hfaults,
      Machine.step_log_faults, List.append_nil]
    cases h : r.machine.step.answer.fault <;> simp [h]
  · simp only [Report.map, cycle_log, hcalls, List.filterMap_append, htones,
      Machine.step_log_tones, List.nil_append]

theorem cycles_inStep (n : Nat) (r : Runner) : InStep (cycles n r) := by
  induction n generalizing r with
  | zero => exact ⟨rfl, rfl, rfl⟩
  | succ n ih =>
    have hfirst := r.cycle_inStep
    have hrest := ih r.cycle.runner
    refine ⟨?_, ?_, ?_⟩
    · rw [cycles, List.filterMap_append, hrest.words]
      exact congrArg (· ++ _) hfirst.words
    · have h := hfirst.faults
      simp only [Report.map] at h
      rw [cycles, List.filterMap_append, hrest.faults, h, ← List.filterMap_append]
      rfl
    · rw [cycles, List.filterMap_append, hrest.tones]
      exact congrArg (· ++ _) hfirst.tones

theorem length_cycles (n : Nat) (r : Runner) : (cycles n r).answer.length = n := by
  induction n generalizing r with
  | zero => rfl
  | succ n ih => simp only [cycles, List.length_cons, ih]

/-- The log of a frame has one trace for every cycle, one warning for every fault and one report for
every call for the tone, and tells them in order. -/
structure Tallies (r : Runner) (keys : Keypad) (done : Report Frame) : Prop where
  cycles : done.answer.cycles = r.cyclesPerFrame
  traces : done.log.countP (fun d => d.level = .trace) = done.answer.cycles
  words : done.log.filterMap Diagnostic.fetched? = (r.framed keys).answer.map Cycle.word
  faults : done.answer.faults = (r.framed keys).answer.countP fun c => c.fault.isSome
  warnings : done.log.countP (fun d => d.fault?.isSome) = done.answer.faults
  named : done.log.filterMap Diagnostic.fault? = (r.framed keys).answer.filterMap Cycle.fault
  tones : done.log.filterMap Diagnostic.toneCall? = done.calls.filter isTone

theorem frame_tallies (r : Runner) (keys : Keypad) : Tallies r keys (r.frame keys) := by
  have h : InStep (r.framed keys) := cycles_inStep _ _
  have hlength : (r.framed keys).answer.length = r.cyclesPerFrame := length_cycles _ _
  have hlog : (r.frame keys).log = (r.framed keys).log := by rw [frame_eq]
  have hcycles : (r.frame keys).answer.cycles = (r.framed keys).answer.length := by rw [frame_eq]
  have hfaults : (r.frame keys).answer.faults =
      (r.framed keys).answer.countP fun c => c.fault.isSome := by rw [frame_eq]
  refine ⟨hcycles.trans hlength, ?_, ?_, hfaults, ?_, ?_, ?_⟩
  · rw [hlog, hcycles, ← List.length_map Cycle.word, ← h.words, List.length_filterMap_eq_countP]
    simp only [Diagnostic.level_eq_trace_iff, Bool.decide_eq_true]
  · rw [hlog, h.words]
  · rw [hlog, hfaults, ← List.length_filterMap_eq_countP, ← List.length_filterMap_eq_countP,
      h.faults]
  · rw [hlog, h.faults]
  · rw [hlog, h.tones, frame_tones]

/-- Every cycle of every machine reports the word that it fetched and where, then one note if its
word is one of those that are noted, and then one warning if it met a fault, never both; no report
is an error and no two reports read alike. Over any frame the reports add up to its cycles, its
faults and its calls for the tone. -/
theorem log_tells_what_happened :
    (∀ m : Machine, ∃ note, m.Accounts note) ∧
      (∀ w pc, (Diagnostic.fetched w pc).level = .trace) ∧
      (∀ (m : Machine) w d, m.Notes w d → d.level = .debug) ∧
      (∀ w pc f, (Diagnostic.badWord w pc f).level = .warn ∧
        (Diagnostic.badWord w pc f).message =
          "Bad opcode " ++ Diagnostic.wordText w ++ " at " ++ Diagnostic.wordText pc ++ " (" ++
            Diagnostic.wordText (UInt16.ofNat ((pc.toNat + 65536 - 0x200) % 65536)) ++ "): " ++
            f.message) ∧
      Diagnostic.Texts ∧ Function.Injective Diagnostic.message ∧
      (∀ d : Diagnostic, d.toneCall?.isSome = true → d.level = .debug) ∧
      (∀ d : Diagnostic, d.level ≠ .error) ∧
      ∀ (r : Runner) (keys : Keypad), Tallies r keys (r.frame keys) :=
  ⟨Machine.step_accounts, fun _ _ => rfl, fun _ _ _ h => h.apart.1,
    fun w pc f => ⟨rfl, Diagnostic.message_badWord w pc f⟩, Diagnostic.texts,
    Diagnostic.message_injective, Diagnostic.level_of_toneCall?, Diagnostic.level_ne_error,
    frame_tallies⟩

/-- A call, its return and a return too many, while the sound runs out. -/
def roundTrip : Machine :=
  { ((Machine.powerOn 0).load [0x22, 0x04, 0x00, 0xEE, 0x00, 0xEE]).machine with sound := ⟨2⟩ }

theorem log_tells_what_happened_on_round_trip :
    let done := ((ofMachine roundTrip).withCycles 3).frame Keypad.allUp
    done.log =
        [.fetched 0x2204 0x200, .called 0x204 0x200, .soundOn,
          .fetched 0x00EE 0x204, .returned 0x200, .soundOff,
          .fetched 0x00EE 0x202, .badWord 0x00EE 0x202 (.stack .underflow)] ∧
      done.answer.cycles = 3 ∧ done.answer.faults = 1 ∧
      done.calls.filter isTone = [.startSound, .stopSound] ∧
      roundTrip.Notes 0x2204 (.called 0x204 0x200) ∧
      (Diagnostic.called 0x204 0x200).level = .debug ∧
      (Diagnostic.called 0x204 0x200).message = "call 0x0204 from 0x0200" ∧
      Diagnostic.soundOn.level = .debug := by
  intro done
  have hlog : done.log =
      [.fetched 0x2204 0x200, .called 0x204 0x200, .soundOn,
        .fetched 0x00EE 0x204, .returned 0x200, .soundOff,
        .fetched 0x00EE 0x202, .badWord 0x00EE 0x202 (.stack .underflow)] := by decide +kernel
  have hnote : roundTrip.Notes 0x2204 (.called 0x204 0x200) := .called rfl (by decide)
  obtain ⟨_, _, hdebug, _, htexts, _, htone, _, htallies⟩ := log_tells_what_happened
  have h : Tallies ((ofMachine roundTrip).withCycles 3) Keypad.allUp done := htallies _ _
  refine ⟨hlog, h.cycles, ?_, ?_, hnote, hdebug _ _ _ hnote, ?_, htone _ rfl⟩
  · rw [← h.warnings, hlog]
    rfl
  · rw [← h.tones, hlog]
    rfl
  · rw [htexts.called, htexts.word, htexts.word]
    rfl

end Runner
end Chip8
