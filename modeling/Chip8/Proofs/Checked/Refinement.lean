import Chip8.Proofs.Checked.Drawing

/-!
# Machines as checked machines

A checked machine that is laid out like a machine goes through the same states and gives the same
answers, and no check fails on its way.
-/
namespace Chip8

namespace Memory

theorem writeList_concat (m : Memory) (a : Nat) (bytes : List UInt8) (b : UInt8) :
    m.writeList a (bytes ++ [b]) = (m.writeList a bytes).write (a + bytes.length) b := by
  induction bytes generalizing m a with
  | nil => rfl
  | cons x xs ih =>
    rw [List.cons_append, writeList, writeList, ih, List.length_cons, Nat.add_assoc,
      Nat.add_comm 1]

theorem writeList_take_succ {n k : Nat} (m : Memory) (a : Nat) (bytes : Vector UInt8 n) (h : k < n) :
    m.writeList a (bytes.toList.take (k + 1)) =
      (m.writeList a (bytes.toList.take k)).write (a + k) bytes[k] := by
  have hlen : (bytes.toList.take k).length = k := by
    rw [List.length_take, Vector.length_toList, Nat.min_eq_left (Nat.le_of_lt h)]
  have htake : bytes.toList.take (k + 1) = bytes.toList.take k ++ [bytes[k]] := by
    rw [List.take_succ_eq_append_getElem (by simpa), Vector.getElem_toList]
  rw [htake, writeList_concat, hlen]

end Memory

namespace Registers

/-- The registers below number `k` are replaced, the others stay. -/
def fillBelow (v : Registers) (k : Nat) (source : Nat → UInt8) : Registers :=
  Vector.ofFn fun i => if i.val < k then source i.val else v.get i

theorem fillBelow_succ (v : Registers) (k : Register) (source : Nat → UInt8) :
    v.fillBelow (k.val + 1) source = setAt (v.fillBelow k.val source) k (source k.val) := by
  apply ext_get
  intro i
  rw [get_setAt]
  simp only [fillBelow, get_eq_getElem, Vector.getElem_ofFn, Nat.lt_succ_iff_lt_or_eq]
  by_cases h : k = i
  · simp [h]
  · have hne : ¬ i.val = k.val := fun hk => h (Fin.ext hk.symm)
    simp [h, hne]

theorem fillBelow_zero (v : Registers) (source : Nat → UInt8) : v.fillBelow 0 source = v := by
  apply ext_get
  intro i
  simp [fillBelow, get_eq_getElem]

theorem fill_eq_fillBelow (v : Registers) (last : Register) (source : Nat → UInt8) :
    v.fill last source = v.fillBelow (last.val + 1) source := by
  simp only [fill, fillBelow, Fin.le_def, Nat.lt_succ_iff]

end Registers

namespace Instruction

theorem ofFamily0_ne_jumpOffset (nnn target : UInt16) : ofFamily0 nnn ≠ .jumpOffset target := by
  unfold ofFamily0
  split
  · simp
  · split <;> simp

theorem ofFamilyE?_ne_jumpOffset (x : Register) (nn : UInt8) (target : UInt16) :
    ofFamilyE? x nn ≠ some (.jumpOffset target) := by
  unfold ofFamilyE?
  split <;> simp

theorem ofFamilyF?_ne_jumpOffset (x : Register) (nn : UInt8) (target : UInt16) :
    ofFamilyF? x nn ≠ some (.jumpOffset target) := by
  unfold ofFamilyF?
  split <;> simp

theorem nnn_of_decode? {w : Word} {target : UInt16}
    (h : decode? w = some (.jumpOffset target)) : target = w.nnn := by
  unfold decode? at h
  split at h
  case h_1 => exact absurd (Option.some.inj h) (ofFamily0_ne_jumpOffset _ _)
  case h_12 =>
    cases h
    rfl
  case h_15 => exact absurd h (ofFamilyE?_ne_jumpOffset _ _ _)
  case h_16 => exact absurd h (ofFamilyF?_ne_jumpOffset _ _ _)
  all_goals simp at h

end Instruction

namespace Machine

/-- The one sum of two words that may leave its range. -/
def sumFits (m : Machine) : Instruction → Bool
  | .jumpOffset nnn => nnn.toNat + (m.v Registers.first).toNat ≤ 0xFFFF
  | _ => true

/-- A fetched word holds only twelve bits of an address. -/
theorem sumFits_of_decode? {m : Machine} {w : Word} {i : Instruction}
    (h : Instruction.decode? w = some i) : m.sumFits i = true := by
  cases i with
  | jumpOffset nnn =>
    have hnnn := Instruction.nnn_of_decode? h
    have hword := w.toNat_nnn
    have hbyte := (m.v Registers.first).toNat_lt
    simp only [sumFits, hnnn, decide_eq_true_eq]
    omega
  | _ => rfl

/-- What a host has to see to before it hands an instruction to the machine. -/
def sumFitsIn (m : Machine) : Command → Bool
  | .execute i | .handle i => m.sumFits i
  | _ => true

def sumsFit : List Command → Machine → Bool
  | [], _ => true
  | c :: cs, m => m.sumFitsIn c && sumsFit cs (m.perform c).machine

end Machine

namespace Checked.State

@[simp] theorem isDown_ofMachine (m : Machine) (value : UInt8) :
    (ofMachine m).isDown value = .ok (m.keypad.isDown value) := by
  have hmask : (value &&& 0x0F).toNat = value.toNat % 16 := by
    rw [UInt8.toNat_and]
    exact Nat.and_two_pow_sub_one_eq_mod _ 4
  rw [isDown, hmask]
  exact get_of_lt m.keypad (by omega)

@[simp] theorem holds_ofMachine (m : Machine) (c : Condition) :
    (ofMachine m).holds c = .ok (m.holds c) := by
  cases c <;> simp only [holds, Machine.holds, register_ofMachine, isDown_ofMachine, ok_bind,
    pure_eq_ok]

theorem push_ofMachine (m : Machine) (a : UInt16) :
    (ofMachine m).push a =
      match m.stack.push a with
      | .error e => (ofMachine m, .error e)
      | .ok stack => (ofMachine { m with stack }, .ok ()) := by
  unfold push CallStack.push
  by_cases h : m.stack.depth < 16
  · have hput : put (ofMachine m).slots (ofMachine m).pointer a = _ := put_of_lt m.stack.slots h a
    rw [hput, dif_pos h]
    rfl
  · have hput : put (ofMachine m).slots (ofMachine m).pointer a = _ := dif_neg h
    rw [hput, dif_neg h]

theorem pop_ofMachine (m : Machine) :
    (ofMachine m).pop =
      match m.stack.pop with
      | .error e => .ok (ofMachine m, .error e)
      | .ok (caller, stack) => .ok (ofMachine { m with stack }, .ok caller) := by
  have hle := m.stack.depth_le
  unfold pop CallStack.pop
  by_cases h : 0 < m.stack.depth
  · have hzero : ¬ (ofMachine m).pointer = 0 := by
      intro hp
      exact absurd hp (Nat.ne_of_gt h)
    have hsub : subNat (ofMachine m).pointer 1 = .ok (m.stack.depth - 1) := if_pos h
    have hget : get (ofMachine m).slots (m.stack.depth - 1) = _ :=
      get_of_lt m.stack.slots (by omega)
    rw [if_neg hzero, dif_pos h, hsub, ok_bind, hget, ok_bind]
    rfl
  · have hzero : (ofMachine m).pointer = 0 := Nat.eq_zero_of_not_pos h
    rw [if_pos hzero, dif_neg h]

theorem arithmetic_ofMachine (m : Machine) (op : ArithmeticOp) (x y : Register) :
    (ofMachine m).arithmetic op x y =
      .ok (ofMachine { m with registers := m.registers.arithmetic op x y }) := by
  simp only [arithmetic, register_ofMachine, setRegister_ofMachine, ok_bind, Registers.arithmetic]
  cases op.flag (m.v x) (m.v y) with
  | none => rfl
  | some flag => rfl

theorem addIndex_ofMachine (m : Machine) (x : Register) :
    (ofMachine m).addIndex x = .ok (ofMachine (m.addIndex x)) := by
  have hindex : (ofMachine m).index = m.index := rfl
  simp only [addIndex, Machine.addIndex, register_ofMachine, ok_bind, hindex]
  by_cases h : m.index.toNat + (m.v x).toNat < 65536
  · rw [if_pos h, if_pos h]
    rfl
  · rw [if_neg h, if_neg h]
    exact setRegister_ofMachine { m with index := UInt16.ofNat (m.index.toNat + (m.v x).toNat) } _ _

theorem storeByte_ofMachine {n k : Nat} (bytes : Vector UInt8 n) (m : Machine) (h : k < n) :
    storeByte bytes k (ofMachine (m.store (bytes.toList.take k))) =
      .ok (ofMachine (m.store (bytes.toList.take (k + 1)))) := by
  have hput : put (ofMachine (m.store (bytes.toList.take k))).memory
      ((ofMachine (m.store (bytes.toList.take k))).indexed k) bytes[k] = _ := put_memory _ _ _
  have hstore : m.store (bytes.toList.take (k + 1)) = { m with memory := _ } :=
    congrArg (fun memory => { m with memory }) (m.memory.writeList_take_succ _ bytes h)
  rw [storeByte, get_of_lt bytes h, ok_bind, hput, hstore]
  rfl

theorem store_ofMachine {n count : Nat} (bytes : Vector UInt8 n) (m : Machine) (h : count ≤ n) :
    loop (storeByte bytes) count (ofMachine m) =
      .ok (ofMachine (m.store (bytes.toList.take count))) :=
  loop_of_steps (fun k => ofMachine (m.store (bytes.toList.take k))) fun k hk =>
    storeByte_ofMachine bytes m (by omega)

theorem fillByte_ofMachine (m : Machine) (k : Register) :
    fillByte k.val (ofMachine m) =
      .ok (ofMachine { m with registers := setAt m.registers k (m.indexed k.val) }) := by
  have hget : get (ofMachine m).memory ((ofMachine m).indexed k.val) = .ok (m.indexed k.val) :=
    get_memory m.memory _
  have hput : put (ofMachine m).registers k.val (m.indexed k.val) = _ := put_val m.registers k _
  rw [fillByte, hget, ok_bind, hput]
  rfl

theorem fill_ofMachine (m : Machine) (last : Register) :
    loop fillByte (last.val + 1) (ofMachine m) =
      .ok (ofMachine { m with registers := m.registers.fill last m.indexed }) := by
  have hstart : ofMachine m =
      ofMachine { m with registers := m.registers.fillBelow 0 m.indexed } := by
    rw [Registers.fillBelow_zero]
  rw [hstart, Registers.fill_eq_fillBelow]
  apply loop_of_steps fun k => ofMachine { m with registers := m.registers.fillBelow k m.indexed }
  intro k hk
  have hlast : k < 16 := by omega
  rw [fillByte_ofMachine _ ⟨k, hlast⟩, Registers.fillBelow_succ m.registers ⟨k, hlast⟩]
  simp only [Machine.indexed]

theorem handle_ofMachine {m : Machine} {i : Instruction} (h : m.sumFits i = true) :
    (ofMachine m).handle i = .ok (ofMachine (m.handled i).machine, (m.handled i).answer) := by
  cases i with
  | clear =>
    simp only [handle, goOn, Machine.handled, Machine.handle, ofMachine, map_blank]
  | ret =>
    rw [handle, pop_ofMachine, Machine.handled, Machine.handle]
    cases m.stack.pop with
    | error e => rfl
    | ok p => rfl
  | call nnn =>
    have hpc : (ofMachine m).push (ofMachine m).pc = _ := push_ofMachine m m.pc
    rw [handle, hpc, Machine.handled, Machine.handle]
    cases m.stack.push m.pc with
    | error e => rfl
    | ok t => rfl
  | jumpOffset nnn =>
    have hsum : addWord nnn (m.v Registers.first).toUInt16 = _ :=
      if_pos (Nat.lt_succ_of_le (of_decide_eq_true h))
    rw [handle, register_ofMachine, ok_bind, hsum]
    rfl
  | awaitKey x =>
    have hkey : (ofMachine m).keypad.lowestDown? = m.keypad.lowestDown? := rfl
    rw [handle, hkey, Machine.handled, Machine.handle]
    cases m.keypad.lowestDown? with
    | none => rfl
    | some key =>
      simp only [setRegister_ofMachine, ok_bind]
      rfl
  | random x nn =>
    have hset : ({ ofMachine m with random := (ofMachine m).random.next } : State).setRegister x
        (nn &&& (ofMachine m).random.byte) = _ :=
      setRegister_ofMachine { m with random := m.random.next } x (nn &&& m.random.byte)
    simp only [handle, hset, ok_bind]
    rfl
  | skip c =>
    rw [handle, holds_ofMachine]
    rfl
  | arithmetic op x y =>
    rw [handle, arithmetic_ofMachine]
    rfl
  | draw x y n =>
    rw [handle, draw_ofMachine]
    rfl
  | addIndex x =>
    rw [handle, addIndex_ofMachine]
    rfl
  | storeDigits x =>
    rw [handle, register_ofMachine, ok_bind, store_ofMachine _ _ (Nat.le_refl 3)]
    rfl
  | storeRegisters x =>
    have hstore : loop (storeByte (ofMachine m).registers) (x.val + 1) (ofMachine m) = _ :=
      store_ofMachine m.registers m x.isLt
    rw [handle, hstore]
    rfl
  | fillRegisters x =>
    rw [handle, fill_ofMachine]
    rfl
  | _ =>
    simp only [handle, register_ofMachine, setRegister_ofMachine, ok_bind]
    rfl

/-- The bound on the sum is needed. -/
theorem handle_of_not_sumFits {m : Machine} {i : Instruction} (h : m.sumFits i = false) :
    (ofMachine m).handle i = .error .sum := by
  cases i with
  | jumpOffset nnn =>
    have hsum : addWord nnn (m.v Registers.first).toUInt16 = .error .sum :=
      if_neg fun hlt => of_decide_eq_false h (Nat.le_of_lt_succ hlt)
    rw [handle, register_ofMachine, ok_bind, hsum]
    rfl
  | _ => cases h

theorem execute_ofMachine {m : Machine} {i : Instruction} (h : m.sumFits i = true) :
    (ofMachine m).execute i = .ok (ofMachine (m.execute i).machine, (m.execute i).answer) := by
  rw [execute, handle_ofMachine h, ok_bind, Machine.handled, Machine.execute]
  cases m.handle i with
  | error f => rfl
  | ok e => rfl

theorem fetch_ofMachine (m : Machine) : (ofMachine m).fetch = .ok (ofMachine m.fetch) := by
  have hhigh : get (ofMachine m).memory ((ofMachine m).pc.toNat % 4096) = _ :=
    get_memory m.memory m.pc.toNat
  have hlow : get (ofMachine m).memory (((ofMachine m).pc.toNat + 1) % 4096) = _ :=
    get_memory m.memory (m.pc.toNat + 1)
  rw [fetch, hhigh, ok_bind, hlow]
  rfl

theorem executeWord_ofMachine {m : Machine}
    (h : ∀ i, Instruction.decode? m.word = some i → m.sumFits i = true) :
    (ofMachine m).executeWord = .ok (ofMachine m.executeWord.machine, m.executeWord.answer) := by
  have hword : (ofMachine m).word = m.word := rfl
  rw [executeWord, Machine.executeWord, hword, Instruction.decode]
  cases hi : Instruction.decode? m.word with
  | none => rfl
  | some i => exact execute_ofMachine (h i hi)

theorem tickTimer_value (t : Timer) : tickTimer t.value = .ok (t.tick.value, t.expires) := by
  unfold tickTimer Timer.tick
  by_cases h : t.value = 0
  · rw [if_pos h, if_pos h, Timer.expires, h]
    rfl
  · have hle : (1 : UInt8) ≤ t.value := by
      have hne : t.value.toNat ≠ 0 := fun h0 => h (UInt8.toNat_inj.mp h0)
      exact UInt8.le_iff_toNat_le.mpr (Nat.pos_of_ne_zero hne)
    have hsub : subByte t.value 1 = .ok (t.value - 1) := if_pos hle
    have hzero : (t.value - 1 == 0) = t.expires := by
      rw [Timer.expires, Bool.eq_iff_iff, beq_iff_eq, beq_iff_eq]
      rw [UInt8.sub_eq_iff_eq_add]
      rfl
    rw [if_neg h, if_neg h, hsub, ok_bind, hzero]
    rfl

theorem copy_of_le {m : Memory} {start : Nat} {bytes : List UInt8}
    (h : start + bytes.length ≤ 4096) : copy m start bytes = .ok (m.writeList start bytes) := by
  induction bytes generalizing m start with
  | nil => rfl
  | cons b bs ih =>
    rw [List.length_cons] at h
    have hput : put m start b = .ok (m.write start b) := by
      have hmod := put_memory m start b
      rwa [Nat.mod_eq_of_lt (by omega)] at hmod
    rw [copy, hput, ok_bind, ih (by omega)]
    rfl

theorem step_ofMachine (m : Machine) :
    (ofMachine m).step = .ok (ofMachine m.step.machine, m.step.answer) := by
  have hrun := executeWord_ofMachine (m := m.fetch) fun i hi => Machine.sumFits_of_decode? hi
  have hdelay : tickTimer (ofMachine m.fetch.executeWord.machine).delay = _ := tickTimer_value _
  have hsound : tickTimer (ofMachine m.fetch.executeWord.machine).sound = _ := tickTimer_value _
  rw [step, fetch_ofMachine, ok_bind, hrun, ok_bind]
  simp only [hdelay, hsound, ok_bind]
  rfl

/-- A reset leads from every state, also from one that no machine is laid out like, to the same
one. -/
theorem reset_eq (s : State) (seed : UInt64) :
    s.reset seed = .ok (ofMachine (Machine.powerOn seed)) := by
  have hfont : copy Memory.zeros Font.location Font.glyphs = .ok Font.memory :=
    copy_of_le (by decide)
  rw [reset, hfont, ok_bind]
  simp only [ofMachine, Machine.powerOn, map_blank]
  rfl

theorem powerOn_eq (seed : UInt64) : powerOn seed = .ok (ofMachine (Machine.powerOn seed)) :=
  reset_eq _ seed

theorem load_ofMachine (m : Machine) (image : List UInt8) :
    (ofMachine m).load image = .ok (ofMachine (m.load image).machine, (m.load image).answer) := by
  unfold load Machine.load
  by_cases h : image.length ≤ Memory.programCapacity
  · have hcopy : copy (ofMachine m).memory Memory.programStart image = _ :=
      copy_of_le (Nat.add_le_add_left h Memory.programStart)
    rw [if_neg (Nat.not_lt.mpr h), if_pos h, hcopy]
    rfl
  · rw [if_pos (Nat.lt_of_not_le h), if_neg h]

theorem perform_ofMachine {m : Machine} {c : Command} (h : m.sumFitsIn c = true) :
    (ofMachine m).perform c = .ok (ofMachine (m.perform c).machine, (m.perform c).answer) := by
  cases c with
  | step =>
    rw [perform, step_ofMachine]
    rfl
  | load image =>
    rw [perform, load_ofMachine]
    rfl
  | reset seed =>
    rw [perform, reset_eq]
    rfl
  | execute i =>
    rw [perform, execute_ofMachine h]
    rfl
  | handle i =>
    rw [perform, handle_ofMachine h]
    rfl
  | _ => rfl

theorem performAll_ofMachine {cs : List Command} {m : Machine}
    (h : Machine.sumsFit cs m = true) :
    performAll cs (ofMachine m) =
      .ok (ofMachine (Machine.performAll cs m).machine, (Machine.performAll cs m).answer) := by
  induction cs generalizing m with
  | nil => rfl
  | cons c cs ih =>
    rw [Machine.sumsFit, Bool.and_eq_true] at h
    rw [performAll, perform_ofMachine h.1, ok_bind]
    simp only [ih h.2, ok_bind]
    rfl

end Checked.State
end Chip8
