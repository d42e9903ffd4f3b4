import Chip8.Machine.History

/-!
# Checked machines

A machine as bare arrays and numbers. Every index is compared with the size of its array, and every
sum and difference that could leave its range is looked at before it is used. A trap ends a run.
-/
namespace Chip8.Checked

@[simp] theorem get_memory (m : Memory) (a : Nat) : get m (a % 4096) = .ok (m.read a) :=
  get_of_lt m (Nat.mod_lt a (by omega))

@[simp] theorem put_memory (m : Memory) (a : Nat) (byte : UInt8) :
    put m (a % 4096) byte = .ok (m.write a byte) :=
  put_of_lt m (Nat.mod_lt a (by omega)) byte

structure State where
  word : Word
  memory : Memory
  registers : Registers
  index : UInt16
  pc : UInt16
  slots : Vector UInt16 16
  /-- The number of the next free slot. -/
  pointer : Nat
  delay : UInt8
  sound : UInt8
  /-- One byte for each pixel. -/
  cells : Vector UInt8 2048
  drawn : Bool
  keypad : Keypad
  random : Generator

/-- Copies bytes to consecutive places, without going around the end. -/
def copy (m : Memory) (start : Nat) : List UInt8 → Except Trap Memory
  | [] => .ok m
  | b :: bs => do copy (← put m start b) (start + 1) bs

/-- One tick, and whether it moved the timer onto zero. -/
def tickTimer (value : UInt8) : Except Trap (UInt8 × Bool) :=
  if value = 0 then .ok (value, false)
  else do
    let rest ← subByte value 1
    return (rest, rest == 0)

namespace State

/-- Gives every part its power-on value again. -/
def reset (s : State) (seed : UInt64) : Except Trap State := do
  return { s with
    word := 0
    memory := ← copy Memory.zeros Font.location Font.glyphs
    registers := Registers.zeros
    index := 0
    pc := UInt16.ofNat Memory.programStart
    slots := Vector.replicate 16 0
    pointer := 0
    delay := 0
    sound := 0
    cells := Vector.replicate 2048 0
    drawn := false
    keypad := s.keypad.perform .releaseAll
    random := Generator.ofSeed seed }

/-- What a machine is put together from before its first reset. -/
def assembled (seed : UInt64) : State where
  word := 0
  memory := Memory.zeros
  registers := Registers.zeros
  index := 0
  pc := 0
  slots := Vector.replicate 16 0
  pointer := 0
  delay := 0
  sound := 0
  cells := Vector.replicate 2048 0
  drawn := false
  keypad := Keypad.allUp
  random := Generator.ofSeed seed

def powerOn (seed : UInt64) : Except Trap State := (assembled seed).reset seed

def load (s : State) (image : List UInt8) : Except Trap (State × Except ImageTooLarge Unit) :=
  if Memory.programCapacity < image.length then
    .ok (s, .error ⟨image.length, Memory.programCapacity⟩)
  else do
    let memory ← copy s.memory Memory.programStart image
    return ({ s with memory }, .ok ())

def advance (s : State) (a : Advance) : State := { s with pc := a.apply s.pc }

def register (s : State) (x : Register) : Except Trap UInt8 := get s.registers x.val

def setRegister (s : State) (x : Register) (byte : UInt8) : Except Trap State := do
  return { s with registers := ← put s.registers x.val byte }

/-- The place of a byte above the index. -/
def indexed (s : State) (offset : Nat) : Nat := (s.index.toNat + offset) % 4096

/-- A full stack has no slot to write to; that is an error and not a trap. -/
def push (s : State) (address : UInt16) : State × Except StackError Unit :=
  match put s.slots s.pointer address with
  | .error _ => (s, .error .overflow)
  | .ok slots => ({ s with slots, pointer := s.pointer + 1 }, .ok ())

def pop (s : State) : Except Trap (State × Except StackError UInt16) :=
  if s.pointer = 0 then .ok (s, .error .underflow)
  else do
    let pointer ← subNat s.pointer 1
    let caller ← get s.slots pointer
    return ({ s with pointer }, .ok caller)

/-- Where there is no slot the state stays as it was. -/
theorem push_of_error {s t : State} {a : UInt16} {e : StackError} (h : s.push a = (t, .error e)) :
    t = s := by
  unfold push at h
  split at h
  · exact (congrArg Prod.fst h).symm
  · cases h

theorem pop_of_error {s t : State} {e : StackError} (h : s.pop = .ok (t, .error e)) : t = s := by
  unfold pop at h
  split at h
  · exact (congrArg Prod.fst (Except.ok.inj h)).symm
  · obtain ⟨pointer, _, hpopped⟩ := exists_of_bind_eq_ok h
    obtain ⟨caller, _, hpopped⟩ := exists_of_bind_eq_ok hpopped
    cases hpopped

def isDown (s : State) (value : UInt8) : Except Trap Bool := get s.keypad (value &&& 0x0F).toNat

def holds (s : State) : Condition → Except Trap Bool
  | .equalConst x nn => do return (← s.register x) == nn
  | .notEqualConst x nn => do return (← s.register x) != nn
  | .equalRegister x y => do return (← s.register x) == (← s.register y)
  | .notEqualRegister x y => do return (← s.register x) != (← s.register y)
  | .pressed x => do s.isDown (← s.register x)
  | .released x => do return !(← s.isDown (← s.register x))

def arithmetic (s : State) (op : ArithmeticOp) (x y : Register) : Except Trap State := do
  let a ← s.register x
  let b ← s.register y
  let t ← s.setRegister x (op.result a b)
  match op.flag a b with
  | none => return t
  | some flag => t.setRegister Registers.flag flag

/-- Flips a pixel and raises the flag if it was lit. -/
def flipPixel (s : State) (place : Nat) : Except Trap State := do
  let pixel ← get s.cells place
  let t ← if pixel = 1 then s.setRegister Registers.flag 1 else .ok s
  return { t with cells := ← put t.cells place (pixel ^^^ 1) }

/-- Flips the pixel of bit `j` of a row, if the bit is set. -/
def drawBit (row : UInt8) (left top : Nat) (j : Nat) (s : State) : Except Trap State :=
  if row &&& ((0x80 : UInt8) >>> UInt8.ofNat j) = 0 then .ok s
  else s.flipPixel (top * 64 + (left + j) % 64)

def drawRow (left top : Nat) (i : Nat) (s : State) : Except Trap State := do
  let row ← get s.memory (s.indexed i)
  loop (drawBit row left ((top + i) % 32)) 8 s

/-- The corner is read before the flag is lowered, which may be a coordinate itself. -/
def draw (s : State) (x y : Register) (n : UInt8) : Except Trap State := do
  let left := (← s.register x).toNat % 64
  let top := (← s.register y).toNat % 32
  let t ← loop (drawRow left top) n.toNat (← s.setRegister Registers.flag 0)
  return { t with drawn := true }

def addIndex (s : State) (x : Register) : Except Trap State := do
  let sum := s.index.toNat + (← s.register x).toNat
  let t := { s with index := UInt16.ofNat sum }
  if sum < 65536 then return t else t.setRegister Registers.flag 1

/-- Writes one of the bytes above the index. -/
def storeByte {n : Nat} (bytes : Vector UInt8 n) (k : Nat) (s : State) : Except Trap State := do
  let byte ← get bytes k
  return { s with memory := ← put s.memory (s.indexed k) byte }

/-- Reads a register from above the index. -/
def fillByte (k : Nat) (s : State) : Except Trap State := do
  let byte ← get s.memory (s.indexed k)
  return { s with registers := ← put s.registers k byte }

/-- What an instruction leaves behind and answers. -/
abbrev Outcome := Except Trap (State × Except Fault (Advance × Request))

def goOn (s : State) (a : Advance) (r : Request) : Outcome := .ok (s, .ok (a, r))

def fail (s : State) (e : StackError) : Outcome := .ok (s, .error (.stack e))

def handle (s : State) : Instruction → Outcome
  | .clear => ({ s with cells := Vector.replicate 2048 0, drawn := true } : State).goOn .next .draw
  | .ret => do
    match ← s.pop with
    | (t, .error e) => t.fail e
    | (t, .ok caller) => t.goOn (.jump (Advance.next.apply caller)) .none
  | .machineCall nnn => s.goOn (.jump nnn) .none
  | .jump nnn => s.goOn (.jump nnn) .none
  | .call nnn =>
    match s.push s.pc with
    | (t, .error e) => t.fail e
    | (t, .ok ()) => t.goOn (.jump nnn) .none
  | .skip condition => do s.goOn (.skipIf (← s.holds condition)) .none
  | .setConst x nn => do (← s.setRegister x nn).goOn .next .none
  | .addConst x nn => do (← s.setRegister x ((← s.register x) + nn)).goOn .next .none
  | .arithmetic op x y => do (← s.arithmetic op x y).goOn .next .none
  | .setIndex nnn => ({ s with index := nnn } : State).goOn .next .none
  | .jumpOffset nnn => do
    s.goOn (.jump (← addWord nnn (← s.register Registers.first).toUInt16)) .none
  | .random x nn => do
    let t := { s with random := s.random.next }
    (← t.setRegister x (nn &&& s.random.byte)).goOn .next .none
  | .draw x y n => do (← s.draw x y n).goOn .next .draw
  | .getDelay x => do (← s.setRegister x s.delay).goOn .next .none
  | .awaitKey x =>
    match s.keypad.lowestDown? with
    | none => s.goOn .stay .wait
    | some key => do (← s.setRegister x (UInt8.ofNat key.val)).goOn .next .none
  | .setDelay x => do ({ s with delay := ← s.register x } : State).goOn .next .none
  | .setSound x => do ({ s with sound := ← s.register x } : State).goOn .next .none
  | .addIndex x => do (← s.addIndex x).goOn .next .none
  | .indexGlyph x => do ({ s with index := Font.address (← s.register x) } : State).goOn .next .none
  | .storeDigits x => do
    let b ← s.register x
    (← loop (storeByte #v[b / 100, b / 10 % 10, b % 10]) 3 s).goOn .next .none
  | .storeRegisters x => do (← loop (storeByte s.registers) (x.val + 1) s).goOn .next .none
  | .fillRegisters x => do (← loop fillByte (x.val + 1) s).goOn .next .none

/-- An instruction that fails hands back the state that it was given, whatever state that was. -/
theorem handle_of_error {s t : State} {i : Instruction} {f : Fault}
    (h : s.handle i = .ok (t, .error f)) : t = s := by
  cases i with
  | ret =>
    obtain ⟨⟨u, e | caller⟩, hpop, hu⟩ := exists_of_bind_eq_ok h
    · cases hu
      exact pop_of_error hpop
    · cases hu
  | call nnn =>
    rw [handle] at h
    split at h
    case h_1 u e hpush =>
      cases h
      exact push_of_error hpush
    case h_2 => cases h
  | awaitKey x =>
    rw [handle] at h
    split at h
    · cases h
    · obtain ⟨u, _, hu⟩ := exists_of_bind_eq_ok h
      cases hu
  -- the others have no way to fail, whether they look at a register, at two or at none
  | clear | machineCall | jump | setIndex => cases h
  | addConst | jumpOffset | storeDigits =>
    obtain ⟨byte, _, hbyte⟩ := exists_of_bind_eq_ok h
    obtain ⟨u, _, hu⟩ := exists_of_bind_eq_ok hbyte
    cases hu
  | _ =>
    obtain ⟨u, _, hu⟩ := exists_of_bind_eq_ok h
    cases hu

def execute (s : State) (i : Instruction) : Except Trap (State × Except Fault Request) := do
  match ← s.handle i with
  | (t, .error f) => return (t, .error f)
  | (t, .ok (a, r)) => return (t.advance a, .ok r)

theorem execute_of_error {s t : State} {i : Instruction} {f : Fault}
    (h : s.execute i = .ok (t, .error f)) : t = s := by
  obtain ⟨⟨u, g | goesOn⟩, hhandled, hu⟩ := exists_of_bind_eq_ok h
  · cases hu
    exact handle_of_error hhandled
  · cases hu

def fetch (s : State) : Except Trap State := do
  let high ← get s.memory (s.pc.toNat % 4096)
  let low ← get s.memory ((s.pc.toNat + 1) % 4096)
  return { s with word := Word.ofBytes high low }

def executeWord (s : State) : Except Trap (State × Except Fault Request) :=
  match Instruction.decode s.word with
  | .error e => .ok (s.advance .next, .error (.opcode e))
  | .ok i => s.execute i

def step (s : State) : Except Trap (State × Cycle) := do
  let fetched ← s.fetch
  let (t, result) ← fetched.executeWord
  let (delay, _) ← tickTimer t.delay
  let (sound, stopped) ← tickTimer t.sound
  return ({ t with delay, sound },
    ⟨fetched.word, Machine.requestOf result, Machine.faultOf result, stopped⟩)

def perform (s : State) : Command → Except Trap (State × Answer)
  | .step => do
    let (t, cycle) ← s.step
    return (t, .cycle cycle)
  | .load image => do
    let (t, result) ← s.load image
    return (t, .loaded result)
  | .reset seed => do return (← s.reset seed, .done)
  | .keypad c => .ok ({ s with keypad := s.keypad.perform c }, .done)
  | .clearDrawn => .ok ({ s with drawn := false }, .done)
  | .advance a => .ok (s.advance a, .done)
  | .execute i => do
    let (t, result) ← s.execute i
    return (t, .executed result)
  | .handle i => do
    let (t, result) ← s.handle i
    return (t, .handled result)

def performAll : List Command → State → Except Trap (State × List Answer)
  | [], s => .ok (s, [])
  | c :: cs, s => do
    let (t, answer) ← s.perform c
    let (u, answers) ← performAll cs t
    return (u, answer :: answers)

end State
end Chip8.Checked
