import Chip8.Instruction
import Chip8.Machine.Basic

/-!
# Carrying out one instruction

An instruction turns the machine into an effect: the changed machine, how the program counter
goes on, what the host is asked, what is reported. Only a call on a full stack and a return on
an empty one fail, and then there is no effect at all.
-/
namespace Chip8

structure Effect where
  machine : Machine
  advance : Advance := .next
  request : Request := .none
  log : Log := []

namespace Machine

def holds (m : Machine) : Condition → Bool
  | .equalConst x nn => m.v x == nn
  | .notEqualConst x nn => m.v x != nn
  | .equalRegister x y => m.v x == m.v y
  | .notEqualRegister x y => m.v x != m.v y
  | .pressed x => m.keypad.isDown (m.v x)
  | .released x => !m.keypad.isDown (m.v x)

/-- The three decimal digits of a byte, highest first. -/
def decimalDigits (b : UInt8) : List UInt8 := [b / 100, b / 10 % 10, b % 10]

/-- The pixels that a sprite of `n` rows at the index covers. -/
def spriteCells (m : Machine) (x y : Register) (n : UInt8) : List Cell :=
  Sprite.cells m.indexed n.toNat (m.v x).toNat (m.v y).toNat

/-- Flips the pixels of a sprite; the flag tells whether a lit one went out. -/
def drawSprite (m : Machine) (x y : Register) (n : UInt8) : Machine :=
  let cells := m.spriteCells x y n
  { m with
    display := m.display.flipAll cells
    registers := setAt m.registers Registers.flag (if m.display.hits cells then 1 else 0)
    drawn := true }

/-- Adds `Vx` to the index; the flag is raised when the sum leaves sixteen bits and is
otherwise left alone. -/
def addIndex (m : Machine) (x : Register) : Machine :=
  let sum := m.index.toNat + (m.v x).toNat
  { m with
    index := UInt16.ofNat sum
    registers := if sum < 65536 then m.registers else setAt m.registers Registers.flag 1 }

def handle (m : Machine) : Instruction → Except Fault Effect
  | .clear =>
    .ok { machine := { m with display := Display.blank, drawn := true }, request := .draw }
  | .ret =>
    match m.stack.pop with
    | .error e => .error (.stack e)
    | .ok (caller, stack) =>
      .ok { machine := { m with stack }
            advance := .jump (Advance.next.apply caller)
            log := [.returned caller] }
  | .machineCall nnn => .ok { machine := m, advance := .jump nnn, log := [.machineCall nnn] }
  | .jump nnn => .ok { machine := m, advance := .jump nnn, log := [.jumped nnn] }
  | .call nnn =>
    match m.stack.push m.pc with
    | .error e => .error (.stack e)
    | .ok stack =>
      .ok { machine := { m with stack }, advance := .jump nnn, log := [.called nnn m.pc] }
  | .skip condition => .ok { machine := m, advance := .skipIf (m.holds condition) }
  | .setConst x nn => .ok { machine := m.setRegister x nn }
  | .addConst x nn => .ok { machine := m.setRegister x (m.v x + nn) }
  | .arithmetic op x y =>
    .ok { machine := { m with registers := m.registers.arithmetic op x y } }
  | .setIndex nnn => .ok { machine := { m with index := nnn } }
  | .jumpOffset nnn =>
    .ok { machine := m, advance := .jump (nnn + (m.v Registers.first).toUInt16) }
  | .random x nn =>
    .ok { machine := { m.setRegister x (nn &&& m.random.byte) with random := m.random.next } }
  | .draw x y n => .ok { machine := m.drawSprite x y n, request := .draw }
  | .getDelay x => .ok { machine := m.setRegister x m.delay.value }
  | .awaitKey x =>
    match m.keypad.lowestDown? with
    | none => .ok { machine := m, advance := .stay, request := .wait }
    | some key =>
      .ok { machine := m.setRegister x (UInt8.ofNat key.val), log := [.keyStored key x] }
  | .setDelay x => .ok { machine := { m with delay := ⟨m.v x⟩ } }
  | .setSound x => .ok { machine := { m with sound := ⟨m.v x⟩ } }
  | .addIndex x => .ok { machine := m.addIndex x }
  | .indexGlyph x => .ok { machine := { m with index := Font.address (m.v x) } }
  | .storeDigits x => .ok { machine := m.store (decimalDigits (m.v x)) }
  | .storeRegisters x => .ok { machine := m.store (m.registers.upTo x) }
  | .fillRegisters x => .ok { machine := { m with registers := m.registers.fill x m.indexed } }

/-- Carries out an instruction and moves the program counter; a fault leaves the machine as
it was. -/
def execute (m : Machine) (i : Instruction) : Reply (Except Fault Request) :=
  match m.handle i with
  | .error f => ⟨m, .error f, []⟩
  | .ok e => ⟨e.machine.advance e.advance, .ok e.request, e.log⟩

end Machine
end Chip8
