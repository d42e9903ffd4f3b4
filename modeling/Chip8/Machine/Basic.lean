import Chip8.Advance
import Chip8.CallStack
import Chip8.Display
import Chip8.Generator
import Chip8.Keypad
import Chip8.Memory
import Chip8.Timer

/-!
# Machines

The complete state of a machine and what a host may do to it between two cycles.
-/
namespace Chip8

/-- What the host is asked to do after an instruction. -/
inductive Request
  | none | wait | draw
  deriving DecidableEq

@[ext] structure Machine where
  /-- The word that was fetched last. -/
  word : Word
  memory : Memory
  registers : Registers
  /-- All sixteen bits count here; the memory wraps them. -/
  index : UInt16
  pc : UInt16
  stack : CallStack
  delay : Timer
  sound : Timer
  display : Display
  /-- Raised by every drawing, lowered by the host. -/
  drawn : Bool
  keypad : Keypad
  random : Generator

/-- What an operation leaves behind: the machine, its answer and what it reported. -/
structure Reply (α : Type) where
  machine : Machine
  answer : α
  log : Log

def Reply.map {α β : Type} (f : α → β) (r : Reply α) : Reply β := ⟨r.machine, f r.answer, r.log⟩

namespace Machine

/-- Cycles per second that a host is expected to run. -/
def hertz : Nat := 500

/-- The power-on state: the font in memory, everything else empty. -/
def powerOn (seed : UInt64) : Machine where
  word := 0
  memory := Font.memory
  registers := Registers.zeros
  index := 0
  pc := UInt16.ofNat Memory.programStart
  stack := CallStack.empty
  delay := Timer.zero
  sound := Timer.zero
  display := Display.blank
  drawn := false
  keypad := Keypad.allUp
  random := Generator.ofSeed seed

/-- Gives every part its power-on value again, one after the other. -/
def reset (m : Machine) (seed : UInt64) : Reply Unit where
  machine :=
    { m with
      word := 0
      memory := Memory.zeros.writeList Font.location Font.glyphs
      registers := Registers.zeros
      index := 0
      pc := UInt16.ofNat Memory.programStart
      stack := CallStack.empty
      delay := Timer.zero
      sound := Timer.zero
      display := Display.blank
      drawn := false
      keypad := m.keypad.perform .releaseAll
      random := Generator.ofSeed seed }
  answer := ()
  log := [.resetting seed]

/-- What a machine is put together from before its first reset. -/
def assembled (seed : UInt64) : Machine where
  word := 0
  memory := Memory.zeros
  registers := Registers.zeros
  index := 0
  pc := 0
  stack := CallStack.empty
  delay := Timer.zero
  sound := Timer.zero
  display := Display.blank
  drawn := false
  keypad := Keypad.allUp
  random := Generator.ofSeed seed

/-- A new machine has been reset once. -/
def start (seed : UInt64) : Reply Unit := (assembled seed).reset seed

theorem start_eq (seed : UInt64) : start seed = ⟨powerOn seed, (), [.resetting seed]⟩ := rfl

/-- Nothing of the old state survives a reset. -/
theorem reset_eq_start (m : Machine) (seed : UInt64) : m.reset seed = start seed := rfl

/-- Copies a program image to the start of the program area and touches nothing else. -/
def load (m : Machine) (image : List UInt8) : Reply (Except ImageTooLarge Unit) :=
  if image.length ≤ Memory.programCapacity then
    ⟨{ m with memory := m.memory.writeList Memory.programStart image }, .ok (),
      [.loaded image.length]⟩
  else
    ⟨m, .error ⟨image.length, Memory.programCapacity⟩,
      [.refused image.length Memory.programCapacity]⟩

def useKeypad (m : Machine) (c : Keypad.Command) : Reply Unit :=
  ⟨{ m with keypad := m.keypad.perform c }, (), c.log⟩

def clearDrawn (m : Machine) : Machine := { m with drawn := false }

def advance (m : Machine) (a : Advance) : Machine := { m with pc := a.apply m.pc }

def tick (m : Machine) : Machine := { m with delay := m.delay.tick, sound := m.sound.tick }

abbrev v (m : Machine) (x : Register) : UInt8 := m.registers.get x

def setRegister (m : Machine) (x : Register) (byte : UInt8) : Machine :=
  { m with registers := setAt m.registers x byte }

/-- Writes bytes from the index on; the index itself stays. -/
def store (m : Machine) (bytes : List UInt8) : Machine :=
  { m with memory := m.memory.writeList m.index.toNat bytes }

/-- The byte `offset` places above the index. -/
def indexed (m : Machine) (offset : Nat) : UInt8 := m.memory.read (m.index.toNat + offset)

end Machine
end Chip8
