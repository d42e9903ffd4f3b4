import Chip8.Numeral
import Chip8.Registers

/-!
# Diagnostics

What can go wrong, by cause, and everything the machine and its runner report, as data, with its
level and its wording.
-/
namespace Chip8

inductive StackError
  | overflow
  | underflow
  deriving DecidableEq

def StackError.message : StackError → String
  | .overflow => "Stack is full!"
  | .underflow => "Stack is empty!"

/-- A word that stands for no instruction. -/
structure IllegalInstruction where
  word : Word
  deriving DecidableEq

def IllegalInstruction.message (e : IllegalInstruction) : String :=
  s!"An unsupported opcode was used {String.ofList (Numeral.word e.word)}."

/-- Why an instruction was not carried out. -/
inductive Fault
  | opcode (cause : IllegalInstruction)
  | stack (cause : StackError)
  deriving DecidableEq

def Fault.message : Fault → String
  | .opcode cause => s!"Invalid opcode state '{cause.message}'."
  | .stack cause => s!"Invalid stack state '{cause.message}'."

/-- A program image of `size` bytes where only `capacity` bytes fit. -/
structure ImageTooLarge where
  size : Nat
  capacity : Nat
  deriving DecidableEq

def ImageTooLarge.message (e : ImageTooLarge) : String :=
  s!"The program image is {e.size} bytes long, but only {e.capacity} bytes fit into the program area."

inductive Level
  | trace | debug | info | warn | error
  deriving DecidableEq

inductive Diagnostic
  | resetting (seed : UInt64)
  | loaded (size : Nat)
  | refused (size capacity : Nat)
  | fetched (word : Word) (pc : UInt16)
  | badWord (word : Word) (pc : UInt16) (fault : Fault)
  | returned (caller : UInt16)
  | machineCall (target : UInt16)
  | jumped (target : UInt16)
  | called (target pc : UInt16)
  | keyStored (key : Nibble) (x : Register)
  | unknownKey (key : Nat)
  | soundOn
  | soundOff
  deriving DecidableEq

abbrev Log := List Diagnostic

namespace Diagnostic

def level : Diagnostic → Level
  | .fetched .. => .trace
  | .loaded .. => .info
  | .refused .. | .badWord .. | .unknownKey .. => .warn
  | _ => .debug

/-- Nothing that a machine meets is an error to it: what goes wrong is a warning. -/
theorem level_ne_error (d : Diagnostic) : d.level ≠ .error := by
  cases d <;> exact Level.noConfusion

def wordText (w : UInt16) : String := String.ofList (Numeral.word w)
def bareText (n : Nat) : String := String.ofList (Numeral.bare n)
def nibbleText (d : Nibble) : String := String.ofList (Numeral.hexDigits 1 d.val)

/-- A bad word is placed both in memory and relative to the start of the program. -/
def message : Diagnostic → String
  | .resetting seed => s!"resetting machine with seed {bareText seed.toNat}"
  | .loaded size => s!"loaded program image of {size} bytes"
  | .refused size capacity =>
    s!"Refusing program image of {size} bytes, only {capacity} bytes are available"
  | .fetched word pc => s!"opcode {wordText word} at {wordText pc}"
  | .badWord word pc fault =>
    s!"Bad opcode {wordText word} at {wordText pc} ({wordText (pc - 0x200)}): {fault.message}"
  | .returned caller => s!"return to {wordText caller}"
  | .machineCall target => s!"machine code routine at {wordText target} handled as a jump"
  | .jumped target => s!"jump to {wordText target}"
  | .called target pc => s!"call {wordText target} from {wordText pc}"
  | .keyStored key x => s!"key {bareText key.val} pressed, stored in V{nibbleText x}"
  | .unknownKey key => s!"Ignoring state change of unknown key {bareText key}"
  | .soundOn => "sound on"
  | .soundOff => "sound off"

end Diagnostic
end Chip8
