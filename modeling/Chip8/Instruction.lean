import Chip8.Diagnostic

/-!
# Instructions

The operands are what a word can hold, except that an address may be any sixteen-bit number and
a sprite up to 255 rows high. To decode a word its family picks the row of the instruction table; in
four families a further nibble or byte picks the operation, and whole words of family 0 come before
the general `0NNN`.
-/
namespace Chip8

/-- What a conditional skip asks. -/
inductive Condition
  | equalConst (x : Register) (nn : UInt8)
  | notEqualConst (x : Register) (nn : UInt8)
  | equalRegister (x y : Register)
  | notEqualRegister (x y : Register)
  | pressed (x : Register)
  | released (x : Register)
  deriving DecidableEq

/-- The instructions and the words they are written as. A machine call is a routine of the host
computer and is taken as a jump; a glyph is the digit in the low nibble of `Vx`; digits are the
three decimal digits of `Vx`. -/
inductive Instruction
  | clear -- 00E0
  | ret -- 00EE
  | machineCall (nnn : UInt16) -- 0NNN
  | jump (nnn : UInt16) -- 1NNN
  | call (nnn : UInt16) -- 2NNN
  | skip (condition : Condition) -- 3XNN, 4XNN, 5XY0, 9XY0, EX9E, EXA1
  | setConst (x : Register) (nn : UInt8) -- 6XNN
  | addConst (x : Register) (nn : UInt8) -- 7XNN
  | arithmetic (op : ArithmeticOp) (x y : Register) -- 8XYk
  | setIndex (nnn : UInt16) -- ANNN
  | jumpOffset (nnn : UInt16) -- BNNN
  | random (x : Register) (nn : UInt8) -- CXNN
  | draw (x y : Register) (n : UInt8) -- DXYN
  | getDelay (x : Register) -- FX07
  | awaitKey (x : Register) -- FX0A
  | setDelay (x : Register) -- FX15
  | setSound (x : Register) -- FX18
  | addIndex (x : Register) -- FX1E
  | indexGlyph (x : Register) -- FX29
  | storeDigits (x : Register) -- FX33
  | storeRegisters (x : Register) -- FX55
  | fillRegisters (x : Register) -- FX65
  deriving DecidableEq

/-- The lowest nibble of an `8XYk` word. -/
def ArithmeticOp.ofNibble? : Nibble → Option ArithmeticOp
  | 0x0 => some .assign
  | 0x1 => some .or
  | 0x2 => some .and
  | 0x3 => some .xor
  | 0x4 => some .add
  | 0x5 => some .sub
  | 0x6 => some .shiftRight
  | 0x7 => some .subReverse
  | 0xE => some .shiftLeft
  | _ => none

namespace Instruction

/-- The low byte of an `EXkk` word. -/
def ofFamilyE? (x : Register) : UInt8 → Option Instruction
  | 0x9E => some (.skip (.pressed x))
  | 0xA1 => some (.skip (.released x))
  | _ => none

/-- The low byte of an `FXkk` word. -/
def ofFamilyF? (x : Register) : UInt8 → Option Instruction
  | 0x07 => some (.getDelay x)
  | 0x0A => some (.awaitKey x)
  | 0x15 => some (.setDelay x)
  | 0x18 => some (.setSound x)
  | 0x1E => some (.addIndex x)
  | 0x29 => some (.indexGlyph x)
  | 0x33 => some (.storeDigits x)
  | 0x55 => some (.storeRegisters x)
  | 0x65 => some (.fillRegisters x)
  | _ => none

/-- The low twelve bits of a word of family 0. -/
def ofFamily0 (nnn : UInt16) : Instruction :=
  if nnn = 0x0E0 then .clear else if nnn = 0x0EE then .ret else .machineCall nnn

/-- The instruction that a word stands for, if there is one. -/
def decode? (w : Word) : Option Instruction :=
  match w.family with
  | 0x0 => some (ofFamily0 w.nnn)
  | 0x1 => some (.jump w.nnn)
  | 0x2 => some (.call w.nnn)
  | 0x3 => some (.skip (.equalConst w.x w.nn))
  | 0x4 => some (.skip (.notEqualConst w.x w.nn))
  | 0x5 => if w.n.val = 0 then some (.skip (.equalRegister w.x w.y)) else none
  | 0x6 => some (.setConst w.x w.nn)
  | 0x7 => some (.addConst w.x w.nn)
  | 0x8 => (ArithmeticOp.ofNibble? w.n).map fun op => .arithmetic op w.x w.y
  | 0x9 => if w.n.val = 0 then some (.skip (.notEqualRegister w.x w.y)) else none
  | 0xA => some (.setIndex w.nnn)
  | 0xB => some (.jumpOffset w.nnn)
  | 0xC => some (.random w.x w.nn)
  | 0xD => some (.draw w.x w.y (UInt8.ofNat w.n.val))
  | 0xE => ofFamilyE? w.x w.nn
  | _ => ofFamilyF? w.x w.nn -- family F, the only one left

def decode (w : Word) : Except IllegalInstruction Instruction :=
  match decode? w with
  | some i => .ok i
  | none => .error ⟨w⟩

end Instruction

/-- The lowest nibble of the word `8XYk`. -/
def ArithmeticOp.code : ArithmeticOp → Nat
  | .assign => 0x0
  | .or => 0x1
  | .and => 0x2
  | .xor => 0x3
  | .add => 0x4
  | .sub => 0x5
  | .shiftRight => 0x6
  | .subReverse => 0x7
  | .shiftLeft => 0xE

def Condition.encode : Condition → Word
  | .equalConst x nn => Word.ofByte 0x3 x nn
  | .notEqualConst x nn => Word.ofByte 0x4 x nn
  | .equalRegister x y => Word.ofNibbles 0x5 x y 0
  | .notEqualRegister x y => Word.ofNibbles 0x9 x y 0
  | .pressed x => Word.ofByte 0xE x 0x9E
  | .released x => Word.ofByte 0xE x 0xA1

namespace Instruction

def encode : Instruction → Word
  | .clear => 0x00E0
  | .ret => 0x00EE
  | .machineCall nnn => Word.ofAddress 0x0 nnn
  | .jump nnn => Word.ofAddress 0x1 nnn
  | .call nnn => Word.ofAddress 0x2 nnn
  | .skip condition => condition.encode
  | .setConst x nn => Word.ofByte 0x6 x nn
  | .addConst x nn => Word.ofByte 0x7 x nn
  | .arithmetic op x y => Word.ofNibbles 0x8 x y op.code
  | .setIndex nnn => Word.ofAddress 0xA nnn
  | .jumpOffset nnn => Word.ofAddress 0xB nnn
  | .random x nn => Word.ofByte 0xC x nn
  | .draw x y n => Word.ofNibbles 0xD x y n.toNat
  | .getDelay x => Word.ofByte 0xF x 0x07
  | .awaitKey x => Word.ofByte 0xF x 0x0A
  | .setDelay x => Word.ofByte 0xF x 0x15
  | .setSound x => Word.ofByte 0xF x 0x18
  | .addIndex x => Word.ofByte 0xF x 0x1E
  | .indexGlyph x => Word.ofByte 0xF x 0x29
  | .storeDigits x => Word.ofByte 0xF x 0x33
  | .storeRegisters x => Word.ofByte 0xF x 0x55
  | .fillRegisters x => Word.ofByte 0xF x 0x65

/-- The operands fit into a word: an address has twelve bits, the height of a sprite four. -/
def Encodable : Instruction → Prop
  | .machineCall nnn | .jump nnn | .call nnn | .setIndex nnn | .jumpOffset nnn => nnn.toNat < 4096
  | .draw _ _ n => n.toNat < 16
  | _ => True

end Instruction
end Chip8
