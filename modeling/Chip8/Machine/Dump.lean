import Chip8.Machine.Basic

/-!
# Dumps

A machine as text: registers, stack, program area and display, line by line. In the program
area a row of zeros after a row of zeros is left out; the first one left out in a run is
replaced by a filler.
-/
namespace Chip8.Dump

abbrev Line := List Char

def rowSize : Nat := 16

/-- Rows of the program area. -/
def rowCount : Nat := Memory.programCapacity / rowSize

def rowAddress (row : Nat) : Nat := Memory.programStart + row * rowSize

/-- An entry of the memory section. -/
inductive Entry
  | row (row : Nat)
  | filler
  deriving DecidableEq

/-- What has been written since the last row with a byte other than zero. -/
inductive Gap
  | none
  | zeroRow
  | filled
  deriving DecidableEq

/-- The entries for rows numbered from `row` on, given which of them are all zero. -/
def entriesFrom (row : Nat) (gap : Gap) : List Bool → List Entry
  | [] => []
  | false :: rest => .row row :: entriesFrom (row + 1) .none rest
  | true :: rest =>
    match gap with
    | .none => .row row :: entriesFrom (row + 1) .zeroRow rest
    | .zeroRow => .filler :: entriesFrom (row + 1) .filled rest
    | .filled => entriesFrom (row + 1) .filled rest

def isZeroRow (m : Memory) (row : Nat) : Bool :=
  (m.readList (rowAddress row) rowSize).all (· == 0)

def entries (m : Memory) : List Entry :=
  entriesFrom 0 .none ((List.range rowCount).map (isZeroRow m))

def blanks (n : Nat) : Line := List.replicate n ' '

def indent : Line := blanks 2

/-- The text in the middle of a line of a given width, with the odd blank behind it. -/
def centred (width : Nat) (text : Line) : Line :=
  let before := (width - text.length) / 2
  blanks before ++ text ++ blanks (width - text.length - before)

/-- The letters of the words of a row: six for each, and one for each blank between two of them. -/
def wordsWidth : Nat := rowSize / 2 * 7 - 1

/-- The dots stand below the middle of the words. -/
def fillerLine : Line := indent ++ blanks 18 ++ centred wordsWidth "...".toList

theorem fillerLine_eq : fillerLine = blanks 46 ++ "...".toList ++ blanks 26 := by decide

/-- A blank and a word, for each of the given words. -/
def wordList (words : List UInt16) : Line := words.flatMap fun w => ' ' :: Numeral.word w

/-- The eight words of a row. -/
def rowWords (m : Memory) (row : Nat) : List UInt16 :=
  (List.range 8).map fun k => m.fetch (UInt16.ofNat (rowAddress row + 2 * k))

/-- The words of a row, with a blank before each. -/
theorem length_wordList_rowWords (m : Memory) (row : Nat) :
    (wordList (rowWords m row)).length = 1 + wordsWidth := by
  have hword : ∀ w : UInt16, (' ' :: Numeral.word w).length = 7 := fun w =>
    congrArg Nat.succ (Numeral.word_length w)
  simp only [wordList, rowWords, List.length_flatMap, List.map_map, Function.comp_def, hword]
  rfl

def rowLine (m : Memory) (row : Nat) : Line :=
  indent ++ Numeral.word (UInt16.ofNat (rowAddress row)) ++ " - ".toList
    ++ Numeral.word (UInt16.ofNat (rowAddress row + 15)) ++ " :".toList ++ wordList (rowWords m row)

/-- A filler is as long as the line of a row. -/
theorem length_rowLine (m : Memory) (row : Nat) : (rowLine m row).length = fillerLine.length := by
  simp only [rowLine, List.length_append, Numeral.word_length, length_wordList_rowWords]
  rfl

def entryLine (m : Memory) : Entry → Line
  | .row row => rowLine m row
  | .filler => fillerLine

def memoryLines (m : Memory) : List Line :=
  "memory:".toList :: (entries m).map (entryLine m)

def headLine (m : Machine) : Line :=
  "pc: ".toList ++ Numeral.word m.pc ++ " opcode: ".toList ++ Numeral.word m.word
    ++ " i: ".toList ++ Numeral.word m.index ++ " sp: ".toList ++ Numeral.decimal m.stack.depth
    ++ " delay: ".toList ++ Numeral.decimal m.delay.value.toNat
    ++ " sound: ".toList ++ Numeral.decimal m.sound.value.toNat

def registerText (v : Registers) (x : Register) : Line :=
  'V' :: Numeral.hexDigits 1 x.val ++ '=' :: Numeral.byte (v.get x)

def registerLine (v : Registers) : Line :=
  indent ++ [' '].intercalate ((List.finRange 16).map (registerText v))

def stackLine (s : CallStack) : Line := "stack:".toList ++ wordList s.live

def pixel (lit : Bool) : Char := if lit then '#' else '.'

def displayLines (d : Display) : List Line :=
  "display:".toList :: d.rows.map fun row => indent ++ row.map pixel

def lines (m : Machine) : List Line :=
  [headLine m, "registers:".toList, registerLine m.registers, stackLine m.stack]
    ++ memoryLines m.memory ++ displayLines m.display

/-- Every line is ended, the last one too. -/
def text (m : Machine) : String := String.ofList ((lines m).flatMap fun line => line ++ ['\n'])

end Chip8.Dump
