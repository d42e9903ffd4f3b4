import Chip8.Slots
import Chip8.Word
import Chip8.Advance
import Chip8.Memory
import Chip8.Registers
import Chip8.Instruction
import Chip8.Numeral
import Chip8.Timer
import Chip8.Diagnostic
import Chip8.CallStack
import Chip8.Keypad
import Chip8.Display
import Chip8.Generator
import Chip8.Machine.Basic
import Chip8.Machine.Execute
import Chip8.Machine.History
import Chip8.Machine.Dump
import Chip8.Runner.History
import Chip8.Proofs.Effects
import Chip8.Proofs.Calls
import Chip8.Proofs.Screen
import Chip8.Proofs.Checked.Machine
import Chip8.Proofs.Checked.Drawing
import Chip8.Proofs.Checked.Refinement
import Chip8.Proofs.Safety
import Chip8.Proofs.Grammar
import Chip8.Proofs.Faults
import Chip8.Proofs.Partition
import Chip8.Proofs.Sprites
import Chip8.Proofs.Dump.Fields
import Chip8.Proofs.Dump.Lossless
import Chip8.Proofs.Peripherals
import Chip8.Proofs.RandomWords
import Chip8.Proofs.StraightLine
import Chip8.Proofs.Timers
import Chip8.Proofs.Blocked
import Chip8.Proofs.Footprint
import Chip8.Proofs.RegisterWindow
import Chip8.Proofs.Restart
import Chip8.Proofs.Pixels
import Chip8.Proofs.ControlFlow
import Chip8.Proofs.Dump.Layout
import Chip8.Proofs.Carries
import Chip8.Proofs.LowIndex
import Chip8.Proofs.Loading
import Chip8.Proofs.Wording
import Chip8.Proofs.Journal
import Chip8.Proofs.KeyHistory
