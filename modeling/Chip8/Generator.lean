import Chip8.Slots

/-!
# Random words

A seed is stretched into a key, the key fixes an endless stream of words, and a generator is a
place in that stream. The stream is cut from ChaCha blocks with twelve rounds, a key of eight words,
a block number of 64 bits and no nonce.
-/
namespace Chip8

namespace ChaCha

abbrev Key := Vector UInt32 8
abbrev Block := Vector UInt32 16

def rotateLeft (w amount : UInt32) : UInt32 := w <<< amount ||| w >>> (32 - amount)

/-- Adds the second word to the first and mixes the sum into the third, rotated. -/
def mix (b : Block) (sum term target : Fin 16) (amount : UInt32) : Block :=
  let total := b.get sum + b.get term
  setAt (setAt b sum total) target (rotateLeft (b.get target ^^^ total) amount)

def quarterRound (s : Block) (q : Fin 16 × Fin 16 × Fin 16 × Fin 16) : Block :=
  let (a, b, c, d) := q
  mix (mix (mix (mix s a b d 16) c d b 12) a b d 8) c d b 7

/-- Four columns, then four diagonals. -/
def quarters : List (Fin 16 × Fin 16 × Fin 16 × Fin 16) :=
  [(0, 4, 8, 12), (1, 5, 9, 13), (2, 6, 10, 14), (3, 7, 11, 15),
   (0, 5, 10, 15), (1, 6, 11, 12), (2, 7, 8, 13), (3, 4, 9, 14)]

def doubleRound (s : Block) : Block := quarters.foldl quarterRound s

def initial (key : Key) (number : UInt64) : Block :=
  #v[0x61707865, 0x3320646E, 0x79622D32, 0x6B206574,
     key[0], key[1], key[2], key[3], key[4], key[5], key[6], key[7],
     number.toUInt32, (number >>> 32).toUInt32, 0, 0]

def block (key : Key) (number : UInt64) : Block :=
  let start := initial key number
  start.zipWith (· + ·) (Nat.repeat doubleRound 6 start)

-- the published answer for this key
example :
    let words := block #v[1, 23, 456, 7890, 0, 0, 0, 0] 0
    words[0] = 0xCA1C3FBE ∧ words[1] = 0x94C25463 := by decide +kernel

end ChaCha

structure Generator where
  key : ChaCha.Key
  used : Nat
  deriving DecidableEq

namespace Generator

/-- The congruential sequence that stretches a seed. -/
def stretch (seed : UInt64) : Nat → UInt64
  | 0 => seed
  | k + 1 => stretch seed k * 6364136223846793005 + 11634580027462260723

def rotateRight (w amount : UInt32) : UInt32 := w >>> amount ||| w <<< (32 - amount)

/-- The upper bits of a state, shuffled; its top five bits say how far to rotate. -/
def condense (state : UInt64) : UInt32 :=
  rotateRight (((state >>> 18) ^^^ state) >>> 27).toUInt32 (state >>> 59).toUInt32

def ofSeed (seed : UInt64) : Generator :=
  ⟨Vector.ofFn fun k => condense (stretch seed (k.val + 1)), 0⟩

@[simp] theorem used_ofSeed (seed : UInt64) : (ofSeed seed).used = 0 := rfl

/-- Word `k` of the stream: sixteen words from each block, block after block. -/
def word (g : Generator) (k : Nat) : UInt32 :=
  (ChaCha.block g.key (UInt64.ofNat (k / 16)))[k % 16]

/-- The low byte of the next word. -/
def byte (g : Generator) : UInt8 := (g.word g.used).toUInt8

def next (g : Generator) : Generator := { g with used := g.used + 1 }

-- the byte that seed 0 begins with
example : (ofSeed 0).byte = 127 := by decide +kernel

end Generator
end Chip8
