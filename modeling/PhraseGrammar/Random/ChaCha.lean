/-!
# The seeded source of random words

A 64-bit seed determines an endless sequence of 64-bit words.  The seed is stretched to a key of
eight 32-bit words by a linear congruential step with an output permutation; the sequence is the
ChaCha stream with twelve rounds under that key, taken two 32-bit words at a time, the low half
first.
-/

namespace PhraseGrammar.Random

/-! ## From a seed to a key -/

/-- The next state of the seed's expansion. -/
def stepSeed (state : UInt64) : UInt64 :=
  state * 6364136223846793005 + 11634580027462260723

/-- A 32-bit word rotated to the left. -/
def rotateLeft (x : UInt32) (distance : UInt32) : UInt32 :=
  (x <<< distance) ||| (x >>> (32 - distance))

/-- A 32-bit word rotated to the right; a shift by the full width is a shift by zero. -/
def rotateRight (x : UInt32) (distance : UInt32) : UInt32 :=
  (x >>> distance) ||| (x <<< (32 - distance))

/-- The word that a state of the expansion contributes: its high bits folded together, rotated
by its top five bits. -/
def keyWord (state : UInt64) : UInt32 :=
  rotateRight ((((state >>> 18) ^^^ state) >>> 27).toUInt32) (state >>> 59).toUInt32

/-- The first `count` words of the expansion after a state. -/
def keyWords (state : UInt64) : Nat → List UInt32
  | 0 => []
  | count + 1 =>
    let next := stepSeed state
    keyWord next :: keyWords next count

/-! ## One block -/

/-- The sixteen words that a block is computed from, and in. -/
abbrev Block := Vector UInt32 16

/-- The four words that begin every block's input. -/
def blockConstants : List UInt32 :=
  [0x61707865, 0x3320646e, 0x79622d32, 0x6b206574]

/-- The input of the block with a number: constants, key, number and two zeros. -/
def blockInput (key : List UInt32) (number : UInt64) : Block :=
  let words := blockConstants ++ key ++ [number.toUInt32, (number >>> 32).toUInt32, 0, 0]
  Vector.ofFn fun i => words.getD i.val 0

/-- Mixes four words of a block. -/
def quarterRound (a b c d : Fin 16) (s : Block) : Block :=
  let s := s.set a (s[a] + s[b])
  let s := s.set d (rotateLeft (s[d] ^^^ s[a]) 16)
  let s := s.set c (s[c] + s[d])
  let s := s.set b (rotateLeft (s[b] ^^^ s[c]) 12)
  let s := s.set a (s[a] + s[b])
  let s := s.set d (rotateLeft (s[d] ^^^ s[a]) 8)
  let s := s.set c (s[c] + s[d])
  s.set b (rotateLeft (s[b] ^^^ s[c]) 7)

/-- A round over the four columns of a block, then one over its four diagonals. -/
def doubleRound (s : Block) : Block :=
  let s := quarterRound 0 4 8 12 s
  let s := quarterRound 1 5 9 13 s
  let s := quarterRound 2 6 10 14 s
  let s := quarterRound 3 7 11 15 s
  let s := quarterRound 0 5 10 15 s
  let s := quarterRound 1 6 11 12 s
  let s := quarterRound 2 7 8 13 s
  quarterRound 3 4 9 14 s

/-- Repeated double rounds. -/
def doubleRounds : Nat → Block → Block
  | 0, s => s
  | count + 1, s => doubleRounds count (doubleRound s)

/-- A block: its input after twelve rounds, added to the input. -/
def block (key : List UInt32) (number : UInt64) : Block :=
  let input := blockInput key number
  (doubleRounds 6 input).zipWith (· + ·) input

/-! ## The sequence -/

/-- The 64-bit words of a block. -/
def blockWords (b : Block) : List UInt64 :=
  (List.finRange 8).map fun i =>
    b[2 * i.val].toUInt64 ||| (b[2 * i.val + 1].toUInt64 <<< 32)

/-- The first `count` words of the sequence that a seed determines. -/
def words (seed : UInt64) (count : Nat) : List UInt64 :=
  let key := keyWords seed 8
  let blocks := (List.range ((count + 7) / 8)).flatMap fun number =>
    blockWords (block key number.toUInt64)
  blocks.take count

end PhraseGrammar.Random
