import MotionScript.Graph.Vec2
/-!
# Reproducible noise

Bodies at one place have no direction in which to move apart, so they are nudged. The nudges come
from a stream of words that depends on a seed alone: ChaCha with twelve rounds, under a key that a
linear congruential generator makes from the seed.
-/

namespace MotionScript

/-- A stream of words and how many of them have been drawn. -/
structure Noise where
  seed : UInt64
  drawn : Nat := 0
deriving DecidableEq, Repr

namespace Noise

/-- The words of a block. -/
abbrev Block := Vector UInt32 16

def rotateLeft (x : UInt32) (n : UInt32) : UInt32 := (x <<< n) ||| (x >>> (32 - n))

/-- Mixes four words of a block. -/
def quarterRound (s : Block) (a b c d : Fin 16) : Block :=
  let mix (s : Block) (a b d : Fin 16) (n : UInt32) : Block :=
    let s := s.set a (s[a] + s[b])
    s.set d (rotateLeft (s[d] ^^^ s[a]) n)
  mix (mix (mix (mix s a b d 16) c d b 12) a b d 8) c d b 7

/-- A round over the columns of a block and one over its diagonals. -/
def doubleRound (s : Block) : Block :=
  let s := quarterRound (quarterRound s 0 4 8 12) 1 5 9 13
  let s := quarterRound (quarterRound s 2 6 10 14) 3 7 11 15
  let s := quarterRound (quarterRound s 0 5 10 15) 1 6 11 12
  quarterRound (quarterRound s 2 7 8 13) 3 4 9 14

/-- The next state of the generator that makes the key. -/
def nextState (state : UInt64) : UInt64 := state * 6364136223846793005 + 11634580027462260723

/-- The word a state of that generator stands for. -/
def stateWord (state : UInt64) : UInt32 :=
  let x := (((state >>> 18) ^^^ state) >>> 27).toUInt32
  let turn := (state >>> 59).toUInt32
  rotateLeft x (32 - turn)

/-- The words of `count` successive states. -/
def keyWords (state : UInt64) : Nat → List UInt32
  | 0 => []
  | count + 1 => stateWord (nextState state) :: keyWords (nextState state) count

/-- The block with a given index before it is mixed. -/
def freshBlock (seed : UInt64) (index : Nat) : Block :=
  let counter := UInt64.ofNat index
  let words := 0x61707865 :: 0x3320646e :: 0x79622d32 :: 0x6b206574 :: keyWords seed 8 ++
    [counter.toUInt32, (counter >>> 32).toUInt32, 0, 0]
  Vector.ofFn fun i => words.getD i 0

/-- The block with a given index. -/
def block (seed : UInt64) (index : Nat) : Block :=
  let fresh := freshBlock seed index
  Vector.zipWith (· + ·) ((List.range 6).foldl (fun s _ => doubleRound s) fresh) fresh

/-- The word with a given index. -/
def word (seed : UInt64) (index : Nat) : UInt32 :=
  (block seed (index / 16)).get ⟨index % 16, Nat.mod_lt _ (by decide)⟩

/-- Draws a word. -/
def next (n : Noise) : UInt32 × Noise := (word n.seed n.drawn, { n with drawn := n.drawn + 1 })

/-- The largest nudge in either direction. -/
def reach : Float32 := 0.01

/-- The number between `-reach` and `reach` that a word stands for. -/
def offset (w : UInt32) : Float32 :=
  (Float32.ofBits ((w >>> 9) ||| 0x3F800000) - 1) * (reach - -reach) + -reach

/-- Draws a nudge. -/
def nudge (n : Noise) : Vec2 Float32 × Noise :=
  let (x, n) := n.next
  let (y, n) := n.next
  (⟨offset x, offset y⟩, n)

end Noise

end MotionScript
