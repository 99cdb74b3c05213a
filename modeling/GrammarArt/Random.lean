/-! # Sources of randomness

Whatever is random in a derivation comes from a source of numbers in `[0, 1)`, so that the
source determines the derivation.  There are two: `Xoshiro`, a generator whose 128 bits of
state come from a seed of 32, and `Replay`, which gives numbers fixed in advance.
-/
namespace GrammarArt

/-- A source of numbers in `[0, 1)`. -/
class RandomSource (σ : Type) where
  /-- The next number, and the source after it. -/
  next : σ → Float32 × σ

/-- A number in `[low, high)`, made from the next one of a source. -/
def RandomSource.range {σ : Type} [RandomSource σ] (low high : Float32) (source : σ) :
    Float32 × σ :=
  let (u, source) := RandomSource.next source
  (low + (high - low) * u, source)

/-! ### The generator -/

/-- The state of the generator xoshiro128\*\*. -/
structure Xoshiro where
  s0 : UInt32
  s1 : UInt32
  s2 : UInt32
  s3 : UInt32
  deriving DecidableEq, Repr

namespace Xoshiro

/-- The next state of splitmix64, which spreads a seed over the state of the generator. -/
def splitmixState (state : UInt64) : UInt64 := state + 0x9E3779B97F4A7C15

/-- The output of splitmix64 in a state. -/
def splitmixOutput (state : UInt64) : UInt64 :=
  let z := (state ^^^ (state >>> 30)) * 0xBF58476D1CE4E5B9
  let z := (z ^^^ (z >>> 27)) * 0x94D049BB133111EB
  z ^^^ (z >>> 31)

/-- The state in which no bit is set, which the generator never leaves. -/
def zero : Xoshiro := ⟨0, 0, 0, 0⟩

/-- The state that a seed is spread over. -/
def expand (seed : UInt32) : Xoshiro :=
  let first := splitmixState seed.toUInt64
  let a := splitmixOutput first
  let b := splitmixOutput (splitmixState first)
  ⟨a.toUInt32, (a >>> 32).toUInt32, b.toUInt32, (b >>> 32).toUInt32⟩

/-- The generator of a seed. -/
def seed (seed : UInt32) : Xoshiro :=
  let state := expand seed
  if state = zero then { state with s0 := 0x9E3779B9 } else state

/-- A word with its bits moved around by `k` places. -/
def rotateLeft (x : UInt32) (k : UInt32) : UInt32 := (x <<< k) ||| (x >>> (32 - k))

/-- The word that the generator gives in a state. -/
def output (r : Xoshiro) : UInt32 := rotateLeft (r.s1 * 5) 7 * 9

/-- The state after the one given. -/
def step (r : Xoshiro) : Xoshiro :=
  let t := r.s1 <<< 9
  let s2 := r.s2 ^^^ r.s0
  let s3 := r.s3 ^^^ r.s1
  ⟨r.s0 ^^^ s3, r.s1 ^^^ s2, s2 ^^^ t, rotateLeft s3 11⟩

/-- The next word, and the generator after it. -/
def nextWord (r : Xoshiro) : UInt32 × Xoshiro := (r.output, r.step)

/-- The 24 high bits of a word, as a fraction. -/
def fraction (word : UInt32) : Float32 := (word >>> 8).toFloat32 * (1 / 16777216)

instance : RandomSource Xoshiro where
  next r := (fraction r.output, r.step)

end Xoshiro

/-! ### Fixed numbers -/

/-- Numbers fixed in advance, the last of which is repeated, and how many were taken. -/
structure Replay where
  draws : List Float32
  used : Nat
  deriving DecidableEq, Repr

namespace Replay

/-- The number that is next. -/
def current (r : Replay) : Float32 := r.draws.getD (min r.used (r.draws.length - 1)) 0

instance : RandomSource Replay where
  next r := (r.current, { r with used := r.used + 1 })

end Replay

end GrammarArt
