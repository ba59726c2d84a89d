/-!
# Random numbers

A source of random numbers is given by all that it will ever draw, so what is said of
every source is said of every draw.
-/

namespace SymbolicAlgebra

/-- A source of random numbers. -/
structure RandomSource where
  /-- The numbers that are drawn, one after the other. -/
  draws : Nat → Float
  /-- How many were drawn so far. -/
  drawn : Nat

namespace RandomSource

/-- Spreads every bit of a word over the whole word. -/
def mix (word : UInt64) : UInt64 :=
  let first := (word ^^^ (word >>> 30)) * 0xbf58476d1ce4e5b9
  let second := (first ^^^ (first >>> 27)) * 0x94d049bb133111eb
  second ^^^ (second >>> 31)

/-- Doubles in `[0, 1)`, from the upper 53 bits of the words of a generator started
from a seed. -/
def ofSeed (seed : Nat) : RandomSource where
  draws index :=
    (mix (seed.toUInt64 + 0x9e3779b97f4a7c15 * (index + 1).toUInt64) >>> 11).toFloat.scaleB (-53)
  drawn := 0

/-- The next number. -/
def next (source : RandomSource) : Float × RandomSource :=
  (source.draws source.drawn, { source with drawn := source.drawn + 1 })

/-- The next numbers, behind those already taken, which are given the latest first. -/
def take : Nat → RandomSource → List Float → List Float × RandomSource
  | 0, source, taken => (taken.reverse, source)
  | count + 1, source, taken =>
      let (value, rest) := source.next
      take count rest (value :: taken)

end RandomSource

end SymbolicAlgebra
