import Typings.Decimal.Binary64

/-!
# Shortest decimals

The decimals that read back as a binary number form an interval.  The shortest of them is a point
of the coarsest grid of powers of ten that meets the interval; of two such points it is the one
nearer to the number.
-/

namespace Typings.Decimal

inductive Tie where
  | even
  | up
  deriving DecidableEq, Repr

namespace Shortest

/--
A positive number and its rounding interval, all in units of `2 ^ exponent`, with the same unit
for the three.  The ends belong to the interval when `closed`.
-/
structure Interval where
  low : Nat
  value : Nat
  high : Nat
  exponent : Int
  closed : Bool
  deriving DecidableEq, Repr

/-- Neighbours lie one unit of the mantissa away, but half a unit below a power of two. -/
def interval (mantissa : Nat) (exponent : Int) : Interval where
  low := 4 * mantissa -
    if mantissa = Nat.pow 2 52 && exponent > Binary64.minExponent then 1 else 2
  value := 4 * mantissa
  high := 4 * mantissa + 2
  exponent := exponent - 2
  closed := mantissa % 2 == 0

def point? (tie : Tie) (i : Interval) (k : Int) : Option Nat :=
  -- one multiple of the grid, and one unit of the interval, on a common scale
  let grid := Nat.pow 10 k.toNat * Nat.pow 2 (-i.exponent).toNat
  let unit := Nat.pow 2 i.exponent.toNat * Nat.pow 10 (-k).toNat
  let value := i.value * unit
  let below := value / grid
  let above := below + 1
  let belowFits := if i.closed then i.low * unit ≤ below * grid else i.low * unit < below * grid
  let aboveFits := if i.closed then above * grid ≤ i.high * unit else above * grid < i.high * unit
  match decide belowFits, decide aboveFits with
  | false, false => none
  | true, false => some below
  | false, true => some above
  | true, true =>
      match compare (value - below * grid) (above * grid - value) with
      | .lt => some below
      | .gt => some above
      | .eq => match tie with
        | .up => some above
        | .even => some (if below % 2 = 0 then below else above)

def finest : Int := -1074

def search (tie : Tie) (i : Interval) : Nat → Nat × Int
  | 0 => ((point? tie i finest).getD 0, finest)
  | steps + 1 =>
      let k := finest + (steps + 1 : Nat)
      match point? tie i k with
      | some digits => (digits, k)
      | none => search tie i steps

end Shortest

def shortest (tie : Tie) (mantissa : Nat) (exponent : Int) : Nat × Int :=
  if mantissa = 0 then (0, 0) else Shortest.search tie (Shortest.interval mantissa exponent) 1384

end Typings.Decimal
