import Waveform.Binary32.Basic

/-!
# Decimal text of single-precision numbers

A number is written with the fewest digits that read back to it, in positional notation whatever
its size: no exponent, no point in a whole number.  `Decimal.shortest` finds the digits for any
rounding interval; `Binary32.text` is the written form.
-/

namespace Waveform

namespace Decimal

/-- The numbers that round to one value: those between `low` and `high`, which belong to it iff
`closed`.  All three bounds are numerators over `scale`. -/
structure Interval where
  value : Nat
  low : Nat
  high : Nat
  scale : Nat
  closed : Bool

/-- Whether the fraction `num / den` lies in the interval. -/
def Interval.contains (v : Interval) (num den : Nat) : Bool :=
  if v.closed then v.low * den ≤ num * v.scale && num * v.scale ≤ v.high * den
  else v.low * den < num * v.scale && num * v.scale < v.high * den

/-- The point of the grid `10 ^ place` that stands for the interval: of the value's two neighbours
on the grid the one inside the interval, of two such the nearer, of two equally near the larger. -/
def Interval.onGrid (v : Interval) (place : Int) : Option Nat :=
  let up := Nat.pow 10 place.toNat
  let den := Nat.pow 10 (-place).toNat
  let below := v.value * den / (up * v.scale)
  let hasBelow := v.contains (below * up) den
  let hasAbove := v.contains ((below + 1) * up) den
  if hasBelow && hasAbove then
    -- Both read back: the one nearer to the value is the better text.
    let gapBelow := v.value * den - below * up * v.scale
    let gapAbove := (below + 1) * up * v.scale - v.value * den
    some (if gapBelow < gapAbove then below else below + 1)
  else if hasBelow then some below
  else if hasAbove then some (below + 1)
  else none

/-- Tries ever finer grids, starting from the place given, and returns the first point found
together with its place. -/
def shortest (v : Interval) (place : Int) : Nat → Nat × Int
  | 0 => (0, place)
  | n + 1 =>
    match v.onGrid place with
    | some digits => (digits, place)
    | none => shortest v (place - 1) n

/-- The number `digits * 10 ^ place` in positional notation. -/
def positional (digits : Nat) (place : Int) : String :=
  let written := Nat.toDigits 10 digits
  let decimals := (-place).toNat
  if decimals = 0 then
    -- A whole number is filled up with zeros.
    String.ofList (written ++ List.replicate place.toNat '0')
  else if decimals < written.length then
    let cut := written.length - decimals
    String.ofList (written.take cut ++ '.' :: written.drop cut)
  else
    String.ofList ('0' :: '.' :: List.replicate (decimals - written.length) '0' ++ written)

end Decimal

namespace Binary32

/-- The numbers that round to a finite non-zero number: half the distance to either neighbour, the
ends included iff the significand is even.  Below a power of two the numbers lie twice as dense. -/
def interval (x : Binary32) : Decimal.Interval where
  value := 4 * x.units
  low := 4 * x.units -
    (if x.significand = leadingBit ∧ 0 < x.spacing then 1 <<< x.spacing else 2 <<< x.spacing)
  high := 4 * x.units + 2 <<< x.spacing
  scale := 1 <<< 151
  closed := x.significand % 2 = 0

/-- The number in positional notation, with the fewest digits that read back to it.  The coarsest
grid tried lies above every number and the finest is denser than the subnormal numbers. -/
def text (x : Binary32) : String :=
  if x.isNaN then "NaN"
  else
    let sign := if x.isNegative then "-" else ""
    if x.magnitude = infiniteMagnitude then sign ++ "inf"
    else if x.magnitude = 0 then sign ++ "0"
    else
      let (digits, place) := Decimal.shortest x.interval 39 86
      sign ++ Decimal.positional digits place

end Binary32

end Waveform
