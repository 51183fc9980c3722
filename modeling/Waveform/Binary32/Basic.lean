/-!
# Single-precision numbers as bit patterns

A `Binary32` is the 32-bit pattern of an IEEE 754 single-precision number.  The pattern itself is
the value that is stored and handed back, so NaN payloads and the sign of a zero survive.

Order is read off the pattern in exact integers: `rank` is strictly monotone on the numbers and
gives both zeros the rank `0`.  The finite numbers are multiples of `2 ^ -149`; `units` counts them.
-/

namespace Waveform

/-- The bit pattern of a single-precision number. -/
structure Binary32 where
  bits : UInt32
deriving DecidableEq

namespace Binary32

/-- Whether the sign bit is set. -/
def isNegative (x : Binary32) : Bool :=
  0x80000000 ≤ x.bits

/-- The pattern without its sign bit. -/
def magnitude (x : Binary32) : Nat :=
  x.bits.toNat % 0x80000000

/-- The magnitude of the two infinities; a larger one is a NaN. -/
def infiniteMagnitude : Nat := 0x7f800000

/-- A NaN has a magnitude above that of the infinities. -/
def isNaN (x : Binary32) : Bool :=
  infiniteMagnitude < x.magnitude

/-- Neither infinite nor a NaN. -/
def isFinite (x : Binary32) : Bool :=
  x.magnitude < infiniteMagnitude

/-- The place of a number in the numeric order.  Patterns of one sign are ordered like their
magnitudes, and the two zeros share the rank `0`. -/
def rank (x : Binary32) : Int :=
  if x.isNegative then -(x.magnitude : Int) else x.magnitude

/-- The numeric order, in which a NaN is related to nothing. -/
instance : LT Binary32 where
  lt x y := x.isNaN = false ∧ y.isNaN = false ∧ x.rank < y.rank

instance : DecidableLT Binary32 := fun x y =>
  inferInstanceAs (Decidable (x.isNaN = false ∧ y.isNaN = false ∧ x.rank < y.rank))

/-- The smaller of two numbers, the first of two equal ones. -/
def lower (x y : Binary32) : Binary32 :=
  if y < x then y else x

/-- The larger of two numbers, the first of two equal ones. -/
def upper (x y : Binary32) : Binary32 :=
  if x < y then y else x

/-- Positive zero. -/
def zero : Binary32 := ⟨0⟩

/-- Positive infinity. -/
def infinity : Binary32 := ⟨0x7f800000⟩

/-- Negative infinity. -/
def negativeInfinity : Binary32 := ⟨0xff800000⟩

/-- The biased exponent of a pattern. -/
def exponentField (x : Binary32) : Nat :=
  x.magnitude >>> 23

/-- The leading bit of the significand, which the pattern of a normal number leaves out. -/
def leadingBit : Nat := 0x800000

/-- The significand of a finite number as a whole number. -/
def significand (x : Binary32) : Nat :=
  if x.exponentField = 0 then x.magnitude else x.magnitude % leadingBit + leadingBit

/-- The binary logarithm of the distance to the next number, in units of `2 ^ -149`. -/
def spacing (x : Binary32) : Nat :=
  x.exponentField - 1

/-- The absolute value of a finite number, in units of `2 ^ -149`. -/
def units (x : Binary32) : Nat :=
  x.significand <<< x.spacing

/-- The whole part, cut off at `0` below and at the largest 64-bit natural number above.  A NaN has
the whole part `0`. -/
def whole (x : Binary32) : Nat :=
  if x.isNaN || x.isNegative then 0 else min (x.units >>> 149) 0xffffffffffffffff

/-- The number with its sign bit turned over. -/
def negate (x : Binary32) : Binary32 :=
  ⟨x.bits ^^^ 0x80000000⟩

/-- The number nearest to a natural number below `2 ^ 64`, a tie going to the even neighbour. -/
def ofNat (n : Nat) : Binary32 :=
  ⟨n.toUInt64.toFloat32.toBits⟩

/-- The number nearest to a double-precision number, a tie going to the even neighbour. -/
def ofFloat (x : Float) : Binary32 :=
  ⟨x.toFloat32.toBits⟩

end Binary32

end Waveform
