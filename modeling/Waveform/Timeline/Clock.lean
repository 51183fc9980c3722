import Waveform.Operation

/-!
# Clocks

Times and durations are values of a type with a `Clock`: the arithmetic with which sample counts
and rates are turned into seconds and back.  No law is asked for.  Double-precision time rounds in
every step; an exact number type obeys the laws of arithmetic.
-/

namespace Waveform

/-- The arithmetic of times. -/
class Clock (τ : Type) extends Add τ, Sub τ, Mul τ, Div τ, LT τ, LE τ where
  /-- The number of samples, or of samples per second, as a time value. -/
  ofCount : Nat → τ
  /-- The part of a sample by which a time may fall short of a sample and still stand for it. -/
  grain : τ
  /-- The whole part, `0` for what lies below `0`. -/
  whole : τ → Nat
  decLT : DecidableLT τ
  decLE : DecidableLE τ

attribute [reducible, instance] Clock.decLT Clock.decLE

namespace Clock

variable {τ : Type} [Clock τ]

/-- The time at which a timeline starts when nothing was erased. -/
def zero : τ := ofCount 0

/-- The later of two times, the first where they cannot be told apart. -/
def later (a b : τ) : τ :=
  if b ≤ a then a else b

/-- The earlier of two times, the first where they cannot be told apart. -/
def earlier (a b : τ) : τ :=
  if a ≤ b then a else b

/-- The time nearest to `a` between two others.  The two are to be in order, so neither of them may be a
time that compares to nothing. -/
def clamp (a low high : τ) : Except Violation τ := do
  require (low ≤ high) .invertedTimes
  return if a < low then low else if high < a then high else a

/-- Time in double precision.  A sample may be missed by a millionth. -/
instance : Clock Float where
  ofCount := Float.ofNat
  grain := 1e-6
  whole x := x.toUInt64.toNat
  decLT := inferInstance
  decLE := inferInstance

/-- Exact time.  It differs from time in double precision by what the latter rounds. -/
instance : Clock Rat where
  ofCount n := (n : Rat)
  grain := 1 / 1000000
  whole x := x.floor.toNat
  decLT := inferInstance
  decLE := inferInstance

end Clock

end Waveform
