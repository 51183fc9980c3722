import Waveform.Proofs.Resolutions

/-!
# The numeric order

Single-precision numbers are compared by the `rank` of their patterns.  Here the patterns are given
the values they stand for, and the ranks turn out to be in the order of the values.  So `lower` and
`upper` pick a number of the least and of the greatest value.

The two zeros have one value.  The infinities are given the value that their patterns would have if
the exponents went on, `2 ^ 128`, which lies beyond all finite numbers.

## Key results

- `value_le_value_iff`: numbers are in the order of their values
- `value_le_infinity`, `negativeInfinity_le_value`: the infinities are the ends of the order
- `le_value_lower_iff`, `value_upper_le_iff`: the smaller and the greater of two numbers
-/

namespace Waveform.Binary32

variable {x y : Binary32}

/-- The value of a number, in units of `2 ^ -149`. -/
def value (x : Binary32) : Int :=
  if x.isNegative then -(x.units : Int) else x.units

/-- Of two numbers without sign the greater has more units. -/
theorem units_le_units_iff : x.units ≤ y.units ↔ x.magnitude ≤ y.magnitude := by
  constructor
  · intro h
    by_cases hlt : y.magnitude < x.magnitude
    · have := units_lt_units hlt
      omega
    · omega
  · exact units_le_units

/-- Only zero has no units. -/
theorem units_eq_zero_iff : x.units = 0 ↔ x.magnitude = 0 := by
  have hzero : zero.units = 0 := by decide
  have hmagnitude : zero.magnitude = 0 := by decide
  have h := units_le_units_iff (x := x) (y := zero)
  omega

/-- Patterns are ranked in the order of their values. -/
theorem value_le_value_iff : x.value ≤ y.value ↔ x.rank ≤ y.rank := by
  have hxy := units_le_units_iff (x := x) (y := y)
  have hyx := units_le_units_iff (x := y) (y := x)
  have hx := units_eq_zero_iff (x := x)
  have hy := units_eq_zero_iff (x := y)
  simp only [value, rank]
  split <;> split <;> omega

/-- The order of two numbers is that of their values. -/
theorem lt_iff (hx : x.isNaN = false) (hy : y.isNaN = false) : x < y ↔ x.value < y.value := by
  rw [← Int.not_le, value_le_value_iff, Int.not_le]
  exact ⟨fun h => h.2.2, fun h => ⟨hx, hy, h⟩⟩

/-- The magnitude of a number is at most that of infinity. -/
theorem magnitude_le (hx : x.isNaN = false) : x.magnitude ≤ infiniteMagnitude :=
  Nat.not_lt.1 (of_decide_eq_false hx)

/-- No number is above infinity. -/
theorem value_le_infinity (hx : x.isNaN = false) : x.value ≤ infinity.value := by
  have hrank : infinity.rank = infiniteMagnitude := by decide
  have hmagnitude := magnitude_le hx
  have := x.rank_le_magnitude
  rw [value_le_value_iff]
  omega

/-- No number is below negative infinity. -/
theorem negativeInfinity_le_value (hx : x.isNaN = false) : negativeInfinity.value ≤ x.value := by
  have hrank : negativeInfinity.rank = -(infiniteMagnitude : Int) := by decide
  have hmagnitude := magnitude_le hx
  rw [value_le_value_iff, hrank]
  simp only [rank]
  split <;> omega

/-! ## The smaller and the greater of two numbers -/

/-- The lower of two numbers is a number. -/
theorem isNaN_lower (hx : x.isNaN = false) (hy : y.isNaN = false) :
    (x.lower y).isNaN = false := by
  unfold lower
  split <;> assumption

/-- The upper of two numbers is a number. -/
theorem isNaN_upper (hx : x.isNaN = false) (hy : y.isNaN = false) :
    (x.upper y).isNaN = false := by
  unfold upper
  split <;> assumption

/-- A value is at most the lower of two numbers if it is at most each of them. -/
theorem le_value_lower_iff (hx : x.isNaN = false) (hy : y.isNaN = false) {v : Int} :
    v ≤ (x.lower y).value ↔ v ≤ x.value ∧ v ≤ y.value := by
  unfold lower
  split
  · have := (lt_iff hy hx).1 ‹_›
    omega
  · have := mt (lt_iff hy hx).2 ‹_›
    omega

/-- A value is at least the upper of two numbers if it is at least each of them. -/
theorem value_upper_le_iff (hx : x.isNaN = false) (hy : y.isNaN = false) {v : Int} :
    (x.upper y).value ≤ v ↔ x.value ≤ v ∧ y.value ≤ v := by
  unfold upper
  split
  · have := (lt_iff hx hy).1 ‹_›
    omega
  · have := mt (lt_iff hx hy).2 ‹_›
    omega

end Waveform.Binary32
