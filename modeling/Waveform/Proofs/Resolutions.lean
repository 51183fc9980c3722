import Waveform.Pyramid
import Waveform.Resolution

/-!
# Resolutions of edge queries

The order of single-precision numbers is that of their whole parts (`whole_le_whole`).  From this
follows how the length of a block and the pyramid level of a query fit together: a window of the
level is at most twice as long as a block, although the level is not read off the whole part.

## Key results

- `Binary32.whole_le_whole`: the whole part is monotone
- `blockLength_eq_one_iff`: the resolutions at which a block is a single sample
- `window_levelFor_le`: a window is at most as long as two blocks
-/

namespace Waveform

namespace Binary32

variable {x y z : Binary32}

/-- Numbers are ordered. -/
theorem lt_trans (hxy : x < y) (hyz : y < z) : x < z :=
  ⟨hxy.1, hyz.2.1, Int.lt_trans hxy.2.2 hyz.2.2⟩

/-- Of two numbers one of which is not below the other, it does not rank lower. -/
theorem rank_le_of_not_lt (hx : x.isNaN = false) (hy : y.isNaN = false) (h : ¬ x < y) :
    y.rank ≤ x.rank :=
  Int.not_lt.1 fun hrank => h ⟨hx, hy, hrank⟩

/-- A number without its sign does not rank lower. -/
theorem rank_le_magnitude (x : Binary32) : x.rank ≤ x.magnitude := by
  unfold rank
  split <;> omega

/-- A positive number ranks as its magnitude. -/
theorem magnitude_of_pos (h : 0 < x.rank) : x.rank = x.magnitude := by
  unfold rank at h ⊢
  split at h
  · omega
  · rw [if_neg ‹_›]

/-- A positive number below another one is finite. -/
theorem isFinite_of_lt (hpos : zero < x) (h : x < y) : x.isFinite := by
  have hx : x.rank = x.magnitude := magnitude_of_pos hpos.2.2
  have hy : y.rank ≤ y.magnitude := y.rank_le_magnitude
  have hxy : x.rank < y.rank := h.2.2
  have hnumber : ¬ infiniteMagnitude < y.magnitude := of_decide_eq_false h.2.1
  apply decide_eq_true
  omega

/-! ## Whole parts -/

/-- A bit pattern is an exponent and the bits behind it. -/
theorem magnitude_eq (x : Binary32) :
    x.magnitude = x.exponentField * leadingBit + x.magnitude % leadingBit := by
  rw [exponentField, Nat.shiftRight_eq_div_pow]
  exact (Nat.div_add_mod' _ _).symm

/-- A number lies below all numbers of a greater exponent. -/
theorem units_lt (x : Binary32) : x.units < leadingBit <<< x.exponentField := by
  have hmod : x.magnitude % leadingBit < leadingBit := Nat.mod_lt _ (by decide)
  have hmagnitude := x.magnitude_eq
  rw [units, significand, spacing, Nat.shiftLeft_eq, Nat.shiftLeft_eq]
  -- Subnormal numbers have no leading bit.
  cases he : x.exponentField with
  | zero =>
    rw [he] at hmagnitude
    simp only [if_true, Nat.zero_sub, Nat.pow_zero, Nat.mul_one]
    omega
  | succ e =>
    rw [if_neg (Nat.succ_ne_zero e), Nat.add_sub_cancel, Nat.pow_succ, Nat.mul_comm _ 2,
      ← Nat.mul_assoc]
    exact Nat.mul_lt_mul_of_pos_right (by omega) (Nat.two_pow_pos e)

/-- A number with an exponent has its leading bit. -/
theorem le_units (hx : x.exponentField ≠ 0) : leadingBit <<< x.spacing ≤ x.units := by
  rw [units, significand, if_neg hx, Nat.shiftLeft_eq, Nat.shiftLeft_eq]
  exact Nat.mul_le_mul_right _ (Nat.le_add_left _ _)

/-- A pattern of a greater magnitude stands for a greater absolute value. -/
theorem units_lt_units (h : x.magnitude < y.magnitude) : x.units < y.units := by
  by_cases hsame : x.exponentField = y.exponentField
  · -- Under one exponent the significands decide.
    have hx := x.magnitude_eq
    have hy := y.magnitude_eq
    have hsignificand : x.significand < y.significand := by
      rw [significand, significand, hsame]
      rw [hsame] at hx
      split <;> omega
    rw [units, units, spacing, spacing, hsame, Nat.shiftLeft_eq, Nat.shiftLeft_eq]
    exact Nat.mul_lt_mul_of_pos_right hsignificand (Nat.two_pow_pos _)
  · have hexponent : x.exponentField ≤ y.exponentField := by
      rw [exponentField, exponentField, Nat.shiftRight_eq_div_pow, Nat.shiftRight_eq_div_pow]
      exact Nat.div_le_div_right (Nat.le_of_lt h)
    have hspacing : x.exponentField ≤ y.spacing := by
      unfold spacing
      omega
    -- Under a larger exponent the least number is larger than all of those below.
    calc x.units < leadingBit <<< x.exponentField := x.units_lt
      _ ≤ leadingBit <<< y.spacing := by
          rw [Nat.shiftLeft_eq, Nat.shiftLeft_eq]
          exact Nat.mul_le_mul_left _ (Nat.pow_le_pow_right (by decide) hspacing)
      _ ≤ y.units := le_units (by omega)

/-- The units of numbers are in the order of their bit patterns. -/
theorem units_le_units (h : x.magnitude ≤ y.magnitude) : x.units ≤ y.units := by
  rcases Nat.lt_or_eq_of_le h with hlt | heq
  · exact Nat.le_of_lt (units_lt_units hlt)
  · apply Nat.le_of_eq
    rw [units, units, significand, significand, spacing, spacing, exponentField, exponentField, heq]

/-- A number that is no greater has no greater whole part. -/
theorem whole_le_whole (hy : y.isNaN = false) (h : x.rank ≤ y.rank) : x.whole ≤ y.whole := by
  -- A NaN or a negative number has no whole part.
  by_cases hx : x.isNaN || x.isNegative
  · rw [whole, if_pos hx]
    exact Nat.zero_le _
  · have hsign : x.isNegative = false := by simp_all
    rw [rank, hsign] at h
    by_cases hneg : y.isNegative
    · -- Both are zero.
      rw [rank, if_pos hneg] at h
      have hzero : x.magnitude = 0 := by simp at h; omega
      have hunits : x.units = 0 := by
        simp [units, significand, exponentField, hzero]
      simp [whole, hunits]
    · rw [rank, if_neg hneg] at h
      have hunits : x.units ≤ y.units := units_le_units (by simpa using h)
      have hshift : x.units >>> 149 ≤ y.units >>> 149 := by
        rw [Nat.shiftRight_eq_div_pow, Nat.shiftRight_eq_div_pow]
        exact Nat.div_le_div_right hunits
      rw [whole, whole, if_neg hx, if_neg (by simp [hy, hneg])]
      omega

end Binary32

/-! ## The length of a block -/

/-- From a resolution on that has a whole part of its own, blocks have at least that length. -/
theorem whole_le_blockLength {t spacing : Binary32} (ht : t.isNaN = false)
    (hspacing : spacing.isNaN = false) (h : ¬ spacing < t) : t.whole ≤ blockLength spacing :=
  Nat.le_trans (Binary32.whole_le_whole hspacing (Binary32.rank_le_of_not_lt hspacing ht h))
    (Nat.le_max_right _ _)

/-- Blocks are single samples at the resolutions below `2`. -/
theorem blockLength_eq_one_iff {spacing : Binary32} (hspacing : spacing.isNaN = false) :
    blockLength spacing = 1 ↔ spacing < ⟨0x40000000⟩ := by
  constructor
  · intro hone
    apply Decidable.byContradiction
    intro hlt
    have hle : Binary32.whole ⟨0x40000000⟩ ≤ 1 :=
      hone ▸ whole_le_blockLength (by decide) hspacing hlt
    exact absurd hle (by decide +kernel)
  · -- Below two the whole part is that of the number next to two at most.
    intro hparts
    obtain ⟨-, -, hrank⟩ := hparts
    have hone : Binary32.whole ⟨0x3fffffff⟩ = 1 := by decide +kernel
    have hle : spacing.whole ≤ Binary32.whole ⟨0x3fffffff⟩ :=
      Binary32.whole_le_whole (by decide) (Int.le_of_lt_add_one hrank)
    unfold blockLength
    omega

/-! ## The level -/

/-- The thresholds that a number has reached come first in an ordered list of thresholds. -/
theorem not_lt_of_lt_countP {x : Binary32} {ts : List Binary32} (hts : ts.Pairwise (· < ·)) {k : Nat}
    (hk : k < ts.length) (h : k < ts.countP fun t => decide (¬ x < t)) : ¬ x < ts[k] := by
  induction ts generalizing k with
  | nil => exact nomatch hk
  | cons t ts ih =>
    obtain ⟨hhead, htail⟩ := List.pairwise_cons.1 hts
    by_cases hx : x < t
    · -- The thresholds are in order: behind one that was not reached none was.
      have hnone : (t :: ts).countP (fun t => decide (¬ x < t)) = 0 := by
        rw [List.countP_eq_zero]
        intro u hu
        rcases List.mem_cons.1 hu with rfl | hu
        · simp [hx]
        · simp [Binary32.lt_trans hx (hhead u hu)]
      omega
    · cases k with
      | zero => exact hx
      | succ k =>
        rw [List.countP_cons_of_pos (by simp [hx])] at h
        exact ih htail (Nat.lt_of_succ_lt_succ hk) (Nat.lt_of_succ_lt_succ h)

/-- At every threshold a window of the new level is at most as long as two blocks. -/
theorem window_le_of_threshold (k : Fin 9) :
    levelThresholds[k].isNaN = false ∧
      Pyramid.window (k + 1) ≤ 2 * levelThresholds[k].whole := by
  revert k
  decide +kernel

/-- Where a query looks at windows, a window is at most as long as two blocks. -/
theorem window_levelFor_le {spacing : Binary32} (hspacing : spacing.isNaN = false)
    (h : ¬ spacing < Detail.threshold) :
    Pyramid.window (levelFor spacing) ≤ 2 * blockLength spacing := by
  have hsorted : levelThresholds.Pairwise (· < ·) := by decide +kernel
  cases hlevel : (levelFor spacing).val with
  | zero =>
    -- No threshold was reached, but whole windows are looked at from 16 samples on.
    have hblock : Detail.threshold.whole ≤ blockLength spacing :=
      whole_le_blockLength (by decide) hspacing h
    have hthreshold : Detail.threshold.whole = 16 := by decide +kernel
    show 16 ≤ 2 * blockLength spacing
    omega
  | succ k =>
    have hk : k < levelThresholds.length := by
      have := (levelFor spacing).isLt
      show k < 9
      omega
    have hcount : k < levelThresholds.countP fun t => decide (¬ spacing < t) := by
      show k < (levelFor spacing).val
      omega
    -- The last threshold that was reached bounds the block from below.
    obtain ⟨hnumber, hwindow⟩ := window_le_of_threshold ⟨k, hk⟩
    have hblock := whole_le_blockLength hnumber hspacing (not_lt_of_lt_countP hsorted hk hcount)
    exact Nat.le_trans hwindow (Nat.mul_le_mul_left 2 hblock)

end Waveform
