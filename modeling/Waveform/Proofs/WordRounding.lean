import Mathlib.Order.Bounds.Basic
import Waveform.Word

/-!
# Rounding up in 64 bits

`Word.roundUp` finds the least multiple of a power of two that is not below a number, wherever the
power can be added to the number within 64 bits.  The result alone fits a little more often: the last
multiple below `2 ^ 64` is a multiple already, but the sum does not fit there.  For each power this is
the one number at which the result would fit and the contract is broken nevertheless.

## Key results

- `isLeast_roundedUp`: the result of the division is the least multiple
- `roundUp_eq`: when the sum fits, and what is answered then
- `roundUp_eq_least`: when the least multiple is answered
- `last_multiple_refused`: it is not answered wherever it fits
-/

namespace Waveform.Word

variable {x power : Nat}

theorem one_shiftLeft_pos (power : Nat) : 0 < 1 <<< power := by
  rw [Nat.one_shiftLeft]
  exact Nat.two_pow_pos power

/-- The powers of two that fit in 64 bits divide the first number that does not. -/
theorem one_shiftLeft_dvd_limit (hpower : power < 64) : 1 <<< power ∣ limit := by
  rw [Nat.one_shiftLeft]
  exact Nat.pow_dvd_pow 2 (Nat.le_of_lt hpower)

theorem roundUp_ok (hpower : power < 64) (hfits : x + (1 <<< power) < limit) :
    roundUp x power = .ok ((x + (1 <<< power) - 1) / (1 <<< power) * (1 <<< power)) := by
  have hunit : twoPow power = .ok (1 <<< power) := if_pos hpower
  have hsum : add x (1 <<< power) = .ok (x + (1 <<< power)) := if_pos hfits
  have hpos := one_shiftLeft_pos power
  have hbelow : sub (x + (1 <<< power)) 1 = .ok (x + (1 <<< power) - 1) := if_pos (by omega)
  have hwhole := Nat.div_mul_le_self (x + (1 <<< power) - 1) (1 <<< power)
  simp only [roundUp, hunit, hsum, hbelow, bind, Except.bind]
  exact if_pos (by omega)

/-- Whether a number can be rounded up is decided by the first step, the sum. -/
theorem roundUp_eq (hpower : power < 64) :
    roundUp x power =
      if x + (1 <<< power) < limit then
        .ok ((x + (1 <<< power) - 1) / (1 <<< power) * (1 <<< power))
      else .error .addOverflow := by
  split
  · rename_i hfits
    exact roundUp_ok hpower hfits
  · rename_i hover
    have hunit : twoPow power = .ok (1 <<< power) := if_pos hpower
    have hsum : add x (1 <<< power) = .error .addOverflow := if_neg hover
    simp only [roundUp, hunit, hsum, bind, Except.bind]

/-- The multiples of a power of two that are not below a number. -/
def multiplesFrom (x power : Nat) : Set Nat :=
  {m | x ≤ m ∧ 1 <<< power ∣ m}

theorem isLeast_roundedUp (x power : Nat) :
    IsLeast (multiplesFrom x power)
      ((x + (1 <<< power) - 1) / (1 <<< power) * (1 <<< power)) := by
  have hpos := one_shiftLeft_pos power
  constructor
  · -- What the division drops is less than the power, so no more than was added.
    have hmod := Nat.mod_lt (x + (1 <<< power) - 1) hpos
    have hsum := Nat.div_add_mod' (x + (1 <<< power) - 1) (1 <<< power)
    exact ⟨by omega, Nat.dvd_mul_left _ _⟩
  · rintro m ⟨hle, k, rfl⟩
    rw [Nat.mul_comm (1 <<< power) k]
    apply Nat.mul_le_mul_right
    -- The quotient is at most `k`, since the dividend lies below the multiple after `m`.
    apply Nat.le_of_lt_succ
    rw [Nat.div_lt_iff_lt_mul hpos, Nat.succ_mul, Nat.mul_comm k]
    omega

/-- The sum fits exactly if the least multiple does and the number is not the last multiple itself. -/
theorem add_lt_limit_iff (hpower : power < 64) {r : Nat} (hleast : IsLeast (multiplesFrom x power) r) :
    x + (1 <<< power) < limit ↔ r < limit ∧ x ≠ limit - 1 <<< power := by
  have hpos := one_shiftLeft_pos power
  have hdvd := one_shiftLeft_dvd_limit hpower
  have hunit : 1 <<< power ≤ limit := Nat.le_of_dvd (by decide) hdvd
  obtain ⟨hle, hmultiple⟩ := hleast.1
  constructor
  · intro hfits
    -- The least multiple is less than a whole power above the number.
    have hbelow := Nat.div_mul_le_self (x + (1 <<< power) - 1) (1 <<< power)
    rw [(isLeast_roundedUp x power).unique hleast] at hbelow
    omega
  · rintro ⟨hr, hother⟩
    -- From one multiple below the limit to the next, the limit included, is a whole power.
    have hstep : 1 <<< power ≤ limit - r :=
      Nat.le_of_dvd (Nat.sub_pos_of_lt hr) (Nat.dvd_sub hdvd hmultiple)
    omega

/-- A number is rounded up to the least multiple of the power that is not below it, if that multiple fits
in 64 bits and the number is not the last such multiple itself.  In all other cases the contract is
broken, by the sum. -/
theorem roundUp_eq_least (hpower : power < 64) :
    ∃ r, IsLeast (multiplesFrom x power) r ∧
      roundUp x power =
        if r < limit ∧ x ≠ limit - 1 <<< power then .ok r else .error .addOverflow := by
  refine ⟨_, isLeast_roundedUp x power, ?_⟩
  rw [roundUp_eq hpower]
  exact if_congr (add_lt_limit_iff hpower (isLeast_roundedUp x power)) rfl rfl

/-- Up to the last multiple of 16, at it and behind it. -/
theorem roundUp_eq_least_near_limit :
    4 < 64 ∧ roundUp (limit - 17) 4 = .ok (limit - 16) ∧
      roundUp (limit - 16) 4 = .error .addOverflow ∧
      roundUp (limit - 15) 4 = .error .addOverflow := by
  have hpower : 4 < 64 := by decide
  obtain ⟨r, hbefore, hround⟩ := @roundUp_eq_least (limit - 17) 4 hpower
  obtain ⟨s, -, hlast⟩ := @roundUp_eq_least (limit - 16) 4 hpower
  obtain ⟨t, hbehind, hover⟩ := @roundUp_eq_least (limit - 15) 4 hpower
  -- The least multiples around the limit.
  have hr : r = limit - 16 := hbefore.unique (isLeast_roundedUp _ _)
  have ht : t = limit := hbehind.unique (isLeast_roundedUp _ _)
  refine ⟨hpower, ?_, ?_, ?_⟩
  · rw [hround, hr]
    exact if_pos (by decide)
  · rw [hlast]
    exact if_neg fun hboth => hboth.2 rfl
  · rw [hover, ht]
    exact if_neg fun hboth => Nat.lt_irrefl _ hboth.1

/-- Not every number is rounded up whose least multiple fits in 64 bits: the last multiple of 16 is one
itself, and is refused. -/
theorem last_multiple_refused :
    ¬ ∀ x power, x < limit → power < 64 → ∃ r, IsLeast (multiplesFrom x power) r ∧
      if r < limit then roundUp x power = .ok r else ∃ v, roundUp x power = .error v := by
  intro h
  obtain ⟨r, hleast, hround⟩ := h (limit - 16) 4 (by decide) (by decide)
  have hr : r = limit - 16 := hleast.unique (isLeast_roundedUp _ _)
  have hrefused : roundUp (limit - 16) 4 = .error .addOverflow := rfl
  rw [hr, if_pos (by decide), hrefused] at hround
  exact nomatch hround

end Waveform.Word
