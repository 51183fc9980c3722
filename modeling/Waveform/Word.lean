import Waveform.Operation

/-!
# Arithmetic in 64 bits

Sample indices and byte counts are natural numbers below `2 ^ 64`.  The operations here are those
of the natural numbers as long as the result fits, and break their contract otherwise.
-/

namespace Waveform.Word

/-- The first number that does not fit in 64 bits. -/
def limit : Nat := 0x10000000000000000

/-- The sum of two numbers. -/
def add (m n : Nat) : Except Violation Nat :=
  if m + n < limit then .ok (m + n) else .error .addOverflow

/-- The difference of two numbers, the second of which is not the larger one. -/
def sub (m n : Nat) : Except Violation Nat :=
  if n ≤ m then .ok (m - n) else .error .subOverflow

/-- The product of two numbers. -/
def mul (m n : Nat) : Except Violation Nat :=
  if m * n < limit then .ok (m * n) else .error .mulOverflow

/-- The power of two with the given exponent, as one bit shifted left. -/
def twoPow (power : Nat) : Except Violation Nat :=
  if power < 64 then .ok (1 <<< power) else .error .shiftLeftOverflow

/-- A number without its lowest bits, as many as are given. -/
def shiftRight (m power : Nat) : Except Violation Nat :=
  if power < 64 then .ok (m >>> power) else .error .shiftRightOverflow

/-- Rounds a number up to a multiple of a power of two.  The power is added before the division,
and that sum has to fit in 64 bits even where the result alone would. -/
def roundUp (x power : Nat) : Except Violation Nat := do
  let unit ← twoPow power
  let below ← sub (← add x unit) 1
  mul (below / unit) unit

/-- The sum of two numbers, cut off at the largest number that fits. -/
def addCapped (m n : Nat) : Nat :=
  min (m + n) (limit - 1)

/-- A sum that is formed fits in 64 bits. -/
theorem add_eq_ok {m n s : Nat} (h : add m n = .ok s) : m + n < limit ∧ s = m + n := by
  unfold add at h
  split at h
  · cases h
    exact ⟨‹_›, rfl⟩
  · exact nomatch h

/-- A difference that is formed is not below zero. -/
theorem sub_eq_ok {m n d : Nat} (h : sub m n = .ok d) : n ≤ m ∧ d = m - n := by
  unfold sub at h
  split at h
  · cases h
    exact ⟨‹_›, rfl⟩
  · exact nomatch h

/-- A product that is formed is the product. -/
theorem mul_eq_ok {m n p : Nat} (h : mul m n = .ok p) : p = m * n := by
  unfold mul at h
  split at h
  · cases h
    rfl
  · exact nomatch h

/-- Rounding up succeeds only if the sum of the number and the whole unit fits. -/
theorem roundUp_eq_ok {x power y : Nat} (h : roundUp x power = .ok y) :
    power < 64 ∧ x + (1 <<< power) < limit ∧
      y = (x + (1 <<< power) - 1) / (1 <<< power) * (1 <<< power) := by
  simp only [roundUp, bind, Except.bind] at h
  split at h
  · exact nomatch h
  · rename_i unit hunit
    unfold twoPow at hunit
    split at hunit
    · cases hunit
      split at h
      · exact nomatch h
      · rename_i sum hsum
        obtain ⟨hlt, rfl⟩ := add_eq_ok hsum
        split at h
        · exact nomatch h
        · rename_i below hbelow
          obtain ⟨-, rfl⟩ := sub_eq_ok hbelow
          exact ⟨‹_›, hlt, mul_eq_ok h⟩
    · exact nomatch hunit

/-- Rounding up never goes down. -/
theorem le_of_roundUp {x power y : Nat} (h : roundUp x power = .ok y) : x ≤ y := by
  obtain ⟨-, -, rfl⟩ := roundUp_eq_ok h
  have hp : 0 < 1 <<< power := by
    rw [Nat.one_shiftLeft]
    exact Nat.two_pow_pos power
  have hm := Nat.div_add_mod (x + (1 <<< power) - 1) (1 <<< power)
  have hlt := Nat.mod_lt (x + (1 <<< power) - 1) hp
  rw [Nat.mul_comm] at hm
  omega

end Waveform.Word
