import Waveform.Proofs.NumericOrder
import Waveform.Proofs.RecordingHistory

/-!
# The pyramid of an analog recording

An entry of an analog pyramid shows the least and the greatest number of its window, or a gap if there
is a NaN among them.  `Extent.Outlines` says so from the numbers alone, and the pyramid of every
reachable recording agrees with it at all levels: it depends on the numbers that are there, and not on
how they got there.

Entries are joined from the entries below and not from numbers, and joining starts from a bar that is
upside down.  A NaN therefore has to pass from each run to the runs that hold it, and no end of the
upside-down bar may be left where there are numbers.  `Extent.Tells` is what an entry tells about runs
of all lengths, the empty one included; on a window it comes down to `Outlines`.

## Key results

- `Extent.describes_tells`: joining two runs tells about both
- `Extent.Tells.outlines`: where there are numbers, nothing is left of the upside-down bar
- `Recording.envelopes_determined`: the pyramid is a function of the numbers
-/

namespace Waveform

variable {τ : Type}

namespace Extent

variable {xs : Nat → Binary32} {first m n : Nat}

/-- The entry shows the `n` numbers from `first` on: a gap if one of them is a NaN, and otherwise a bar
from a number of the least value to one of the greatest. -/
def Outlines (xs : Nat → Binary32) (first n : Nat) (entry : Extent) : Prop :=
  ((∃ i, first ≤ i ∧ i < first + n ∧ (xs i).isNaN = true) → entry = .gap) ∧
  ((∀ i, first ≤ i → i < first + n → (xs i).isNaN = false) →
    ∃ low high, entry = .bar low high ∧ low.isNaN = false ∧ high.isNaN = false ∧
      (∀ i, first ≤ i → i < first + n →
        low.value ≤ (xs i).value ∧ (xs i).value ≤ high.value) ∧
      (∃ i, first ≤ i ∧ i < first + n ∧ low.value = (xs i).value) ∧
      ∃ i, first ≤ i ∧ i < first + n ∧ high.value = (xs i).value)

/-- The ends of a bar over `n` numbers from `first` on.  Each is the value of one of them, unless it is
an end of the upside-down bar. -/
structure Reaches (xs : Nat → Binary32) (first n : Nat) (low high : Binary32) : Prop where
  number : ∀ i, first ≤ i → i < first + n → (xs i).isNaN = false
  low_number : low.isNaN = false
  high_number : high.isNaN = false
  low_le : ∀ i, first ≤ i → i < first + n → low.value ≤ (xs i).value
  le_high : ∀ i, first ≤ i → i < first + n → (xs i).value ≤ high.value
  low_eq : low.value = Binary32.infinity.value ∨
    ∃ i, first ≤ i ∧ i < first + n ∧ low.value = (xs i).value
  high_eq : high.value = Binary32.negativeInfinity.value ∨
    ∃ i, first ≤ i ∧ i < first + n ∧ high.value = (xs i).value

/-- What an entry tells about the `n` numbers from `first` on. -/
def Tells (xs : Nat → Binary32) (first n : Nat) : Extent → Prop
  | .gap => ∃ i, first ≤ i ∧ i < first + n ∧ (xs i).isNaN = true
  | .bar low high => Reaches xs first n low high

/-- The extent of no numbers is an upside-down bar. -/
theorem tells_none (xs : Nat → Binary32) (first : Nat) : Tells xs first 0 none where
  number i hlo hhi := by omega
  low_number := rfl
  high_number := rfl
  low_le i hlo hhi := by omega
  le_high i hlo hhi := by omega
  low_eq := .inl rfl
  high_eq := .inl rfl

/-- The extent of one number reaches from it to itself, unless it is a NaN. -/
theorem tells_ofSample (xs : Nat → Binary32) (i : Nat) : Tells xs i 1 (ofSample (xs i)) := by
  unfold ofSample
  -- A NaN is a gap, and any other number is a bar from itself to itself.
  split
  · exact ⟨i, Nat.le_refl i, Nat.lt_succ_self i, ‹_›⟩
  · have hnumber : (xs i).isNaN = false := eq_false_of_ne_true ‹_›
    have honly : ∀ j, i ≤ j → j < i + 1 → j = i := fun j hlo hhi => by omega
    exact {
      number := fun j hlo hhi => honly j hlo hhi ▸ hnumber
      low_number := hnumber
      high_number := hnumber
      low_le := fun j hlo hhi => honly j hlo hhi ▸ Int.le_refl _
      le_high := fun j hlo hhi => honly j hlo hhi ▸ Int.le_refl _
      low_eq := .inr ⟨i, Nat.le_refl i, Nat.lt_succ_self i, rfl⟩
      high_eq := .inr ⟨i, Nat.le_refl i, Nat.lt_succ_self i, rfl⟩ }

/-- Two bars side by side are joined to one that reaches as far as both. -/
theorem Reaches.join {a b c d : Binary32} (hleft : Reaches xs first m a b)
    (hright : Reaches xs (first + m) n c d) :
    Reaches xs first (m + n) (a.lower c) (b.upper d) := by
  have hlow {v : Int} := Binary32.le_value_lower_iff hleft.low_number hright.low_number (v := v)
  have hhigh {v : Int} := Binary32.value_upper_le_iff hleft.high_number hright.high_number (v := v)
  constructor
  case number =>
    intro i hlo hhi
    -- The number is in the first part or in the second.
    by_cases hi : i < first + m
    · exact hleft.number i hlo hi
    · exact hright.number i (by omega) (by omega)
  case low_number => exact Binary32.isNaN_lower hleft.low_number hright.low_number
  case high_number => exact Binary32.isNaN_upper hleft.high_number hright.high_number
  case low_le =>
    intro i hlo hhi
    have hends := hlow.1 (Int.le_refl _)
    by_cases hi : i < first + m
    · exact Int.le_trans hends.1 (hleft.low_le i hlo hi)
    · exact Int.le_trans hends.2 (hright.low_le i (by omega) (by omega))
  case le_high =>
    intro i hlo hhi
    have hends := hhigh.1 (Int.le_refl _)
    by_cases hi : i < first + m
    · exact Int.le_trans (hleft.le_high i hlo hi) hends.1
    · exact Int.le_trans (hright.le_high i (by omega) (by omega)) hends.2
  case low_eq =>
    -- The lower of the two ends is that of one part, which has it from a number or from the start.
    unfold Binary32.lower
    split
    · exact hright.low_eq.imp_right fun ⟨i, hlo, hhi, heq⟩ => ⟨i, by omega, by omega, heq⟩
    · exact hleft.low_eq.imp_right fun ⟨i, hlo, hhi, heq⟩ => ⟨i, hlo, by omega, heq⟩
  case high_eq =>
    unfold Binary32.upper
    split
    · exact hright.high_eq.imp_right fun ⟨i, hlo, hhi, heq⟩ => ⟨i, by omega, by omega, heq⟩
    · exact hleft.high_eq.imp_right fun ⟨i, hlo, hhi, heq⟩ => ⟨i, hlo, by omega, heq⟩

/-- A NaN in either run is one in the run of both. -/
theorem describes_tells (xs : Nat → Binary32) : Signal.extents.Describes (Tells xs) where
  empty first := tells_none xs first
  join first m n left right hleft hright := by
    cases left with
    | gap =>
      obtain ⟨i, hlo, hhi, hnan⟩ := hleft
      exact ⟨i, hlo, by omega, hnan⟩
    | bar a b =>
      cases right with
      | gap =>
        obtain ⟨i, hlo, hhi, hnan⟩ := hright
        exact ⟨i, by omega, by omega, hnan⟩
      | bar c d => exact Reaches.join hleft hright

/-- An end of the upside-down bar that is left over is the value of a number after all. -/
theorem Tells.outlines {entry : Extent} (h : Tells xs first n entry) (hn : 0 < n) :
    Outlines xs first n entry := by
  cases entry with
  | gap =>
    obtain ⟨i, hlo, hhi, hnan⟩ := h
    refine ⟨fun _ => rfl, fun hnumbers => ?_⟩
    rw [hnumbers i hlo hhi] at hnan
    exact nomatch hnan
  | bar low high =>
    refine ⟨fun ⟨i, hlo, hhi, hnan⟩ => ?_, fun _ => ⟨low, high, rfl, h.low_number, h.high_number,
      fun i hlo hhi => ⟨h.low_le i hlo hhi, h.le_high i hlo hhi⟩, ?_, ?_⟩⟩
    · rw [h.number i hlo hhi] at hnan
      exact nomatch hnan
    -- The first number lies between the end of the bar and the end of the order.
    · have hfirst := h.low_le first (Nat.le_refl _) (by omega)
      have htop := Binary32.value_le_infinity (h.number first (Nat.le_refl _) (by omega))
      exact h.low_eq.elim (fun heq => ⟨first, Nat.le_refl _, by omega, by omega⟩) id
    · have hfirst := h.le_high first (Nat.le_refl _) (by omega)
      have hbottom := Binary32.negativeInfinity_le_value (h.number first (Nat.le_refl _) (by omega))
      exact h.high_eq.elim (fun heq => ⟨first, Nat.le_refl _, by omega, by omega⟩) id

end Extent

namespace Trace

/-- The number at an index, `0` beyond the last. -/
def numberAt (t : Trace .analog) (i : Nat) : Binary32 :=
  ⟨(t.samples.word i).toUInt32⟩

/-- The number at an index is what the trace answers when it is asked for it. -/
theorem number_eq_ok {t : Trace .analog} {i : Nat} (hi : i < t.count) :
    t.number i = .ok (t.numberAt i) := by
  have hsample : t.samples.sample i = .ok (t.samples.word i) := if_pos hi
  simp only [number, hsample]
  rfl

/-- The entries of an analog pyramid, from the numbers. -/
theorem Summed.outlines {t : Trace .analog} (h : t.Summed) {level index : Nat} {entry : Extent}
    (hget : (t.pyramid.entries level)[index]? = some entry) :
    entry.Outlines t.numberAt (index * Pyramid.window level) (Pyramid.window level) :=
  (Pyramid.Covers.entry (Extent.describes_tells t.numberAt) h (Extent.tells_ofSample t.numberAt)
    hget).outlines (Pyramid.window_pos level)

end Trace

namespace Recording

/-- Whatever was done to an analog recording, its pyramid is a function of its numbers: a level has an
entry for every complete window, and the entry is a gap if there is a NaN in the window, and otherwise
reaches from the least number in it to the greatest.  Recordings with the same numbers have the same
pyramid. -/
theorem envelopes_determined {r : Recording τ .analog} (h : r.Reachable) :
    (∀ i, i < r.count → r.trace.number i = .ok (r.trace.numberAt i)) ∧
    (∀ level, level < 10 →
      r.trace.pyramid.size level = r.count / Pyramid.window level ∧
      ∀ index, index < r.trace.pyramid.size level →
        ∃ entry, (r.trace.pyramid.entries level)[index]? = some entry ∧
          entry.Outlines r.trace.numberAt (index * Pyramid.window level)
            (Pyramid.window level)) ∧
    ∀ r' : Recording τ .analog, r'.Reachable →
      r'.trace.samples.words = r.trace.samples.words → r'.trace.pyramid = r.trace.pyramid := by
  have hsummed := h.summed
  refine ⟨fun i hi => Trace.number_eq_ok hi, fun level hlevel => ⟨Pyramid.Covers.size_eq hsummed hlevel,
    fun index hindex => ?_⟩, fun r' h' hwords => h'.summed.pyramid_eq hsummed hwords⟩
  have hget := Array.getElem?_eq_getElem hindex
  exact ⟨_, hget, hsummed.outlines hget⟩

end Recording

end Waveform
