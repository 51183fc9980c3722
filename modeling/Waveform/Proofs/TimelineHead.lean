import Mathlib
import Waveform.Proofs.TimelineOrigin

/-!
# Removing the head of a timeline

A stretch of time that is removed takes whole samples, and whether it takes the first one does not
depend on whether it starts with the timeline: a stretch that starts within the first sample takes it
too.  The origin, however, moves only if the stretch starts with the timeline.  In that case each sample
that is kept keeps its time, and otherwise all of them are moved to an earlier one.  Times are exact here.

## Key results

- `Timeline.remove_one_rate`: which samples are removed, and where the timeline starts afterwards
- `Timeline.head_removed`: what happens to the times of the samples that are kept
- `Timeline.kept_samples_moved`: a removal that moves them
-/

namespace Waveform

variable {k : Signal}

namespace Timeline

variable {t : Timeline Rat k} {start stop low high : Rat} {rate : Nat}

/-- The time nearest to a given one, where all recordings are of one rate. -/
theorem nearest_eq (hrate : ∀ r ∈ t.recordings, r.rate = rate) (x : Rat) :
    t.nearest x = max t.origin (min (max x 0) (t.origin + t.held / rate)) := by
  rw [nearest, total_eq t hrate]

/-- A timeline that holds samples has recordings. -/
theorem recordings_ne_nil_of_held (h : 0 < t.held) : t.recordings ≠ [] := by
  intro hnil
  rw [held, hnil] at h
  exact absurd h (Nat.lt_irrefl 0)

/-- From recordings of one rate a range of samples of them all is removed.  If that starts with the
timeline, the timeline starts behind the range afterwards. -/
theorem remove_one_rate (hrate : ∀ r ∈ t.recordings, r.rate = rate)
    (hwindow : t.window start stop = .ok (some (low, high))) :
    let first := min t.held (sampleIndex rate (low - t.origin))
    let last := min t.held (sampleIndex rate (high - t.origin))
    let captures := t.recordings.map Recording.capture
    ∃ taken t', remove start stop t = .ok taken t' ∧
      Capture.concat (t'.recordings.map Recording.capture) =
        (Capture.concat captures).take first ++ (Capture.concat captures).drop last ∧
      (t'.recordings ≠ [] →
        t'.origin = if low ≤ t.origin then t.origin + last / rate else t.origin) := by
  intro first last captures
  obtain ⟨hne, -, -, hlt⟩ := window_eq_some.1 hwindow
  have hpos : 0 < rate := rate_pos hrate hne
  have hcaptures : ∀ c ∈ captures, c.rate = rate := rate_captures (· = rate) hrate
  have hlength : (Capture.concat captures).length = t.held := t.length_concat
  -- The erasure, said in time.
  obtain ⟨taken, t', herase, hkept, horigin⟩ := erase_exact hlt t
  refine ⟨taken, t', ?_, ?_, fun hleft => ?_⟩
  · rw [remove_eq, hwindow]
    exact herase
  · -- A stretch of time is a range of samples here, and ends with the last one at the latest.
    have hordered : first ≤ last :=
      min_le_min le_rfl (sampleIndex_mono (sub_le_sub_right hlt.le t.origin))
    have hrange : Capture.withoutBetween low high t.origin captures =
        Capture.withoutRange first last captures := by
      rw [Capture.withoutBetween_eq_withoutRange hpos _ _ _ hcaptures, ← Capture.withoutRange_min,
        hlength]
    rw [hkept, hrange, Capture.concat_withoutRange hordered]
  · rw [horigin, if_neg (by simpa using hleft), Capture.headEnd_eq hpos hcaptures, hlength]

/-- A removal takes the first sample, and not every sample.  If it starts with the timeline, the
timeline starts with the first sample that is kept afterwards, and all samples that are kept keep their
times.  If it starts later, which is then a time within the first sample, the timeline starts where it
did, and the samples that are kept do not keep their times. -/
theorem head_removed (hrate : ∀ r ∈ t.recordings, r.rate = rate) (start stop : Rat) :
    let limit := t.origin + t.held / rate
    let low := max t.origin (min (max start 0) limit)
    let high := max t.origin (min (max stop 0) limit)
    let first := min t.held ⌊(low - t.origin) * rate + 1 / 1000000⌋₊
    let last := min t.held ⌊(high - t.origin) * rate + 1 / 1000000⌋₊
    let captures := t.recordings.map Recording.capture
    first = 0 → 0 < last → last < t.held →
    ∃ taken t', remove start stop t = .ok taken t' ∧
      Capture.concat (t'.recordings.map Recording.capture) = (Capture.concat captures).drop last ∧
      t'.origin = (if max start 0 ≤ t.origin then t.origin + last / rate else t.origin) ∧
      ((∀ i < t.held - last, t'.origin + i / rate = t.origin + (last + i : Nat) / rate) ↔
        max start 0 ≤ t.origin) := by
  intro limit low high first last captures hfirst hlast hsome
  have hne := recordings_ne_nil_of_held (Nat.zero_lt_of_lt hsome)
  have hpos : (0 : Rat) < rate := Nat.cast_pos.2 (rate_pos hrate hne)
  -- The range is not empty, so the stretch of time is not.
  have hlt : low < high := by
    by_contra hge
    have hle : last ≤ first :=
      min_le_min le_rfl (sampleIndex_mono (sub_le_sub_right (not_lt.1 hge) t.origin))
    omega
  have hwindow : t.window start stop = .ok (some (low, high)) :=
    window_eq_some.2 ⟨hne, (nearest_eq hrate start).symm, (nearest_eq hrate stop).symm, hlt⟩
  obtain ⟨taken, t', hremove, hkept, horigin⟩ := remove_one_rate hrate hwindow
  replace hkept : Capture.concat (t'.recordings.map Recording.capture) =
      (Capture.concat captures).drop last := by
    have hnone : min t.held (sampleIndex rate (low - t.origin)) = 0 := hfirst
    rw [hkept, hnone, List.take_zero, List.nil_append]
    rfl
  -- As some samples are kept, so is a recording, and the origin is not reset.
  have hleft : t'.recordings ≠ [] := by
    apply recordings_ne_nil_of_held
    rw [← length_concat, hkept, List.length_drop, length_concat]
    omega
  -- The timeline is not over where it starts, so only the start of the removal matters.
  have hhead : low ≤ t.origin ↔ max start 0 ≤ t.origin := by
    have hlimit : t.origin < limit := by
      have hheld : (0 : Rat) < t.held := Nat.cast_pos.2 (Nat.zero_lt_of_lt hsome)
      exact lt_add_of_pos_right _ (div_pos hheld hpos)
    show max t.origin (min (max start 0) limit) ≤ t.origin ↔ _
    rw [max_le_iff, min_le_iff]
    constructor
    · intro h
      exact h.2.resolve_right hlimit.not_ge
    · intro h
      exact ⟨le_rfl, .inl h⟩
  replace horigin := horigin hleft
  simp only [hhead] at horigin
  refine ⟨taken, t', hremove, hkept, horigin, ?_⟩
  have htimes (i : Nat) : t.origin + (last + i : Nat) / rate = t.origin + last / rate + i / rate := by
    rw [Nat.cast_add, add_div, add_assoc]
  constructor
  · -- If the origin had stayed, the first sample that is kept would have moved.
    intro h
    by_contra hlate
    have hkeeps := h 0 (by omega)
    rw [htimes, horigin, if_neg hlate, add_left_inj] at hkeeps
    have hmoved : (0 : Rat) < last / rate := div_pos (Nat.cast_pos.2 hlast) hpos
    linarith
  · intro h i _
    rw [htimes, horigin, if_pos h]
    rfl

/-- A removal from before the start of two recordings, up to a time within the sixth of their eight
samples. -/
theorem head_removed_across_recordings :
    ∃ r₁ r₂ : Recording Rat .logic,
      Recording.ofLogic 4 1 0 0 ⟨#[1, 2, 3, 4]⟩ = .ok r₁ ∧
      Recording.ofLogic 4 1 1 0 ⟨#[5, 6, 7, 8]⟩ = .ok r₂ ∧
      ∃ taken t', remove (-1) (11 / 8) ⟨[r₁, r₂], 0⟩ = .ok taken t' ∧
        Capture.concat (t'.recordings.map Recording.capture) = [6, 7, 8] ∧ t'.origin = 5 / 4 := by
  -- The recordings are evaluated; the removal is a case of the theorem.
  have hruns : ∃ r₁ r₂ : Recording Rat .logic,
      Recording.ofLogic 4 1 0 0 ⟨#[1, 2, 3, 4]⟩ = .ok r₁ ∧
      Recording.ofLogic 4 1 1 0 ⟨#[5, 6, 7, 8]⟩ = .ok r₂ ∧
      [r₁, r₂].map Recording.capture =
        [⟨0, 4, 1, [1, 2, 3, 4], false⟩, ⟨1, 4, 1, [5, 6, 7, 8], false⟩] :=
    ⟨_, _, rfl, rfl, by decide +kernel⟩
  obtain ⟨r₁, r₂, h₁, h₂, hcaptures⟩ := hruns
  have hrate : ∀ r ∈ [r₁, r₂], r.rate = 4 := rate_of_captures hcaptures (by simp)
  have hheld : (⟨[r₁, r₂], 0⟩ : Timeline Rat .logic).held = 8 := by
    rw [← length_concat, hcaptures]
    rfl
  have hlow : max (0 : Rat) (min (max (-1) 0) (0 + ((8 : Nat) : Rat) / ((4 : Nat) : Rat))) = 0 := by
    norm_num
  have hhigh : max (0 : Rat) (min (max (11 / 8) 0) (0 + ((8 : Nat) : Rat) / ((4 : Nat) : Rat))) =
      11 / 8 := by norm_num
  have hfirst : ⌊((0 : Rat) - 0) * ((4 : Nat) : Rat) + 1 / 1000000⌋₊ = 0 := by norm_num
  have hlast : ⌊((11 / 8 : Rat) - 0) * ((4 : Nat) : Rat) + 1 / 1000000⌋₊ = 5 := by norm_num
  have hhead := head_removed (t := ⟨[r₁, r₂], 0⟩) hrate (-1) (11 / 8)
  simp only [hheld, hlow, hhigh, hfirst, hlast, hcaptures] at hhead
  obtain ⟨taken, t', hremove, hkept, horigin, -⟩ := hhead (by decide) (by decide) (by decide)
  rw [if_pos (by norm_num)] at horigin
  exact ⟨r₁, r₂, h₁, h₂, taken, t', hremove, hkept.trans (by decide +kernel),
    horigin.trans (by norm_num)⟩

/-- A removal that starts within the first of eight samples takes three of them.  The timeline starts at
zero nevertheless, and not where the fourth sample was. -/
theorem kept_samples_moved :
    ∃ r : Recording Rat .logic, Recording.ofLogic 4 1 0 0 ⟨#[1, 2, 3, 4, 5, 6, 7, 8]⟩ = .ok r ∧
      (∀ x ∈ [r], x.rate = 4) ∧
      ∃ taken t', remove (1 / 8) (3 / 4) ⟨[r], 0⟩ = .ok taken t' ∧
        Capture.concat (t'.recordings.map Recording.capture) = [4, 5, 6, 7, 8] ∧
        t'.origin = 0 ∧ t'.origin ≠ 0 + (3 : Nat) / (4 : Nat) := by
  have hruns : ∃ r : Recording Rat .logic,
      Recording.ofLogic 4 1 0 0 ⟨#[1, 2, 3, 4, 5, 6, 7, 8]⟩ = .ok r ∧
      [r].map Recording.capture = [⟨0, 4, 1, [1, 2, 3, 4, 5, 6, 7, 8], false⟩] :=
    ⟨_, rfl, by decide +kernel⟩
  obtain ⟨r, h, hcaptures⟩ := hruns
  have hrate : ∀ x ∈ [r], x.rate = 4 := rate_of_captures hcaptures (by simp)
  have hheld : (⟨[r], 0⟩ : Timeline Rat .logic).held = 8 := by
    rw [← length_concat, hcaptures]
    rfl
  -- The removal starts within the first sample, behind the origin.
  have hwindow : (⟨[r], 0⟩ : Timeline Rat .logic).window (1 / 8) (3 / 4) =
      .ok (some (1 / 8, 3 / 4)) := by
    refine window_eq_some.2 ⟨List.cons_ne_nil _ _, ?_, ?_, by norm_num⟩ <;>
      rw [nearest_eq hrate, hheld] <;> norm_num
  have hfirst : sampleIndex 4 ((1 / 8 : Rat) - 0) = 0 := by norm_num [sampleIndex]
  have hlast : sampleIndex 4 ((3 / 4 : Rat) - 0) = 3 := by norm_num [sampleIndex]
  obtain ⟨taken, t', hremove, hkept, horigin⟩ := remove_one_rate hrate hwindow
  simp only [hheld, hfirst, hlast, hcaptures] at hkept
  replace hkept : Capture.concat (t'.recordings.map Recording.capture) = [4, 5, 6, 7, 8] :=
    hkept.trans (by decide +kernel)
  have hleft : t'.recordings ≠ [] := by
    apply recordings_ne_nil_of_held
    rw [← length_concat, hkept]
    decide
  -- So the origin stays, though the first three samples go.
  replace horigin : t'.origin = 0 := by
    rw [horigin hleft]
    exact if_neg (by norm_num)
  refine ⟨r, h, hrate, taken, t', hremove, hkept, horigin, ?_⟩
  rw [horigin]
  norm_num

end Timeline

end Waveform
