import Mathlib
import Waveform.Proofs.TimelineCuts

/-!
# Removing a stretch of time

A stretch of time that is removed from a timeline takes from each recording the samples between its two
ends, counted from where the recording starts on the timeline (`Capture.withoutBetween`).  If all
recordings are of one rate, these are the parts of one range of samples of all recordings taken together,
wherever one of them ends and the next one starts; `Capture.withoutRange` says what the parts come to.
Times are exact here.

## Key results

- `Capture.concat_withoutRange`: exactly the samples of the range are gone
- `Timeline.plan_cons_cases`: what the plan of an erasure does to one recording
- `Timeline.plan_withoutBetween`: the cuts of an erasure take what lies between two times
- `Timeline.remove_exact`: what removing a stretch of time leaves
-/

namespace Waveform

variable {τ : Type} {k : Signal}

/-! ## Deleting a range of samples -/

namespace Capture

/-- A recording without its samples from `first` up to `stop`.  It is gone if it had samples and none
is left. -/
def without (first stop : Nat) (c : Capture τ) : Option (Capture τ) :=
  let left := c.samples.take first ++ c.samples.drop stop
  if c.samples ≠ [] ∧ left = [] then none else some { c with samples := left }

/-- Recordings, one after the other, without the samples from `first` up to `stop` of them all. -/
def withoutRange : Nat → Nat → List (Capture τ) → List (Capture τ)
  | _, _, [] => []
  | first, stop, c :: newer =>
    (c.without first stop).toList ++
      withoutRange (first - c.samples.length) (stop - c.samples.length) newer

/-- The samples of recordings, one recording after the other. -/
def concat (cs : List (Capture τ)) : List UInt64 :=
  cs.flatMap samples

/-- A recording that keeps all samples stays, be it without any. -/
theorem without_of_eq {first stop : Nat} {c : Capture τ}
    (h : c.samples.take first ++ c.samples.drop stop = c.samples) :
    c.without first stop = some c := by
  unfold without
  rw [h]
  exact if_neg fun hboth => hboth.1 hboth.2

/-- The samples that a recording is left with, whether it stays or not. -/
theorem concat_without {first stop : Nat} (c : Capture τ) :
    concat (c.without first stop).toList = c.samples.take first ++ c.samples.drop stop := by
  unfold without
  dsimp only
  split
  · rename_i h
    rw [h.2]
    rfl
  · simp [concat]

/-- Of all samples together exactly those of the range are gone. -/
theorem concat_withoutRange {first stop : Nat} (hordered : first ≤ stop) (cs : List (Capture τ)) :
    concat (withoutRange first stop cs) = (concat cs).take first ++ (concat cs).drop stop := by
  -- Up the captures: the range is counted from the start of each.
  induction cs generalizing first stop with
  | nil => simp [withoutRange, concat]
  | cons c newer ih =>
    have hrest := ih (Nat.sub_le_sub_right hordered c.samples.length)
    have hsplit : concat (withoutRange first stop (c :: newer)) =
        concat (c.without first stop).toList ++
          concat (withoutRange (first - c.samples.length) (stop - c.samples.length) newer) := by
      simp [withoutRange, concat]
    have hconcat : concat (c :: newer) = c.samples ++ concat newer := by simp [concat]
    rw [hsplit, concat_without, hrest, hconcat, List.take_append, List.drop_append]
    -- Either the range does not start in the newer recordings, or it goes on to them.
    rcases Nat.le_total first c.samples.length with hle | hle
    · simp [Nat.sub_eq_zero_of_le hle]
    · simp [List.drop_eq_nil_of_le (Nat.le_trans hle hordered)]

/-- What lies beyond the end of a list is not there to be taken. -/
theorem take_min {α : Type} {l : List α} {m : Nat} (h : l.length ≤ m) (n : Nat) :
    l.take (min m n) = l.take n := by
  rw [List.take_eq_take_iff]
  omega

/-- Of a list no more can be dropped than all of it. -/
theorem drop_min {α : Type} {l : List α} {m : Nat} (h : l.length ≤ m) (n : Nat) :
    l.drop (min m n) = l.drop n := by
  rcases Nat.le_total n m with hle | hle
  · rw [Nat.min_eq_right hle]
  · rw [Nat.min_eq_left hle, List.drop_eq_nil_of_le h, List.drop_eq_nil_of_le (Nat.le_trans h hle)]

/-- A range that ends beyond the last sample ends with it. -/
theorem withoutRange_min (first stop : Nat) (cs : List (Capture τ)) :
    withoutRange (min (concat cs).length first) (min (concat cs).length stop) cs =
      withoutRange first stop cs := by
  induction cs generalizing first stop with
  | nil => rfl
  | cons c newer ih =>
    have hlength : (concat (c :: newer)).length = c.samples.length + (concat newer).length := by
      simp [concat]
    have hrest (n : Nat) : min (concat (c :: newer)).length n - c.samples.length =
        min (concat newer).length (n - c.samples.length) := by omega
    have hle : c.samples.length ≤ (concat (c :: newer)).length := by omega
    simp only [withoutRange, without, take_min hle, drop_min hle, hrest, ih]

end Capture

/-- A cut that deletes a range of samples leaves what is to be left. -/
theorem Recording.outlineAfter_ofRange {r : Recording τ k} (hpos : 0 < r.count) {first stop : Nat}
    (hordered : first ≤ stop) :
    (r.outlineAfter (.ofRange (min first r.count) (min stop r.count) r.count)).map Prod.fst =
      r.capture.without first stop := by
  rw [r.count_eq_length] at hpos ⊢
  rw [Nat.min_comm first, Nat.min_comm stop]
  have htake := Capture.take_min (Nat.le_refl r.capture.samples.length) first
  have hdrop := Capture.drop_min (Nat.le_refl r.capture.samples.length) stop
  have hleft : (r.capture.samples.take first ++ r.capture.samples.drop stop).length =
      min first r.capture.samples.length + (r.capture.samples.length - stop) := by simp
  -- The cases are those of the cut: all samples, some of them, or none.
  unfold Cut.ofRange
  split
  · have hnil : r.capture.samples.take first ++ r.capture.samples.drop stop = [] :=
      List.eq_nil_of_length_eq_zero (by omega)
    exact (if_pos ⟨List.ne_nil_of_length_pos hpos, hnil⟩).symm
  · have hkept : r.capture.samples.take first ++ r.capture.samples.drop stop ≠ [] :=
      List.ne_nil_of_length_pos (by omega)
    split
    · simp only [outlineAfter, Cut.leaves, htake, hdrop]
      exact (if_neg fun hboth => hkept hboth.2).symm
    · have hsame : min r.capture.samples.length first = min r.capture.samples.length stop := by omega
      refine (Capture.without_of_eq ?_).symm
      rw [← htake, ← hdrop, hsame, List.take_append_drop]

/-! ## Exact time -/

/-- The index of the sample that covers a time, counted from the first sample.  A time that falls short
of a sample by a millionth of it or less stands for that sample. -/
def sampleIndex (rate : Nat) (elapsed : Rat) : Nat :=
  ⌊elapsed * rate + 1 / 1000000⌋₊

section SampleIndex

variable {rate : Nat} {x y : Rat} {n : Nat}

/-- A time before the start stands for the first sample. -/
theorem sampleIndex_of_nonpos (h : x ≤ 0) : sampleIndex rate x = 0 := by
  have hmul : x * rate ≤ 0 := mul_nonpos_of_nonpos_of_nonneg h (Nat.cast_nonneg rate)
  unfold sampleIndex
  rw [Nat.floor_eq_zero]
  linarith

/-- A later time stands for no earlier sample. -/
theorem sampleIndex_mono (h : x ≤ y) : sampleIndex rate x ≤ sampleIndex rate y := by
  apply Nat.floor_mono
  gcongr

/-- A time that is earlier by whole samples stands for a sample that is earlier by as many. -/
theorem sampleIndex_sub (hrate : 0 < rate) (x : Rat) (n : Nat) :
    sampleIndex rate (x - n / rate) = sampleIndex rate x - n := by
  have hne : (rate : Rat) ≠ 0 := by positivity
  unfold sampleIndex
  rw [← Nat.floor_sub_natCast]
  congr 1
  field_simp
  ring

/-- A time at which some samples are over stands for one behind them. -/
theorem le_sampleIndex (hrate : 0 < rate) (h : (n : Rat) / rate ≤ x) : n ≤ sampleIndex rate x := by
  have hpos : (0 : Rat) < rate := Nat.cast_pos.2 hrate
  apply Nat.le_floor
  rw [div_le_iff₀ hpos] at h
  linarith

end SampleIndex

namespace Capture

/-- The time that the samples of a recording take. -/
def duration (c : Capture τ) : Rat :=
  c.samples.length / c.rate

/-- Recordings of any rates without the samples between two times.  The first recording starts at
`offset`, and each of the others when the one before it is over. -/
def withoutBetween (start stop : Rat) : Rat → List (Capture τ) → List (Capture τ)
  | _, [] => []
  | offset, c :: newer =>
    (c.without (sampleIndex c.rate (start - offset)) (sampleIndex c.rate (stop - offset))).toList ++
      withoutBetween start stop (offset + c.duration) newer

/-- No recording takes less than no time. -/
theorem duration_nonneg (c : Capture τ) : 0 ≤ c.duration := by
  unfold duration
  positivity

/-- The samples of the newer recordings count from where this one is over. -/
theorem sampleIndex_sub_duration {c : Capture τ} (hrate : 0 < c.rate) (t offset : Rat) :
    sampleIndex c.rate (t - (offset + c.duration)) =
      sampleIndex c.rate (t - offset) - c.samples.length := by
  rw [← sub_sub]
  exact sampleIndex_sub hrate (t - offset) c.samples.length

/-- What lies before the recordings takes nothing from them. -/
theorem withoutBetween_of_le {start stop offset : Rat} (hordered : start ≤ stop)
    (h : stop ≤ offset) (cs : List (Capture τ)) : withoutBetween start stop offset cs = cs := by
  induction cs generalizing offset with
  | nil => rfl
  | cons c newer ih =>
    have hnext := ih (h.trans (le_add_of_nonneg_right c.duration_nonneg))
    rw [withoutBetween, hnext, sampleIndex_of_nonpos (by linarith),
      sampleIndex_of_nonpos (by linarith), without_of_eq (by simp)]
    rfl

/-- Between recordings of one rate a stretch of time is one range of samples. -/
theorem withoutBetween_eq_withoutRange {rate : Nat} (hpos : 0 < rate) (start stop offset : Rat)
    {cs : List (Capture τ)} (hrate : ∀ c ∈ cs, c.rate = rate) :
    withoutBetween start stop offset cs =
      withoutRange (sampleIndex rate (start - offset)) (sampleIndex rate (stop - offset)) cs := by
  induction cs generalizing offset with
  | nil => rfl
  | cons c newer ih =>
    obtain rfl := hrate c List.mem_cons_self
    rw [withoutBetween, withoutRange, ih _ fun x hx => hrate x (List.mem_cons_of_mem c hx),
      sampleIndex_sub_duration hpos, sampleIndex_sub_duration hpos]

end Capture

/-- Of exact times the later is the greater. -/
theorem Clock.later_eq_max (a b : Rat) : later a b = max a b := by
  rw [max_comm, max_def]
  rfl

/-- Of exact times the earlier is the lesser. -/
theorem Clock.earlier_eq_min (a b : Rat) : earlier a b = min a b := by
  rw [min_def]
  rfl

namespace Timeline

/-- In exact time the samples before a time are those up to the one it stands for. -/
theorem samplesBefore_eq (rate count : Nat) (elapsed : Rat) :
    samplesBefore elapsed (Clock.ofCount rate) count = min (sampleIndex rate elapsed) count := by
  show min (⌊elapsed * rate + 1 / 1000000⌋.toNat) count = _
  rw [Int.floor_toNat]
  rfl

/-- The time that a recording takes, as a quotient. -/
theorem duration_eq (r : Recording Rat k) : r.duration = (r.count : Rat) / r.rate :=
  rfl

/-- No recording takes less than no time. -/
theorem duration_nonneg (r : Recording Rat k) : 0 ≤ r.duration :=
  div_nonneg (Nat.cast_nonneg _) (Nat.cast_nonneg _)

/-- Only a recording without samples takes no time. -/
theorem count_eq_zero_of_duration_le {r : Recording Rat k} (h : r.duration ≤ 0) : r.count = 0 := by
  have hrate : (0 : Rat) < r.rate := Nat.cast_pos.2 r.rate_pos
  rw [duration_eq, div_le_iff₀ hrate, zero_mul] at h
  exact_mod_cast le_antisymm h (Nat.cast_nonneg r.count)

section Ends

variable (r : Recording Rat k) (start stop offset : Rat)

/-- The first sample to be erased from a recording that starts at `offset`. -/
theorem first_eq :
    (if max start offset ≤ offset then 0
      else samplesBefore (max start offset - offset) (Clock.ofCount r.rate) r.count) =
      min (sampleIndex r.rate (start - offset)) r.count := by
  rcases le_or_gt start offset with h | h
  · rw [max_eq_right h, if_pos le_rfl, sampleIndex_of_nonpos (sub_nonpos.2 h), Nat.zero_min]
  · rw [max_eq_left h.le, if_neg h.not_ge, samplesBefore_eq]

/-- The end of the samples to be erased from a recording that starts at `offset`. -/
theorem last_eq :
    (if offset + r.duration ≤ min stop (offset + r.duration) then r.count
      else samplesBefore (min stop (offset + r.duration) - offset) (Clock.ofCount r.rate) r.count) =
      min (sampleIndex r.rate (stop - offset)) r.count := by
  rcases le_or_gt (offset + r.duration) stop with h | h
  · have hreach : r.count ≤ sampleIndex r.rate (stop - offset) :=
      le_sampleIndex r.rate_pos (le_sub_iff_add_le'.2 h)
    rw [min_eq_right h, if_pos le_rfl, Nat.min_eq_right hreach]
  · rw [min_eq_left h.le, if_neg h.not_ge, samplesBefore_eq]

end Ends

/-- What the plan of an erasure in exact time does to the oldest recording: the walk ends before it,
or leaves it alone because it is over by then, or cuts it. -/
theorem plan_cons_cases {start stop : Rat} (hlt : start < stop) (offset erasedTo : Rat)
    (r : Recording Rat k) (newer : List (Recording Rat k)) :
    let first := min (sampleIndex r.rate (start - offset)) r.count
    let last := min (sampleIndex r.rate (stop - offset)) r.count
    let kept := plan start stop (offset + r.duration) erasedTo newer
    let cut := plan start stop (offset + r.duration) (offset + last / r.rate) newer
    (stop ≤ offset ∧
      plan start stop offset erasedTo (r :: newer) = ((r :: newer).map (·, .keep), erasedTo)) ∨
    (offset < stop ∧ r.count ≤ sampleIndex r.rate (start - offset) ∧
      plan start stop offset erasedTo (r :: newer) = ((r, .keep) :: kept.1, kept.2)) ∨
    (offset < stop ∧ 0 < r.count ∧ plan start stop offset erasedTo (r :: newer) =
      ((r, .ofRange first last r.count) :: cut.1, cut.2)) := by
  intro first last kept cut
  have hfirst := first_eq r start offset
  have hlast := last_eq r stop offset
  simp only [plan, Clock.later_eq_max, Clock.earlier_eq_min]
  -- The overlap of the erasure with the recording is empty or not.
  split
  · rename_i hempty
    replace hempty : min stop (offset + r.duration) ≤ max start offset := hempty
    -- An empty one is before or behind the recording.
    split
    · exact .inl ⟨‹_›, rfl⟩
    · rename_i hearly
      replace hearly : ¬ stop ≤ offset := hearly
      refine .inr (.inl ⟨lt_of_not_ge hearly, ?_, rfl⟩)
      -- The recording is over when the erasure starts, or it has no samples.
      have hover : offset + r.duration ≤ start ∨ r.duration ≤ 0 := by
        rcases le_max_iff.1 hempty with h | h <;> rcases min_le_iff.1 h with h | h
        · exact absurd h hlt.not_ge
        · exact .inl h
        · exact absurd h hearly
        · exact .inr (by linarith)
      rcases hover with hover | hover
      · exact le_sampleIndex r.rate_pos (le_sub_iff_add_le'.2 hover)
      · rw [count_eq_zero_of_duration_le hover]
        exact Nat.zero_le _
  · rename_i hoverlap
    replace hoverlap : ¬ min stop (offset + r.duration) ≤ max start offset := hoverlap
    -- A stretch of time reaches into the recording, so there are samples in it.
    have hpos : 0 < r.count := by
      refine Nat.pos_of_ne_zero fun hzero => hoverlap ?_
      rw [duration_eq, hzero, Nat.cast_zero, zero_div, add_zero]
      exact (min_le_right _ _).trans (le_max_right _ _)
    have hearly : ¬ stop ≤ offset := fun h =>
      hoverlap ((min_le_left _ _).trans (h.trans (le_max_right _ _)))
    refine .inr (.inr ⟨lt_of_not_ge hearly, hpos, ?_⟩)
    simp only [cut, first, last, ← hfirst, ← hlast]
    rfl

/-- Newer recordings are left alone by an erasure that ends before them. -/
theorem plan_of_le {start stop : Rat} (hlt : start < stop) {offset : Rat} (h : stop ≤ offset)
    (erasedTo : Rat) (recordings : List (Recording Rat k)) :
    plan start stop offset erasedTo recordings = (recordings.map (·, .keep), erasedTo) := by
  cases recordings with
  | nil => rfl
  | cons r newer =>
    rcases plan_cons_cases hlt offset erasedTo r newer with ⟨-, hplan⟩ | ⟨hearly, -⟩ | ⟨hearly, -⟩
    · exact hplan
    · exact absurd h hearly.not_ge
    · exact absurd h hearly.not_ge

/-- An erasure in exact time is planned as the deletion of a stretch of time. -/
theorem plan_withoutBetween {start stop : Rat} (hlt : start < stop)
    (recordings : List (Recording Rat k)) (offset erasedTo : Rat) :
    (plan start stop offset erasedTo recordings).1.filterMap
        (fun p => (p.1.outlineAfter p.2).map Prod.fst) =
      Capture.withoutBetween start stop offset (recordings.map Recording.capture) := by
  -- Recordings that the walk does not reach are kept as they are.
  have hkeep (rs : List (Recording Rat k)) :
      (rs.map (·, Cut.keep)).filterMap (fun p => (p.1.outlineAfter p.2).map Prod.fst) =
        rs.map Recording.capture := by
    simp [List.filterMap_map, Function.comp_def, Recording.outlineAfter, Cut.leaves]
  have hcons {α β : Type} (f : α → Option β) (x : α) (xs : List α) :
      (x :: xs).filterMap f = (f x).toList ++ xs.filterMap f := by
    cases hx : f x <;> simp [hx]
  induction recordings generalizing offset erasedTo with
  | nil => rfl
  | cons r newer ih =>
    have hordered : sampleIndex r.rate (start - offset) ≤ sampleIndex r.rate (stop - offset) :=
      sampleIndex_mono (by linarith)
    have hduration : r.duration = r.capture.duration := by
      rw [duration_eq, r.count_eq_length]
      rfl
    -- The recording is behind the erasure, before it, or cut.
    rcases plan_cons_cases hlt offset erasedTo r newer with
      ⟨hlate, hplan⟩ | ⟨-, hover, hplan⟩ | ⟨-, hpos, hplan⟩
    · rw [hplan, hkeep, Capture.withoutBetween_of_le hlt.le hlate]
    · rw [r.count_eq_length] at hover
      have hsame : r.capture.samples.take (sampleIndex r.rate (start - offset)) ++
          r.capture.samples.drop (sampleIndex r.rate (stop - offset)) = r.capture.samples := by
        rw [List.take_of_length_le hover, List.drop_eq_nil_of_le (hover.trans hordered),
          List.append_nil]
      rw [hplan, List.map_cons, Capture.withoutBetween, hcons, ih, hduration]
      congr 1
      exact congrArg Option.toList (Capture.without_of_eq hsame).symm
    · rw [hplan, List.map_cons, Capture.withoutBetween, hcons, ih, hduration,
        Recording.outlineAfter_ofRange hpos hordered]
      rfl

/-- Among recordings of one rate it is the deletion of a range of samples. -/
theorem plan_without {rate : Nat} {start stop : Rat} (hlt : start < stop)
    (recordings : List (Recording Rat k)) (hrate : ∀ r ∈ recordings, r.rate = rate)
    (offset erasedTo : Rat) :
    (plan start stop offset erasedTo recordings).1.filterMap
        (fun p => (p.1.outlineAfter p.2).map Prod.fst) =
      Capture.withoutRange (sampleIndex rate (start - offset)) (sampleIndex rate (stop - offset))
        (recordings.map Recording.capture) := by
  rw [plan_withoutBetween hlt]
  cases recordings with
  | nil => rfl
  | cons r newer =>
    have hpos : 0 < rate := hrate r List.mem_cons_self ▸ r.rate_pos
    refine Capture.withoutBetween_eq_withoutRange hpos _ _ _ fun c hc => ?_
    obtain ⟨x, hx, rfl⟩ := List.mem_map.1 hc
    exact hrate x hx


/-! ## The stretch that is removed -/

/-- The samples of all recordings taken together are those that the timeline holds. -/
theorem length_concat (t : Timeline τ k) :
    (Capture.concat (t.recordings.map Recording.capture)).length = t.held := by
  obtain ⟨recordings, origin⟩ := t
  unfold held
  induction recordings with
  | nil => rfl
  | cons r newer ih =>
    rw [List.foldr_cons, ← ih, r.count_eq_length]
    simp [Capture.concat]

/-- Recordings of one rate take the time that their samples take together. -/
theorem total_eq {rate : Nat} (t : Timeline Rat k) (hrate : ∀ r ∈ t.recordings, r.rate = rate) :
    t.total = (t.held : Rat) / rate := by
  obtain ⟨recordings, origin⟩ := t
  unfold held total
  induction recordings with
  | nil => exact (zero_div (rate : Rat)).symm
  | cons r newer ih =>
    have hnewer := ih fun x hx => hrate x (List.mem_cons_of_mem r hx)
    dsimp only at hnewer ⊢
    rw [List.foldr_cons, List.foldr_cons, hnewer, duration_eq, hrate r List.mem_cons_self,
      Nat.cast_add, add_comm (r.count : Rat), add_div]

/-- Recordings of one rate have a rate that is not zero. -/
theorem rate_pos {t : Timeline τ k} {rate : Nat} (hrate : ∀ r ∈ t.recordings, r.rate = rate)
    (hne : t.recordings ≠ []) : 0 < rate := by
  obtain ⟨r, hr⟩ := List.exists_mem_of_ne_nil _ hne
  exact hrate r hr ▸ r.rate_pos

/-- The rate of recordings can be read off what they hold. -/
theorem rate_of_captures {rate : Nat} {recordings : List (Recording τ k)}
    {captures : List (Capture τ)} (hcaptures : recordings.map Recording.capture = captures)
    (hrate : ∀ c ∈ captures, c.rate = rate) : ∀ r ∈ recordings, r.rate = rate := by
  intro r hr
  exact hrate r.capture (hcaptures ▸ List.mem_map_of_mem hr)

/-- All recordings together take no less than no time. -/
theorem total_nonneg (t : Timeline Rat k) : 0 ≤ t.total := by
  obtain ⟨recordings, origin⟩ := t
  unfold total
  induction recordings with
  | nil => exact le_rfl
  | cons r newer ih => exact add_nonneg ih (duration_nonneg r)

/-- Two exact times that are in order have a time between them that is nearest to a given one. -/
theorem clamp_eq {low high : Rat} (h : low ≤ high) (x : Rat) :
    Clock.clamp x low high = .ok (max low (min x high)) := by
  rw [Clock.clamp, require, if_pos h]
  show Except.ok (if x < low then low else if high < x then high else x) = _
  congr 1
  split
  · rw [max_eq_left ((min_le_left _ _).trans (by linarith))]
  · split
    · rw [min_eq_right (by linarith), max_eq_right h]
    · rw [min_eq_left (by linarith), max_eq_right (by linarith)]

/-- The time on a timeline that is nearest to a given one.  A time before zero counts as zero. -/
def nearest (t : Timeline Rat k) (x : Rat) : Rat :=
  max t.origin (min (max x 0) (t.origin + t.total))

/-- The time nearest to a given one lies before the end of the timeline. -/
theorem nearest_le_end (t : Timeline Rat k) (x : Rat) : t.nearest x ≤ t.origin + t.total :=
  max_le (le_add_of_nonneg_right t.total_nonneg) (min_le_right _ _)

/-- On a timeline that starts at zero or later the rule for times before zero makes no difference. -/
theorem nearest_of_nonneg {t : Timeline Rat k} (horigin : 0 ≤ t.origin) (x : Rat) :
    t.nearest x = max t.origin (min x (t.origin + t.total)) := by
  have hlimit : 0 ≤ t.origin + t.total := add_nonneg horigin t.total_nonneg
  rcases le_total x 0 with hx | hx
  · rw [nearest, max_eq_right hx, max_eq_left ((min_le_left _ _).trans horigin),
      max_eq_left ((min_le_left _ _).trans (hx.trans horigin))]
  · rw [nearest, max_eq_left hx]

/-- A timeline does not end before it starts, so no stretch of exact time is refused. -/
theorem window_eq (t : Timeline Rat k) (start stop : Rat) :
    t.window start stop = .ok (
      if t.recordings.isEmpty then none
      else if t.nearest start < t.nearest stop then some (t.nearest start, t.nearest stop)
      else none) := by
  have hclamp (x : Rat) :
      Clock.clamp (Clock.later x Clock.zero) t.origin (t.origin + t.total) = .ok (t.nearest x) := by
    rw [clamp_eq (le_add_of_nonneg_right t.total_nonneg), Clock.later_eq_max]
    rfl
  unfold window
  split
  · rfl
  · dsimp only
    rw [hclamp, hclamp]
    rfl

/-- Either something of a stretch of exact time lies on a timeline, or nothing does. -/
theorem window_cases (t : Timeline Rat k) (start stop : Rat) :
    t.window start stop = .ok none ∨ ∃ low high, t.window start stop = .ok (some (low, high)) := by
  rw [window_eq]
  split
  · exact .inl rfl
  · split
    · exact .inr ⟨_, _, rfl⟩
    · exact .inl rfl

/-- A stretch of time is erased from if the times nearest to its ends are in order. -/
theorem window_eq_some {t : Timeline Rat k} {start stop low high : Rat} :
    t.window start stop = .ok (some (low, high)) ↔
      t.recordings ≠ [] ∧ low = t.nearest start ∧ high = t.nearest stop ∧ low < high := by
  rw [window_eq]
  -- An empty timeline has no window, and an inverted or empty range none either.
  split
  · rename_i hempty
    simp [List.isEmpty_iff.1 hempty]
  · rename_i hne
    rw [List.isEmpty_iff] at hne
    split
    · rename_i hlt
      constructor
      · intro h
        obtain ⟨rfl, rfl⟩ := Prod.mk.inj (Option.some.inj (Except.ok.inj h))
        exact ⟨hne, rfl, rfl, hlt⟩
      · rintro ⟨-, rfl, rfl, -⟩
        rfl
    · rename_i hge
      constructor
      · intro h
        cases h
      · rintro ⟨-, rfl, rfl, hlt⟩
        exact absurd hlt hge

/-- Removing a stretch of time keeps its contract.  Each of the two times is brought to the stretch that
the recordings cover, and stands for the sample that covers it there, or for the end.  If nothing lies
between the times nothing changes; otherwise exactly the samples between them are gone. -/
theorem remove_exact {t : Timeline Rat k} {rate : Nat} (hrate : ∀ r ∈ t.recordings, r.rate = rate)
    (horigin : 0 ≤ t.origin) (start stop : Rat) :
    let limit := t.origin + t.held / rate
    let low := max t.origin (min start limit)
    let high := max t.origin (min stop limit)
    let first := min t.held ⌊(low - t.origin) * rate + 1 / 1000000⌋₊
    let last := min t.held ⌊(high - t.origin) * rate + 1 / 1000000⌋₊
    let captures := t.recordings.map Recording.capture
    ∃ taken t', remove start stop t = .ok taken t' ∧
      (high ≤ low → t' = t) ∧
      (low < high →
        t'.recordings.map Recording.capture = Capture.withoutRange first last captures ∧
        Capture.concat (t'.recordings.map Recording.capture) =
          (Capture.concat captures).take first ++ (Capture.concat captures).drop last) := by
  intro limit low high first last captures
  -- For an origin that is not negative the clamp to positive times changes nothing.
  have hnearest (x : Rat) : t.nearest x = max t.origin (min x limit) := by
    rw [nearest_of_nonneg horigin, total_eq t hrate]
  have hwindow : t.window start stop =
      .ok (if t.recordings.isEmpty then none else if low < high then some (low, high) else none) := by
    rw [window_eq, hnearest, hnearest]
  rw [remove_eq, hwindow]
  by_cases hlt : low < high
  · -- Without recordings the timeline is one point of time.
    have hne : ¬ t.recordings.isEmpty = true := by
      intro hempty
      have hheld : t.held = 0 := by
        rw [held, List.isEmpty_iff.1 hempty]
        rfl
      have hpoint : limit = t.origin := by
        rw [show limit = t.origin + t.held / rate from rfl, hheld, Nat.cast_zero, zero_div, add_zero]
      have hlow : low = t.origin := max_eq_left (hpoint ▸ min_le_right _ _)
      have hhigh : high = t.origin := max_eq_left (hpoint ▸ min_le_right _ _)
      exact hlt.ne (hlow.trans hhigh.symm)
    rw [if_neg hne, if_pos hlt]
    -- The erasure leaves what the plan says, in time; at one rate that is a range of samples.
    obtain ⟨t', herase, houtlines⟩ := erase_ok low high t
    have hcaptures : t'.recordings.map Recording.capture =
        Capture.withoutRange first last captures := by
      have houtlined : t'.recordings.map Recording.capture =
          (t'.recordings.map Recording.outline).map Prod.fst := by
        rw [List.map_map]
        rfl
      rw [houtlined, houtlines, List.map_filterMap, plan_without hlt t.recordings hrate,
        ← Capture.withoutRange_min, t.length_concat]
      rfl
    have hordered : first ≤ last := by
      have hindex : sampleIndex rate (low - t.origin) ≤ sampleIndex rate (high - t.origin) :=
        sampleIndex_mono (sub_le_sub_right hlt.le _)
      exact min_le_min le_rfl hindex
    exact ⟨_, t', herase, fun h => absurd hlt h.not_gt, fun _ =>
      ⟨hcaptures, by rw [hcaptures, Capture.concat_withoutRange hordered]⟩⟩
  · refine ⟨[], t, ?_, fun _ => rfl, fun h => absurd h hlt⟩
    rw [if_neg hlt, ite_self]

/-- A stretch of time that ends within the last of four recordings, one of which has no samples. -/
theorem remove_exact_across_recordings :
    ∃ r₁ r₂ r₃ r₄ : Recording Rat .logic,
      Recording.ofLogic 4 1 0 0 ⟨#[1, 2, 3, 4]⟩ = .ok r₁ ∧ Recording.ofLogic 4 1 1 0 ⟨#[]⟩ = .ok r₂ ∧
      Recording.ofLogic 4 1 1 0 ⟨#[5, 6]⟩ = .ok r₃ ∧
      Recording.ofLogic 4 1 2 0 ⟨#[7, 8, 9]⟩ = .ok r₄ ∧
      ∃ taken t', remove (1 / 2) (7 / 4) ⟨[r₁, r₂, r₃, r₄], 0⟩ = .ok taken t' ∧
        t'.recordings.map Recording.capture =
          [⟨0, 4, 1, [1, 2], false⟩, ⟨1, 4, 1, [], false⟩, ⟨2, 4, 1, [8, 9], false⟩] ∧
        Capture.concat (t'.recordings.map Recording.capture) = [1, 2, 8, 9] := by
  -- The recordings are evaluated; what is removed follows from the theorem.
  have hruns : ∃ r₁ r₂ r₃ r₄ : Recording Rat .logic,
      Recording.ofLogic 4 1 0 0 ⟨#[1, 2, 3, 4]⟩ = .ok r₁ ∧ Recording.ofLogic 4 1 1 0 ⟨#[]⟩ = .ok r₂ ∧
      Recording.ofLogic 4 1 1 0 ⟨#[5, 6]⟩ = .ok r₃ ∧
      Recording.ofLogic 4 1 2 0 ⟨#[7, 8, 9]⟩ = .ok r₄ ∧
      [r₁, r₂, r₃, r₄].map Recording.capture =
        [⟨0, 4, 1, [1, 2, 3, 4], false⟩, ⟨1, 4, 1, [], false⟩, ⟨1, 4, 1, [5, 6], false⟩,
          ⟨2, 4, 1, [7, 8, 9], false⟩] :=
    ⟨_, _, _, _, rfl, rfl, rfl, rfl, by decide +kernel⟩
  obtain ⟨r₁, r₂, r₃, r₄, h₁, h₂, h₃, h₄, hcaptures⟩ := hruns
  have hrate : ∀ r ∈ [r₁, r₂, r₃, r₄], r.rate = 4 := rate_of_captures hcaptures (by simp)
  have hheld : (⟨[r₁, r₂, r₃, r₄], 0⟩ : Timeline Rat .logic).held = 9 := by
    rw [← length_concat, hcaptures]
    rfl
  obtain ⟨taken, t', hremove, -, hrange⟩ :=
    remove_exact (t := ⟨[r₁, r₂, r₃, r₄], 0⟩) hrate le_rfl (1 / 2) (7 / 4)
  have hlow : max (0 : Rat) (min (1 / 2) (0 + ((9 : Nat) : Rat) / ((4 : Nat) : Rat))) = 1 / 2 := by
    norm_num
  have hhigh : max (0 : Rat) (min (7 / 4) (0 + ((9 : Nat) : Rat) / ((4 : Nat) : Rat))) = 7 / 4 := by
    norm_num
  have hfirst : ⌊((1 / 2 : Rat) - 0) * ((4 : Nat) : Rat) + 1 / 1000000⌋₊ = 2 := by norm_num
  have hlast : ⌊((7 / 4 : Rat) - 0) * ((4 : Nat) : Rat) + 1 / 1000000⌋₊ = 7 := by norm_num
  simp only [hheld, hlow, hhigh, hfirst, hlast, hcaptures] at hrange
  obtain ⟨hkept, hconcat⟩ := hrange (by norm_num)
  exact ⟨r₁, r₂, r₃, r₄, h₁, h₂, h₃, h₄, taken, t', hremove, hkept.trans (by decide +kernel),
    hconcat.trans (by decide +kernel)⟩

end Timeline

end Waveform
