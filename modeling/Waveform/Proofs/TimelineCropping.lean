import Mathlib
import Waveform.Proofs.TimelineOrigin

/-!
# Cropping a timeline

Cropping erases what is late and then what is early.  The samples that a time is in the midst of are cut
by whole samples, so the timeline that is left may end before the late time, and start before the early
one, by less than a sample.  What matters is that no sample is left that either erasure would take
(`Timeline.Fits`): cropping establishes this, and leaves a timeline alone that has it.

Times are exact here, and the recordings may be of any rates.

## Key results

- `Timeline.crop_of_fits`: a timeline that fits between two times is left alone
- `Timeline.crop_ok`, `Timeline.fits_of_crop`: what cropping leaves, and that it fits
- `Timeline.crop_idempotent`: cropping once more changes nothing, and no sample changes its time
-/

namespace Waveform

variable {τ : Type} {k : Signal}

namespace Capture

/-! ## Recordings between two times -/

/-- No sample of the recordings is reached by an erasure that starts at a time.  The first recording
starts at `offset`. -/
def NoneFrom (stop : Rat) : Rat → List (Capture τ) → Prop
  | _, [] => True
  | offset, c :: newer =>
    c.samples.length ≤ sampleIndex c.rate (stop - offset) ∧ NoneFrom stop (offset + c.duration) newer

/-- No sample of the recordings is erased up to a time.  Recordings without samples are passed by. -/
def NoneBefore (start offset : Rat) : List (Capture τ) → Prop
  | [] => True
  | c :: newer =>
    if c.samples = [] then NoneBefore start offset newer
    else sampleIndex c.rate (start - offset) = 0

variable {start stop offset t t' : Rat} {cs : List (Capture τ)}

/-- Where nothing lies behind a time nothing lies behind a later one. -/
theorem NoneFrom.mono (h : NoneFrom t offset cs) (hle : t ≤ t') : NoneFrom t' offset cs := by
  induction cs generalizing offset with
  | nil => trivial
  | cons c newer ih =>
    exact ⟨h.1.trans (sampleIndex_mono (sub_le_sub_right hle offset)), ih h.2⟩

/-- Where nothing lies before a time nothing lies before an earlier one. -/
theorem NoneBefore.anti (h : NoneBefore t' offset cs) (hle : t ≤ t') : NoneBefore t offset cs := by
  induction cs with
  | nil => trivial
  | cons c newer ih =>
    rw [NoneBefore] at h ⊢
    -- Only the first recording with samples counts.
    split at h
    · rw [if_pos ‹_›]
      exact ih h
    · rw [if_neg ‹_›]
      exact Nat.eq_zero_of_le_zero (h ▸ sampleIndex_mono (sub_le_sub_right hle offset))

/-- Nothing lies before the time at which the recordings start. -/
theorem noneBefore_of_le (h : t ≤ offset) (cs : List (Capture τ)) : NoneBefore t offset cs := by
  induction cs with
  | nil => trivial
  | cons c newer ih =>
    rw [NoneBefore]
    split
    · exact ih
    · exact sampleIndex_of_nonpos (sub_nonpos.2 h)

/-- Recordings without samples have none behind any time. -/
theorem noneFrom_of_samples_nil (h : ∀ c ∈ cs, c.samples = []) : NoneFrom t offset cs := by
  induction cs generalizing offset with
  | nil => trivial
  | cons c newer ih =>
    refine ⟨?_, ih fun x hx => h x (List.mem_cons_of_mem c hx)⟩
    rw [h c List.mem_cons_self]
    exact Nat.zero_le _

/-! ## Erasing what is late -/

/-- Nothing is taken behind a time if nothing lies there. -/
theorem withoutBetween_of_noneFrom (h : NoneFrom start offset cs) (hle : start ≤ stop) :
    withoutBetween start stop offset cs = cs := by
  induction cs generalizing offset with
  | nil => rfl
  | cons c newer ih =>
    have hstop := h.1.trans (sampleIndex_mono (sub_le_sub_right hle offset))
    rw [withoutBetween, ih h.2, without_of_eq]
    · rfl
    · rw [List.take_of_length_le h.1, List.drop_eq_nil_of_le hstop, List.append_nil]

/-- Behind the start of an erasure that goes on to the end only recordings without samples stay. -/
theorem samples_nil_of_mem_withoutBetween (h : NoneFrom stop offset cs) (hstart : start ≤ offset) :
    ∀ c ∈ withoutBetween start stop offset cs, c.samples = [] := by
  induction cs generalizing offset with
  | nil => exact fun c hc => absurd hc List.not_mem_nil
  | cons c newer ih =>
    intro c' hc'
    rcases List.mem_append.1 hc' with hc' | hc'
    · rw [without_eq_some (Option.mem_toList.1 hc'), sampleIndex_of_nonpos (sub_nonpos.2 hstart),
        List.drop_eq_nil_of_le h.1]
      rfl
    · exact ih h.2 (hstart.trans (le_add_of_nonneg_right c.duration_nonneg)) c' hc'

/-- Erasing up to the end leaves no sample from the start of the erasure on. -/
theorem noneFrom_withoutBetween (hrate : ∀ c ∈ cs, 0 < c.rate) (h : NoneFrom stop offset cs) :
    NoneFrom start offset (withoutBetween start stop offset cs) := by
  -- Up the recordings: `stop` is behind all samples, so nothing is kept behind the cut.
  induction cs generalizing offset with
  | nil => trivial
  | cons c newer ih =>
    have hnewer := ih (fun x hx => hrate x (List.mem_cons_of_mem c hx)) h.2
    have hdrop : c.samples.drop (sampleIndex c.rate (stop - offset)) = [] :=
      List.drop_eq_nil_of_le h.1
    rw [withoutBetween]
    -- The erasure starts behind this recording or within it.
    by_cases hall : c.samples.length ≤ sampleIndex c.rate (start - offset)
    · rw [without_of_eq (by rw [List.take_of_length_le hall, hdrop, List.append_nil])]
      exact ⟨hall, hnewer⟩
    · -- The erasure starts within this recording, and takes all samples of the newer ones.
      have hwithin := lt_of_sampleIndex_lt (hrate c List.mem_cons_self) (not_le.1 hall)
      have hempty := samples_nil_of_mem_withoutBetween h.2 hwithin.le
      cases hleft : c.without (sampleIndex c.rate (start - offset))
        (sampleIndex c.rate (stop - offset)) with
      | none => exact noneFrom_of_samples_nil hempty
      | some c' =>
        obtain rfl := without_eq_some hleft
        refine ⟨?_, noneFrom_of_samples_nil hempty⟩
        show (c.samples.take _ ++ c.samples.drop _).length ≤ _
        rw [hdrop, List.append_nil]
        exact List.length_take_le _ _

/-! ## Erasing what is early -/

/-- An erasure from the head takes off what lies before its end, but for recordings without samples. -/
theorem without_zero_of_le {last : Nat} {c : Capture τ} (h : c.samples.length ≤ last) :
    (c.without 0 last).toList = if c.samples = [] then [c] else [] := by
  have hleft : c.samples.take 0 ++ c.samples.drop last = [] := by
    rw [List.take_zero, List.nil_append, List.drop_eq_nil_of_le h]
  split
  · rename_i hnil
    rw [without_of_eq (hleft.trans hnil.symm)]
    rfl
  · unfold without
    rw [if_pos ⟨‹_›, hleft⟩]
    rfl

/-- A recording that loses only its first samples stays. -/
theorem without_zero_of_lt {last : Nat} {c : Capture τ} (h : last < c.samples.length) :
    c.without 0 last = some { c with samples := c.samples.drop last } := by
  unfold without
  refine if_neg fun hboth => ?_
  have hlength := congrArg List.length hboth.2
  rw [List.take_zero, List.nil_append, List.length_drop, List.length_nil] at hlength
  omega

/-- What is erased up to a time from the head is gone. -/
theorem noneBefore_withoutBetween (hrate : ∀ c ∈ cs, 0 < c.rate) (hstart : start ≤ offset) :
    NoneBefore stop (headEnd stop offset cs) (withoutBetween start stop offset cs) := by
  -- Up the recordings, while they are erased whole or start with what is kept.
  induction cs generalizing offset with
  | nil => trivial
  | cons c newer ih =>
    have hnewer := ih (fun x hx => hrate x (List.mem_cons_of_mem c hx))
      (hstart.trans (le_add_of_nonneg_right c.duration_nonneg))
    rw [withoutBetween, headEnd, sampleIndex_of_nonpos (sub_nonpos.2 hstart)]
    split
    · rw [without_zero_of_le ‹_›]
      split
      · rw [List.singleton_append, NoneBefore, if_pos ‹_›]
        exact hnewer
      · exact hnewer
    · rename_i hpart
      rw [without_zero_of_lt (not_le.1 hpart)]
      -- A part is kept, and its first sample is the one the origin moves to.
      have hleft : c.samples.drop (sampleIndex c.rate (stop - offset)) ≠ [] := by
        intro hnil
        exact hpart (List.drop_eq_nil_iff.1 hnil)
      show NoneBefore _ _ (_ :: _)
      rw [NoneBefore, if_neg hleft, ← sub_sub, sampleIndex_sub (hrate c List.mem_cons_self)]
      exact Nat.sub_self _

/-- What is late is not brought back by what is erased from the head. -/
theorem NoneFrom.withoutBetween_head (hrate : ∀ c ∈ cs, 0 < c.rate) (h : NoneFrom t offset cs)
    (hstart : start ≤ offset) (hordered : start ≤ stop) :
    NoneFrom t (headEnd stop offset cs) (withoutBetween start stop offset cs) := by
  -- Up the recordings: those that go leave the rest where it was.
  induction cs generalizing offset with
  | nil => trivial
  | cons c newer ih =>
    have hpos := hrate c List.mem_cons_self
    have hnewer := ih (fun x hx => hrate x (List.mem_cons_of_mem c hx)) h.2
      (hstart.trans (le_add_of_nonneg_right c.duration_nonneg))
    rw [withoutBetween, headEnd, sampleIndex_of_nonpos (sub_nonpos.2 hstart)]
    split
    · rw [without_zero_of_le ‹_›]
      split
      · -- A recording without samples stays and takes no time.
        rename_i hnil
        refine ⟨?_, ?_⟩
        · rw [hnil]
          exact Nat.zero_le _
        · show NoneFrom t (_ + c.duration) (withoutBetween start stop (offset + c.duration) newer)
          simpa only [duration_of_nil hnil, add_zero] using hnewer
      · exact hnewer
    · rename_i hpart
      -- The erasure ends within this recording, and the newer ones start where they did.
      have hwithin := lt_of_sampleIndex_lt hpos (not_le.1 hpart)
      rw [without_zero_of_lt (not_le.1 hpart), withoutBetween_of_le hordered hwithin.le]
      have hends : offset + sampleIndex c.rate (stop - offset) / c.rate +
          Capture.duration { c with samples := c.samples.drop (sampleIndex c.rate (stop - offset)) } =
            offset + c.duration := by
        rw [duration, duration, List.length_drop, Nat.cast_sub (not_le.1 hpart).le]
        ring
      refine ⟨?_, hends ▸ h.2⟩
      rw [List.length_drop, ← sub_sub, sampleIndex_sub hpos]
      exact Nat.sub_le_sub_right h.1 _

/-! ## Recordings of one rate -/

/-- Only the samples of a range are left when those behind it and those before it are gone. -/
theorem concat_withoutRange_twice {first last count : Nat} (hall : (concat cs).length ≤ count)
    (hlast : last ≤ count) :
    concat (withoutRange 0 first (withoutRange last count cs)) =
      ((concat cs).take last).drop first := by
  rw [concat_withoutRange (Nat.zero_le first), concat_withoutRange hlast, List.take_zero,
    List.nil_append, List.drop_eq_nil_of_le hall, List.append_nil]

/-- Between recordings of one rate an erasure that goes on to the end is a range of samples. -/
theorem withoutBetween_late {rate : Nat} (hpos : 0 < rate) (hrate : ∀ c ∈ cs, c.rate = rate)
    (hall : (concat cs).length ≤ sampleIndex rate (stop - offset)) :
    withoutBetween start stop offset cs =
      withoutRange (min (concat cs).length (sampleIndex rate (start - offset)))
        (concat cs).length cs := by
  rw [withoutBetween_eq_withoutRange hpos _ _ _ hrate, ← withoutRange_min, Nat.min_eq_left hall]

/-- Between recordings of one rate an erasure from the head is a range of samples. -/
theorem withoutBetween_early {rate : Nat} (hpos : 0 < rate) (hrate : ∀ c ∈ cs, c.rate = rate)
    (hstart : start ≤ offset) :
    withoutBetween start stop offset cs =
      withoutRange 0 (min (concat cs).length (sampleIndex rate (stop - offset))) cs := by
  rw [withoutBetween_eq_withoutRange hpos _ _ _ hrate, sampleIndex_of_nonpos (sub_nonpos.2 hstart),
    ← withoutRange_min, Nat.min_zero]

end Capture

namespace Timeline

/-! ## Erasures that are planned to leave everything alone -/

section Plan

variable {start stop offset : Rat} {recordings : List (Recording Rat k)}

/-- An erasure behind all samples is planned to leave all recordings alone. -/
theorem plan_of_noneFrom (hlt : start < stop)
    (h : Capture.NoneFrom start offset (recordings.map Recording.capture)) (erasedTo : Rat) :
    (plan start stop offset erasedTo recordings).1 = recordings.map (·, .keep) := by
  induction recordings generalizing offset erasedTo with
  | nil => rfl
  | cons r newer ih =>
    obtain ⟨hall, hnewer⟩ := h
    rw [duration_capture] at hnewer
    -- The recording is behind the erasure, before it, or cut.
    rcases plan_cons_cases hlt offset erasedTo r newer with
      ⟨-, hplan⟩ | ⟨-, -, hplan⟩ | ⟨-, hpos, hplan⟩
    · rw [hplan]
    · rw [hplan, ih hnewer]
      rfl
    · -- The cut would start and stop behind the last sample.
      replace hall : r.count ≤ sampleIndex r.rate (start - offset) := r.count_eq_length ▸ hall
      have hstop := hall.trans (sampleIndex_mono (sub_le_sub_right hlt.le offset))
      have hkeep : Cut.ofRange r.count r.count r.count = .keep := by
        rw [Cut.ofRange, if_neg fun hboth => hpos.ne' hboth.1, if_neg (Nat.lt_irrefl _)]
      rw [hplan, ih hnewer, Nat.min_eq_right hall, Nat.min_eq_right hstop, hkeep]
      rfl

/-- An erasure before all samples is planned to leave recordings and origin alone. -/
theorem plan_of_noneBefore (hlt : start < stop) (hstart : start ≤ offset)
    (h : Capture.NoneBefore stop offset (recordings.map Recording.capture)) :
    plan start stop offset offset recordings = (recordings.map (·, .keep), offset) := by
  induction recordings with
  | nil => rfl
  | cons r newer ih =>
    rw [List.map_cons, Capture.NoneBefore] at h
    -- The recording is behind the erasure, before it, or cut.
    rcases plan_cons_cases hlt offset offset r newer with
      ⟨-, hplan⟩ | ⟨-, hover, hplan⟩ | ⟨-, hpos, hplan⟩
    · exact hplan
    · -- Only a recording without samples is over when the erasure starts.
      rw [sampleIndex_of_nonpos (sub_nonpos.2 hstart)] at hover
      have hnil : r.capture.samples = [] :=
        List.eq_nil_of_length_eq_zero (r.count_eq_length ▸ Nat.le_zero.1 hover)
      rw [if_pos hnil] at h
      rw [hplan, ← duration_capture, Capture.duration_of_nil hnil, add_zero, ih h]
      rfl
    · -- The cut would stop before the first sample, and the walk ends with this recording.
      have hne : r.capture.samples ≠ [] :=
        List.ne_nil_of_length_pos (r.count_eq_length ▸ hpos)
      rw [if_neg hne] at h
      replace h : sampleIndex r.rate (stop - offset) = 0 := h
      have hwithin : stop ≤ offset + r.duration := by
        rw [← duration_capture]
        refine (Capture.lt_of_sampleIndex_lt r.rate_pos ?_).le
        exact h ▸ List.length_pos_iff.2 hne
      have hkeep : Cut.ofRange 0 0 r.count = .keep := by
        rw [Cut.ofRange, if_neg fun hboth => hpos.ne hboth.2, if_neg (Nat.lt_irrefl _)]
      rw [hplan, sampleIndex_of_nonpos (sub_nonpos.2 hstart), h, Nat.zero_min, hkeep, Nat.cast_zero,
        zero_div, add_zero, plan_of_le hlt hwithin]
      rfl

end Plan

/-! ## Timelines that fit between two times -/

/-- Neither an erasure from the head up to `start` nor one from `stop` on would take a sample. -/
structure Fits (start stop : Rat) (t : Timeline Rat k) : Prop where
  none_before : Capture.NoneBefore (max start 0) t.origin (t.recordings.map Recording.capture)
  none_from : Capture.NoneFrom (max stop 0) t.origin (t.recordings.map Recording.capture)

variable {t : Timeline Rat k} {start stop low high : Rat}

/-- All samples come before the end of the timeline. -/
theorem noneFrom_total (t : Timeline Rat k) :
    Capture.NoneFrom (t.origin + t.total) t.origin (t.recordings.map Recording.capture) := by
  obtain ⟨recordings, origin⟩ := t
  -- Up the recordings: each takes its part of the total.
  induction recordings generalizing origin with
  | nil => trivial
  | cons r newer ih =>
    have htotal : total ⟨r :: newer, origin⟩ = total ⟨newer, origin⟩ + r.duration := rfl
    have hnewer := ih (origin + r.duration)
    have hnonneg := total_nonneg (⟨newer, origin⟩ : Timeline Rat k)
    refine ⟨?_, ?_⟩
    · rw [← r.count_eq_length]
      refine le_sampleIndex r.rate_pos ?_
      show r.duration ≤ origin + total ⟨r :: newer, origin⟩ - origin
      rw [htotal]
      linarith
    · rw [duration_capture]
      refine hnewer.mono (le_of_eq ?_)
      show origin + r.duration + total ⟨newer, origin⟩ = origin + total ⟨r :: newer, origin⟩
      rw [htotal]
      ring

/-- Within the timeline the nearest time is the time itself. -/
theorem nearest_le {x : Rat} (h : t.origin < t.nearest x) : t.nearest x ≤ max x 0 := by
  rcases lt_max_iff.1 h with h | h
  · exact absurd h (lt_irrefl _)
  · rw [nearest, max_eq_right h.le]
    exact min_le_left _ _

/-- Before the end of the timeline the nearest time is the time itself. -/
theorem le_nearest {x : Rat} (h : t.nearest x < t.origin + t.total) : max x 0 ≤ t.nearest x := by
  have hmin : min (max x 0) (t.origin + t.total) < t.origin + t.total :=
    (le_max_right _ _).trans_lt h
  have hx : max x 0 < t.origin + t.total := (min_lt_iff.1 hmin).resolve_right (lt_irrefl _)
  rw [nearest, min_eq_left hx.le]
  exact le_max_right _ _

/-- A timeline that fits between two times is left alone. -/
theorem crop_of_fits (h : t.Fits start stop) : crop start stop t = .ok [] t := by
  rcases window_cases t start stop with hwindow | ⟨low, high, hwindow⟩
  · exact crop_of_none hwindow
  · -- Both erasures take nothing, since no sample is late or early.
    obtain ⟨hne, rfl, rfl, hlt⟩ := window_eq_some.1 hwindow
    have hlow : t.origin ≤ t.nearest start := le_max_left _ _
    have hlate : (if t.nearest stop < t.origin + t.total then
        erase (t.nearest stop) (t.origin + t.total) else pure []) t = .ok [] t := by
      split
      · rename_i hlt'
        have hkeep := plan_of_noneFrom hlt' (h.none_from.mono (le_nearest hlt')) t.origin
        exact erase_of_keep hne (Prod.ext hkeep rfl) fun hle => absurd hle (hlow.trans_lt hlt).not_ge
      · rfl
    have hearly : (if t.origin < t.nearest start then erase t.origin (t.nearest start)
        else pure []) t = .ok [] t := by
      split
      · rename_i hlt'
        have hkeep := plan_of_noneBefore hlt' le_rfl (h.none_before.anti (nearest_le hlt'))
        exact erase_of_keep hne hkeep fun _ => rfl
      · rfl
    exact crop_eq_ok hwindow hlate hearly

/-! ## What cropping leaves -/

/-- What is left when a timeline was to end with a time. -/
theorem erase_late_ok (hlow : t.origin < high) (hhigh : high ≤ t.origin + t.total) :
    ∃ late t', (if high < t.origin + t.total then erase high (t.origin + t.total) else pure []) t =
        .ok late t' ∧
      t'.recordings.map Recording.capture = Capture.withoutBetween high (t.origin + t.total) t.origin
        (t.recordings.map Recording.capture) ∧
      (t'.recordings ≠ [] → t'.origin = t.origin) := by
  split
  · rename_i hlt
    obtain ⟨late, t', herase, hcaptures, horigin⟩ := erase_exact hlt t
    refine ⟨late, t', herase, hcaptures, fun hne => ?_⟩
    rw [horigin, if_neg (by simpa using hne), if_neg hlow.not_ge]
  · rename_i hend
    have hall := t.noneFrom_total.mono (not_lt.1 hend)
    exact ⟨[], t, rfl, (Capture.withoutBetween_of_noneFrom hall hhigh).symm, fun _ => rfl⟩

/-- What is left when a timeline was to start with a time. -/
theorem erase_early_ok (hlow : t.recordings ≠ [] → t.origin ≤ low) :
    ∃ early t', (if t.origin < low then erase t.origin low else pure []) t = .ok early t' ∧
      t'.recordings.map Recording.capture =
        Capture.withoutBetween t.origin low t.origin (t.recordings.map Recording.capture) ∧
      (t'.recordings ≠ [] →
        t'.origin = Capture.headEnd low t.origin (t.recordings.map Recording.capture)) := by
  split
  · rename_i hlt
    obtain ⟨early, t', herase, hcaptures, horigin⟩ := erase_exact hlt t
    refine ⟨early, t', herase, hcaptures, fun hne => ?_⟩
    rw [horigin, if_neg (by simpa using hne), if_pos le_rfl]
  · rename_i hge
    refine ⟨[], t, rfl, ?_, fun _ => (Capture.headEnd_of_le (not_lt.1 hge) _).symm⟩
    by_cases hne : t.recordings = []
    · rw [hne]
      rfl
    · exact (Capture.withoutBetween_of_le (hlow hne) (not_lt.1 hge) _).symm

/-- Cropping erases what is late and then what is early.  What is left starts where the samples end
that were erased from the head. -/
theorem crop_ok (hwindow : t.window start stop = .ok (some (low, high))) :
    let captures := t.recordings.map Recording.capture
    let kept := Capture.withoutBetween high (t.origin + t.total) t.origin captures
    ∃ taken t', crop start stop t = .ok taken t' ∧
      t'.recordings.map Recording.capture = Capture.withoutBetween t.origin low t.origin kept ∧
      (t'.recordings ≠ [] → t'.origin = Capture.headEnd low t.origin kept) := by
  intro captures kept
  obtain ⟨-, rfl, rfl, hlt⟩ := window_eq_some.1 hwindow
  have hlow : t.origin ≤ t.nearest start := le_max_left _ _
  have hhigh := t.nearest_le_end stop
  -- The late samples go first, and with them out of the way the early ones.
  obtain ⟨late, t₁, hlate, hkept, horigin⟩ := erase_late_ok (hlow.trans_lt hlt) hhigh
  obtain ⟨early, t₂, hearly, hleft, hstarts⟩ :=
    erase_early_ok fun hne => (horigin hne).trans_le hlow
  refine ⟨late ++ early, t₂, crop_eq_ok hwindow hlate hearly, ?_⟩
  replace hkept : t₁.recordings.map Recording.capture = kept := hkept
  rw [hkept] at hleft hstarts
  by_cases hne : t₁.recordings = []
  · -- All samples were late; the origin is lost, but nothing is left to start with it.
    have hnil : kept = [] := by
      rw [← hkept, hne]
      rfl
    rw [hnil] at hleft ⊢
    exact ⟨hleft, fun hne₂ => absurd (List.map_eq_nil_iff.1 hleft) hne₂⟩
  · rw [horigin hne] at hleft hstarts
    exact ⟨hleft, hstarts⟩

/-- What cropping leaves where it is known to succeed. -/
theorem crop_left (hwindow : t.window start stop = .ok (some (low, high)))
    {taken : List (Recording Rat k)} {t' : Timeline Rat k}
    (hcrop : crop start stop t = .ok taken t') :
    let captures := t.recordings.map Recording.capture
    let kept := Capture.withoutBetween high (t.origin + t.total) t.origin captures
    t'.recordings.map Recording.capture = Capture.withoutBetween t.origin low t.origin kept ∧
      (t'.recordings ≠ [] → t'.origin = Capture.headEnd low t.origin kept) := by
  obtain ⟨_, _, hcrop', hleft⟩ := crop_ok hwindow
  rw [hcrop] at hcrop'
  cases hcrop'
  exact hleft

/-- What cropping leaves fits between its times. -/
theorem fits_of_crop (hwindow : t.window start stop = .ok (some (low, high)))
    {taken : List (Recording Rat k)} {t' : Timeline Rat k}
    (hcrop : crop start stop t = .ok taken t') : t'.Fits start stop := by
  obtain ⟨hcaptures, horigin⟩ := crop_left hwindow hcrop
  obtain ⟨hne, rfl, rfl, hlt⟩ := window_eq_some.1 hwindow
  have hlow : t.origin ≤ t.nearest start := le_max_left _ _
  have hhigh := t.nearest_le_end stop
  -- Without recordings there is nothing to be late or early.
  by_cases hleft : t'.recordings = []
  · constructor <;> rw [hleft] <;> trivial
  · let kept := Capture.withoutBetween (t.nearest stop) (t.origin + t.total) t.origin
      (t.recordings.map Recording.capture)
    have hcapturesRate := rate_captures (0 < ·) fun r (_ : r ∈ t.recordings) => r.rate_pos
    have hrate : ∀ c ∈ kept, 0 < c.rate := Capture.rate_withoutBetween (0 < ·) hcapturesRate
    have hkept : Capture.NoneFrom (t.nearest stop) t.origin kept :=
      Capture.noneFrom_withoutBetween hcapturesRate t.noneFrom_total
    -- The early samples are gone by the second erasure, and the late ones, gone by the first, stay
    -- gone.
    constructor
    · rw [horigin hleft, hcaptures]
      exact (Capture.noneBefore_withoutBetween hrate le_rfl).anti
        (le_nearest (hlt.trans_le hhigh))
    · rw [horigin hleft, hcaptures]
      exact (hkept.withoutBetween_head hrate le_rfl hlow).mono (nearest_le (hlow.trans_lt hlt))

/-- What cropping leaves of recordings of one rate is a range of samples of them all, and the first
sample of the range keeps its time. -/
theorem crop_one_rate {rate : Nat} (hrate : ∀ r ∈ t.recordings, r.rate = rate)
    (hwindow : t.window start stop = .ok (some (low, high))) {taken : List (Recording Rat k)}
    {t' : Timeline Rat k} (hcrop : crop start stop t = .ok taken t') :
    let first := min t.held (sampleIndex rate (low - t.origin))
    let last := min t.held (sampleIndex rate (high - t.origin))
    let captures := t.recordings.map Recording.capture
    t'.recordings.map Recording.capture =
        Capture.withoutRange 0 first (Capture.withoutRange last t.held captures) ∧
      (t'.recordings ≠ [] → t'.origin = t.origin + first / rate) := by
  intro first last captures
  obtain ⟨hcaptures, horigin⟩ := crop_left hwindow hcrop
  obtain ⟨hne, rfl, rfl, hlt⟩ := window_eq_some.1 hwindow
  -- What the first erasure leaves.
  let kept := Capture.withoutBetween (t.nearest stop) (t.origin + t.total) t.origin captures
  replace hcaptures : t'.recordings.map Recording.capture =
    Capture.withoutBetween t.origin (t.nearest start) t.origin kept := hcaptures
  have hpos : 0 < rate := rate_pos hrate hne
  have hcapturesRate : ∀ c ∈ captures, c.rate = rate := rate_captures (· = rate) hrate
  have hkeptRate : ∀ c ∈ kept, c.rate = rate := Capture.rate_withoutBetween (· = rate) hcapturesRate
  have hlength : (Capture.concat captures).length = t.held := t.length_concat
  have hordered : first ≤ last :=
    min_le_min le_rfl (sampleIndex_mono (sub_le_sub_right hlt.le t.origin))
  -- The late samples go on to the end, so only those before them are left.
  have hkept : kept = Capture.withoutRange last t.held captures := by
    have hall : (Capture.concat captures).length ≤
        sampleIndex rate (t.origin + t.total - t.origin) := by
      refine le_sampleIndex hpos ?_
      rw [hlength, add_sub_cancel_left, t.total_eq hrate]
    show Capture.withoutBetween _ _ _ _ = _
    rw [Capture.withoutBetween_late hpos hcapturesRate hall, hlength]
  have hkeptLength : (Capture.concat kept).length = last := by
    rw [hkept, Capture.concat_withoutRange (Nat.min_le_left _ _), List.drop_eq_nil_of_le hlength.le,
      List.append_nil, List.length_take, hlength]
    exact Nat.min_eq_left (Nat.min_le_left _ _)
  -- Of those that are left as many are early as of all.
  have hfirst : min last (sampleIndex rate (t.nearest start - t.origin)) = first := by
    omega
  refine ⟨?_, fun hsome => ?_⟩
  · rw [hcaptures, Capture.withoutBetween_early hpos hkeptRate le_rfl, hkeptLength, hfirst, hkept]
  · rw [horigin hsome, Capture.headEnd_eq hpos hkeptRate, hkeptLength, hfirst]

/-- Cropping keeps its contract, and cropping to the same times once more changes nothing, whatever the
rates of the recordings are and wherever the timeline starts.  If nothing lies between the times
nothing changes.  Otherwise exactly the samples between them are kept if the recordings are of one rate,
each at the time that it had.  A timeline that lies between the times altogether is left alone. -/
theorem crop_idempotent (t : Timeline Rat k) (start stop : Rat) :
    let limit := t.origin + t.total
    let low := max t.origin (min (max start 0) limit)
    let high := max t.origin (min (max stop 0) limit)
    let captures := t.recordings.map Recording.capture
    ∃ taken t', crop start stop t = .ok taken t' ∧
      crop start stop t' = .ok [] t' ∧
      (high ≤ low → taken = [] ∧ t' = t) ∧
      (∀ rate, (∀ r ∈ t.recordings, r.rate = rate) → low < high →
        let first := min t.held ⌊(low - t.origin) * rate + 1 / 1000000⌋₊
        let last := min t.held ⌊(high - t.origin) * rate + 1 / 1000000⌋₊
        let captures' := t'.recordings.map Recording.capture
        captures' = Capture.withoutRange 0 first (Capture.withoutRange last t.held captures) ∧
        Capture.concat captures' = ((Capture.concat captures).take last).drop first ∧
        ∀ i < (Capture.concat captures').length,
          t'.origin + i / rate = t.origin + (first + i : Nat) / rate) ∧
      (0 ≤ t.origin → start ≤ t.origin → limit ≤ stop → taken = [] ∧ t' = t) := by
  intro limit low high captures
  -- A timeline that fits is left as it is.
  have hunchanged {taken : List (Recording Rat k)} {t' : Timeline Rat k}
      (hcrop : crop start stop t = .ok taken t') (h : t.Fits start stop) : taken = [] ∧ t' = t := by
    rw [crop_of_fits h] at hcrop
    cases hcrop
    exact ⟨rfl, rfl⟩
  -- A range around the whole timeline fits it.
  have hfits (horigin : 0 ≤ t.origin) (hstart : start ≤ t.origin) (hstop : limit ≤ stop) :
      t.Fits start stop :=
    ⟨Capture.noneBefore_of_le (max_le hstart horigin) _,
      t.noneFrom_total.mono (hstop.trans (le_max_left _ _))⟩
  -- Either the range shrinks to nothing and the crop does nothing, or both erasures are made.
  rcases window_cases t start stop with hwindow | ⟨low', high', hwindow⟩
  · have hcrop := crop_of_none hwindow
    refine ⟨[], t, hcrop, hcrop, fun _ => ⟨rfl, rfl⟩, fun rate _ hlt => ?_, fun _ _ _ => ⟨rfl, rfl⟩⟩
    -- Without recordings the timeline is one point of time.
    have hempty : t.recordings = [] := by
      by_contra hne
      exact nomatch hwindow.symm.trans (window_eq_some.2 ⟨hne, rfl, rfl, hlt⟩)
    have hpoint : limit = t.origin := by
      show t.origin + t.total = t.origin
      rw [total, hempty]
      exact add_zero _
    have hhigh : high ≤ t.origin := max_le le_rfl ((min_le_right _ _).trans_eq hpoint)
    exact absurd hlt (hhigh.trans (le_max_left _ _)).not_gt
  · obtain ⟨hne, rfl, rfl, hlt⟩ := window_eq_some.1 hwindow
    obtain ⟨taken, t', hcrop, -⟩ := crop_ok hwindow
    refine ⟨taken, t', hcrop, crop_of_fits (fits_of_crop hwindow hcrop), fun h => absurd hlt h.not_gt,
      fun rate hrate _ => ?_, fun horigin hstart hstop => hunchanged hcrop (hfits horigin hstart hstop)⟩
    intro first last captures'
    obtain ⟨hleft, horigin⟩ := crop_one_rate hrate hwindow hcrop
    have hconcat : Capture.concat captures' = ((Capture.concat captures).take last).drop first :=
      (congrArg Capture.concat hleft).trans
        (Capture.concat_withoutRange_twice t.length_concat.le (Nat.min_le_left _ _))
    -- The times are counted from the new origin, which is that of the first sample kept.
    refine ⟨hleft, hconcat, fun i hi => ?_⟩
    have hsome : t'.recordings ≠ [] := by
      intro hnil
      have hempty : captures' = [] := List.map_eq_nil_iff.2 hnil
      rw [hempty] at hi
      exact absurd hi (Nat.not_lt_zero i)
    rw [horigin hsome, Nat.cast_add, add_div, add_assoc]
    rfl

/-- Two recordings cropped to times that lie within samples, and to times that lie around both. -/
theorem crop_idempotent_off_grid :
    ∃ r₁ r₂ : Recording Rat .logic,
      Recording.ofLogic 10 1 0 0 ⟨#[1, 2, 3, 4]⟩ = .ok r₁ ∧
      Recording.ofLogic 10 1 1 0 ⟨#[5, 6, 7, 8, 9]⟩ = .ok r₂ ∧
      (∃ taken t', crop (1 / 4) (71 / 100) ⟨[r₁, r₂], 0⟩ = .ok taken t' ∧
        crop (1 / 4) (71 / 100) t' = .ok [] t' ∧
        Capture.concat (t'.recordings.map Recording.capture) = [3, 4, 5, 6, 7] ∧
        t'.origin = 1 / 5) ∧
      crop (-1) 1 ⟨[r₁, r₂], 0⟩ = .ok [] ⟨[r₁, r₂], 0⟩ := by
  -- The recordings are evaluated; the crops are cases of the theorem.
  have hruns : ∃ r₁ r₂ : Recording Rat .logic,
      Recording.ofLogic 10 1 0 0 ⟨#[1, 2, 3, 4]⟩ = .ok r₁ ∧
      Recording.ofLogic 10 1 1 0 ⟨#[5, 6, 7, 8, 9]⟩ = .ok r₂ ∧
      [r₁, r₂].map Recording.capture =
        [⟨0, 10, 1, [1, 2, 3, 4], false⟩, ⟨1, 10, 1, [5, 6, 7, 8, 9], false⟩] :=
    ⟨_, _, rfl, rfl, by decide +kernel⟩
  obtain ⟨r₁, r₂, h₁, h₂, hcaptures⟩ := hruns
  have hrate : ∀ r ∈ [r₁, r₂], r.rate = 10 := rate_of_captures hcaptures (by simp)
  have hheld : (⟨[r₁, r₂], 0⟩ : Timeline Rat .logic).held = 9 := by
    rw [← length_concat, hcaptures]
    rfl
  have htotal : (⟨[r₁, r₂], 0⟩ : Timeline Rat .logic).total = 9 / 10 := by
    rw [total_eq _ hrate, hheld]
    norm_num
  obtain ⟨taken, t', hcrop, hagain, -, hrange, -⟩ := crop_idempotent ⟨[r₁, r₂], 0⟩ (1 / 4) (71 / 100)
  obtain ⟨taken₁, t₁, hcrop₁, -, -, -, haround⟩ := crop_idempotent ⟨[r₁, r₂], 0⟩ (-1) 1
  -- The sample numbers of the two times.
  have hlow : max (0 : Rat) (min (max (1 / 4) 0) (0 + 9 / 10)) = 1 / 4 := by norm_num
  have hhigh : max (0 : Rat) (min (max (71 / 100) 0) (0 + 9 / 10)) = 71 / 100 := by norm_num
  have hfirst : ⌊((1 / 4 : Rat) - 0) * ((10 : Nat) : Rat) + 1 / 1000000⌋₊ = 2 := by norm_num
  have hlast : ⌊((71 / 100 : Rat) - 0) * ((10 : Nat) : Rat) + 1 / 1000000⌋₊ = 7 := by norm_num
  have hrange' := hrange 10 hrate
  simp only [hheld, htotal, hlow, hhigh, hfirst, hlast, hcaptures] at hrange'
  obtain ⟨-, hkept, htimes⟩ := hrange' (by norm_num)
  replace hkept : Capture.concat (t'.recordings.map Recording.capture) = [3, 4, 5, 6, 7] :=
    hkept.trans (by decide +kernel)
  have htime := htimes 0 (by rw [hkept]; decide)
  obtain ⟨rfl, rfl⟩ := haround le_rfl (by norm_num) (by
    rw [htotal]
    norm_num)
  refine ⟨r₁, r₂, h₁, h₂, ⟨taken, t', hcrop, hagain, hkept, ?_⟩, hcrop₁⟩
  norm_num at htime
  exact htime

end Timeline

end Waveform
