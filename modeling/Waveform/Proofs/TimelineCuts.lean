import Waveform.Proofs.BlockWriting
import Waveform.Timeline.Basic

/-!
# Cuts of a timeline

What an erasure does to the recordings of a timeline, whatever the clock.  The cuts that it plans are
cuts within the recordings (`plan_fits`), so carrying them out cannot fail, and what stays can be read
off the plan: `Recording.outlineAfter` says what a cut leaves of a recording.

## Key results

- `Timeline.erase_eq_ok`: an erasure keeps its contract, and leaves what its plan says
- `Timeline.Sheds`, `Timeline.sheds_remove`, `Timeline.sheds_crop`, `Timeline.sheds_clear`: a live
  recording stays on the timeline or is among those that are returned, unless nothing is changed
-/

namespace Waveform

open Operation

variable {τ : Type} {k : Signal}

/-! ## Cutting one recording -/

/-- The cut lies within a recording of the given number of samples. -/
def Cut.Fits (count : Nat) : Cut → Prop
  | .trim first stop => first ≤ stop ∧ stop ≤ count
  | .keep | .drop => True

/-- What a cut leaves of the samples of a recording, if the recording stays. -/
def Cut.leaves (words : List UInt64) : Cut → Option (List UInt64)
  | .keep => some words
  | .drop => none
  | .trim first stop => some (words.take first ++ words.drop stop)

/-- The cut for a range that ends within a recording lies within it. -/
theorem Cut.fits_ofRange {first stop count : Nat} (h : stop ≤ count) :
    (Cut.ofRange first stop count).Fits count := by
  unfold ofRange
  split
  · trivial
  · split
    · exact ⟨Nat.le_of_lt ‹_›, h⟩
    · trivial

namespace Recording

/-- What a recording holds, and whether it is live. -/
def outline (r : Recording τ k) : Capture τ × Bool :=
  (r.capture, r.live)

/-- What a cut leaves of a recording, if the recording stays. -/
def outlineAfter (r : Recording τ k) (c : Cut) : Option (Capture τ × Bool) :=
  (c.leaves r.capture.samples).map fun samples => ({ r.capture with samples }, r.live)

/-- A range of samples that are there can be removed, and only they are gone. -/
theorem remove_ok (r : Recording τ k) {first stop : Nat} (hordered : first ≤ stop)
    (hwithin : stop ≤ r.count) :
    ∃ r', remove first stop r = .ok () r' ∧ r.outlineAfter (.trim first stop) = some r'.outline := by
  let range : SampleRange r.trace.samples.count := ⟨first, stop, hordered, hwithin⟩
  have hsamples : Trace.onSamples (Packed.remove first stop) r.trace =
      .ok () { r.trace with samples := r.trace.samples.without range } :=
    Trace.onSamples_eq_ok.2 ⟨_, r.trace.samples.remove_ok range, rfl⟩
  refine ⟨_, onTrace_eq_ok.2 ⟨_, bind_eq_ok.2 ⟨(), _, hsamples, rfl⟩, rfl⟩, ?_⟩
  show some ((⟨_, _, _, _, _⟩ : Capture τ), r.live) = some ((⟨_, _, _, _, _⟩ : Capture τ), r.live)
  congr 3
  exact (Packed.words_without r.trace.samples range).symm

end Recording

/-! ## Cutting a timeline -/

namespace Timeline

/-- Cuts within the recordings can be carried out, and leave of each recording what they are to
leave. -/
theorem applyCuts_ok {cuts : List (Recording τ k × Cut)}
    (hcuts : ∀ p ∈ cuts, p.2.Fits p.1.count) :
    ∃ kept, applyCuts cuts = .ok kept ∧
      kept.map Recording.outline = cuts.filterMap fun p => p.1.outlineAfter p.2 := by
  -- On the cuts; a trim succeeds since it fits.
  induction cuts with
  | nil => exact ⟨[], rfl, rfl⟩
  | cons p rest ih =>
    obtain ⟨kept, happly, hkept⟩ := ih fun q hq => hcuts q (List.mem_cons_of_mem _ hq)
    obtain ⟨r, c⟩ := p
    cases c with
    | keep =>
      refine ⟨r :: kept, by rw [applyCuts, happly]; rfl, ?_⟩
      rw [List.map_cons, hkept]
      rfl
    | drop => exact ⟨kept, by rw [applyCuts, happly], hkept⟩
    | trim first stop =>
      obtain ⟨hordered, hwithin⟩ := hcuts _ List.mem_cons_self
      obtain ⟨r', hremove, houtline⟩ := r.remove_ok hordered hwithin
      refine ⟨r' :: kept, ?_, ?_⟩
      · rw [applyCuts, after_eq_ok.2 hremove, happly]
        rfl
      · rw [List.map_cons, hkept, List.filterMap_cons, houtline]

/-- Cuts that leave all recordings alone can be carried out. -/
theorem applyCuts_keep (recordings : List (Recording τ k)) :
    applyCuts (recordings.map (·, .keep)) = .ok recordings := by
  induction recordings with
  | nil => rfl
  | cons r newer ih =>
    rw [List.map_cons, applyCuts, ih]
    rfl

/-- Cuts that leave all recordings alone take none off. -/
theorem dropped_keep (recordings : List (Recording τ k)) :
    dropped (recordings.map (·, .keep)) = [] := by
  simp [dropped]

/-- The operation keeps its contract, and each live recording stays on the timeline or is returned. -/
def Sheds (act : Operation (Timeline τ k) (List (Recording τ k))) (t : Timeline τ k) : Prop :=
  ∃ taken t', act t = .ok taken t' ∧
    t'.recordings.countP (·.live) + taken.countP (·.live) = t.recordings.countP (·.live)

/-- The operation breaks its contract, and changes nothing. -/
def Declines (act : Operation (Timeline τ k) (List (Recording τ k))) (t : Timeline τ k) : Prop :=
  ∃ v, act t = .error v t

/-- Carrying out cuts sheds the recordings that they drop. -/
theorem countP_cuts (cuts : List (Recording τ k × Cut)) :
    (cuts.filterMap fun p => p.1.outlineAfter p.2).countP (·.2) +
        (dropped cuts).countP (·.live) =
      (cuts.map Prod.fst).countP (·.live) := by
  induction cuts with
  | nil => rfl
  | cons p rest ih =>
    obtain ⟨r, c⟩ := p
    cases c <;>
      simp only [dropped, List.filterMap_cons, Recording.outlineAfter, Cut.leaves, Option.map_some,
        Option.map_none, List.map_cons, List.countP_cons] at ih ⊢ <;> omega

/-- Doing nothing sheds nothing. -/
theorem Sheds.pure_nil (t : Timeline τ k) : Sheds (pure []) t :=
  ⟨[], t, rfl, rfl⟩

variable [Clock τ]

/-- The cuts of a plan are cuts of the recordings. -/
theorem map_fst_plan (start stop offset erasedTo : τ) (recordings : List (Recording τ k)) :
    (plan start stop offset erasedTo recordings).1.map Prod.fst = recordings := by
  induction recordings generalizing offset erasedTo with
  | nil => rfl
  | cons r newer ih =>
    simp only [plan]
    split
    · split
      · simp [List.map_map, Function.comp_def]
      · simp [ih]
    · simp [ih]

/-- The cuts of a plan lie within the recordings. -/
theorem plan_fits (start stop offset erasedTo : τ) (recordings : List (Recording τ k)) :
    ∀ p ∈ (plan start stop offset erasedTo recordings).1, p.2.Fits p.1.count := by
  -- Along the recordings; a cut ends with the last sample of its recording at the latest.
  induction recordings generalizing offset erasedTo with
  | nil => exact fun p hp => absurd hp List.not_mem_nil
  | cons r newer ih =>
    intro p hp
    simp only [plan] at hp
    split at hp
    · split at hp
      · obtain ⟨x, -, rfl⟩ := List.mem_map.1 hp
        trivial
      · rcases List.mem_cons.1 hp with rfl | hp
        · trivial
        · exact ih _ _ p hp
    · rcases List.mem_cons.1 hp with rfl | hp
      · refine Cut.fits_ofRange ?_
        split
        · exact Nat.le_refl _
        · exact Nat.min_le_right _ _
      · exact ih _ _ p hp

/-- An erasure keeps its contract.  What stays on the timeline, and what is returned, are as
planned, and so is the origin if the erasure starts with it. -/
theorem erase_eq_ok (start stop : τ) (t : Timeline τ k) :
    let plan := plan start stop t.origin t.origin t.recordings
    ∃ kept, applyCuts plan.1 = .ok kept ∧
      kept.map Recording.outline = (plan.1.filterMap fun p => p.1.outlineAfter p.2) ∧
      erase start stop t = .ok (dropped plan.1)
        ⟨kept, if kept.isEmpty then Clock.zero else if start ≤ t.origin then plan.2 else t.origin⟩ := by
  obtain ⟨kept, happly, hkept⟩ :=
    applyCuts_ok (plan_fits start stop t.origin t.origin t.recordings)
  refine ⟨kept, happly, hkept, ?_⟩
  rw [erase, get_bind_eq]
  exact bind_eq_ok.2 ⟨kept, t, lift_eq_ok.2 ⟨happly, rfl⟩, rfl⟩

/-- An erasure keeps its contract, and what stays is as planned. -/
theorem erase_ok (start stop : τ) (t : Timeline τ k) :
    let cuts := (plan start stop t.origin t.origin t.recordings).1
    ∃ t', erase start stop t = .ok (dropped cuts) t' ∧
      t'.recordings.map Recording.outline = cuts.filterMap fun p => p.1.outlineAfter p.2 := by
  obtain ⟨kept, -, hkept, herase⟩ := erase_eq_ok start stop t
  exact ⟨_, herase, hkept⟩

/-- An erasure that is planned to leave all recordings alone changes nothing, if it does not move the
origin. -/
theorem erase_of_keep {start stop erasedTo : τ} {t : Timeline τ k} (hne : t.recordings ≠ [])
    (hplan : plan start stop t.origin t.origin t.recordings =
      (t.recordings.map (·, .keep), erasedTo))
    (horigin : start ≤ t.origin → erasedTo = t.origin) : erase start stop t = .ok [] t := by
  obtain ⟨kept, happly, -, herase⟩ := erase_eq_ok start stop t
  rw [hplan] at happly herase
  obtain rfl : t.recordings = kept :=
    Except.ok.inj ((applyCuts_keep t.recordings).symm.trans happly)
  rw [herase, dropped_keep, if_neg (by simpa using hne)]
  split
  · rw [horigin ‹_›]
  · rfl

/-- Cropping erases what is late and then what is early. -/
theorem crop_eq_ok {start stop low high : τ} {t t₁ t₂ : Timeline τ k}
    {late early : List (Recording τ k)} (hwindow : t.window start stop = .ok (some (low, high)))
    (hlate : (if high < t.origin + t.total then erase high (t.origin + t.total) else pure []) t =
      .ok late t₁)
    (hearly : (if t₁.origin < low then erase t₁.origin low else pure []) t₁ = .ok early t₂) :
    crop start stop t = .ok (late ++ early) t₂ := by
  -- The second erasure counts from the origin as the first has left it.
  have hrest : (do
      let origin := (← get).origin
      let early ← if origin < low then erase origin low else pure []
      return late ++ early : Operation (Timeline τ k) (List (Recording τ k))) t₁ =
        .ok (late ++ early) t₂ := by
    rw [get_bind_eq]
    by_cases h : t₁.origin < low
    · rw [if_pos h] at hearly ⊢
      exact bind_eq_ok.2 ⟨early, t₂, hearly, rfl⟩
    · rw [if_neg h] at hearly ⊢
      cases hearly
      rfl
  rw [crop, get_bind_eq]
  refine bind_eq_ok.2 ⟨some (low, high), t, lift_eq_ok.2 ⟨hwindow, rfl⟩, ?_⟩
  dsimp only
  by_cases h : high < t.origin + t.total
  · rw [if_pos h] at hlate ⊢
    exact bind_eq_ok.2 ⟨late, t₁, hlate, hrest⟩
  · rw [if_neg h] at hlate ⊢
    cases hlate
    exact hrest

/-- Where nothing of a stretch of time lies on the timeline, cropping to it changes nothing. -/
theorem crop_of_none {start stop : τ} {t : Timeline τ k} (hwindow : t.window start stop = .ok none) :
    crop start stop t = .ok [] t := by
  rw [crop, get_bind_eq]
  exact bind_eq_ok.2 ⟨none, t, lift_eq_ok.2 ⟨hwindow, rfl⟩, rfl⟩

/-- A stretch of time that is refused is refused before anything is erased. -/
theorem crop_of_error {start stop : τ} {t : Timeline τ k} {v : Violation}
    (hwindow : t.window start stop = .error v) : crop start stop t = .error v t := by
  rw [crop, get_bind_eq]
  exact bind_eq_error.2 (.inl (lift_eq_error.2 ⟨hwindow, rfl⟩))

/-! ## Live recordings -/

/-- An erasure returns the recordings that it takes off. -/
theorem sheds_erase (start stop : τ) (t : Timeline τ k) : Sheds (erase start stop) t := by
  obtain ⟨t', herase, houtlines⟩ := erase_ok start stop t
  have hkept : t'.recordings.countP (·.live) =
      (t'.recordings.map Recording.outline).countP (·.2) := by
    rw [List.countP_map]
    rfl
  exact ⟨_, t', herase, by rw [hkept, houtlines, countP_cuts, map_fst_plan]⟩

/-- Removing is erasing what lies on the timeline. -/
theorem remove_eq (start stop : τ) (t : Timeline τ k) :
    remove start stop t =
      match t.window start stop with
      | .ok none => .ok [] t
      | .ok (some (low, high)) => erase low high t
      | .error v => .error v t := by
  rw [remove, get_bind_eq]
  cases t.window start stop with
  | ok ends => cases ends <;> rfl
  | error v => rfl

/-- Removing returns the recordings that it takes off, or changes nothing. -/
theorem sheds_remove (start stop : τ) (t : Timeline τ k) :
    Declines (remove start stop) t ∨ Sheds (remove start stop) t := by
  rw [Declines, Sheds, remove_eq]
  cases t.window start stop with
  | error v => exact .inl ⟨v, rfl⟩
  | ok ends =>
    cases ends with
    | none => exact .inr (Sheds.pure_nil t)
    | some ends => exact .inr (sheds_erase ends.1 ends.2 t)

/-- Cropping returns the recordings that it takes off, or changes nothing. -/
theorem sheds_crop (start stop : τ) (t : Timeline τ k) :
    Declines (crop start stop) t ∨ Sheds (crop start stop) t := by
  cases hwindow : t.window start stop with
  | error v => exact .inl ⟨v, crop_of_error hwindow⟩
  | ok ends =>
    cases ends with
    | none => exact .inr ⟨[], t, crop_of_none hwindow, rfl⟩
    | some ends =>
      obtain ⟨low, high⟩ := ends
      -- Either erasure sheds recordings, also where it is not made.
      have hstage (start stop : τ) (p : Prop) [Decidable p] (t : Timeline τ k) :
          Sheds (if p then erase start stop else pure []) t := by
        split
        · exact sheds_erase start stop t
        · exact Sheds.pure_nil t
      obtain ⟨late, t₁, hlate, hcount⟩ :=
        hstage high (t.origin + t.total) (high < t.origin + t.total) t
      obtain ⟨early, t₂, hearly, hcount'⟩ := hstage t₁.origin low (t₁.origin < low) t₁
      refine .inr ⟨late ++ early, t₂, crop_eq_ok hwindow hlate hearly, ?_⟩
      rw [List.countP_append]
      omega

/-- Clearing returns all recordings. -/
theorem sheds_clear (t : Timeline τ k) : Sheds clear t :=
  ⟨t.recordings, _, rfl, by simp [empty]⟩

end Timeline

end Waveform
