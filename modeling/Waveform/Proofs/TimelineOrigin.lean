import Mathlib
import Waveform.Proofs.DetachedRecordings
import Waveform.Proofs.TimelineRemoval

/-!
# Where a timeline starts

What is erased from the head of a timeline moves its origin along: to where the samples end that are
gone (`Capture.headEnd`).  That is within the recording that the erasure ends in, or where a recording
starts that is left alone.  Times are exact here, and the recordings may be of any rates.

## Key results

- `Timeline.plan_snd`: an erasure from the head is planned to end where its samples do
- `Timeline.erase_exact`: what an erasure leaves, and where that starts
- `TimelineEdit.origin_nonneg`: no edit makes a timeline start before zero
- `Acquisition.origin_nonneg`: so no timeline of an acquisition ever does
-/

namespace Waveform

variable {τ : Type} {k : Signal}

namespace Capture

/-- Where the samples end that are erased from the head of recordings, up to a time. -/
def headEnd (stop : Rat) : Rat → List (Capture τ) → Rat
  | offset, [] => offset
  | offset, c :: newer =>
    if c.samples.length ≤ sampleIndex c.rate (stop - offset) then
      headEnd stop (offset + c.duration) newer
    else offset + sampleIndex c.rate (stop - offset) / c.rate

variable {start stop offset t : Rat} {cs : List (Capture τ)}

/-- A recording without samples takes no time. -/
theorem duration_of_nil {c : Capture τ} (h : c.samples = []) : c.duration = 0 := by
  rw [duration, h, List.length_nil, Nat.cast_zero, zero_div]

/-- A time before the end of a recording stands for one of its samples. -/
theorem lt_of_sampleIndex_lt {c : Capture τ} (hrate : 0 < c.rate)
    (h : sampleIndex c.rate (t - offset) < c.samples.length) : t < offset + c.duration := by
  by_contra hover
  exact (le_sampleIndex hrate (le_sub_iff_add_le'.2 (not_lt.1 hover))).not_gt h

/-- Nothing is erased from the head up to where it starts. -/
theorem headEnd_of_le (h : stop ≤ offset) (cs : List (Capture τ)) :
    headEnd stop offset cs = offset := by
  induction cs with
  | nil => rfl
  | cons c newer ih =>
    rw [headEnd, sampleIndex_of_nonpos (sub_nonpos.2 h)]
    split
    · rw [duration_of_nil (List.eq_nil_of_length_eq_zero (Nat.le_zero.1 ‹_›)), add_zero, ih]
    · rw [Nat.cast_zero, zero_div, add_zero]

/-- What is erased from the head does not end before it starts. -/
theorem le_headEnd (stop offset : Rat) (cs : List (Capture τ)) : offset ≤ headEnd stop offset cs := by
  induction cs generalizing offset with
  | nil => exact le_rfl
  | cons c newer ih =>
    rw [headEnd]
    split
    · exact (le_add_of_nonneg_right c.duration_nonneg).trans (ih _)
    · exact le_add_of_nonneg_right (by positivity)

/-- An erasure from the head of recordings of one rate ends with a sample of them all. -/
theorem headEnd_eq {rate : Nat} (hpos : 0 < rate) (hrate : ∀ c ∈ cs, c.rate = rate) :
    headEnd stop offset cs =
      offset + (min (concat cs).length (sampleIndex rate (stop - offset)) : Nat) / rate := by
  -- Up the recordings, as far as the erasure goes.
  induction cs generalizing offset with
  | nil => simp [headEnd, concat]
  | cons c newer ih =>
    obtain rfl := hrate c List.mem_cons_self
    have hlength : (concat (c :: newer)).length = c.samples.length + (concat newer).length := by
      simp [concat]
    rw [headEnd, hlength]
    split
    · -- The erasure covers this recording and goes on, counting from where it is over.
      rename_i hall
      rw [ih fun x hx => hrate x (List.mem_cons_of_mem c hx), sampleIndex_sub_duration hpos, duration,
        add_assoc, ← add_div, ← Nat.cast_add]
      congr 3
      omega
    · rw [Nat.min_eq_right (by omega)]

/-- A recording that stays differs in its samples alone. -/
theorem without_eq_some {first last : Nat} {c c' : Capture τ} (h : c.without first last = some c') :
    c' = { c with samples := c.samples.take first ++ c.samples.drop last } := by
  unfold without at h
  dsimp only at h
  split at h
  · exact nomatch h
  · exact (Option.some.inj h).symm

/-- The rates of recordings stay what they are. -/
theorem rate_withoutBetween (p : Nat → Prop) (h : ∀ c ∈ cs, p c.rate) :
    ∀ c ∈ withoutBetween start stop offset cs, p c.rate := by
  induction cs generalizing offset with
  | nil => exact fun c hc => absurd hc List.not_mem_nil
  | cons c newer ih =>
    intro c' hc'
    rcases List.mem_append.1 hc' with hc' | hc'
    · rw [without_eq_some (Option.mem_toList.1 hc')]
      exact h c List.mem_cons_self
    · exact ih (fun x hx => h x (List.mem_cons_of_mem c hx)) c' hc'

end Capture

namespace Timeline

/-! ## Erasing from the head -/

section Plan

variable {start stop offset : Rat} {recordings : List (Recording Rat k)}

/-- A recording takes the time that its samples take. -/
theorem duration_capture (r : Recording Rat k) : r.capture.duration = r.duration := by
  rw [duration_eq, r.count_eq_length]
  rfl

/-- What an erasure from the head is planned to end with. -/
theorem plan_snd (hlt : start < stop) (hstart : start ≤ offset) :
    (plan start stop offset offset recordings).2 =
      Capture.headEnd stop offset (recordings.map Recording.capture) := by
  -- Up the recordings, while the erasure covers them from their start.
  induction recordings generalizing offset with
  | nil => rfl
  | cons r newer ih =>
    have hnewer := ih (hstart.trans (le_add_of_nonneg_right (duration_nonneg r)))
    rcases plan_cons_cases hlt offset offset r newer with
      ⟨hlate, hplan⟩ | ⟨-, hover, hplan⟩ | ⟨-, hpos, hplan⟩
    · rw [hplan, Capture.headEnd_of_le hlate]
    · -- Only a recording without samples is over when the erasure starts.
      rw [sampleIndex_of_nonpos (sub_nonpos.2 hstart)] at hover
      have hzero : r.duration = 0 := by
        rw [duration_eq, Nat.le_zero.1 hover, Nat.cast_zero, zero_div]
      rw [hzero, add_zero] at hnewer
      rw [hplan, List.map_cons, Capture.headEnd, if_pos, duration_capture, hzero, add_zero, hnewer]
      rw [← r.count_eq_length]
      exact hover.trans (Nat.zero_le _)
    · rw [hplan, List.map_cons, Capture.headEnd, ← r.count_eq_length, duration_capture]
      split
      · rename_i hall
        replace hall : r.count ≤ sampleIndex r.rate (stop - offset) := hall
        rw [Nat.min_eq_right hall]
        exact hnewer
      · -- The erasure ends within this recording, so the walk ends before the next one.
        rename_i hpart
        replace hpart : ¬ r.count ≤ sampleIndex r.rate (stop - offset) := hpart
        have hwithin : stop ≤ offset + r.duration := by
          rw [← duration_capture]
          refine (Capture.lt_of_sampleIndex_lt r.rate_pos ?_).le
          exact r.count_eq_length ▸ not_le.1 hpart
        rw [Nat.min_eq_left (not_le.1 hpart).le, plan_of_le hlt hwithin]
        rfl

end Plan

variable {t : Timeline Rat k} {start stop low high : Rat}

/-- What is so of the rates of recordings is so of what they hold. -/
theorem rate_captures (p : Nat → Prop) (h : ∀ r ∈ t.recordings, p r.rate) :
    ∀ c ∈ t.recordings.map Recording.capture, p c.rate := by
  intro c hc
  obtain ⟨r, hr, rfl⟩ := List.mem_map.1 hc
  exact h r hr

/-- An erasure in exact time takes what lies between its two times, and moves the origin along if it
starts with the timeline. -/
theorem erase_exact (hlt : low < high) (t : Timeline Rat k) :
    let captures := t.recordings.map Recording.capture
    ∃ taken t', erase low high t = .ok taken t' ∧
      t'.recordings.map Recording.capture = Capture.withoutBetween low high t.origin captures ∧
      t'.origin =
        if t'.recordings.isEmpty then 0
        else if low ≤ t.origin then Capture.headEnd high t.origin captures else t.origin := by
  intro captures
  obtain ⟨kept, -, hkept, herase⟩ := erase_eq_ok low high t
  refine ⟨_, _, herase, ?_, ?_⟩
  · -- What stays is known with the live flags; only what it holds matters here.
    have hcaptures : kept.map Recording.capture = (kept.map Recording.outline).map Prod.fst := by
      rw [List.map_map]
      rfl
    show kept.map Recording.capture = _
    rw [hcaptures, hkept, List.map_filterMap, plan_withoutBetween hlt]
  · -- The origin is moved to where the erased head ends.
    show (if kept.isEmpty then 0
      else if low ≤ t.origin then (plan low high t.origin t.origin t.recordings).2 else t.origin) = _
    by_cases hle : low ≤ t.origin
    · rw [plan_snd hlt hle]
    · simp only [if_neg hle]

/-! ## Starting at zero or later -/

/-- The edit keeps its contract, and a timeline that starts at zero or later does so afterwards. -/
def StaysNonneg (act : Operation (Timeline Rat k) (List (Recording Rat k))) : Prop :=
  ∀ t : Timeline Rat k, 0 ≤ t.origin → ∃ taken t', act t = .ok taken t' ∧ 0 ≤ t'.origin

/-- Doing nothing does not move the origin. -/
theorem staysNonneg_pure_nil :
    StaysNonneg (pure [] : Operation (Timeline Rat k) (List (Recording Rat k))) :=
  fun t h => ⟨[], t, rfl, h⟩

/-- What is erased from the head moves the origin to a later time. -/
theorem staysNonneg_erase (hlt : low < high) : StaysNonneg (erase (k := k) low high) := by
  intro t h
  obtain ⟨taken, t', herase, -, horigin⟩ := erase_exact hlt t
  refine ⟨taken, t', herase, ?_⟩
  rw [horigin]
  split
  · exact le_rfl
  · split
    · exact h.trans (Capture.le_headEnd _ _ _)
    · exact h

/-- Removing does not make a timeline start before zero. -/
theorem staysNonneg_remove (start stop : Rat) : StaysNonneg (remove (k := k) start stop) := by
  intro t h
  rw [remove_eq]
  rcases window_cases t start stop with hwindow | ⟨low, high, hwindow⟩
  · rw [hwindow]
    exact staysNonneg_pure_nil t h
  · obtain ⟨-, -, -, hlt⟩ := window_eq_some.1 hwindow
    rw [hwindow]
    exact staysNonneg_erase hlt t h

/-- Cropping does not make a timeline start before zero. -/
theorem staysNonneg_crop (start stop : Rat) : StaysNonneg (crop (k := k) start stop) := by
  intro t h
  rcases window_cases t start stop with hwindow | ⟨low, high, hwindow⟩
  · exact ⟨[], t, crop_of_none hwindow, h⟩
  · have hstage (low high : Rat) :
        StaysNonneg (if low < high then erase (k := k) low high else pure []) := by
      split
      · exact staysNonneg_erase ‹_›
      · exact staysNonneg_pure_nil
    obtain ⟨late, t₁, hlate, h₁⟩ := hstage high (t.origin + t.total) t h
    obtain ⟨early, t₂, hearly, h₂⟩ := hstage t₁.origin low t₁ h₁
    exact ⟨late ++ early, t₂, crop_eq_ok hwindow hlate hearly, h₂⟩

end Timeline

/-- No edit makes a timeline start before zero. -/
theorem TimelineEdit.origin_nonneg (e : TimelineEdit Rat) {l : Lane Rat k}
    (h : 0 ≤ l.timeline.origin) :
    0 ≤ ((e.run : Operation (Lane Rat k) Unit).leaves l).timeline.origin := by
  have hedit {act : Operation (Timeline Rat k) (List (Recording Rat k))}
      (hact : Timeline.StaysNonneg act) : 0 ≤ ((Lane.edit act).leaves l).timeline.origin := by
    obtain ⟨taken, t', hrun, hnonneg⟩ := hact l.timeline h
    simp only [Operation.leaves, Lane.edit, hrun]
    exact hnonneg
  cases e with
  | remove start stop => exact hedit (Timeline.staysNonneg_remove start stop)
  | crop start stop => exact hedit (Timeline.staysNonneg_crop start stop)
  | clear => exact hedit fun t _ => ⟨t.recordings, _, rfl, le_rfl⟩

/-! ## The origins in an acquisition -/

namespace Lane

/-- What is done to the recording under way does not move the origin. -/
theorem origin_onActive {α : Type} (act : Operation (Recording τ k) α) (l : Lane τ k) :
    ((onActive act).leaves l).timeline.origin = l.timeline.origin := by
  obtain ⟨⟨recordings, origin⟩, detached⟩ := l
  cases detached with
  | some r =>
    simp only [Operation.leaves, onActive]
    cases act r <;> rfl
  | none =>
    simp only [Operation.leaves, onActive, onRecordings]
    cases Operation.onFirst (·.live) act recordings <;> rfl

/-- What is written to a lane does not move the origin, whatever becomes of it. -/
theorem origin_write (w : Writer τ k) (expected : Nat) (l : Lane τ k) :
    ((write w expected).leaves l).timeline.origin = l.timeline.origin := by
  rcases write_leaves_cases w expected l with heq | ⟨l₁, hensure, heq⟩
  · rw [heq]
  · rw [heq, origin_onActive]
    rcases ensureActive_eq_ok.1 hensure with ⟨-, rfl⟩ | ⟨-, r, -, -, rfl⟩ <;> rfl

end Lane

namespace Acquisition

section Origin

variable [Clock τ] {a a' : Acquisition τ} {bs : List Block}

/-- A block does not move the origin of a timeline. -/
theorem origin_push (b : Block) (a : Acquisition τ) (k : Signal) :
    ((Step.leaves (push b) a).lane k).timeline.origin = (a.lane k).timeline.origin := by
  rcases leaves_push_cases b a with ⟨-, hleaves⟩ | ⟨-, hleaves⟩ | ⟨j, w, new, -, -, hleaves⟩
  · rw [hleaves]
  · rw [hleaves]
    rfl
  · rw [hleaves]
    by_cases hkj : k = j
    · subst hkj
      rw [lane_withLane, Lane.origin_write]
    · rw [lane_withLane_of_ne hkj]

/-- Blocks that are taken one after the other do not move the origin of a timeline. -/
theorem Takes.origin {Admitted : Block → Prop} (h : Takes Admitted a bs a') (k : Signal) :
    (a'.lane k).timeline.origin = (a.lane k).timeline.origin := by
  induction h with
  | done => rfl
  | @takes a a₁ a₂ b bs n _ hpush _ ih =>
    rw [ih, ← Step.leaves_of_eq_ok hpush, origin_push]
  | @refuses a a₁ a₂ b bs f _ hpush _ ih =>
    rw [ih, ← Step.leaves_of_eq_error hpush, origin_push]
  | dequeues _ _ ih =>
    rw [ih]
    cases k <;> rfl

end Origin

variable {s : Settings} {pending : List Block} {a : Acquisition Rat}

/-- An action keeps the timelines from starting before zero. -/
theorem origin_act (x : Action Rat) (h : ∀ k, 0 ≤ (a.lane k).timeline.origin) (k : Signal) :
    0 ≤ ((a.act x).lane k).timeline.origin := by
  -- No request moves an origin, and an edit only that of its own lane.
  cases x with
  | ask q =>
    have htakes : Takes (fun _ => True) a (a.taken q) (a.after q) :=
      takes_after (fun _ _ => trivial) trivial q (by cases q <;> trivial)
    exact (h k).trans_eq (htakes.origin k).symm
  | edit j e =>
    obtain ⟨hown, hother⟩ := lane_edit e j a
    by_cases hkj : k = j
    · subst hkj
      rw [hown]
      exact e.origin_nonneg (h k)
    · rw [hother k hkj]
      exact h k

/-- Whatever an acquisition is asked for and however its timelines are edited, none of them starts before
zero.  So what `Timeline.remove_exact` asks of the origin holds of each timeline that there is. -/
theorem origin_nonneg (hstart : start pending s = .ok a) (actions : List (Action Rat)) (k : Signal) :
    0 ≤ ((perform actions a).lane k).timeline.origin := by
  have hfirst (k : Signal) : 0 ≤ (a.lane k).timeline.origin := by
    unfold start at hstart
    split at hstart
    · cases hstart
      cases k <;> exact le_rfl
    · cases hstart
  clear hstart
  induction actions generalizing a with
  | nil => exact hfirst k
  | cons x rest ih => exact ih (origin_act x hfirst)

end Acquisition

end Waveform
