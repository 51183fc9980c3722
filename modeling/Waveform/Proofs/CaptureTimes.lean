import Mathlib
import Waveform.Proofs.FrameRecords
import Waveform.Proofs.TimelineCropping
import Waveform.Proofs.TimelineHead

/-!
# Times of capture and times on the timeline

A recording notes the time at which its frame was started, and a frame takes as long as its longest
recording.  A timeline, on the other hand, lays the recordings of one kind end to end.  So the two times
of a recording are the same exactly if, in every frame before, the recording of its kind was the longest;
otherwise the recording stands on the timeline earlier than it was captured.  Where the two are the same,
times of capture can be handed to an edit.  Times are exact here.

## Key results

- `exists_frame`: each recording is that of a frame, and the older ones are those of the frames before
- `startAfter_eq_iff`: when the frames before take as long as their recordings of one kind
- `Timeline.edits_exact`: edits between times that stand for samples
- `Acquisition.capture_times`: when the two times of a recording are the same, and what that is good for
- `Acquisition.capture_times_differ`: an acquisition in which they are not
-/

namespace Waveform

open Clock

variable {τ : Type} {k : Signal}

/-! ## Frames and their recordings -/

section Frames

variable {s : Settings}

/-- A list that may start with one item is split at that item or behind it. -/
theorem toList_append_eq {α : Type} {o : Option α} {rest older newer : List α} {x : α}
    (h : o.toList ++ rest = older ++ x :: newer) :
    (o = some x ∧ older = []) ∨ ∃ older', older = o.toList ++ older' ∧ rest = older' ++ x :: newer := by
  cases o with
  | none => exact .inr ⟨older, rfl, h⟩
  | some y =>
    cases older with
    | nil =>
      cases h
      exact .inl ⟨rfl, rfl⟩
    | cons z older =>
      cases h
      exact .inr ⟨older, rfl, rfl⟩

/-- The recording of a frame holds its samples and starts with it. -/
theorem captureIn_eq_some {start : τ} {complete : Bool} {frame : List Block} {c : Capture τ}
    (h : captureIn k s start complete frame = some c) :
    samplesIn k frame = some c.samples ∧ c.startTime = start := by
  obtain ⟨samples, hsamples, rfl⟩ := Option.map_eq_some_iff.1 h
  exact ⟨hsamples, rfl⟩

/-- Each recording is that of a frame, and the older ones are those of the frames before. -/
theorem exists_frame [Clock τ] {start : τ} {frames : List (List Block)} {last : List Block}
    {older newer : List (Capture τ)} {c : Capture τ}
    (h : finished k s start frames ++ (captureIn k s (startAfter s start frames) false last).toList =
      older ++ c :: newer) :
    ∃ before frame after, frames ++ [last] = before ++ frame :: after ∧
      samplesIn k frame = some c.samples ∧ older = finished k s start before ∧
      c.startTime = startAfter s start before := by
  -- Along the frames that are ended; without any, the capture is that of the last frame.
  induction frames generalizing start older with
  | nil =>
    rw [finished, List.nil_append, ← List.append_nil (Option.toList _)] at h
    rcases toList_append_eq h with ⟨hc, rfl⟩ | ⟨older', -, hnone⟩
    · obtain ⟨hsamples, hstart⟩ := captureIn_eq_some hc
      exact ⟨[], last, [], rfl, hsamples, rfl, hstart⟩
    · exact absurd hnone (by simp)
  | cons first rest ih =>
    rw [finished, List.append_assoc] at h
    -- The capture is that of the first frame, or further on.
    rcases toList_append_eq h with ⟨hc, rfl⟩ | ⟨older', rfl, hrest⟩
    · obtain ⟨hsamples, hstart⟩ := captureIn_eq_some hc
      exact ⟨[], first, rest ++ [last], rfl, hsamples, rfl, hstart⟩
    · obtain ⟨before, frame, after, hframes, hsamples, rfl, hstart⟩ := ih hrest
      exact ⟨first :: before, frame, after, congrArg (first :: ·) hframes, hsamples, rfl, hstart⟩

/-- The recording of a frame has the rate in the settings. -/
theorem rate_captureIn {start : τ} {complete : Bool} {frame : List Block} :
    ∀ c ∈ (captureIn k s start complete frame).toList, c.rate = s.rate := by
  intro c hc
  obtain ⟨samples, -, rfl⟩ := Option.map_eq_some_iff.1 (Option.mem_toList.1 hc)
  rfl

/-- All recordings of ended frames have the rate in the settings. -/
theorem rate_finished [Clock τ] {start : τ} {frames : List (List Block)} :
    ∀ c ∈ finished k s start frames, c.rate = s.rate := by
  induction frames generalizing start with
  | nil => exact fun c hc => nomatch hc
  | cons frame rest ih =>
    intro c hc
    rcases List.mem_append.1 hc with hc | hc
    · exact rate_captureIn c hc
    · exact ih c hc

/-- All recordings have the rate in the settings. -/
theorem Logbook.rate_captures [Clock τ] {log : Logbook} :
    ∀ c ∈ log.captures (τ := τ) k s, c.rate = s.rate := by
  intro c hc
  rcases List.mem_append.1 hc with hc | hc
  · exact rate_finished c hc
  · exact rate_captureIn c hc

end Frames

/-! ## How long frames take -/

section Durations

variable {s : Settings}

/-- No samples take less than no time. -/
theorem timeOf_nonneg (s : Settings) (samples : Option (List UInt64)) :
    0 ≤ (timeOf s samples : Rat) := by
  cases samples with
  | none => exact le_rfl
  | some samples => exact div_nonneg (Nat.cast_nonneg _) (Nat.cast_nonneg _)

/-- A frame takes no less than its recording of a kind, and just that if no other takes longer. -/
theorem frameTime_eq_iff (k : Signal) (s : Settings) (frame : List Block) :
    (timeOf s (samplesIn k frame) : Rat) ≤ frameTime s frame ∧
      ((frameTime s frame : Rat) = timeOf s (samplesIn k frame) ↔
        ∀ j, (timeOf s (samplesIn j frame) : Rat) ≤ timeOf s (samplesIn k frame)) := by
  have htime : (frameTime s frame : Rat) =
      -- A frame takes as long as the longer of its kinds.
      max (timeOf s (samplesIn .logic frame)) (timeOf s (samplesIn .analog frame)) := by
    unfold frameTime
    rw [later_eq_max, later_eq_max]
    congr 1
    exact max_eq_right (timeOf_nonneg s _)
  have hkinds (p : Signal → Prop) : (∀ j, p j) ↔ p .logic ∧ p .analog := by
    constructor
    · intro h
      exact ⟨h .logic, h .analog⟩
    · intro h j
      cases j
      · exact h.1
      · exact h.2
  rw [htime, hkinds]
  cases k with
  | logic => exact ⟨le_max_left _ _, by rw [max_eq_left_iff]; simp⟩
  | analog => exact ⟨le_max_right _ _, by rw [max_eq_right_iff]; simp⟩

/-- Frames take no less than their recordings of a kind, and just that if in no frame another kind takes
longer. -/
theorem startAfter_eq_iff (k : Signal) (s : Settings) (start : Rat) (frames : List (List Block)) :
    let laid := start + (frames.map fun f => (timeOf s (samplesIn k f) : Rat)).sum
    laid ≤ startAfter s start frames ∧
      (startAfter s start frames = laid ↔
        ∀ f ∈ frames, ∀ j, (timeOf s (samplesIn j f) : Rat) ≤ timeOf s (samplesIn k f)) := by
  -- Along the frames: each moves the clock by its length, and what is laid out by at most that.
  induction frames generalizing start with
  | nil => simp [startAfter]
  | cons frame rest ih =>
    obtain ⟨hle, heq⟩ := frameTime_eq_iff k s frame
    obtain ⟨hrest, hsame⟩ := ih (start + frameTime s frame)
    have hstart : startAfter s start (frame :: rest) =
        startAfter s (start + frameTime s frame) rest := rfl
    simp only [hstart, List.map_cons, List.sum_cons, List.forall_mem_cons, ← hsame, ← heq]
    refine ⟨by linarith, ?_⟩
    constructor
    · -- Neither this frame nor the others can take less, so neither takes more.
      intro h
      constructor <;> linarith
    · rintro ⟨hframe, hframes⟩
      rw [hframes, hframe]
      ring

/-- The recordings of a kind take the time that its samples take, frame by frame. -/
theorem sum_duration_finished (k : Signal) (s : Settings) (start : Rat) (frames : List (List Block)) :
    ((finished k s start frames).map Capture.duration).sum =
      (frames.map fun f => (timeOf s (samplesIn k f) : Rat)).sum := by
  induction frames generalizing start with
  | nil => rfl
  | cons frame rest ih =>
    have hframe : ((captureIn k s start true frame).toList.map Capture.duration).sum =
        (timeOf s (samplesIn k frame) : Rat) := by
      unfold captureIn
      cases samplesIn k frame with
      | none => rfl
      | some samples => exact add_zero _
    rw [finished, List.map_append, List.sum_append, ih, hframe, List.map_cons, List.sum_cons]

end Durations

/-! ## Edits between samples -/

/-- The time at which a sample starts stands for that sample. -/
theorem sampleIndex_div {rate : Nat} (hrate : 0 < rate) (n : Nat) :
    sampleIndex rate (n / rate) = n := by
  have hne : (rate : Rat) ≠ 0 := by positivity
  rw [sampleIndex, div_mul_cancel₀ _ hne, Nat.floor_eq_iff (by positivity)]
  constructor <;> norm_num

namespace Timeline

/-- The time that all recordings take is the sum of what each takes. -/
theorem total_eq_sum (t : Timeline Rat k) :
    t.total = ((t.recordings.map Recording.capture).map Capture.duration).sum := by
  obtain ⟨recordings, origin⟩ := t
  unfold total
  induction recordings with
  | nil => rfl
  | cons r newer ih =>
    dsimp only at ih ⊢
    rw [List.foldr_cons, ih, List.map_cons, List.map_cons, List.sum_cons, duration_capture, add_comm]

variable {t : Timeline Rat k} {rate : Nat}

/-- Between times that stand for samples exactly the samples in between are removed, or kept. -/
theorem edits_exact (hrate : ∀ r ∈ t.recordings, r.rate = rate) (horigin : 0 ≤ t.origin)
    {first last : Nat} (hlt : first < last) (hle : last ≤ t.held) :
    let low := t.origin + first / rate
    let high := t.origin + last / rate
    let words := Capture.concat (t.recordings.map Recording.capture)
    (∃ taken t', remove low high t = .ok taken t' ∧
      Capture.concat (t'.recordings.map Recording.capture) = words.take first ++ words.drop last) ∧
    ∃ taken t', crop low high t = .ok taken t' ∧
      Capture.concat (t'.recordings.map Recording.capture) = (words.take last).drop first := by
  intro low high words
  have hne := recordings_ne_nil_of_held (t := t) (by omega)
  have hpos : 0 < rate := rate_pos hrate hne
  have hcast : (0 : Rat) < rate := Nat.cast_pos.2 hpos
  -- Both times lie on the timeline.
  have hnearest {n : Nat} (hn : n ≤ t.held) : t.nearest (t.origin + n / rate) = t.origin + n / rate := by
    have htime : (0 : Rat) ≤ n / rate := by positivity
    have hend : (n : Rat) / rate ≤ t.held / rate :=
      div_le_div_of_nonneg_right (Nat.cast_le.2 hn) hcast.le
    have hpast : max (t.origin + n / rate) 0 = t.origin + n / rate := max_eq_left (by linarith)
    rw [nearest_eq hrate, hpast, min_eq_left (by linarith), max_eq_right (by linarith)]
  have hwindow : t.window low high = .ok (some (low, high)) := by
    refine window_eq_some.2 ⟨hne, (hnearest (by omega)).symm, (hnearest hle).symm, ?_⟩
    have htimes : (first : Rat) / rate < last / rate :=
      div_lt_div_of_pos_right (Nat.cast_lt.2 hlt) hcast
    linarith
  -- The times lead back to the samples they were made from.
  have hindex {n : Nat} (hn : n ≤ t.held) :
      min t.held (sampleIndex rate (t.origin + n / rate - t.origin)) = n := by
    rw [add_sub_cancel_left, sampleIndex_div hpos, Nat.min_eq_right hn]
  constructor
  · obtain ⟨taken, t', hremove, hleft, -⟩ := remove_one_rate hrate hwindow
    simp only [low, high, hindex (show first ≤ t.held by omega), hindex hle] at hleft
    exact ⟨taken, t', hremove, hleft⟩
  · obtain ⟨taken, t', hcrop, -⟩ := crop_ok hwindow
    obtain ⟨hleft, -⟩ := crop_one_rate hrate hwindow hcrop
    simp only [low, high, hindex (show first ≤ t.held by omega), hindex hle] at hleft
    refine ⟨taken, t', hcrop, ?_⟩
    rw [hleft, Capture.concat_withoutRange_twice t.length_concat.le hle]

end Timeline

/-! ## Timelines that are not edited -/

namespace Acquisition

variable {s : Settings} {a : Acquisition Rat} {pending : List Block}

/-- An acquisition that is not edited follows the blocks that it has taken, and its timelines start at
zero. -/
theorem follows_run (hstart : start pending s = .ok a) (hpending : ∀ b ∈ pending, b.Fits)
    (requests : List Request) (hrequests : ∀ q ∈ requests, q.Hands Block.Fits) :
    (run requests a).Follows s (Logbook.of (takenBy requests a)) ∧
      ∀ k, ((run requests a).lane k).timeline.origin = 0 := by
  obtain ⟨hfollows, hqueue, -⟩ := follows_of_start hstart
  have htakes := takes_run (show 0 < Packed.byteLimit by decide) requests hrequests
    (hqueue ▸ hpending)
  refine ⟨hfollows.takes htakes, fun k => ?_⟩
  rw [htakes.origin]
  unfold start at hstart
  split at hstart
  · cases hstart
    cases k <;> rfl
  · cases hstart

/-- The recordings of a kind in an acquisition that is not edited, and the times that they have there.
The timeline starts at zero.  Each recording is that of a frame, and those before it are the recordings
of the frames before.  It stands on the timeline where these end, which is never later than its time of
capture.  The two times are the same exactly if in none of the frames before the samples of the other
kind have taken longer.  And if they are, edits between times of capture hit the samples that were
captured then. -/
theorem capture_times (hstart : start pending s = .ok a) (hpending : ∀ b ∈ pending, b.Fits)
    (requests : List Request) (hrequests : ∀ q ∈ requests, q.Hands Block.Fits) (k : Signal)
    (older newer : List (Recording Rat k)) (r : Recording Rat k) :
    let log := Logbook.of (takenBy requests a)
    let t := ((run requests a).lane k).timeline
    let words := Capture.concat (t.recordings.map Recording.capture)
    let before := Timeline.held ⟨older, t.origin⟩
    let placed := t.origin + Timeline.total ⟨older, t.origin⟩
    t.recordings = older ++ r :: newer →
    t.origin = 0 ∧ placed ≤ r.startTime ∧
    (∃ frames frame rest, log.ended ++ [log.current] = frames ++ frame :: rest ∧
      samplesIn k frame = some r.capture.samples ∧
      older.map Recording.capture = finished k s 0 frames ∧
      (r.startTime = placed ↔
        ∀ f ∈ frames, ∀ j, (timeOf s (samplesIn j f) : Rat) ≤ timeOf s (samplesIn k f))) ∧
    (r.startTime = placed → ∀ i j, i < j → j ≤ r.count →
      let low := r.startTime + i / s.rate
      let high := r.startTime + j / s.rate
      (∃ taken t', Timeline.remove low high t = .ok taken t' ∧
        Capture.concat (t'.recordings.map Recording.capture) =
          words.take (before + i) ++ words.drop (before + j)) ∧
      ∃ taken t', Timeline.crop low high t = .ok taken t' ∧
        Capture.concat (t'.recordings.map Recording.capture) =
          (words.take (before + j)).drop (before + i)) := by
  intro log t words before placed hsplit
  -- The logbook says which captures there are, and that nothing has moved the origin.
  obtain ⟨hfollows, horigin⟩ := follows_run hstart hpending requests hrequests
  have hzero : t.origin = 0 := horigin k
  have hcaptures : t.recordings.map Recording.capture = log.captures k s := hfollows.map_capture k
  have hrate : ∀ x ∈ t.recordings, x.rate = s.rate :=
    Timeline.rate_of_captures hcaptures Logbook.rate_captures
  have hlist : log.captures k s =
      older.map Recording.capture ++ r.capture :: newer.map Recording.capture := by
    rw [← hcaptures, hsplit, List.map_append, List.map_cons]
  -- The recording is that of a frame, and those before it are of the frames before.
  obtain ⟨frames, frame, rest, hframes, hsamples, holder, hcapture⟩ := exists_frame hlist
  -- The older recordings take as long as the samples of their kind in the frames before.
  have hplaced : placed = 0 + (frames.map fun f => (timeOf s (samplesIn k f) : Rat)).sum := by
    show t.origin + Timeline.total ⟨older, t.origin⟩ = _
    rw [hzero, Timeline.total_eq_sum]
    show 0 + ((older.map Recording.capture).map Capture.duration).sum = _
    rw [holder, sum_duration_finished]
  have htime : r.startTime = startAfter s 0 frames := hcapture
  obtain ⟨hle, hiff⟩ := startAfter_eq_iff k s 0 frames
  refine ⟨hzero, ?_, ⟨frames, frame, rest, hframes, hsamples, holder, ?_⟩, ?_⟩
  · rw [htime, hplaced]
    exact hle
  · rw [htime, hplaced]
    exact hiff
  · intro hsame i j hij hj low high
    -- The samples in front of the recording are those of the older ones.
    have hheld : t.held = before + (r.count + Timeline.held ⟨newer, t.origin⟩) := by
      show Timeline.held ⟨t.recordings, t.origin⟩ = _
      rw [hsplit, Timeline.held_append]
      rfl
    -- A time within the recording, counted from the origin.
    have hstand (n : Nat) : t.origin + (before + n : Nat) / s.rate = r.startTime + n / s.rate := by
      have hbefore : placed = t.origin + (before : Rat) / s.rate := by
        show t.origin + Timeline.total ⟨older, t.origin⟩ = _
        rw [Timeline.total_eq ⟨older, t.origin⟩ fun x hx => hrate x (hsplit ▸ List.mem_append_left _ hx)]
      rw [hsame, hbefore, Nat.cast_add, add_div, add_assoc]
    have hedits := Timeline.edits_exact hrate hzero.ge (Nat.add_lt_add_left hij before)
      (by omega)
    simp only [hstand] at hedits
    exact hedits

/-- A frame of four logic and two analog samples, and one of two logic samples.  The second logic
recording stands where it was captured, and a sample of it is removed. -/
theorem capture_times_of_longer_kind :
    let s : Settings := ⟨16, 4, 0, ⟨0x43800000⟩⟩
    let one : Binary32 := ⟨0x3f800000⟩
    let pending : List Block := [.logic 1 ⟨#[1, 2, 3, 4]⟩, .analog #[one, one], .frameEnd,
      .logic 1 ⟨#[5, 6]⟩]
    let a : Acquisition Rat := ⟨s, pending, .empty, .empty, zero⟩
    let t := ((run [.runToEnd] a).lane .logic).timeline
    ∃ older r, t.recordings = [older, r] ∧ r.startTime = 1 / 4 ∧
      ∃ taken t', Timeline.remove (1 / 4) (5 / 16) t = .ok taken t' ∧
        Capture.concat (t'.recordings.map Recording.capture) = [1, 2, 3, 4, 6] := by
  intro s one pending a t
  obtain ⟨older, r, hrecordings⟩ := List.length_eq_two.1 (show t.recordings.length = 2 by
    decide +kernel)
  -- The run is evaluated up to what the recordings hold.
  have hcaptures : [older, r].map Recording.capture =
      [⟨0, 16, 1, [1, 2, 3, 4], true⟩, ⟨1 / 4, 16, 1, [5, 6], true⟩] := by
    rw [← hrecordings]
    decide +kernel
  simp only [List.map_cons, List.map_nil, List.cons.injEq, and_true] at hcaptures
  obtain ⟨hcaptureOlder, hcapture⟩ := hcaptures
  have htime : r.startTime = 1 / 4 := congrArg Capture.startTime hcapture
  obtain ⟨horigin, -, -, hedits⟩ := capture_times (show start pending s = .ok a from rfl) (by decide)
    [.runToEnd] (by decide) .logic [older] [] r hrecordings
  -- The logic samples take the whole of the first frame, so the second starts where it is placed.
  have hplaced : r.startTime = t.origin + Timeline.total ⟨[older], t.origin⟩ := by
    rw [htime, show t.origin = 0 from horigin, Timeline.total_eq_sum, List.map_singleton, hcaptureOlder]
    decide +kernel
  have hcount : r.count = 2 := by
    rw [r.count_eq_length, hcapture]
    rfl
  have hbefore : Timeline.held ⟨[older], t.origin⟩ = 4 := by
    rw [← Timeline.length_concat, List.map_singleton, hcaptureOlder]
    rfl
  have hwords : Capture.concat (t.recordings.map Recording.capture) = [1, 2, 3, 4, 5, 6] := by
    rw [hrecordings, List.map_cons, List.map_singleton, hcaptureOlder, hcapture]
    decide +kernel
  have hlow : r.startTime + ((0 : Nat) : Rat) / (s.rate : Nat) = 1 / 4 := by
    rw [htime]
    decide +kernel
  have hhigh : r.startTime + ((1 : Nat) : Rat) / (s.rate : Nat) = 5 / 16 := by
    rw [htime]
    decide +kernel
  obtain ⟨⟨taken, t', hremove, hleft⟩, -⟩ := hedits hplaced 0 1 (by decide) (by omega)
  rw [hlow, hhigh] at hremove
  refine ⟨older, r, hrecordings, htime, taken, t', hremove, hleft.trans ?_⟩
  dsimp only [t] at hbefore hwords
  rw [hbefore, hwords]
  decide +kernel

/-- A frame of four logic and two analog samples, and one of two analog samples.  The second analog
recording was captured a quarter of a second after the start, but stands on the timeline an eighth of a
second after it.  A removal between its times of capture takes nothing. -/
theorem capture_times_differ :
    let s : Settings := ⟨16, 4, 0, ⟨0x43800000⟩⟩
    let one : Binary32 := ⟨0x3f800000⟩
    let two : Binary32 := ⟨0x40000000⟩
    let pending : List Block := [.logic 1 ⟨#[1, 2, 3, 4]⟩, .analog #[one, one], .frameEnd,
      .analog #[two, two]]
    let a : Acquisition Rat := ⟨s, pending, .empty, .empty, zero⟩
    let t := ((run [.runToEnd] a).lane .analog).timeline
    start pending s = .ok a ∧ ∃ older r, t.recordings = [older, r] ∧ r.startTime = 1 / 4 ∧
      t.origin + Timeline.total ⟨[older], t.origin⟩ = 1 / 8 ∧
      r.startTime + r.duration = 3 / 8 ∧ Timeline.remove (1 / 4) (3 / 8) t = .ok [] t := by
  intro s one two pending a t
  obtain ⟨older, r, hrecordings⟩ := List.length_eq_two.1 (show t.recordings.length = 2 by
    decide +kernel)
  -- The run is evaluated up to what the recordings hold.
  have hcaptures : [older, r].map Recording.capture =
      [⟨0, 16, 4, [one.bits.toUInt64, one.bits.toUInt64], true⟩,
        ⟨1 / 4, 16, 4, [two.bits.toUInt64, two.bits.toUInt64], true⟩] := by
    rw [← hrecordings]
    decide +kernel
  simp only [List.map_cons, List.map_nil, List.cons.injEq, and_true] at hcaptures
  obtain ⟨hcaptureOlder, hcapture⟩ := hcaptures
  have htime : r.startTime = 1 / 4 := congrArg Capture.startTime hcapture
  have horigin : t.origin = 0 := by decide +kernel
  refine ⟨rfl, older, r, hrecordings, htime, ?_, ?_, ?_⟩
  · rw [horigin, Timeline.total_eq_sum, List.map_singleton, hcaptureOlder]
    decide +kernel
  · rw [htime, ← Timeline.duration_capture, hcapture]
    decide +kernel
  · -- The range lies behind the end of the timeline.
    have hnone : t.window (1 / 4) (3 / 8) = .ok none := by decide +kernel
    rw [Timeline.remove_eq, hnone]

end Acquisition

end Waveform
