import Waveform.Proofs.Requests

/-!
# The recordings of an acquisition

An acquisition records exactly what it takes, frame by frame.  The blocks that it has taken are kept in
a `Logbook`, and what is to be recorded of them is read off there: `Logbook.captures` gives each frame
one recording of each kind of which it has blocks, with the samples of these blocks in their order.
That this is what stands on the timelines (`Acquisition.Follows`) is preserved with every block.

## Key results

- `Lane.Follows.write`, `Lane.Follows.close`: a lane follows the samples of its frames
- `Acquisition.Follows.push`: an acquisition follows the blocks that it takes
- `Acquisition.push_unchanged`: a block that is not taken changes nothing
- `Acquisition.frames_recorded`: the recordings after a run of requests
-/

namespace Waveform

open Clock

variable {τ : Type} {k : Signal}

/-! ## Frames of blocks -/

/-- The blocks that an acquisition has taken: those of the frames that have ended, the oldest frame
first, and those of the current frame. -/
structure Logbook where
  ended : List (List Block)
  current : List Block

/-- Enters a block that was taken. -/
def Logbook.enter (log : Logbook) : Block → Logbook
  | .frameEnd => ⟨log.ended ++ [log.current], []⟩
  | b => ⟨log.ended, log.current ++ [b]⟩

/-- The logbook after the given blocks were taken. -/
def Logbook.of (blocks : List Block) : Logbook :=
  blocks.foldl enter ⟨[], []⟩

/-- The samples of a kind in the blocks of a frame, one block after the other.  There are none if no
block is of that kind, and the empty list if such blocks are empty. -/
def samplesIn (k : Signal) (frame : List Block) : Option (List UInt64) :=
  match frame.filterMap (Block.samples k) with
  | [] => none
  | parts => some parts.flatten

/-- What is to be recorded of a kind in a frame that starts at the given time. -/
def captureIn (k : Signal) (s : Settings) (start : τ) (complete : Bool) (frame : List Block) :
    Option (Capture τ) :=
  (samplesIn k frame).map fun samples => ⟨start, s.rate, s.widthOf k, samples, complete⟩

section Times

variable [Clock τ]

/-- The time that samples take, if there are any. -/
def timeOf (s : Settings) : Option (List UInt64) → τ
  | none => zero
  | some samples => ofCount samples.length / ofCount s.rate

/-- The time that a frame takes, which is that of the kind that takes longer. -/
def frameTime (s : Settings) (frame : List Block) : τ :=
  later (later zero (timeOf s (samplesIn .logic frame))) (timeOf s (samplesIn .analog frame))

/-- The time at which the frame after the given ones starts, the first of them starting at `start`. -/
def startAfter (s : Settings) (start : τ) (frames : List (List Block)) : τ :=
  frames.foldl (fun start frame => start + frameTime s frame) start

/-- The recordings of a kind in frames that have ended, the first of which starts at `start`.  Each
frame has at most one, and the next frame starts when it is over. -/
def finished (k : Signal) (s : Settings) : τ → List (List Block) → List (Capture τ)
  | _, [] => []
  | start, frame :: rest =>
    (captureIn k s start true frame).toList ++ finished k s (start + frameTime s frame) rest

/-- The recordings of a kind, the oldest first.  The one of the current frame is not complete. -/
def Logbook.captures (k : Signal) (s : Settings) (log : Logbook) : List (Capture τ) :=
  finished k s zero log.ended ++
    (captureIn k s (startAfter s zero log.ended) false log.current).toList

/-- The recording of the last frame comes last. -/
theorem finished_append (k : Signal) (s : Settings) (start : τ) (frames : List (List Block))
    (frame : List Block) :
    finished k s start (frames ++ [frame]) =
      finished k s start frames ++ (captureIn k s (startAfter s start frames) true frame).toList := by
  induction frames generalizing start with
  | nil => simp [finished, startAfter]
  | cons first rest ih => simp [finished, startAfter, ih]

end Times

/-- A block adds its samples to those of its kind in the frame. -/
theorem samplesIn_append (k : Signal) (frame : List Block) (b : Block) :
    samplesIn k (frame ++ [b]) =
      match b.samples k with
      | none => samplesIn k frame
      | some new => some ((samplesIn k frame).getD [] ++ new) := by
  unfold samplesIn
  rw [List.filterMap_append]
  cases hnew : b.samples k with
  | none => simp [hnew]
  | some new =>
    cases hparts : frame.filterMap (Block.samples k) with
    | nil => simp [hnew]
    | cons part parts => simp [hnew]

/-! ## One lane -/

namespace Lane

/-- The lane holds the finished recordings `older` and, if there were samples in the current frame, a
recording of these that is under way. -/
structure Follows (l : Lane τ k) (s : Settings) (start : τ) (older : List (Capture τ))
    (current : Option (List UInt64)) : Prop where
  attached : l.detached = none
  recordings : ∃ before : List (Recording τ k),
    (∀ r ∈ before, r.live = false) ∧ before.map Recording.capture = older ∧
      match current with
      | none => l.timeline.recordings = before
      | some samples => ∃ r, l.timeline.recordings = before ++ [r] ∧ r.live = true ∧
          r.capture = ⟨start, s.rate, s.widthOf k, samples, false⟩

variable {l l' : Lane τ k} {s : Settings} {start : τ} {older : List (Capture τ)}
  {current : Option (List UInt64)} {w : Writer τ k} {new : List UInt64} {size : Nat}

/-- As long as a frame has no samples of a kind no recording of it is under way. -/
theorem Follows.active_eq_none (h : l.Follows s start older none) : l.active = none := by
  obtain ⟨before, hidle, -, hrecordings⟩ := h.recordings
  exact active_eq_none_iff.2 ⟨h.attached, by rw [hrecordings]; exact hidle⟩

/-- A lane holds the recordings of the frames before, and that of the current one. -/
theorem Follows.map_capture (h : l.Follows s start older current) :
    l.timeline.recordings.map Recording.capture =
      older ++ (current.map fun samples => ⟨start, s.rate, s.widthOf k, samples, false⟩).toList := by
  obtain ⟨before, -, rfl, hrecordings⟩ := h.recordings
  cases current with
  | none => simp [hrecordings]
  | some samples =>
    obtain ⟨r, hrecordings, -, hcapture⟩ := hrecordings
    simp [hrecordings, hcapture]

/-- Samples that are written go on with the recording of the current frame, or start it. -/
theorem Follows.write (h : l.Follows s start older current) (hw : w.Writes s start new size)
    (hwrite : Lane.write w s.expected l = .ok () l') :
    l'.Follows s start older (some (current.getD [] ++ new)) := by
  cases current with
  | none =>
    -- The block is the first of its kind in the frame, so a recording is started for it.
    have hidle := h.active_eq_none
    obtain ⟨before, hbefore, holder, hrecordings⟩ := h.recordings
    obtain ⟨r, r', hstart, -, happend, rfl⟩ := (write_of_idle hidle).1 hwrite
    obtain ⟨hcapture, hlive⟩ := hw.capture_append _ _ happend
    have hfresh : Recording.capture { r with live := true } =
        ⟨start, s.rate, s.widthOf k, [], false⟩ := hw.capture_start r hstart
    rw [hfresh] at hcapture
    exact ⟨h.attached, before, hbefore, holder, r', by simp [hrecordings], hlive, hcapture⟩
  -- The recording is under way, and the block is appended to it.
  | some samples =>
    obtain ⟨before, hbefore, holder, r, hrecordings, hlive, hcapture⟩ := h.recordings
    obtain ⟨r', happend, rfl⟩ := (write_of_open h.attached hrecordings hbefore hlive).1 hwrite
    obtain ⟨hcapture', hlive'⟩ := hw.capture_append _ _ happend
    rw [hcapture] at hcapture'
    exact ⟨h.attached, before, hbefore, holder, r', rfl, hlive'.trans hlive, hcapture'⟩

/-- A block that lies in the address space can be written to a recording that was started for it. -/
theorem append_to_started (hw : w.Writes s start new size) (hsize : size < Packed.byteLimit)
    {r : Recording τ k} (hstart : w.start = .ok r) :
    ∃ r', w.append { r with live := true } = .ok () r' := by
  have hcapture := hw.capture_start r hstart
  have hempty : r.trace.samples.bytes.size = 0 := by
    rw [r.size_eq, hcapture]
    simp
  refine hw.append_ok { r with live := true } ?_ ?_ ?_
  · exact congrArg Capture.width hcapture
  · exact congrArg Capture.complete hcapture
  · show r.trace.samples.bytes.size + size < _
    omega

/-- Where nothing can be written nothing has changed. -/
theorem write_unchanged (hw : w.Writes s start new size) (hsize : size < Packed.byteLimit)
    {v : Violation} (hwrite : Lane.write w s.expected l = .error v l') : l' = l :=
  write_eq_error hw.atomic (fun _ hstart => append_to_started hw hsize hstart) hwrite

/-- A block can be written as long as there is room: in a new recording for the samples that are
expected, and in the one under way for those of the block. -/
theorem Follows.write_ok (h : l.Follows s start older current) (hw : w.Writes s start new size)
    (hrate : 0 < s.rate) (hexpected : s.expected * s.widthOf k < Packed.byteLimit)
    (hroom : (current.getD []).length * s.widthOf k + size < Packed.byteLimit) :
    ∃ l', Lane.write w s.expected l = .ok () l' := by
  cases current with
  | none =>
    -- A recording is started, room is made, and the block is appended.
    obtain ⟨r, hstart⟩ := hw.start_ok hrate
    have hwidth : r.trace.width.bytes = s.widthOf k :=
      congrArg Capture.width (hw.capture_start r hstart)
    have hlimit : s.expected * s.widthOf k < Word.limit := Nat.lt_trans hexpected (by decide)
    have hreserve : Recording.reserve s.expected r = .ok () r :=
      Recording.reserve_eq_ok.2 ⟨Packed.reserve_eq_ok.2
        ⟨by rw [hwidth]; exact hlimit, .inr (by rw [hwidth]; exact hexpected), rfl⟩, rfl⟩
    obtain ⟨r', happend⟩ := append_to_started hw (by simpa using hroom) hstart
    exact ⟨_, (write_of_idle h.active_eq_none).2 ⟨r, r', hstart, hreserve, happend, rfl⟩⟩
  | some samples =>
    -- The samples of the block fit in behind those that are there.
    obtain ⟨before, hbefore, -, r, hrecordings, hlive, hcapture⟩ := h.recordings
    have hsize : r.trace.samples.bytes.size = samples.length * s.widthOf k := by
      rw [r.size_eq, hcapture]
    obtain ⟨r', happend⟩ := hw.append_ok r (congrArg Capture.width hcapture)
      (congrArg Capture.complete hcapture) (by rw [hsize]; exact hroom)
    exact ⟨_, (write_of_open h.attached hrecordings hbefore hlive).2 ⟨r', happend, rfl⟩⟩

/-- The recording of a frame that ends is complete, and the next one is yet to be started. -/
theorem Follows.close (h : l.Follows s start older current) (start' : τ) :
    l.close.Follows s start'
      (older ++ (current.map fun samples => ⟨start, s.rate, s.widthOf k, samples, true⟩).toList)
      none := by
  obtain ⟨before, hbefore, rfl, hrecordings⟩ := h.recordings
  -- The recordings of earlier frames are not live, so they are left as they are.
  have hkept : (before.map fun r : Recording τ k =>
      if r.live then { r with complete := true, live := false } else r) = before := by
    rw [List.map_congr_left (g := id) fun r hr => by simp [hbefore r hr], List.map_id]
  cases current with
  | none =>
    refine ⟨rfl, before, hbefore, by simp, ?_⟩
    simp only [Lane.close, hrecordings, hkept]
  | some samples =>
    obtain ⟨r, hrecordings, hlive, hcapture⟩ := hrecordings
    refine ⟨rfl, before ++ [{ r with complete := true, live := false }], ?_, ?_, ?_⟩
    · intro x hx
      rcases List.mem_append.1 hx with hx | hx
      · exact hbefore x hx
      · rw [List.mem_singleton.1 hx]
    · have hdone : Recording.capture { r with complete := true, live := false } =
          { r.capture with complete := true } := rfl
      simp [hdone, hcapture]
    · simp [Lane.close, hrecordings, hkept, hlive]

/-- The time of the recording under way is that of the samples in the current frame. -/
theorem Follows.activeDuration_eq [Clock τ] (h : l.Follows s start older current) :
    Acquisition.activeDuration l = timeOf s current := by
  cases current with
  | none => simp [Acquisition.activeDuration, h.active_eq_none, timeOf]
  | some samples =>
    obtain ⟨before, hbefore, -, r, hrecordings, hlive, hcapture⟩ := h.recordings
    have hcount : r.count = samples.length := by rw [r.count_eq_length, hcapture]
    have hrate : r.rate = s.rate := congrArg Capture.rate hcapture
    simp [Acquisition.activeDuration, active_of_open h.attached hrecordings hbefore hlive,
      Recording.duration, hcount, hrate, timeOf]

end Lane

/-! ## Both lanes -/

namespace Acquisition

variable [Clock τ] {a a' : Acquisition τ} {s : Settings} {log : Logbook} {b : Block}

/-- The acquisition has taken the blocks in the logbook, and both lanes hold their recordings. -/
structure Follows (a : Acquisition τ) (s : Settings) (log : Logbook) : Prop where
  settings : a.settings = s
  frameStart : a.frameStart = startAfter s zero log.ended
  lane : ∀ k, (a.lane k).Follows s a.frameStart (finished k s zero log.ended)
    (samplesIn k log.current)

/-- The timelines of an acquisition hold what its logbook says. -/
theorem Follows.map_capture (h : a.Follows s log) (k : Signal) :
    (a.lane k).timeline.recordings.map Recording.capture = log.captures k s := by
  rw [(h.lane k).map_capture, h.frameStart]
  rfl

/-- At the start nothing was taken, and all blocks wait. -/
theorem follows_of_start {pending : List Block} (h : start pending s = .ok a) :
    a.Follows s ⟨[], []⟩ ∧ a.pending = pending ∧ 0 < s.rate := by
  unfold start at h
  split at h
  · rename_i hvalid
    cases h
    refine ⟨⟨rfl, rfl, fun k => ?_⟩, rfl, ?_⟩
    · cases k <;> exact ⟨rfl, [], nofun, rfl, rfl⟩
    · unfold Settings.validate at hvalid
      split at hvalid
      · exact nomatch hvalid
      · omega
  · exact nomatch h

/-- The end of a frame completes the recordings of the frame, and the clock moves on by the time that the
frame has taken. -/
theorem Follows.frameEnd (h : a.Follows s log) {n : Nat} (hpush : push .frameEnd a = .ok n a') :
    a'.Follows s (log.enter .frameEnd) := by
  rw [push_frameEnd] at hpush
  cases hpush
  refine ⟨h.settings, ?_, fun k => ?_⟩
  · have hlogic := (h.lane .logic).activeDuration_eq
    have hanalog := (h.lane .analog).activeDuration_eq
    show a.frameStart + later (later zero (activeDuration (a.lane .logic)))
      (activeDuration (a.lane .analog)) = _
    rw [hlogic, hanalog, h.frameStart]
    simp only [Logbook.enter, startAfter, List.foldl_append, List.foldl_cons, List.foldl_nil]
    rfl
  · have hclose := (h.lane k).close (a.frameStart + later (later zero (activeDuration a.logic))
      (activeDuration a.analog))
    rw [h.frameStart] at hclose
    simp only [Logbook.enter, finished_append]
    cases k <;> (rw [h.frameStart]; exact hclose)

/-- A block of samples that is written goes to the lane of its kind, and the other lane is left alone. -/
theorem Follows.withLane (h : a.Follows s log) {new : List UInt64} (hkind : b.kind = some k)
    (hnew : b.samples k = some new) {l : Lane τ k}
    (hlane : l.Follows s a.frameStart (finished k s zero log.ended)
      (some ((samplesIn k log.current).getD [] ++ new))) :
    (a.withLane l).Follows s (log.enter b) := by
  have henter : log.enter b = ⟨log.ended, log.current ++ [b]⟩ := by
    cases b with
    | frameEnd => exact nomatch hkind
    | logic width payload => rfl
    | analog xs => rfl
  have hstart : (a.withLane l).frameStart = a.frameStart := by cases k <;> rfl
  refine ⟨?_, ?_, fun j => ?_⟩
  · rw [← h.settings]
    cases k <;> rfl
  · rw [hstart, henter]
    exact h.frameStart
  · rw [hstart, henter, samplesIn_append]
    by_cases hjk : j = k
    · subst hjk
      rw [lane_withLane, hnew]
      exact hlane
    · have hother : b.samples j = none := Block.samples_of_kind_ne fun hj =>
        hjk (Option.some.inj (hj.symm.trans hkind))
      rw [lane_withLane_of_ne hjk, hother]
      exact h.lane j

/-- A block that is taken is recorded. -/
theorem Follows.push (h : a.Follows s log) {n : Nat} (hpush : push b a = .ok n a') :
    a'.Follows s (log.enter b) := by
  rcases push_cases b a with ⟨r, -, hrefused⟩ | rfl | ⟨k, w, new, -, hkind, hnew, -, hw, hwritten⟩
  · exact nomatch hpush.symm.trans hrefused
  · exact h.frameEnd hpush
  · -- The block is written, and the write succeeds.
    rw [hwritten] at hpush
    split at hpush
    · rename_i l hwrite
      cases hpush
      rw [h.settings] at hw hwrite
      exact h.withLane hkind hnew ((h.lane k).write hw hwrite)
    · exact nomatch hpush

/-- A block that is not taken changes nothing. -/
theorem push_unchanged (hfits : b.Fits) {f : Failure} (hpush : push b a = .error f a') :
    a' = a := by
  rcases push_cases b a with ⟨r, -, hrefused⟩ | rfl | ⟨k, w, new, -, -, -, -, hw, hwritten⟩
  · rw [hrefused] at hpush
    cases hpush
    rfl
  · exact nomatch hpush
  · rw [hwritten] at hpush
    split at hpush
    · exact nomatch hpush
    · rename_i hwrite
      cases hpush
      rw [Lane.write_unchanged hw hfits hwrite]
      cases k <;> rfl

/-- A block that is not refused is taken as long as there is room in the recording of its kind. -/
theorem Follows.push_ok_of_kind (h : a.Follows s log) (hrate : 0 < s.rate)
    (hexpected : ∀ k, s.expected * s.widthOf k < Packed.byteLimit) (hrefusal : b.refusal s = none)
    (hroom : ∀ k, b.kind = some k →
      ((samplesIn k log.current).getD []).length * s.widthOf k + b.size < Packed.byteLimit) :
    ∃ a', Acquisition.push b a = .ok b.count a' := by
  rcases push_cases b a with ⟨r, hrefused, -⟩ | rfl | ⟨k, w, new, -, hkind, -, -, hw, hwritten⟩
  · rw [h.settings, hrefusal] at hrefused
    exact nomatch hrefused
  · exact ⟨_, push_frameEnd a⟩
  · rw [h.settings] at hw hwritten
    obtain ⟨l, hwrite⟩ := (h.lane k).write_ok hw hrate (hexpected k) (hroom k hkind)
    exact ⟨a.withLane l, by rw [hwritten, hwrite]⟩

/-- A block that is not refused is taken as long as there is room. -/
theorem Follows.push_ok (h : a.Follows s log) (hrate : 0 < s.rate)
    (hexpected : ∀ k, s.expected * s.widthOf k < Packed.byteLimit) (hrefusal : b.refusal s = none)
    (hroom : ∀ k, ((samplesIn k log.current).getD []).length * s.widthOf k + b.size <
      Packed.byteLimit) :
    ∃ a', Acquisition.push b a = .ok b.count a' :=
  h.push_ok_of_kind hrate hexpected hrefusal fun k _ => hroom k

/-- Blocks that are taken one after the other are entered in the logbook. -/
theorem Follows.takes (h : a.Follows s log) {bs : List Block} (htakes : Takes Block.Fits a bs a') :
    a'.Follows s (bs.foldl Logbook.enter log) := by
  induction htakes generalizing log with
  | done => exact h
  | takes _ hpush _ ih => exact ih (h.push hpush)
  | refuses hfits hpush _ ih => exact ih (push_unchanged hfits hpush ▸ h)
  | dequeues _ _ ih => exact ih ⟨h.settings, h.frameStart, fun k => by cases k <;> exact h.lane _⟩

/-- What stands on the timelines of an acquisition after a run of requests, the first of which it gets
when it has just been started: of each kind, the recordings of the blocks that it has taken.  Every
block that it takes from then on adds its samples to them, and it takes every block that it does not
refuse, as long as the recordings do not outgrow the address space. -/
theorem frames_recorded {pending : List Block} (hstart : start pending s = .ok a)
    (hexpected : ∀ k, s.expected * s.widthOf k < Packed.byteLimit)
    (hpending : ∀ b ∈ pending, b.Fits) (requests : List Request)
    (hrequests : ∀ q ∈ requests, q.Hands Block.Fits) :
    let log := Logbook.of (takenBy requests a)
    (∀ k, ((run requests a).lane k).timeline.recordings.map Recording.capture =
      log.captures k s) ∧
    (∀ b n a', push b (run requests a) = .ok n a' → n = b.count ∧
      ∀ k, (a'.lane k).timeline.held =
        ((run requests a).lane k).timeline.held + if b.kind = some k then n else 0) ∧
    ∀ b, b.refusal s = none →
      (∀ k, ((samplesIn k log.current).getD []).length * s.widthOf k + b.size <
        Packed.byteLimit) →
      ∃ a', push b (run requests a) = .ok b.count a' := by
  obtain ⟨hfollows, hqueue, hrate⟩ := follows_of_start hstart
  have hrun : (run requests a).Follows s (Logbook.of (takenBy requests a)) :=
    hfollows.takes (takes_run (show 0 < Packed.byteLimit by decide) requests hrequests
      (hqueue ▸ hpending))
  refine ⟨hrun.map_capture, fun b n a' hpush => ⟨?_, fun k => ?_⟩, fun b hrefusal hroom =>
    hrun.push_ok hrate hexpected hrefusal hroom⟩
  · exact count_of_push hpush
  · rw [held_push hpush k]
    simp [(hrun.lane k).attached]

/-- A frame of both kinds from which one block is refused, a frame of one empty block, and a frame that
has not ended. -/
theorem frames_recorded_of_three_frames :
    let s : Settings := ⟨16, 4, 64, ⟨0x43800000⟩⟩
    let half : Binary32 := ⟨0x3f000000⟩
    let pending : List Block := [.logic 1 ⟨#[1, 2]⟩, .logic 2 ⟨#[0, 0]⟩,
      .analog #[half, half, half, half], .frameEnd, .logic 1 ⟨#[]⟩]
    let a : Acquisition Rat := ⟨s, pending, .empty, .empty, zero⟩
    let requests : List Request :=
      [.pump, .push (.logic 1 ⟨#[3]⟩), .pump, .pump, .pump, .runToEnd, .push (.analog #[half])]
    ((run requests a).lane .logic).timeline.recordings.map Recording.capture =
      [⟨0, 16, 1, [1, 2, 3], true⟩, ⟨1 / 4, 16, 1, [], true⟩] ∧
    ((run requests a).lane .analog).timeline.recordings.map Recording.capture =
      [⟨0, 16, 4, [half.bits.toUInt64, half.bits.toUInt64, half.bits.toUInt64, half.bits.toUInt64],
        true⟩, ⟨1 / 4, 16, 4, [half.bits.toUInt64], false⟩] ∧
    ∃ a', push (.logic 1 ⟨#[4, 5]⟩) (run requests a) = .ok 2 a' ∧
      (a'.lane .logic).timeline.held = ((run requests a).lane .logic).timeline.held + 2 := by
  intro s half pending a requests
  have hexpected : ∀ k, s.expected * s.widthOf k < Packed.byteLimit := by
    intro k
    cases k <;> decide
  have hstart : start pending s = .ok a := rfl
  -- Both histories are read off the logbook.
  obtain ⟨hcaptures, hheld, htaken⟩ :=
    frames_recorded hstart hexpected (by decide) requests (by decide)
  obtain ⟨a', hpush⟩ := htaken (.logic 1 ⟨#[4, 5]⟩) (by decide) (by
    intro k
    cases k <;> decide +kernel)
  exact ⟨(hcaptures .logic).trans (by decide +kernel), (hcaptures .analog).trans (by decide +kernel),
    a', hpush, (hheld _ _ _ hpush).2 .logic⟩

end Acquisition

end Waveform
