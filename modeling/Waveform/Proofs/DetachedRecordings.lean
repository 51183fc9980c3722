import Waveform.Proofs.Requests
import Waveform.Proofs.TimelineCuts

/-!
# Detached recordings

The timelines of an acquisition may be edited while it goes on.  An edit that takes the recording
under way off its timeline does not end it: until the frame ends, blocks of its kind are still taken,
and their samples are written where no timeline holds them.  A kind is `CutOff` from such an edit up
to the end of the frame.  While it is, what is taken of it is lost; at all other times it is held.

## Key results

- `Lane.edit_sheds`: which edits detach a recording
- `Acquisition.Takes.live`: taking blocks neither detaches a recording nor, before the frame ends,
  brings one back
- `Acquisition.live_perform`: a recording is detached where its kind is cut off
- `Acquisition.held_unless_cut_off`: what is taken is held, unless its kind is cut off
-/

namespace Waveform

open Operation

variable {τ : Type} {k : Signal}

/-- The number of live recordings is zero if none is live. -/
theorem Recording.countP_live_eq_zero {recordings : List (Recording τ k)} :
    recordings.countP (·.live) = 0 ↔ ∀ r ∈ recordings, r.live = false := by
  simp [List.countP_eq_zero]

/-- The number of live recordings is positive if one is live. -/
theorem Recording.countP_live_pos {recordings : List (Recording τ k)} :
    0 < recordings.countP (·.live) ↔ ∃ r ∈ recordings, r.live = true :=
  List.countP_pos_iff

/-! ## Recordings under way in a lane -/

namespace Lane

/-- At most one recording of the lane is under way: one that is live on the timeline, or the detached
one. -/
structure Single (l : Lane τ k) : Prop where
  countP_le : l.timeline.recordings.countP (·.live) ≤ 1
  countP_eq : l.detached.isSome → l.timeline.recordings.countP (·.live) = 0

variable {l : Lane τ k}

/-- An edit detaches a recording if one was live on the timeline and none is any more. -/
theorem edit_sheds {act : Operation (Timeline τ k) (List (Recording τ k))}
    (hact : Timeline.Declines act l.timeline ∨ Timeline.Sheds act l.timeline) (hsingle : l.Single) :
    ((edit act).leaves l).Single ∧
      (((edit act).leaves l).detached.isSome ↔ l.detached.isSome ∨
        (∃ r ∈ l.timeline.recordings, r.live = true) ∧
          ∀ r ∈ ((edit act).leaves l).timeline.recordings, r.live = false) := by
  -- A failed edit leaves the lane; else the recordings are counted: what was there is taken or
  -- stays.
  rcases hact with ⟨v, herror⟩ | ⟨taken, t', hok, hcount⟩
  · have hleaves : (edit act).leaves l = l := by
      simp only [leaves, edit, herror]
    rw [hleaves]
    refine ⟨hsingle, .inl, ?_⟩
    rintro (h | ⟨⟨r, hr, hlive⟩, hnone⟩)
    · exact h
    · exact absurd (hnone r hr) (by simp [hlive])
  have hleaves : (edit act).leaves l = ⟨t', (taken.find? (·.live)).or l.detached⟩ := by
    simp only [leaves, edit, hok]
  have hle := hsingle.countP_le
  have heq := hsingle.countP_eq
  rw [hleaves, ← Recording.countP_live_eq_zero, ← Recording.countP_live_pos]
  cases htaken : taken.find? (·.live) with
  | none =>
    -- As many recordings are live as before.
    have hzero : taken.countP (·.live) = 0 := by
      rw [Recording.countP_live_eq_zero]
      intro r hr
      simpa using List.find?_eq_none.1 htaken r hr
    simp only [Option.none_or]
    refine ⟨⟨?_, ?_⟩, .inl, ?_⟩
    · show t'.recordings.countP (·.live) ≤ 1
      omega
    · intro h
      have := heq h
      show t'.recordings.countP (·.live) = 0
      omega
    rintro (h | ⟨hbefore, hafter⟩)
    · exact h
    · omega
  | some r =>
    have hpos : 0 < taken.countP (·.live) := Recording.countP_live_pos.2
      ⟨r, List.mem_of_find?_eq_some htaken, List.find?_some htaken⟩
    simp only [Option.some_or]
    -- The one that was live is among those taken off, so the lane had no detached recording.
    have hgone : t'.recordings.countP (·.live) = 0 := by omega
    exact ⟨⟨hgone ▸ Nat.zero_le 1, fun _ => hgone⟩, fun _ => .inr ⟨by omega, hgone⟩, fun _ => rfl⟩

/-- What leaves a recording live or not leaves all of them so. -/
theorem map_live_onFirst {act : Operation (Recording τ k) Unit}
    (hact : ∀ r, (act.leaves r).live = r.live) (recordings : List (Recording τ k)) :
    ((onFirst (·.live) act).leaves recordings).map (·.live) = recordings.map (·.live) := by
  induction recordings with
  | nil => rfl
  | cons r rest ih =>
    have hr := hact r
    by_cases hlive : r.live = true
    · simp only [leaves, onFirst, if_pos hlive] at hr ⊢
      cases hrun : act r <;> simp only [hrun] at hr <;> simp [hr]
    · simp only [leaves, onFirst, if_neg hlive] at ih ⊢
      cases hrun : onFirst (·.live) act rest <;> simp only [hrun] at ih <;> simp [ih]

variable {w : Writer τ k} {s : Settings} {start : τ} {new : List UInt64} {size : Nat}

/-- Appending leaves it alone which recordings are live. -/
theorem map_live_onActive (hw : w.Writes s start new size) (l : Lane τ k) :
    ((onActive w.append).leaves l).timeline.recordings.map (·.live) =
        l.timeline.recordings.map (·.live) ∧
      ((onActive w.append).leaves l).detached.isSome = l.detached.isSome := by
  have hlive (r : Recording τ k) : (w.append.leaves r).live = r.live := by
    unfold leaves
    -- An append keeps the flag of its recording, also where it fails.
    cases hrun : w.append r with
    | ok a r' => exact (hw.capture_append r r' hrun).2
    | error v r' => exact congrArg Recording.live (hw.atomic r v r' hrun)
  obtain ⟨⟨recordings, origin⟩, detached⟩ := l
  cases detached with
  | some r =>
    simp only [leaves, onActive]
    cases w.append r <;> exact ⟨rfl, rfl⟩
  | none =>
    have hmap := map_live_onFirst hlive recordings
    simp only [leaves, onActive, onRecordings] at hmap ⊢
    cases hrun : onFirst (·.live) w.append recordings <;> simp only [hrun] at hmap <;>
      exact ⟨hmap, rfl⟩

/-- What writing leaves behind, on either outcome: the lane as it was, or what appending makes of a
lane that has a recording under way. -/
theorem write_leaves_cases (w : Writer τ k) (expected : Nat) (l : Lane τ k) :
    (write w expected).leaves l = l ∨
      ∃ l₁, Acquisition.ensureActive w.start expected l = .ok () l₁ ∧
        (write w expected).leaves l = (onActive w.append).leaves l₁ := by
  unfold leaves
  cases hwrite : write w expected l with
  | ok a l' =>
    obtain ⟨l₁, hensure, answer, hact⟩ := write_eq_ok.1 hwrite
    exact .inr ⟨l₁, hensure, by rw [hact]⟩
  | error v l' =>
    rcases bind_eq_error.1 hwrite with hensure | ⟨⟨⟩, l₁, hensure, hrest⟩
    · exact .inl (atomic_ensureActive _ _ _ _ _ hensure)
    · rcases bind_eq_error.1 hrest with hact | ⟨_, _, -, hpure⟩
      · exact .inr ⟨l₁, hensure, by rw [hact]⟩
      · cases hpure

/-- Writing neither detaches a recording nor brings one back, and starts none beside another. -/
theorem live_write (hw : w.Writes s start new size) (expected : Nat) (l : Lane τ k) :
    (l.Single → ((write w expected).leaves l).Single) ∧
      ((write w expected).leaves l).detached.isSome = l.detached.isSome := by
  -- A write fails before a recording is found, or edits one.
  rcases write_leaves_cases w expected l with heq | ⟨l₁, hensure, heq⟩
  · rw [heq]
    exact ⟨id, rfl⟩
  · obtain ⟨hmap, hdetached⟩ := map_live_onActive hw l₁
    have hcount : ((onActive w.append).leaves l₁).timeline.recordings.countP (·.live) =
        l₁.timeline.recordings.countP (·.live) := by
      have := congrArg (List.countP id) hmap
      rwa [List.countP_map, List.countP_map] at this
    -- A recording is only started where none is under way.
    have hstart : (l.Single → l₁.Single) ∧ l₁.detached.isSome = l.detached.isSome := by
      rcases ensureActive_eq_ok.1 hensure with ⟨-, rfl⟩ | ⟨hidle, r, -, -, rfl⟩
      · exact ⟨id, rfl⟩
      · obtain ⟨hattached, hnone⟩ := active_eq_none_iff.1 hidle
        refine ⟨fun _ => ⟨?_, ?_⟩, rfl⟩
        · rw [recordings_withRecordings, List.countP_append,
            Recording.countP_live_eq_zero.2 hnone]
          simp
        · rw [detached_withRecordings, hattached]
          intro h
          cases h
    rw [heq, hdetached]
    refine ⟨fun hl => ⟨?_, fun h => ?_⟩, hstart.2⟩
    · rw [hcount]
      exact (hstart.1 hl).countP_le
    · rw [hcount]
      exact (hstart.1 hl).countP_eq (hdetached ▸ h)

/-- When a frame has ended no recording is under way. -/
theorem single_close (l : Lane τ k) : l.close.Single := by
  have hzero : l.close.timeline.recordings.countP (·.live) = 0 := by
    rw [Recording.countP_live_eq_zero]
    intro r hr
    obtain ⟨x, -, rfl⟩ := List.mem_map.1 hr
    split
    · rfl
    · simpa using ‹¬ x.live = true›
  exact ⟨hzero ▸ Nat.zero_le 1, fun _ => hzero⟩

end Lane

/-! ## Taking blocks -/

namespace Acquisition

variable [Clock τ] {a a' : Acquisition τ} {bs : List Block}

/-- The end of a frame is never refused. -/
theorem ne_frameEnd_of_error {b : Block} {f : Failure} (h : push b a = .error f a') :
    b ≠ .frameEnd := by
  rintro rfl
  cases h

/-- What a block leaves of the lanes, on either outcome: it is refused, or it ends the frame, or something
is written to the lane of its kind, whatever becomes of that. -/
theorem leaves_push_cases (b : Block) (a : Acquisition τ) :
    (b ≠ .frameEnd ∧ Step.leaves (push b) a = a) ∨
    (b = .frameEnd ∧ ∀ k, (Step.leaves (push b) a).lane k = (a.lane k).close) ∨
    ∃ (j : Signal) (w : Writer τ j) (new : List UInt64), b ≠ .frameEnd ∧
      w.Writes a.settings a.frameStart new b.size ∧
      Step.leaves (push b) a =
        a.withLane ((Lane.write w a.settings.expected).leaves (a.lane j)) := by
  rcases push_cases b a with ⟨r, -, hpush⟩ | rfl | ⟨j, w, new, -, hkind, -, -, hw, hpush⟩
  · exact .inl ⟨ne_frameEnd_of_error hpush, Step.leaves_of_eq_error hpush⟩
  · refine .inr (.inl ⟨rfl, fun k => ?_⟩)
    rw [Step.leaves_of_eq_ok (push_frameEnd a)]
    cases k <;> rfl
  · refine .inr (.inr ⟨j, w, new, ?_, hw, ?_⟩)
    · rintro rfl
      cases hkind
    · unfold Step.leaves leaves
      rw [hpush]
      cases Lane.write w a.settings.expected (a.lane j) <;> rfl

/-- A block leaves it alone which kinds have a detached recording, unless it ends the frame. -/
theorem live_push (b : Block) (a : Acquisition τ) (k : Signal) :
    ((a.lane k).Single → ((Step.leaves (push b) a).lane k).Single) ∧
      (((Step.leaves (push b) a).lane k).detached.isSome ↔
        (a.lane k).detached.isSome ∧ b ≠ .frameEnd) := by
  -- The block is refused, ends the frame, or is written.
  rcases leaves_push_cases b a with ⟨hb, hleaves⟩ | ⟨rfl, hleaves⟩ | ⟨j, w, new, hb, hw, hleaves⟩
  · rw [hleaves]
    exact ⟨id, (and_iff_left hb).symm⟩
  · rw [hleaves]
    exact ⟨fun _ => Lane.single_close _, by simp [Lane.close]⟩
  · rw [hleaves]
    -- A write to the other lane leaves this one alone.
    by_cases hjk : k = j
    · subst hjk
      obtain ⟨hsingle, hdetached⟩ := Lane.live_write hw a.settings.expected (a.lane k)
      rw [lane_withLane, hdetached]
      exact ⟨hsingle, (and_iff_left hb).symm⟩
    · rw [lane_withLane_of_ne hjk]
      exact ⟨id, (and_iff_left hb).symm⟩

/-- Taking blocks leaves it alone which kinds have a detached recording, unless the frame ends. -/
theorem Takes.live {Admitted : Block → Prop} (h : Takes Admitted a bs a') (k : Signal) :
    ((a.lane k).Single → (a'.lane k).Single) ∧
      ((a'.lane k).detached.isSome ↔ (a.lane k).detached.isSome ∧ .frameEnd ∉ bs) := by
  -- On the blocks taken; a refused block is no end of a frame.
  induction h with
  | done => exact ⟨id, by simp⟩
  | @takes a a₁ a₂ b bs n _ hpush _ ih =>
    have hstep := live_push b a k
    rw [Step.leaves_of_eq_ok hpush] at hstep
    refine ⟨ih.1 ∘ hstep.1, ?_⟩
    rw [ih.2, hstep.2, List.mem_cons, not_or, and_assoc, ne_comm]
  | @refuses a a₁ a₂ b bs f _ hpush _ ih =>
    have hstep := live_push b a k
    rw [Step.leaves_of_eq_error hpush] at hstep
    exact ⟨ih.1 ∘ hstep.1, by rw [ih.2, hstep.2, and_iff_left (ne_frameEnd_of_error hpush)]⟩
  | @dequeues a a₂ bs pending _ _ ih =>
    have hlane : ({ a with pending } : Acquisition τ).lane k = a.lane k := by cases k <;> rfl
    rwa [hlane] at ih

end Acquisition

/-! ## Edits between requests -/

/-- An edit of a timeline. -/
inductive TimelineEdit (τ : Type) where
  /-- Erase the samples between two times. -/
  | remove (start stop : τ)
  /-- Erase the samples outside two times. -/
  | crop (start stop : τ)
  /-- Take all recordings off. -/
  | clear

/-- What is done to an acquisition: it is asked for something, or the timeline of a kind is edited. -/
inductive Action (τ : Type) where
  | ask (q : Request)
  | edit (k : Signal) (e : TimelineEdit τ)

variable [Clock τ]

/-- Runs an edit on a lane. -/
def TimelineEdit.run : TimelineEdit τ → Operation (Lane τ k) Unit
  | .remove start stop => Lane.remove start stop
  | .crop start stop => Lane.crop start stop
  | .clear => Lane.clear

/-- An edit detaches the recording that it takes off. -/
theorem TimelineEdit.live (e : TimelineEdit τ) {l : Lane τ k} (hsingle : l.Single) :
    ((e.run : Operation (Lane τ k) Unit).leaves l).Single ∧
      (((e.run : Operation (Lane τ k) Unit).leaves l).detached.isSome ↔ l.detached.isSome ∨
        (∃ r ∈ l.timeline.recordings, r.live = true) ∧
          ∀ r ∈ ((e.run : Operation (Lane τ k) Unit).leaves l).timeline.recordings,
            r.live = false) := by
  cases e with
  | remove start stop => exact Lane.edit_sheds (Timeline.sheds_remove start stop _) hsingle
  | crop start stop => exact Lane.edit_sheds (Timeline.sheds_crop start stop _) hsingle
  | clear => exact Lane.edit_sheds (.inr (Timeline.sheds_clear _)) hsingle

namespace Acquisition

/-- Edits the timeline of a kind. -/
def edit (e : TimelineEdit τ) : Signal → Step τ Unit
  | .logic => onLogic e.run
  | .analog => onAnalog e.run

/-- The acquisition that an action leaves behind. -/
def act (a : Acquisition τ) : Action τ → Acquisition τ
  | .ask q => a.after q
  | .edit k e => Step.leaves (edit e k) a

/-- The acquisition that a run of actions leaves behind. -/
def perform (actions : List (Action τ)) (a : Acquisition τ) : Acquisition τ :=
  actions.foldl act a

/-- The blocks that an acquisition takes on an action. -/
def takenOn (a : Acquisition τ) : Action τ → List Block
  | .ask q => a.taken q
  | .edit _ _ => []

/-- The blocks that an acquisition takes in a run of actions. -/
def takenIn : List (Action τ) → Acquisition τ → List Block
  | [], _ => []
  | x :: rest, a => a.takenOn x ++ takenIn rest (a.act x)

/-- The action is an edit that takes the live recording of a kind off its timeline. -/
def TakesOff (k : Signal) (a : Acquisition τ) (x : Action τ) : Prop :=
  (∃ e, x = .edit k e) ∧ (∃ r ∈ (a.lane k).timeline.recordings, r.live = true) ∧
    ∀ r ∈ ((a.act x).lane k).timeline.recordings, r.live = false

/-- After the actions a kind is cut off: one of them took its live recording off the timeline, and the
frame has not ended since. -/
def CutOff (k : Signal) (actions : List (Action τ)) (a : Acquisition τ) : Prop :=
  ∃ before x after, actions = before ++ x :: after ∧ TakesOff k (perform before a) x ∧
    .frameEnd ∉ takenIn after ((perform before a).act x)

variable {a : Acquisition τ}

/-- Before any action nothing is cut off. -/
theorem cutOff_nil : ¬ CutOff k [] a := by
  rintro ⟨before, x, after, h, -⟩
  simp at h

/-- A kind is cut off by the first action, or later. -/
theorem cutOff_cons {x : Action τ} {rest : List (Action τ)} :
    CutOff k (x :: rest) a ↔
      (TakesOff k a x ∧ .frameEnd ∉ takenIn rest (a.act x)) ∨ CutOff k rest (a.act x) := by
  constructor
  · rintro ⟨before, y, after, h, htakes, hend⟩
    cases before with
    | nil =>
      obtain ⟨rfl, rfl⟩ := List.cons.inj h
      exact .inl ⟨htakes, hend⟩
    | cons y' before =>
      obtain ⟨rfl, rfl⟩ := List.cons.inj h
      exact .inr ⟨before, y, after, rfl, htakes, hend⟩
  · rintro (⟨htakes, hend⟩ | ⟨before, y, after, rfl, htakes, hend⟩)
    · exact ⟨[], x, rest, rfl, htakes, hend⟩
    · exact ⟨x :: before, y, after, rfl, htakes, hend⟩

/-- An edit of the timeline of a kind is run on the lane of that kind alone. -/
theorem lane_edit (e : TimelineEdit τ) (k : Signal) (a : Acquisition τ) :
    (a.act (.edit k e)).lane k = (e.run : Operation (Lane τ k) Unit).leaves (a.lane k) ∧
      ∀ j, j ≠ k → (a.act (.edit k e)).lane j = a.lane j := by
  have hleaves : a.act (.edit k e) =
      a.withLane ((e.run : Operation (Lane τ k) Unit).leaves (a.lane k)) := by
    cases k with
    | logic =>
      simp only [act, Step.leaves, edit, onLogic_eq, leaves]
      cases (e.run : Operation (Lane τ .logic) Unit) (a.lane .logic) <;> rfl
    | analog =>
      simp only [act, Step.leaves, edit, onAnalog_eq, leaves]
      cases (e.run : Operation (Lane τ .analog) Unit) (a.lane .analog) <;> rfl
  rw [hleaves]
  exact ⟨lane_withLane _ _, fun j hj => lane_withLane_of_ne hj _ _⟩

/-- After an action a kind has a detached recording if it had one before and the frame has not ended,
or if the action takes its recording off. -/
theorem live_act (x : Action τ) (hsingle : ∀ k, (a.lane k).Single) (k : Signal) :
    ((a.act x).lane k).Single ∧
      (((a.act x).lane k).detached.isSome ↔
        ((a.lane k).detached.isSome ∧ .frameEnd ∉ a.takenOn x) ∨ TakesOff k a x) := by
  -- A request takes blocks and no recordings; an edit of the other lane does neither.
  cases x with
  | ask q =>
    have htakes : Takes (fun _ => True) a (a.taken q) (a.after q) :=
      takes_after (fun _ _ => trivial) trivial q (by cases q <;> trivial)
    have hnever : ¬ TakesOff k a (.ask q) := by
      rintro ⟨⟨e, h⟩, -⟩
      cases h
    obtain ⟨hkept, hdetached⟩ := htakes.live k
    exact ⟨hkept (hsingle k), hdetached.trans (or_iff_left hnever).symm⟩
  | edit j e =>
    obtain ⟨hown, hother⟩ := lane_edit e j a
    by_cases hjk : k = j
    · subst hjk
      have hlive := TimelineEdit.live e (hsingle k)
      rw [← hown] at hlive
      refine ⟨hlive.1, hlive.2.trans ?_⟩
      simp [TakesOff, takenOn]
    · have hnever : ¬ TakesOff k a (.edit j e) := by
        rintro ⟨⟨e', h⟩, -⟩
        cases h
        exact hjk rfl
      rw [hother k hjk, or_iff_left hnever]
      exact ⟨hsingle k, by simp [takenOn]⟩

/-- A recording is detached if it was before and the frame goes on, or if its kind was cut off. -/
theorem live_perform (actions : List (Action τ)) (hsingle : ∀ k, (a.lane k).Single) (k : Signal) :
    ((perform actions a).lane k).detached.isSome ↔
      ((a.lane k).detached.isSome ∧ .frameEnd ∉ takenIn actions a) ∨ CutOff k actions a := by
  induction actions generalizing a with
  | nil => simp [perform, takenIn, cutOff_nil]
  | cons x rest ih =>
    have hstep := live_act x hsingle
    have hrest := ih fun j => (hstep j).1
    -- Detached by the actions that are left, or before them and not given up since.
    rw [cutOff_cons]
    show ((perform rest (a.act x)).lane k).detached.isSome ↔ _
    rw [hrest, (hstep k).2, takenIn, List.mem_append, not_or, or_and_right, and_assoc, or_assoc]

/-- Where edits come between the requests to an acquisition, the samples that it takes of a kind are
held by the timeline of that kind unless the kind is cut off; then the timeline stays as it is, and
they are lost.  No other timeline holds more or less than before. -/
theorem held_unless_cut_off {pending : List Block} {s : Settings} (hstart : start pending s = .ok a)
    (actions : List (Action τ)) {b : Block} {n : Nat} {a' : Acquisition τ}
    (hpush : push b (perform actions a) = .ok n a') {k : Signal} (hkind : b.kind = some k) :
    n = b.count ∧
    (¬ CutOff k actions a →
      (a'.lane k).timeline.held = ((perform actions a).lane k).timeline.held + n) ∧
    (CutOff k actions a →
      (a'.lane k).timeline.held = ((perform actions a).lane k).timeline.held) ∧
    ∀ j, j ≠ k → (a'.lane j).timeline.held = ((perform actions a).lane j).timeline.held := by
  have hempty (j : Signal) : (a.lane j).Single ∧ (a.lane j).detached = none := by
    unfold start at hstart
    split at hstart
    · cases hstart
      cases j <;> exact ⟨⟨Nat.zero_le 1, fun _ => rfl⟩, rfl⟩
    · cases hstart
  -- Nothing is detached at the start, so what is detached now was cut off by one of the actions.
  have hcut : ((perform actions a).lane k).detached.isSome ↔ CutOff k actions a := by
    rw [live_perform actions (fun j => (hempty j).1) k, (hempty k).2]
    simp
  have hheld := held_push hpush
  refine ⟨count_of_push hpush, fun h => ?_, fun h => ?_, fun j hj => ?_⟩
  · -- The block is written to a recording of the timeline.
    have hnone : ((perform actions a).lane k).detached = none := by
      rw [← hcut] at h
      simpa using h
    rw [hheld k, if_pos ⟨hkind, hnone⟩]
  · -- The block is written to the detached recording.
    have hsome : ((perform actions a).lane k).detached ≠ none := by
      rw [← hcut] at h
      exact Option.isSome_iff_ne_none.1 h
    rw [hheld k, if_neg fun hboth => hsome hboth.2, Nat.add_zero]
  · have hother : b.kind ≠ some j := by
      rw [hkind]
      exact fun h => hj (Option.some.inj h).symm
    rw [hheld j, if_neg fun hboth => hother hboth.1, Nat.add_zero]

/-- Once a timeline was cleared in the middle of a frame, the samples that are taken are lost up to the
end of the frame, and held again after it. -/
theorem held_unless_cut_off_by_clear :
    let s : Settings := ⟨16, 4, 64, ⟨0x43800000⟩⟩
    let a : Acquisition Float := ⟨s, [], .empty, .empty, Clock.zero⟩
    let cleared : List (Action Float) :=
      [.ask (.push (.logic 1 ⟨#[1, 1, 1]⟩)), .edit .logic .clear]
    let ended : List (Action Float) := cleared ++ [.ask .endFrame]
    ∃ a₁ a₂, push (.logic 1 ⟨#[2, 2]⟩) (perform cleared a) = .ok 2 a₁ ∧
      push (.logic 1 ⟨#[2, 2]⟩) (perform ended a) = .ok 2 a₂ ∧
      (a₁.lane .logic).timeline.held = 0 ∧ (a₂.lane .logic).timeline.held = 2 := by
  intro s a cleared ended
  have hstart : start [] s = .ok a := rfl
  have hcut : CutOff .logic cleared a :=
    ⟨[.ask (.push (.logic 1 ⟨#[1, 1, 1]⟩))], .edit .logic .clear, [], rfl,
      ⟨⟨.clear, rfl⟩, by decide, by decide⟩, List.not_mem_nil⟩
  -- The end of the frame lets go of the recording that was cut off.
  have hheld : ¬ CutOff .logic ended a := by
    show ¬ CutOff .logic [.ask _, .edit .logic .clear, .ask .endFrame] a
    rw [cutOff_cons, cutOff_cons, cutOff_cons]
    rintro (⟨⟨⟨e, h⟩, -⟩, -⟩ | ⟨-, hend⟩ | ⟨⟨⟨e, h⟩, -⟩, -⟩ | h)
    · cases h
    · exact hend List.mem_cons_self
    · cases h
    · exact cutOff_nil h
  have hpush₁ : ∃ a₁, push (.logic 1 ⟨#[2, 2]⟩) (perform cleared a) = .ok 2 a₁ :=
    ⟨_, by with_unfolding_all rfl⟩
  have hpush₂ : ∃ a₂, push (.logic 1 ⟨#[2, 2]⟩) (perform ended a) = .ok 2 a₂ :=
    ⟨_, by with_unfolding_all rfl⟩
  obtain ⟨a₁, hpush₁⟩ := hpush₁
  obtain ⟨a₂, hpush₂⟩ := hpush₂
  have hlost := (held_unless_cut_off hstart cleared hpush₁ (k := .logic) rfl).2.2.1 hcut
  have hkept := (held_unless_cut_off hstart ended hpush₂ (k := .logic) rfl).2.1 hheld
  exact ⟨a₁, a₂, hpush₁, hpush₂, hlost.trans (by decide), hkept.trans (by decide)⟩

/-- What an acquisition takes is not always held. -/
theorem taken_samples_lost :
    ¬ ∀ (pending : List Block) (s : Settings) (a : Acquisition Float) (actions : List (Action Float))
      (b : Block) (n : Nat) (a' : Acquisition Float) (k : Signal),
      start pending s = .ok a → push b (perform actions a) = .ok n a' → b.kind = some k →
        (a'.lane k).timeline.held = ((perform actions a).lane k).timeline.held + n := by
  intro h
  have hlost := h [] ⟨16, 4, 64, ⟨0x43800000⟩⟩ _
    [.ask (.push (.logic 1 ⟨#[1, 1, 1]⟩)), .edit .logic .clear] (.logic 1 ⟨#[2, 2]⟩) 2 _ .logic rfl
    rfl rfl
  revert hlost
  decide

end Acquisition

end Waveform
