import Waveform.Proofs.BlockWriting

/-!
# Steps of an acquisition

What an acquisition does with one block.  A block of samples is written to the recording under way in
the lane of its kind, and a new recording is started if there is none; the other lane is left alone.
Where a block is refused, or cannot be written, nothing has changed.

## Key results

- `Lane.write_of_open`, `Lane.write_of_idle`: writing to a lane whose recording is the newest one, and
  to a lane that has none under way
- `Lane.write_eq_error`: what cannot be written leaves the lane as it was
- `Acquisition.push_cases`: the ways in which an acquisition takes a block
- `Acquisition.held_push`: where the samples of a block go
-/

namespace Waveform

variable {τ : Type} {k : Signal}

namespace Operation

variable {σ α : Type} {p : σ → Bool} {act : Operation σ α}

/-- An operation on the first object that has the property runs on the last one if no other has it. -/
theorem onFirst_of_last {older : List σ} (holder : ∀ s ∈ older, p s = false) {s : σ}
    (hs : p s = true) :
    onFirst p act (older ++ [s]) =
      match act s with
      | .ok a t => .ok (some a) (older ++ [t])
      | .error v t => .error v (older ++ [t]) := by
  induction older with
  | nil => exact if_pos hs
  | cons first older ih =>
    have hfirst : ¬ p first = true := by simp [holder first]
    have hrest := ih fun x hx => holder x (List.mem_cons_of_mem _ hx)
    simp only [List.cons_append, onFirst, if_neg hfirst, hrest]
    cases act s <;> rfl

/-- An operation on the first object of a list is atomic if it is so on that object. -/
theorem atomic_onFirst (hact : Atomic act) : Atomic (onFirst p act) := by
  intro objects
  -- Along the objects: the edit fails on the one that is found, and that one is unchanged.
  induction objects with
  | nil => exact fun v t h => nomatch h
  | cons s rest ih =>
    intro v t h
    simp only [onFirst] at h
    split at h
    · split at h
      · exact nomatch h
      · rename_i hfail
        cases h
        rw [hact _ _ _ hfail]
    · split at h
      · exact nomatch h
      · rename_i hfail
        cases h
        rw [ih _ _ hfail]

end Operation

open Operation

/-- Appending to the live recording of a timeline adds to what the timeline holds. -/
theorem Timeline.held_onFirst {act : Operation (Recording τ k) Unit} {m : Nat}
    (hact : ∀ r r', act r = .ok () r' → r'.count = r.count + m) {origin : τ} {answer : Option Unit}
    {recordings recordings' : List (Recording τ k)} (hlive : ∃ r ∈ recordings, r.live = true)
    (h : onFirst (·.live) act recordings = .ok answer recordings') :
    held ⟨recordings', origin⟩ = held ⟨recordings, origin⟩ + m := by
  -- Along the recordings up to the one that is live.
  induction recordings generalizing answer recordings' with
  | nil =>
    obtain ⟨r, hr, -⟩ := hlive
    exact absurd hr List.not_mem_nil
  | cons first rest ih =>
    simp only [onFirst] at h
    split at h
    · split at h
      · rename_i hok
        cases h
        simp only [held, List.foldr_cons, hact _ _ hok]
        omega
      · cases h
    · rename_i hidle
      split at h
      · rename_i hok
        -- The live one is further on.
        cases h
        have hlive' : ∃ r ∈ rest, r.live = true := by
          obtain ⟨r, hr, hrlive⟩ := hlive
          rcases List.mem_cons.1 hr with rfl | hr
          · exact absurd hrlive hidle
          · exact ⟨r, hr, hrlive⟩
        have hrest := ih hlive' hok
        simp only [held, List.foldr_cons] at hrest ⊢
        omega
      · cases h

namespace Lane

/-- Writes to the recording under way, starting one if there is none. -/
def write (w : Writer τ k) (expected : Nat) : Operation (Lane τ k) Unit := do
  Acquisition.ensureActive w.start expected
  let _ ← Lane.onActive w.append

/-- The lane with other recordings on its timeline. -/
def withRecordings (l : Lane τ k) (recordings : List (Recording τ k)) : Lane τ k :=
  { l with timeline := { l.timeline with recordings } }

@[simp] theorem detached_withRecordings (l : Lane τ k) (recordings : List (Recording τ k)) :
    (l.withRecordings recordings).detached = l.detached := rfl

@[simp] theorem recordings_withRecordings (l : Lane τ k) (recordings : List (Recording τ k)) :
    (l.withRecordings recordings).timeline.recordings = recordings := rfl

/-- A recording that is added becomes the newest. -/
theorem push_eq (r : Recording τ k) (l : Lane τ k) :
    push r l = .ok () (l.withRecordings (l.timeline.recordings ++ [r])) := by
  obtain ⟨⟨recordings, origin⟩, detached⟩ := l
  rfl

/-- In a lane with a live recording that was not taken off, it is the one under way. -/
theorem active_of_open {l : Lane τ k} (hattached : l.detached = none)
    {older : List (Recording τ k)} {r : Recording τ k}
    (hrecordings : l.timeline.recordings = older ++ [r]) (holder : ∀ x ∈ older, x.live = false)
    (hlive : r.live = true) : l.active = some r := by
  have hnone : older.find? (·.live) = none := List.find?_eq_none.2 fun x hx => by simp [holder x hx]
  simp [active, hattached, hrecordings, List.find?_append, hnone, hlive]

/-- No recording is under way if none is detached and none is live. -/
theorem active_eq_none_iff {l : Lane τ k} :
    l.active = none ↔ l.detached = none ∧ ∀ x ∈ l.timeline.recordings, x.live = false := by
  unfold active
  cases l.detached with
  | some r => simp
  | none => simp [List.find?_eq_none]

/-- A recording is started if there is none under way, and then it comes last. -/
theorem ensureActive_eq_ok {start : Except Violation (Recording τ k)} {expected : Nat}
    {l l' : Lane τ k} :
    Acquisition.ensureActive start expected l = .ok () l' ↔
      (l.active.isSome ∧ l' = l) ∨
      (l.active = none ∧ ∃ r, start = .ok r ∧ Recording.reserve expected r = .ok () r ∧
        l' = l.withRecordings (l.timeline.recordings ++ [{ r with live := true }])) := by
  rw [Acquisition.ensureActive, get_bind_eq]
  -- A recording that is there is used; else one is started, given room and put on the timeline.
  cases hactive : l.active with
  | some r =>
    constructor
    · intro h
      cases h
      exact .inl ⟨rfl, rfl⟩
    · rintro (⟨-, rfl⟩ | ⟨h, -⟩)
      · rfl
      · exact nomatch h
  | none =>
    rw [Option.isNone_none, if_pos rfl, bind_eq_ok]
    constructor
    · rintro ⟨r, _, hstart, h⟩
      obtain ⟨rfl, rfl⟩ := lift_eq_ok.1 hstart
      obtain ⟨r', _, hreserve, hpush⟩ := bind_eq_ok.1 h
      obtain ⟨hafter, rfl⟩ := lift_eq_ok.1 hreserve
      have hroomy := after_eq_ok.1 hafter
      obtain ⟨-, rfl⟩ := Recording.reserve_eq_ok.1 hroomy
      rw [push_eq] at hpush
      cases hpush
      exact .inr ⟨rfl, r', rfl, hroomy, rfl⟩
    · rintro (⟨h, -⟩ | ⟨-, r, rfl, hreserve, rfl⟩)
      · exact nomatch h
      · exact ⟨r, l, rfl, bind_eq_ok.2
          ⟨r, l, lift_eq_ok.2 ⟨after_eq_ok.2 hreserve, rfl⟩, push_eq _ l⟩⟩

/-- A recording that cannot be started leaves the lane as it was. -/
theorem atomic_ensureActive (start : Except Violation (Recording τ k)) (expected : Nat) :
    Atomic (Acquisition.ensureActive start expected) := by
  have hpush (r : Recording τ k) : Atomic (push r) := by
    intro l v l' h
    rw [push_eq] at h
    cases h
  apply Atomic.get_bind
  intro l
  split
  · exact .bind (.lift _) (.lift _) fun _ => .bind (.lift _) (.lift _) fun _ => hpush _
  · intro l v l' h
    cases h

/-- An operation on the recording under way is atomic if it is so on a recording. -/
theorem atomic_onActive {act : Operation (Recording τ k) Unit} (hact : Atomic act) :
    Atomic (onActive act) := by
  rintro ⟨⟨recordings, origin⟩, detached⟩ v l' h
  -- The recording written to is the detached one, or the live one on the timeline.
  cases detached with
  | some r =>
    simp only [onActive] at h
    split at h
    · exact nomatch h
    · rename_i hfail
      cases h
      rw [hact _ _ _ hfail]
  | none =>
    simp only [onActive, onRecordings] at h
    split at h
    · exact nomatch h
    · rename_i hfail
      cases h
      rw [atomic_onFirst hact _ _ _ hfail]

/-- What is done to the recording under way is done to the last one, if that is the only live one. -/
theorem onActive_of_last {act : Operation (Recording τ k) Unit} {l l' : Lane τ k}
    (hattached : l.detached = none) {older : List (Recording τ k)} {r : Recording τ k}
    (hrecordings : l.timeline.recordings = older ++ [r]) (holder : ∀ x ∈ older, x.live = false)
    (hlive : r.live = true) :
    (∃ a, onActive act l = .ok a l') ↔
      ∃ r', act r = .ok () r' ∧ l' = l.withRecordings (older ++ [r']) := by
  obtain ⟨⟨recordings, origin⟩, detached⟩ := l
  subst hattached hrecordings
  simp only [onActive, onRecordings, onFirst_of_last holder hlive]
  -- The last recording is the live one, so it is the one that is edited.
  cases act r with
  | ok a r' =>
    constructor
    · rintro ⟨_, h⟩
      cases h
      exact ⟨r', rfl, rfl⟩
    · rintro ⟨_, h, rfl⟩
      cases h
      exact ⟨_, rfl⟩
  | error v r' =>
    constructor
    · rintro ⟨_, h⟩
      exact nomatch h
    · rintro ⟨_, h, -⟩
      exact nomatch h

/-! ## Writing to a lane -/

variable {w : Writer τ k} {expected : Nat} {l l' : Lane τ k}

/-- Writing is seeing to it that a recording is under way, and appending to it. -/
theorem write_eq_ok : write w expected l = .ok () l' ↔
    ∃ l₁, Acquisition.ensureActive w.start expected l = .ok () l₁ ∧
      ∃ a, onActive w.append l₁ = .ok a l' := by
  rw [write, bind_eq_ok]
  constructor
  · rintro ⟨_, l₁, hensure, h⟩
    obtain ⟨a, l₂, hact, h⟩ := bind_eq_ok.1 h
    cases h
    exact ⟨l₁, hensure, a, hact⟩
  · rintro ⟨l₁, hensure, a, hact⟩
    exact ⟨(), l₁, hensure, bind_eq_ok.2 ⟨a, l', hact, rfl⟩⟩

/-- A recording under way that comes last is written to. -/
theorem write_of_open (hattached : l.detached = none) {older : List (Recording τ k)}
    {r : Recording τ k} (hrecordings : l.timeline.recordings = older ++ [r])
    (holder : ∀ x ∈ older, x.live = false) (hlive : r.live = true) :
    write w expected l = .ok () l' ↔
      ∃ r', w.append r = .ok () r' ∧ l' = l.withRecordings (older ++ [r']) := by
  have hactive := active_of_open hattached hrecordings holder hlive
  rw [write_eq_ok, ← onActive_of_last hattached hrecordings holder hlive]
  constructor
  · rintro ⟨l₁, hensure, hact⟩
    rcases ensureActive_eq_ok.1 hensure with ⟨-, rfl⟩ | ⟨hnone, -⟩
    · exact hact
    · exact nomatch hactive.symm.trans hnone
  · exact fun hact => ⟨l, ensureActive_eq_ok.2 (.inl ⟨by rw [hactive]; rfl, rfl⟩), hact⟩

/-- If there is none under way, one is started, and that is written to. -/
theorem write_of_idle (hidle : l.active = none) :
    write w expected l = .ok () l' ↔
      ∃ r r', w.start = .ok r ∧ Recording.reserve expected r = .ok () r ∧
        w.append { r with live := true } = .ok () r' ∧
        l' = l.withRecordings (l.timeline.recordings ++ [r']) := by
  obtain ⟨hattached, hnone⟩ := active_eq_none_iff.1 hidle
  -- The new recording is the only live one, so the append is made to it.
  have honly (r : Recording τ k) :
      (∃ a, onActive w.append
        (l.withRecordings (l.timeline.recordings ++ [{ r with live := true }])) = .ok a l') ↔
      ∃ r', w.append { r with live := true } = .ok () r' ∧
        l' = l.withRecordings (l.timeline.recordings ++ [r']) :=
    onActive_of_last
      (l := l.withRecordings (l.timeline.recordings ++ [{ r with live := true }]))
      hattached rfl hnone rfl
  rw [write_eq_ok]
  constructor
  · rintro ⟨l₁, hensure, hact⟩
    rcases ensureActive_eq_ok.1 hensure with ⟨hsome, -⟩ | ⟨-, r, hstart, hreserve, rfl⟩
    · rw [hidle] at hsome
      exact nomatch hsome
    · obtain ⟨r', happend, rfl⟩ := (honly r).1 hact
      exact ⟨r, r', hstart, hreserve, happend, rfl⟩
  · rintro ⟨r, r', hstart, hreserve, happend, rfl⟩
    exact ⟨_, ensureActive_eq_ok.2 (.inr ⟨hidle, r, hstart, hreserve, rfl⟩),
      (honly r).2 ⟨r', happend, rfl⟩⟩

/-- What cannot be written leaves the lane as it was, if it can be written to a recording that is
started for it. -/
theorem write_eq_error {v : Violation} (hatomic : Atomic w.append)
    (hfresh : ∀ r, w.start = .ok r → ∃ r', w.append { r with live := true } = .ok () r')
    (h : write w expected l = .error v l') : l' = l := by
  rcases bind_eq_error.1 h with hensure | ⟨⟨⟩, l₁, hensure, hrest⟩
  · exact atomic_ensureActive _ _ _ _ _ hensure
  · have hact : onActive w.append l₁ = .error v l' := by
      rcases bind_eq_error.1 hrest with hact | ⟨_, _, -, hpure⟩
      · exact hact
      · exact nomatch hpure
    rcases ensureActive_eq_ok.1 hensure with ⟨-, rfl⟩ | ⟨hidle, r, hstart, hreserve, -⟩
    · exact atomic_onActive hatomic _ _ _ hact
    · -- The recording was started for this, so the whole went well.
      obtain ⟨r', happend⟩ := hfresh r hstart
      have hok := (write_of_idle hidle).2 ⟨r, r', hstart, hreserve, happend, rfl⟩
      exact nomatch hok.symm.trans h

/-- The samples that are written to a lane are held by its timeline, unless its recording under way is
detached. -/
theorem held_write {s : Settings} {start : τ} {new : List UInt64} {size : Nat}
    (hw : w.Writes s start new size) (h : write w expected l = .ok () l') :
    l'.detached.isSome = l.detached.isSome ∧
      l'.timeline.held = l.timeline.held + if l.detached = none then new.length else 0 := by
  have hgrow (r r' : Recording τ k) (hr : w.append r = .ok () r') :
      r'.count = r.count + new.length := by
    rw [r'.count_eq_length, (hw.capture_append r r' hr).1, r.count_eq_length, List.length_append]
  obtain ⟨l₁, hensure, answer, hact⟩ := write_eq_ok.1 h
  obtain ⟨⟨recordings, origin⟩, detached⟩ := l
  cases detached with
  -- What is written to a detached recording is not on the timeline.
  | some r =>
    rcases ensureActive_eq_ok.1 hensure with ⟨-, rfl⟩ | ⟨hidle, -⟩
    · simp only [onActive] at hact
      split at hact
      · cases hact
        simp
      · cases hact
    · cases hidle
  | none =>
    -- The recording that is written to stands on the timeline, and a new one adds nothing yet.
    have hl₁ : ∃ recordings₁, l₁ = ⟨⟨recordings₁, origin⟩, none⟩ ∧
        (∃ r ∈ recordings₁, r.live = true) ∧
        Timeline.held ⟨recordings₁, origin⟩ = Timeline.held ⟨recordings, origin⟩ := by
      rcases ensureActive_eq_ok.1 hensure with ⟨hsome, rfl⟩ | ⟨-, r, hstart, -, rfl⟩
      · obtain ⟨r, hr⟩ := Option.isSome_iff_exists.1 hsome
        exact ⟨recordings, rfl, ⟨r, List.mem_of_find?_eq_some hr, List.find?_some hr⟩, rfl⟩
      · have hempty : r.count = 0 := by
          rw [r.count_eq_length, hw.capture_start r hstart]
          rfl
        refine ⟨_, rfl, ⟨{ r with live := true }, by simp, rfl⟩, ?_⟩
        rw [Timeline.held_append]
        exact congrArg (Timeline.held ⟨recordings, origin⟩ + ·) hempty
    obtain ⟨recordings₁, rfl, hlive, hheld⟩ := hl₁
    simp only [onActive, onRecordings] at hact
    split at hact
    · rename_i hok
      cases hact
      rw [Timeline.held_onFirst hgrow hlive hok, hheld]
      simp
    · cases hact

/-- A recording that ends keeps its samples. -/
theorem held_close (l : Lane τ k) : l.close.timeline.held = l.timeline.held := by
  obtain ⟨⟨recordings, origin⟩, detached⟩ := l
  simp only [close, Timeline.held]
  induction recordings with
  | nil => rfl
  | cons r recordings ih =>
    rw [List.map_cons, List.foldr_cons, List.foldr_cons, ih]
    split <;> rfl

end Lane

/-! ## Taking a block -/

namespace Acquisition

variable {a : Acquisition τ} {b : Block}

/-- The lane of a kind. -/
def lane (a : Acquisition τ) : (k : Signal) → Lane τ k
  | .logic => a.logic
  | .analog => a.analog

/-- The acquisition with another lane of a kind. -/
def withLane (a : Acquisition τ) : {k : Signal} → Lane τ k → Acquisition τ
  | .logic, l => { a with logic := l }
  | .analog, l => { a with analog := l }

/-- A lane that was replaced is there. -/
theorem lane_withLane (a : Acquisition τ) (l : Lane τ k) : (a.withLane l).lane k = l := by
  cases k <;> rfl

/-- Replacing a lane leaves the other one alone. -/
theorem lane_withLane_of_ne {j : Signal} (h : j ≠ k) (a : Acquisition τ) (l : Lane τ k) :
    (a.withLane l).lane j = a.lane j := by
  cases k <;> cases j <;> first | rfl | exact absurd rfl h

/-- An operation on the logic lane replaces that lane, on either outcome. -/
theorem onLogic_eq {α : Type} (act : Operation (Lane τ .logic) α) (a : Acquisition τ) :
    onLogic act a =
      match act (a.lane .logic) with
      | .ok x l => .ok x (a.withLane l)
      | .error v l => .error (.violated v) (a.withLane l) := by
  obtain ⟨settings, pending, logic, analog, frameStart⟩ := a
  simp only [onLogic, lane]
  cases act logic <;> rfl

/-- An operation on the analog lane replaces that lane, on either outcome. -/
theorem onAnalog_eq {α : Type} (act : Operation (Lane τ .analog) α) (a : Acquisition τ) :
    onAnalog act a =
      match act (a.lane .analog) with
      | .ok x l => .ok x (a.withLane l)
      | .error v l => .error (.violated v) (a.withLane l) := by
  obtain ⟨settings, pending, logic, analog, frameStart⟩ := a
  simp only [onAnalog, lane]
  cases act analog <;> rfl

/-- Logic samples of the width that is expected go to the logic lane. -/
theorem writeLogic_eq (payload : ByteArray) (a : Acquisition τ) :
    writeLogic a.settings.sampleWidth payload a =
      onLogic (Lane.write ⟨Recording.startLogic a.settings.rate a.settings.sampleWidth a.frameStart,
        Recording.appendLogic payload a.settings.sampleWidth⟩ a.settings.expected) a := by
  rw [writeLogic, Operation.get_bind_eq, Operation.get_bind_eq]
  exact congrFun (if_pos rfl) a

/-- Logic samples of another width are refused. -/
theorem writeLogic_of_ne {width : Nat} (h : width ≠ a.settings.sampleWidth)
    (payload : ByteArray) :
    writeLogic width payload a =
      .error (.rejected (.widthMismatch a.settings.sampleWidth width)) a := by
  rw [writeLogic, Operation.get_bind_eq, Operation.get_bind_eq]
  exact congrFun (if_neg h) a

variable [Clock τ]

/-- A block that is refused changes nothing. -/
theorem push_of_refusal {r : Rejection} (h : b.refusal a.settings = some r) :
    push b a = .error (.rejected r) a := by
  unfold Block.refusal at h
  -- The block is malformed, or its width is not that of the settings.
  cases hvalid : b.validate with
  | error r' =>
    simp only [hvalid] at h
    cases h
    rw [push, hvalid]
    rfl
  | ok u =>
    cases b with
    | logic width payload =>
      simp only [hvalid] at h
      split at h
      · exact nomatch h
      · cases h
        rw [push, hvalid]
        simp only [Step.refusing, bind, EStateM.bind, pure, EStateM.pure, writeLogic_of_ne ‹_›]
    | analog xs => simp [hvalid] at h
    | frameEnd => simp [hvalid] at h

/-- A block that is not refused is written to the lane of its kind. -/
theorem push_of_writer {w : Writer τ k} (hw : b.writer a.settings a.frameStart k = some w)
    (h : b.refusal a.settings = none) :
    push b a =
      match Lane.write w a.settings.expected (a.lane k) with
      | .ok _ l => .ok b.count (a.withLane l)
      | .error v l => .error (.violated v) (a.withLane l) := by
  -- The kind of the lane and that of the block agree, or there is no writer.
  cases k with
  | logic =>
    cases b with
    | logic width payload =>
      cases hw
      obtain ⟨rfl, -, hvalid⟩ := Block.refusal_logic_eq_none h
      rw [push, hvalid]
      simp only [Step.refusing, bind, EStateM.bind, pure, EStateM.pure, writeLogic_eq, onLogic_eq]
      cases Lane.write _ _ (a.lane .logic) <;> rfl
    | analog xs => cases hw
    | frameEnd => cases hw
  | analog =>
    cases b with
    | logic width payload => cases hw
    | analog xs =>
      cases hw
      have hwrite : writeAnalog xs a =
          onAnalog (Lane.write ⟨Recording.startAnalog a.settings.rate a.frameStart,
            Recording.appendAnalog xs⟩ a.settings.expected) a := rfl
      simp only [push, Block.validate, Step.refusing, bind, EStateM.bind, pure, EStateM.pure, hwrite,
        onAnalog_eq]
      cases Lane.write _ _ (a.lane .analog) <;> rfl
    | frameEnd => cases hw

/-- The end of a frame completes the recordings under way. -/
theorem push_frameEnd (a : Acquisition τ) :
    push .frameEnd a = .ok 0 ⟨a.settings, a.pending, a.logic.close, a.analog.close,
      a.frameStart + Clock.later (Clock.later Clock.zero (activeDuration a.logic))
        (activeDuration a.analog)⟩ :=
  rfl

/-- A block is refused, or ends the frame, or is written to the lane of its kind. -/
theorem push_cases (b : Block) (a : Acquisition τ) :
    (∃ r, b.refusal a.settings = some r ∧ push b a = .error (.rejected r) a) ∨
    b = .frameEnd ∨
    ∃ (k : Signal) (w : Writer τ k) (new : List UInt64), b.refusal a.settings = none ∧
      b.kind = some k ∧ b.samples k = some new ∧ b.count = new.length ∧
      w.Writes a.settings a.frameStart new b.size ∧
      push b a =
        match Lane.write w a.settings.expected (a.lane k) with
        | .ok _ l => .ok b.count (a.withLane l)
        | .error v l => .error (.violated v) (a.withLane l) := by
  cases hrefusal : b.refusal a.settings with
  | some r => exact .inl ⟨r, rfl, push_of_refusal hrefusal⟩
  | none =>
    refine .inr ?_
    rcases Block.frameEnd_or_writes b hrefusal a.frameStart with
      rfl | ⟨k, w, new, hkind, hwriter, hnew, hcount, hw⟩
    · exact .inl rfl
    · exact .inr ⟨k, w, new, rfl, hkind, hnew, hcount, hw, push_of_writer hwriter hrefusal⟩

/-- The answer to a block that is taken is the number of samples in it. -/
theorem count_of_push {n : Nat} {a' : Acquisition τ} (h : push b a = .ok n a') : n = b.count := by
  rcases push_cases b a with ⟨r, -, hpush⟩ | rfl | ⟨k, w, new, -, -, -, -, -, hpush⟩
  · exact nomatch h.symm.trans hpush
  · rw [push_frameEnd] at h
    cases h
    rfl
  · rw [hpush] at h
    split at h
    · cases h
      rfl
    · exact nomatch h

/-- What an acquisition has taken of a kind is held by the timeline of that kind, unless the recording
under way there is detached. -/
theorem held_push {n : Nat} {a' : Acquisition τ} (h : push b a = .ok n a') (k : Signal) :
    (a'.lane k).timeline.held = (a.lane k).timeline.held +
      if b.kind = some k ∧ (a.lane k).detached = none then n else 0 := by
  rcases push_cases b a with ⟨r, -, hpush⟩ | rfl | ⟨j, w, new, -, hkind, -, hcount, hw, hpush⟩
  · -- The block is refused, ends the frame, or is written to the lane of its kind.
    exact nomatch h.symm.trans hpush
  · rw [push_frameEnd] at h
    cases h
    have hnone : ¬ Block.frameEnd.kind = some k := nofun
    cases k <;> simp [lane, Lane.held_close, hnone]
  · rw [hpush] at h
    split at h
    · rename_i hwrite
      cases h
      by_cases hjk : k = j
      · subst hjk
        simp [lane_withLane, (Lane.held_write hw hwrite).2, hkind, hcount]
      · -- A block of the other kind leaves this lane alone.
        have hother : ¬ b.kind = some k := by
          rw [hkind]
          exact fun heq => hjk (Option.some.inj heq).symm
        simp [lane_withLane_of_ne hjk, hother]
    · exact nomatch h

end Acquisition

end Waveform
