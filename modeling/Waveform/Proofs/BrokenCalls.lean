import Waveform.Proofs.CaptionQueries
import Waveform.Proofs.FiniteQueries
import Waveform.Proofs.GuardedEdits

/-!
# Calls that break their contract

A call that breaks its contract leaves the object as it was, so that all later calls go as if it had not
been made.  This is proved of recordings of both kinds, of packed samples and of rows of captions, with a
logic recording together with the cursors that are on their way through it.  Recordings and samples are
edited with every access checked (`Edit.guarded`), so that an edit could break off half way; that it does
not, in any state that calls can lead to, is part of the statement.

Recordings are shared, each behind a lock that a broken call leaves poisoned.  Whoever takes it next goes
on with what is behind it, and rightly so: since that is as it was before the call, a poisoned lock is as
good as any other.

`Store` lists the four kinds of object.  A call is either a change or a reading, and a reading is any
function of the object (`Access`): it has no way to change anything.

## Key results

- `Calls.Safe.outcomes_unbroken`: calls that break their contract can be struck out of a run
- `Watched.Steady.step`: cursors stay on their way or ended
- `Store.safe`: what the calls on each kind of object keep
- `Store.broken_calls_vanish`: calls that break their contract might as well not have been made
-/

namespace Waveform

open Operation

/-- How an operation ends. -/
def Operation.outcome {σ α : Type} (act : Operation σ α) (s : σ) : Except Violation α :=
  match act s with
  | .ok a _ => .ok a
  | .error v _ => .error v

/-- Operations that end alike answer alike. -/
theorem Operation.Alike.outcome {σ τ α : Type} {R : σ → τ → Prop} {act : Operation σ α}
    {act' : Operation τ α} {s : σ} {t : τ} (h : Alike R (act s) (act' t)) :
    act.outcome s = act'.outcome t := by
  unfold Operation.outcome
  generalize act s = x at h
  generalize act' t = y at h
  cases h with
  | ok a _ => rfl
  | error v _ => rfl

/-- Reads from an object and leaves it as it is. -/
def Operation.reading {σ α : Type} (query : σ → Except Violation α) : Operation σ α := do
  query (← get)

/-- A reading leaves the object alone. -/
theorem Operation.leaves_reading {σ α : Type} (query : σ → Except Violation α) (s : σ) :
    (reading query).leaves s = s := by
  unfold reading leaves
  rw [get_bind_eq]
  cases query s <;> rfl

/-- A reading that breaks a contract changes nothing, as it never does. -/
theorem Operation.atomic_reading {σ α : Type} (query : σ → Except Violation α) :
    Atomic (reading query) :=
  .get_bind fun _ => .lift _

/-! ## Runs of calls -/

namespace Calls

variable {σ : Type} {Call : Type 1} {Answer : Call → Type}

/-- The object after calls. -/
def run (perform : (c : Call) → Operation σ (Answer c)) (s : σ) (calls : List Call) : σ :=
  calls.foldl (fun s c => (perform c).leaves s) s

/-- How calls end that are made one after the other. -/
def outcomes (perform : (c : Call) → Operation σ (Answer c)) :
    σ → List Call → List ((c : Call) × Except Violation (Answer c))
  | _, [] => []
  | s, c :: rest => ⟨c, (perform c).outcome s⟩ :: outcomes perform ((perform c).leaves s) rest

/-- The calls that keep their contract, of calls that are made one after the other. -/
def unbroken (perform : (c : Call) → Operation σ (Answer c)) : σ → List Call → List Call
  | _, [] => []
  | s, c :: rest =>
    let later := unbroken perform ((perform c).leaves s) rest
    if ((perform c).outcome s).isOk then c :: later else later

/-- Every call keeps the invariant, and one that breaks its contract changes nothing. -/
structure Safe (perform : (c : Call) → Operation σ (Answer c)) (Inv : σ → Prop) : Prop where
  keeps : ∀ s, Inv s → ∀ c, Inv ((perform c).leaves s)
  unchanged : ∀ s, Inv s → ∀ c v s', perform c s = .error v s' → s' = s

variable {perform perform' : (c : Call) → Operation σ (Answer c)} {Inv : σ → Prop} {s : σ}

/-- Calls that are carried out in the same way are as safe. -/
theorem Safe.congr (h : Safe perform Inv) (heq : ∀ s, Inv s → ∀ c, perform' c s = perform c s) :
    Safe perform' Inv where
  keeps s hs c := by
    have hkeeps := h.keeps s hs c
    unfold leaves at hkeeps ⊢
    rw [heq s hs c]
    exact hkeeps
  unchanged s hs c v s' hfail := h.unchanged s hs c v s' ((heq s hs c).symm.trans hfail)

/-- What each call keeps, a run of calls keeps. -/
theorem Safe.run (h : Safe perform Inv) (hs : Inv s) (calls : List Call) :
    Inv (run perform s calls) := by
  induction calls generalizing s with
  | nil => exact hs
  | cons c rest ih => exact ih (h.keeps s hs c)

/-- A call that does not keep its contract changes nothing. -/
theorem Safe.leaves_eq (h : Safe perform Inv) (hs : Inv s) {c : Call}
    (hbroken : ((perform c).outcome s).isOk = false) : (perform c).leaves s = s := by
  unfold outcome at hbroken
  unfold leaves
  cases hact : perform c s with
  | ok a s' =>
    rw [hact] at hbroken
    cases hbroken
  | error v s' => exact h.unchanged s hs c v s' hact

/-- Calls that break their contract can be struck out: the others lead to the same object. -/
theorem Safe.run_unbroken (h : Safe perform Inv) (hs : Inv s) (calls : List Call) :
    Calls.run perform s (unbroken perform s calls) = Calls.run perform s calls := by
  induction calls generalizing s with
  | nil => rfl
  | cons c rest ih =>
    have hrest := ih (h.keeps s hs c)
    simp only [unbroken]
    split
    · exact hrest
    · -- What follows a call that is struck out starts from the same object as before.
      rename_i hbroken
      have hsame := h.leaves_eq hs (Bool.not_eq_true _ ▸ hbroken)
      rw [hsame] at hrest ⊢
      exact hrest.trans (congrArg (Calls.run perform · rest) hsame.symm)

/-- And they end in the same way. -/
theorem Safe.outcomes_unbroken (h : Safe perform Inv) (hs : Inv s) (calls : List Call) :
    outcomes perform s (unbroken perform s calls) =
      (outcomes perform s calls).filter fun o => o.2.isOk := by
  induction calls generalizing s with
  | nil => rfl
  | cons c rest ih =>
    have hrest := ih (h.keeps s hs c)
    simp only [unbroken, outcomes, List.filter_cons]
    split
    · rw [outcomes, hrest]
    · rename_i hbroken
      rw [← hrest, h.leaves_eq hs (Bool.not_eq_true _ ▸ hbroken)]

/-! ### Behind a lock -/

/-- Behind a lock a call has the outcome that it has on the object, poisoned or not. -/
theorem outcome_hold {α : Type} (act : Operation σ α) (l : Locked σ) :
    (Locked.hold act).outcome l = act.outcome l.object := by
  unfold outcome Locked.hold
  rw [Locked.state_eq]
  cases act l.object <;> rfl

/-- Behind a lock a call leaves the object that it leaves without. -/
theorem object_hold {α : Type} (act : Operation σ α) (l : Locked σ) :
    ((Locked.hold act).leaves l).object = act.leaves l.object := by
  unfold leaves Locked.hold
  rw [Locked.state_eq]
  cases act l.object <;> rfl

/-- Behind a lock calls lead where they lead without it, whether or not one of them has poisoned it. -/
theorem object_run_hold (l : Locked σ) (calls : List Call) :
    (Calls.run (fun c => Locked.hold (perform c)) l calls).object =
      Calls.run perform l.object calls := by
  induction calls generalizing l with
  | nil => rfl
  | cons c rest ih => exact (ih _).trans (congrArg (Calls.run perform · rest) (object_hold _ l))

/-- And they end as they do without it. -/
theorem outcomes_hold (l : Locked σ) (calls : List Call) :
    outcomes (fun c => Locked.hold (perform c)) l calls = outcomes perform l.object calls := by
  induction calls generalizing l with
  | nil => rfl
  | cons c rest ih => rw [outcomes, outcomes, ih, outcome_hold, object_hold]

end Calls

/-! ## Changes and readings -/

/-- A call on an object: a change, or a reading of any kind. -/
inductive Access (σ Change : Type) : Type 1 where
  | change (c : Change)
  | read {α : Type} (query : σ → Except Violation α)

namespace Access

variable {σ Change : Type} {Result : Change → Type} {act : (c : Change) → Operation σ (Result c)}

/-- What a call answers with. -/
@[reducible] def Answer (Result : Change → Type) : Access σ Change → Type
  | .change c => Result c
  | @read _ _ α _ => α

/-- Carries out a call. -/
def perform (act : (c : Change) → Operation σ (Result c)) :
    (c : Access σ Change) → Operation σ (c.Answer Result)
  | .change c => act c
  | .read query => reading query

/-- Changes that are atomic and keep an invariant are safe, together with all readings. -/
theorem safe {Inv : σ → Prop} (hkeeps : ∀ s, Inv s → ∀ c, Inv ((act c).leaves s))
    (hatomic : ∀ s, Inv s → ∀ c v s', act c s = .error v s' → s' = s) :
    Calls.Safe (perform act) Inv where
  keeps s hs c := by
    cases c with
    | change c => exact hkeeps s hs c
    | read query =>
      rw [perform, leaves_reading]
      exact hs
  unchanged s hs c v s' h := by
    cases c with
    | change c => exact hatomic s hs c v s' h
    | read query => exact atomic_reading query s v s' h

end Access

/-! ## Recordings with cursors -/

/-- What a call on a recording that is being watched answers with. -/
@[reducible] def Call.Answer {τ : Type} : Call τ → Type
  | .edit _ => Unit
  | @read _ α _ => α
  | .openEdges _ _ _ _ => Unit
  | .next _ => Option Edge

namespace Watched

variable {τ : Type} {w : Watched τ}

/-- Runs an operation on the recording alone. -/
def onRecording {α : Type} (act : Operation (Recording τ .logic) α) : Operation (Watched τ) α
  | ⟨recording, cursors⟩ =>
    match act recording with
    | .ok a recording' => .ok a ⟨recording', cursors⟩
    | .error v recording' => .error v ⟨recording', cursors⟩

/-- Carries out a call, given how edits are carried out. -/
def perform (edit : Edit .logic → Operation (Recording τ .logic) Unit) :
    (c : Call τ) → Operation (Watched τ) c.Answer
  | .edit e => onRecording (edit e)
  | .read query => reading fun w => query w.recording
  | .openEdges first last spacing channel => do
    let w ← get
    let c ← w.recording.trace.openEdges first last spacing channel
    set { w with cursors := w.cursors ++ [c] }
  | .next i => do
    let w ← get
    let (e, c) ← w.next i
    set { w with cursors := w.cursors.set i c }
    return e

/-- The pyramid sums up the samples, and each cursor has edges to hand out or was ended. -/
structure Steady (w : Watched τ) : Prop where
  summed : w.recording.trace.Summed
  cursor : ∀ i, i < w.cursors.length → (∃ edges, w.Awaits i edges) ∨ w.Ended i

/-- A cursor can always be asked for its next edge. -/
theorem Steady.next_ok (h : w.Steady) {i : Nat} (hi : i < w.cursors.length) :
    ∃ e c, w.next i = .ok (e, c) := by
  have hanswer : ∃ e, (w.next i).map Prod.fst = .ok e := by
    -- The cursor awaits edges or was ended by a removal; it answers in both cases.
    rcases h.cursor i hi with ⟨edges, hawaits⟩ | hended
    · have hremoves : ¬ w.Removes (.next i) := by
        rintro ⟨_, _, _, heq, -⟩
        cases heq
      have hasks : (Call.next i : Call τ).asks i = true := decide_eq_true rfl
      have hstep := hawaits.step hremoves
      rw [if_pos hasks] at hstep
      exact ⟨_, hstep.1⟩
    · exact ⟨none, (hended.step (.next i)).1⟩
  obtain ⟨e, hanswer⟩ := hanswer
  cases hnext : w.next i with
  | ok x => exact ⟨x.1, x.2, rfl⟩
  | error v =>
    rw [hnext] at hanswer
    cases hanswer

/-- A call leaves the recording and the cursors as `step` says. -/
theorem leaves_perform (c : Call τ) (w : Watched τ) : (perform Edit.run c).leaves w = w.step c := by
  cases c with
  | edit e =>
    simp only [perform, onRecording, leaves, step]
    cases e.run w.recording <;> rfl
  | read query => exact leaves_reading _ w
  | openEdges first last spacing channel =>
    simp only [perform, leaves, step, get_bind_eq]
    cases w.recording.trace.openEdges first last spacing channel <;> rfl
  | next i =>
    simp only [perform, leaves, step, get_bind_eq]
    cases w.next i <;> rfl

/-- A call that breaks its contract changes nothing. -/
theorem perform_unchanged {c : Call τ} {v : Violation} {w' : Watched τ}
    (h : perform Edit.run c w = .error v w') : w' = w := by
  -- What a call changes, it changes in its last step.
  cases c with
  | edit e =>
    obtain ⟨recording, cursors⟩ := w
    simp only [perform, onRecording] at h
    split at h
    · cases h
    · rename_i hfail
      cases h
      rw [e.atomic _ _ _ hfail]
  | read query => exact atomic_reading _ _ _ _ h
  | openEdges first last spacing channel =>
    refine Atomic.get_bind (fun w => .bind (.lift _) (.lift _) fun c => ?_) _ _ _ h
    intro _ _ _ hset
    cases hset
  | next i =>
    refine Atomic.get_bind (fun w => .bind (.lift _) (.lift _) fun x => ?_) _ _ _ h
    intro _ _ _ hset
    cases hset

/-- Each call leaves a pyramid that sums up the samples. -/
theorem summed_step (h : w.recording.trace.Summed) (c : Call τ) :
    (w.step c).recording.trace.Summed := by
  -- Only an edit touches the recording.
  cases c with
  | edit e =>
    rcases e.atomic.leaves_cases w.recording with hsame | hdone
    · simp only [step, hsame]
      exact h
    · exact (Edit.step hdone).1 h
  | read query => exact h
  | openEdges first last spacing channel =>
    simp only [step]
    split <;> exact h
  | next i =>
    simp only [step]
    split <;> exact h

/-- A call that is no query opens no cursor. -/
theorem length_step (w : Watched τ) (c : Call τ) :
    (w.step c).cursors.length = w.cursors.length ∨
    ∃ first last spacing channel cursor, c = .openEdges first last spacing channel ∧
      w.recording.trace.openEdges first last spacing channel = .ok cursor ∧
      w.step c = { w with cursors := w.cursors ++ [cursor] } := by
  -- Only a query that is accepted adds a cursor.
  cases c with
  | edit e => exact .inl rfl
  | read query => exact .inl rfl
  | openEdges first last spacing channel =>
    cases hopen : w.recording.trace.openEdges first last spacing channel with
    | ok cursor =>
      exact .inr ⟨first, last, spacing, channel, cursor, rfl, hopen, by simp only [step, hopen]⟩
    | error v => exact .inl (by simp only [step, hopen])
  | next i =>
    refine .inl ?_
    simp only [step]
    split
    · exact List.length_set
    · rfl

/-- Cursors stay on their way or ended, whatever is called, and a cursor that is opened sets out. -/
theorem Steady.step (h : w.Steady) (c : Call τ) : (w.step c).Steady := by
  have hsummed := summed_step h.summed c
  refine ⟨hsummed, fun i hi => ?_⟩
  -- A cursor was there before, or it is the one that the call has opened.
  rcases Nat.lt_or_ge i w.cursors.length with hold | hnew
  · -- A removal ends the cursor, and any other call takes at most one of its edges.
    rcases h.cursor i hold with ⟨edges, hawaits⟩ | hended
    · by_cases hremoves : w.Removes c
      · exact .inr (hawaits.ended hremoves)
      · have hstep := hawaits.step hremoves
        split at hstep
        · exact .inl ⟨_, hstep.2⟩
        · exact .inl ⟨_, hstep⟩
    · exact .inr (hended.step c).2
  · rcases length_step w c with hsame | ⟨first, last, spacing, channel, cursor, -, hopen, hstep⟩
    · omega
    · rw [hstep] at hi hsummed ⊢
      obtain rfl : i = w.cursors.length := by
        rw [List.length_append, List.length_singleton] at hi
        omega
      exact .inl ⟨_, awaits_of_opened hsummed (Trace.openEdges_eq_ok hopen) w.cursors⟩

/-- Calls on a recording and its cursors are safe as long as each cursor knows where it stands. -/
theorem safe : Calls.Safe (perform Edit.run : (c : Call τ) → _) Steady where
  keeps w h c := by
    rw [leaves_perform]
    exact h.step c
  unchanged _ _ _ _ _ h := perform_unchanged h

/-- With all checks a call comes to the same as without. -/
theorem perform_guarded (h : w.recording.trace.Summed) (c : Call τ) :
    perform Edit.guarded c w = perform Edit.run c w := by
  obtain ⟨recording, cursors⟩ := w
  cases c with
  | edit e => simp only [perform, onRecording, Edit.guarded_eq h]
  | read query => rfl
  | openEdges first last spacing channel => rfl
  | next i => rfl

end Watched

/-! ## The objects -/

/-- A change of packed samples. -/
inductive PackedEdit where
  | append (payload : ByteArray)
  | reserve (expected : Nat)
  | remove (first stop : Nat)

namespace PackedEdit

/-- What a change answers with. -/
@[reducible] def Result : PackedEdit → Type
  | .append _ => Nat
  | .reserve _ | .remove _ _ => Unit

variable {w : Width}

/-- Carries out a change. -/
def run : (e : PackedEdit) → Operation (Packed w) e.Result
  | .append payload => Packed.append payload
  | .reserve expected => Packed.reserve expected
  | .remove first stop => Packed.remove first stop

/-- Carries out a change, with every access checked. -/
def guarded : (e : PackedEdit) → Operation (Packed w) e.Result
  | .append payload => Packed.appendGuarded payload
  | .reserve expected => Packed.reserve expected
  | .remove first stop => Packed.removeGuarded first stop

/-- An edit of packed samples that breaks its contract changes nothing. -/
theorem atomic (e : PackedEdit) : Atomic (e.run : Operation (Packed w) e.Result) := by
  cases e with
  | append payload => exact Packed.atomic_append payload
  | reserve expected => exact Packed.atomic_reserve expected
  | remove first stop => exact Packed.atomic_remove first stop

/-- With all checks an edit of packed samples comes to the same as without. -/
theorem guarded_eq (e : PackedEdit) (p : Packed w) : e.guarded p = e.run p := by
  cases e with
  | append payload => exact Packed.appendGuarded_eq payload p
  | reserve expected => rfl
  | remove first stop => exact Packed.removeGuarded_eq first stop p

end PackedEdit

/-- The objects that are called from outside: a logic recording with its cursors, an analog recording,
packed samples, and a row of captions. -/
inductive Store where
  | logic
  | analog
  | samples (w : Width)
  | captions

namespace Store

variable {τ : Type}

/-- The states of an object. -/
@[reducible] def State (τ : Type) : Store → Type
  | logic => Watched τ
  | analog => Recording τ .analog
  | samples w => Packed w
  | captions => CaptionRow

/-- The calls on an object. -/
@[reducible] def Call (τ : Type) : Store → Type 1
  | logic => Waveform.Call τ
  | analog => Access (Recording τ .analog) (Edit .analog)
  | samples w => Access (Packed w) PackedEdit
  | captions => Access CaptionRow Caption

/-- What a call answers with. -/
@[reducible] def Answer : (o : Store) → o.Call τ → Type
  | logic, c => c.Answer
  | analog, c => c.Answer fun _ => Unit
  | samples _, c => c.Answer PackedEdit.Result
  | captions, c => c.Answer fun _ => Unit

/-- Carries out a call. -/
def perform : (o : Store) → (c : o.Call τ) → Operation (o.State τ) (o.Answer c)
  | logic => Watched.perform Edit.run
  | analog => Access.perform Edit.run
  | samples _ => Access.perform PackedEdit.run
  | captions => Access.perform CaptionRow.push

/-- Carries out a call, with every access of an edit checked. -/
def performGuarded : (o : Store) → (c : o.Call τ) → Operation (o.State τ) (o.Answer c)
  | logic => Watched.perform Edit.guarded
  | analog => Access.perform Edit.guarded
  | samples _ => Access.perform PackedEdit.guarded
  | captions => Access.perform CaptionRow.push

/-- Carries out a call on an object behind a lock. -/
def performLocked (o : Store) (c : o.Call τ) : Operation (Locked (o.State τ)) (o.Answer c) :=
  Locked.hold (o.performGuarded c)

/-- An object that was just created. -/
def Fresh : (o : Store) → o.State τ → Prop
  | logic, w => w.cursors = [] ∧
    ∃ rate width start, Recording.startLogic rate width start = .ok w.recording
  | analog, r => ∃ rate start, Recording.startAnalog rate start = .ok r
  | samples _, p => p = .empty
  | captions, row => row = .empty

/-- What calls on an object keep. -/
def Sound : (o : Store) → o.State τ → Prop
  | logic, w => w.Steady
  | analog, r => r.trace.Summed
  | samples _, _ => True
  | captions, row => row.Kept

/-- The pyramid sums up the samples, each cursor can be asked for its next edge, the samples fill the bytes,
and the captions come in order with none longer than the longest span. -/
def InOrder : (o : Store) → o.State τ → Prop
  | logic, w => w.recording.trace.Summed ∧ ∀ i, i < w.cursors.length → ∃ e c, w.next i = .ok (e, c)
  | analog, r => r.trace.Summed
  | samples w, p => p.count * w.bytes = p.bytes.size
  | captions, row => row.Kept

variable {o : Store} {s : o.State τ}

/-- The objects of a store that is sound are in order. -/
theorem Sound.inOrder (h : o.Sound s) : o.InOrder s := by
  cases o with
  | logic => exact ⟨h.summed, fun _ hi => h.next_ok hi⟩
  | analog => exact h
  | samples w => exact Packed.count_mul s
  | captions => exact h

/-- A store is sound when its objects are new. -/
theorem Fresh.sound (h : o.Fresh s) : o.Sound s := by
  -- No samples, cursors or captions are there that could be wrong.
  cases o with
  | logic =>
    obtain ⟨hcursors, rate, width, start, hstart⟩ := h
    refine ⟨(Recording.Reachable.startLogic hstart).summed, fun i hi => ?_⟩
    rw [hcursors] at hi
    exact absurd hi (Nat.not_lt_zero i)
  | analog =>
    obtain ⟨rate, start, hstart⟩ := h
    exact (Recording.Reachable.startAnalog hstart).summed
  | samples w => trivial
  | captions =>
    obtain rfl : s = CaptionRow.empty := h
    exact CaptionRow.kept_empty

/-- Calls on an object of a store are safe as long as the store is sound. -/
theorem safe (o : Store) : Calls.Safe (o.perform (τ := τ)) o.Sound := by
  cases o with
  | logic => exact Watched.safe
  | analog =>
    refine Access.safe (fun r h e => ?_) fun r _ e v r' hfail => e.atomic r v r' hfail
    rcases e.atomic.leaves_cases r with hsame | hdone
    · rw [hsame]
      exact h
    · exact (Edit.step hdone).1 h
  | samples w => exact Access.safe (fun _ _ _ => trivial) fun p _ e v p' hfail => e.atomic p v p' hfail
  | captions =>
    exact Access.safe (fun row h a => h.push a) fun row _ a v row' hfail =>
      CaptionRow.atomic_push a row v row' hfail

/-- The checks of an edit are passed once it has changed something. -/
theorem performGuarded_eq (h : o.Sound s) (c : o.Call τ) : o.performGuarded c s = o.perform c s := by
  cases o with
  | logic => exact Watched.perform_guarded h.summed c
  | analog =>
    cases c with
    | change e => exact Edit.guarded_eq h e
    | read query => rfl
  | samples w =>
    cases c with
    | change e => exact e.guarded_eq s
    | read query => rfl
  | captions => rfl

/-- Whatever was called on an object since it was created, calls that break their contract might as well
not be made.  The object is in order; an edit of it breaks no contract once something has changed, although
every access is checked; and a call that breaks its contract leaves the whole object as it was, with its
samples, its pyramid, its cursors or its captions.  Later calls go as if it had not been made: of any calls,
those that break their contract can be struck out, and the others lead to the same object and end in the
same way.  Behind a lock all this is so whether the lock was poisoned before or not: a call that is broken
off while it holds the lock poisons it, and calls that take it after that lead to the same object and end
in the same way as those that take a lock that is not poisoned. -/
theorem broken_calls_vanish (o : Store) {s₀ : o.State τ} (hfresh : o.Fresh s₀)
    (before : List (o.Call τ)) :
    let s := Calls.run o.performGuarded s₀ before
    o.InOrder s ∧
    (∀ c, o.performGuarded c s = o.perform c s) ∧
    (∀ c v s', o.performGuarded c s = .error v s' → s' = s) ∧
    (∀ calls,
      Calls.run o.performGuarded s (Calls.unbroken o.performGuarded s calls) =
        Calls.run o.performGuarded s calls ∧
      Calls.outcomes o.performGuarded s (Calls.unbroken o.performGuarded s calls) =
        (Calls.outcomes o.performGuarded s calls).filter fun outcome => outcome.2.isOk) ∧
    ∀ poisoned calls,
      let l : Locked (o.State τ) := ⟨s, poisoned⟩
      (Calls.run o.performLocked l calls).object = Calls.run o.performGuarded s calls ∧
      Calls.outcomes o.performLocked l calls = Calls.outcomes o.performGuarded s calls ∧
      (Calls.run o.performLocked l (Calls.unbroken o.performGuarded s calls)).object =
        (Calls.run o.performLocked l calls).object ∧
      Calls.outcomes o.performLocked l (Calls.unbroken o.performGuarded s calls) =
        (Calls.outcomes o.performLocked l calls).filter fun outcome => outcome.2.isOk := by
  intro s
  -- On a sound state the checks behind the changes all hold, so the calls are the plain ones.
  have hsafe : Calls.Safe (o.performGuarded (τ := τ)) o.Sound :=
    (safe o).congr fun _ hs c => performGuarded_eq hs c
  have hsound : o.Sound s := hsafe.run hfresh.sound before
  -- The lock hands out the object, poisoned or not.
  have hrun (poisoned : Bool) (calls : List (o.Call τ)) :
      (Calls.run o.performLocked ⟨s, poisoned⟩ calls).object = Calls.run o.performGuarded s calls :=
    Calls.object_run_hold _ calls
  have houtcomes (poisoned : Bool) (calls : List (o.Call τ)) :
      Calls.outcomes o.performLocked ⟨s, poisoned⟩ calls = Calls.outcomes o.performGuarded s calls :=
    Calls.outcomes_hold _ calls
  refine ⟨hsound.inOrder, performGuarded_eq hsound, hsafe.unchanged s hsound, fun calls =>
    ⟨hsafe.run_unbroken hsound calls, hsafe.outcomes_unbroken hsound calls⟩, fun poisoned calls => ?_⟩
  refine ⟨hrun poisoned calls, houtcomes poisoned calls, ?_, ?_⟩
  · rw [hrun, hrun, hsafe.run_unbroken hsound]
  · rw [houtcomes, houtcomes, hsafe.outcomes_unbroken hsound]

/-- Five calls on a recording that a cursor is on its way through.  Samples of another width are appended,
more room is asked for than there is, samples behind the last are removed and an edge query names a channel
that does not exist; all of these break their contract, and the samples that are appended between them do
not. -/
theorem broken_calls_vanish_under_cursor :
    ∃ r : Recording Rat .logic, Recording.startLogic 1000 1 0 = .ok r ∧
      let before : List (logic.Call Rat) :=
        [.edit (.appendLogic ⟨Array.replicate 20 0 ++ #[1, 1, 0]⟩ 1), .openEdges 1 21 ⟨0x3f800000⟩ 0]
      let calls : List (logic.Call Rat) :=
        [.edit (.appendLogic ⟨#[1, 0]⟩ 2), .edit (.appendLogic ⟨#[1, 0]⟩ 1),
          .edit (.reserve 0xffffffffffffffff), .edit (.remove 3 99), .openEdges 1 21 ⟨0x3f800000⟩ 64]
      let w : Watched Rat := Calls.run logic.performGuarded ⟨r, []⟩ before
      (Calls.outcomes logic.performGuarded w calls).map (fun outcome => outcome.2.isOk) =
        [false, true, false, false, false] ∧
      (∃ e c, w.next 0 = .ok (e, c)) ∧
      Calls.run logic.performGuarded w (Calls.unbroken logic.performGuarded w calls) =
        Calls.run logic.performGuarded w calls := by
  refine ⟨_, rfl, ?_⟩
  intro before calls w
  -- The cursor is open while the calls are made.
  obtain ⟨hinOrder, -, -, hrun, -⟩ := broken_calls_vanish logic
    (show logic.Fresh (⟨_, []⟩ : Watched Rat) from ⟨rfl, 1000, 1, 0, rfl⟩) before
  exact ⟨by decide +kernel, hinOrder.2 0 (by decide +kernel), (hrun calls).1⟩

end Store

end Waveform
