import Waveform.Proofs.EdgeQueries
import Waveform.Proofs.GrowingScan

/-!
# Cursors on a recording that changes

A recording may be changed and read while cursors are on their way through it, and the calls may
come in any order.  A cursor keeps no samples, so each of its steps searches the trace as it is by
then, with entries in the pyramid that were not there before.

Still a cursor hands out the edges of the trace on which it was opened.  What is pending for it stays
the same when samples are appended (`Extends.pending_eq`), and its own steps take the pending edges
one by one.  A removal, be it of no samples at all, ends it.

## Key results

- `Awaits.step`: what a call other than a removal does to a cursor
- `Awaits.run`, `Ended.run`: the answers of a cursor before and after a removal
- `Watched.answers_stable`: the answers of a cursor, whatever else happens
-/

namespace Waveform

variable {τ : Type}

/-- A logic recording and the cursors that were opened on it. -/
structure Watched (τ : Type) where
  recording : Recording τ .logic
  cursors : List EdgeCursor

/-- A call on a recording that is being watched, or on one of its cursors.  A reading has no way to
change anything. -/
inductive Call (τ : Type) : Type 1 where
  | edit (e : Edit .logic)
  | read {α : Type} (query : Recording τ .logic → Except Violation α)
  | openEdges (first last : Nat) (spacing : Binary32) (channel : Nat)
  | next (i : Nat)

/-- Whether a call is for the next edge of a cursor. -/
def Call.asks (i : Nat) : Call τ → Bool
  | .next j => j = i
  | _ => false

namespace Watched

/-- The next edge of a cursor, and the cursor after it. -/
def next (w : Watched τ) (i : Nat) : Except Violation (Option Edge × EdgeCursor) :=
  match w.cursors[i]? with
  | some c => c.next w.recording.trace
  | none => .error (.noSuchItem w.cursors.length i)

/-- Carries out a call.  One that breaks its contract leaves the cursors as they were. -/
def step (w : Watched τ) : Call τ → Watched τ
  | .edit e => { w with recording := e.run.leaves w.recording }
  | .read _ => w
  | .openEdges first last spacing channel =>
    match w.recording.trace.openEdges first last spacing channel with
    | .ok c => { w with cursors := w.cursors ++ [c] }
    | .error _ => w
  | .next i =>
    match w.next i with
    | .ok (_, c) => { w with cursors := w.cursors.set i c }
    | .error _ => w

/-- Carries out calls in turn. -/
def run (w : Watched τ) (calls : List (Call τ)) : Watched τ :=
  calls.foldl step w

/-- What a cursor answers in the course of calls. -/
def answers (i : Nat) : Watched τ → List (Call τ) → List (Except Violation (Option Edge))
  | _, [] => []
  | w, call :: calls =>
    if call.asks i then (w.next i).map Prod.fst :: answers i (w.step call) calls
    else answers i (w.step call) calls

/-- The call removes samples, and succeeds. -/
def Removes (w : Watched τ) (call : Call τ) : Prop :=
  ∃ first stop r, call = .edit (.remove first stop) ∧
    (Edit.remove first stop).run w.recording = .ok () r

/-- None of the calls removes samples. -/
def Undisturbed : Watched τ → List (Call τ) → Prop
  | _, [] => True
  | w, call :: calls => ¬ w.Removes call ∧ Undisturbed (w.step call) calls

end Watched

/-- The edges among the answers of a cursor. -/
def handedOut (answers : List (Except Violation (Option Edge))) : List Edge :=
  answers.filterMap fun
    | .ok e => e
    | .error _ => none

/-- What is handed out in two runs of answers is handed out one after the other. -/
theorem handedOut_append (answers answers' : List (Except Violation (Option Edge))) :
    handedOut (answers ++ answers') = handedOut answers ++ handedOut answers' :=
  List.filterMap_append

/-- Edges that are handed out one after the other are the first ones of a list. -/
theorem handedOut_range (edges : List Edge) (n : Nat) :
    handedOut ((List.range n).map fun m => .ok edges[m]?) = edges.take n := by
  induction n with
  | zero => rfl
  | succ n ih =>
    rw [List.range_succ, List.map_append, handedOut_append, ih, List.take_add_one]
    cases hedge : edges[n]? <;> simp [handedOut, hedge]

/-- Answers that there is nothing more hand out nothing. -/
theorem handedOut_replicate (n : Nat) : handedOut (List.replicate n (.ok none)) = [] := by
  induction n with
  | zero => rfl
  | succ n ih => exact ih

/-! ## Appending behind a cursor -/

namespace Trace

variable {t t' : Trace .logic} {c : EdgeCursor}

/-- What is pending for a cursor does not depend on the samples behind its range. -/
theorem Extends.pending_eq (h : t.Extends t') (hlast : c.query.last < t.count)
    (hfits : c.query.WindowsFit) : c.pending t' = c.pending t := by
  obtain ⟨query, removals, phase⟩ := c
  have hrest := h.edgesFrom_eq hlast hfits
  cases phase with
  | opening =>
    have hfirst : query.first < t.count := Nat.lt_of_le_of_lt query.ordered hlast
    simp only [EdgeCursor.pending, Scan.edges_eq, hrest, h.levelAt_eq _ hfirst]
  | searching index level => exact hrest level index
  | ending level => rfl
  | done => rfl

/-- A cursor stays valid when samples are appended. -/
theorem Extends.valid (h : t.Extends t') (hvalid : c.Valid t) : c.Valid t' where
  removals_eq := h.removals_eq.trans hvalid.removals_eq
  last_lt := Nat.lt_of_lt_of_le hvalid.last_lt h.count_le
  entered index level hphase := by
    obtain ⟨hpos, hle, hbefore⟩ := hvalid.entered index level hphase
    have hlast := hvalid.last_lt
    exact ⟨hpos, hle, (h.levelAt_eq _ (by omega)).trans hbefore⟩

end Trace

/-! ## Accepted queries -/

/-- A cursor at the start of a query on a trace.  All that is asked of the level that the query looks at is
that its windows are at most twice as long as the blocks. -/
structure EdgeCursor.Opened (t : Trace .logic) (c : EdgeCursor) : Prop where
  phase_eq : c.phase = .opening
  removals_eq : t.removals = c.removals
  last_lt : c.query.last < t.count
  windows_fit : c.query.WindowsFit

/-- A cursor at the start of a query is valid. -/
theorem EdgeCursor.Opened.valid {t : Trace .logic} {c : EdgeCursor} (h : c.Opened t) : c.Valid t where
  removals_eq := h.removals_eq
  last_lt := h.last_lt
  entered _ _ hphase := nomatch h.phase_eq.symm.trans hphase

namespace Trace

variable {t : Trace .logic} {first last channel : Nat} {spacing : Binary32} {c : EdgeCursor}

/-- In a query that is accepted, the level and the length of a block come from one resolution. -/
theorem edgeQuery_eq_ok {q : EdgeQuery} (h : t.edgeQuery first last spacing channel = .ok q) :
    q.last < t.count ∧ q.WindowsFit := by
  unfold edgeQuery at h
  -- Every check has been passed, so the last sample is there and the detail fits the spacing.
  split at h
  · rename_i hlast
    split at h
    · split at h
      · rename_i hspacing
        split at h
        · cases h
          refine ⟨hlast, fun level hdetail => ?_⟩
          simp only [Detail.ofResolution] at hdetail
          split at hdetail
          · exact nomatch hdetail
          · rename_i hcoarse
            cases hdetail
            exact window_levelFor_le hspacing.1.2.1 hcoarse
        · exact nomatch h
      · exact nomatch h
    · exact nomatch h
  · exact nomatch h

/-- The cursor of an accepted query is at its start. -/
theorem openEdges_eq_ok (h : t.openEdges first last spacing channel = .ok c) : c.Opened t := by
  simp only [openEdges, bind, Except.bind, pure, Except.pure] at h
  split at h
  · cases h
  · rename_i q hquery
    cases h
    obtain ⟨hlast, hfits⟩ := edgeQuery_eq_ok hquery
    exact ⟨rfl, rfl, hlast, hfits⟩

end Trace

namespace Watched

variable {w : Watched τ} {i : Nat} {edges : List Edge}

/-- A cursor has still to hand out the given edges. -/
structure Awaits (w : Watched τ) (i : Nat) (edges : List Edge) : Prop where
  summed : w.recording.trace.Summed
  cursor : ∃ c, w.cursors[i]? = some c ∧ c.Valid w.recording.trace ∧ c.query.WindowsFit ∧
    c.pending w.recording.trace = edges

/-- Samples were removed since a cursor was opened. -/
def Ended (w : Watched τ) (i : Nat) : Prop :=
  ∃ c, w.cursors[i]? = some c ∧ c.removals < w.recording.trace.removals

/-- A cursor that was just opened awaits all that is pending for it. -/
theorem awaits_of_opened {r : Recording τ .logic} {c : EdgeCursor} (hsummed : r.trace.Summed)
    (h : c.Opened r.trace) (others : List EdgeCursor) :
    (⟨r, others ++ [c]⟩ : Watched τ).Awaits others.length (c.pending r.trace) :=
  ⟨hsummed, c, List.getElem?_concat_length, h.valid, h.windows_fit, rfl⟩

/-! ## One call -/

/-- The next edge of a cursor is looked for in the trace as it is. -/
theorem next_eq {c : EdgeCursor} (h : w.cursors[i]? = some c) :
    w.next i = c.next w.recording.trace := by
  rw [next, h]

/-- Only a call for the next edge is for a cursor. -/
theorem eq_next_of_asks {call : Call τ} (h : call.asks i = true) : call = .next i := by
  cases call with
  | next j => rw [of_decide_eq_true h]
  | edit _ => exact nomatch h
  | read _ => exact nomatch h
  | openEdges _ _ _ _ => exact nomatch h

/-- A step of a cursor changes that cursor alone. -/
theorem step_next {c c' : EdgeCursor} {e : Option Edge} (h : w.cursors[i]? = some c)
    (hnext : c.next w.recording.trace = .ok (e, c')) :
    (w.step (.next i)).recording = w.recording ∧ (w.step (.next i)).cursors[i]? = some c' := by
  have hlt : i < w.cursors.length := (List.getElem?_eq_some_iff.1 h).1
  have hstep : w.step (.next i) = { w with cursors := w.cursors.set i c' } := by
    simp only [step, next_eq h, hnext]
  rw [hstep]
  exact ⟨rfl, List.getElem?_set_self hlt⟩

/-- A removal is counted, and leaves the cursors to find out. -/
theorem step_of_removes {call : Call τ} (h : w.Removes call) :
    (w.step call).cursors = w.cursors ∧
      (w.step call).recording.trace.removals = w.recording.trace.removals + 1 := by
  obtain ⟨first, stop, r, rfl, hrun⟩ := h
  have hstep : w.step (.edit (.remove first stop)) = { w with recording := r } := by
    simp only [step, Operation.leaves_of_eq_ok hrun]
  rw [hstep]
  obtain ⟨t, ht, rfl⟩ := Recording.onTrace_eq_ok.1 hrun
  exact ⟨rfl, (Trace.remove_eq_ok ht).1⟩

/-- Any other call that is not for the cursor leaves it alone, and only adds samples at the end. -/
theorem step_of_not_removes {c : EdgeCursor} {call : Call τ} (h : w.cursors[i]? = some c)
    (hasks : call.asks i = false) (hremoves : ¬ w.Removes call) :
    (w.step call).cursors[i]? = some c ∧
      w.recording.trace.Extends (w.step call).recording.trace ∧
      (w.recording.trace.Summed → (w.step call).recording.trace.Summed) := by
  -- Only an edit touches the recording, and only a call for this cursor its phase.
  cases call with
  | edit e =>
    rcases e.atomic.leaves_cases w.recording with hsame | hdone
    · -- The edit broke its contract, so nothing has changed.
      simp only [step, hsame]
      exact ⟨h, .refl _, id⟩
    · obtain ⟨hsummed, ⟨first, stop, rfl, -⟩ | hextends⟩ := Edit.step hdone
      · exact absurd ⟨first, stop, _, rfl, hdone⟩ hremoves
      · exact ⟨h, hextends, hsummed⟩
  | read query => exact ⟨h, .refl _, id⟩
  | openEdges first last spacing channel =>
    simp only [step]
    split
    · exact ⟨(List.getElem?_append_left (List.getElem?_eq_some_iff.1 h).1).trans h, .refl _, id⟩
    · exact ⟨h, .refl _, id⟩
  | next j =>
    -- A call for another cursor writes at another place of the list.
    have hj : j ≠ i := of_decide_eq_false hasks
    simp only [step]
    split
    · exact ⟨(List.getElem?_set_ne hj).trans h, .refl _, id⟩
    · exact ⟨h, .refl _, id⟩

/-- A call other than a removal leaves the edges that are pending for a cursor, unless it is for
that cursor: then it takes the first of them. -/
theorem Awaits.step (h : w.Awaits i edges) {call : Call τ} (hremoves : ¬ w.Removes call) :
    if call.asks i then
      (w.next i).map Prod.fst = .ok edges.head? ∧ (w.step call).Awaits i edges.tail
    else (w.step call).Awaits i edges := by
  obtain ⟨hsummed, c, hcursor, hvalid, hfits, rfl⟩ := h
  -- A call for the cursor takes an edge; any other leaves what is awaited.
  split
  · rename_i hasks
    obtain rfl := eq_next_of_asks hasks
    -- The step is one on the trace as it is now, and that leaves the trace alone.
    obtain ⟨c', hnext, hpending, hvalid', hquery⟩ := hvalid.next_ok hsummed
    obtain ⟨hrecording, hcursor'⟩ := step_next hcursor hnext
    rw [← hrecording] at hvalid' hpending hsummed
    refine ⟨?_, hsummed, c', hcursor', hvalid', ?_, ?_⟩
    · rw [next_eq hcursor, hnext]
      rfl
    · rw [EdgeQuery.WindowsFit, hquery]
      exact hfits
    · rw [hpending, hrecording]
  · rename_i hasks
    obtain ⟨hcursor', hextends, hkeeps⟩ :=
      step_of_not_removes hcursor (Bool.not_eq_true _ ▸ hasks) hremoves
    exact ⟨hkeeps hsummed, c, hcursor', hextends.valid hvalid, hfits,
      hextends.pending_eq hvalid.last_lt hfits⟩

/-- A removal ends the cursors that are on their way. -/
theorem Awaits.ended (h : w.Awaits i edges) {call : Call τ} (hremoves : w.Removes call) :
    (w.step call).Ended i := by
  obtain ⟨-, c, hcursor, hvalid, -, -⟩ := h
  obtain ⟨hcursors, hremovals⟩ := step_of_removes hremoves
  refine ⟨c, hcursors ▸ hcursor, ?_⟩
  rw [hremovals, ← hvalid.removals_eq]
  exact Nat.lt_succ_self _

/-- A cursor that was ended answers that there is nothing more, and stays ended. -/
theorem Ended.step (h : w.Ended i) (call : Call τ) :
    (w.next i).map Prod.fst = .ok none ∧ (w.step call).Ended i := by
  obtain ⟨c, hcursor, hlt⟩ := h
  have hnext : c.next w.recording.trace = .ok (none, { c with phase := .done }) :=
    if_pos (Nat.ne_of_gt hlt)
  refine ⟨by rw [next_eq hcursor, hnext]; rfl, ?_⟩
  -- Removals are counted up only, so the cursor stays behind.
  by_cases hremoves : w.Removes call
  · obtain ⟨hcursors, hremovals⟩ := step_of_removes hremoves
    exact ⟨c, hcursors ▸ hcursor, by omega⟩
  · cases hasks : call.asks i with
    | true =>
      obtain rfl := eq_next_of_asks hasks
      obtain ⟨hrecording, hcursor'⟩ := step_next hcursor hnext
      exact ⟨_, hcursor', hrecording ▸ hlt⟩
    | false =>
      obtain ⟨hcursor', hextends, -⟩ := step_of_not_removes hcursor hasks hremoves
      exact ⟨c, hcursor', hextends.removals_eq ▸ hlt⟩

/-! ## A run of calls -/

/-- The answers in two runs of calls come one after the other. -/
theorem answers_append (i : Nat) (w : Watched τ) (calls calls' : List (Call τ)) :
    answers i w (calls ++ calls') = answers i w calls ++ answers i (w.run calls) calls' := by
  induction calls generalizing w with
  | nil => rfl
  | cons call calls ih =>
    rw [List.cons_append, answers, answers, ih]
    split <;> rfl

/-- As long as nothing is removed, a cursor answers with one edge after the other, and then that
there is nothing more. -/
theorem Awaits.run {calls : List (Call τ)} (h : w.Awaits i edges) (hcalls : w.Undisturbed calls) :
    (w.run calls).Awaits i (edges.drop (calls.countP (Call.asks i))) ∧
      answers i w calls =
        (List.range (calls.countP (Call.asks i))).map fun n => .ok edges[n]? := by
  -- Each call for the cursor takes the first edge off the list, and other calls leave the list.
  induction calls generalizing w edges with
  | nil => exact ⟨h, rfl⟩
  | cons call calls ih =>
    obtain ⟨hremoves, hrest⟩ := hcalls
    have hstep := h.step hremoves
    rw [answers]
    split at hstep
    · rename_i hasks
      -- The answer of the call comes first, and those of the rest are numbered from one on.
      obtain ⟨hanswer, hawaits⟩ := hstep
      obtain ⟨hlater, hanswers⟩ := ih hawaits hrest
      rw [List.countP_cons_of_pos hasks, if_pos hasks, hanswer, hanswers]
      refine ⟨?_, ?_⟩
      · rw [← List.drop_tail]
        exact hlater
      · rw [List.range_succ_eq_map, List.map_cons, List.map_map, ← List.head?_eq_getElem?]
        congr 2
        funext n
        simp
    · rename_i hasks
      rw [List.countP_cons_of_neg hasks, if_neg hasks]
      exact ih hstep hrest

/-- From a removal on, a cursor answers that there is nothing more. -/
theorem Ended.run (h : w.Ended i) (calls : List (Call τ)) :
    answers i w calls = List.replicate (calls.countP (Call.asks i)) (.ok none) := by
  induction calls generalizing w with
  | nil => rfl
  | cons call calls ih =>
    obtain ⟨hanswer, hended⟩ := h.step call
    rw [answers, ih hended]
    split
    · rename_i hasks
      rw [List.countP_cons_of_pos hasks, List.replicate_succ, hanswer]
    · rename_i hasks
      rw [List.countP_cons_of_neg hasks]

/-- Calls remove nothing, or one of them is the first to do so. -/
theorem undisturbed_or_removes (w : Watched τ) (calls : List (Call τ)) :
    w.Undisturbed calls ∨ ∃ before call after, calls = before ++ call :: after ∧
      w.Undisturbed before ∧ (w.run before).Removes call := by
  induction calls generalizing w with
  | nil => exact .inl trivial
  | cons call calls ih =>
    by_cases hremoves : w.Removes call
    · exact .inr ⟨[], call, calls, rfl, trivial, hremoves⟩
    · rcases ih (w.step call) with hrest | ⟨before, call', after, rfl, hbefore, hremoves'⟩
      · exact .inl ⟨hremoves, hrest⟩
      · exact .inr ⟨call :: before, call', after, rfl, ⟨hremoves, hbefore⟩, hremoves'⟩

/-- A removal cuts the answers of a cursor off: all later ones are that there is nothing more. -/
theorem Awaits.answers_of_removes (h : w.Awaits i edges) {before : List (Call τ)} {call : Call τ}
    (hbefore : w.Undisturbed before) (hremoves : (w.run before).Removes call)
    (after : List (Call τ)) :
    answers i w (before ++ call :: after) =
      answers i w before ++ List.replicate (after.countP (Call.asks i)) (.ok none) := by
  have hended := (h.run hbefore).1.ended hremoves
  -- The removal itself is not for the cursor.
  obtain ⟨first, stop, r, rfl, -⟩ := hremoves
  have hasks : ¬ (Call.edit (.remove first stop) : Call τ).asks i = true := Bool.false_ne_true
  rw [answers_append, answers, if_neg hasks, hended.run]

/-- Whatever is called, a cursor hands out first edges of those that it awaits. -/
theorem Awaits.handedOut_prefix (h : w.Awaits i edges) (calls : List (Call τ)) :
    handedOut (answers i w calls) <+: edges := by
  rcases undisturbed_or_removes w calls with hcalls | ⟨before, call, after, rfl, hbefore, hremoves⟩
  · rw [(h.run hcalls).2, handedOut_range]
    exact List.take_prefix _ _
  · rw [h.answers_of_removes hbefore hremoves, handedOut_append, handedOut_replicate,
      List.append_nil, (h.run hbefore).2, handedOut_range]
    exact List.take_prefix _ _

/-- A cursor that was asked often enough before a removal has handed out all edges. -/
theorem Awaits.handedOut_eq (h : w.Awaits i edges) {before : List (Call τ)}
    (hbefore : w.Undisturbed before) (hoften : edges.length ≤ before.countP (Call.asks i))
    (after : List (Call τ)) : handedOut (answers i w (before ++ after)) = edges := by
  -- All edges were handed out before, and what comes after adds nothing to them.
  have hfirst : handedOut (answers i w before) = edges := by
    rw [(h.run hbefore).2, handedOut_range, List.take_of_length_le hoften]
  have hprefix := h.handedOut_prefix (before ++ after)
  rw [answers_append, handedOut_append, hfirst] at hprefix ⊢
  exact hprefix.eq_of_length_le (by simp)

/-- An edit that breaks its contract changes nothing. -/
theorem step_of_error {e : Edit .logic} {v : Violation} {r : Recording τ .logic}
    (h : e.run w.recording = .error v r) : w.step (.edit e) = w := by
  have hsame : r = w.recording := e.atomic _ _ _ h
  simp only [step, Operation.leaves, h, hsame]

/-- A cursor hands out the edges of the recording on which it was opened, whatever is called in
between: edits that succeed or fail, readings, and steps of other cursors.  Until samples are removed,
its answers are those edges one by one, and then nothing; after that they are nothing.  So it never
hands out anything but first edges of that list, and all of them if it is asked often enough before a
removal.  A removal that fails does not count.  All this is so for each query that is accepted, and for
any other whose windows are at most twice as long as its blocks. -/
theorem answers_stable {r : Recording τ .logic} (h : r.Reachable) :
    (∀ (first last channel : Nat) (spacing : Binary32) (c : EdgeCursor),
      r.trace.openEdges first last spacing channel = .ok c → c.Opened r.trace) ∧
    ∀ (others : List EdgeCursor) (c : EdgeCursor), c.Opened r.trace →
    let w : Watched τ := ⟨r, others ++ [c]⟩
    let i := others.length
    ∃ edges : List Edge, c.collect r.trace #[] = .ok edges.toArray ∧
      (∀ calls : List (Call τ), w.Undisturbed calls →
        answers i w calls =
          (List.range (calls.countP (Call.asks i))).map fun n => .ok edges[n]?) ∧
      (∀ (before : List (Call τ)) (call : Call τ) (after : List (Call τ)),
        w.Undisturbed before → (w.run before).Removes call →
        answers i w (before ++ call :: after) =
          answers i w before ++ List.replicate (after.countP (Call.asks i)) (.ok none)) ∧
      (∀ calls : List (Call τ), handedOut (answers i w calls) <+: edges) ∧
      (∀ before after : List (Call τ), w.Undisturbed before →
        edges.length ≤ before.countP (Call.asks i) →
        handedOut (answers i w (before ++ after)) = edges) ∧
      ∀ (w' : Watched τ) (start stop : Nat) (v : Violation) (r' : Recording τ .logic),
        (Edit.remove start stop).run w'.recording = .error v r' →
        w'.step (.edit (.remove start stop)) = w' := by
  refine ⟨fun _ _ _ _ _ => Trace.openEdges_eq_ok, ?_⟩
  intro others c hopened w i
  have hawaits : w.Awaits i (c.pending r.trace) := awaits_of_opened h.summed hopened others
  have hall := hopened.valid.collect_ok h.summed #[]
  rw [Array.empty_append] at hall
  exact ⟨c.pending r.trace, hall, fun _ hcalls => (hawaits.run hcalls).2,
    fun _ _ after hbefore hremoves => hawaits.answers_of_removes hbefore hremoves after,
    hawaits.handedOut_prefix,
    fun _ after hbefore hoften => hawaits.handedOut_eq hbefore hoften after,
    fun _ _ _ _ _ hfail => step_of_error hfail⟩

/-- A cursor that is asked on goes through all edges of its range, although samples are appended.  One
that meets a removal stops there, although no sample was removed; the removal before failed. -/
theorem answers_stable_up_to_removal :
    ∃ (r : Recording Rat .logic) (c : EdgeCursor),
      Recording.ofLogic 1000 1 0 0 ⟨Array.replicate 20 0 ++ Array.replicate 10 1⟩ = .ok r ∧
      r.Reachable ∧ r.trace.openEdges 1 25 ⟨0x3f800000⟩ 0 = .ok c ∧
      answers 0 ⟨r, [c]⟩ [.next 0, .edit (.appendLogic ⟨#[0, 1, 0]⟩ 1), .next 0, .next 0, .next 0] =
        [.ok (some ⟨1, false⟩), .ok (some ⟨20, true⟩), .ok (some ⟨26, true⟩), .ok none] ∧
      answers 0 ⟨r, [c]⟩ [.next 0, .edit (.remove 9 5), .edit (.remove 3 3), .next 0] =
        [.ok (some ⟨1, false⟩), .ok none] := by
  -- The runs of the two edits are evaluated; the answers follow from the theorem.
  have hruns : ∃ (r r' : Recording Rat .logic) (c : EdgeCursor) (v : Violation),
      Recording.ofLogic 1000 1 0 0 ⟨Array.replicate 20 0 ++ Array.replicate 10 1⟩ = .ok r ∧
      r.trace.openEdges 1 25 ⟨0x3f800000⟩ 0 = .ok c ∧
      c.pending r.trace = [⟨1, false⟩, ⟨20, true⟩, ⟨26, true⟩] ∧
      (Edit.remove 9 5).run ((⟨r, [c]⟩ : Watched Rat).run [.next 0]).recording = .error v r ∧
      (Edit.remove 3 3).run
        ((⟨r, [c]⟩ : Watched Rat).run [.next 0, .edit (.remove 9 5)]).recording = .ok () r' :=
    ⟨_, _, _, _, rfl, rfl, by decide +kernel, rfl, rfl⟩
  obtain ⟨r, r', c, v, hfull, hopen, hpending, hfails, hremoves⟩ := hruns
  have hreachable := Recording.reachable_ofLogic hfull
  obtain ⟨haccepted, hstable⟩ := answers_stable hreachable
  obtain ⟨edges, hall, hkept, hremoved, -⟩ := hstable [] c (haccepted 1 25 0 ⟨0x3f800000⟩ c hopen)
  have hedges : edges = [⟨1, false⟩, ⟨20, true⟩, ⟨26, true⟩] := by
    have hvalid := (Trace.openEdges_eq_ok hopen).valid
    have hsame := hall.symm.trans (hvalid.collect_ok hreachable.summed #[])
    simpa [hpending] using hsame
  subst hedges
  have hnext : ∀ (w : Watched Rat) (j : Nat), ¬ w.Removes (.next j) := by
    rintro w j ⟨_, _, _, hcall, -⟩
    exact nomatch hcall
  have happend : ∀ (w : Watched Rat) (payload : ByteArray),
      ¬ w.Removes (.edit (.appendLogic payload 1)) := by
    rintro w payload ⟨_, _, _, hcall, -⟩
    exact nomatch hcall
  -- The removal of an inverted range fails, so it disturbs nothing.
  have hfailed : ¬ ((⟨r, [c]⟩ : Watched Rat).run [.next 0]).Removes (.edit (.remove 9 5)) := by
    rintro ⟨_, _, _, hcall, hrun⟩
    cases hcall
    exact nomatch hfails.symm.trans hrun
  refine ⟨r, c, hfull, hreachable, hopen, ?_, ?_⟩
  · exact hkept _ ⟨hnext _ 0, happend _ _, hnext _ 0, hnext _ 0, hnext _ 0, trivial⟩
  · have hbefore : (⟨r, [c]⟩ : Watched Rat).Undisturbed [.next 0, .edit (.remove 9 5)] :=
      ⟨hnext _ 0, hfailed, trivial⟩
    refine (hremoved [.next 0, .edit (.remove 9 5)] (.edit (.remove 3 3)) [.next 0] hbefore
      ⟨3, 3, r', rfl, hremoves⟩).trans ?_
    exact congrArg (· ++ [.ok none]) (hkept _ hbefore)

end Watched

end Waveform
