import Waveform.Proofs.CursorStability
import Waveform.Proofs.EdgeSpacing
import Waveform.Proofs.FiniteTurns

/-!
# Edge queries come to an end

However a recording is changed and read while a cursor is on its way through it, each step of the cursor
comes to an end, and so does the query: there are not many more edges than samples in its range, and when
they are handed out, or when samples were removed, there is nothing more.

## Key results

- `Scan.length_edges_le`: how many edges a query has
- `Watched.Awaits.answers_eq`: the shape of the answers of a cursor
- `Watched.queries_end`: steps and answers of a cursor, whatever else is called
-/

namespace Waveform

/-! ## How many edges there are -/

/-- Each edge of a scan takes up a sample of the range. -/
theorem Scan.Reported.length_le {bit : Nat → Bool} {last length index : Nat} {Starts : Nat → Prop}
    {level : Bool} {edges : List Edge} (h : Reported bit last length Starts level index edges)
    (hlength : 0 < length) : edges.length ≤ last + 1 - index := by
  induction h with
  | ended hlevel => exact Nat.zero_le _
  | closing hlevel hle =>
    simp only [List.length_singleton]
    omega
  | block hlevel hle hstart hstop rest ih =>
    simp only [List.length_cons]
    omega

/-- A query has at most as many edges as samples, and one more. -/
theorem Scan.length_edges_le (t : Trace .logic) (q : EdgeQuery) :
    (edges t q).length ≤ q.last - q.first + 2 := by
  obtain ⟨inner, hedges, hinner⟩ := exists_reported_edges t q
  have hle := hinner.length_le q.block_pos
  have hordered := q.ordered
  rw [hedges]
  simp only [List.length_cons, List.length_append, List.length_nil]
  omega

/-! ## A query on a recording that changes -/

namespace Watched

variable {τ : Type} {w : Watched τ} {i : Nat} {edges : List Edge}

/-- A cursor that was ended stays ended in a run of calls. -/
theorem Ended.after (h : w.Ended i) (calls : List (Call τ)) : (w.run calls).Ended i := by
  induction calls generalizing w with
  | nil => exact h
  | cons call calls ih => exact ih (h.step call).2

/-- Whatever is called, a cursor goes on waiting for edges until samples are removed. -/
theorem Awaits.after (h : w.Awaits i edges) (calls : List (Call τ)) :
    (∃ rest, (w.run calls).Awaits i rest) ∨ (w.run calls).Ended i := by
  induction calls generalizing w edges with
  | nil => exact .inl ⟨edges, h⟩
  | cons call calls ih =>
    by_cases hremoves : w.Removes call
    · exact .inr ((h.ended hremoves).after calls)
    · have hstep := h.step hremoves
      split at hstep
      · exact ih hstep.2
      · exact ih hstep

/-- A cursor that is asked for edges answers with those that there are, and then with none. -/
theorem answers_range (edges : List Edge) (n : Nat) :
    (List.range n).map (fun m => (.ok edges[m]? : Except Violation (Option Edge))) =
      (edges.take n).map (fun e => .ok (some e)) ++
        List.replicate (n - (edges.take n).length) (.ok none) := by
  induction edges generalizing n with
  | nil => simp [List.map_const']
  | cons e edges ih =>
    cases n with
    | zero => rfl
    | succ n =>
      have hrest := ih n
      simp only [List.length_take] at hrest
      simp [List.range_succ_eq_map, Function.comp_def, hrest]

/-- Whatever is called, a cursor answers with first edges of those that it awaits, and with none from
then on. -/
theorem Awaits.answers_eq (h : w.Awaits i edges) (calls : List (Call τ)) :
    ∃ found, found <+: edges ∧ answers i w calls =
      found.map (fun e => .ok (some e)) ++
        List.replicate (calls.countP (Call.asks i) - found.length) (.ok none) := by
  -- Up to the first removal the edges come one by one, and from it on none does.
  rcases undisturbed_or_removes w calls with hcalls | ⟨before, call, after, rfl, hbefore, hremoves⟩
  · refine ⟨edges.take (calls.countP (Call.asks i)), List.take_prefix _ _, ?_⟩
    rw [(h.run hcalls).2, answers_range]
  · refine ⟨edges.take (before.countP (Call.asks i)), List.take_prefix _ _, ?_⟩
    rw [h.answers_of_removes hbefore hremoves, (h.run hbefore).2, answers_range, List.append_assoc,
      List.replicate_append_replicate]
    have hasks : ¬ call.asks i = true := by
      obtain ⟨first, stop, r, rfl, -⟩ := hremoves
      exact Bool.false_ne_true
    rw [List.countP_append, List.countP_cons_of_neg hasks]
    congr 2
    have hle : (edges.take (before.countP (Call.asks i))).length ≤ before.countP (Call.asks i) :=
      List.length_take_le _ _
    omega

/-- A cursor follows its query whatever is called. -/
theorem query_after {c : EdgeCursor} (h : w.cursors[i]? = some c) (calls : List (Call τ)) :
    ∃ c', (w.run calls).cursors[i]? = some c' ∧ c'.query = c.query := by
  induction calls generalizing w c with
  | nil => exact ⟨c, h, rfl⟩
  | cons call calls ih =>
    -- No call replaces the query of a cursor: it is edited nowhere but in its phase.
    have hstep : ∃ c', (w.step call).cursors[i]? = some c' ∧ c'.query = c.query := by
      by_cases hremoves : w.Removes call
      · exact ⟨c, (step_of_removes hremoves).1 ▸ h, rfl⟩
      · cases hasks : call.asks i with
        | false => exact ⟨c, (step_of_not_removes h hasks hremoves).1, rfl⟩
        | true =>
          obtain rfl := eq_next_of_asks hasks
          cases hnext : c.next w.recording.trace with
          | ok result =>
            obtain ⟨e, c'⟩ := result
            have hsame := congrArg EdgeCursor.query (EdgeCursor.eq_of_next hnext)
            exact ⟨c', (step_next h hnext).2, hsame⟩
          | error v =>
            refine ⟨c, ?_, rfl⟩
            simp only [step, next_eq h, hnext]
            exact h
    obtain ⟨c', hcursor, hquery⟩ := hstep
    obtain ⟨c'', hlater, hsame⟩ := ih hcursor
    exact ⟨c'', hlater, hsame.trans hquery⟩

/-- The next step of a cursor is over after some number of turns, and they have its result. -/
def StepEnds (w : Watched τ) (i : Nat) (q : EdgeQuery) : Prop :=
  let t := w.recording.trace
  ∃ c n e p, w.cursors[i]? = some c ∧ c.query = q ∧
    t.turns c.query n (c.outset t) = .ok (.answer e p) ∧ w.next i = .ok (e, { c with phase := p })

/-- The next step of a cursor that is on its way comes to an end. -/
theorem Awaits.stepEnds (h : w.Awaits i edges) {c : EdgeCursor} (hcursor : w.cursors[i]? = some c) :
    w.StepEnds i c.query := by
  obtain ⟨hsummed, c₁, hcursor₁, hvalid, -, -⟩ := h
  obtain rfl : c₁ = c := Option.some.inj (hcursor₁.symm.trans hcursor)
  obtain ⟨c', hnext, -⟩ := hvalid.next_ok hsummed
  obtain ⟨n, hturns⟩ := (EdgeCursor.leads_next hsummed hnext).exists_turns
  refine ⟨c₁, n, _, c'.phase, hcursor, rfl, hturns, ?_⟩
  rw [next_eq hcursor, hnext, ← EdgeCursor.eq_of_next hnext]

/-- A cursor that was ended does not take a single turn. -/
theorem Ended.stepEnds (h : w.Ended i) {c : EdgeCursor} (hcursor : w.cursors[i]? = some c) :
    w.StepEnds i c.query := by
  obtain ⟨c₁, hcursor₁, hlt⟩ := h
  obtain rfl : c₁ = c := Option.some.inj (hcursor₁.symm.trans hcursor)
  have hremoved : w.recording.trace.removals ≠ c₁.removals := Nat.ne_of_gt hlt
  refine ⟨c₁, 0, none, .done, hcursor, rfl, ?_, ?_⟩
  · rw [EdgeCursor.outset, if_pos hremoved]
    rfl
  · rw [next_eq hcursor]
    exact if_pos hremoved

/-- An accepted query comes to an end, whatever else is called in between.  Its cursor can be opened, and
at any time its next step is a finite number of turns, none of which breaks a contract: all samples and
entries that are looked at are there, and all arithmetic stays within 64 bits.  All in all the cursor
hands out at most one edge more than there are samples in the range, and then none any more.  The same is
so for any other query whose windows are at most twice as long as its blocks. -/
theorem queries_end {r : Recording τ .logic} (h : r.Reachable) :
    (∀ (first last channel : Nat) (spacing : Binary32), first ≤ last → last < r.count →
      channel < 64 → Binary32.zero < spacing → spacing.isFinite →
      ∃ c, r.trace.openEdges first last spacing channel = .ok c ∧ c.Opened r.trace ∧
        c.query.first = first ∧ c.query.last = last) ∧
    ∀ (others : List EdgeCursor) (c : EdgeCursor), c.Opened r.trace →
      let w : Watched τ := ⟨r, others ++ [c]⟩
      let i := others.length
      ∀ calls : List (Call τ),
        (w.run calls).StepEnds i c.query ∧
        ∃ edges : List Edge, edges.length ≤ c.query.last - c.query.first + 2 ∧
          answers i w calls = edges.map (fun e => .ok (some e)) ++
            List.replicate (calls.countP (Call.asks i) - edges.length) (.ok none) := by
  constructor
  · -- The request is accepted.
    intro first last channel spacing hrange hlast hchannel hpos hfinite
    have hquery := Trace.edgeQuery_ok hrange hlast ⟨hpos, hfinite⟩ hchannel
    have hopen : ∃ c, r.trace.openEdges first last spacing channel = .ok c ∧
        c.query.first = first ∧ c.query.last = last := by
      simp only [Trace.openEdges, hquery, bind, Except.bind, pure, Except.pure]
      exact ⟨_, rfl, rfl, rfl⟩
    obtain ⟨c, hopen, hrange⟩ := hopen
    exact ⟨c, hopen, Trace.openEdges_eq_ok hopen, hrange⟩
  intro others c hopened w i calls
  have hcursor : w.cursors[i]? = some c := List.getElem?_concat_length
  have hawaits : w.Awaits i (c.pending r.trace) := awaits_of_opened h.summed hopened others
  -- There are no more changes than samples behind the first.
  have hlength : (c.pending r.trace).length ≤ c.query.last - c.query.first + 2 := by
    simp only [EdgeCursor.pending, hopened.phase_eq]
    exact Scan.length_edges_le _ _
  constructor
  · -- The cursor still awaits edges or was ended, and its step is finite in both cases.
    obtain ⟨c', hcursor', hsame⟩ := query_after hcursor calls
    rw [← hsame]
    rcases hawaits.after calls with ⟨rest, hlater⟩ | hended
    · exact hlater.stepEnds hcursor'
    · exact hended.stepEnds hcursor'
  · obtain ⟨found, hprefix, hanswers⟩ := hawaits.answers_eq calls
    exact ⟨found, Nat.le_trans hprefix.length_le hlength, hanswers⟩

/-- A query at the coarsest resolution that there is, so that no block fits in the range, on a channel
that samples of one byte do not have.  Samples are appended and removed while its cursor is on its way. -/
theorem queries_end_of_coarsest :
    ∃ (r : Recording Rat .logic) (c : EdgeCursor),
      Recording.ofLogic 1000 1 0 0 ⟨Array.replicate 20 0 ++ Array.replicate 10 1⟩ = .ok r ∧
      r.Reachable ∧ r.trace.openEdges 1 25 ⟨0x7f7fffff⟩ 9 = .ok c ∧
      c.query.block = Word.limit - 1 ∧
      ((⟨r, [c]⟩ : Watched Rat).run [.next 0, .edit (.appendLogic ⟨#[0, 1, 0]⟩ 1), .next 0,
        .edit (.remove 3 3)]).StepEnds 0 c.query ∧
      ∃ edges : List Edge, edges.length ≤ 26 ∧
        answers 0 (⟨r, [c]⟩ : Watched Rat) [.next 0, .next 0, .next 0] =
          edges.map (fun e => .ok (some e)) ++ List.replicate (3 - edges.length) (.ok none) := by
  -- The block is longer than any range; the query ends all the same.
  have hruns : ∃ r : Recording Rat .logic,
      Recording.ofLogic 1000 1 0 0 ⟨Array.replicate 20 0 ++ Array.replicate 10 1⟩ = .ok r ∧
      25 < r.count ∧ ∀ c, r.trace.openEdges 1 25 ⟨0x7f7fffff⟩ 9 = .ok c →
        c.query.block = Word.limit - 1 :=
    ⟨_, rfl, by decide +kernel, by rintro c ⟨⟩; decide +kernel⟩
  obtain ⟨r, hfull, hcount, hblock⟩ := hruns
  have hreachable := Recording.reachable_ofLogic hfull
  obtain ⟨haccepted, hends⟩ := queries_end hreachable
  obtain ⟨c, hopen, hopened, hfirst, hlast⟩ := haccepted 1 25 9 ⟨0x7f7fffff⟩ (by decide) hcount
    (by decide) (by decide) (by decide)
  obtain ⟨edges, hlength, hanswers⟩ := (hends [] c hopened [.next 0, .next 0, .next 0]).2
  rw [hfirst, hlast] at hlength
  exact ⟨r, c, hfull, hreachable, hopen, hblock c hopen, (hends [] c hopened _).1, edges, hlength,
    hanswers⟩

end Watched

end Waveform
