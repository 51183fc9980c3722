import Waveform.Proofs.EdgeBlocks
import Waveform.Proofs.LogicPyramid
import Waveform.Proofs.Resolutions

/-!
# Edge queries against scans of the samples

A cursor finds its edges through the pyramid.  What it still has to hand out can be said from the
samples alone (`EdgeCursor.pending`), and each step hands out the first of those edges and leaves
the others (`Valid.next_ok`).  So a cursor that is run to its end yields the scan of its query.

## Key results

- `Valid.next_ok`: a step hands out the first edge that is pending
- `Valid.collect_ok`: a cursor yields all edges that are pending
- `Recording.fine_edges`, `Recording.coarse_edges`: queries for single samples and for windows
-/

namespace Waveform

/-- The edges of a query are the level at its first sample and what follows that. -/
theorem Scan.edges_eq (t : Trace .logic) (q : EdgeQuery) :
    edges t q = ⟨q.first, t.levelAt q.channel q.first⟩ ::
      t.edgesFrom q (t.levelAt q.channel q.first) (q.first + 1) := by
  have hseek := t.forward_seek q
  have hscan : edges t q =
      scan (t.levelAt q.channel) (t.seek q) q.first q.last q.block := by
    simp only [edges, Trace.seek]
    cases q.detail with
    | samples => rfl
    | windows n => rfl
  rw [hscan, scan_eq hseek q.block_pos]
  rfl

namespace EdgeCursor

variable {t : Trace .logic} {c : EdgeCursor}

/-- The edges that a cursor has still to hand out. -/
def pending (t : Trace .logic) (c : EdgeCursor) : List Edge :=
  match c.phase with
  | .opening => Scan.edges t c.query
  | .searching index level => t.edgesFrom c.query level index
  | .ending level => [⟨c.query.last + 1, level⟩]
  | .done => []

/-- A cursor on a trace from which nothing was removed since, with its range within the samples.
While it searches it knows the level just before. -/
structure Valid (t : Trace .logic) (c : EdgeCursor) : Prop where
  removals_eq : t.removals = c.removals
  last_lt : c.query.last < t.count
  entered : ∀ index level, c.phase = .searching index level →
    0 < index ∧ index ≤ c.query.last + 1 ∧ t.levelAt c.query.channel (index - 1) = level

/-- A cursor at the start of a query within the samples is valid. -/
theorem valid_opening {q : EdgeQuery} (hlast : q.last < t.count) :
    Valid t ⟨q, t.removals, .opening⟩ :=
  ⟨rfl, hlast, fun _ _ hphase => nomatch hphase⟩

/-- The end of a query can always be reported, as an index lies behind its range. -/
theorem finish_ok (c : EdgeCursor) (level : Bool) :
    c.finish level = .ok (some ⟨c.query.last + 1, level⟩, { c with phase := .done }) := by
  have hbeyond : Word.add c.query.last 1 = .ok (c.query.last + 1) := if_pos c.query.bounded
  simp only [finish, hbeyond, bind, Except.bind, pure, Except.pure]

/-- A step of a cursor hands out the first edge that is pending and leaves the others.  It never
breaks a contract. -/
theorem Valid.next_ok (hvalid : c.Valid t) (h : t.Summed) :
    ∃ c', c.next t = .ok ((c.pending t).head?, c') ∧ c'.pending t = (c.pending t).tail ∧
      c'.Valid t ∧ c'.query = c.query := by
  -- Opened up, so that the phase can be split on.
  obtain ⟨query, removals, phase⟩ := c
  obtain ⟨hremovals, hlast, hentered⟩ := hvalid
  simp only at hremovals hlast hentered
  have hsame : ¬ t.removals ≠ removals := not_not_intro hremovals
  have hdone : Valid t ⟨query, removals, .done⟩ :=
    ⟨hremovals, hlast, fun _ _ hphase => nomatch hphase⟩
  simp only [next, if_neg hsame, finish_ok, bind, Except.bind, pure, Except.pure]
  cases phase with
  | opening =>
    have hfirst : query.first < t.count := Nat.lt_of_le_of_lt query.ordered hlast
    have hbounded : query.first + 1 < Word.limit :=
      Nat.lt_of_le_of_lt (Nat.succ_le_succ query.ordered) query.bounded
    have hbeyond : Word.add query.first 1 = .ok (query.first + 1) := if_pos hbounded
    simp only [Trace.bit_ok hfirst, hbeyond, pending, Scan.edges_eq]
    -- The first edge is the level of the first sample; the search sets out behind it.
    refine ⟨_, rfl, rfl, ⟨hremovals, hlast, fun index level hphase => ?_⟩, rfl⟩
    cases hphase
    exact ⟨Nat.succ_pos _, Nat.succ_le_succ query.ordered, rfl⟩
  | searching index level =>
    obtain ⟨hpos, -, hbefore⟩ := hentered index level rfl
    rcases h.search_ok hlast hpos hbefore with ⟨hsearch, hpending⟩ | ⟨b, hsearch, hpending, hlevel⟩
    · simp only [hsearch, Trace.bit_ok hlast, pending, hpending, Scan.ending]
      -- The range ends at the level of the last block, or at one that is reported first.
      by_cases hlevel : t.levelAt query.channel query.last = level
      · rw [if_pos hlevel, if_pos hlevel.symm, hlevel]
        exact ⟨_, rfl, rfl, hdone, rfl⟩
      · rw [if_neg hlevel, if_neg (Ne.symm hlevel)]
        exact ⟨_, rfl, rfl, ⟨hremovals, hlast, fun _ _ hphase => by cases hphase⟩, rfl⟩
    · -- A block was found: it is the next edge, and the search goes on behind it.
      have hstop := Trace.search_bounds hsearch
      simp only [hsearch, pending, hpending]
      refine ⟨_, rfl, rfl, ⟨hremovals, hlast, fun index level hphase => ?_⟩, rfl⟩
      cases hphase
      exact ⟨Nat.zero_lt_of_lt hstop.1, Nat.le_succ_of_le hstop.2, hlevel⟩
  | ending level => exact ⟨_, rfl, rfl, hdone, rfl⟩
  | done => exact ⟨_, rfl, rfl, hdone, rfl⟩

/-- A cursor that is run to its end hands out all edges that are pending. -/
theorem Valid.collect_ok (hvalid : c.Valid t) (h : t.Summed) (edges : Array Edge) :
    c.collect t edges = .ok (edges ++ (c.pending t).toArray) := by
  fun_induction collect t c edges with
  -- Case by case: a call fails, answers that there is no more, or answers an edge.
  | case1 c edges v hfail =>
    obtain ⟨c', hnext, -⟩ := hvalid.next_ok h
    exact nomatch hfail.symm.trans hnext
  | case2 c edges c' hnone =>
    obtain ⟨c'', hnext, -⟩ := hvalid.next_ok h
    have hhead : (c.pending t).head? = none :=
      (Prod.mk.inj (Except.ok.inj (hnext.symm.trans hnone))).1
    rw [List.head?_eq_none_iff.1 hhead]
    simp
  | case3 c edges e c' hsome ih =>
    obtain ⟨c'', hnext, htail, hvalid', -⟩ := hvalid.next_ok h
    -- The edge is the first of those pending, and the cursor after it awaits the others.
    obtain ⟨hhead, hsame⟩ := Prod.mk.inj (Except.ok.inj (hnext.symm.trans hsome))
    subst hsame
    obtain ⟨rest, hrest⟩ := List.head?_eq_some_iff.1 hhead
    rw [ih hvalid', htail, hrest]
    simp

end EdgeCursor

namespace Trace

variable {t : Trace .logic} {first last channel : Nat} {spacing : Binary32}

/-- The query that stands for a request, where the request is accepted. -/
theorem edgeQuery_ok (hrange : first ≤ last) (hlast : last < t.count)
    (hspacing : Binary32.zero < spacing ∧ spacing.isFinite) (hchannel : channel < 64) :
    t.edgeQuery first last spacing channel =
      .ok ⟨first, last, ⟨channel, hchannel⟩, .ofResolution spacing, blockLength spacing, hrange,
        bounded_of_lt_count hlast, Nat.le_max_left _ _⟩ := by
  rw [edgeQuery, dif_pos hlast, dif_pos hrange, if_pos hspacing, dif_pos hchannel]

/-- A query within the samples yields the edges that a scan of the samples finds. -/
theorem Summed.collect_opening (h : t.Summed) {q : EdgeQuery} (hlast : q.last < t.count) :
    EdgeCursor.collect t ⟨q, t.removals, .opening⟩ #[] = .ok (Scan.edges t q).toArray := by
  rw [(EdgeCursor.valid_opening hlast).collect_ok h, Array.empty_append]
  rfl

/-- An accepted query yields the edges that a scan of the samples finds. -/
theorem Summed.edges_ok (h : t.Summed) {q : EdgeQuery} (hlast : q.last < t.count)
    (hquery : t.edgeQuery first last spacing channel = .ok q) :
    t.edges first last spacing channel = .ok (Scan.edges t q).toArray := by
  simp only [edges, edgesInto, openEdges, hquery, bind, Except.bind, pure, Except.pure]
  exact h.collect_opening hlast

end Trace

namespace Recording

variable {τ : Type} {r : Recording τ .logic}

/-- A request that is accepted yields the edges that a scan of the samples finds. -/
theorem Reachable.edges_ok (h : r.Reachable) {first last channel : Nat} {spacing : Binary32}
    (hrange : first ≤ last) (hlast : last < r.count)
    (hspacing : Binary32.zero < spacing ∧ spacing.isFinite) (hchannel : channel < 64) :
    r.trace.edges first last spacing channel =
      .ok (Scan.edges r.trace ⟨first, last, ⟨channel, hchannel⟩, .ofResolution spacing,
        blockLength spacing, hrange, Trace.bounded_of_lt_count hlast, Nat.le_max_left _ _⟩).toArray :=
  h.summed.edges_ok hlast (Trace.edgeQuery_ok hrange hlast hspacing hchannel)

/-- A request that is accepted yields the edges that the scan is known to find. -/
theorem Reachable.edges_of_scan (h : r.Reachable) {first last channel : Nat} {spacing : Binary32}
    (hrange : first ≤ last) (hlast : last < r.count)
    (hspacing : Binary32.zero < spacing ∧ spacing.isFinite) (hchannel : channel < 64)
    {found : List Edge}
    (hscan : Scan.edges r.trace ⟨first, last, ⟨channel, hchannel⟩, .ofResolution spacing,
      blockLength spacing, hrange, Trace.bounded_of_lt_count hlast, Nat.le_max_left _ _⟩ = found) :
    r.trace.edges first last spacing channel = .ok found.toArray :=
  hscan ▸ h.edges_ok hrange hlast hspacing hchannel

/-- A query for single samples yields what a scan of the samples finds that knows no pyramid: the
level at the first sample, the blocks from each change on that end at another level, and the level
at the last sample.  Where blocks are single samples, which is so below a resolution of two samples,
those are all changes in the range and nothing else. -/
theorem fine_edges (h : r.Reachable) {first last channel : Nat} {spacing : Binary32}
    (hrange : first ≤ last) (hlast : last < r.count) (hchannel : channel < 64)
    (hpos : Binary32.zero < spacing) (hfine : spacing < Detail.threshold) :
    let bit := r.trace.levelAt ⟨channel, hchannel⟩
    let block := blockLength spacing
    let scan := Scan.scan bit (Scan.seekSample bit last) first last block
    r.trace.edges first last spacing channel = .ok scan.toArray ∧
      (block = 1 ↔ spacing < ⟨0x40000000⟩) ∧
      (block = 1 → scan = ⟨first, bit first⟩ ::
        ((List.range' (first + 1) (last - first)).filter fun i => bit i != bit (i - 1)).map
          (fun i => ⟨i, bit i⟩) ++ [⟨last + 1, bit last⟩]) := by
  intro bit block scan
  have hspacing : Binary32.zero < spacing ∧ spacing.isFinite :=
    ⟨hpos, Binary32.isFinite_of_lt hpos hfine⟩
  have hdetail : Detail.ofResolution spacing = .samples := if_pos hfine
  have hquery := Trace.edgeQuery_ok hrange hlast hspacing hchannel
  refine ⟨?_, blockLength_eq_one_iff hpos.2.1, fun hblock => ?_⟩
  · -- The answer is that of the scan by samples.
    rw [h.summed.edges_ok hlast hquery]
    simp only [Scan.edges, hdetail]
    rfl
  · -- Blocks of one sample miss no change.
    have hrest := @Scan.edgesFrom_single bit last (bit first) (first + 1) (Nat.succ_pos first)
      (Nat.succ_le_succ hrange) rfl
    rw [Nat.add_sub_add_right] at hrest
    simp only [scan, hblock]
    rw [Scan.scan_eq Scan.forward_seekSample Nat.one_pos, hrest]
    rfl

/-- Two changes that lie three samples apart are seen one by one, also behind a quiet window. -/
theorem fine_edges_behind_quiet_window :
    ∃ r : Recording Rat .logic,
      ofLogic 1000 1 0 0 ⟨Array.replicate 20 0 ++ #[1, 1, 1, 0, 0] ++ Array.replicate 11 1⟩ =
        .ok r ∧
      r.Reachable ∧ 1 ≤ 34 ∧ 34 < r.count ∧ Binary32.zero < ⟨0x3fc00000⟩ ∧
      (⟨0x3fc00000⟩ : Binary32) < Detail.threshold ∧
      r.trace.edges 1 34 ⟨0x3fc00000⟩ 0 =
        .ok #[⟨1, false⟩, ⟨20, true⟩, ⟨23, false⟩, ⟨25, true⟩, ⟨35, true⟩] := by
  -- The scan of the trace is evaluated; the answer is that scan.
  have hruns : ∃ r : Recording Rat .logic,
      ofLogic 1000 1 0 0 ⟨Array.replicate 20 0 ++ #[1, 1, 1, 0, 0] ++ Array.replicate 11 1⟩ =
        .ok r ∧
      34 < r.count ∧
      Scan.scan (r.trace.levelAt 0) (Scan.seekSample (r.trace.levelAt 0) 34) 1 34
        (blockLength ⟨0x3fc00000⟩) =
        [⟨1, false⟩, ⟨20, true⟩, ⟨23, false⟩, ⟨25, true⟩, ⟨35, true⟩] :=
    ⟨_, rfl, by decide +kernel, by decide +kernel⟩
  obtain ⟨r, hfull, hcount, hscan⟩ := hruns
  have hreachable := reachable_ofLogic hfull
  have hpos : Binary32.zero < ⟨0x3fc00000⟩ := by decide
  have hfine : (⟨0x3fc00000⟩ : Binary32) < Detail.threshold := by decide
  refine ⟨r, hfull, hreachable, by decide, hcount, hpos, hfine, ?_⟩
  rw [(fine_edges hreachable (by decide) hcount (by decide) hpos hfine).1]
  exact congrArg (fun edges : List Edge => Except.ok edges.toArray) hscan

/-- A query for windows yields what a scan of the samples finds that knows no pyramid: from a
multiple of the window's length on it looks for the first window that changes or is not complete,
and reports the blocks that end at another level.  This is so for every level and every length of a
block, so it does not matter how they are read off a resolution. -/
theorem coarse_edges (h : r.Reachable) :
    (∀ (q : EdgeQuery) (level : Fin 10), q.detail = .windows level → q.last < r.count →
      let bit := r.trace.levelAt q.channel
      let seek := Scan.seekWindow bit r.count q.last q.block (Pyramid.window level)
      EdgeCursor.collect r.trace ⟨q, r.trace.removals, .opening⟩ #[] =
        .ok (Scan.scan bit seek q.first q.last q.block).toArray) ∧
    ∀ (first last channel : Nat) (spacing : Binary32), first ≤ last → last < r.count →
      Binary32.zero < spacing → spacing.isFinite → ¬ spacing < Detail.threshold →
      ∀ hchannel : channel < 64,
        let bit := r.trace.levelAt ⟨channel, hchannel⟩
        let block := blockLength spacing
        let seek := Scan.seekWindow bit r.count last block (Pyramid.window (levelFor spacing))
        r.trace.edges first last spacing channel =
          .ok (Scan.scan bit seek first last block).toArray := by
  constructor
  · intro q level hdetail hlast bit seek
    rw [h.summed.collect_opening hlast]
    simp only [Scan.edges, hdetail]
    rfl
  · intro first last channel spacing hrange hlast hpos hfinite hcoarse hchannel bit block seek
    have hdetail : Detail.ofResolution spacing = .windows (levelFor spacing) := if_neg hcoarse
    have hquery := Trace.edgeQuery_ok hrange hlast ⟨hpos, hfinite⟩ hchannel
    rw [h.summed.edges_ok hlast hquery]
    simp only [Scan.edges, hdetail]
    rfl

/-- A pulse of a single sample gets lost, a longer one is reported from the window on in which it
begins. -/
theorem coarse_edges_of_two_pulses :
    ∃ r : Recording Rat .logic,
      ofLogic 1000 1 0 0 ⟨Array.replicate 20 0 ++ #[1] ++ Array.replicate 40 0 ++
        Array.replicate 19 1 ++ Array.replicate 15 0⟩ = .ok r ∧
      r.Reachable ∧
      r.trace.edges 1 90 ⟨0x41880000⟩ 0 =
        .ok #[⟨1, false⟩, ⟨48, true⟩, ⟨90, false⟩, ⟨91, false⟩] := by
  -- The scan of the trace is evaluated; the answer is that scan.
  have hruns : ∃ r : Recording Rat .logic,
      ofLogic 1000 1 0 0 ⟨Array.replicate 20 0 ++ #[1] ++ Array.replicate 40 0 ++
        Array.replicate 19 1 ++ Array.replicate 15 0⟩ = .ok r ∧
      90 < r.count ∧
      Scan.scan (r.trace.levelAt 0) (Scan.seekWindow (r.trace.levelAt 0) r.count 90
        (blockLength ⟨0x41880000⟩) (Pyramid.window (levelFor ⟨0x41880000⟩))) 1 90
        (blockLength ⟨0x41880000⟩) =
        [⟨1, false⟩, ⟨48, true⟩, ⟨90, false⟩, ⟨91, false⟩] :=
    ⟨_, rfl, by decide +kernel, by decide +kernel⟩
  obtain ⟨r, hfull, hcount, hscan⟩ := hruns
  have hreachable := reachable_ofLogic hfull
  have hedges := (coarse_edges hreachable).2 1 90 0 ⟨0x41880000⟩ (by decide) hcount (by decide)
    (by decide) (by decide) (by decide)
  refine ⟨r, hfull, hreachable, hedges.trans ?_⟩
  exact congrArg (fun edges : List Edge => Except.ok edges.toArray) hscan

end Recording

end Waveform
