import Waveform.Logic.EdgeSearch

/-!
# Reading edges one by one

An `EdgeCursor` hands out the edges of a query one at a time.  It holds no trace: each step is given
the trace as it is then, so samples may be appended between two steps.  Once samples were removed
the cursor hands out nothing more.

`Trace.edges` runs a cursor to its end.  Each edge that is handed out brings the end closer
(`remaining_next`).
-/

namespace Waveform

/-- The level that a channel has from an index on. -/
structure Edge where
  index : Nat
  level : Bool
deriving DecidableEq

/-- What a cursor does next. -/
inductive EdgePhase where
  /-- Report the level at the first sample of the range. -/
  | opening
  /-- Search from an index on, the level before it being the one given. -/
  | searching (index : Nat) (level : Bool)
  /-- Report the level once more, for the index after the range. -/
  | ending (level : Bool)
  /-- Nothing. -/
  | done

/-- A reader of the edges of a query. -/
structure EdgeCursor where
  query : EdgeQuery
  removals : Nat
  phase : EdgePhase

/-- The next block whose level differs from the one given.  Blocks that end at the level at which
they were entered are passed over. -/
def Trace.search (t : Trace .logic) (q : EdgeQuery) (level : Bool) (index : Nat) :
    Except Violation (Option EdgeBlock) :=
  match _ : t.nextBlock q level index with
  | .error v => .error v
  | .ok none => .ok none
  | .ok (some b) => if b.level = level then t.search q level b.stop else .ok (some b)
termination_by q.last + 1 - index
decreasing_by
  have := nextBlock_bounds ‹_›
  omega

/-- A block that is found lies behind the place from which it is looked for, and in the range. -/
theorem Trace.search_bounds {t : Trace .logic} {q : EdgeQuery} {level : Bool} {index : Nat}
    {b : EdgeBlock} (h : t.search q level index = .ok (some b)) :
    index < b.stop ∧ b.stop ≤ q.last := by
  fun_induction Trace.search t q level index with
  | case1 => exact nomatch h
  | case2 => exact nomatch h
  | case3 _ _ hb _ ih =>
    have := nextBlock_bounds hb
    have := ih h
    omega
  | case4 _ _ hb => cases h; exact nextBlock_bounds hb

namespace EdgeCursor

/-- The edge after the range, with which every query ends. -/
def finish (c : EdgeCursor) (level : Bool) : Except Violation (Option Edge × EdgeCursor) := do
  let beyond ← Word.add c.query.last 1
  return (some ⟨beyond, level⟩, { c with phase := .done })

/-- The next edge, and the cursor after it. -/
def next (t : Trace .logic) (c : EdgeCursor) : Except Violation (Option Edge × EdgeCursor) :=
  let q := c.query
  -- The indices of the query mean nothing once samples have moved.
  if t.removals ≠ c.removals then return (none, { c with phase := .done })
  else
    match c.phase with
    | .opening => do
      let level ← t.bit q.channel q.first
      let beyond ← Word.add q.first 1
      return (some ⟨q.first, level⟩, { c with phase := .searching beyond level })
    | .searching index level => do
      match ← t.search q level index with
      | some b => return (some ⟨b.start, b.level⟩, { c with phase := .searching b.stop b.level })
      | none =>
        -- The blocks are over, but the range may end at another level than the last of them.
        let final ← t.bit q.channel q.last
        if final = level then c.finish level
        else return (some ⟨q.last, final⟩, { c with phase := .ending final })
    | .ending level => c.finish level
    | .done => return (none, c)

/-- A bound on the number of edges still to come. -/
def remaining (c : EdgeCursor) : Nat :=
  match c.phase with
  | .opening => c.query.last - c.query.first + 3
  | .searching index _ => c.query.last + 1 - index + 2
  | .ending _ => 1
  | .done => 0

/-- Once the end of the range is reported nothing remains. -/
theorem remaining_finish {c c' : EdgeCursor} {level : Bool} {e : Option Edge}
    (h : c.finish level = .ok (e, c')) : c'.remaining = 0 := by
  simp only [finish, bind, Except.bind, pure, Except.pure] at h
  split at h
  · exact nomatch h
  · cases h
    rfl

/-- Each edge brings the end closer. -/
theorem remaining_next {t : Trace .logic} {c c' : EdgeCursor} {e : Edge}
    (h : c.next t = .ok (some e, c')) : c'.remaining < c.remaining := by
  simp only [next, bind, Except.bind, pure, Except.pure] at h
  split at h
  · exact nomatch h
  · split at h
    · rename_i hphase
      split at h
      · exact nomatch h
      · split at h
        · exact nomatch h
        · rename_i beyond hbeyond
          have := (Word.add_eq_ok hbeyond).2
          cases h
          simp only [remaining, hphase]
          omega
    · rename_i index level hphase
      split at h
      · exact nomatch h
      · split at h
        · rename_i b hb
          have := Trace.search_bounds hb
          cases h
          simp only [remaining, hphase]
          omega
        · split at h
          · exact nomatch h
          · split at h
            · rw [remaining_finish h]
              simp only [remaining, hphase]
              omega
            · cases h
              simp only [remaining, hphase]
              omega
    · rename_i level hphase
      rw [remaining_finish h]
      simp only [remaining, hphase]
      omega
    · exact nomatch h

/-- Appends all further edges to those given. -/
def collect (t : Trace .logic) (c : EdgeCursor) (edges : Array Edge) :
    Except Violation (Array Edge) :=
  match _ : c.next t with
  | .error v => .error v
  | .ok (none, _) => .ok edges
  | .ok (some e, c') => collect t c' (edges.push e)
termination_by c.remaining
decreasing_by exact remaining_next ‹_›

end EdgeCursor

namespace Trace

/-- The index behind a sample of a trace fits in 64 bits. -/
theorem bounded_of_lt_count {t : Trace .logic} {last : Nat} (h : last < t.count) :
    last + 1 < Word.limit := by
  have hcount : t.count < Packed.byteLimit := t.samples.count_lt
  unfold Packed.byteLimit at hcount
  unfold Word.limit
  omega

/-- The query for the edges of a channel from the sample `first` to the sample `last`, both
included. -/
def edgeQuery (t : Trace .logic) (first last : Nat) (spacing : Binary32) (channel : Nat) :
    Except Violation EdgeQuery :=
  if hl : last < t.count then
    if ho : first ≤ last then
      if Binary32.zero < spacing ∧ spacing.isFinite then
        if hc : channel < 64 then
          .ok {
            first, last, channel := ⟨channel, hc⟩
            detail := .ofResolution spacing
            block := blockLength spacing
            ordered := ho
            bounded := bounded_of_lt_count hl
            block_pos := Nat.le_max_left _ _ }
        else .error (.noSuchChannel channel)
      else .error (.edgeSpacing spacing)
    else .error (.invertedEdges first last)
  else .error (.edgesPastEnd last)

/-- A cursor over the edges of a channel from the sample `first` to the sample `last`, both
included. -/
def openEdges (t : Trace .logic) (first last : Nat) (spacing : Binary32) (channel : Nat) :
    Except Violation EdgeCursor := do
  return ⟨← t.edgeQuery first last spacing channel, t.removals, .opening⟩

/-- Appends the edges of a channel from the sample `first` to the sample `last` to those given. -/
def edgesInto (t : Trace .logic) (edges : Array Edge) (first last : Nat) (spacing : Binary32)
    (channel : Nat) : Except Violation (Array Edge) := do
  (← t.openEdges first last spacing channel).collect t edges

/-- The edges of a channel from the sample `first` to the sample `last`. -/
def edges (t : Trace .logic) (first last : Nat) (spacing : Binary32) (channel : Nat) :
    Except Violation (Array Edge) :=
  t.edgesInto #[] first last spacing channel

end Trace

end Waveform
