import Mathlib.Data.List.Chain
import Waveform.Proofs.EdgeQueries

/-!
# The spacing of edges

Between the edge that opens a query and the one behind its range lie the blocks that change the level,
and an edge at the end of the range if it ends at another level than the last block.  `Scan.Reported`
has a rule for each of these.  What can be said of the edges of a query is read off the rules: where
they start, how far apart they are, and which level they carry.

## Key results

- `Scan.exists_reported`: what a scan finds follows the rules
- `Scan.Reported.mem`, `Scan.Reported.spaced`, `Scan.Reported.levels`: one edge, two neighbours, the levels
- `Trace.Summed.exists_reported`: the edges of a query, for single samples and for windows alike
- `Recording.edges_spaced`: the edges of a query keep the distance that was asked for
-/

namespace Waveform

namespace Scan

variable {bit : Nat → Bool} {seek : Bool → Nat → Option Nat} {Starts : Nat → Prop}
variable {last length : Nat} {level : Bool} {index : Nat} {edges : List Edge}

/-- The edges of a scan from an index on, without the one behind the range.  The level is the one before
the index. -/
inductive Reported (bit : Nat → Bool) (last length : Nat) (Starts : Nat → Prop) :
    Bool → Nat → List Edge → Prop where
  /-- The range ends at the level that it was at. -/
  | ended {level : Bool} {index : Nat} (hlevel : bit last = level) :
      Reported bit last length Starts level index []
  /-- The range ends at another level. -/
  | closing {level : Bool} {index : Nat} (hlevel : bit last ≠ level) (hle : index ≤ last) :
      Reported bit last length Starts level index [⟨last, bit last⟩]
  /-- A block ends at another level. -/
  | block {level : Bool} {index start : Nat} {edges : List Edge}
      (hlevel : bit (start + length - 1) ≠ level) (hle : index ≤ start) (hstart : Starts start)
      (hstop : start + length ≤ last)
      (rest : Reported bit last length Starts (bit (start + length - 1)) (start + length) edges) :
      Reported bit last length Starts level index (⟨start, bit (start + length - 1)⟩ :: edges)

/-- What is reported from a later sample on may be reported from an earlier one on. -/
theorem Reported.of_le {index' : Nat} (hle : index ≤ index')
    (h : Reported bit last length Starts level index' edges) :
    Reported bit last length Starts level index edges := by
  cases h with
  | ended hlevel => exact .ended hlevel
  | closing hlevel hle' => exact .closing hlevel (Nat.le_trans hle hle')
  | block hlevel hle' hstart hstop rest =>
    exact .block hlevel (Nat.le_trans hle hle') hstart hstop rest

/-- A scan that knows the level before the index follows the rules. -/
theorem exists_reported (hseek : Forward seek) (hlength : 0 < length)
    (hstarts : ∀ level index start, 0 < index → bit (index - 1) = level →
      seek level index = some start → Starts start)
    (hpos : 0 < index) (hle : index ≤ last + 1) (hbefore : bit (index - 1) = level) :
    ∃ inner, edgesFrom bit seek last length level index = inner ++ [⟨last + 1, bit last⟩] ∧
      Reported bit last length Starts level index inner := by
  induction level, index using @edgesFrom_induction bit seek last length hseek hlength with
  | ended level index _ hedges =>
    -- The scan is over: the answer closes at the level of the last edge, or with one edge more.
    by_cases hlevel : level = bit last
    · exact ⟨[], hedges.trans (if_pos hlevel), .ended hlevel.symm⟩
    · have hin : index ≠ last + 1 := by
        rintro rfl
        exact hlevel hbefore.symm
      exact ⟨[⟨last, bit last⟩], hedges.trans (if_neg hlevel),
        .closing (Ne.symm hlevel) (by omega)⟩
  | passed level index b hb hsame hedges ih =>
    obtain ⟨hstart, hstop, hlast, hlevel⟩ := nextBlock_eq_some hb
    have hlo := hseek _ _ _ hstart
    obtain ⟨inner, hrest, hinner⟩ := ih (by omega) (by omega) (hlevel.symm.trans hsame)
    exact ⟨inner, hedges.trans hrest, hinner.of_le (by omega)⟩
  -- A block that is reported stands before all that are reported behind it.
  | reported level index b hb hchange hedges ih =>
    obtain ⟨hstart, hstop, hlast, hlevel⟩ := nextBlock_eq_some hb
    have hlo := hseek _ _ _ hstart
    obtain ⟨inner, hrest, hinner⟩ := ih (by omega) (by omega) hlevel.symm
    refine ⟨⟨b.start, b.level⟩ :: inner, by rw [hedges, hrest]; rfl, ?_⟩
    rw [hlevel, hstop] at hinner hchange ⊢
    exact .block hchange hlo (hstarts _ _ _ hpos hbefore hstart) (hstop ▸ hlast) hinner

/-! ## What the rules say -/

/-- Every edge is a block within the range, or closes the range. -/
theorem Reported.mem (h : Reported bit last length Starts level index edges) {e : Edge}
    (he : e ∈ edges) :
    index ≤ e.index ∧ (e = ⟨last, bit last⟩ ∨
      e.index + length ≤ last ∧ e.level = bit (e.index + length - 1) ∧ Starts e.index) := by
  induction h with
  | ended hlevel => exact absurd he List.not_mem_nil
  | closing hlevel hle =>
    obtain rfl := List.mem_singleton.1 he
    exact ⟨hle, .inl rfl⟩
  | block hlevel hle hstart hstop rest ih =>
    rcases List.mem_cons.1 he with rfl | he
    · exact ⟨hle, .inr ⟨hstop, rfl, hstart⟩⟩
    · obtain ⟨hlo, hkind⟩ := ih he
      exact ⟨by omega, hkind⟩

/-- The next edge starts behind the block. -/
theorem Reported.spaced (h : Reported bit last length Starts level index edges) :
    edges.IsChain fun e e' => e.index + length ≤ e'.index := by
  induction h with
  | ended hlevel => exact .nil
  | closing hlevel hle => exact .singleton _
  | block hlevel hle hstart hstop rest ih =>
    exact List.isChain_cons.2 ⟨fun e he => (rest.mem (List.mem_of_mem_head? he)).1, ih⟩

/-- The levels of the edges alternate, up to the level at the end of the range. -/
theorem Reported.levels (h : Reported bit last length Starts level index edges) (i : Nat) :
    (⟨i, level⟩ :: edges).IsChain (fun e e' => e.level ≠ e'.level) ∧
      (edges.getLastD ⟨i, level⟩).level = bit last := by
  induction h generalizing i with
  | ended hlevel => exact ⟨.singleton _, hlevel.symm⟩
  | closing hlevel hle => exact ⟨.cons_cons (Ne.symm hlevel) (.singleton _), rfl⟩
  | @block level index start edges hlevel hle hstart hstop rest ih =>
    obtain ⟨hchain, hlast⟩ := ih start
    exact ⟨.cons_cons (Ne.symm hlevel) hchain, by rwa [List.getLastD_cons]⟩

/-! ## Where blocks start -/

/-- Where a block may start: at a change of the channel, or with a window. -/
def StartsBlock (bit : Nat → Bool) : Detail → Nat → Prop
  | .samples, i => 0 < i ∧ bit (i - 1) ≠ bit i
  | .windows n, i => Pyramid.window n ∣ i

/-- In a search sample by sample a block starts with a change. -/
theorem startsBlock_of_seekSample {start : Nat} (hpos : 0 < index)
    (hbefore : bit (index - 1) = level) (h : seekSample bit last level index = some start) :
    StartsBlock bit .samples start := by
  obtain ⟨hle, -, hchange, hstays⟩ := firstChange_eq_some_iff.1 h
  have hlevel : bit (start - 1) = level := by
    by_cases heq : start = index
    · rw [heq]
      exact hbefore
    · exact hstays (start - 1) (by omega) (by omega)
  exact ⟨by omega, fun hsame => hchange (hsame.symm.trans hlevel)⟩

/-- A search window by window ends at the start of a window. -/
theorem dvd_firstWindow {window count start : Nat} (h : window ∣ start) (n : Nat) :
    window ∣ firstWindow bit count window start n := by
  induction n generalizing start with
  | zero => exact h
  | succ n ih =>
    rw [firstWindow]
    split
    · exact h
    · exact ih (Nat.dvd_add h (Nat.dvd_refl window))

/-- In a search window by window a block starts with a window. -/
theorem dvd_of_seekWindow {window count start : Nat}
    (h : seekWindow bit count last length window level index = some start) : window ∣ start := by
  have halign : window ∣ (index + window - 1) / window * window := Nat.dvd_mul_left _ _
  simp only [seekWindow] at h
  split at h
  · cases h
  · split at h
    · cases h
      exact dvd_firstWindow halign _
    · cases h
      exact halign

end Scan

/-! ## The edges of a query -/

/-- What a query yields follows the rules. -/
theorem Scan.exists_reported_edges (t : Trace .logic) (q : EdgeQuery) :
    let bit := t.levelAt q.channel
    ∃ inner, edges t q = ⟨q.first, bit q.first⟩ :: (inner ++ [⟨q.last + 1, bit q.last⟩]) ∧
      Reported bit q.last q.block (StartsBlock bit q.detail) (bit q.first) (q.first + 1) inner := by
  intro bit
  -- Where the search lets a block start.
  have hstarts : ∀ level index start, 0 < index → bit (index - 1) = level →
      t.seek q level index = some start → StartsBlock bit q.detail start := by
    intro level index start hpos hbefore hseek
    unfold Trace.seek at hseek
    cases hdetail : q.detail with
    | samples =>
      rw [hdetail] at hseek
      exact startsBlock_of_seekSample hpos hbefore hseek
    | windows n =>
      rw [hdetail] at hseek
      exact dvd_of_seekWindow hseek
  obtain ⟨inner, hedges, hinner⟩ :=
    exists_reported (t.forward_seek q) q.block_pos hstarts (Nat.succ_pos q.first)
      (Nat.succ_le_succ q.ordered) rfl
  exact ⟨inner, (edges_eq t q).trans (congrArg (_ :: ·) hedges), hinner⟩

namespace Recording

variable {τ : Type} {r : Recording τ .logic} {first last channel : Nat} {spacing : Binary32}

/-- Whatever was done to a recording, a query is answered by edges that follow the rules. -/
theorem Reachable.exists_reported (h : r.Reachable) (hrange : first ≤ last) (hlast : last < r.count)
    (hchannel : channel < 64) (hpos : Binary32.zero < spacing) (hfinite : spacing.isFinite) :
    let bit := r.trace.levelAt ⟨channel, hchannel⟩
    ∃ inner, r.trace.edges first last spacing channel =
        .ok (⟨first, bit first⟩ :: (inner ++ [⟨last + 1, bit last⟩])).toArray ∧
      Scan.Reported bit last (blockLength spacing) (Scan.StartsBlock bit (.ofResolution spacing))
        (bit first) (first + 1) inner := by
  intro bit
  obtain ⟨inner, hedges, hinner⟩ := Scan.exists_reported_edges r.trace
    ⟨first, last, ⟨channel, hchannel⟩, .ofResolution spacing, blockLength spacing, hrange,
      Trace.bounded_of_lt_count hlast, Nat.le_max_left _ _⟩
  exact ⟨inner, by rw [h.edges_ok hrange hlast ⟨hpos, hfinite⟩ hchannel, hedges], hinner⟩

/-- The edges of a query open with the level at its first sample and end behind its last sample with
the level there.  In between their levels alternate, and they keep at least the length of a block from
each other.  Each of them is a block that lies within the range and carries the level of its last
sample, starting at a change in a query for single samples and with a window in one for windows, or
else the last sample of the range. -/
theorem edges_spaced (h : r.Reachable) (hrange : first ≤ last) (hlast : last < r.count)
    (hchannel : channel < 64) (hpos : Binary32.zero < spacing) (hfinite : spacing.isFinite) :
    let bit := r.trace.levelAt ⟨channel, hchannel⟩
    let block := blockLength spacing
    let opening : Edge := ⟨first, bit first⟩
    let ending : Edge := ⟨last + 1, bit last⟩
    ∃ inner : List Edge,
      r.trace.edges first last spacing channel = .ok (opening :: (inner ++ [ending])).toArray ∧
      (opening :: (inner ++ [ending])).Pairwise (fun e e' => e.index < e'.index) ∧
      (opening :: inner).IsChain (fun e e' => e.level ≠ e'.level) ∧
      (inner.getLastD opening).level = ending.level ∧
      inner.IsChain (fun e e' => e.index + block ≤ e'.index) ∧
      ∀ e ∈ inner, e = ⟨last, bit last⟩ ∨
        e.index + block ≤ last ∧ e.level = bit (e.index + block - 1) ∧
          (spacing < Detail.threshold → 0 < e.index ∧ bit (e.index - 1) ≠ bit e.index) ∧
          (¬ spacing < Detail.threshold → Pyramid.window (levelFor spacing) ∣ e.index) := by
  intro bit block opening ending
  obtain ⟨inner, hedges, hinner⟩ := h.exists_reported hrange hlast hchannel hpos hfinite
  obtain ⟨halternate, hfinal⟩ := hinner.levels first
  have hblock : 0 < block := Nat.le_max_left _ _
  -- Spaced edges are in order, as a block has samples.
  have hincreasing : inner.Pairwise fun e e' => e.index < e'.index := by
    have hnext : inner.IsChain fun e e' => e.index < e'.index :=
      hinner.spaced.imp fun e e' hle => by
        have : e.index + block ≤ e'.index := hle
        omega
    exact List.isChain_iff_pairwise.1 hnext
  have hbounds : ∀ e ∈ inner, first < e.index ∧ e.index ≤ last := by
    intro e he
    obtain ⟨hlo, rfl | ⟨hhi, -⟩⟩ := hinner.mem he
    · exact ⟨hlo, Nat.le_refl _⟩
    · exact ⟨hlo, by omega⟩
  -- What was reported holds of the edges between the first and the last.
  refine ⟨inner, hedges, ?_, halternate, hfinal, hinner.spaced, fun e he => ?_⟩
  · rw [List.pairwise_cons, List.pairwise_append]
    refine ⟨fun e he => ?_, hincreasing, List.pairwise_singleton _ _, fun e he e' he' => ?_⟩
    · rcases List.mem_append.1 he with he | he
      · exact (hbounds e he).1
      · obtain rfl := List.mem_singleton.1 he
        exact Nat.lt_succ_of_le hrange
    · obtain rfl := List.mem_singleton.1 he'
      exact Nat.lt_succ_of_le (hbounds e he).2
  · -- The closing edge, or one that starts a block.
    obtain ⟨-, hclosing | ⟨hstop, hlevel, hstart⟩⟩ := hinner.mem he
    · exact .inl hclosing
    · refine .inr ⟨hstop, hlevel, fun hfine => ?_, fun hcoarse => ?_⟩
      · rwa [Detail.ofResolution, if_pos hfine] at hstart
      · rwa [Detail.ofResolution, if_neg hcoarse] at hstart

/-- Two blocks start with a window and not where the channel changes, the third edge closes the range. -/
theorem edges_spaced_up_to_closing :
    ∃ (r : Recording Rat .logic) (inner : List Edge),
      ofLogic 1000 1 0 0 ⟨Array.replicate 20 0 ++ Array.replicate 20 1 ++ Array.replicate 42 0 ++
        Array.replicate 6 1⟩ = .ok r ∧
      r.Reachable ∧ 0 ≤ 87 ∧ 87 < r.count ∧ Binary32.zero < ⟨0x41800000⟩ ∧
      (⟨0x41800000⟩ : Binary32).isFinite ∧ ¬ (⟨0x41800000⟩ : Binary32) < Detail.threshold ∧
      r.trace.edges 0 87 ⟨0x41800000⟩ 0 = .ok (⟨0, false⟩ :: (inner ++ [⟨88, true⟩])).toArray ∧
      inner = [⟨16, true⟩, ⟨32, false⟩, ⟨87, true⟩] ∧
      inner.IsChain (fun e e' => e.index + 16 ≤ e'.index) := by
  -- The scan of the trace is evaluated; the spacing follows from the theorem.
  have hruns : ∃ r : Recording Rat .logic,
      ofLogic 1000 1 0 0 ⟨Array.replicate 20 0 ++ Array.replicate 20 1 ++ Array.replicate 42 0 ++
        Array.replicate 6 1⟩ = .ok r ∧
      87 < r.count ∧
      Scan.scan (r.trace.levelAt 0) (Scan.seekWindow (r.trace.levelAt 0) r.count 87
        (blockLength ⟨0x41800000⟩) (Pyramid.window (levelFor ⟨0x41800000⟩))) 0 87
        (blockLength ⟨0x41800000⟩) =
        [⟨0, false⟩, ⟨16, true⟩, ⟨32, false⟩, ⟨87, true⟩, ⟨88, true⟩] :=
    ⟨_, rfl, by decide +kernel, by decide +kernel⟩
  obtain ⟨r, hfull, hcount, hscan⟩ := hruns
  have hreachable := reachable_ofLogic hfull
  have hpos : Binary32.zero < ⟨0x41800000⟩ := by decide
  have hfinite : (⟨0x41800000⟩ : Binary32).isFinite := by decide
  have hcoarse : ¬ (⟨0x41800000⟩ : Binary32) < Detail.threshold := by decide
  have hedges := hreachable.edges_of_scan (Nat.zero_le 87) hcount ⟨hpos, hfinite⟩ (by decide) hscan
  obtain ⟨inner, hsame, -, -, -, hspaced, -⟩ :=
    edges_spaced hreachable (Nat.zero_le 87) hcount (by decide : 0 < 64) hpos hfinite
  -- The edges are known, so the inner ones are what is between the first and the last of them.
  have hlist := Array.toList_inj.2 (Except.ok.inj (hsame.symm.trans hedges))
  have hrest : inner ++ [_] = [⟨16, true⟩, ⟨32, false⟩, ⟨87, true⟩] ++ [⟨88, true⟩] :=
    (List.cons.inj hlist).2
  obtain ⟨hinner, -⟩ := List.append_inj' hrest rfl
  have hblock : blockLength ⟨0x41800000⟩ = 16 := by decide +kernel
  simp only [hblock] at hspaced
  exact ⟨r, inner, hfull, hreachable, by decide, hcount, hpos, hfinite, hcoarse,
    hedges.trans (by rw [hinner]; rfl), hinner, hspaced⟩

end Recording

end Waveform
