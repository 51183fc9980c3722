import Waveform.Proofs.EdgeSpacing

/-!
# Coarser queries

A coarse query invents no edges, although it looks at other samples than a fine one and at other places.
Each of its edges stands for one sample (`Edge.sampleIn`), at which the channel has the level of the
edge.  These samples come one after the other and their levels alternate, so between two of them the
channel changes at least once (`exists_change`).  A query at the resolution of one sample lists all
changes, and there are at least as many of them (`length_le_changeCount`).

## Key results

- `length_le_changeCount`: samples of alternating levels are no more than there are changes
- `Reported.samples`: the samples for which the edges of a scan stand
- `Recording.edges_coarsened`: a query against the one at the resolution of one sample
-/

namespace Waveform

/-- The sample for which an edge of a query stands: for a block its last sample, and else the first or
the last sample of the range. -/
def Edge.sampleIn (first last block : Nat) (e : Edge) : Nat :=
  if e.index = first then first else if e.index = last then last else e.index + block - 1

/-- The edge at the end of the range stands for the last sample. -/
theorem Edge.sampleIn_of_eq {first last block : Nat} {e : Edge} (hlo : first < last)
    (hlast : e.index = last) : e.sampleIn first last block = last := by
  rw [sampleIn, if_neg (by omega), if_pos hlast]

/-- An edge within the range stands for the last sample of its block. -/
theorem Edge.sampleIn_of_lt {first last block : Nat} {e : Edge} (hlo : first < e.index)
    (hhi : e.index < last) : e.sampleIn first last block = e.index + block - 1 := by
  rw [sampleIn, if_neg (by omega), if_neg (by omega)]

namespace Scan

variable {bit : Nat → Bool} {Starts : Nat → Prop}
variable {first last length : Nat} {level : Bool} {index : Nat} {edges : List Edge}

/-! ## Changes between samples -/

/-- Between two samples at different levels there is a change. -/
theorem exists_change {i j : Nat} (hlt : i < j) (hne : bit i ≠ bit j) :
    ∃ k, i < k ∧ k ≤ j ∧ bit k ≠ bit (k - 1) := by
  apply Classical.byContradiction
  intro hnone
  have hflips : ∀ k, i + 1 ≤ k → k < j + 1 → flips bit k = false := by
    intro k hlo hhi
    rw [flips, if_neg (by omega), bne_eq_false_iff_eq]
    exact Decidable.byContradiction fun hchange => hnone ⟨k, hlo, by omega, hchange⟩
  exact hne (eq_of_not_flips (Nat.succ_pos i) hflips (by omega) (Nat.lt_succ_self j)).symm

/-- The number of changes behind a sample, up to another one. -/
def changeCount (bit : Nat → Bool) (first last : Nat) : Nat :=
  (List.range' (first + 1) (last - first)).countP fun i => bit i != bit (i - 1)

/-- The changes in two stretches that meet add up. -/
theorem changeCount_add {i j : Nat} (hij : i ≤ j) (hj : j ≤ last) :
    changeCount bit i last = changeCount bit i j + changeCount bit j last := by
  have hsplit : List.range' (i + 1) (last - i) =
      List.range' (i + 1) (j - i) ++ List.range' (j + 1) (last - j) := by
    rw [show j + 1 = i + 1 + 1 * (j - i) by omega, List.range'_append]
    congr 1
    omega
  rw [changeCount, hsplit, List.countP_append]
  rfl

/-- Between two samples at different levels there is a change. -/
theorem changeCount_pos {i j : Nat} (hlt : i < j) (hne : bit i ≠ bit j) :
    0 < changeCount bit i j := by
  obtain ⟨k, hlo, hhi, hchange⟩ := exists_change hlt hne
  refine List.countP_pos_iff.2 ⟨k, List.mem_range'_1.2 (by omega), bne_iff_ne.2 hchange⟩

/-- There are no more samples of alternating levels than there are changes. -/
theorem length_le_changeCount {i : Nat} {samples : List Nat} (hi : i ≤ last)
    (hsamples : ∀ j ∈ samples, j ≤ last)
    (h : (i :: samples).IsChain fun i j => i < j ∧ bit i ≠ bit j) :
    samples.length ≤ changeCount bit i last := by
  induction samples generalizing i with
  | nil => exact Nat.zero_le _
  | cons j rest ih =>
    obtain ⟨⟨hlt, hne⟩, hrest⟩ := List.isChain_cons_cons.1 h
    have hj : j ≤ last := hsamples j List.mem_cons_self
    have hmore := ih hj (fun k hk => hsamples k (List.mem_cons_of_mem j hk)) hrest
    have hone := changeCount_pos hlt hne
    rw [changeCount_add (Nat.le_of_lt hlt) hj, List.length_cons]
    omega

/-! ## The samples for which edges stand -/

/-- An edge that was found in a range stands for a sample of the range that has its level. -/
theorem Reported.sampleIn_mem (h : Reported bit last length Starts level index edges)
    (hlength : 0 < length) (hfirst : first < index) {e : Edge} (he : e ∈ edges) :
    first < e.sampleIn first last length ∧ e.sampleIn first last length ≤ last ∧
      e.level = bit (e.sampleIn first last length) := by
  obtain ⟨hlo, rfl | ⟨hhi, hlevel, -⟩⟩ := h.mem he
  · have hrange : first < last := Nat.lt_of_lt_of_le hfirst hlo
    rw [Edge.sampleIn_of_eq hrange rfl]
    exact ⟨hrange, Nat.le_refl _, rfl⟩
  · rw [Edge.sampleIn_of_lt (by omega) (by omega)]
    exact ⟨by omega, by omega, hlevel⟩

/-- The samples come one after the other, and their levels alternate. -/
theorem Reported.samples (h : Reported bit last length Starts level index edges)
    (hlength : 0 < length) (hfirst : first < index) {i : Nat} (hi : i < index)
    (hbefore : bit i = level) :
    (i :: edges.map (Edge.sampleIn first last length)).IsChain
      fun i j => i < j ∧ bit i ≠ bit j := by
  -- Along the edges: each stands for a sample behind the one before, at another level.
  induction h generalizing i with
  | ended hlevel => exact .singleton i
  | closing hlevel hle =>
    rw [List.map_singleton, Edge.sampleIn_of_eq (Nat.lt_of_lt_of_le hfirst hle) rfl]
    exact .cons_cons ⟨by omega, fun hsame => hlevel (hsame.symm.trans hbefore)⟩ (.singleton _)
  | @block level index start edges hlevel hle hstart hstop rest ih =>
    have hlo : first < start := Nat.lt_of_lt_of_le hfirst hle
    have hhi : start < last := by omega
    have hsample : Edge.sampleIn first last length ⟨start, bit (start + length - 1)⟩ =
        start + length - 1 := Edge.sampleIn_of_lt hlo hhi
    rw [List.map_cons, hsample]
    refine .cons_cons ⟨by omega, fun hsame => hlevel (hsame.symm.trans hbefore)⟩ ?_
    exact ih (by omega) (by omega) rfl

end Scan

namespace Recording

variable {τ : Type} {r : Recording τ .logic} {first last channel : Nat} {spacing : Binary32}

/-- At the resolution of one sample a query lists all changes. -/
theorem Reachable.edges_single (h : r.Reachable) (hrange : first ≤ last) (hlast : last < r.count)
    (hchannel : channel < 64) :
    let bit := r.trace.levelAt ⟨channel, hchannel⟩
    r.trace.edges first last ⟨0x3f800000⟩ channel =
      .ok (⟨first, bit first⟩ ::
        (((List.range' (first + 1) (last - first)).filter fun i => bit i != bit (i - 1)).map
          (fun i => ⟨i, bit i⟩) ++ [⟨last + 1, bit last⟩])).toArray := by
  intro bit
  have hspacing : Binary32.zero < ⟨0x3f800000⟩ ∧ Binary32.isFinite ⟨0x3f800000⟩ := by decide
  have hblock : blockLength ⟨0x3f800000⟩ = 1 := by decide +kernel
  have hsingle := @Scan.edgesFrom_single bit last (bit first) (first + 1) (Nat.succ_pos first)
    (Nat.succ_le_succ hrange) rfl
  rw [Nat.add_sub_add_right] at hsingle
  rw [h.edges_ok hrange hlast hspacing hchannel, Scan.edges_eq, ← hsingle]
  simp only [hblock]
  rfl

/-- A query invents no edges.  It starts and ends as the one at the resolution of one sample does, and
has no more edges.  Each edge but the last stands for a sample of the range that has its level.  These
samples come one after the other, and between two of them the channel changes. -/
theorem edges_coarsened (h : r.Reachable) (hrange : first ≤ last) (hlast : last < r.count)
    (hchannel : channel < 64) (hpos : Binary32.zero < spacing) (hfinite : spacing.isFinite) :
    let bit := r.trace.levelAt ⟨channel, hchannel⟩
    let sample := Edge.sampleIn first last (blockLength spacing)
    ∃ coarse fine : List Edge,
      r.trace.edges first last spacing channel = .ok coarse.toArray ∧
      r.trace.edges first last ⟨0x3f800000⟩ channel = .ok fine.toArray ∧
      (coarse.head? = some ⟨first, bit first⟩ ∧ fine.head? = coarse.head?) ∧
      (coarse.getLast? = some ⟨last + 1, bit last⟩ ∧ fine.getLast? = coarse.getLast?) ∧
      coarse.length ≤ fine.length ∧
      (∀ e ∈ coarse.dropLast, first ≤ sample e ∧ sample e ≤ last ∧ e.level = bit (sample e)) ∧
      (coarse.dropLast.map sample).IsChain
        (fun i j => i < j ∧ ∃ k, i < k ∧ k ≤ j ∧ bit k ≠ bit (k - 1)) := by
  intro bit sample
  obtain ⟨inner, hcoarse, hinner⟩ := h.exists_reported hrange hlast hchannel hpos hfinite
  have hfine := h.edges_single hrange hlast hchannel
  have hblock : 0 < blockLength spacing := Nat.le_max_left _ _
  -- The opening edge stands for the first sample itself.
  have hopening : sample ⟨first, bit first⟩ = first := if_pos rfl
  have hsamples := hinner.samples hblock (Nat.lt_succ_self first) (Nat.lt_succ_self first) rfl
  have hmem {e : Edge} (he : e ∈ inner) :=
    hinner.sampleIn_mem hblock (Nat.lt_succ_self first) he
  have hdrop : (⟨first, bit first⟩ :: (inner ++ [⟨last + 1, bit last⟩]) : List Edge).dropLast =
      ⟨first, bit first⟩ :: inner := by
    rw [← List.cons_append, List.dropLast_concat]
  -- Two samples at different levels have a change between them, so there are as many changes as
  -- edges.
  have hfewer : inner.length ≤ Scan.changeCount bit first last := by
    have hle := Scan.length_le_changeCount hrange (fun j hj => ?_) hsamples
    · rwa [List.length_map] at hle
    · obtain ⟨e, he, rfl⟩ := List.mem_map.1 hj
      exact (hmem he).2.1
  refine ⟨_, _, hcoarse, hfine, ⟨rfl, rfl⟩, ⟨?_, ?_⟩, ?_, ?_, ?_⟩
  · rw [← List.cons_append, List.getLast?_concat]
  · rw [← List.cons_append, ← List.cons_append, List.getLast?_concat, List.getLast?_concat]
  · simp only [List.length_cons, List.length_append, List.length_map, ← List.countP_eq_length_filter]
    exact Nat.succ_le_succ (Nat.succ_le_succ hfewer)
  · -- The opening edge, and those reported.
    intro e he
    rw [hdrop] at he
    rcases List.mem_cons.1 he with rfl | he
    · rw [hopening]
      exact ⟨Nat.le_refl _, hrange, rfl⟩
    · obtain ⟨hlo, hhi, hlevel⟩ := hmem he
      exact ⟨Nat.le_of_lt hlo, hhi, hlevel⟩
  · rw [hdrop, List.map_cons, hopening]
    exact hsamples.imp fun i j hnext => ⟨hnext.1, Scan.exists_change hnext.1 hnext.2⟩

/-- At 17 samples one of two pulses gets lost, and the other one is seen at its fourth sample. -/
theorem edges_coarsened_to_one_pulse :
    ∃ (r : Recording Rat .logic) (coarse fine : List Edge),
      ofLogic 1000 1 0 0 ⟨Array.replicate 20 0 ++ #[1] ++ Array.replicate 40 0 ++
        Array.replicate 19 1 ++ Array.replicate 15 0⟩ = .ok r ∧
      r.Reachable ∧ 1 ≤ 90 ∧ 90 < r.count ∧ Binary32.zero < ⟨0x41880000⟩ ∧
      (⟨0x41880000⟩ : Binary32).isFinite ∧
      r.trace.edges 1 90 ⟨0x41880000⟩ 0 = .ok coarse.toArray ∧
      r.trace.edges 1 90 ⟨0x3f800000⟩ 0 = .ok fine.toArray ∧
      coarse = [⟨1, false⟩, ⟨48, true⟩, ⟨90, false⟩, ⟨91, false⟩] ∧
      fine = [⟨1, false⟩, ⟨20, true⟩, ⟨21, false⟩, ⟨61, true⟩, ⟨80, false⟩, ⟨91, false⟩] ∧
      coarse.dropLast.map (Edge.sampleIn 1 90 17) = [1, 64, 90] ∧
      coarse.length ≤ fine.length := by
  -- Both scans of the trace are evaluated; that the coarse one is no longer follows.
  have hruns : ∃ r : Recording Rat .logic,
      ofLogic 1000 1 0 0 ⟨Array.replicate 20 0 ++ #[1] ++ Array.replicate 40 0 ++
        Array.replicate 19 1 ++ Array.replicate 15 0⟩ = .ok r ∧
      90 < r.count ∧
      Scan.scan (r.trace.levelAt 0) (Scan.seekWindow (r.trace.levelAt 0) r.count 90
        (blockLength ⟨0x41880000⟩) (Pyramid.window (levelFor ⟨0x41880000⟩))) 1 90
        (blockLength ⟨0x41880000⟩) = [⟨1, false⟩, ⟨48, true⟩, ⟨90, false⟩, ⟨91, false⟩] ∧
      Scan.scan (r.trace.levelAt 0) (Scan.seekSample (r.trace.levelAt 0) 90) 1 90
        (blockLength ⟨0x3f800000⟩) =
        [⟨1, false⟩, ⟨20, true⟩, ⟨21, false⟩, ⟨61, true⟩, ⟨80, false⟩, ⟨91, false⟩] :=
    ⟨_, rfl, by decide +kernel, by decide +kernel, by decide +kernel⟩
  obtain ⟨r, hfull, hcount, hscan, hscanFine⟩ := hruns
  have hreachable := reachable_ofLogic hfull
  have hpos : Binary32.zero < ⟨0x41880000⟩ := by decide
  have hfinite : (⟨0x41880000⟩ : Binary32).isFinite := by decide
  have hone : Binary32.zero < ⟨0x3f800000⟩ ∧ Binary32.isFinite ⟨0x3f800000⟩ := by decide
  have hedges := hreachable.edges_of_scan (by decide) hcount ⟨hpos, hfinite⟩ (by decide) hscan
  have hedgesFine := hreachable.edges_of_scan (by decide) hcount hone (by decide) hscanFine
  obtain ⟨coarse, fine, hcoarse, hfine, -, -, hfewer, -⟩ :=
    edges_coarsened hreachable (by decide : 1 ≤ 90) hcount (by decide : 0 < 64) hpos hfinite
  have hlist : coarse = _ := Array.toList_inj.2 (Except.ok.inj (hcoarse.symm.trans hedges))
  have hlistFine : fine = _ := Array.toList_inj.2 (Except.ok.inj (hfine.symm.trans hedgesFine))
  refine ⟨r, coarse, fine, hfull, hreachable, by decide, hcount, hpos, hfinite, hcoarse, hfine, hlist,
    hlistFine, ?_, hfewer⟩
  rw [hlist]
  rfl

end Recording

end Waveform
