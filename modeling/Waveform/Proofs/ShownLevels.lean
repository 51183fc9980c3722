import Waveform.Proofs.EdgeSpacing
import Waveform.Proofs.GrowingScan

/-!
# Levels that are shown

Read as a picture, a list of edges shows at each sample the level of the last edge up to there
(`shownAt`).  A coarse query leaves short stretches of a level out.  From before a stretch the search for
the next block leads only so far into it (`Scan.Reaches`), and a stretch that is longer than that by a
block holds the last sample of the block that is found there, so it is shown at one sample at least.

A window is no longer than a block at most resolutions, but not at all: the level of a query is read off a
rounded logarithm, and just below a power of 16 it may be one level too coarse.

## Key results

- `Scan.exists_shown`: a scan shows the stretches that are long enough for its search
- `Scan.reaches_seekSample`, `Scan.reaches_seekWindow`: how far the two kinds of search lead
- `Recording.long_levels_shown`: which stretches a query shows
- `Recording.long_level_hidden`: a stretch of nearly two blocks that no edge shows
-/

namespace Waveform

/-- The level that edges show at a sample: that of the last one that does not lie behind it. -/
def shownAt (edges : List Edge) (i : Nat) : Option Bool :=
  (edges.filter fun e => e.index ≤ i).getLast?.map Edge.level

/-- Before the first edge no level is shown. -/
theorem shownAt_of_lt {edges : List Edge} {i : Nat} (h : ∀ e ∈ edges, i < e.index) :
    shownAt edges i = none := by
  have hnone : edges.filter (fun e => e.index ≤ i) = [] :=
    List.filter_eq_nil_iff.2 fun e he => by simpa using h e he
  rw [shownAt, hnone]
  rfl

/-- Before the first edge the level is the one that was shown before all edges. -/
theorem getD_shownAt_of_lt {edges : List Edge} {i : Nat} {level : Bool}
    (h : ∀ e ∈ edges, i < e.index) : (shownAt edges i).getD level = level := by
  rw [shownAt_of_lt h, Option.getD_none]

/-- From an edge on its level is shown, up to the next one. -/
theorem shownAt_cons_of_le {e : Edge} {i : Nat} (h : e.index ≤ i) (edges : List Edge) :
    shownAt (e :: edges) i = some ((shownAt edges i).getD e.level) := by
  rw [shownAt, List.filter_cons_of_pos (by simpa using h), List.getLast?_cons, Option.map_some,
    shownAt]
  cases (edges.filter fun e => e.index ≤ i).getLast? <;> rfl

/-- Between an edge and those behind it the level of that edge is shown. -/
theorem shownAt_cons_of_lt {e : Edge} {edges : List Edge} {i : Nat} (hle : e.index ≤ i)
    (hlt : ∀ e' ∈ edges, i < e'.index) : shownAt (e :: edges) i = some e.level := by
  rw [shownAt_cons_of_le hle, shownAt_of_lt hlt, Option.getD_none]

/-- How many samples behind the start of a stretch a search may lead. -/
def Detail.delay : Detail → Nat
  | .samples => 0
  | .windows n => Pyramid.window n - 1

namespace Scan

variable {bit : Nat → Bool} {seek : Bool → Nat → Option Nat}
variable {last length delay : Nat} {level : Bool} {index : Nat}

/-! ## How far a search leads -/

/-- From before a stretch at another level the search leads to a place that is less than `delay` samples
behind its start, if a block fits in from any such place. -/
def Reaches (bit : Nat → Bool) (seek : Bool → Nat → Option Nat) (last length delay : Nat) : Prop :=
  ∀ level index first, index ≤ first → first + delay + length ≤ last + 1 →
    (∀ i, first ≤ i → i ≤ first + delay → bit i ≠ level) →
    ∃ start, seek level index = some start ∧ start ≤ first + delay

/-- A change in a run is found, or one before it. -/
theorem exists_firstChange {i n : Nat} (hlo : index ≤ i) (hhi : i < index + n)
    (hchange : bit i ≠ level) : ∃ start, firstChange bit level index n = some start ∧ start ≤ i := by
  induction n generalizing index with
  | zero => omega
  | succ n ih =>
    rw [firstChange]
    split
    · rename_i hlevel
      have hne : i ≠ index := by
        rintro rfl
        exact hchange hlevel
      exact ih (by omega) (by omega)
    · exact ⟨index, rfl, hlo⟩

/-- Among single samples the search leads to the first change. -/
theorem reaches_seekSample (hlength : 0 < length) :
    Reaches bit (seekSample bit last) last length 0 := by
  intro level index first hle hfits hother
  exact exists_firstChange hle (by omega) (hother first (Nat.le_refl _) (Nat.le_refl _))

/-- Among windows the search leads to the window in which the stretch starts, or to the next one. -/
theorem reaches_seekWindow {count window : Nat} (hlength : 1 < length) (hwindow : 1 < window) :
    Reaches bit (seekWindow bit count last length window) last length (window - 1) := by
  intro level index first hle hfits hother
  have hdiv := Nat.div_add_mod' (index + window - 1) window
  have hmod := Nat.mod_lt (index + window - 1) (Nat.zero_lt_of_lt hwindow)
  simp only [seekWindow]
  -- The window at hand starts fewer than a window behind the index.
  generalize (index + window - 1) / window * window = near at hdiv ⊢
  have hnear : near ≤ first + (window - 1) := by omega
  rw [if_neg (by omega)]
  split
  · rename_i hlevel
    -- The stretch starts behind this place, so a window up to its start is not quiet.
    have hbefore : near < first := by
      apply Nat.lt_of_not_le
      intro hin
      exact hother near hin hnear hlevel
    -- From here the search is for the first window that is not quiet.
    obtain ⟨k, hloud, hfound⟩ :=
      @exists_loudAfter bit count window near (count + 1) (lt_windows (Nat.zero_lt_of_lt hwindow))
    rw [hfound]
    refine ⟨_, rfl, Nat.le_trans ?_ (Nat.le_add_right _ _)⟩
    apply Nat.le_of_not_lt
    intro hbeyond
    -- Quiet windows up to behind the start would give the stretch the level of this place.
    have hsame := hloud.quiet.eq_start (Nat.le_of_lt hbefore) hbeyond
    exact hother first (Nat.le_refl _) (Nat.le_add_right _ _) (hsame.trans hlevel)
  · exact ⟨near, rfl, hnear⟩

/-- The search of a query reaches a stretch at another level with its delay. -/
theorem reaches_seek (t : Trace .logic) (q : EdgeQuery) (hblock : q.detail = .samples ∨ 1 < q.block) :
    Reaches (t.levelAt q.channel) (t.seek q) q.last q.block q.detail.delay := by
  unfold Trace.seek
  cases hdetail : q.detail with
  | samples => exact reaches_seekSample q.block_pos
  | windows n =>
    have hlong : 1 < q.block := hblock.resolve_left fun hsamples => by
      rw [hdetail] at hsamples
      cases hsamples
    have hwindow : 1 < Pyramid.window n :=
      Nat.lt_of_lt_of_le (by decide : 1 < Pyramid.window 0)
        (Nat.le_of_dvd (Pyramid.window_pos n) (Pyramid.window_dvd_window (Nat.zero_le n)))
    exact reaches_seekWindow hlong hwindow

/-! ## Stretches that a scan shows -/

/-- No edge from a sample on lies before that sample. -/
theorem le_of_mem_edgesFrom (hseek : Forward seek) (hlength : 0 < length) (hpos : 0 < index)
    (hle : index ≤ last + 1) (hbefore : bit (index - 1) = level) {e : Edge}
    (he : e ∈ edgesFrom bit seek last length level index) : index ≤ e.index := by
  obtain ⟨inner, hedges, hinner⟩ :=
    @exists_reported bit seek (fun _ => True) last length level index hseek hlength
      (fun _ _ _ _ _ _ => trivial) hpos hle hbefore
  rw [hedges] at he
  rcases List.mem_append.1 he with he | he
  · exact (hinner.mem he).1
  · obtain rfl := List.mem_singleton.1 he
    exact hle

/-- The end of a scan shows a stretch that the scan has come to at its level, or that the range ends
with. -/
theorem exists_shown_ending {first stop : Nat} {l : Bool} (hin : first < stop)
    (hstop : stop ≤ last + 1) (hconst : ∀ i, first ≤ i → i < stop → bit i = l)
    (hlevel : level = l ∨ stop = last + 1) :
    ∃ i, first ≤ i ∧ i < stop ∧ (shownAt (ending bit last level) i).getD level = l := by
  unfold ending
  -- The answer closes with one edge if the level is that of the last sample, else with two.
  split
  · rename_i hsame
    -- The stretch is shown by what was shown before, at its first sample.
    have hl : level = l := by
      rcases hlevel with hl | hend
      · exact hl
      · exact hsame.trans (hconst last (by omega) (by omega))
    refine ⟨first, Nat.le_refl _, hin, (getD_shownAt_of_lt fun e he => ?_).trans hl⟩
    obtain rfl := List.mem_singleton.1 he
    show first < last + 1
    omega
  · rename_i hother
    by_cases hend : stop = last + 1
    · -- The edge at the end of the range shows the stretch.
      refine ⟨last, by omega, by omega, ?_⟩
      rw [shownAt_cons_of_lt (Nat.le_refl _), Option.getD_some]
      · exact hconst last (by omega) (by omega)
      · intro e he
        obtain rfl := List.mem_singleton.1 he
        exact Nat.lt_succ_self last
    · -- The stretch ends before the last sample, so both edges come behind its start.
      have hl : level = l := hlevel.resolve_right hend
      refine ⟨first, Nat.le_refl _, hin, (getD_shownAt_of_lt fun e he => ?_).trans hl⟩
      simp only [List.mem_cons, List.not_mem_nil, or_false] at he
      rcases he with rfl | rfl
      · show first < last
        omega
      · show first < last + 1
        omega

/-- A block that is reported, and does not end before a stretch, leaves the stretch shown: it starts
behind the first sample of it at another level, or ends within it. -/
theorem exists_shown_reported {b : EdgeBlock} {edges : List Edge} {first stop : Nat} {l : Bool}
    (hin : first < stop) (hconst : ∀ i, first ≤ i → i < stop → bit i = l)
    (hlevel : b.level = bit (b.stop - 1)) (hchange : b.level ≠ level) (hstart : b.start < b.stop)
    (hnear : first < b.stop) (hlater : ∀ e ∈ edges, b.stop ≤ e.index)
    (hends : level ≠ l ∨ b.start ≤ first → b.stop ≤ stop) :
    ∃ i, first ≤ i ∧ i < stop ∧ (shownAt (⟨b.start, b.level⟩ :: edges) i).getD level = l := by
  by_cases hl : level = l
  · -- The block ends at another level, so it starts behind the first sample of the stretch.
    have hbehind : first < b.start := by
      apply Nat.lt_of_not_le
      intro hbefore
      have hstop := hends (.inr hbefore)
      exact hchange (hlevel.trans ((hconst _ (by omega) (by omega)).trans hl.symm))
    refine ⟨first, Nat.le_refl _, hin, (getD_shownAt_of_lt fun e he => ?_).trans hl⟩
    rcases List.mem_cons.1 he with rfl | he
    · exact hbehind
    · have := hlater e he
      omega
  · -- The block ends within the stretch, and shows it from its start on.
    have hstop := hends (.inl hl)
    have hle : b.start ≤ max first b.start := Nat.le_max_right _ _
    refine ⟨max first b.start, Nat.le_max_left _ _, by omega, ?_⟩
    rw [shownAt_cons_of_lt hle, Option.getD_some]
    · exact hlevel.trans (hconst _ (by omega) (by omega))
    · intro e he
      have := hlater e he
      omega

/-- A stretch that is longer than a block by as much as the search leads into it is shown, from any
place before it on. -/
theorem exists_shown (hseek : Forward seek) (hlength : 0 < length)
    (hreaches : Reaches bit seek last length delay) {first stop : Nat} {l : Bool}
    (hstop : stop ≤ last + 1) (hlong : first + delay + length ≤ stop)
    (hconst : ∀ i, first ≤ i → i < stop → bit i = l) (hpos : 0 < index) (hle : index ≤ first)
    (hbefore : bit (index - 1) = level) :
    ∃ i, first ≤ i ∧ i < stop ∧
      (shownAt (edgesFrom bit seek last length level index) i).getD level = l := by
  have hin : first < stop := by omega
  -- From another level the search leads to a place from which a block does not go beyond the stretch.
  have hfound {level : Bool} {index : Nat} (hle : index ≤ first) (hother : level ≠ l) :
      ∃ start, seek level index = some start ∧ start + length ≤ stop := by
    obtain ⟨start, hstart, hdelay⟩ :=
      hreaches level index first hle (by omega) fun i hlo hhi hsame =>
        hother (hsame.symm.trans (hconst i hlo (by omega)))
    exact ⟨start, hstart, by omega⟩
  -- The cases are the steps of the scan; a block that ends before the stretch is passed by.
  induction level, index using @edgesFrom_induction bit seek last length hseek hlength with
  | ended level index hb hedges =>
    rw [hedges]
    refine exists_shown_ending hin hstop hconst ?_
    -- At its own level the stretch is shown already; else the search was for it.
    by_cases hl : level = l
    · exact .inl hl
    · -- The block that is found does not fit in, so it ends with the stretch behind the range.
      obtain ⟨start, hstart, hends⟩ := hfound hle hl
      have hover : last < start + length := by
        apply Nat.lt_of_not_le
        intro hfits
        rw [nextBlock, hstart, Option.bind_some, blockAt, if_neg (Nat.not_lt.2 hfits)] at hb
        cases hb
      exact .inr (by omega)
  | passed level index b hb hsame hedges ih =>
    obtain ⟨hstart, hend, hlast, hlevel⟩ := nextBlock_eq_some hb
    have hlo := hseek _ _ _ hstart
    rw [hedges]
    by_cases hnear : b.stop ≤ first
    · exact ih (by omega) hnear (hlevel.symm.trans hsame)
    · -- The block ends within the stretch, at the level that it was entered with.
      have hl : level = l := by
        apply Decidable.byContradiction
        intro hother
        obtain ⟨start, hstart', hends⟩ := hfound hle hother
        obtain rfl : b.start = start := Option.some.inj (hstart.symm.trans hstart')
        exact hother (hsame.symm.trans (hlevel.trans (hconst _ (by omega) (by omega))))
      -- All that follows is behind the end of the block.
      refine ⟨first, Nat.le_refl _, hin, (getD_shownAt_of_lt fun e he => ?_).trans hl⟩
      have := le_of_mem_edgesFrom hseek hlength (by omega) (by omega) (hlevel.symm.trans hsame) he
      omega
  | reported level index b hb hchange hedges ih =>
    obtain ⟨hstart, hend, hlast, hlevel⟩ := nextBlock_eq_some hb
    have hlo := hseek _ _ _ hstart
    have hlater : ∀ e ∈ edgesFrom bit seek last length b.level b.stop, b.stop ≤ e.index :=
      fun e => le_of_mem_edgesFrom hseek hlength (by omega) (by omega) hlevel.symm
    rw [hedges]
    by_cases hnear : b.stop ≤ first
    · obtain ⟨i, hfirst, hi, hshown⟩ := ih (by omega) hnear hlevel.symm
      have hle' : b.start ≤ i := by omega
      -- The edge of this block is before the stretch, where a later one shows it.
      exact ⟨i, hfirst, hi, by rw [shownAt_cons_of_le hle', hshown, Option.getD_some]⟩
    · refine exists_shown_reported hin hconst hlevel hchange (by omega) (by omega) hlater ?_
      rintro (hother | hbefore)
      · -- From another level the search was for this block.
        obtain ⟨start, hstart', hends⟩ := hfound hle hother
        obtain rfl : b.start = start := Option.some.inj (hstart.symm.trans hstart')
        omega
      · omega

/-- The edges of a query show a stretch of its range that is long enough for its search. -/
theorem exists_shown_edges (t : Trace .logic) (q : EdgeQuery)
    (hblock : q.detail = .samples ∨ 1 < q.block) {start stop : Nat} {level : Bool}
    (hstart : q.first ≤ start) (hstop : stop ≤ q.last + 1)
    (hlong : start + q.detail.delay + q.block ≤ stop)
    (hconst : ∀ i, start ≤ i → i < stop → t.levelAt q.channel i = level) :
    ∃ i, start ≤ i ∧ i < stop ∧ shownAt (edges t q) i = some level := by
  have hlength := q.block_pos
  have hseek := t.forward_seek q
  have hreaches := reaches_seek t q hblock
  rw [edges_eq]
  by_cases hopen : start = q.first
  · -- The stretch opens the range.
    refine ⟨start, Nat.le_refl _, by omega, ?_⟩
    rw [shownAt_cons_of_lt (Nat.le_of_eq hopen.symm), ← hconst start (Nat.le_refl _) (by omega), hopen]
    -- The edges of the scan come behind the opening one.
    intro e he
    have := le_of_mem_edgesFrom hseek hlength (Nat.succ_pos q.first) (Nat.succ_le_succ q.ordered) rfl he
    omega
  · obtain ⟨i, hlo, hhi, hshown⟩ :=
      exists_shown hseek hlength hreaches hstop hlong hconst (Nat.succ_pos q.first) (by omega) rfl
    have hbehind : q.first ≤ i := Nat.le_trans hstart hlo
    exact ⟨i, hlo, hhi, (shownAt_cons_of_le hbehind _).trans (congrArg some hshown)⟩

end Scan

/-! ## Stretches that a query shows -/

namespace Recording

variable {τ : Type} {r : Recording τ .logic} {first last channel : Nat} {spacing : Binary32}

/-- A stretch of samples at one level is shown, at one of them at least, if it is long enough: as long as
a block in a query for single samples, and in one for windows as long as a block and a window that
starts a sample before it.  A window may be longer than a block, but not than two. -/
theorem long_levels_shown (h : r.Reachable) (hrange : first ≤ last) (hlast : last < r.count)
    (hchannel : channel < 64) (hpos : Binary32.zero < spacing) (hfinite : spacing.isFinite) :
    let bit := r.trace.levelAt ⟨channel, hchannel⟩
    let block := blockLength spacing
    let window := Pyramid.window (levelFor spacing)
    ∃ edges : List Edge, r.trace.edges first last spacing channel = .ok edges.toArray ∧
      (∀ (start stop : Nat) (level : Bool), first ≤ start → stop ≤ last + 1 →
        (∀ i, start ≤ i → i < stop → bit i = level) →
        (spacing < Detail.threshold → start + block ≤ stop) →
        (¬ spacing < Detail.threshold → start + (block + window - 1) ≤ stop) →
        ∃ i, start ≤ i ∧ i < stop ∧ shownAt edges i = some level) ∧
      (¬ spacing < Detail.threshold → window ≤ 2 * block) := by
  intro bit block window
  have hspacing : spacing.isNaN = false := hpos.2.1
  refine ⟨_, h.edges_ok hrange hlast ⟨hpos, hfinite⟩ hchannel,
    fun start stop level hstart hstop hconst hfine hcoarse => ?_, window_levelFor_le hspacing⟩
  refine Scan.exists_shown_edges r.trace _ ?_ hstart hstop ?_ hconst
  · -- The scan is at single samples, or its blocks are of more than one sample.
    by_cases hdetail : spacing < Detail.threshold
    · exact .inl (if_pos hdetail)
    · have hwhole : Detail.threshold.whole ≤ blockLength spacing :=
        whole_le_blockLength (by decide) hspacing hdetail
      have hthreshold : Detail.threshold.whole = 16 := by decide +kernel
      refine .inr ?_
      show 1 < blockLength spacing
      omega
  · -- How far the search may overshoot is a window less one when it goes by windows.
    show start + (Detail.ofResolution spacing).delay + block ≤ stop
    by_cases hdetail : spacing < Detail.threshold
    · rw [Detail.ofResolution, if_pos hdetail]
      exact hfine hdetail
    · have hlong := hcoarse hdetail
      have hwindow : 0 < window := Pyramid.window_pos _
      rw [Detail.ofResolution, if_neg hdetail]
      show start + (window - 1) + block ≤ stop
      omega

/-- A pulse of 32 samples, as many as a block of 17 and a window of 16 take, is shown from its last
17 samples on. -/
theorem long_levels_shown_of_pulse :
    ∃ (r : Recording Rat .logic) (edges : List Edge),
      ofLogic 1000 1 0 0 ⟨Array.replicate 17 0 ++ Array.replicate 32 1 ++ Array.replicate 31 0⟩ =
        .ok r ∧
      r.Reachable ∧ 16 ≤ 78 ∧ 78 < r.count ∧ Binary32.zero < ⟨0x41880000⟩ ∧
      (⟨0x41880000⟩ : Binary32).isFinite ∧ ¬ (⟨0x41880000⟩ : Binary32) < Detail.threshold ∧
      r.trace.edges 16 78 ⟨0x41880000⟩ 0 = .ok edges.toArray ∧
      (∀ i, 17 ≤ i → i < 49 → r.trace.levelAt 0 i = true) ∧
      (∃ i, 17 ≤ i ∧ i < 49 ∧ shownAt edges i = some true) ∧
      edges = [⟨16, false⟩, ⟨32, true⟩, ⟨78, false⟩, ⟨79, false⟩] := by
  -- The scan of the trace is evaluated; the theorem then says what the answer shows.
  have hruns : ∃ r : Recording Rat .logic,
      ofLogic 1000 1 0 0 ⟨Array.replicate 17 0 ++ Array.replicate 32 1 ++ Array.replicate 31 0⟩ =
        .ok r ∧
      78 < r.count ∧
      (∀ i, i < 49 → 17 ≤ i → r.trace.levelAt 0 i = true) ∧
      Scan.scan (r.trace.levelAt 0) (Scan.seekWindow (r.trace.levelAt 0) r.count 78
        (blockLength ⟨0x41880000⟩) (Pyramid.window (levelFor ⟨0x41880000⟩))) 16 78
        (blockLength ⟨0x41880000⟩) = [⟨16, false⟩, ⟨32, true⟩, ⟨78, false⟩, ⟨79, false⟩] :=
    ⟨_, rfl, by decide +kernel, by decide +kernel, by decide +kernel⟩
  obtain ⟨r, hfull, hcount, hpulse, hscan⟩ := hruns
  have hreachable := reachable_ofLogic hfull
  have hpos : Binary32.zero < ⟨0x41880000⟩ := by decide
  have hfinite : (⟨0x41880000⟩ : Binary32).isFinite := by decide
  have hcoarse : ¬ (⟨0x41880000⟩ : Binary32) < Detail.threshold := by decide
  have hedges := hreachable.edges_of_scan (by decide) hcount ⟨hpos, hfinite⟩ (by decide) hscan
  have hblock : blockLength ⟨0x41880000⟩ = 17 := by decide +kernel
  have hwindow : Pyramid.window (levelFor ⟨0x41880000⟩) = 16 := by decide +kernel
  obtain ⟨edges, hanswer, hshown, -⟩ :=
    long_levels_shown hreachable (by decide : 16 ≤ 78) hcount (by decide : 0 < 64) hpos hfinite
  simp only [hblock, hwindow] at hshown
  have hlist : edges = _ := Array.toList_inj.2 (Except.ok.inj (hanswer.symm.trans hedges))
  exact ⟨r, edges, hfull, hreachable, by decide, hcount, hpos, hfinite, hcoarse, hanswer,
    fun i hlo hhi => hpulse i hhi hlo,
    hshown 17 49 true (by decide) (by decide) (fun i hlo hhi => hpulse i hhi hlo)
      (fun hfine => absurd hfine hcoarse) (fun _ => by decide), hlist⟩

/-- At a resolution just below 256 samples a block has 255 of them, but a window 256, which is more than
a block.  A pulse of two blocks less one sample would be long enough if no window were longer than a block;
it is not shown, as a block that starts at the end of the window in which the pulse starts ends behind it. -/
theorem long_level_hidden :
    ∃ (r : Recording Rat .logic) (edges : List Edge),
      ofLogic 1000 1 0 0 ⟨Array.replicate 1 0 ++ Array.replicate 509 1 ++ Array.replicate 2 0⟩ =
        .ok r ∧
      r.Reachable ∧ r.count = 512 ∧ Binary32.zero < ⟨0x437ffffd⟩ ∧
      (⟨0x437ffffd⟩ : Binary32).isFinite ∧ ¬ (⟨0x437ffffd⟩ : Binary32) < Detail.threshold ∧
      blockLength ⟨0x437ffffd⟩ = 255 ∧ Pyramid.window (levelFor ⟨0x437ffffd⟩) = 256 ∧
      ¬ Pyramid.window (levelFor ⟨0x437ffffd⟩) ≤ blockLength ⟨0x437ffffd⟩ ∧
      r.trace.edges 0 511 ⟨0x437ffffd⟩ 0 = .ok edges.toArray ∧
      (∀ i, 1 ≤ i → i < 1 + (2 * blockLength ⟨0x437ffffd⟩ - 1) → r.trace.levelAt 0 i = true) ∧
      ∀ i, 1 ≤ i → i < 1 + (2 * blockLength ⟨0x437ffffd⟩ - 1) → shownAt edges i = some false := by
  let width : Width := ⟨1, by decide, by decide⟩
  let samples : Packed width :=
    ⟨⟨Array.replicate 1 0 ++ Array.replicate 509 1 ++ Array.replicate 2 0⟩, 512, by
      simp [width, ByteArray.size], by simp [ByteArray.size, Packed.byteLimit]⟩
  obtain ⟨r, hfull, hwords⟩ := ofLogic_samples (τ := Rat) samples (by decide : 0 < 1000) 0
  have hreachable := reachable_ofLogic hfull
  have hcount : r.count = 512 := (Packed.word_eq_of_words hwords).1
  -- The bytes as a function of the place, so that nothing has to read the array.
  have hbyte (i : Nat) :
      LittleEndian.byteAt samples.bytes i = if 1 ≤ i ∧ i < 510 then 1 else 0 := by
    simp only [samples, LittleEndian.byteAt, ByteArray.getElem_eq_getElem_data, ByteArray.size,
      Array.size_append, Array.size_replicate, Array.getElem_append, Array.getElem_replicate]
    split_ifs <;> first | rfl | omega
  -- The pulse, said as a function; the scan is evaluated on this one.
  have hbit : r.trace.levelAt 0 = fun i => decide (1 ≤ i ∧ i < 510) := by
    funext i
    show channelBit 0 (r.trace.samples.word i) = _
    rw [Packed.word_congr hwords, Packed.word, Nat.mul_one, LittleEndian.wordAt, hbyte]
    by_cases h : 1 ≤ i ∧ i < 510
    · rw [if_pos h, decide_eq_true h]
      show channelBit 0 (UInt8.toUInt64 1 ||| (0 : UInt64) <<< 8) = true
      decide
    · rw [if_neg h, decide_eq_false h]
      show channelBit 0 (UInt8.toUInt64 0 ||| (0 : UInt64) <<< 8) = false
      decide
  have hscan : Scan.scan (r.trace.levelAt 0) (Scan.seekWindow (r.trace.levelAt 0) r.count 511
      (blockLength ⟨0x437ffffd⟩) (Pyramid.window (levelFor ⟨0x437ffffd⟩))) 0 511
      (blockLength ⟨0x437ffffd⟩) = [⟨0, false⟩, ⟨512, false⟩] := by
    rw [hbit, hcount]
    decide +kernel
  have hlast : 511 < r.count := by
    rw [hcount]
    decide
  have hpos : Binary32.zero < ⟨0x437ffffd⟩ := by decide
  have hfinite : (⟨0x437ffffd⟩ : Binary32).isFinite := by decide
  have hedges := hreachable.edges_of_scan (Nat.zero_le 511) hlast ⟨hpos, hfinite⟩ (by decide) hscan
  have hblock : blockLength ⟨0x437ffffd⟩ = 255 := by decide +kernel
  have hwindow : Pyramid.window (levelFor ⟨0x437ffffd⟩) = 256 := by decide +kernel
  refine ⟨r, [⟨0, false⟩, ⟨512, false⟩], hfull, hreachable, hcount, hpos, hfinite, by decide,
    hblock, hwindow, by omega, hedges, fun i hlo hhi => ?_, fun i hlo hhi => ?_⟩ <;>
    rw [hblock] at hhi
  · -- The samples of the pulse are high, and the only edge before them is low.
    rw [hbit]
    exact decide_eq_true ⟨hlo, hhi⟩
  · refine shownAt_cons_of_lt (Nat.zero_le i) fun e he => ?_
    obtain rfl := List.mem_singleton.1 he
    show i < 512
    omega

end Recording

end Waveform
