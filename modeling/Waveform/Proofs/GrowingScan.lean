import Waveform.Proofs.EdgeBlocks

/-!
# Scans while samples are appended

A scan of a range looks at the samples of the range.  A scan for windows also looks at how many
samples there are, as a window that is not complete counts as not quiet.  Samples that are appended
may complete it, and if they bring no change the scan passes over it from then on.

The edges are the same nevertheless.  Before, the window may have begun a block.  But no sample of
the range is at another level there, so the block is not reported, and no second block fits in
behind it, since a window is at most as long as two blocks.

## Key results

- `LoudAfter.appended`: what appending changes in the search for a window
- `blocksFrom_windows_congr`: the blocks of a range do not depend on samples behind it
- `Trace.Extends.edgesFrom_eq`: nor do the edges
-/

namespace Waveform

namespace Scan

variable {bit bit' : Nat → Bool} {count count' last length window : Nat}

/-! ## The samples of a range -/

/-- The first change depends on the samples up to the end of the search alone. -/
theorem firstChange_congr {level : Bool} {index n : Nat}
    (h : ∀ i, i < index + n → bit' i = bit i) :
    firstChange bit' level index n = firstChange bit level index n := by
  induction n generalizing index with
  | zero => rfl
  | succ n ih =>
    rw [firstChange, firstChange, h index (by omega), ih fun i hi => h i (by omega)]

/-- Whether a channel changes in a run depends on the samples up to its end alone. -/
theorem changes_congr {first n : Nat} (h : ∀ i, i < first + n → bit' i = bit i) :
    changes bit' first n = changes bit first n := by
  induction n generalizing first with
  | zero => rfl
  | succ n ih =>
    rw [changes, changes, h first (by omega), h (first - 1) (by omega), h 0 (by omega),
      ih fun i hi => h i (by omega)]

/-- A block depends on the samples of the range alone. -/
theorem blockAt_congr (h : ∀ i, i ≤ last → bit' i = bit i) (hlength : 0 < length) (start : Nat) :
    blockAt bit' last length start = blockAt bit last length start := by
  unfold blockAt
  split
  · rfl
  · rw [h (start + length - 1) (by omega)]

/-- Sample by sample, the next block depends on the samples of the range alone. -/
theorem nextBlock_samples_congr (h : ∀ i, i ≤ last → bit' i = bit i) (hlength : 0 < length)
    (level : Bool) (index : Nat) :
    nextBlock bit' (seekSample bit' last) last length level index =
      nextBlock bit (seekSample bit last) last length level index := by
  have hseek : seekSample bit' last level index = seekSample bit last level index := by
    by_cases hin : index ≤ last
    · exact firstChange_congr fun i hi => h i (by omega)
    · rw [seekSample, seekSample, show last + 1 - index = 0 by omega]
      rfl
  rw [nextBlock, nextBlock, hseek]
  exact congrArg _ (funext (blockAt_congr h hlength))

/-- Where each block is found in two scans alike, or no edge is left in either, the scans have the
same blocks. -/
theorem blocksFrom_congr {seek seek' : Bool → Nat → Option Nat} (hseek : Forward seek)
    (hseek' : Forward seek') (hlength : 0 < length)
    (h : ∀ level index,
      nextBlock bit' seek' last length level index = nextBlock bit seek last length level index ∨
      blocksFrom bit' seek' last length level index = [] ∧
        blocksFrom bit seek last length level index = [])
    (level : Bool) (index : Nat) :
    blocksFrom bit' seek' last length level index =
      blocksFrom bit seek last length level index := by
  -- Every block takes both scans forward by the same length.
  generalize hn : last + 1 - index = n
  induction n using Nat.strongRecOn generalizing level index with
  | ind n ih =>
    -- Both take the same block and agree behind it, or both have come to an end.
    rcases h level index with hnext | ⟨hnone', hnone⟩
    · rw [blocksFrom_eq hseek' hlength, blocksFrom_eq hseek hlength, hnext]
      cases hb : nextBlock bit seek last length level index with
      | none => rfl
      | some b =>
        obtain ⟨hstart, hstop, hle, -⟩ := nextBlock_eq_some hb
        have hforward := hseek _ _ _ hstart
        have hrest : ∀ l, blocksFrom bit' seek' last length l b.stop =
            blocksFrom bit seek last length l b.stop :=
          fun l => ih (last + 1 - b.stop) (by omega) l b.stop rfl
        simp only [hrest]
    · rw [hnone', hnone]

/-! ## The windows of a trace -/

/-- Samples that are appended can only complete the window that was found, and let it be passed over
if they do not change it. -/
theorem LoudAfter.appended {start k : Nat} (h : LoudAfter bit count window start k)
    (hle : count ≤ count') (heq : ∀ i, i < count → bit' i = bit i) :
    LoudAfter bit' count' window start k ∨
      count < start + k * window + window ∧ QuietWindows bit' count' window start (k + 1) := by
  have hquiet : QuietWindows bit' count' window start k := by
    -- The windows before were complete, so their samples are there as they were.
    intro j hj
    obtain ⟨hfits, hnone⟩ := h.quiet j hj
    rw [Nat.add_mul, Nat.one_mul] at hfits ⊢
    exact ⟨by omega, (changes_congr fun i hi => heq i (by omega)).trans hnone⟩
  by_cases hloud' : count' < start + k * window + window ∨
      changes bit' (start + k * window) window = true
  · exact .inl ⟨hquiet, hloud'⟩
  · rw [not_or, Nat.not_lt, Bool.not_eq_true] at hloud'
    obtain ⟨hfits', hquiet'⟩ := hloud'
    refine .inr ⟨?_, fun j hj => ?_⟩
    · -- A complete window would have been found for a change, and that is still there.
      apply Nat.lt_of_not_le
      intro hfits
      have hchange := h.loud.resolve_left (Nat.not_lt.2 hfits)
      rw [changes_congr fun i hi => heq i (by omega)] at hquiet'
      exact nomatch hquiet'.symm.trans hchange
    · rcases Nat.lt_succ_iff_lt_or_eq.1 hj with hlt | rfl
      · exact hquiet j hlt
      · rw [Nat.add_mul, Nat.one_mul, ← Nat.add_assoc]
        exact ⟨hfits', hquiet'⟩

/-- Quiet windows one after the other are quiet together. -/
theorem QuietWindows.changes_eq_false {start k : Nat} (h : QuietWindows bit count window start k) :
    changes bit start (k * window) = false := by
  induction k with
  | zero =>
    rw [Nat.zero_mul]
    rfl
  | succ k ih =>
    rw [Nat.add_mul, Nat.one_mul, changes_add, ih fun j hj => h j (Nat.lt_succ_of_lt hj),
      (h k (Nat.lt_succ_self k)).2]
    rfl

/-- In quiet windows the channel stays at its level. -/
theorem QuietWindows.eq_start {start k i : Nat} (h : QuietWindows bit count window start k)
    (hlo : start ≤ i) (hhi : i < start + k * window) : bit i = bit start := by
  have hflips := changes_eq_false_iff.1 h.changes_eq_false
  exact eq_of_not_flips (Nat.succ_pos start)
    (fun j hj hstop => hflips j (Nat.le_of_succ_le hj) hstop) (Nat.succ_le_succ hlo) hhi

/-- Where there is no next block none is reported. -/
theorem blocksFrom_of_none {seek : Bool → Nat → Option Nat} (hseek : Forward seek)
    (hlength : 0 < length) {level : Bool} {index : Nat}
    (h : nextBlock bit seek last length level index = none) :
    blocksFrom bit seek last length level index = [] := by
  rw [blocksFrom_eq hseek hlength, h]

/-- A block that ends at the level before it is not reported, and behind it no other one fits in. -/
theorem blocksFrom_of_last_block {seek : Bool → Nat → Option Nat} (hseek : Forward seek)
    (hlength : 0 < length) {level : Bool} {index start : Nat}
    (hnext : nextBlock bit seek last length level index = blockAt bit last length start)
    (hlast : last < start + 2 * length)
    (hlevel : start + length ≤ last → bit (start + length - 1) = level) :
    blocksFrom bit seek last length level index = [] := by
  by_cases hover : last < start + length
  · exact blocksFrom_of_none hseek hlength (hnext.trans (if_pos hover))
  · have hend := hlevel (Nat.le_of_not_lt hover)
    rw [blocksFrom_eq hseek hlength, hnext, blockAt, if_neg hover]
    simp only [hend, if_true]
    exact blocksFrom_of_none hseek hlength (nextBlock_of_lt hseek (by omega))

/-- The blocks that a scan for windows finds in a range do not depend on the samples behind it. -/
theorem blocksFrom_windows_congr (hle : count ≤ count') (heq : ∀ i, i < count → bit' i = bit i)
    (hlast : last < count) (hwindow : 0 < window) (hfits : window ≤ 2 * length) (level : Bool)
    (index : Nat) :
    blocksFrom bit' (seekWindow bit' count' last length window) last length level index =
      blocksFrom bit (seekWindow bit count last length window) last length level index := by
  have hlength : 0 < length := by omega
  have hseek : Forward (seekWindow bit count last length window) := forward_seekWindow hwindow
  have hseek' : Forward (seekWindow bit' count' last length window) := forward_seekWindow hwindow
  have hblock : ∀ start, blockAt bit' last length start = blockAt bit last length start :=
    blockAt_congr (fun i hi => heq i (by omega)) hlength
  refine blocksFrom_congr hseek hseek' hlength (fun level index => ?_) level index
  generalize hstart : (index + window - 1) / window * window = start
  by_cases hover : last < index + length ∨ last ≤ start
  · -- Near the end of the range neither scan looks for a window.
    refine .inl ?_
    simp only [nextBlock, seekWindow, hstart, if_pos hover, Option.bind_none]
  · have hin : start < last := by omega
    have hbit : bit' start = bit start := heq start (by omega)
    -- The windows that are found without the samples that were appended, and with them.
    have hfound := @exists_loudAfter bit count window start (count + 1) (lt_windows hwindow)
    have hfound' := @exists_loudAfter bit' count' window start (count' + 1) (lt_windows hwindow)
    obtain ⟨k, hk, hseekk⟩ := hfound
    obtain ⟨k', hk', hseekk'⟩ := hfound'
    have hnext : nextBlock bit (seekWindow bit count last length window) last length level index =
        blockAt bit last length (if bit start = level then start + k * window else start) := by
      simp only [nextBlock, seekWindow, hstart, if_neg hover, hseekk]
      split <;> rfl
    have hnext' : nextBlock bit' (seekWindow bit' count' last length window) last length level index =
        blockAt bit' last length (if bit start = level then start + k' * window else start) := by
      simp only [nextBlock, seekWindow, hstart, if_neg hover, hseekk', hbit]
      split <;> rfl
    by_cases hlevel : bit start = level
    · rw [if_pos hlevel] at hnext hnext'
      rcases hk.appended hle heq with hsame | ⟨hshort, hquiet⟩
      · rw [hnext, hnext', hblock, hsame.unique hk']
        exact .inl rfl
      · -- The window that was not complete is passed over now.
        have hmul : (k + 1) * window = k * window + window := Nat.succ_mul k window
        have hpassed : (k + 1) * window ≤ k' * window :=
          Nat.mul_le_mul_right _ (hk'.le_of_quiet hquiet)
        refine .inr ⟨blocksFrom_of_none hseek' hlength ?_, ?_⟩
        · exact hnext'.trans (if_pos (by omega))
        · refine blocksFrom_of_last_block hseek hlength hnext (by omega) fun hfit => ?_
          rw [← heq _ (by omega), hquiet.eq_start (by omega) (by omega), hbit, hlevel]
    · -- At another level the block starts with the window at hand, whatever comes behind.
      rw [if_neg hlevel] at hnext hnext'
      rw [hnext, hnext', hblock]
      exact .inl rfl

/-- The edges of a range are those of its blocks and of its last sample. -/
theorem edgesFrom_congr {seek seek' : Bool → Nat → Option Nat} (hlast : bit' last = bit last)
    {level : Bool} {index : Nat}
    (h : blocksFrom bit' seek' last length level index =
      blocksFrom bit seek last length level index) :
    edgesFrom bit' seek' last length level index = edgesFrom bit seek last length level index := by
  simp only [edgesFrom, ending, h, hlast]

end Scan

/-- Windows are at most twice as long as blocks. -/
def EdgeQuery.WindowsFit (q : EdgeQuery) : Prop :=
  ∀ level : Fin 10, q.detail = .windows level → Pyramid.window level ≤ 2 * q.block

namespace Trace

variable {t t' : Trace .logic} {q : EdgeQuery}

/-- Samples that are appended leave the levels of those before. -/
theorem Extends.levelAt_eq (h : t.Extends t') (channel : Fin 64) {i : Nat} (hi : i < t.count) :
    t'.levelAt channel i = t.levelAt channel i := by
  rw [levelAt, levelAt, h.word_eq i hi]

/-- Samples that are appended do not change the edges of a range. -/
theorem Extends.edgesFrom_eq (h : t.Extends t') (hlast : q.last < t.count) (hfits : q.WindowsFit)
    (level : Bool) (index : Nat) : t'.edgesFrom q level index = t.edgesFrom q level index := by
  -- All samples of the range were there before the append.
  have heq : ∀ i, i < t.count → t'.levelAt q.channel i = t.levelAt q.channel i :=
    fun i => h.levelAt_eq q.channel
  refine Scan.edgesFrom_congr (heq q.last hlast) ?_
  unfold seek
  cases hdetail : q.detail with
  | samples =>
    have hrange : ∀ i, i ≤ q.last → t'.levelAt q.channel i = t.levelAt q.channel i :=
      fun i hi => heq i (Nat.lt_of_le_of_lt hi hlast)
    exact Scan.blocksFrom_congr Scan.forward_seekSample Scan.forward_seekSample q.block_pos
      (fun level index => .inl (Scan.nextBlock_samples_congr hrange q.block_pos level index))
      level index
  | windows n =>
    exact Scan.blocksFrom_windows_congr h.count_le heq hlast (Pyramid.window_pos n)
      (hfits n hdetail) level index

end Trace

end Waveform
