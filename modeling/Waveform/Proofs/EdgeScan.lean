import Waveform.Logic.Scan

/-!
# Scans of the samples

What the functions of a scan find: the first change, the first window that is not quiet, and the
blocks one after the other.  The functions count down the items that are left to look at; the counts
are large enough for the scan never to notice them (`blockEdges_eq_of_le`), so that a scan can be
unfolded block by block (`blocksFrom_eq`).

## Key results

- `firstChange_eq_some_iff`: the first sample at another level
- `changes_eq_false_iff`: a run without changes
- `LoudAfter.firstWindow_eq`: the first window that is not quiet
- `blocksFrom_eq`: a scan goes on from the end of a block
-/

namespace Waveform.Scan

variable {bit : Nat → Bool}

/-! ## Changes -/

/-- The first change is the first sample at another level. -/
theorem firstChange_eq_some_iff {level : Bool} {index n i : Nat} :
    firstChange bit level index n = some i ↔
      index ≤ i ∧ i < index + n ∧ bit i ≠ level ∧ ∀ j, index ≤ j → j < i → bit j = level := by
  -- The sample at the index decides whether the search ends there or goes on behind it.
  induction n generalizing index with
  | zero =>
    constructor
    · intro h
      exact nomatch h
    · intro hparts
      obtain ⟨hlo, hhi, -⟩ := hparts
      omega
  | succ n ih =>
    rw [firstChange]
    split
    · rename_i hlevel
      rw [ih]
      constructor
      · intro hparts
        obtain ⟨hlo, hhi, hchange, hquiet⟩ := hparts
        refine ⟨by omega, by omega, hchange, fun j hj hji => ?_⟩
        by_cases heq : j = index
        · rw [heq, hlevel]
        · exact hquiet j (by omega) hji
      · intro hparts
        obtain ⟨hlo, hhi, hchange, hquiet⟩ := hparts
        have hne : i ≠ index := by
          intro heq
          exact hchange (heq ▸ hlevel)
        exact ⟨by omega, by omega, hchange, fun j hj hji => hquiet j (by omega) hji⟩
    · -- The sample at the index differs, so it is the one found.
      rename_i hlevel
      constructor
      · intro h
        cases h
        exact ⟨Nat.le_refl _, by omega, hlevel, fun j hj hji => by omega⟩
      · intro hparts
        obtain ⟨hlo, hhi, hchange, hquiet⟩ := hparts
        have heq : i = index := by
          apply Decidable.byContradiction
          intro hne
          exact hlevel (hquiet index (Nat.le_refl _) (by omega))
        rw [heq]

/-- Whether the channel is at another level than just before.  Before the first sample it is low. -/
def flips (bit : Nat → Bool) (i : Nat) : Bool :=
  if i = 0 then bit 0 else bit i != bit (i - 1)

/-- A channel changes in a run if it does in one of two parts of it. -/
theorem changes_add (bit : Nat → Bool) (first m n : Nat) :
    changes bit first (m + n) = (changes bit first m || changes bit (first + m) n) := by
  induction m generalizing first with
  | zero => rw [Nat.zero_add]; rfl
  | succ m ih =>
    rw [show m + 1 + n = m + n + 1 by omega, changes, ih, changes, Bool.or_assoc,
      show first + 1 + m = first + (m + 1) by omega]

/-- A run is quiet if the level flips at none of its samples. -/
theorem changes_eq_false_iff {first n : Nat} :
    changes bit first n = false ↔ ∀ i, first ≤ i → i < first + n → flips bit i = false := by
  induction n generalizing first with
  | zero => exact ⟨fun _ i hlo hhi => by omega, fun _ => rfl⟩
  | succ n ih =>
    rw [changes, Bool.or_eq_false_iff, ih]
    constructor
    · rintro ⟨hfirst, hrest⟩ i hlo hhi
      by_cases heq : i = first
      · rw [heq]
        exact hfirst
      · exact hrest i (by omega) (by omega)
    · intro h
      exact ⟨h first (Nat.le_refl _) (by omega), fun i hlo hhi => h i (by omega) (by omega)⟩

/-- Without a change the channel stays at the level at which it was. -/
theorem eq_of_not_flips {first stop i : Nat} (hpos : 0 < first)
    (h : ∀ j, first ≤ j → j < stop → flips bit j = false) (hlo : first ≤ i + 1) (hhi : i < stop) :
    bit i = bit (first - 1) := by
  induction i with
  | zero => rw [show first - 1 = 0 by omega]
  | succ i ih =>
    by_cases heq : first = i + 2
    · rw [heq]
      rfl
    · have hflip := h (i + 1) (by omega) hhi
      rw [flips, if_neg (Nat.succ_ne_zero i), Nat.add_sub_cancel, bne_eq_false_iff_eq] at hflip
      rw [hflip, ih (by omega) (by omega)]

/-! ## Windows -/

/-- The first `k` windows are complete and quiet. -/
def QuietWindows (bit : Nat → Bool) (count window start k : Nat) : Prop :=
  ∀ j, j < k → start + (j + 1) * window ≤ count ∧ changes bit (start + j * window) window = false

/-- After `k` windows that are complete and quiet comes one that is not. -/
structure LoudAfter (bit : Nat → Bool) (count window start k : Nat) : Prop where
  quiet : QuietWindows bit count window start k
  loud : count < start + k * window + window ∨ changes bit (start + k * window) window = true

/-- The first window that is not quiet comes after all that are. -/
theorem LoudAfter.le_of_quiet {count window start k k' : Nat}
    (h : LoudAfter bit count window start k') (hquiet : QuietWindows bit count window start k) :
    k ≤ k' := by
  apply Nat.le_of_not_lt
  intro hlt
  -- Otherwise the window that is not quiet would be one of the quiet ones.
  obtain ⟨hfits, hnone⟩ := hquiet k' hlt
  rw [Nat.add_mul, Nat.one_mul] at hfits
  rcases h.loud with hshort | hchange
  · omega
  · exact nomatch hnone.symm.trans hchange

/-- There is only one number of quiet windows before the first that is not. -/
theorem LoudAfter.unique {count window start k k' : Nat} (h : LoudAfter bit count window start k)
    (h' : LoudAfter bit count window start k') : k = k' :=
  Nat.le_antisymm (h'.le_of_quiet h.quiet) (h.le_of_quiet h'.quiet)

/-- A window that is incomplete or has a change is not passed over. -/
theorem loudAfter_zero {count window start : Nat}
    (h : count < start + window ∨ changes bit start window = true) :
    LoudAfter bit count window start 0 where
  quiet j hj := absurd hj (Nat.not_lt_zero j)
  loud := by simpa using h

/-- A window that is complete and quiet is passed over. -/
theorem LoudAfter.succ {count window start k : Nat} (hfits : start + window ≤ count)
    (hquiet : changes bit start window = false)
    (h : LoudAfter bit count window (start + window) k) :
    LoudAfter bit count window start (k + 1) := by
  have hshift (j : Nat) : start + window + j * window = start + (j + 1) * window := by
    rw [Nat.add_mul, Nat.one_mul]
    omega
  constructor
  · intro j hj
    cases j with
    | zero => simpa using And.intro hfits hquiet
    | succ j =>
      rw [← hshift, ← hshift]
      exact h.quiet j (Nat.lt_of_succ_lt_succ hj)
  · rw [← hshift]
    exact h.loud

/-- More windows than there are samples reach beyond them. -/
theorem lt_windows {count start window : Nat} (h : 0 < window) :
    count < start + (count + 1 + 1) * window := by
  have hmul : count + 1 + 1 ≤ (count + 1 + 1) * window := Nat.le_mul_of_pos_right _ h
  omega

/-- The search for a window ends, and it ends at the first that is not quiet. -/
theorem exists_loudAfter {count window start n : Nat} (hfuel : count < start + (n + 1) * window) :
    ∃ k, LoudAfter bit count window start k ∧
      firstWindow bit count window start n = start + k * window := by
  -- On the bound, which is large enough to reach the end of the samples.
  induction n generalizing start with
  | zero => exact ⟨0, loudAfter_zero (.inl (by omega)), by simp [firstWindow]⟩
  | succ n ih =>
    rw [firstWindow]
    split
    · -- The window at hand is loud or incomplete.
      exact ⟨0, loudAfter_zero ‹_›, by simp⟩
    · -- It is quiet, so it is one more than are found from the next one on.
      rename_i hquiet
      rw [not_or, Nat.not_lt, Bool.not_eq_true] at hquiet
      rw [Nat.add_mul, Nat.one_mul, Nat.add_comm _ window, ← Nat.add_assoc] at hfuel
      obtain ⟨k, hloud, hfound⟩ := ih hfuel
      refine ⟨k + 1, hloud.succ hquiet.1 hquiet.2, ?_⟩
      rw [hfound, Nat.add_mul k 1, Nat.one_mul]
      omega

/-- The search for a window finds it if it may take enough steps. -/
theorem LoudAfter.firstWindow_eq {count window start k n : Nat}
    (h : LoudAfter bit count window start k) (hfuel : count < start + (n + 1) * window) :
    firstWindow bit count window start n = start + k * window := by
  obtain ⟨k', h', hfound⟩ := @exists_loudAfter bit count window start n hfuel
  rw [hfound, h.unique h']

/-! ## Blocks -/

/-- A block of the given length, unless it runs past the end of the range. -/
def blockAt (bit : Nat → Bool) (last length start : Nat) : Option EdgeBlock :=
  if last < start + length then none
  else some ⟨start, start + length, bit (start + length - 1)⟩

/-- The next block from an index on. -/
def nextBlock (bit : Nat → Bool) (seek : Bool → Nat → Option Nat) (last length : Nat) (level : Bool)
    (index : Nat) : Option EdgeBlock :=
  (seek level index).bind (blockAt bit last length)

/-- The blocks from an index on whose level differs from the one before. -/
def blocksFrom (bit : Nat → Bool) (seek : Bool → Nat → Option Nat) (last length : Nat)
    (level : Bool) (index : Nat) : List Edge :=
  blockEdges bit seek last length (last + 1 - index) level index

/-- The search for the next block never goes back. -/
def Forward (seek : Bool → Nat → Option Nat) : Prop :=
  ∀ level index start, seek level index = some start → index ≤ start

variable {seek : Bool → Nat → Option Nat} {last length : Nat}

/-- A block starts where the search says, and lies within the range. -/
theorem nextBlock_eq_some {level : Bool} {index : Nat} {b : EdgeBlock}
    (h : nextBlock bit seek last length level index = some b) :
    seek level index = some b.start ∧ b.stop = b.start + length ∧ b.stop ≤ last ∧
      b.level = bit (b.stop - 1) := by
  obtain ⟨start, hstart, hblock⟩ := Option.bind_eq_some_iff.1 h
  unfold blockAt at hblock
  split at hblock
  · exact nomatch hblock
  · cases hblock
    exact ⟨hstart, rfl, Nat.le_of_not_lt ‹_›, rfl⟩

/-- Where the range is over there are no blocks. -/
theorem nextBlock_of_lt (hseek : Forward seek) {level : Bool} {index : Nat}
    (h : last < index + length) : nextBlock bit seek last length level index = none := by
  apply Option.eq_none_iff_forall_not_mem.2
  intro b hb
  obtain ⟨hstart, hstop, hle, -⟩ := nextBlock_eq_some hb
  have := hseek _ _ _ hstart
  omega

/-- From `index` on the channel stays at a level, and at `start` it has left it or the range is
over. -/
structure StaysUntil (bit : Nat → Bool) (last : Nat) (level : Bool) (index start : Nat) : Prop where
  le : index ≤ start
  stays : ∀ i, index ≤ i → i < start → i < last → bit i = level
  leaves : last ≤ start ∨ bit start ≠ level

/-- A stretch at a level may be reached through more samples at that level. -/
theorem StaysUntil.of_stays {last index near start : Nat} {level : Bool} (hle : index ≤ near)
    (hstays : ∀ i, index ≤ i → i < near → bit i = level)
    (h : StaysUntil bit last level near start) : StaysUntil bit last level index start where
  le := Nat.le_trans hle h.le
  stays i hlo hhi hlast := by
    by_cases hi : i < near
    · exact hstays i hlo hi
    · exact h.stays i (Nat.le_of_not_lt hi) hhi hlast
  leaves := h.leaves

/-- Among single samples the next block starts where the channel leaves its level. -/
theorem nextBlock_of_staysUntil (hlength : 0 < length) {level : Bool} {index start : Nat}
    (h : StaysUntil bit last level index start) :
    nextBlock bit (seekSample bit last) last length level index = blockAt bit last length start := by
  by_cases hover : last ≤ start
  · -- No block starts before the end of the range, so none fits in.
    have hnone : blockAt bit last length start = none := if_pos (by omega)
    rw [hnone]
    apply Option.eq_none_iff_forall_not_mem.2
    intro b hb
    obtain ⟨hstart, hstop, hle, -⟩ := nextBlock_eq_some hb
    obtain ⟨hlo, -, hchange, -⟩ := firstChange_eq_some_iff.1 hstart
    exact hchange (h.stays b.start hlo (by omega) (by omega))
  · -- The sample search ends at the same place.
    have hlo := h.le
    have hseek : seekSample bit last level index = some start := by
      refine firstChange_eq_some_iff.2 ⟨hlo, by omega, h.leaves.resolve_left hover, ?_⟩
      intro i hi hstart
      exact h.stays i hi hstart (by omega)
    rw [nextBlock, hseek, Option.bind_some]

/-- With a step to take, the next block is looked for, and reported if it changes the level. -/
theorem blockEdges_succ (n : Nat) (level : Bool) (index : Nat) :
    blockEdges bit seek last length (n + 1) level index =
      match nextBlock bit seek last length level index with
      | none => []
      | some b =>
        if b.level = level then blockEdges bit seek last length n level b.stop
        else ⟨b.start, b.level⟩ :: blockEdges bit seek last length n b.level b.stop := by
  rw [blockEdges, nextBlock]
  cases seek level index with
  | none => rfl
  | some start =>
    simp only [Option.bind_some, blockAt]
    split
    · rfl
    · simp only
      split
      · rename_i hlevel
        rw [hlevel]
      · rfl

/-- Every block takes the scan forward, so a count that reaches the end of the range is enough. -/
theorem blockEdges_eq_of_le (hseek : Forward seek) (hlength : 0 < length) {m n : Nat}
    {level : Bool} {index : Nat} (hm : last + 1 ≤ index + m) (hn : last + 1 ≤ index + n) :
    blockEdges bit seek last length m level index =
      blockEdges bit seek last length n level index := by
  -- A count that is used up has reached the end of the range, where there are no blocks.
  induction m generalizing n level index with
  | zero =>
    cases n with
    | zero => rfl
    | succ n =>
      rw [blockEdges_succ, nextBlock_of_lt hseek (by omega)]
      rfl
  | succ m ih =>
    cases n with
    | zero =>
      rw [blockEdges_succ, nextBlock_of_lt hseek (by omega)]
      rfl
    | succ n =>
      rw [blockEdges_succ, blockEdges_succ]
      -- Both take the same block and go on behind it.
      cases hb : nextBlock bit seek last length level index with
      | none => rfl
      | some b =>
        obtain ⟨hstart, hstop, -, -⟩ := nextBlock_eq_some hb
        have := hseek _ _ _ hstart
        simp only
        rw [ih (n := n) (by omega) (by omega), ih (n := n) (by omega) (by omega)]

/-- A scan goes on from the end of a block. -/
theorem blocksFrom_eq (hseek : Forward seek) (hlength : 0 < length) (level : Bool) (index : Nat) :
    blocksFrom bit seek last length level index =
      match nextBlock bit seek last length level index with
      | none => []
      | some b =>
        if b.level = level then blocksFrom bit seek last length level b.stop
        else ⟨b.start, b.level⟩ :: blocksFrom bit seek last length b.level b.stop := by
  have hfuel : blocksFrom bit seek last length level index =
      blockEdges bit seek last length (last + 1) level index :=
    blockEdges_eq_of_le hseek hlength (by omega) (by omega)
  rw [hfuel, blockEdges_succ]
  cases hb : nextBlock bit seek last length level index with
  | none => rfl
  | some b =>
    obtain ⟨-, hstop, -, -⟩ := nextBlock_eq_some hb
    have hrest (l : Bool) : blockEdges bit seek last length last l b.stop =
        blocksFrom bit seek last length l b.stop :=
      blockEdges_eq_of_le hseek hlength (by omega) (by omega)
    simp only [hrest]

/-! ## The two ways to seek a block -/

/-- The search for a sample goes forward. -/
theorem forward_seekSample : Forward (seekSample bit last) :=
  fun _ _ _ h => (firstChange_eq_some_iff.1 h).1

/-- The search for a window goes forward. -/
theorem le_firstWindow (count window start n : Nat) :
    start ≤ firstWindow bit count window start n := by
  induction n generalizing start with
  | zero => exact Nat.le_refl _
  | succ n ih =>
    rw [firstWindow]
    split
    · exact Nat.le_refl _
    · exact Nat.le_trans (Nat.le_add_right _ _) (ih (start + window))

/-- The search for a window at which a block may start goes forward. -/
theorem forward_seekWindow {count window : Nat} (hwindow : 0 < window) :
    Forward (seekWindow bit count last length window) := by
  intro level index start h
  have hdiv := Nat.div_add_mod' (index + window - 1) window
  have hmod := Nat.mod_lt (index + window - 1) hwindow
  have hup : index ≤ (index + window - 1) / window * window := by omega
  simp only [seekWindow] at h
  split at h
  · exact nomatch h
  · split at h
    · cases h
      exact Nat.le_trans hup (le_firstWindow _ _ _ _)
    · cases h
      exact hup

/-! ## The end of a scan -/

/-- The edges with which a scan ends that has the given level after the last block. -/
def ending (bit : Nat → Bool) (last : Nat) (level : Bool) : List Edge :=
  if level = bit last then [⟨last + 1, bit last⟩]
  else [⟨last, bit last⟩, ⟨last + 1, bit last⟩]

/-- The edges of a scan from an index on, the level before it being the one given. -/
def edgesFrom (bit : Nat → Bool) (seek : Bool → Nat → Option Nat) (last length : Nat)
    (level : Bool) (index : Nat) : List Edge :=
  let found := blocksFrom bit seek last length level index
  found ++ ending bit last (found.getLastD ⟨index - 1, level⟩).level

/-- A scan is an opening edge and what comes after it. -/
theorem scan_eq (hseek : Forward seek) (hlength : 0 < length) (first : Nat) :
    scan bit seek first last length =
      ⟨first, bit first⟩ :: edgesFrom bit seek last length (bit first) (first + 1) := by
  have hfuel : blockEdges bit seek last length (last + 1 - first) (bit first) (first + 1) =
      blocksFrom bit seek last length (bit first) (first + 1) :=
    blockEdges_eq_of_le hseek hlength (by omega) (by omega)
  simp only [scan, edgesFrom, hfuel, Nat.add_sub_cancel, ending, List.cons_append,
    List.append_assoc]
  split <;> rfl

/-- Where there is no block, only the level at the end is left to report. -/
theorem edgesFrom_of_nil {level : Bool} {index : Nat}
    (h : blocksFrom bit seek last length level index = []) :
    edgesFrom bit seek last length level index = ending bit last level := by
  simp only [edgesFrom, h, List.getLastD_nil, List.nil_append]

/-- The level of the last edge does not depend on where the edge before the list is. -/
theorem level_getLastD (edges : List Edge) {e e' : Edge} (h : e.level = e'.level) :
    (edges.getLastD e).level = (edges.getLastD e').level := by
  cases edges with
  | nil => exact h
  | cons e'' edges => simp only [List.getLastD_cons]

/-- The first block is reported, and then what there is from its end on. -/
theorem edgesFrom_of_cons {level found : Bool} {index start stop : Nat}
    (h : blocksFrom bit seek last length level index =
      ⟨start, found⟩ :: blocksFrom bit seek last length found stop) :
    edgesFrom bit seek last length level index =
      ⟨start, found⟩ :: edgesFrom bit seek last length found stop := by
  simp only [edgesFrom, h, List.getLastD_cons, List.cons_append]
  rw [level_getLastD]
  rfl

/-- A scan goes on from block to block, up to its end. -/
theorem edgesFrom_eq (hseek : Forward seek) (hlength : 0 < length) (level : Bool) (index : Nat) :
    edgesFrom bit seek last length level index =
      match nextBlock bit seek last length level index with
      | none => ending bit last level
      | some b =>
        if b.level = level then edgesFrom bit seek last length level b.stop
        else ⟨b.start, b.level⟩ :: edgesFrom bit seek last length b.level b.stop := by
  -- The blocks follow one another as said here, and the edges are those of the blocks.
  have hblocks := @blocksFrom_eq bit seek last length hseek hlength level index
  cases hb : nextBlock bit seek last length level index with
  | none =>
    rw [hb] at hblocks
    exact edgesFrom_of_nil hblocks
  | some b =>
    simp only [hb] at hblocks
    simp only
    split
    · -- The block is passed over, and the edge before the rest is still at its level.
      rename_i hsame
      rw [if_pos hsame] at hblocks
      simp only [edgesFrom, hblocks]
      rw [level_getLastD]
      rfl
    · rename_i hchange
      rw [if_neg hchange] at hblocks
      exact edgesFrom_of_cons hblocks

/-- What holds where no block is left, and before a block if it holds behind it, holds from any index
on.  A block is passed over or reported. -/
theorem edgesFrom_induction (hseek : Forward seek) (hlength : 0 < length)
    {motive : Bool → Nat → Prop}
    (ended : ∀ level index, nextBlock bit seek last length level index = none →
      edgesFrom bit seek last length level index = ending bit last level → motive level index)
    (passed : ∀ level index b, nextBlock bit seek last length level index = some b →
      b.level = level →
      edgesFrom bit seek last length level index = edgesFrom bit seek last length level b.stop →
      motive level b.stop → motive level index)
    (reported : ∀ level index b, nextBlock bit seek last length level index = some b →
      b.level ≠ level →
      edgesFrom bit seek last length level index =
        ⟨b.start, b.level⟩ :: edgesFrom bit seek last length b.level b.stop →
      motive b.level b.stop → motive level index)
    (level : Bool) (index : Nat) : motive level index := by
  -- Every block ends behind the index, and none ends behind the range.
  induction hleft : last + 1 - index using Nat.strongRecOn generalizing level index with
  | ind n ih =>
    have hedges := @edgesFrom_eq bit seek last length hseek hlength level index
    cases hb : nextBlock bit seek last length level index with
    | none =>
      rw [hb] at hedges
      exact ended level index hb hedges
    | some b =>
      obtain ⟨hstart, hstop, hle, -⟩ := nextBlock_eq_some hb
      have hlo := hseek _ _ _ hstart
      have hrest (level : Bool) := ih (last + 1 - b.stop) (by omega) level b.stop rfl
      -- The three cases of the equation for the edges.
      simp only [hb] at hedges
      by_cases hsame : b.level = level
      · exact passed level index b hb hsame (hedges.trans (if_pos hsame)) (hrest level)
      · exact reported level index b hb hsame (hedges.trans (if_neg hsame)) (hrest b.level)

/-! ## Blocks of a single sample -/

/-- A sample at the level in question is passed over. -/
theorem seekSample_of_eq {level : Bool} {index : Nat} (hle : index ≤ last) (h : bit index = level) :
    seekSample bit last level index = seekSample bit last level (index + 1) := by
  rw [seekSample, show last + 1 - index = last + 1 - (index + 1) + 1 by omega, firstChange, if_pos h]
  rfl

/-- A sample at another level is where the search ends. -/
theorem seekSample_of_ne {level : Bool} {index : Nat} (hle : index ≤ last) (h : bit index ≠ level) :
    seekSample bit last level index = some index := by
  rw [seekSample, show last + 1 - index = last + 1 - (index + 1) + 1 by omega, firstChange, if_neg h]

/-- With blocks of one sample, a scan of single samples lists exactly the changes. -/
theorem edgesFrom_single {level : Bool} {index : Nat} (hpos : 0 < index) (hle : index ≤ last + 1)
    (hbefore : bit (index - 1) = level) :
    edgesFrom bit (seekSample bit last) last 1 level index =
      (((List.range' index (last + 1 - index)).filter fun i => bit i != bit (i - 1)).map
        fun i => ⟨i, bit i⟩) ++ [⟨last + 1, bit last⟩] := by
  have hseek : Forward (seekSample bit last) := forward_seekSample
  have hscan := @edgesFrom_eq bit (seekSample bit last) last 1 hseek Nat.one_pos
  -- Induction on the samples from the index on; the level is always that of the sample before.
  generalize hn : last + 1 - index = n
  induction n generalizing level index with
  | zero =>
    have hlast : level = bit last := by
      rw [← hbefore]
      congr 1
      omega
    rw [hscan, nextBlock_of_lt hseek (by omega)]
    exact if_pos hlast
  | succ n ih =>
    have hin : index ≤ last := by omega
    have hrest := @ih (bit index) (index + 1) (by omega) (by omega) rfl (by omega)
    by_cases hlevel : bit index = level
    · -- No block can tell this index from the next.
      have hskip : edgesFrom bit (seekSample bit last) last 1 level index =
          edgesFrom bit (seekSample bit last) last 1 level (index + 1) := by
        rw [hscan, hscan, nextBlock, nextBlock, seekSample_of_eq hin hlevel]
      have hquiet : (bit index != bit (index - 1)) = false := by
        rw [hlevel, hbefore, bne_self_eq_false]
      rw [hlevel] at hrest
      rw [hskip, hrest, List.range'_succ]
      simp only [List.filter_cons, hquiet, Bool.false_eq_true, if_false]
    · -- A change is an edge, and the block of one sample that starts with it is over behind it.
      have hchange : (bit index != bit (index - 1)) = true := by
        rw [hbefore]
        exact bne_iff_ne.2 hlevel
      rw [hscan, nextBlock, seekSample_of_ne hin hlevel, Option.bind_some, blockAt, List.range'_succ]
      simp only [List.filter_cons, hchange, if_true, List.map_cons, List.cons_append, ← hrest]
      by_cases hend : last < index + 1
      · -- The range ends with this change, so no block starts here.
        have hlast : last = index := by omega
        subst hlast
        rw [if_pos hend, hscan, nextBlock_of_lt hseek (Nat.lt_succ_of_lt hend)]
        simp only [ending, if_neg (Ne.symm hlevel), if_true]
      · simp only [if_neg hend, Nat.add_sub_cancel, if_neg hlevel]

end Waveform.Scan
