import Waveform.Resolution
import Waveform.Trace

/-!
# Searching a logic trace for edges

An edge query follows one channel through a range of samples.  From an index at which the channel
is known to have been at some level, `nextBlock` finds the next block of samples that starts with a
change.  Quiet stretches are skipped through the pyramid: `climb` moves right and up while windows
are quiet, `descend` moves right and down to the first window that is not.

Every step moves to the right (`le_of_walk`, `le_of_climb`, `le_of_descend`), and a block ends behind
the index from which it was sought (`nextBlock_bounds`).
-/

namespace Waveform

/-- Whether a channel is high in a sample, or among the changed ones in a pyramid entry. -/
def channelBit (channel : Fin 64) (word : UInt64) : Bool :=
  word.toNat.testBit channel

/-- The start of the first window of a level that lies beyond an index. -/
def nextWindow (level index : Nat) : Except Violation Nat :=
  match Word.add index 1 with
  | .ok beyond => Word.roundUp beyond (Pyramid.power level)
  | .error v => .error v

/-- The next window starts behind the index. -/
theorem lt_of_nextWindow {level index next : Nat} (h : nextWindow level index = .ok next) :
    index < next := by
  unfold nextWindow at h
  split at h
  · rename_i beyond hb
    obtain ⟨-, rfl⟩ := Word.add_eq_ok hb
    exact Word.le_of_roundUp h
  · exact nomatch h

namespace Pyramid

/-- Whether a window of a level has an entry in which the channel did not change. -/
def quiet (p : Pyramid UInt64) (channel : Fin 64) (level index : Nat) : Bool :=
  match (p.entries level)[index >>> power level]? with
  | some changed => !channelBit channel changed
  | none => false

/-- An index beyond every window that has an entry. -/
def reach (p : Pyramid UInt64) : Nat :=
  p.sizes.foldr max 0 * window 9

/-- Only ten levels can have entries. -/
theorem level_lt_of_size_ne_zero {p : Pyramid UInt64} {level : Nat} (h : p.size level ≠ 0) :
    level < 10 := by
  rw [← p.length_levels]
  apply Decidable.byContradiction
  intro hl
  apply h
  rw [size, entries, List.getD_eq_getElem?_getD, List.getElem?_eq_none (Nat.le_of_not_lt hl)]
  rfl

/-- The greatest of some numbers is at least each of them. -/
private theorem le_foldr_max_of_mem {n : Nat} {ns : List Nat} (h : n ∈ ns) :
    n ≤ ns.foldr max 0 := by
  induction ns with
  | nil => exact nomatch h
  | cons m ns ih =>
    rw [List.foldr_cons]
    cases h with
    | head => exact Nat.le_max_left _ _
    | tail _ h => exact Nat.le_trans (ih h) (Nat.le_max_right _ _)

/-- No window is quiet behind the reach of the pyramid. -/
theorem lt_reach_of_quiet {p : Pyramid UInt64} {channel : Fin 64} {level index : Nat}
    (h : p.quiet channel level index) : index < p.reach := by
  unfold quiet at h
  split at h
  · -- A quiet window has an entry, so it lies within the longest level.
    rename_i changed hget
    obtain ⟨hlt, -⟩ := Array.getElem?_eq_some_iff.1 hget
    have hl : level < 10 :=
      level_lt_of_size_ne_zero (p := p) (Nat.ne_of_gt (Nat.lt_of_le_of_lt (Nat.zero_le _) hlt))
    have hmem : p.size level ≤ p.sizes.foldr max 0 := by
      apply le_foldr_max_of_mem
      rw [sizes, size, entries, List.getD_eq_getElem?_getD,
        List.getElem?_eq_getElem (by rw [p.length_levels]; exact hl)]
      exact List.mem_map_of_mem (List.getElem_mem _)
    rw [Nat.shiftRight_eq_div_pow] at hlt
    have hwindow : window level ≤ window 9 := by
      rw [window, window, Nat.one_shiftLeft, Nat.one_shiftLeft]
      exact Nat.pow_le_pow_right (by decide) (by unfold power; omega)
    calc index < (p.entries level).size * window level := by
          rw [window, Nat.one_shiftLeft]
          exact (Nat.div_lt_iff_lt_mul (Nat.two_pow_pos _)).1 hlt
      _ ≤ p.sizes.foldr max 0 * window 9 := Nat.mul_le_mul hmem hwindow
  · exact nomatch h

/-- Moves to the right and up while windows are quiet: up at the first window of a group of 16, if
the next level has entries at all, and otherwise on to the next window.  Returns the level and the
index at which it stops. -/
def climb (p : Pyramid UInt64) (channel : Fin 64) (level index : Nat) :
    Except Violation (Nat × Nat) :=
  if _ : p.quiet channel level index then
    if index >>> power level % 16 = 0 then
      -- One entry of the next level speaks for this window and the 15 after it.
      if _ : p.size (level + 1) = 0 then .ok (level, index)
      else climb p channel (level + 1) index
    else
      match _ : nextWindow level index with
      | .ok next => climb p channel level next
      | .error v => .error v
  else .ok (level, index)
termination_by (10 - level, p.reach - index)
decreasing_by
  · have := level_lt_of_size_ne_zero ‹_›
    exact Prod.Lex.left _ _ (by omega)
  · have := lt_of_nextWindow ‹_›
    have := lt_reach_of_quiet ‹p.quiet channel level index›
    exact Prod.Lex.right _ (by omega)

/-- Moves to the right past quiet windows, and down a level at one that is not quiet, until that
happens at the level `bottom`. -/
def descend (p : Pyramid UInt64) (channel : Fin 64) (bottom level index : Nat) :
    Except Violation Nat :=
  if _ : p.quiet channel level index then
    match _ : nextWindow level index with
    | .ok next => descend p channel bottom level next
    | .error v => .error v
  else if level ≤ bottom then .ok index
  -- Something changed in this window, or it has no entry: look at its parts.
  else descend p channel bottom (level - 1) index
termination_by (level, p.reach - index)
decreasing_by
  · have := lt_of_nextWindow ‹_›
    have := lt_reach_of_quiet ‹p.quiet channel level index›
    exact Prod.Lex.right _ (by omega)
  · exact Prod.Lex.left _ _ (by omega)

/-- Climbing does not go back. -/
theorem le_of_climb {p : Pyramid UInt64} {channel : Fin 64} {level index : Nat} {r : Nat × Nat}
    (h : p.climb channel level index = .ok r) : index ≤ r.2 := by
  fun_induction climb p channel level index with
  | case1 => cases h; exact Nat.le_refl _
  | case2 _ _ _ _ _ ih => exact ih h
  | case3 _ _ _ _ _ hn ih => exact Nat.le_trans (Nat.le_of_lt (lt_of_nextWindow hn)) (ih h)
  | case4 => exact nomatch h
  | case5 => cases h; exact Nat.le_refl _

/-- Descending does not go back. -/
theorem le_of_descend {p : Pyramid UInt64} {channel : Fin 64} {bottom level index stop : Nat}
    (h : p.descend channel bottom level index = .ok stop) : index ≤ stop := by
  fun_induction descend p channel bottom level index with
  | case1 _ _ _ _ hn ih => exact Nat.le_trans (Nat.le_of_lt (lt_of_nextWindow hn)) (ih h)
  | case2 => exact nomatch h
  | case3 => cases h; exact Nat.le_refl _
  | case4 _ _ _ _ ih => exact ih h

end Pyramid

/-- A range of samples, the channel that is followed through it and the resolution. -/
structure EdgeQuery where
  first : Nat
  last : Nat
  channel : Fin 64
  detail : Detail
  block : Nat
  ordered : first ≤ last
  bounded : last + 1 < Word.limit
  block_pos : 0 < block

/-- A block of samples that are reported as one: the range from `start` up to `stop`, and the level
of its last sample. -/
structure EdgeBlock where
  start : Nat
  stop : Nat
  level : Bool

namespace Trace

/-- The level of a channel at a sample. -/
def bit (t : Trace .logic) (channel : Fin 64) (index : Nat) : Except Violation Bool := do
  return channelBit channel (← t.samples.sample index)

/-- The first of the next `n` samples at which the channel is not at the given level, or the index
after them. -/
def walk (t : Trace .logic) (channel : Fin 64) (level : Bool) (index : Nat) :
    Nat → Except Violation Nat
  | 0 => .ok index
  | n + 1 =>
    match t.bit channel index with
    | .ok found => if found = level then walk t channel level (index + 1) n else .ok index
    | .error v => .error v

/-- Walking does not go back. -/
theorem le_of_walk {t : Trace .logic} {channel : Fin 64} {level : Bool} {index n stop : Nat}
    (h : t.walk channel level index n = .ok stop) : index ≤ stop := by
  fun_induction walk t channel level index n with
  | case1 => cases h; exact Nat.le_refl _
  | case2 _ _ _ ih => exact Nat.le_of_succ_le (ih h)
  | case3 => cases h; exact Nat.le_refl _
  | case4 => exact nomatch h

/-- Moves to where a skip may start: the start of a window.  A query for single samples looks at
the samples on the way, a query for windows at the one it arrives at.  Returns the place and
whether the channel is at the given level up to there, or nothing if the range ends before. -/
def approach (t : Trace .logic) (q : EdgeQuery) (level : Bool) (index : Nat) :
    Except Violation (Option (Nat × Bool)) :=
  match q.detail with
  | .samples => do
    -- 16 samples make the shortest window.
    let stop := min q.last (← Word.roundUp index 4)
    let start ← t.walk q.channel level index (stop - index)
    return some (start, start = stop)
  | .windows bottom => do
    let start ← Word.roundUp index (Pyramid.power bottom)
    if q.last ≤ start then return none
    return some (start, (← t.bit q.channel start) = level)

/-- Skips quiet windows, and then, in a query for single samples, quiet samples. -/
def skip (t : Trace .logic) (q : EdgeQuery) (level : Bool) (index : Nat) :
    Except Violation Nat := do
  let bottom := q.detail.level
  let top ← Pyramid.climb t.pyramid q.channel bottom index
  let start ← Pyramid.descend t.pyramid q.channel bottom top.1 top.2
  match q.detail with
  -- The change lies within the window at which the skip ended, if that window has an entry.
  | .samples => t.walk q.channel level start (q.last - start)
  | .windows _ => return start

/-- The start of the next block, from where an approach has led.  Nothing is skipped if a change was
met on the way, or if the pyramid has no entries at the level in question. -/
def blockStart (t : Trace .logic) (q : EdgeQuery) (level : Bool) (near : Nat) (quiet : Bool) :
    Except Violation Nat :=
  if quiet ∧ t.pyramid.size q.detail.level ≠ 0 then t.skip q level near else .ok near

/-- The next block that starts with a change, from an index before which the channel is at the
given level.  There is none if it would run past the end of the range. -/
def nextBlock (t : Trace .logic) (q : EdgeQuery) (level : Bool) (index : Nat) :
    Except Violation (Option EdgeBlock) := do
  if q.last < Word.addCapped index q.block then return none
  match ← t.approach q level index with
  | none => return none
  | some (near, quiet) =>
    let start ← t.blockStart q level near quiet
    let stop := Word.addCapped start q.block
    if q.last < stop then return none
    return some ⟨start, stop, ← t.bit q.channel (stop - 1)⟩

/-- The way to a window does not lead back. -/
theorem le_of_approach {t : Trace .logic} {q : EdgeQuery} {level : Bool} {index near : Nat}
    {quiet : Bool} (h : t.approach q level index = .ok (some (near, quiet))) : index ≤ near := by
  simp only [approach, bind, Except.bind, pure, Except.pure] at h
  -- By samples the approach is a walk, and by windows it rounds up.
  split at h
  · split at h
    · exact nomatch h
    · split at h
      · exact nomatch h
      · cases h
        exact le_of_walk ‹_›
  · split at h
    · exact nomatch h
    · have hle := Word.le_of_roundUp ‹_›
      split at h
      · exact nomatch h
      · split at h
        · exact nomatch h
        · cases h
          exact hle

/-- Passing over quiet windows does not lead back. -/
theorem le_of_skip {t : Trace .logic} {q : EdgeQuery} {level : Bool} {index start : Nat}
    (h : t.skip q level index = .ok start) : index ≤ start := by
  simp only [skip, bind, Except.bind, pure, Except.pure] at h
  split at h
  · exact nomatch h
  · rename_i top htop
    -- The climb, the descent and the walk go forward.
    split at h
    · exact nomatch h
    · rename_i low hlow
      have := Pyramid.le_of_climb htop
      have := Pyramid.le_of_descend hlow
      split at h
      · have := le_of_walk h
        omega
      · cases h
        omega

/-- The start of a block does not lie before the place from which it is looked for. -/
theorem le_of_blockStart {t : Trace .logic} {q : EdgeQuery} {level : Bool} {near start : Nat}
    {quiet : Bool} (h : t.blockStart q level near quiet = .ok start) : near ≤ start := by
  unfold blockStart at h
  split at h
  · exact le_of_skip h
  · cases h
    exact Nat.le_refl _

/-- A block lies within the range and ends behind the index. -/
theorem nextBlock_bounds {t : Trace .logic} {q : EdgeQuery} {level : Bool} {index : Nat}
    {b : EdgeBlock} (h : t.nextBlock q level index = .ok (some b)) :
    index < b.stop ∧ b.stop ≤ q.last := by
  simp only [nextBlock, bind, Except.bind, pure, Except.pure] at h
  split at h
  · exact nomatch h
  · split at h
    · exact nomatch h
    · split at h
      · exact nomatch h
      · rename_i near quiet hnear
        have := le_of_approach hnear
        split at h
        · exact nomatch h
        · rename_i start hstart
          have := le_of_blockStart hstart
          split at h
          · exact nomatch h
          · split at h
            · exact nomatch h
            · -- The block starts at the index or behind it, has samples and ends within the range.
              cases h
              have := q.bounded
              have := q.block_pos
              simp only [Word.addCapped, Word.limit] at *
              omega

end Trace

end Waveform
