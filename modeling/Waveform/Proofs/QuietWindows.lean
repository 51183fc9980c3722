import Waveform.Logic.EdgeSearch
import Waveform.Proofs.PyramidGrowth
import Waveform.Proofs.WordRounding

/-!
# Skipping quiet windows

`Pyramid.climb` and `Pyramid.descend` look at entries of several levels, in an order that depends on
which levels there are.  Together they do what a walk along a single level does: they stop at the
first window of the level `bottom` that is not quiet.

What makes this work is that an entry joins those below it (`Pyramid.Stacked`): a quiet window has
only quiet parts.  So whatever the two searches pass over is quiet at the level `bottom`, and the
place at which they stop is the start of a window there.

## Key results

- `quiet_of_le`: in a quiet window all parts are quiet
- `climb_quiet`: climbing passes over quiet windows only
- `descend_first`: descending ends at the first window that is not quiet
- `firstLoud_of_ok`: the two together end at the first window that is not quiet
- `exists_first_loud`: they always end
-/

namespace Waveform

/-- A channel is in the join of two entries if it is in one of them. -/
theorem channelBit_or (channel : Fin 64) (a b : UInt64) :
    channelBit channel (a ||| b) = (channelBit channel a || channelBit channel b) := by
  rw [channelBit, channelBit, channelBit, UInt64.toNat_or, Nat.testBit_or]

/-- A channel that did not change in a run did not change in any of its items. -/
theorem Signal.describes_quiet (channel : Fin 64) (source : Nat → UInt64) :
    changes.Describes fun first n entry =>
      channelBit channel entry = false →
        ∀ i, first ≤ i → i < first + n → channelBit channel (source i) = false where
  empty _ _ i hlo hhi := by omega
  join first m n a b hleft hright hquiet i hlo hhi := by
    have hboth : (channelBit channel a || channelBit channel b) = false :=
      (channelBit_or channel a b).symm.trans hquiet
    rw [Bool.or_eq_false_iff] at hboth
    by_cases hi : i < first + m
    · exact hleft hboth.1 i hlo hi
    · exact hright hboth.2 i (by omega) (by omega)

namespace Pyramid

/-! ## Windows and indices -/

/-- Shifting by the power of a level is dividing by its window. -/
theorem shiftRight_power (level index : Nat) : index >>> power level = index / window level := by
  rw [Nat.shiftRight_eq_div_pow, window, Nat.one_shiftLeft]

/-- The window after the one of an index starts behind the index, and the indices in between are in
the same window. -/
theorem div_window_eq {level index i : Nat} (hlo : index ≤ i)
    (hhi : i < (index / window level + 1) * window level) :
    i / window level = index / window level := by
  apply Nat.le_antisymm
  · exact Nat.le_of_lt_succ ((Nat.div_lt_iff_lt_mul (window_pos level)).2 hhi)
  · exact Nat.div_le_div_right hlo

/-- The windows of a level are made up of those of each finer one. -/
theorem window_dvd_window {bottom level : Nat} (h : bottom ≤ level) :
    window bottom ∣ window level := by
  induction h with
  | refl => exact Nat.dvd_refl _
  | step _ ih =>
    rw [window_succ]
    exact Nat.dvd_trans ih (Nat.dvd_mul_right _ _)

/-- The first window of a group of 16 starts where a window of the next level starts. -/
theorem window_succ_dvd {level index : Nat} (halign : window level ∣ index)
    (hfirst : index >>> power level % 16 = 0) : window (level + 1) ∣ index := by
  rw [shiftRight_power] at hfirst
  obtain ⟨m, rfl⟩ := halign
  rw [Nat.mul_div_cancel_left _ (window_pos level)] at hfirst
  rw [window_succ]
  exact Nat.mul_dvd_mul_left _ (Nat.dvd_of_mod_eq_zero hfirst)

/-- A window of one of the ten levels is a power of two that fits in 64 bits. -/
theorem power_lt {level : Nat} (hlevel : level < 10) : power level < 64 := by
  unfold power
  omega

/-- Where there is an index behind, the next window is found by rounding that up. -/
theorem nextWindow_of_lt {level index : Nat} (h : index + 1 < Word.limit) :
    nextWindow level index = Word.roundUp (index + 1) (power level) := by
  have hbeyond : Word.add index 1 = .ok (index + 1) := if_pos h
  rw [nextWindow, hbeyond]

/-- The next window is the one after that of the index. -/
theorem nextWindow_eq_ok {level index next : Nat} (h : nextWindow level index = .ok next) :
    next = (index / window level + 1) * window level := by
  unfold nextWindow at h
  split at h
  · rename_i beyond hbeyond
    obtain ⟨-, rfl⟩ := Word.add_eq_ok hbeyond
    obtain ⟨-, -, rfl⟩ := Word.roundUp_eq_ok h
    show (index + 1 + window level - 1) / window level * window level = _
    rw [show index + 1 + window level - 1 = index + window level by omega,
      Nat.add_div_right _ (window_pos level)]
  · exact nomatch h

/-! ## Quiet windows -/

/-- A window is quiet if it has an entry in which the channel did not change. -/
theorem quiet_eq_true_iff {p : Pyramid UInt64} {channel : Fin 64} {level index : Nat} :
    p.quiet channel level index = true ↔
      ∃ entry, (p.entries level)[index / window level]? = some entry ∧
        channelBit channel entry = false := by
  unfold quiet
  rw [shiftRight_power]
  -- A window without an entry is not quiet.
  cases (p.entries level)[index / window level]? with
  | none =>
    constructor
    · intro h
      exact nomatch h
    · intro hparts
      obtain ⟨_, h, -⟩ := hparts
      exact nomatch h
  | some entry =>
    constructor
    · intro h
      exact ⟨entry, rfl, (Bool.not_eq_true' _).mp h⟩
    · intro hparts
      obtain ⟨_, h, hquiet⟩ := hparts
      cases h
      exact (Bool.not_eq_true' _).mpr hquiet

variable {p : Pyramid UInt64} {channel : Fin 64}

/-- Quietness is a matter of the window. -/
theorem quiet_congr {level i j : Nat} (h : i / window level = j / window level) :
    p.quiet channel level i = p.quiet channel level j := by
  unfold quiet
  rw [shiftRight_power, shiftRight_power, h]

/-- A quiet window lies within the entries of its level. -/
theorem div_lt_size_of_quiet {level index : Nat} (h : p.quiet channel level index) :
    index / window level < p.size level := by
  obtain ⟨entry, hget, -⟩ := quiet_eq_true_iff.1 h
  exact (Array.getElem?_eq_some_iff.1 hget).1

/-- Only levels that there are have quiet windows. -/
theorem level_lt_of_quiet {level index : Nat} (h : p.quiet channel level index) : level < 10 :=
  level_lt_of_size_ne_zero (Nat.ne_of_gt (Nat.zero_lt_of_lt (div_lt_size_of_quiet h)))

/-- The 16 parts of a quiet window are quiet. -/
theorem quiet_of_quiet_succ (hstacked : p.Stacked Signal.changes) {level i j : Nat}
    (h : p.quiet channel (level + 1) i)
    (hsame : j / window (level + 1) = i / window (level + 1)) : p.quiet channel level j := by
  have hlt := div_lt_size_of_quiet h
  obtain ⟨entry, hget, hquiet⟩ := quiet_eq_true_iff.1 h
  have hlevel := level_lt_of_quiet h
  rw [hstacked.size_succ level hlevel] at hlt
  -- The window of `j` is one of the 16 that the window of `i` is made of.
  have hgroup : j / window level / 16 = i / window (level + 1) := by
    rw [Nat.div_div_eq_div_mul, ← window_succ]
    exact hsame
  have hin : j / window level < (p.entries level).size := by
    show j / window level < p.size level
    omega
  refine quiet_eq_true_iff.2 ⟨_, Array.getElem?_eq_getElem hin, ?_⟩
  -- The entry above is the join of these 16 entries, so none of them tells of a change.
  let source := fun n => (p.entries level).getD n 0
  have hleaf : ∀ n, n < 16 * (p.entries (level + 1)).size →
      channelBit channel (source n) = false →
        ∀ m, n * 1 ≤ m → m < n * 1 + 1 → channelBit channel (source m) = false := by
    intro n _ hn m hlo hhi
    rwa [show m = n by omega]
  have hparts := (hstacked.joins_succ level).describes (Signal.describes_quiet channel source)
    hleaf hget hquiet (j / window level) (by omega) (by omega)
  have hsource : source (j / window level) = (p.entries level)[j / window level] := by
    simp only [source, Array.getD_eq_getD_getElem?, Array.getElem?_eq_getElem hin,
      Option.getD_some]
  rwa [← hsource]

/-- In a quiet window all parts are quiet. -/
theorem quiet_of_le (hstacked : p.Stacked Signal.changes) {bottom level i j : Nat}
    (hle : bottom ≤ level) (h : p.quiet channel level i)
    (hsame : j / window level = i / window level) : p.quiet channel bottom j := by
  induction hle generalizing i with
  | refl => rwa [quiet_congr hsame]
  | step _ ih => exact ih (quiet_of_quiet_succ hstacked h hsame) rfl

/-- A quiet window starts at or before the index at which the search is, so it can pass over it. -/
theorem quiet_of_lt_nextWindow (hstacked : p.Stacked Signal.changes)
    {bottom level index next : Nat} (hle : bottom ≤ level) (h : p.quiet channel level index)
    (hnext : nextWindow level index = .ok next) {i : Nat} (hlo : index ≤ i) (hhi : i < next) :
    p.quiet channel bottom i := by
  rw [nextWindow_eq_ok hnext] at hhi
  exact quiet_of_le hstacked hle h (div_window_eq hlo hhi)

/-- Two stretches of quiet windows, one behind the other, are one. -/
theorem quiet_trans {level first next stop : Nat}
    (hbefore : ∀ i, first ≤ i → i < next → p.quiet channel level i)
    (hbehind : ∀ i, next ≤ i → i < stop → p.quiet channel level i) :
    ∀ i, first ≤ i → i < stop → p.quiet channel level i := by
  intro i hlo hhi
  by_cases hi : i < next
  · exact hbefore i hlo hi
  · exact hbehind i (Nat.le_of_not_lt hi) hhi

/-- The next window starts at a multiple of the window. -/
theorem dvd_of_nextWindow {level index next : Nat} (hnext : nextWindow level index = .ok next) :
    window level ∣ next := by
  rw [nextWindow_eq_ok hnext]
  exact Nat.dvd_mul_left _ _

/-! ## The two searches -/

/-- Climbing passes over quiet windows only, and ends where a window of the level starts that it has
reached. -/
theorem climb_quiet (hstacked : p.Stacked Signal.changes) {bottom level index : Nat} {r : Nat × Nat}
    (h : p.climb channel level index = .ok r) (hle : bottom ≤ level)
    (halign : window level ∣ index) :
    bottom ≤ r.1 ∧ window r.1 ∣ r.2 ∧ ∀ i, index ≤ i → i < r.2 → p.quiet channel bottom i := by
  fun_induction climb p channel level index with
  | case1 =>
    cases h
    exact ⟨hle, halign, fun i hlo hhi => absurd hhi (Nat.not_lt.2 hlo)⟩
  | case2 _ _ _ hfirst _ ih =>
    -- Up: the first window of a group starts where the window above does.
    exact ih h (Nat.le_succ_of_le hle) (window_succ_dvd halign hfirst)
  | case3 _ _ hquiet _ next hnext ih =>
    -- On: what lies before the next window is in the quiet one.
    obtain ⟨hlevel, hdvd, hpassed⟩ := ih h hle (dvd_of_nextWindow hnext)
    have hbefore := fun i => quiet_of_lt_nextWindow hstacked hle hquiet hnext (i := i)
    exact ⟨hlevel, hdvd, quiet_trans hbefore hpassed⟩
  | case4 => cases h
  | case5 =>
    cases h
    exact ⟨hle, halign, fun i hlo hhi => absurd hhi (Nat.not_lt.2 hlo)⟩

/-- Descending ends at the first window of the level `bottom` that is not quiet. -/
theorem descend_first (hstacked : p.Stacked Signal.changes) {bottom level index stop : Nat}
    (h : p.descend channel bottom level index = .ok stop) (hle : bottom ≤ level)
    (halign : window level ∣ index) :
    window bottom ∣ stop ∧ p.quiet channel bottom stop = false ∧
      ∀ i, index ≤ i → i < stop → p.quiet channel bottom i := by
  fun_induction descend p channel bottom level index with
  -- On: what lies before the next window is in the quiet one.
  | case1 _ _ hquiet next hnext ih =>
    obtain ⟨hdvd, hloud, hpassed⟩ := ih h hle (dvd_of_nextWindow hnext)
    have hbefore := fun i => quiet_of_lt_nextWindow hstacked hle hquiet hnext (i := i)
    exact ⟨hdvd, hloud, quiet_trans hbefore hpassed⟩
  | case2 => cases h
  | case3 level index hloud hbottom =>
    -- At the bottom the search ends.
    cases h
    have heq : bottom = level := Nat.le_antisymm hle hbottom
    subst heq
    exact ⟨halign, Bool.eq_false_iff.2 hloud, fun i hlo hhi => absurd hhi (Nat.not_lt.2 hlo)⟩
  | case4 _ _ _ hbottom ih =>
    -- Down: a window starts where the first of its parts does.
    exact ih h (by omega) (Nat.dvd_trans (window_dvd_window (Nat.sub_le _ _)) halign)

/-! ## The searches end -/

/-- Every window that has an entry, and the one after it, ends within 64 bits. -/
def Fits (p : Pyramid UInt64) : Prop :=
  ∀ level, level < 10 → (p.size level + 1) * window level < Word.limit

/-- Behind a quiet window there is always a next one, if all entries lie within 64 bits. -/
theorem nextWindow_ok (hfits : p.Fits) {level index : Nat} (h : p.quiet channel level index) :
    ∃ next, nextWindow level index = .ok next := by
  have hlevel := level_lt_of_quiet h
  have hend : index < p.size level * window level :=
    (Nat.div_lt_iff_lt_mul (window_pos level)).1 (div_lt_size_of_quiet h)
  have hroom := hfits level hlevel
  rw [Nat.add_mul, Nat.one_mul] at hroom
  have hpos := window_pos level
  rw [nextWindow_of_lt (by omega)]
  exact ⟨_, Word.roundUp_ok (power_lt hlevel)
    (by show index + 1 + window level < Word.limit; omega)⟩

/-- Climbing ends, if all entries lie within 64 bits. -/
theorem climb_ok (hfits : p.Fits) (channel : Fin 64) (level index : Nat) :
    ∃ r, p.climb channel level index = .ok r := by
  fun_induction climb p channel level index with
  | case1 => exact ⟨_, rfl⟩
  | case2 _ _ _ _ _ ih => exact ih
  | case3 _ _ _ _ _ _ ih => exact ih
  | case4 _ _ hquiet _ v herror =>
    obtain ⟨next, hnext⟩ := nextWindow_ok hfits hquiet
    cases herror.symm.trans hnext
  | case5 => exact ⟨_, rfl⟩

/-- Descending ends, if all entries lie within 64 bits. -/
theorem descend_ok (hfits : p.Fits) (channel : Fin 64) (bottom level index : Nat) :
    ∃ stop, p.descend channel bottom level index = .ok stop := by
  fun_induction descend p channel bottom level index with
  | case1 _ _ _ _ _ ih => exact ih
  | case2 _ _ hquiet v herror =>
    obtain ⟨next, hnext⟩ := nextWindow_ok hfits hquiet
    cases herror.symm.trans hnext
  | case3 => exact ⟨_, rfl⟩
  | case4 _ _ _ _ ih => exact ih

/-- The first window of a level, from an index on, that is not quiet starts at `stop`. -/
structure FirstLoud (p : Pyramid UInt64) (channel : Fin 64) (level index stop : Nat) : Prop where
  le : index ≤ stop
  dvd : window level ∣ stop
  loud : p.quiet channel level stop = false
  quiet : ∀ i, index ≤ i → i < stop → p.quiet channel level i

/-- Climbing and then descending lead from the start of a window to the first window that is not quiet,
as a walk along the level would. -/
theorem firstLoud_of_ok (hstacked : p.Stacked Signal.changes) {bottom index stop : Nat}
    {top : Nat × Nat} (htop : p.climb channel bottom index = .ok top)
    (hstop : p.descend channel bottom top.1 top.2 = .ok stop) (halign : window bottom ∣ index) :
    p.FirstLoud channel bottom index stop := by
  -- What was passed over on the way up, and then on the way down.
  obtain ⟨hlevel, hdvd, hclimbed⟩ := climb_quiet hstacked htop (Nat.le_refl _) halign
  obtain ⟨hdvd', hloud, hdescended⟩ := descend_first hstacked hstop hlevel hdvd
  exact ⟨Nat.le_trans (le_of_climb htop) (le_of_descend hstop), hdvd', hloud,
    quiet_trans hclimbed hdescended⟩

/-- Climbing and then descending always ends, at or behind the index at which it began.  From the
start of a window it ends at the first window that is not quiet. -/
theorem exists_first_loud (hstacked : p.Stacked Signal.changes) (hfits : p.Fits)
    (channel : Fin 64) (bottom index : Nat) :
    ∃ top stop, p.climb channel bottom index = .ok top ∧
      p.descend channel bottom top.1 top.2 = .ok stop ∧ index ≤ stop ∧
      (window bottom ∣ index → p.FirstLoud channel bottom index stop) := by
  obtain ⟨top, htop⟩ := climb_ok hfits channel bottom index
  obtain ⟨stop, hstop⟩ := descend_ok hfits channel bottom top.1 top.2
  have hle : index ≤ stop := Nat.le_trans (le_of_climb htop) (le_of_descend hstop)
  exact ⟨top, stop, htop, hstop, hle, firstLoud_of_ok hstacked htop hstop⟩

end Pyramid

end Waveform
