import Mathlib.Data.Nat.Find
import Waveform.Proofs.QuietWindows

/-!
# The search through the levels against a search along one level

A search along a single level tries the starts of its windows one after the other, until a window has no
entry or one that tells of a change.  `Pyramid.climb` and then `Pyramid.descend` lead to the same place
on every pyramid whose levels join one another, whichever levels there are.

The place is always there: behind the last entry of the level no window has one.  On a pyramid with
entries for windows that end at `2 ^ 64` or beyond it may lie there too, and is then no index any more.
Exactly in that case the search breaks its contract, in the sum that leads to the next window.  A pyramid
over the samples of a trace has no such windows (`Trace.Summed.fits`).

## Key results

- `FirstLoud.isLeast`: the first window that is not quiet, as the least of the places
- `nextWindow_cases`: from a quiet window to the next one, or to the end of 64 bits
- `climb_cases`, `descend_cases`: each search ends within 64 bits, unless all windows there are quiet
- `climb_descend_eq_least`: the two searches end at the least of the places
-/

namespace Waveform

namespace Pyramid

/-- The places at which a search along a level may end that sets out from an index: the starts of windows
that have no entry, or one in which the channel changed. -/
def loudStarts (p : Pyramid UInt64) (channel : Fin 64) (level index : Nat) : Set Nat :=
  {i | index ≤ i ∧ window level ∣ i ∧
    (p.size level ≤ i / window level ∨
      ∃ entry, (p.entries level)[i / window level]? = some entry ∧ channelBit channel entry = true)}

variable {p : Pyramid UInt64} {channel : Fin 64} {bottom level index : Nat}

/-- A window that is not quiet has no entry, or one in which the channel changed. -/
theorem quiet_eq_false_iff :
    p.quiet channel level index = false ↔
      p.size level ≤ index / window level ∨
        ∃ entry, (p.entries level)[index / window level]? = some entry ∧
          channelBit channel entry = true := by
  rw [← Bool.not_eq_true, quiet_eq_true_iff]
  constructor
  · -- A window is not quiet if it has no entry, or one that tells of a change.
    intro hloud
    rcases Nat.lt_or_ge (index / window level) (p.size level) with hin | hout
    · have hget := Array.getElem?_eq_getElem hin
      exact .inr ⟨_, hget, Bool.not_eq_false _ ▸ fun hquiet => hloud ⟨_, hget, hquiet⟩⟩
    · exact .inl hout
  · rintro (hout | ⟨entry, hget, hchange⟩) ⟨entry', hget', hquiet⟩
    · exact Nat.not_lt_of_le hout (Array.getElem?_eq_some_iff.1 hget').1
    · cases hget.symm.trans hget'
      rw [hquiet] at hchange
      exact nomatch hchange

theorem mem_loudStarts_iff {i : Nat} :
    i ∈ p.loudStarts channel level index ↔
      index ≤ i ∧ window level ∣ i ∧ p.quiet channel level i = false := by
  rw [quiet_eq_false_iff]
  exact Iff.rfl

/-- The first window that is not quiet is the least of the places. -/
theorem FirstLoud.isLeast {stop : Nat} (h : p.FirstLoud channel level index stop) :
    IsLeast (p.loudStarts channel level index) stop := by
  constructor
  · exact mem_loudStarts_iff.2 ⟨h.le, h.dvd, h.loud⟩
  · intro i hi
    obtain ⟨hle, -, hloud⟩ := mem_loudStarts_iff.1 hi
    -- What lies before the first one is quiet.
    apply Nat.le_of_not_lt
    intro hlt
    rw [h.quiet i hle hlt] at hloud
    exact nomatch hloud

/-- A search along a level ends behind the last entry at the latest. -/
theorem max_mem_loudStarts (halign : window level ∣ index) :
    max index (p.size level * window level) ∈ p.loudStarts channel level index := by
  refine ⟨Nat.le_max_left _ _, ?_, .inl ?_⟩
  · rcases Nat.le_total index (p.size level * window level) with hle | hle
    · rw [Nat.max_eq_right hle]
      exact Nat.dvd_mul_left _ _
    · rw [Nat.max_eq_left hle]
      exact halign
  · rw [Nat.le_div_iff_mul_le (window_pos level)]
    exact Nat.le_max_right _ _

theorem exists_isLeast_loudStarts (p : Pyramid UInt64) (channel : Fin 64)
    (halign : window level ∣ index) :
    ∃ stop, IsLeast (p.loudStarts channel level index) stop := by
  classical
  have hsome : ∃ i, i ∈ p.loudStarts channel level index := ⟨_, max_mem_loudStarts halign⟩
  exact ⟨Nat.find hsome, Nat.find_spec hsome, fun i hi => Nat.find_min' hsome hi⟩

/-! ## The end of 64 bits -/

/-- From the start of a quiet window the next one is reached, unless the quiet one is the last within
64 bits. -/
theorem nextWindow_cases (h : p.quiet channel level index) (halign : window level ∣ index)
    (hindex : index < Word.limit) :
    (index + window level < Word.limit ∧
      nextWindow level index = .ok (index + window level)) ∨
    (index + window level = Word.limit ∧ nextWindow level index = .error .addOverflow) := by
  have hpower := power_lt (level_lt_of_quiet h)
  have hdvd : window level ∣ Word.limit := Word.one_shiftLeft_dvd_limit hpower
  have hnext : window level ∣ index + window level := Nat.dvd_add halign (Nat.dvd_refl _)
  have hstep : window level ≤ Word.limit - index :=
    Nat.le_of_dvd (Nat.sub_pos_of_lt hindex) (Nat.dvd_sub hdvd halign)
  -- All lengths are multiples of 16, so where one number fits behind a window, 16 do.
  have hshort : 16 ∣ window level := window_dvd_window (Nat.zero_le level)
  have hlong : 16 ≤ window level := Nat.le_of_dvd (window_pos level) hshort
  have hroom : 16 ∣ Word.limit - (index + window level) :=
    Nat.dvd_trans hshort (Nat.dvd_sub hdvd hnext)
  rw [nextWindow_of_lt (by omega)]
  rcases Nat.lt_or_ge (index + window level) Word.limit with hwithin | hover
  · refine .inl ⟨hwithin, ?_⟩
    have hwhole : (index + 1 + window level - 1) / window level * window level =
        index + window level := by
      rw [show index + 1 + window level - 1 = index + window level by omega]
      exact Nat.div_mul_cancel hnext
    rw [Word.roundUp_ok hpower (by show index + 1 + window level < Word.limit; omega)]
    exact congrArg Except.ok hwhole
  · refine .inr ⟨by omega, ?_⟩
    rw [Word.roundUp_eq hpower]
    exact if_neg (by show ¬ index + 1 + window level < Word.limit; omega)

theorem lt_limit_of_nextWindow (h : p.quiet channel level index) (halign : window level ∣ index)
    (hindex : index < Word.limit) {next : Nat} (hnext : nextWindow level index = .ok next) :
    next < Word.limit := by
  rcases nextWindow_cases h halign hindex with ⟨hlimit, hok⟩ | ⟨-, herror⟩
  · cases hok.symm.trans hnext
    exact hlimit
  · cases herror.symm.trans hnext

/-- From an index on all windows within 64 bits are quiet. -/
def QuietOn (p : Pyramid UInt64) (channel : Fin 64) (level index : Nat) : Prop :=
  ∀ i, index ≤ i → i < Word.limit → p.quiet channel level i

/-- A search that cannot go on has come to the last window, and that one is quiet too. -/
theorem quietOn_of_nextWindow_error (hstacked : p.Stacked Signal.changes) (hle : bottom ≤ level)
    (h : p.quiet channel level index) (halign : window level ∣ index) (hindex : index < Word.limit)
    {v : Violation} (hnext : nextWindow level index = .error v) :
    v = .addOverflow ∧ p.QuietOn channel bottom index := by
  rcases nextWindow_cases h halign hindex with ⟨-, hok⟩ | ⟨hlimit, herror⟩
  · cases hok.symm.trans hnext
  · cases herror.symm.trans hnext
    refine ⟨rfl, fun i hlo hhi => quiet_of_le hstacked hle h (div_window_eq hlo ?_)⟩
    rwa [Nat.add_mul, Nat.one_mul, Nat.div_mul_cancel halign, hlimit]

/-- Climbing ends within 64 bits, unless all windows there are quiet. -/
theorem climb_cases (hstacked : p.Stacked Signal.changes) (channel : Fin 64) (hle : bottom ≤ level)
    (halign : window level ∣ index) (hindex : index < Word.limit) :
    (∃ r, p.climb channel level index = .ok r ∧ r.2 < Word.limit) ∨
    (p.climb channel level index = .error .addOverflow ∧ p.QuietOn channel bottom index) := by
  -- Case by case along the climb. All cases but the overflow carry on to a place that is a word.
  fun_induction climb p channel level index with
  | case1 => exact .inl ⟨_, rfl, hindex⟩
  | case2 _ _ _ hfirst _ ih =>
    exact ih (Nat.le_succ_of_le hle) (window_succ_dvd halign hfirst) hindex
  | case3 _ _ hquiet _ next hnext ih =>
    have hlimit := lt_limit_of_nextWindow hquiet halign hindex hnext
    -- Where the rest overflows, all that lies before it is quiet as well.
    rcases ih hle (dvd_of_nextWindow hnext) hlimit with hends | ⟨herror, hrest⟩
    · exact .inl hends
    · have hbefore := fun i => quiet_of_lt_nextWindow hstacked hle hquiet hnext (i := i)
      exact .inr ⟨herror, quiet_trans hbefore hrest⟩
  | case4 _ _ hquiet _ v hnext =>
    obtain ⟨rfl, hall⟩ := quietOn_of_nextWindow_error hstacked hle hquiet halign hindex hnext
    exact .inr ⟨rfl, hall⟩
  | case5 => exact .inl ⟨_, rfl, hindex⟩

/-- So does descending. -/
theorem descend_cases (hstacked : p.Stacked Signal.changes) (channel : Fin 64) (hle : bottom ≤ level)
    (halign : window level ∣ index) (hindex : index < Word.limit) :
    (∃ stop, p.descend channel bottom level index = .ok stop ∧ stop < Word.limit) ∨
    (p.descend channel bottom level index = .error .addOverflow ∧
      p.QuietOn channel bottom index) := by
  -- Case by case along the descent.
  fun_induction descend p channel bottom level index with
  | case1 _ _ hquiet next hnext ih =>
    have hlimit := lt_limit_of_nextWindow hquiet halign hindex hnext
    rcases ih hle (dvd_of_nextWindow hnext) hlimit with hends | ⟨herror, hrest⟩
    · exact .inl hends
    · have hbefore := fun i => quiet_of_lt_nextWindow hstacked hle hquiet hnext (i := i)
      exact .inr ⟨herror, quiet_trans hbefore hrest⟩
  | case2 _ _ hquiet v hnext =>
    obtain ⟨rfl, hall⟩ := quietOn_of_nextWindow_error hstacked hle hquiet halign hindex hnext
    exact .inr ⟨rfl, hall⟩
  | case3 => exact .inl ⟨_, rfl, hindex⟩
  | case4 _ _ _ hbottom ih =>
    -- Down: a window starts where the first of its parts does.
    exact ih (by omega) (Nat.dvd_trans (window_dvd_window (Nat.sub_le _ _)) halign) hindex

/-- Where all windows from an index on are quiet, a search along the level does not end within 64 bits. -/
theorem QuietOn.limit_le (h : p.QuietOn channel level index) {stop : Nat}
    (hstop : stop ∈ p.loudStarts channel level index) : Word.limit ≤ stop := by
  obtain ⟨hle, -, hloud⟩ := mem_loudStarts_iff.1 hstop
  apply Nat.le_of_not_lt
  intro hlimit
  rw [h stop hle hlimit] at hloud
  exact nomatch hloud

/-- From the start of a window, climbing and then descending lead to where a search along the level
`bottom` ends: the first window without an entry, or with one in which the channel changed.  This is so
for every pyramid whose levels join one another, as long as the place is an index, that is, fits in 64
bits.  It does wherever the windows of the level with entries end there; if it does not, the contract is
broken by the sum that would lead to it. -/
theorem climb_descend_eq_least (hstacked : p.Stacked Signal.changes) (channel : Fin 64)
    (hindex : index < Word.limit) (halign : window bottom ∣ index) :
    ∃ stop, IsLeast (p.loudStarts channel bottom index) stop ∧
      (p.size bottom * window bottom < Word.limit → stop < Word.limit) ∧
      (do
        let top ← p.climb channel bottom index
        p.descend channel bottom top.1 top.2) =
        if stop < Word.limit then .ok stop else .error .addOverflow := by
  obtain ⟨stop, hleast⟩ := exists_isLeast_loudStarts p channel halign
  refine ⟨stop, hleast, fun hfits => ?_, ?_⟩
  · have hlast := hleast.2 (max_mem_loudStarts halign)
    omega
  · -- The climb ends at a place, or it runs out of places.
    rcases climb_cases hstacked channel (Nat.le_refl _) halign hindex with
      ⟨top, htop, hlimit⟩ | ⟨herror, hall⟩
    · obtain ⟨hlevel, hdvd, hclimbed⟩ := climb_quiet hstacked htop (Nat.le_refl _) halign
      simp only [htop, bind, Except.bind]
      rcases descend_cases hstacked channel hlevel hdvd hlimit with
        ⟨found, hfound, hwithin⟩ | ⟨herror, hall⟩
      · -- The place that is found is the least, and there is only one.
        have hfirst := firstLoud_of_ok hstacked htop hfound halign
        obtain rfl : found = stop := hfirst.isLeast.unique hleast
        rw [hfound, if_pos hwithin]
      · -- The climb has passed over quiet windows only, and there are no others behind it.
        have hnone : p.QuietOn channel bottom index := quiet_trans hclimbed hall
        rw [herror, if_neg (Nat.not_lt_of_le (hnone.limit_le hleast.1))]
    · simp only [herror, bind, Except.bind]
      rw [if_neg (Nat.not_lt_of_le (hall.limit_le hleast.1))]

/-- A change among 600 samples, behind a window of the second level without one. -/
theorem climb_descend_eq_least_behind_quiet_windows :
    ∃ p : Pyramid UInt64, p.Stacked Signal.changes ∧ p.sizes = [37, 2, 0, 0, 0, 0, 0, 0, 0, 0] ∧
      16 < Word.limit ∧ window 0 ∣ 16 ∧ p.size 0 * window 0 < Word.limit ∧
      (do
        let top ← p.climb 3 0 16
        p.descend 3 0 top.1 top.2) = .ok 560 := by
  let p : Pyramid UInt64 := empty.grow Signal.changes (fun i => if i = 563 then 8 else 0) 600
  -- The levels are those that 600 samples with one change have.
  have hstacked : p.Stacked Signal.changes :=
    ((covers_empty _).grow (Nat.zero_le 600)).stacked
  have hsizes : p.sizes = [37, 2, 0, 0, 0, 0, 0, 0, 0, 0] := by decide +kernel
  have hquiet : ∀ k < 35, p.quiet 3 0 (window 0 * k) = true := by decide +kernel
  have hloud : p.quiet 3 0 560 = false := by decide +kernel
  have hindex : 16 < Word.limit := by decide
  have halign : window 0 ∣ 16 := by decide
  have hfits : p.size 0 * window 0 < Word.limit := by decide +kernel
  -- The place at which the search ends is the only one that the change leaves for it.
  have hleast : IsLeast (p.loudStarts 3 0 16) 560 := by
    refine ⟨mem_loudStarts_iff.2 ⟨by decide, by decide, hloud⟩, fun i hi => ?_⟩
    obtain ⟨-, ⟨k, rfl⟩, hi⟩ := mem_loudStarts_iff.1 hi
    apply Nat.le_of_not_lt
    intro hlt
    have hk : k < 35 := by
      change 16 * k < 560 at hlt
      omega
    rw [hquiet k hk] at hi
    exact nomatch hi
  obtain ⟨stop, hstop, hwithin, hsearch⟩ := climb_descend_eq_least hstacked 3 hindex halign
  obtain rfl : stop = 560 := hstop.unique hleast
  rw [if_pos (hwithin hfits)] at hsearch
  exact ⟨p, hstacked, hsizes, hindex, halign, hfits, hsearch⟩

end Pyramid

end Waveform
