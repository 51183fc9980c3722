import Waveform.Pyramid

/-!
# Growing a pyramid

`Pyramid.grow` writes only entries that are new and stops at the first level that gains none.  This
file proves that nothing stale stays behind: whatever the steps in which the leaves arrived, each
level has an entry for every complete window, and the entry joins what is below it.

`StandOver` is the invariant on the levels, in the shape of the recursion of `growLevels`.  What an
entry says about its whole window follows from what a leaf says about itself and from how `join`
puts two neighbouring runs together (`Summary.Describes`).

## Key results

- `StandOver.grow`: growing keeps the invariant
- `StandOver.unique`: the invariant leaves no choice for the entries
- `Covers.size_eq`: a level has an entry for every complete window
- `Covers.entry`: what holds of runs of leaves holds of the entries
- `Covers.stacked`: every level above the finest joins the level below
-/

namespace Waveform

variable {α : Type} {S : Summary α}

namespace Summary

/-- A run only looks at the items in it. -/
theorem run_congr {f g : Nat → α} {first n : Nat}
    (h : ∀ i, first ≤ i → i < first + n → f i = g i) : S.run f first n = S.run g first n := by
  induction n with
  | zero => rfl
  | succ n ih =>
    have hinit := ih fun i hlo hhi => h i hlo (by omega)
    have hlast := h (first + n) (by omega) (by omega)
    rw [run, run, hinit, hlast]

/-- A reading of entries: `P first n a` says what the entry `a` tells about the `n` leaves from
`first` on.  It passes from two neighbouring runs to the run of both. -/
structure Describes (S : Summary α) (P : Nat → Nat → α → Prop) : Prop where
  empty : ∀ first, P first 0 S.empty
  join : ∀ first m n a b, P first m a → P (first + m) n b → P first (m + n) (S.join a b)

/-- Joining `n` items that each stand for `unit` leaves gives an entry for all their leaves. -/
theorem Describes.run {P : Nat → Nat → α → Prop} (hP : S.Describes P) {source : Nat → α}
    {unit first n : Nat} (h : ∀ i, first ≤ i → i < first + n → P (i * unit) unit (source i)) :
    P (first * unit) (n * unit) (S.run source first n) := by
  induction n with
  | zero =>
    rw [Nat.zero_mul]
    exact hP.empty _
  | succ n ih =>
    have hinit := ih fun i hlo hhi => h i hlo (by omega)
    have hlast := h (first + n) (by omega) (by omega)
    rw [Nat.add_mul] at hlast
    rw [Nat.add_mul, Nat.one_mul]
    exact hP.join _ _ _ _ _ hinit hlast

end Summary

namespace Pyramid

/-! ## The windows of the levels -/

/-- The windows of the finest level have 16 samples. -/
theorem window_zero : window 0 = 16 := rfl

/-- A window has 16 times as many samples as one of the level below. -/
theorem window_succ (level : Nat) : window (level + 1) = window level * 16 := by
  unfold window power
  rw [Nat.one_shiftLeft, Nat.one_shiftLeft, show 4 * (level + 1 + 1) = 4 * (level + 1) + 4 by omega,
    Nat.pow_add]

/-- No window is empty. -/
theorem window_pos (level : Nat) : 0 < window level := by
  rw [window, Nat.one_shiftLeft]
  exact Nat.two_pow_pos _

/-- No window has fewer than 16 samples. -/
theorem sixteen_le_window (level : Nat) : 16 ≤ window level := by
  cases level with
  | zero => exact Nat.le_refl 16
  | succ level =>
    have hpos := window_pos level
    rw [window_succ]
    omega

/-! ## One level -/

/-- A level gains as many entries as are asked for. -/
theorem size_extend (source : Nat → α) (n : Nat) (level : Array α) :
    (extend S source n level).size = level.size + n := by
  induction n generalizing level with
  | zero => rfl
  | succ n ih =>
    rw [extend, ih, Array.size_push]
    omega

/-- The entries that were there stay as they are. -/
theorem getElem?_extend_of_lt (source : Nat → α) (n : Nat) {level : Array α} {k : Nat}
    (hk : k < level.size) : (extend S source n level)[k]? = level[k]? := by
  induction n generalizing level with
  | zero => rfl
  | succ n ih =>
    rw [extend, ih (by rw [Array.size_push]; omega), Array.getElem?_push_lt hk,
      Array.getElem?_eq_getElem hk]

/-- Every entry joins the 16 items under it. -/
def Joins (S : Summary α) (source : Nat → α) (level : Array α) : Prop :=
  ∀ k, k < level.size → level[k]? = some (S.run source (16 * k) 16)

/-- A level keeps joining the items under it when it is extended. -/
theorem Joins.extend {source : Nat → α} {level : Array α} (h : Joins S source level) (n : Nat) :
    Joins S source (extend S source n level) := by
  induction n generalizing level with
  | zero => exact h
  | succ n ih =>
    -- One entry is pushed, and the rest is the hypothesis at the longer level.
    rw [Pyramid.extend]
    apply ih
    intro k hk
    rw [Array.size_push] at hk
    -- Either `k` is the entry that was just pushed, or it was there before.
    by_cases hlast : k = level.size
    · subst hlast
      exact Array.getElem?_push_size
    · have hlt : k < level.size := by omega
      rw [Array.getElem?_push_lt hlt, ← Array.getElem?_eq_getElem hlt]
      exact h k hlt

/-- A level only looks at the items of its complete windows. -/
theorem Joins.congr {f g : Nat → α} {level : Array α} (h : Joins S f level)
    (hfg : ∀ i, i < 16 * level.size → f i = g i) : Joins S g level := by
  intro k hk
  rw [h k hk, Summary.run_congr fun i _ hi => hfg i (by omega)]

/-- If each item stands for `unit` leaves, an entry tells about 16 times as many. -/
theorem Joins.describes {P : Nat → Nat → α → Prop} (hP : S.Describes P) {source : Nat → α}
    {level : Array α} (h : Joins S source level) {unit : Nat}
    (hsource : ∀ i, i < 16 * level.size → P (i * unit) unit (source i)) {k : Nat} {a : α}
    (hget : level[k]? = some a) : P (k * (unit * 16)) (unit * 16) a := by
  have hk : k < level.size := (Array.getElem?_eq_some_iff.1 hget).1
  have hentry : S.run source (16 * k) 16 = a := Option.some.inj ((h k hk).symm.trans hget)
  have hfirst : 16 * k * unit = k * (unit * 16) := by
    rw [Nat.mul_comm 16 k, Nat.mul_assoc, Nat.mul_comm 16 unit]
  rw [← hentry, ← hfirst, Nat.mul_comm unit 16]
  exact hP.run fun i _ hi => hsource i (by omega)

/-! ## All levels -/

/-- The levels stand over `count` items: the first joins them by sixteens, as far as they reach,
and the others stand over its entries. -/
def StandOver (S : Summary α) : (Nat → α) → Nat → List (Array α) → Prop
  | _, _, [] => True
  | source, count, level :: upper =>
    level.size = count / 16 ∧ Joins S source level ∧
      StandOver S (fun i => level.getD i S.empty) level.size upper

/-- Levels only look at the items they stand over. -/
theorem StandOver.congr {f g : Nat → α} {count : Nat} {levels : List (Array α)}
    (h : StandOver S f count levels) (hfg : ∀ i, i < count → f i = g i) :
    StandOver S g count levels := by
  cases levels with
  | nil => trivial
  | cons level upper =>
    obtain ⟨hsize, hjoins, hupper⟩ := h
    exact ⟨hsize, hjoins.congr fun i hi => hfg i (by omega), hupper⟩

/-- Levels without entries stand over no items. -/
theorem standOver_replicate (source : Nat → α) (n : Nat) :
    StandOver S source 0 (List.replicate n #[]) := by
  induction n generalizing source with
  | zero => trivial
  | succ n ih => exact ⟨rfl, fun k hk => absurd hk (Nat.not_lt_zero k), ih _⟩

/-- After more items were added, the levels that were grown stand over all of them.  A level that
gains no entry has not lost any either, so the levels above it may be left alone. -/
theorem StandOver.grow {source : Nat → α} {count count' : Nat} {levels : List (Array α)}
    (h : StandOver S source count levels) (hle : count ≤ count') :
    StandOver S source count' (growLevels S source count' levels) := by
  induction levels generalizing source count count' with
  | nil => trivial
  | cons level upper ih =>
    obtain ⟨hsize, hjoins, hupper⟩ := h
    have hmono : count / 16 ≤ count' / 16 := Nat.div_le_div_right hle
    simp only [growLevels]
    split
    · -- The growth stops here: the levels above stand over the same entries as before.
      rename_i hgain
      exact ⟨by omega, hjoins, hupper⟩
    · -- The levels above stood over the entries that are still the first ones.
      have hgrown := size_extend (S := S) source (count' / 16 - level.size) level
      refine ⟨by omega, hjoins.extend _, ih (hupper.congr fun i hi => ?_) (by omega)⟩
      rw [Array.getD_eq_getD_getElem?, Array.getD_eq_getD_getElem?, getElem?_extend_of_lt _ _ hi]

/-- The items leave no choice for the entries. -/
theorem StandOver.unique {source : Nat → α} {count : Nat} {levels levels' : List (Array α)}
    (h : StandOver S source count levels) (h' : StandOver S source count levels')
    (hlength : levels.length = levels'.length) : levels = levels' := by
  -- Equal levels are the same source for the levels above them.
  induction levels generalizing source count levels' with
  | nil => exact (List.length_eq_zero_iff.1 hlength.symm).symm
  | cons level upper ih =>
    cases levels' with
    | nil => exact nomatch hlength
    | cons level' upper' =>
      obtain ⟨hsize, hjoins, hupper⟩ := h
      obtain ⟨hsize', hjoins', hupper'⟩ := h'
      -- Both levels have as many entries, and each is made of the same sixteen items.
      have heq : level = level' := by
        apply Array.ext_getElem?
        intro k
        by_cases hk : k < level.size
        · rw [hjoins k hk, hjoins' k (by omega)]
        · rw [Array.getElem?_eq_none (by omega), Array.getElem?_eq_none (by omega)]
      subst heq
      rw [ih hupper hupper' (Nat.succ.inj hlength)]

/-- The size of a level in terms of the items at the bottom. -/
theorem StandOver.size_eq {source : Nat → α} {count : Nat} {levels : List (Array α)}
    (h : StandOver S source count levels) {level : Nat} (hlevel : level < levels.length) :
    (levels.getD level #[]).size = count / window level := by
  induction level generalizing source count levels with
  | zero =>
    cases levels with
    | nil => exact absurd hlevel (Nat.lt_irrefl 0)
    | cons bottom upper => exact h.1
  -- A level further up is counted from the entries of the one below.
  | succ level ih =>
    cases levels with
    | nil => exact absurd hlevel (Nat.not_lt_zero _)
    | cons bottom upper =>
      rw [List.getD_cons_succ, ih h.2.2 (Nat.lt_of_succ_lt_succ hlevel), h.1, window_succ,
        Nat.div_div_eq_div_mul, Nat.mul_comm]

/-- If each item stands for `unit` leaves, an entry tells about all leaves of its window. -/
theorem StandOver.describes {P : Nat → Nat → α → Prop} (hP : S.Describes P) {source : Nat → α}
    {count : Nat} {levels : List (Array α)} (h : StandOver S source count levels) {unit : Nat}
    (hsource : ∀ i, i < count → P (i * unit) unit (source i)) {level k : Nat} {a : α}
    (hget : (levels.getD level #[])[k]? = some a) :
    P (k * (unit * window level)) (unit * window level) a := by
  -- Going up a level, the entries of the level below take the part of the items.
  induction level generalizing source count levels unit with
  | zero =>
    cases levels with
    | nil => exact nomatch hget
    | cons bottom upper =>
      obtain ⟨hsize, hjoins, -⟩ := h
      exact hjoins.describes hP (fun i hi => hsource i (by omega)) hget
  | succ level ih =>
    cases levels with
    | nil => exact nomatch hget
    | cons bottom upper =>
      obtain ⟨hsize, hjoins, hupper⟩ := h
      rw [window_succ, Nat.mul_comm (window level), ← Nat.mul_assoc unit]
      -- What the items describe, their entries describe for sixteen times the stretch.
      refine ih hupper (fun i hi => ?_) hget
      refine hjoins.describes hP (fun j hj => hsource j (by omega)) ?_
      rw [Array.getD_eq_getD_getElem?, Array.getElem?_eq_getElem hi]
      rfl

/-- Two neighbouring levels. -/
theorem StandOver.joins_succ {source : Nat → α} {count : Nat} {levels : List (Array α)}
    (h : StandOver S source count levels) (level : Nat) :
    Joins S (fun i => (levels.getD level #[]).getD i S.empty) (levels.getD (level + 1) #[]) := by
  induction level generalizing source count levels with
  | zero =>
    match levels, h with
    | [], _ => exact fun k hk => absurd hk (Nat.not_lt_zero k)
    | [_], _ => exact fun k hk => absurd hk (Nat.not_lt_zero k)
    | _ :: _ :: _, ⟨_, _, _, hjoins, _⟩ => exact hjoins
  | succ level ih =>
    cases levels with
    | nil => exact fun k hk => absurd hk (Nat.not_lt_zero k)
    | cons bottom upper => exact ih h.2.2

/-! ## The ten levels of a pyramid -/

/-- The pyramid sums up the first `count` leaves. -/
def Covers (p : Pyramid α) (S : Summary α) (leaf : Nat → α) (count : Nat) : Prop :=
  StandOver S leaf count p.levels

/-- Each level above the finest joins the one below it. -/
structure Stacked (p : Pyramid α) (S : Summary α) : Prop where
  size_succ : ∀ level, level + 1 < 10 → p.size (level + 1) = p.size level / 16
  joins_succ : ∀ level,
    Joins S (fun i => (p.entries level).getD i S.empty) (p.entries (level + 1))

/-- A pyramid without entries sums up no samples. -/
theorem covers_empty (leaf : Nat → α) : (empty : Pyramid α).Covers S leaf 0 :=
  standOver_replicate leaf 10

/-- Which samples a pyramid sums up does not depend on those behind them. -/
theorem Covers.congr {p : Pyramid α} {f g : Nat → α} {count : Nat} (h : p.Covers S f count)
    (hfg : ∀ i, i < count → f i = g i) : p.Covers S g count :=
  StandOver.congr h hfg

/-- A pyramid that grows sums up more samples. -/
theorem Covers.grow {p : Pyramid α} {leaf : Nat → α} {count count' : Nat}
    (h : p.Covers S leaf count) (hle : count ≤ count') :
    (p.grow S leaf count').Covers S leaf count' :=
  StandOver.grow h hle

/-- There is one pyramid over given leaves. -/
theorem Covers.unique {p p' : Pyramid α} {leaf : Nat → α} {count : Nat}
    (h : p.Covers S leaf count) (h' : p'.Covers S leaf count) : p = p' := by
  obtain ⟨levels, hlength⟩ := p
  obtain ⟨levels', hlength'⟩ := p'
  have heq : levels = levels' := StandOver.unique h h' (hlength.trans hlength'.symm)
  subst heq
  rfl

/-- A level has an entry for every complete window. -/
theorem Covers.size_eq {p : Pyramid α} {leaf : Nat → α} {count level : Nat}
    (h : p.Covers S leaf count) (hlevel : level < 10) : p.size level = count / window level :=
  StandOver.size_eq h (by rw [p.length_levels]; exact hlevel)

/-- What holds of single leaves, and passes from runs to longer runs, holds of the entries. -/
theorem Covers.entry {P : Nat → Nat → α → Prop} (hP : S.Describes P) {p : Pyramid α}
    {leaf : Nat → α} {count : Nat} (h : p.Covers S leaf count) (hleaf : ∀ i, P i 1 (leaf i))
    {level k : Nat} {a : α} (hget : (p.entries level)[k]? = some a) :
    P (k * window level) (window level) a := by
  have hsource : ∀ i, i < count → P (i * 1) 1 (leaf i) := by
    intro i _
    rw [Nat.mul_one]
    exact hleaf i
  have hentry := StandOver.describes hP h hsource hget
  rwa [Nat.one_mul] at hentry

/-- In a pyramid that sums up samples each level sums up the one below. -/
theorem Covers.stacked {p : Pyramid α} {leaf : Nat → α} {count : Nat}
    (h : p.Covers S leaf count) : p.Stacked S where
  size_succ level hlevel := by
    rw [h.size_eq hlevel, h.size_eq (Nat.lt_of_succ_lt hlevel), window_succ,
      Nat.div_div_eq_div_mul]
  joins_succ level := StandOver.joins_succ h level

end Pyramid

end Waveform
