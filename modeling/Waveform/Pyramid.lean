import Waveform.Violation

/-!
# Summary pyramids

A pyramid sums up a growing sequence of leaves at ten levels of detail.  An entry of level `0`
joins 16 leaves, an entry of a higher level joins 16 entries of the level below, so an entry of
level `L` stands for a window of `16 ^ (L + 1)` leaves.  Only complete windows have an entry.

`Pyramid.grow` extends the levels after leaves were added at the end.  It writes only what is new
and stops at the first level to which nothing was added.
-/

namespace Waveform

/-- How entries are joined, and the entry that stands for no leaves. -/
structure Summary (α : Type) where
  empty : α
  join : α → α → α

/-- Joins `n` items of a sequence, from the item `first` on. -/
def Summary.run {α : Type} (S : Summary α) (source : Nat → α) (first : Nat) : Nat → α
  | 0 => S.empty
  | n + 1 => S.join (S.run source first n) (source (first + n))

/-- Ten levels of entries, the finest first. -/
structure Pyramid (α : Type) where
  levels : List (Array α)
  length_levels : levels.length = 10

namespace Pyramid

variable {α : Type}

/-- The binary logarithm of the number of leaves in a window of a level. -/
def power (level : Nat) : Nat :=
  4 * (level + 1)

/-- The number of leaves in a window of a level. -/
def window (level : Nat) : Nat :=
  1 <<< power level

/-- A pyramid over no leaves. -/
def empty : Pyramid α :=
  ⟨List.replicate 10 #[], List.length_replicate⟩

/-- Adds entries to a level, each joining the next 16 items below. -/
def extend (S : Summary α) (source : Nat → α) : Nat → Array α → Array α
  | 0, level => level
  | n + 1, level => extend S source n (level.push (S.run source (16 * level.size) 16))

/-- Extends levels that stand over `count` items, from the finest up to the first that gains no
entry. -/
def growLevels (S : Summary α) (source : Nat → α) (count : Nat) : List (Array α) → List (Array α)
  | [] => []
  | level :: upper =>
    let gain := count / 16 - level.size
    -- A level that gains nothing leaves nothing to gain above it.
    if gain = 0 then level :: upper
    else
      let grown := extend S source gain level
      grown :: growLevels S (fun i => grown.getD i S.empty) grown.size upper

@[simp] theorem length_growLevels (S : Summary α) (source : Nat → α) (count : Nat)
    (levels : List (Array α)) : (growLevels S source count levels).length = levels.length := by
  induction levels generalizing source count with
  | nil => rfl
  | cons level upper ih =>
    simp only [growLevels]
    split
    · rfl
    · simp [ih]

/-- The pyramid over the first `count` leaves, from one over fewer of them. -/
def grow (p : Pyramid α) (S : Summary α) (leaf : Nat → α) (count : Nat) : Pyramid α where
  levels := growLevels S leaf count p.levels
  length_levels := by rw [length_growLevels, p.length_levels]

/-- The entries of a level; there are none above the tenth. -/
def entries (p : Pyramid α) (level : Nat) : Array α :=
  p.levels.getD level #[]

/-- The number of entries of a level. -/
def size (p : Pyramid α) (level : Nat) : Nat :=
  (p.entries level).size

/-- The number of entries of each level, the finest first. -/
def sizes (p : Pyramid α) : List Nat :=
  p.levels.map Array.size

/-- The entries of one of the ten levels. -/
def level (p : Pyramid α) (index : Nat) : Except Violation (Array α) :=
  if index < 10 then .ok (p.entries index) else .error (.noSuchItem 10 index)

end Pyramid

end Waveform
