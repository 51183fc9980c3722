import Waveform.Operation

/-!
# Rows of captions

A caption explains a range of samples, both ends included, in texts of decreasing length.

A row takes captions in the order of their first samples.  A query for a range uses that order,
and the longest span pushed so far, to start near the first caption that can reach the range and
to stop at the first that starts behind it.
-/

namespace Waveform

/-- What a decoder has to say about a range of samples. -/
structure Caption where
  first : Nat
  last : Nat
  format : Int
  texts : List String
  ordered : first ≤ last

namespace Caption

/-- The caption of the samples from `first` to `last`. -/
def ofRange (first last : Nat) (format : Int) (texts : List String) :
    Except Violation Caption :=
  if h : first ≤ last then .ok ⟨first, last, format, texts, h⟩
  else .error (.invertedCaption first last)

/-- The distance between the ends. -/
def span (a : Caption) : Nat :=
  a.last - a.first

end Caption

/-- The captions of a decoder, in the order in which they were pushed. -/
structure CaptionRow where
  captions : Array Caption
  longestSpan : Nat

namespace CaptionRow

/-- A row without captions. -/
def empty : CaptionRow :=
  ⟨#[], 0⟩

/-- Adds a caption, which is not to start before the last one. -/
def push (a : Caption) : Operation CaptionRow Unit := do
  let row ← get
  match row.captions.back? with
  -- Captions that start together may come in any order.
  | some newest => require (newest.first ≤ a.first) .captionOrder
  | none => pure ()
  set (⟨row.captions.push a, max row.longestSpan a.span⟩ : CaptionRow)

/-- The number of captions. -/
def size (row : CaptionRow) : Nat :=
  row.captions.size

/-- The greatest last sample of a caption, `0` in an empty row. -/
def lastSample (row : CaptionRow) : Nat :=
  row.captions.foldl (fun most a => max most a.last) 0

/-- The number of leading items with a property, found by halving: between `low` and `high` if all
items before `low` have it and none from `high` on. -/
def partitionPoint {α : Type} (items : Array α) (p : α → Bool) (low high : Nat) : Nat :=
  if low < high then
    let middle := low + (high - low) / 2
    match items[middle]? with
    | none => low
    | some item =>
      if p item then partitionPoint items p (middle + 1) high
      else partitionPoint items p low middle
  else low
termination_by high - low

/-- The captions that reach into the samples from `first` to `last`, in the order in which they
were pushed. -/
def overlapping (row : CaptionRow) (first last : Nat) : List Caption :=
  -- A caption that starts before `earliest` is too short to reach `first`.
  let earliest := first - row.longestSpan
  let start := partitionPoint row.captions (·.first < earliest) 0 row.size
  ((row.captions.toList.drop start).takeWhile (·.first ≤ last)).filter (first ≤ ·.last)

end CaptionRow

end Waveform
