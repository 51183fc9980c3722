import Waveform.Timeline.Recording

/-!
# Timelines

A `Timeline` holds the recordings of one signal.  Laid end to end from the oldest they cover one
stretch of time, which starts at the `origin`.  Times given to `remove` and `crop` are times on
that stretch.

Erasing is planned before it is done: `plan` walks the recordings from the oldest and gives each a
`Cut`, and `applyCuts` carries the cuts out.  What is erased from the head of the timeline moves the
origin along, so the samples after it keep their times.
-/

namespace Waveform

/-- The recordings of a signal, the oldest first, and the time at which they start. -/
structure Timeline (τ : Type) (k : Signal) where
  recordings : List (Recording τ k)
  origin : τ

/-- What an erasure does to one recording. -/
inductive Cut where
  /-- Leave it alone. -/
  | keep
  /-- Take it off the timeline. -/
  | drop
  /-- Remove the samples from `first` up to `stop`. -/
  | trim (first stop : Nat)

/-- The cut that erases the samples from `first` up to `stop` out of `count`. -/
def Cut.ofRange (first stop count : Nat) : Cut :=
  if first = 0 ∧ stop = count then .drop
  else if first < stop then .trim first stop
  else .keep

namespace Timeline

variable {τ : Type} {k : Signal}

/-- The number of samples in the longest recording. -/
def longest (t : Timeline τ k) : Nat :=
  t.recordings.foldl (fun most r => max most r.count) 0

/-- Adds a recording as the newest. -/
def push (r : Recording τ k) : Operation (Timeline τ k) Unit :=
  modify fun t => { t with recordings := t.recordings ++ [r] }

/-- Carries out the cuts and returns what stays on the timeline. -/
def applyCuts : List (Recording τ k × Cut) → Except Violation (List (Recording τ k))
  | [] => .ok []
  | (r, .keep) :: rest => do return r :: (← applyCuts rest)
  | (_, .drop) :: rest => applyCuts rest
  | (r, .trim first stop) :: rest => do
    let trimmed ← (Recording.remove first stop).after r
    return trimmed :: (← applyCuts rest)

/-- The recordings that the cuts take off the timeline. -/
def dropped (cuts : List (Recording τ k × Cut)) : List (Recording τ k) :=
  cuts.filterMap fun
    | (r, .drop) => some r
    | _ => none

variable [Clock τ]

open Clock

/-- A timeline without recordings. -/
def empty : Timeline τ k :=
  ⟨[], zero⟩

/-- The time that all recordings take, the newest counted first. -/
def total (t : Timeline τ k) : τ :=
  t.recordings.foldr (fun r sum => sum + r.duration) zero

/-- The part of an interval that lies on the timeline, if there is any. -/
def window (t : Timeline τ k) (start stop : τ) : Except Violation (Option (τ × τ)) :=
  if t.recordings.isEmpty then return none
  else do
    let limit := t.origin + t.total
    let low ← clamp (later start zero) t.origin limit
    let high ← clamp (later stop zero) t.origin limit
    return if low < high then some (low, high) else none

/-- The number of samples before a time, counted from the start of a recording.  A time that falls
short of a sample by less than the grain counts as reaching it. -/
def samplesBefore (offset rate : τ) (count : Nat) : Nat :=
  min (whole (offset * rate + grain)) count

/-- Plans to erase the samples between two times.  The walk goes from the oldest recording to the
newest, `offset` being where the current one starts; it ends at the first that starts too late.
Returns each recording with its cut, and the time at which the erased samples end. -/
def plan (start stop offset erasedTo : τ) :
    List (Recording τ k) → List (Recording τ k × Cut) × τ
  | [] => ([], erasedTo)
  | r :: newer =>
    let finish := offset + r.duration
    let low := later start offset
    let high := earlier stop finish
    if high ≤ low then
      -- All newer recordings start even later.
      if stop ≤ offset then ((r :: newer).map (·, .keep), erasedTo)
      else
        let rest := plan start stop finish erasedTo newer
        ((r, .keep) :: rest.1, rest.2)
    else
      let rate := ofCount r.rate
      -- Where an end of the interval is an end of the recording no time is converted.
      let first := if low ≤ offset then 0 else samplesBefore (low - offset) rate r.count
      let last := if finish ≤ high then r.count else samplesBefore (high - offset) rate r.count
      let rest := plan start stop finish (offset + ofCount last / rate) newer
      ((r, .ofRange first last r.count) :: rest.1, rest.2)

/-- Erases the samples between two times.  If that starts with the first sample of the timeline, the
origin moves to the end of what was erased.  Returns the recordings that were taken off. -/
def erase (start stop : τ) : Operation (Timeline τ k) (List (Recording τ k)) := do
  let t ← get
  let (cuts, erasedTo) := plan start stop t.origin t.origin t.recordings
  let kept ← applyCuts cuts
  let origin :=
    if kept.isEmpty then zero
    else if start ≤ t.origin then erasedTo
    else t.origin
  set (⟨kept, origin⟩ : Timeline τ k)
  return dropped cuts

/-- Erases the samples between two times, as far as they lie on the timeline.  Returns the recordings
that were taken off. -/
def remove (start stop : τ) : Operation (Timeline τ k) (List (Recording τ k)) := do
  let t ← get
  match ← t.window start stop with
  | none => return []
  | some (low, high) => erase low high

/-- Erases the samples outside two times, the late ones first.  Returns the recordings that were
taken off. -/
def crop (start stop : τ) : Operation (Timeline τ k) (List (Recording τ k)) := do
  let t ← get
  match ← t.window start stop with
  | none => return []
  | some (low, high) =>
    let limit := t.origin + t.total
    -- What is late goes first: erasing the head may move the origin.
    let late ← if high < limit then erase high limit else pure []
    let origin := (← get).origin
    let early ← if origin < low then erase origin low else pure []
    return late ++ early

/-- Takes all recordings off the timeline, which starts at zero again. -/
def clear : Operation (Timeline τ k) (List (Recording τ k)) := do
  let t ← get
  set (empty : Timeline τ k)
  return t.recordings

end Timeline

end Waveform
