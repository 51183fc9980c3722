import Waveform.Timeline.Basic
import Waveform.Timeline.Guarded

/-!
# Erasing in place

`Timeline.erase` plans its cuts and then makes a new list of recordings.  Here an erasure works on one list
that stores the newest recording first.  It walks the positions from the last one down, removes samples where
it stands, and notes the positions of the recordings that are to go; these are taken out of the list, one
position after the other, when the walk is over.

The walk does no arithmetic of its own.  What the arithmetic of times says about a recording is handed in as a
`Reading`, so that nothing is assumed of it: the readings may come from a clock that rounds, or from anywhere.
-/

namespace Waveform

namespace Timeline

/-- What the arithmetic of times says about one recording. -/
inductive Reading where
  /-- The recording starts behind what is to be erased, and so do all newer ones. -/
  | beyond
  /-- Nothing of the recording is to be erased. -/
  | apart
  /-- Some of the recording is to be erased.  Where an end of that lies within the recording, the reading
  gives the number of samples before it. -/
  | overlap (first last : Option Nat)

variable {τ : Type} {k : Signal}

/-- The recording at a position. -/
def recordingAt (recordings : List (Recording τ k)) (position : Nat) :
    Except Violation (Recording τ k) :=
  match recordings[position]? with
  | some r => .ok r
  | none => .error (.noSuchItem recordings.length position)

/-- Walks the recordings below a position, from the highest position down to the first.  Returns the
positions at which something is done, in that order, each with what is done: a removal is carried out at
once, a recording that is to go is only noted. -/
def walk : List Reading → Nat → Operation (List (Recording τ k)) (List (Nat × Cut))
  | reading :: readings, position + 1 => do
    let r ← recordingAt (← get) position
    match reading with
    | .beyond => return []
    | .apart => walk readings position
    | .overlap first last =>
      match Cut.ofRange (min (first.getD 0) r.count) (min (last.getD r.count) r.count) r.count with
      | .keep => walk readings position
      | .drop => return (position, .drop) :: (← walk readings position)
      | .trim first last => do
        let _ ← Operation.atIndex (Recording.removeGuarded first last) position
        return (position, .trim first last) :: (← walk readings position)
  | _, _ => return []

/-- The positions of the recordings that are to go. -/
def doomed (touches : List (Nat × Cut)) : List Nat :=
  touches.filterMap fun
    | (position, .drop) => some position
    | _ => none

/-- Takes the recording at a position out of the list. -/
def takeOut (position : Nat) : Operation (List (Recording τ k)) Unit := do
  let recordings ← get
  require (position < recordings.length) (.nothingToTakeOut recordings.length position)
  set (recordings.eraseIdx position)

/-- Takes recordings out of the list, at one position after the other. -/
def takeOutAll : List Nat → Operation (List (Recording τ k)) Unit
  | [] => return
  | position :: rest => do
    takeOut position
    takeOutAll rest

/-- Erases samples of recordings that are stored newest first, as the readings say, the first of which is
about the oldest recording.  Returns what was done, and at which positions. -/
def eraseInPlace (readings : List Reading) :
    Operation (List (Recording τ k)) (List (Nat × Cut)) := do
  let touches ← walk readings (← get).length
  takeOutAll (doomed touches)
  return touches

variable [Clock τ]

open Clock

/-- What a clock says about recordings, the oldest first, of which the first starts at `offset`. -/
def readings (start stop offset : τ) : List (Recording τ k) → List Reading
  | [] => []
  | r :: newer =>
    let finish := offset + r.duration
    let low := later start offset
    let high := earlier stop finish
    if high ≤ low then
      if stop ≤ offset then [.beyond] else .apart :: readings start stop finish newer
    else
      let index (time : τ) : Nat := whole ((time - offset) * ofCount r.rate + grain)
      .overlap (if low ≤ offset then none else some (index low))
        (if finish ≤ high then none else some (index high)) :: readings start stop finish newer

end Timeline

end Waveform
