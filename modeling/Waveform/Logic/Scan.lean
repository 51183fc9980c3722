import Waveform.Logic.EdgeCursor

/-!
# Edges read off the samples alone

The edges of a query can be said without a pyramid and without a cursor: from the levels of the
channel at the single samples.  `scan` moves from block to block; how the start of the next block is
found is given to it.  For single samples that is the first change (`firstChange`), for windows it
is the first window in which something changed or that the trace does not fill (`firstWindow`).
-/

namespace Waveform.Scan

/-- The first of `n` samples, from an index on, at which the channel is not at the given level. -/
def firstChange (bit : Nat → Bool) (level : Bool) (index : Nat) : Nat → Option Nat
  | 0 => none
  | n + 1 => if bit index = level then firstChange bit level (index + 1) n else some index

/-- Whether the channel is, at one of `n` samples, at another level than at the sample before.
Before the first sample of a trace it is low. -/
def changes (bit : Nat → Bool) (index : Nat) : Nat → Bool
  | 0 => false
  | n + 1 =>
    (if index = 0 then bit 0 else bit index != bit (index - 1)) || changes bit (index + 1) n

/-- The start of the first window of the given length that has a change or reaches beyond the last
sample.  At most `n` windows are looked at. -/
def firstWindow (bit : Nat → Bool) (count window start : Nat) : Nat → Nat
  | 0 => start
  | n + 1 =>
    if count < start + window ∨ changes bit start window then start
    else firstWindow bit count window (start + window) n

/-- Where the next block starts, in a query for single samples. -/
def seekSample (bit : Nat → Bool) (last : Nat) (level : Bool) (index : Nat) : Option Nat :=
  firstChange bit level index (last + 1 - index)

/-- Where the next block starts, in a query for windows: at the first window from the index on if the
channel has changed by then, and otherwise at the first that is not known to be quiet. -/
def seekWindow (bit : Nat → Bool) (count last block window : Nat) (level : Bool) (index : Nat) :
    Option Nat :=
  let start := (index + window - 1) / window * window
  if last < index + block ∨ last ≤ start then none
  else if bit start = level then some (firstWindow bit count window start (count + 1))
  else some start

/-- The edges at which blocks start, the level before them being given.  At most `n` blocks are
looked at. -/
def blockEdges (bit : Nat → Bool) (seek : Bool → Nat → Option Nat) (last block : Nat) :
    Nat → Bool → Nat → List Edge
  | 0, _, _ => []
  | n + 1, level, index =>
    match seek level index with
    | none => []
    | some start =>
      if last < start + block then []
      else
        let found := bit (start + block - 1)
        let later := blockEdges bit seek last block n found (start + block)
        if found = level then later else ⟨start, found⟩ :: later

/-- The edges of a range of samples: the level at its start, the blocks that change it, the level at
its end if that differs from the last block's, and the level at its end once more for the index
behind it. -/
def scan (bit : Nat → Bool) (seek : Bool → Nat → Option Nat) (first last block : Nat) : List Edge :=
  let opening : Edge := ⟨first, bit first⟩
  let found := blockEdges bit seek last block (last + 1 - first) (bit first) (first + 1)
  let final := bit last
  let closing : List Edge :=
    if (found.getLastD opening).level = final then [] else [⟨last, final⟩]
  opening :: found ++ closing ++ [⟨last + 1, final⟩]

/-- The edges of a query, from the samples of a trace alone. -/
def edges (t : Trace .logic) (q : EdgeQuery) : List Edge :=
  let bit := fun i => channelBit q.channel (t.samples.word i)
  match q.detail with
  | .samples => scan bit (seekSample bit q.last) q.first q.last q.block
  | .windows level =>
    let window := Pyramid.window level
    scan bit (seekWindow bit t.count q.last q.block window) q.first q.last q.block

end Waveform.Scan
