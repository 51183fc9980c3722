import Waveform.Storage.Levels

/-!
# Recordings as they are stored

A `StoredTrace` is the stored samples, the ten stored levels of the pyramid over them, and what is
carried from one append to the next.  It lies behind a lock, which a call holds while it works on it.  A
call that breaks its contract while it holds the lock poisons the lock; whoever takes the lock next gets
what is behind it all the same.

Whether the recording is complete, and the width that its samples are to have, stand outside the lock.
-/

namespace Waveform

variable {k : Signal}

/-- The samples, the levels over them, what is carried to the next append, and the number of removals, of
which no trace lives through `2 ^ 64`. -/
structure StoredTrace (k : Signal) where
  samples : StoredSamples
  levels : List (StoredLevel k)
  carry : k.Carry
  removals : Nat

namespace StoredTrace

/-- A trace without samples. -/
def empty (width : Width) : StoredTrace k :=
  ⟨.empty width, List.replicate 10 .empty, k.noCarry, 0⟩

/-- Runs an operation on the samples alone. -/
def onSamples {α : Type} (act : Operation StoredSamples α) : Operation (StoredTrace k) α
  | ⟨samples, levels, carry, removals⟩ =>
    match act samples with
    | .ok a samples' => .ok a ⟨samples', levels, carry, removals⟩
    | .error v samples' => .error v ⟨samples', levels, carry, removals⟩

/-- What is carried, and the levels, after they were extended over all samples. -/
def grown (t : StoredTrace k) : Except Violation (k.Carry × List (StoredLevel k)) := do
  match t.levels with
  | [] => return (t.carry, [])
  | finest :: upper =>
    match ← StoredLevel.growFinest t.samples t.carry finest with
    | none => return (t.carry, finest :: upper)
    | some (carry, finest) =>
      return (carry, finest :: (← StoredLevel.growCoarser t.samples.width finest upper))

/-- Extends the levels over all samples.  They are set all at once: `grow_ok` shows that no check on the
way fails, so levels that are half extended are never seen. -/
def grow : Operation (StoredTrace k) Unit := do
  let t ← get
  let (carry, levels) ← t.grown
  set { t with carry, levels }

/-- Appends whole samples. -/
def append (payload : ByteArray) : Operation (StoredTrace k) Unit := do
  let _ ← onSamples (StoredSamples.append payload)
  grow

/-- Removes the samples from `first` up to `stop`, and builds the levels anew. -/
def remove (first stop : Nat) : Operation (StoredTrace k) Unit := do
  onSamples (StoredSamples.remove first stop)
  -- No entry is kept, also of the windows before `first`.
  modify fun t => { t with
    levels := List.replicate 10 .empty, carry := k.noCarry, removals := t.removals + 1 }
  grow

/-- The number of entries of each level, the finest first. -/
def lengths (t : StoredTrace k) : List Nat :=
  t.levels.map StoredLevel.length

/-- The number of entries for which each level has room, the finest first. -/
def rooms (t : StoredTrace k) : List Nat :=
  t.levels.map StoredLevel.room

/-- Reads an entry of a level.  Room is asked for of logic levels alone. -/
def entry (t : StoredTrace k) (index offset : Nat) : Except Violation k.Entry := do
  let some level := t.levels[index]? | throw (.noSuchItem t.levels.length index)
  level.checkRoom
  k.fetch t.samples.width level.shelf offset

/-- Whether a window of a level has an entry in which the channel did not change. -/
def quietAt (t : StoredTrace .logic) (channel : Fin 64) (index place : Nat) :
    Except Violation Bool := do
  let some level := t.levels[index]? | throw (.noSuchItem t.levels.length index)
  let offset ← Word.shiftRight place (Pyramid.power index)
  if offset < level.length then return !channelBit channel (← t.entry index offset)
  else return false

/-- The number at an index. -/
def number (t : StoredTrace .analog) (index : Nat) : Except Violation Binary32 := do
  return ⟨(← t.samples.sample index).toUInt32⟩

/-- The extents of the windows from the one that holds the sample `first` up to the last one that lies
before `stop`, cut out of the level for the resolution. -/
def envelope (t : StoredTrace .analog) (first stop : Nat) (resolution : Binary32) :
    Except Violation Envelope := do
  require (first ≤ stop) (.invertedEnvelope first stop)
  require (Binary32.zero < resolution) .envelopeResolution
  require (stop ≤ t.samples.count) (.envelopePastEnd stop)
  let index : Nat := levelFor resolution
  let power := Pyramid.power index
  let some level := t.levels[index]? | throw (.noSuchItem t.levels.length index)
  let low := min (first >>> power) level.length
  let high := max low (min (stop >>> power) level.length)
  require (high ≤ level.shelf.size) (.sliceTooShort high level.shelf.size)
  return ⟨low <<< power, Pyramid.window index, high - low, level.shelf.extract low high⟩

end StoredTrace

/-- The width that samples are to have, whether the recording is complete, and the trace behind its
lock. -/
structure StoredRecording (k : Signal) where
  width : Width
  complete : Bool
  trace : Locked (StoredTrace k)

namespace StoredRecording

/-- A recording without samples. -/
def empty (width : Width) : StoredRecording k :=
  ⟨width, false, ⟨.empty width, false⟩⟩

/-- Runs an operation on the trace while its lock is held. -/
def onTrace {α : Type} (act : Operation (StoredTrace k) α) : Operation (StoredRecording k) α
  | ⟨width, complete, trace⟩ =>
    match Locked.hold act trace with
    | .ok a trace' => .ok a ⟨width, complete, trace'⟩
    | .error v trace' => .error v ⟨width, complete, trace'⟩

/-- Makes room for the given number of samples in total. -/
def reserve (expected : Nat) : Operation (StoredRecording k) Unit :=
  onTrace (StoredTrace.onSamples (StoredSamples.reserve expected))

/-- Appends logic samples of the given width, which is to be the recording's own. -/
def appendLogic (payload : ByteArray) (width : Nat) : Operation (StoredRecording .logic) Unit := do
  let r ← get
  let own := r.width.bytes
  require (width = own) (.widthMismatch width own)
  require (payload.size % own = 0) (.raggedPayload (payload.size % own))
  require (r.complete = false) (.appendAfterEnd .logic)
  onTrace (StoredTrace.append payload)

/-- Appends numbers. -/
def appendAnalog (xs : Array Binary32) : Operation (StoredRecording .analog) Unit := do
  let r ← get
  require (r.complete = false) (.appendAfterEnd .analog)
  onTrace (StoredTrace.append (Binary32.encode xs))

/-- Removes the samples from `first` up to `stop`. -/
def remove (first stop : Nat) : Operation (StoredRecording k) Unit :=
  onTrace (StoredTrace.remove first stop)

/-- Takes no further samples. -/
def finish : Operation (StoredRecording k) Unit :=
  modify fun r => { r with complete := true }

end StoredRecording

end Waveform
