import Waveform.Storage.Samples
import Waveform.Timeline.Guarded

/-!
# Pyramid levels as they are stored

What is stored of a pyramid level is how many entries it has, for how many entries room was made, and
the shelf on which they are kept.  Room is made for 65536 entries at a time, so a shelf is longer than
the entries on it.  A logic level keeps its entries in bytes, as many for each as for a sample, and an
analog level keeps them one by one.

The finest level is extended from the bytes of the samples.  A logic entry says what changed, so it
depends on the sample before its window, which may have come with an earlier append: the last sample
that went into an entry is carried along.  A level above is extended from the shelf of the level below.
-/

namespace Waveform

namespace Signal

/-- Where the entries of a level are kept. -/
@[reducible] def Shelf : Signal → Type
  | .logic => ByteArray
  | .analog => Array Extent

/-- A shelf without room. -/
def emptyShelf : (k : Signal) → k.Shelf
  | .logic => ByteArray.empty
  | .analog => #[]

/-- Bytes that are cut off at a size, or filled up to it with `0`. -/
def resized (bytes : ByteArray) (size : Nat) : ByteArray :=
  bytes.extract 0 size ++ ⟨Array.replicate (size - bytes.size) 0⟩

/-- Makes room for `wanted` entries on a shelf.  The bytes for logic entries are there at once. -/
def enlarge (w : Width) (wanted : Nat) : (k : Signal) → k.Shelf → Except Violation k.Shelf
  | .logic, bytes => do
    Pyramid.claimBytes w 0 wanted .logic
    return resized bytes (wanted * w.bytes)
  | .analog, extents => do
    Pyramid.claimBytes w extents.size wanted .analog
    return extents

/-- Reads an entry from a shelf. -/
def fetch (w : Width) : (k : Signal) → k.Shelf → Nat → Except Violation k.Entry
  | .logic, bytes, offset => do
    let start ← Word.mul offset w.bytes
    require (start ≤ bytes.size) (.sliceStartPastEnd start bytes.size)
    LittleEndian.unpack (bytes.extract start bytes.size) w.bytes
  | .analog, extents, offset => do
    require (offset < extents.size) (.noSuchItem extents.size offset)
    return extents.getD offset .none

/-- Puts an entry on a shelf: over the bytes at its place, or behind the extents that are there. -/
def place (w : Width) : (k : Signal) → k.Shelf → Nat → k.Entry → Except Violation k.Shelf
  | .logic, bytes, offset, entry => do
    let start ← Word.mul offset w.bytes
    require (start ≤ bytes.size) (.sliceStartPastEnd start bytes.size)
    return bytes.extract 0 start ++
      (← LittleEndian.pack (bytes.extract start bytes.size) w.bytes entry)
  | .analog, extents, _, entry => return extents.push entry

/-- What is carried along while samples go into entries: of logic samples the last one. -/
@[reducible] def Carry : Signal → Type
  | .logic => UInt64
  | .analog => Unit

/-- What is carried before the first sample. -/
def noCarry : (k : Signal) → k.Carry
  | .logic => 0
  | .analog => ()

/-- Takes a sample into an entry. -/
def absorb : (k : Signal) → UInt64 → k.Carry × k.Entry → k.Carry × k.Entry
  | .logic, sample, (last, changed) => (sample, changed ||| (last ^^^ sample))
  | .analog, sample, ((), extent) => ((), extent.join (Extent.ofSample ⟨sample.toUInt32⟩))

/-- Takes `n` samples into an entry, from the sample `first` of a run of bytes on. -/
def absorbRun (k : Signal) (w : Width) (bytes : ByteArray) (first : Nat) :
    Nat → k.Carry × k.Entry → k.Carry × k.Entry
  | 0, state => state
  | n + 1, state =>
    let sample := LittleEndian.wordAt bytes ((first + n) * w.bytes) w.bytes
    k.absorb sample (absorbRun k w bytes first n state)

/-- Puts `n` entries on a shelf, from the place `offset` on.  Each entry is made from what the one
before it has left to carry. -/
def fill {c : Type} (k : Signal) (w : Width) (make : Nat → c → Except Violation (c × k.Entry)) :
    (n offset : Nat) → c → k.Shelf → Except Violation (c × k.Shelf)
  | 0, _, carry, shelf => return (carry, shelf)
  | n + 1, offset, carry, shelf => do
    let (carry, entry) ← make offset carry
    let shelf ← k.place w shelf offset entry
    fill k w make n (offset + 1) carry shelf

end Signal

/-- How many entries a level has, for how many there is room, and the entries. -/
structure StoredLevel (k : Signal) where
  length : Nat
  room : Nat
  shelf : k.Shelf

namespace StoredLevel

variable {k : Signal}

/-- A level without entries. -/
def empty : StoredLevel k :=
  ⟨0, 0, k.emptyShelf⟩

/-- Makes room for the entries of a level, if there is not enough. -/
def makeRoom (w : Width) (level : StoredLevel k) : Except Violation (StoredLevel k) := do
  let beyond ← Word.sub (← Word.add level.length 65536) 1
  let wanted ← Word.mul (beyond / 65536) 65536
  if level.room < wanted then
    return { level with room := wanted, shelf := ← k.enlarge w wanted level.shelf }
  else return level

/-- Checks that room was made in a logic level. -/
def checkRoom : {k : Signal} → StoredLevel k → Except Violation Unit
  | .logic, level => require (0 < level.room) .levelWithoutRoom
  | .analog, _ => return ()

/-- Checks that the items under the entries from `held` up to `length` can be cut out of the level
below.  Extents are; the bytes of logic entries are looked at one entry at a time. -/
def checkBelow (held length : Nat) : (k : Signal) → k.Shelf → Except Violation Unit
  | .logic, _ => return ()
  | .analog, extents => do
    let low ← Word.mul held 16
    let high ← Word.mul length 16
    require (low ≤ high) (.invertedSlice low high)
    require (high ≤ extents.size) (.sliceTooShort high extents.size)

/-- Extends the finest level over all samples, and hands on what is to be carried.  The answer is
`none` if the level gains no entry. -/
def growFinest (s : StoredSamples) (carry : k.Carry) (level : StoredLevel k) :
    Except Violation (Option (k.Carry × StoredLevel k)) := do
  let held := level.length
  let length := s.count / 16
  if length = held then return none
  let level ← { level with length }.makeRoom s.width
  -- Only whole windows are read, so the carry ends up at the last sample of the last of them.
  let source ← s.slice (← Word.mul held 16) (← Word.mul length 16)
  let make (offset : Nat) (carry : k.Carry) : Except Violation (k.Carry × k.Entry) :=
    return k.absorbRun s.width source ((offset - held) * 16) 16 (carry, k.summary.empty)
  let blocks := source.size / (16 * s.width.bytes)
  let (carry, shelf) ← k.fill s.width make blocks held carry level.shelf
  return some (carry, { level with shelf })

/-- Extends levels over the entries of the level below, up to the first that gains no entry. -/
def growCoarser (w : Width) (below : StoredLevel k) :
    List (StoredLevel k) → Except Violation (List (StoredLevel k))
  | [] => return []
  | level :: upper => do
    let held := level.length
    let length := below.length / 16
    -- A level that gains nothing has nothing new for those above it.
    if length = held then return level :: upper
    let level ← { level with length }.makeRoom w
    checkBelow held length k below.shelf
    let make (offset : Nat) (_ : Unit) : Except Violation (Unit × k.Entry) := do
      return ((), ← k.summary.runGuarded (k.fetch w below.shelf) (← Word.mul offset 16) 16)
    let (_, shelf) ← k.fill w make (length - held) held () level.shelf
    let level := { level with shelf }
    return level :: (← growCoarser w level upper)

end StoredLevel

end Waveform
