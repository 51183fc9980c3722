import Waveform.Packed.Basic

/-!
# Samples as they are stored

What is stored of packed samples is the bytes, the number of samples and their width.  A `Packed`
carries the proof that the three fit together; in `StoredSamples` nothing ties them to each other.
Every operation changes the bytes and the number each by itself, one after the other, and checks what
it relies on at the place where it does: the range against the number that was carried along, the
positions in the bytes against the bytes.  A check that fails after something was changed leaves the
change behind.
-/

namespace Waveform

/-- The bytes of samples, how many samples there are, and how many bytes each of them has. -/
structure StoredSamples where
  width : Width
  bytes : ByteArray
  count : Nat

namespace StoredSamples

/-- No samples. -/
def empty (width : Width) : StoredSamples :=
  ⟨width, ByteArray.empty, 0⟩

/-- Makes room for the given number of samples in total. -/
def reserve (expected : Nat) : Operation StoredSamples Unit := do
  let s ← get
  let wanted ← Word.mul expected s.width.bytes
  require (wanted ≤ s.bytes.size ∨ wanted < Packed.byteLimit) .capacityOverflow

/-- Appends whole samples and returns how many there are. -/
def append (payload : ByteArray) : Operation StoredSamples Nat := do
  let s ← get
  let excess := payload.size % s.width.bytes
  require (excess = 0) (.raggedPayload excess)
  require (s.bytes.size + payload.size < Packed.byteLimit) .capacityOverflow
  modify fun s => { s with bytes := s.bytes ++ payload }
  -- The bytes are there by now, whether or not the number can be added to.
  let added := payload.size / s.width.bytes
  let count ← Word.add s.count added
  modify fun s => { s with count }
  return added

/-- The sample at an index. -/
def sample (s : StoredSamples) (index : Nat) : Except Violation UInt64 := do
  require (index < s.count) (.noSuchSample index s.count)
  let start ← Word.mul index s.width.bytes
  require (start ≤ s.bytes.size) (.sliceStartPastEnd start s.bytes.size)
  LittleEndian.unpack (s.bytes.extract start s.bytes.size) s.width.bytes

/-- Where the samples from `first` up to `stop` start and end in the bytes. -/
def locate (s : StoredSamples) (first stop : Nat) : Except Violation (Nat × Nat) := do
  require (first ≤ stop) (.invertedRange first stop)
  require (stop ≤ s.count) (.rangePastEnd stop)
  let low ← Word.mul first s.width.bytes
  let high ← Word.mul stop s.width.bytes
  require (high ≤ s.bytes.size) (.sliceTooShort high s.bytes.size)
  return (low, high)

/-- The bytes of the samples from `first` up to `stop`. -/
def slice (s : StoredSamples) (first stop : Nat) : Except Violation ByteArray := do
  let (low, high) ← s.locate first stop
  return s.bytes.extract low high

/-- Deletes the samples from `first` up to `stop`; the later ones move down. -/
def remove (first stop : Nat) : Operation StoredSamples Unit := do
  let s ← get
  let (low, high) ← s.locate first stop
  modify fun s =>
    { s with bytes := s.bytes.extract 0 low ++ s.bytes.extract high s.bytes.size }
  -- As in `append`, the number follows after the bytes.
  let count ← Word.sub s.count (← Word.sub stop first)
  modify fun s => { s with count }

end StoredSamples

end Waveform
