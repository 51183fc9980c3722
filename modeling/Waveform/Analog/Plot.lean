import Waveform.Resolution
import Waveform.Trace

/-!
# Reading and drawing analog traces

An analog trace gives its numbers back bit for bit.  To draw a range of it, `Trace.plot` takes the
numbers themselves where they are far enough apart, and otherwise the extents of whole windows at
the coarsest pyramid level whose windows fit the resolution.
-/

namespace Waveform

/-- A run of windows: the index at which the first of them starts, how many samples each of them has, how
many there are, and what they show. -/
structure Envelope where
  start : Nat
  scale : Nat
  length : Nat
  extents : Array Extent

/-- What to draw for a range of an analog trace. -/
inductive Plot where
  | numbers (xs : Array Binary32)
  | envelope (e : Envelope)

namespace Binary32

/-- Numbers as bytes, four for each, the least significant byte first. -/
def encode (xs : Array Binary32) : ByteArray :=
  xs.foldl (fun bytes x => LittleEndian.pushWord bytes 4 x.bits.toUInt64) ByteArray.empty

/-- The numbers in a run of bytes, four bytes for each. -/
def decode (bytes : ByteArray) : Array Binary32 :=
  (Array.range (bytes.size / 4)).map fun i => ⟨(LittleEndian.wordAt bytes (4 * i) 4).toUInt32⟩

end Binary32

namespace Trace

/-- The number at an index. -/
def number (t : Trace .analog) (index : Nat) : Except Violation Binary32 := do
  return ⟨(← t.samples.sample index).toUInt32⟩

/-- The numbers from `first` up to `stop`. -/
def numbers (t : Trace .analog) (first stop : Nat) : Except Violation (Array Binary32) := do
  return Binary32.decode (← t.samples.slice first stop)

/-- The extents of the windows from the one that holds the sample `first` up to the last one that
lies before `stop`, at the pyramid level for the resolution. -/
def envelope (t : Trace .analog) (first stop : Nat) (resolution : Binary32) :
    Except Violation Envelope := do
  require (first ≤ stop) (.invertedEnvelope first stop)
  require (Binary32.zero < resolution) .envelopeResolution
  require (stop ≤ t.count) (.envelopePastEnd stop)
  let level := levelFor resolution
  let power := Pyramid.power level
  let entries := t.pyramid.entries level
  -- Only windows that have an entry are shown.
  let low := min (first >>> power) entries.size
  let high := max low (min (stop >>> power) entries.size)
  return ⟨low <<< power, Pyramid.window level, high - low, entries.extract low high⟩

/-- The numbers of a range where the resolution is finer than the threshold, and its envelope
otherwise. -/
def plot (t : Trace .analog) (first stop : Nat) (resolution threshold : Binary32) :
    Except Violation Plot := do
  if resolution < threshold then return .numbers (← t.numbers first stop)
  else return .envelope (← t.envelope first stop resolution)

end Trace

end Waveform
