import Waveform.Binary32.Decimal

/-!
# Signals and broken contracts

A trace is either *logic*, with one bit per channel in every sample, or *analog*, with one
single-precision number in every sample.

A caller who breaks the contract of an operation gets a `Violation`, one constructor for each
cause.  Samples are counted in 64-bit numbers, so an operation whose arithmetic leaves that range
breaks its contract too.  `Violation.message` words each cause.
-/

namespace Waveform

/-- The kind of signal that a trace records. -/
inductive Signal where
  /-- Up to 64 channels of one bit each. -/
  | logic
  /-- One number per sample. -/
  | analog
deriving DecidableEq

/-- The word for a kind of signal. -/
def Signal.name : Signal → String
  | .logic => "logic"
  | .analog => "analog"

/-- The ways in which a call can break the contract of an operation. -/
inductive Violation where
  /-- A sum needs more than 64 bits. -/
  | addOverflow
  /-- A difference is less than zero. -/
  | subOverflow
  /-- A product needs more than 64 bits. -/
  | mulOverflow
  /-- A word is shifted left by 64 bits or more. -/
  | shiftLeftOverflow
  /-- A word is shifted right by 64 bits or more. -/
  | shiftRightOverflow
  /-- A store of bytes would outgrow the address space. -/
  | capacityOverflow
  /-- Position `index` of a sequence of `length` items. -/
  | noSuchItem (length index : Nat)
  /-- Position `index` of a sequence of `length` items, from which that item is to be taken out. -/
  | nothingToTakeOut (length index : Nat)
  /-- The bytes from position `start` on, of only `length` bytes. -/
  | sliceStartPastEnd (start length : Nat)
  /-- The first `stop` bytes of only `length` bytes. -/
  | sliceTooShort (stop length : Nat)
  /-- The items from `start` up to `stop`, where the start comes after the end. -/
  | invertedSlice (start stop : Nat)
  /-- A pyramid level that has no room for entries. -/
  | levelWithoutRoom
  /-- A sample width other than one to eight bytes. -/
  | widthOutOfRange (width : Nat)
  /-- A payload that ends `excess` bytes into a sample. -/
  | raggedPayload (excess : Nat)
  /-- A payload of samples of a width other than the trace's own. -/
  | widthMismatch (given own : Nat)
  /-- A sample beyond the last of `count`. -/
  | noSuchSample (index count : Nat)
  /-- A range of samples that ends before it starts. -/
  | invertedRange (first stop : Nat)
  /-- A range of samples that ends beyond the last sample. -/
  | rangePastEnd (stop : Nat)
  /-- A recording without samples per second. -/
  | noRate (signal : Signal)
  /-- Samples for a recording that has ended. -/
  | appendAfterEnd (signal : Signal)
  /-- A group of logic channels that no sample can hold. -/
  | channelCount (count : Nat)
  /-- An edge query that ends beyond the last sample. -/
  | edgesPastEnd (last : Nat)
  /-- An edge query that ends before it starts. -/
  | invertedEdges (first last : Nat)
  /-- An edge query whose spacing is not positive and finite. -/
  | edgeSpacing (spacing : Binary32)
  /-- A channel that no sample can hold. -/
  | noSuchChannel (channel : Nat)
  /-- An envelope query that ends before it starts. -/
  | invertedEnvelope (first stop : Nat)
  /-- An envelope query whose resolution is not positive. -/
  | envelopeResolution
  /-- An envelope query that ends beyond the last sample. -/
  | envelopePastEnd (stop : Nat)
  /-- A stretch of time that ends before it starts, or an end of it that is no time. -/
  | invertedTimes
  /-- A caption that ends before it starts. -/
  | invertedCaption (first last : Nat)
  /-- A caption that starts before the one pushed last. -/
  | captionOrder
deriving DecidableEq

/-- The wording of an equation that a caller was to establish and did not. -/
def Violation.unequal (claim : String) (left right : Nat) : String :=
  s!"assertion \x60left == right\x60 failed: {claim}\n  left: {left}\n right: {right}"

/-- The text of a violation.  That of `invertedTimes` leaves out the two times, which are of the type that
the clock has for them. -/
def Violation.message : Violation → String
  | addOverflow => "attempt to add with overflow"
  | subOverflow => "attempt to subtract with overflow"
  | mulOverflow => "attempt to multiply with overflow"
  | shiftLeftOverflow => "attempt to shift left with overflow"
  | shiftRightOverflow => "attempt to shift right with overflow"
  | capacityOverflow => "capacity overflow"
  | noSuchItem length index =>
    s!"index out of bounds: the len is {length} but the index is {index}"
  | nothingToTakeOut length index =>
    s!"removal index (is {index}) should be < len (is {length})"
  | sliceStartPastEnd start length =>
    s!"range start index {start} out of range for slice of length {length}"
  | sliceTooShort stop length =>
    s!"range end index {stop} out of range for slice of length {length}"
  | invertedSlice start stop => s!"slice index starts at {start} but ends at {stop}"
  | levelWithoutRoom => "assertion failed: self.mip_map[level].is_allocated()"
  | widthOutOfRange width => s!"unit size {width} out of range"
  | raggedPayload excess => unequal "payload not aligned to unit size" excess 0
  | widthMismatch given own => unequal "payload unit size mismatch" given own
  | noSuchSample index count => s!"sample {index} out of range ({count} samples)"
  | invertedRange first stop => s!"inverted range {first}..{stop}"
  | rangePastEnd stop => s!"range end {stop} past sample count"
  | noRate signal => s!"{signal.name} segment needs a positive sample rate"
  | appendAfterEnd signal => s!"append to a completed {signal.name} segment"
  | channelCount count => s!"logic channel count {count} out of range"
  | edgesPastEnd last => s!"edge query end {last} past last sample"
  | invertedEdges first last => s!"inverted edge query {first}..{last}"
  | edgeSpacing spacing =>
    s!"edge query resolution must be positive and finite, got {spacing.text}"
  | noSuchChannel channel => s!"channel {channel} out of range"
  | invertedEnvelope first stop => s!"inverted envelope query {first}..{stop}"
  | envelopeResolution => "envelope resolution must be positive"
  | envelopePastEnd stop => s!"envelope query end {stop} past sample count"
  | invertedTimes => "min > max, or either was NaN"
  | invertedCaption first last =>
    s!"annotation ends before it starts ({first} > {last})"
  | captionOrder => "annotations pushed out of order"

end Waveform
