import Waveform.Packed.Basic
import Waveform.Pyramid

/-!
# Traces

A `Trace k` holds the samples of a signal of kind `k`, packed end to end, and a pyramid over them.
An entry of a logic pyramid has a bit set for each channel that changed within its window, an entry
of an analog pyramid is the `Extent` of its window, the range between its least number and its greatest.
A NaN among them makes the whole window a gap: there is no honest bar to draw for it, at no level of
detail.

Appending extends the pyramid.  Removing samples builds it anew and is counted, so that a reader
who goes through a trace step by step can tell that the samples were moved.
-/

namespace Waveform

/-! ## Value ranges of analog windows -/

/-- What an analog window shows: a gap, or a bar from the least number to the greatest. -/
inductive Extent where
  | gap
  | bar (low high : Binary32)
deriving DecidableEq

namespace Extent

/-- The extent of no numbers at all, an upside-down bar that any number replaces. -/
def none : Extent :=
  .bar .infinity .negativeInfinity

/-- The extent of one number. -/
def ofSample (x : Binary32) : Extent :=
  if x.isNaN then .gap else .bar x x

/-- The extent of two runs taken together. -/
def join : Extent → Extent → Extent
  | .bar a b, .bar c d => .bar (a.lower c) (b.upper d)
  | _, _ => .gap

end Extent

/-! ## Entries -/

namespace Signal

/-- A pyramid entry: the channels that changed, or the extent of the numbers. -/
@[reducible] def Entry : Signal → Type
  | .logic => UInt64
  | .analog => Extent

/-- Channels changed in a run if they changed in a part of it. -/
def changes : Summary UInt64 :=
  ⟨0, (· ||| ·)⟩

/-- Extents of a run are joined to one that holds them all. -/
def extents : Summary Extent :=
  ⟨.none, .join⟩

/-- How the entries of a kind of signal are joined. -/
def summary : (k : Signal) → Summary k.Entry
  | .logic => changes
  | .analog => extents

/-- What one sample contributes to its windows.  A logic sample contributes the channels in which it
differs from the sample before it; before the first sample all channels are low. -/
def leaf : (k : Signal) → (Nat → UInt64) → Nat → k.Entry
  | .logic, word, 0 => word 0
  | .logic, word, i + 1 => word i ^^^ word (i + 1)
  | .analog, word, i => Extent.ofSample ⟨(word i).toUInt32⟩

/-- The sample widths of a kind of signal. -/
def Admits : Signal → Width → Prop
  | .logic, _ => True
  | .analog, w => w = .four

end Signal

/-! ## Samples and pyramid -/

/-- The samples of a signal and the pyramid over them.  The removals are counted without bound: no trace
lives through `2 ^ 64` of them. -/
structure Trace (k : Signal) where
  width : Width
  admitted : k.Admits width
  samples : Packed width
  pyramid : Pyramid k.Entry
  removals : Nat

namespace Trace

variable {k : Signal}

/-- A trace without samples. -/
def empty (width : Width) (admitted : k.Admits width) : Trace k :=
  ⟨width, admitted, .empty, .empty, 0⟩

/-- The number of samples. -/
def count (t : Trace k) : Nat :=
  t.samples.count

/-- Runs an operation on the samples alone. -/
def onSamples {α : Type} (act : {w : Width} → Operation (Packed w) α) : Operation (Trace k) α
  | ⟨width, admitted, samples, pyramid, removals⟩ =>
    match act samples with
    | .ok a samples' => .ok a ⟨width, admitted, samples', pyramid, removals⟩
    | .error v samples' => .error v ⟨width, admitted, samples', pyramid, removals⟩

/-- Extends the pyramid over all samples. -/
def summarize : Trace k → Trace k
  | ⟨width, admitted, samples, pyramid, removals⟩ =>
    ⟨width, admitted, samples, pyramid.grow k.summary (k.leaf samples.word) samples.count, removals⟩

/-- Makes room for the given number of samples in total. -/
def reserve (expected : Nat) : Operation (Trace k) Unit :=
  onSamples (Packed.reserve expected)

/-- Appends whole samples. -/
def append (payload : ByteArray) : Operation (Trace k) Unit := do
  let _ ← onSamples (Packed.append payload)
  modify summarize

/-- Removes the samples from `first` up to `stop`. -/
def remove (first stop : Nat) : Operation (Trace k) Unit := do
  onSamples (Packed.remove first stop)
  modify fun t => summarize { t with pyramid := .empty, removals := t.removals + 1 }

end Trace

end Waveform
