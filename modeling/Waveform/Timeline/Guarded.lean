import Waveform.Logic.EdgeTurns
import Waveform.Timeline.Recording

/-!
# Edits with every access checked

An edit changes the samples first and then brings the pyramid up to them.  `Trace.append` and
`Trace.remove` have only the first of these break a contract.  Here the same edits are carried out with all
that could go wrong checked where it is done: that sums, differences and products stay within 64 bits, that
there is room for the entries of a level, and that each sample and each entry that is read or written is
there.  A check that fails after something was changed leaves the change behind.

The number of removals is not checked: no recording lives through `2 ^ 64` of them.
-/

namespace Waveform

namespace Packed

variable {w : Width}

/-- Appends whole samples, and adds them to the number of samples. -/
def appendGuarded (payload : ByteArray) : Operation (Packed w) Nat := do
  let before ← get
  let added ← append payload
  let _ ← Word.add before.count added
  return added

/-- Deletes the samples from `first` up to `stop`, and takes them off the number of samples. -/
def removeGuarded (first stop : Nat) : Operation (Packed w) Unit := do
  let before ← get
  let range ← SampleRange.check before.count first stop
  let _ ← Word.mul range.first w.bytes
  let _ ← Word.mul range.stop w.bytes
  remove first stop
  let _ ← Word.sub before.count (← Word.sub stop first)

/-- Reads the sample at an index from its bytes. -/
def fetch (p : Packed w) (index : Nat) : Except Violation UInt64 := do
  let start ← Word.mul index w.bytes
  require (start ≤ p.bytes.size) (.sliceStartPastEnd start p.bytes.size)
  require (w.bytes ≤ p.bytes.size - start) (.sliceTooShort w.bytes (p.bytes.size - start))
  p.sample index

end Packed

/-- Joins `n` items of a sequence, from the item `first` on, each of which is fetched. -/
def Summary.runGuarded {α : Type} (S : Summary α) (fetch : Nat → Except Violation α) (first : Nat) :
    Nat → Except Violation α
  | 0 => return S.empty
  | n + 1 => do
    let joined ← S.runGuarded fetch first n
    return S.join joined (← fetch (← Word.add first n))

/-- What a sample contributes to its windows. -/
def Signal.leafGuarded {w : Width} (p : Packed w) :
    (k : Signal) → Nat → Except Violation k.Entry
  | .logic, 0 => p.fetch 0
  | .logic, i + 1 => do return (← p.fetch i) ^^^ (← p.fetch (i + 1))
  | .analog, i => do return Extent.ofSample ⟨(← p.fetch i).toUInt32⟩

namespace Pyramid

/-- Claims the bytes for `wanted` entries of a level that has `held` of them.  The entries of a logic pyramid
are kept in as many bytes as a sample, those of an analog pyramid in eight. -/
def claimBytes (w : Width) (held wanted : Nat) : Signal → Except Violation Unit
  | .logic => do
    let bytes ← Word.mul wanted w.bytes
    require (bytes < Packed.byteLimit) .capacityOverflow
  | .analog => do
    let more ← Word.sub wanted held
    require ((held + more) * 8 < Packed.byteLimit) .capacityOverflow

/-- Makes room for `length` entries in a level that has `held` of them. -/
def makeRoom (k : Signal) (w : Width) (held length : Nat) : Except Violation Unit := do
  let beyond ← Word.sub (← Word.add length 65536) 1
  let wanted ← Word.mul (beyond / 65536) 65536
  if room held < wanted then claimBytes w held wanted k

/-- Looks up where the entry at `offset` is kept in a level of `length` entries. -/
def locate (k : Signal) (w : Width) (length offset : Nat) : Except Violation Unit :=
  match k with
  | .logic => do
    let bytes := room length * w.bytes
    let start ← Word.mul offset w.bytes
    require (start ≤ bytes) (.sliceStartPastEnd start bytes)
    require (w.bytes ≤ bytes - start) (.sliceTooShort w.bytes (bytes - start))
  | .analog => require (offset < length) (.noSuchItem length offset)

variable {k : Signal}

/-- Reads the entry at an index of a level. -/
def fetchEntry (w : Width) (level : Array k.Entry) (index : Nat) : Except Violation k.Entry := do
  locate k w level.size index
  return level.getD index k.summary.empty

/-- Adds entries to a level that has room for `length` of them, each joining the next 16 items below. -/
def extendGuarded (w : Width) (fetch : Nat → Except Violation k.Entry) (length : Nat) :
    Nat → Array k.Entry → Except Violation (Array k.Entry)
  | 0, level => return level
  | n + 1, level => do
    let entry ← k.summary.runGuarded fetch (← Word.mul level.size 16) 16
    locate k w length level.size
    extendGuarded w fetch length n (level.push entry)

/-- Extends levels that stand over `count` items, from the finest up to the first that gains no entry. -/
def growLevelsGuarded (w : Width) (fetch : Nat → Except Violation k.Entry) (count : Nat) :
    (levels : List (Array k.Entry)) →
      Except Violation { grown : List (Array k.Entry) // grown.length = levels.length }
  | [] => return ⟨[], rfl⟩
  | level :: upper => do
    let length := count / 16
    if length = level.size then return ⟨level :: upper, rfl⟩
    makeRoom k w level.size length
    let _ ← SampleRange.check count (← Word.mul level.size 16) (← Word.mul length 16)
    let gain ← Word.sub length level.size
    let grown ← extendGuarded w fetch length gain level
    let above ← growLevelsGuarded w (fetchEntry w grown) grown.size upper
    return ⟨grown :: above.1, congrArg (· + 1) above.2⟩

/-- The pyramid over the first `count` items, from one over fewer of them. -/
def growGuarded (p : Pyramid k.Entry) (w : Width) (fetch : Nat → Except Violation k.Entry)
    (count : Nat) : Except Violation (Pyramid k.Entry) := do
  let grown ← growLevelsGuarded w fetch count p.levels
  return ⟨grown.1, grown.2.trans p.length_levels⟩

end Pyramid

namespace Trace

variable {k : Signal}

/-- Extends the pyramid over all samples. -/
def summarizeGuarded : Operation (Trace k) Unit := do
  let t ← get
  let pyramid ← t.pyramid.growGuarded t.width (k.leafGuarded t.samples) t.count
  set { t with pyramid }

/-- Appends whole samples. -/
def appendGuarded (payload : ByteArray) : Operation (Trace k) Unit := do
  let _ ← onSamples (Packed.appendGuarded payload)
  summarizeGuarded

/-- Removes the samples from `first` up to `stop`. -/
def removeGuarded (first stop : Nat) : Operation (Trace k) Unit := do
  onSamples (Packed.removeGuarded first stop)
  modify fun t => { t with pyramid := .empty, removals := t.removals + 1 }
  summarizeGuarded

end Trace

namespace Recording

variable {τ : Type} {k : Signal}

/-- Appends logic samples of the given width, which is to be the recording's own. -/
def appendLogicGuarded (payload : ByteArray) (width : Nat) : Operation (Recording τ .logic) Unit := do
  let r ← get
  let own := r.trace.width.bytes
  require (width = own) (.widthMismatch width own)
  require (payload.size % own = 0) (.raggedPayload (payload.size % own))
  require (r.complete = false) (.appendAfterEnd .logic)
  onTrace (Trace.appendGuarded payload)

/-- Appends numbers. -/
def appendAnalogGuarded (xs : Array Binary32) : Operation (Recording τ .analog) Unit := do
  let r ← get
  require (r.complete = false) (.appendAfterEnd .analog)
  onTrace (Trace.appendGuarded (Binary32.encode xs))

/-- Removes the samples from `first` up to `stop`. -/
def removeGuarded (first stop : Nat) : Operation (Recording τ k) Unit :=
  onTrace (Trace.removeGuarded first stop)

end Recording

end Waveform
