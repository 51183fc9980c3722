import Waveform.Packed.LittleEndian
import Waveform.Word

/-!
# Packed samples

A `Packed w` holds samples of `w` bytes each, one after the other in one byte array, and beside the
array the number of samples, which every change carries forward.  The array holds exactly so many samples
and never outgrows the address space; both facts are part of the type.  Ranges of samples are half open.
-/

namespace Waveform

/-- The number of bytes in a sample: one to eight. -/
structure Width where
  bytes : Nat
  pos : 0 < bytes
  le_eight : bytes ≤ 8

/-- The width with the given number of bytes. -/
def Width.ofNat (n : Nat) : Except Violation Width :=
  if h : 0 < n ∧ n ≤ 8 then .ok ⟨n, h.1, h.2⟩ else .error (.widthOutOfRange n)

/-- The width of a single-precision number. -/
def Width.four : Width := ⟨4, by decide, by decide⟩

/-- The samples from `first` up to and without `stop`, among `count` samples. -/
structure SampleRange (count : Nat) where
  first : Nat
  stop : Nat
  ordered : first ≤ stop
  within : stop ≤ count

/-- The range with the given ends, if it lies within the samples. -/
def SampleRange.check (count first stop : Nat) : Except Violation (SampleRange count) :=
  if ho : first ≤ stop then
    if hw : stop ≤ count then .ok ⟨first, stop, ho, hw⟩ else .error (.rangePastEnd stop)
  else .error (.invertedRange first stop)

/-- The first number of bytes that does not fit in the address space. -/
def Packed.byteLimit : Nat := 0x8000000000000000

/-- Samples of one width, end to end, and how many there are. -/
structure Packed (w : Width) where
  bytes : ByteArray
  count : Nat
  count_mul : count * w.bytes = bytes.size
  bounded : bytes.size < Packed.byteLimit

namespace Packed

variable {w : Width}

/-- No samples. -/
def empty : Packed w :=
  ⟨ByteArray.empty, 0, Nat.zero_mul _, by decide⟩

/-- The bytes end with a whole sample. -/
theorem aligned (p : Packed w) : p.bytes.size % w.bytes = 0 := by
  rw [← p.count_mul, Nat.mul_mod_left]

/-- The number that is carried along is the number of samples that the bytes hold. -/
theorem count_eq (p : Packed w) : p.count = p.bytes.size / w.bytes := by
  rw [← p.count_mul, Nat.mul_div_cancel _ w.pos]

/-- There are no more samples than bytes, so fewer than there are addresses. -/
theorem count_lt (p : Packed w) : p.count < byteLimit := by
  have hbounded := p.bounded
  have hle := Nat.le_mul_of_pos_right p.count w.pos
  rw [p.count_mul] at hle
  omega

/-- The sample at an index, `0` beyond the last. -/
def word (p : Packed w) (i : Nat) : UInt64 :=
  LittleEndian.wordAt p.bytes (i * w.bytes) w.bytes

/-- All samples, the first one first. -/
def words (p : Packed w) : List UInt64 :=
  (List.range p.count).map p.word

/-- There are as many words as samples. -/
@[simp] theorem length_words (p : Packed w) : p.words.length = p.count := by
  simp [words]

@[simp] theorem words_empty : (empty : Packed w).words = [] := rfl

/-- The sample at an index. -/
def sample (p : Packed w) (i : Nat) : Except Violation UInt64 :=
  if i < p.count then .ok (p.word i) else .error (.noSuchSample i p.count)

/-- The bytes of a range of samples. -/
def bytesOf (p : Packed w) (r : SampleRange p.count) : ByteArray :=
  p.bytes.extract (r.first * w.bytes) (r.stop * w.bytes)

/-- The bytes of the samples from `first` up to `stop`. -/
def slice (p : Packed w) (first stop : Nat) : Except Violation ByteArray := do
  return p.bytesOf (← SampleRange.check p.count first stop)

/-- Makes room for the given number of samples in total. -/
def reserve (expected : Nat) : Operation (Packed w) Unit := do
  let p ← get
  let wanted ← Word.mul expected w.bytes
  -- Room that is there already is never asked for again.
  require (wanted ≤ p.bytes.size ∨ wanted < byteLimit) .capacityOverflow

/-- The samples with those of a payload behind them. -/
def extended (p : Packed w) (payload : ByteArray) (hwhole : payload.size % w.bytes = 0)
    (hfits : p.bytes.size + payload.size < byteLimit) : Packed w where
  bytes := p.bytes ++ payload
  count := p.count + payload.size / w.bytes
  count_mul := by
    rw [ByteArray.size_append, Nat.add_mul, p.count_mul,
      Nat.div_mul_cancel (Nat.dvd_of_mod_eq_zero hwhole)]
  bounded := by rw [ByteArray.size_append]; exact hfits

/-- Appends whole samples and returns how many there are. -/
def append (payload : ByteArray) : Operation (Packed w) Nat := do
  let p ← get
  if hwhole : payload.size % w.bytes = 0 then
    if hfits : p.bytes.size + payload.size < byteLimit then
      set (p.extended payload hwhole hfits)
      return payload.size / w.bytes
    else throw .capacityOverflow
  else throw (.raggedPayload (payload.size % w.bytes))

/-- Deleting a range of samples leaves a whole number of them. -/
theorem size_without (p : Packed w) (r : SampleRange p.count) :
    (p.bytes.extract 0 (r.first * w.bytes) ++
      p.bytes.extract (r.stop * w.bytes) p.bytes.size).size =
      (p.count - (r.stop - r.first)) * w.bytes := by
  have ho := r.ordered
  have hw := r.within
  have hfirst : r.first * w.bytes ≤ p.count * w.bytes := Nat.mul_le_mul_right _ (by omega)
  have hcount : p.count - (r.stop - r.first) = r.first + (p.count - r.stop) := by omega
  rw [ByteArray.size_append, ByteArray.size_extract, ByteArray.size_extract, ← p.count_mul,
    hcount, Nat.add_mul, Nat.sub_mul]
  omega

/-- The samples without those of a range. -/
def without (p : Packed w) (r : SampleRange p.count) : Packed w where
  bytes := p.bytes.extract 0 (r.first * w.bytes) ++
    p.bytes.extract (r.stop * w.bytes) p.bytes.size
  count := p.count - (r.stop - r.first)
  count_mul := (p.size_without r).symm
  bounded := by
    have hb := p.bounded
    have hle : (p.count - (r.stop - r.first)) * w.bytes ≤ p.count * w.bytes :=
      Nat.mul_le_mul_right _ (Nat.sub_le _ _)
    rw [p.count_mul] at hle
    rw [p.size_without]
    omega

/-- Deletes the samples from `first` up to `stop`; the later ones move down. -/
def remove (first stop : Nat) : Operation (Packed w) Unit := do
  let p ← get
  set (p.without (← SampleRange.check p.count first stop))

end Packed

end Waveform
