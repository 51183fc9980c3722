import Waveform.Acquisition.Basic
import Waveform.Proofs.AnalogSamples
import Waveform.Proofs.RecordingHistory

/-!
# Writing blocks to lanes

A block that an acquisition does not refuse is written to the lane of its kind: to the recording under
way, or to a new one.  Both kinds of block are written alike.  `Block.writer` names what differs, the
recording that is started and the samples that are appended, and `Writer.Writes` says what these two
have to do with the block.

## Key results

- `Block.writes_logic`, `Block.writes_analog`: each kind is written as the samples in the block
- `Block.frameEnd_or_writes`: a block that is not refused ends the frame or is written to one lane
-/

namespace Waveform

open Operation

variable {τ : Type} {k : Signal}

/-! ## What a recording holds -/

/-- What a recording holds: when it was started, its rate and sample width, its samples, and whether
it is complete. -/
structure Capture (τ : Type) where
  startTime : τ
  rate : Nat
  width : Nat
  samples : List UInt64
  complete : Bool
deriving DecidableEq

/-- What a recording holds. -/
def Recording.capture (r : Recording τ k) : Capture τ :=
  ⟨r.startTime, r.rate, r.trace.width.bytes, r.trace.samples.words, r.complete⟩

/-- The number of samples is that of those held. -/
theorem Recording.count_eq_length (r : Recording τ k) : r.count = r.capture.samples.length :=
  (Packed.length_words r.trace.samples).symm

/-- The bytes of a recording, from what it holds. -/
theorem Recording.size_eq (r : Recording τ k) :
    r.trace.samples.bytes.size = r.capture.samples.length * r.capture.width := by
  rw [← r.count_eq_length]
  exact (Packed.count_mul _).symm

/-- The number of samples on a timeline. -/
def Timeline.held (t : Timeline τ k) : Nat :=
  t.recordings.foldr (fun r n => r.count + n) 0

/-- What two parts of a timeline hold adds up. -/
theorem Timeline.held_append (older newer : List (Recording τ k)) (origin : τ) :
    held ⟨older ++ newer, origin⟩ = held ⟨older, origin⟩ + held ⟨newer, origin⟩ := by
  induction older with
  | nil => simp [held]
  | cons r older ih =>
    simp only [held, List.cons_append, List.foldr_cons] at ih ⊢
    omega

/-! ## Blocks -/

/-- The width of the samples of a kind under given settings. -/
def Settings.widthOf (s : Settings) : Signal → Nat
  | .logic => s.sampleWidth
  | .analog => 4

namespace Block

/-- The kind of the samples in a block; the end of a frame has none. -/
def kind : Block → Option Signal
  | .logic _ _ => some .logic
  | .analog _ => some .analog
  | .frameEnd => none

/-- The samples of a kind in a block, if the block is of that kind. -/
def samples : Signal → Block → Option (List UInt64)
  | .logic, .logic width payload => some (LittleEndian.wordsOf payload width)
  | .analog, .analog xs => some (xs.toList.map fun x => x.bits.toUInt64)
  | _, _ => none

/-- The number of bytes that a block is stored in. -/
def size : Block → Nat
  | .logic _ payload => payload.size
  | .analog xs => 4 * xs.size
  | .frameEnd => 0

/-- The block lies in the address space. -/
def Fits (b : Block) : Prop :=
  b.size < Packed.byteLimit

instance (b : Block) : Decidable b.Fits :=
  inferInstanceAs (Decidable (_ < _))

/-- Why an acquisition with given settings refuses a block, if it does. -/
def refusal (s : Settings) (b : Block) : Option Rejection :=
  match b.validate, b with
  | .error r, _ => some r
  | .ok _, .logic width _ =>
    if width = s.sampleWidth then none else some (.widthMismatch s.sampleWidth width)
  | .ok _, _ => none

end Block

/-- How a block is written: to the recording that is started for it if there is none under way, by an
operation that appends samples. -/
structure Writer (τ : Type) (k : Signal) where
  start : Except Violation (Recording τ k)
  append : Operation (Recording τ k) Unit

/-- How a block is written to the lane of a kind, in a frame that starts at the given time; only a
block of that kind is. -/
def Block.writer (s : Settings) (frameStart : τ) : (k : Signal) → Block → Option (Writer τ k)
  | .logic, .logic width payload =>
    some ⟨Recording.startLogic s.rate width frameStart, Recording.appendLogic payload width⟩
  | .analog, .analog xs =>
    some ⟨Recording.startAnalog s.rate frameStart, Recording.appendAnalog xs⟩
  | _, _ => none

/-- A writer starts recordings for the frame, and appends exactly the samples `new`, in `size` bytes,
wherever there is room. -/
structure Writer.Writes (w : Writer τ k) (s : Settings) (frameStart : τ) (new : List UInt64)
    (size : Nat) : Prop where
  capture_start : ∀ r, w.start = .ok r →
    r.capture = ⟨frameStart, s.rate, s.widthOf k, [], false⟩
  start_ok : 0 < s.rate → ∃ r, w.start = .ok r
  atomic : Atomic w.append
  capture_append : ∀ r r', w.append r = .ok () r' →
    r'.capture = { r.capture with samples := r.capture.samples ++ new } ∧ r'.live = r.live
  append_ok : ∀ r : Recording τ k, r.trace.width.bytes = s.widthOf k → r.complete = false →
    r.trace.samples.bytes.size + size < Packed.byteLimit → ∃ r', w.append r = .ok () r'

/-- Appending a payload to a trace appends its words. -/
theorem Trace.words_append {payload : ByteArray} {t t' : Trace k}
    (h : append payload t = .ok () t') :
    t'.width = t.width ∧
      t'.samples.words = t.samples.words ++ LittleEndian.wordsOf payload t.width.bytes := by
  obtain ⟨added, p, hp, rfl⟩ := append_eq_ok.1 h
  exact ⟨rfl, Packed.words_of_append (Packed.append_eq_ok.1 hp).2.2.2⟩

/-- There is room for a payload as long as the address space lasts. -/
theorem Trace.append_ok {payload : ByteArray} {t : Trace k}
    (hwhole : payload.size % t.width.bytes = 0)
    (hroom : t.samples.bytes.size + payload.size < Packed.byteLimit) :
    ∃ t', append payload t = .ok () t' := by
  have happend : Packed.append payload t.samples =
      .ok (payload.size / t.width.bytes) (t.samples.extended payload hwhole hroom) :=
    Packed.append_eq_ok.2 ⟨hwhole, hroom, rfl, rfl⟩
  exact ⟨_, append_eq_ok.2 ⟨_, _, happend, rfl⟩⟩

/-- Samples of all channels are one to eight bytes wide, whatever the settings. -/
theorem Settings.sampleWidth_bounds (s : Settings) : 0 < s.sampleWidth ∧ s.sampleWidth ≤ 8 := by
  unfold sampleWidth
  omega

namespace Block

variable {s : Settings} {frameStart : τ} {b : Block}

/-- Logic samples that are not refused are whole and of the width in the settings. -/
theorem refusal_logic_eq_none {width : Nat} {payload : ByteArray}
    (h : (Block.logic width payload).refusal s = none) :
    width = s.sampleWidth ∧ payload.size % width = 0 ∧
      (Block.logic width payload).validate = .ok () := by
  unfold refusal at h
  -- The block is well formed and of the width that is set; other blocks are refused.
  cases hvalid : (Block.logic width payload).validate with
  | error r => simp [hvalid] at h
  | ok u =>
    simp only [hvalid] at h
    have hwidth : width = s.sampleWidth := by
      by_cases hw : width = s.sampleWidth
      · exact hw
      · simp [hw] at h
    simp only [validate] at hvalid
    split at hvalid
    · exact nomatch hvalid
    · split at hvalid
      · exact ⟨hwidth, ‹_›, rfl⟩
      · exact nomatch hvalid

/-- Logic samples are written as the words of the payload. -/
theorem writes_logic {width : Nat} {payload : ByteArray}
    (h : (Block.logic width payload).refusal s = none) :
    Writer.Writes
      ⟨Recording.startLogic s.rate width frameStart, Recording.appendLogic payload width⟩ s
      frameStart (LittleEndian.wordsOf payload width) payload.size := by
  -- The settings know widths from one byte to eight only.
  obtain ⟨hwidth, hwhole, -⟩ := refusal_logic_eq_none h
  have hbounds := s.sampleWidth_bounds
  have hw : Width.ofNat width = .ok ⟨width, by omega, by omega⟩ := dif_pos (by omega)
  constructor
  case capture_start =>
    intro r hr
    simp only [Recording.startLogic, hw] at hr
    split at hr
    · cases hr
      simp [Recording.capture, Settings.widthOf, hwidth, Trace.empty]
    · cases hr
  case start_ok =>
    intro hrate
    simp only [Recording.startLogic, hw, dif_pos hrate]
    exact ⟨_, rfl⟩
  case atomic => exact (Edit.appendLogic payload width).atomic
  case capture_append =>
    intro r r' hr
    obtain ⟨hown, -, -, t, ht, rfl⟩ := Recording.appendLogic_eq_ok.1 hr
    obtain ⟨htwidth, hwords⟩ := Trace.words_append ht
    rw [← hown] at hwords
    simp [Recording.capture, htwidth, hwords]
  case append_ok =>
    intro r hown hopen hroom
    -- The recording was made with the width of the block.
    have heq : width = r.trace.width.bytes := by rw [hown, hwidth]; rfl
    obtain ⟨t, ht⟩ := Trace.append_ok (heq ▸ hwhole) hroom
    exact ⟨_, Recording.appendLogic_eq_ok.2 ⟨heq, heq ▸ hwhole, hopen, t, ht, rfl⟩⟩

/-- Numbers are written as their patterns. -/
theorem writes_analog (s : Settings) (frameStart : τ) (xs : Array Binary32) :
    Writer.Writes ⟨Recording.startAnalog s.rate frameStart, Recording.appendAnalog xs⟩ s frameStart
      (xs.toList.map fun x => x.bits.toUInt64) (4 * xs.size) := by
  have hfour (r : Recording τ .analog) : r.trace.width.bytes = 4 :=
    congrArg Width.bytes r.trace.admitted
  constructor
  case capture_start =>
    intro r hr
    simp only [Recording.startAnalog] at hr
    split at hr
    · cases hr
      simp [Recording.capture, Settings.widthOf, Trace.empty, Width.four]
    · cases hr
  case start_ok =>
    intro hrate
    simp only [Recording.startAnalog, dif_pos hrate]
    exact ⟨_, rfl⟩
  case atomic => exact (Edit.appendAnalog xs).atomic
  case capture_append =>
    intro r r' hr
    obtain ⟨-, t, ht, rfl⟩ := Recording.appendAnalog_eq_ok.1 hr
    obtain ⟨htwidth, hwords⟩ := Trace.words_append ht
    rw [hfour r, Binary32.wordsOf_encode] at hwords
    simp [Recording.capture, htwidth, hwords]
  case append_ok =>
    intro r _ hopen hroom
    -- Numbers take four bytes, so the payload is whole.
    have hwhole : (Binary32.encode xs).size % r.trace.width.bytes = 0 := by
      rw [hfour r, Binary32.size_encode]
      omega
    obtain ⟨t, ht⟩ := Trace.append_ok hwhole (by rw [Binary32.size_encode]; exact hroom)
    exact ⟨_, Recording.appendAnalog_eq_ok.2 ⟨hopen, t, ht, rfl⟩⟩

/-- A block has no samples of the other kind. -/
theorem samples_of_kind_ne (h : b.kind ≠ some k) : b.samples k = none := by
  cases b <;> cases k <;> first | rfl | exact absurd rfl h

/-- A block that is not refused ends the frame, or its samples are written to the lane of its kind. -/
theorem frameEnd_or_writes (b : Block) (h : b.refusal s = none) (frameStart : τ) :
    b = .frameEnd ∨ ∃ (k : Signal) (w : Writer τ k) (new : List UInt64), b.kind = some k ∧
      b.writer s frameStart k = some w ∧ b.samples k = some new ∧ b.count = new.length ∧
      w.Writes s frameStart new b.size := by
  cases b with
  | logic width payload =>
    have hpos : 0 < width := by
      have := s.sampleWidth_bounds
      have := (refusal_logic_eq_none h).1
      omega
    refine .inr ⟨.logic, _, _, rfl, rfl, rfl, ?_, writes_logic h⟩
    rw [LittleEndian.length_wordsOf, count, Nat.max_eq_left hpos]
  | analog xs =>
    exact .inr ⟨.analog, _, _, rfl, rfl, rfl, by simp [count], writes_analog s frameStart xs⟩
  | frameEnd => exact .inl rfl

end Block

end Waveform
