import Waveform.Proofs.WordTransfers
import Waveform.Storage.Samples

/-!
# The stored samples of packed samples

`Packed.stored` is what is stored of packed samples.  On it every operation of `StoredSamples` ends as the
operation on packed samples does, and leaves behind what is stored of their result: the number that is
carried along keeps up with the bytes, and no check on a position fails.  So whatever is done to stored
samples that were empty, the number, the bytes and the width still fit together, and what is read is the
list of words that was written.

## Key results

- `StoredSamples.append_alike`, `StoredSamples.remove_alike`: the operations, one by one
- `PackedEdit.storedAfter_eq`: stored samples after any changes
- `StoredSamples.reads_as_list`: they read as the list of words
-/

namespace Waveform

open Operation

variable {w : Width}

/-- What is stored of packed samples. -/
@[reducible] def Packed.stored (p : Packed w) : StoredSamples :=
  ⟨w, p.bytes, p.count⟩

namespace StoredSamples

/-- Stored samples that belong to packed samples. -/
def Of (s : StoredSamples) (p : Packed w) : Prop :=
  s = p.stored

/-! ## Changes -/

/-- The number of samples goes up by as many as the bytes do. -/
theorem append_alike (p : Packed w) (payload : ByteArray) :
    Alike Of (append payload p.stored) (Packed.append payload p) := by
  rw [append, Packed.append, get_bind_eq, get_bind_eq]
  dsimp only [Packed.stored]
  by_cases hwhole : payload.size % w.bytes = 0
  · rw [dif_pos hwhole, require_bind_of hwhole]
    -- The count is added to after the bytes, and the sum is a word since the bytes are within their
    -- limit.
    by_cases hroom : p.bytes.size + payload.size < Packed.byteLimit
    · have hadded : payload.size / w.bytes ≤ payload.size := Nat.div_le_self _ _
      have hcount := p.count_lt
      unfold Packed.byteLimit at hcount
      have hsum : Word.add p.count (payload.size / w.bytes) =
          .ok (p.count + payload.size / w.bytes) :=
        if_pos (by unfold Packed.byteLimit at hroom; unfold Word.limit; omega)
      rw [dif_pos hroom, require_bind_of hroom, hsum]
      exact .ok _ rfl
    · rw [dif_neg hroom, require, if_neg hroom]
      exact .error _ rfl
  · rw [dif_neg hwhole, require, if_neg hwhole]
    exact .error _ rfl

/-- The ends of a range of samples that are there lie within the bytes. -/
theorem locate_stored (p : Packed w) (first stop : Nat) :
    p.stored.locate first stop = (SampleRange.check p.count first stop).map
      fun r => (r.first * w.bytes, r.stop * w.bytes) := by
  rw [locate, SampleRange.check]
  by_cases hordered : first ≤ stop
  · by_cases hwithin : stop ≤ p.count
    · -- A range that is accepted lies within the bytes, so the offsets are words.
      have hhigh : stop * w.bytes ≤ p.bytes.size := p.mul_le_size hwithin
      have hlow : first * w.bytes ≤ stop * w.bytes := Nat.mul_le_mul_right _ hordered
      have hlimit := p.size_lt_limit
      have hfirst : Word.mul first w.bytes = .ok (first * w.bytes) := if_pos (by omega)
      have hstop : Word.mul stop w.bytes = .ok (stop * w.bytes) := if_pos (by omega)
      rw [dif_pos hordered, dif_pos hwithin]
      dsimp only [Packed.stored]
      rw [require_eq_ok.2 hordered, ok_bind, require_eq_ok.2 hwithin, ok_bind, hfirst, ok_bind,
        hstop, ok_bind, require_eq_ok.2 hhigh]
      rfl
    · rw [dif_pos hordered, dif_neg hwithin]
      dsimp only [Packed.stored]
      rw [require_eq_ok.2 hordered, ok_bind, require, if_neg hwithin]
      rfl
  · rw [dif_neg hordered]
    dsimp only [Packed.stored]
    rw [require, if_neg hordered]
    rfl

/-- The number of samples goes down by as many as the bytes do. -/
theorem remove_alike (p : Packed w) (first stop : Nat) :
    Alike Of (remove first stop p.stored) (Packed.remove first stop p) := by
  cases hrange : SampleRange.check p.count first stop with
  | error v =>
    -- Both look at the range first.
    rw [remove, Packed.remove, get_bind_eq, get_bind_eq, locate_stored, hrange]
    exact .error v rfl
  | ok range =>
    obtain ⟨rfl, rfl⟩ := SampleRange.check_eq_ok.1 hrange
    have hlength : Word.sub range.stop range.first = .ok (range.stop - range.first) :=
      if_pos range.ordered
    have hleft : Word.sub p.count (range.stop - range.first) =
        .ok (p.count - (range.stop - range.first)) :=
      if_pos (Nat.le_trans (Nat.sub_le _ _) range.within)
    -- The count goes down by what the range held, and no further check fails.
    have hchanged : remove range.first range.stop p.stored =
        .ok () (p.without range).stored := by
      rw [remove, get_bind_eq, locate_stored, hrange]
      refine bind_eq_ok.2 ⟨_, _, rfl, bind_eq_ok.2 ⟨(), _, rfl, ?_⟩⟩
      refine bind_eq_ok.2 ⟨_, _, lift_eq_ok.2 ⟨hlength, rfl⟩, ?_⟩
      exact bind_eq_ok.2 ⟨_, _, lift_eq_ok.2 ⟨hleft, rfl⟩, rfl⟩
    rw [hchanged, p.remove_ok range]
    exact .ok () rfl

/-- Making room in stored samples ends as it does in packed ones. -/
theorem reserve_alike (p : Packed w) (expected : Nat) :
    Alike Of (reserve expected p.stored) (Packed.reserve expected p) := by
  rw [reserve, Packed.reserve, get_bind_eq, get_bind_eq]
  have hof : Of p.stored p := rfl
  exact .bind (.lift hof _) fun _ _ _ _ _ h => .lift h _

/-! ## Readings -/

/-- A stored sample is read as a packed one. -/
theorem sample_stored (p : Packed w) (index : Nat) : p.stored.sample index = p.sample index := by
  rw [sample, Packed.sample]
  dsimp only [Packed.stored]
  -- A sample that is there has all of its bytes.
  by_cases hindex : index < p.count
  · have hend := p.mul_le_size (Nat.succ_le_of_lt hindex)
    rw [Nat.succ_mul] at hend
    have hlimit := p.size_lt_limit
    have hstart : Word.mul index w.bytes = .ok (index * w.bytes) := if_pos (by omega)
    have hlow : index * w.bytes ≤ p.bytes.size := by omega
    rw [require_eq_ok.2 hindex, ok_bind, hstart, ok_bind, require_eq_ok.2 hlow, ok_bind,
      if_pos hindex]
    exact LittleEndian.unpack_extract hend
  · rw [require, if_neg hindex, if_neg hindex]
    rfl

/-- Stored samples are sliced as packed ones. -/
theorem slice_stored (p : Packed w) (first stop : Nat) :
    p.stored.slice first stop = p.slice first stop := by
  rw [slice, Packed.slice, locate_stored]
  cases SampleRange.check p.count first stop with
  | error v => rfl
  | ok range => rfl

/-- The bytes of samples that are there. -/
theorem slice_of_range (p : Packed w) (r : SampleRange p.count) :
    p.stored.slice r.first r.stop = .ok (p.bytesOf r) := by
  have hcheck : SampleRange.check p.count r.first r.stop = .ok r :=
    SampleRange.check_eq_ok.2 ⟨rfl, rfl⟩
  rw [slice_stored, Packed.slice, hcheck]
  rfl

end StoredSamples

/-! ## Any changes -/

namespace PackedEdit

/-- Carries out a change on stored samples. -/
def runStored : (e : PackedEdit) → Operation StoredSamples e.Result
  | .append payload => StoredSamples.append payload
  | .reserve expected => StoredSamples.reserve expected
  | .remove first stop => StoredSamples.remove first stop

/-- Stored samples after changes, those that break their contract included. -/
def storedAfter (w : Width) (edits : List PackedEdit) : StoredSamples :=
  edits.foldl (fun s e => e.runStored.leaves s) (.empty w)

/-- An edit of stored samples ends as it does on packed ones. -/
theorem runStored_alike (e : PackedEdit) (p : Packed w) :
    Alike StoredSamples.Of (e.runStored p.stored) (e.run p) := by
  cases e with
  | append payload => exact StoredSamples.append_alike p payload
  | reserve expected => exact StoredSamples.reserve_alike p expected
  | remove first stop => exact StoredSamples.remove_alike p first stop

/-- Edits of stored samples leave what they leave of packed ones. -/
theorem foldl_runStored (edits : List PackedEdit) (p : Packed w) :
    edits.foldl (fun s e => e.runStored.leaves s) p.stored =
      (edits.foldl (fun p e => e.run.leaves p) p).stored := by
  induction edits generalizing p with
  | nil => rfl
  | cons e edits ih =>
    have hstep : e.runStored.leaves p.stored = (e.run.leaves p).stored := (e.runStored_alike p).leaves
    rw [List.foldl_cons, List.foldl_cons, hstep, ih]

/-- Stored samples after changes are what is stored of the packed samples after them. -/
theorem storedAfter_eq (w : Width) (edits : List PackedEdit) :
    storedAfter w edits = (after w edits).stored :=
  foldl_runStored edits .empty

end PackedEdit

namespace StoredSamples

/-- A change that breaks its contract changes none of what is stored. -/
theorem unchanged_of_error {e : PackedEdit} {p : Packed w} {v : Violation} {s : StoredSamples}
    (h : e.runStored p.stored = .error v s) : s = p.stored := by
  have halike := e.runStored_alike p
  rw [h] at halike
  generalize hrun : e.run p = outcome at halike
  cases halike with
  | error _ hof =>
    rw [e.atomic _ _ _ hrun] at hof
    exact hof

/-- After any changes of samples that are stored as bytes, a number and a width, these read as the list of
words that the changes make of the empty list.  The number is that of the words, and there are as many
bytes as they have; a sample is the word at its index, and a range is the bytes of its words, wherever
there are such words; an append answers with the number of words into which its payload is cut; and a
change that breaks its contract changes nothing. -/
theorem reads_as_list (w : Width) (edits : List PackedEdit) :
    let s := PackedEdit.storedAfter w edits
    let words := PackedEdit.wordsAfter w edits
    s.width = w ∧ s.count = words.length ∧ s.bytes.size = w.bytes * words.length ∧
    (∀ i, s.sample i =
      if h : i < words.length then .ok words[i] else .error (.noSuchSample i words.length)) ∧
    (∀ first stop, s.slice first stop =
      if first ≤ stop then
        if stop ≤ words.length then
          .ok (LittleEndian.encode w.bytes (words.extract first stop)).toByteArray
        else .error (.rangePastEnd stop)
      else .error (.invertedRange first stop)) ∧
    (∀ payload, (append payload).outcome s =
      if payload.size % w.bytes = 0 then
        if s.bytes.size + payload.size < Packed.byteLimit then
          .ok (LittleEndian.cut w.bytes payload.data.toList).length
        else .error .capacityOverflow
      else .error (.raggedPayload (payload.size % w.bytes))) ∧
    ∀ (e : PackedEdit) v s', e.runStored s = .error v s' → s' = s := by
  intro s words
  -- The state is the stored form of a buffer with the same history; its reads are those of the
  -- buffer.
  have hs : s = (PackedEdit.after w edits).stored := PackedEdit.storedAfter_eq w edits
  clear_value s
  subst hs
  obtain ⟨hcount, hsize, hsample, hslice, happend⟩ := Packed.read_as_words w edits
  refine ⟨rfl, hcount, hsize, fun i => ?_, fun first stop => ?_, fun payload => ?_, fun e v s' =>
    unchanged_of_error⟩
  · rw [sample_stored]
    exact hsample i
  · rw [slice_stored]
    exact hslice first stop
  · rw [(append_alike _ payload).outcome]
    exact happend payload

end StoredSamples

end Waveform
