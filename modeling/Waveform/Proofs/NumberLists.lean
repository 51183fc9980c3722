import Waveform.Proofs.AnalogPyramid
import Waveform.Proofs.TimelineCuts
import Waveform.Proofs.WordLists

/-!
# An analog recording as a list of numbers

To a caller an analog recording is a list of numbers.  Numbers that are appended go to its end, and a
removal takes a range out of it.  All of them are bit patterns, so what is read back is what was
appended, down to the payload of a NaN and the sign of a zero.

There are two ways to read.  `Trace.numbers` takes the bytes of a range apart, four at a time, and
`Trace.number` cuts a packed word down to 32 bits.  Both read the same list.

## Key results

- `Trace.numbers_eq`: a range is read as that range of the list
- `Edit.numberList_leaves`: a call does to the list of numbers what it is to do
- `Recording.numbers_kept`: after any calls both ways of reading give the numbers of the list
-/

namespace Waveform

open Operation

variable {τ : Type}

/-- Bytes are taken apart into the numbers whose patterns are their words. -/
theorem Binary32.decode_eq (bytes : ByteArray) :
    decode bytes = ((LittleEndian.wordsOf bytes 4).map fun w => ⟨w.toUInt32⟩).toArray := by
  apply Array.toList_inj.1
  simp [decode, LittleEndian.wordsOf, Nat.mul_comm]

namespace Trace

/-- The numbers of a trace, the first one first. -/
def numberList (t : Trace .analog) : List Binary32 :=
  t.samples.words.map fun w => ⟨w.toUInt32⟩

@[simp] theorem length_numberList (t : Trace .analog) : t.numberList.length = t.count := by
  rw [numberList, List.length_map, Packed.length_words]
  rfl

/-- Analog samples are four bytes wide. -/
theorem width_bytes (t : Trace .analog) : t.width.bytes = 4 :=
  congrArg Width.bytes t.admitted

/-- The numbers of a trace are listed in their order. -/
theorem getElem_numberList (t : Trace .analog) {i : Nat} (hi : i < t.numberList.length) :
    t.numberList[i] = t.numberAt i := by
  simp [numberList, Packed.words, numberAt]

/-- A range of the trace is read as that range of the list. -/
theorem numbers_eq {t : Trace .analog} {first stop : Nat} (hordered : first ≤ stop)
    (hwithin : stop ≤ t.count) :
    t.numbers first stop = .ok (t.numberList.extract first stop).toArray := by
  let range : SampleRange t.samples.count := ⟨first, stop, hordered, hwithin⟩
  have hcheck : SampleRange.check t.samples.count first stop = .ok range :=
    SampleRange.check_eq_ok.2 ⟨rfl, rfl⟩
  have hwords := t.samples.wordsOf_bytesOf range
  rw [t.width_bytes] at hwords
  -- Four bytes at a time, the decoding reads the words.
  have hdecode : Binary32.decode (t.samples.bytesOf range) =
      (t.numberList.extract first stop).toArray := by
    rw [Binary32.decode_eq, hwords, numberList, List.extract_eq_take_drop, List.extract_eq_take_drop,
      List.map_take, List.map_drop]
  rw [← hdecode, numbers, Packed.slice, hcheck]
  rfl

end Trace

/-! ## Calls on a list of numbers -/

/-- A list of numbers on which an analog recording's calls are made, and whether it has ended. -/
structure NumberList where
  numbers : List Binary32
  complete : Bool

/-- A list without numbers. -/
def NumberList.empty : NumberList :=
  ⟨[], false⟩

/-- What a call does to a list of numbers.  Numbers go to the end of a list that has not ended, if they
fit in the address space, and a range is taken out if it lies within the list. -/
def Edit.onNumbers : Edit .analog → NumberList → NumberList
  | .appendAnalog xs, l =>
    if l.complete = false ∧ 4 * (l.numbers.length + xs.size) < Packed.byteLimit then
      { l with numbers := l.numbers ++ xs.toList }
    else l
  | .reserve _, l => l
  | .remove first stop, l =>
    if first ≤ stop ∧ stop ≤ l.numbers.length then
      { l with numbers := l.numbers.take first ++ l.numbers.drop stop }
    else l
  | .finish, l => { l with complete := true }

/-- The numbers of a recording, and whether it is complete. -/
def Recording.numberList (r : Recording τ .analog) : NumberList :=
  ⟨r.trace.numberList, r.complete⟩

/-- Numbers that are appended go to the end of the list, bit for bit. -/
theorem Trace.numberList_append {xs : Array Binary32} {t t' : Trace .analog}
    (h : append (Binary32.encode xs) t = .ok () t') : t'.numberList = t.numberList ++ xs.toList := by
  obtain ⟨-, hwords⟩ := Trace.words_append h
  rw [t.width_bytes, Binary32.wordsOf_encode] at hwords
  rw [numberList, hwords, List.map_append, List.map_map, numberList]
  simp [Function.comp_def]

/-- The bytes of a trace, from its numbers. -/
theorem Trace.size_eq (t : Trace .analog) : t.samples.bytes.size = 4 * t.numberList.length := by
  rw [length_numberList, ← t.samples.count_mul, t.width_bytes, Nat.mul_comm]
  rfl

/-- A removal takes a range out of the list. -/
theorem Trace.numberList_remove {first stop : Nat} {t t' : Trace .analog}
    (h : remove first stop t = .ok () t') :
    first ≤ stop ∧ stop ≤ t.count ∧
      t'.numberList = t.numberList.take first ++ t.numberList.drop stop := by
  obtain ⟨_, _, hsamples, h⟩ := bind_eq_ok.1 h
  obtain ⟨p, hp, rfl⟩ := onSamples_eq_ok.1 hsamples
  obtain ⟨range, rfl, rfl, rfl⟩ := Packed.remove_eq_ok hp
  cases h
  refine ⟨range.ordered, range.within, ?_⟩
  show (t.samples.without range).words.map _ = _
  rw [Packed.words_without, List.map_append, List.map_take, List.map_drop]
  rfl

/-- A call that keeps its contract does to the numbers what it is to do to a list of numbers. -/
theorem Edit.numberList_of_eq_ok {e : Edit .analog} {r r' : Recording τ .analog}
    (h : e.run r = .ok () r') : r'.numberList = e.onNumbers r.numberList := by
  cases e with
  | appendAnalog xs =>
    obtain ⟨hopen, t, ht, rfl⟩ := Recording.appendAnalog_eq_ok.1 h
    obtain ⟨_, p, hp, -⟩ := Trace.append_eq_ok.1 ht
    -- The append had room, which is what the list asks for.
    have hfits := (Packed.append_eq_ok.1 hp).2.1
    rw [r.trace.size_eq, Binary32.size_encode, ← Nat.mul_add] at hfits
    rw [onNumbers, if_pos ⟨hopen, hfits⟩, Recording.numberList, Trace.numberList_append ht]
    rfl
  | reserve expected => rw [(Recording.reserve_eq_ok.1 h).2, onNumbers]
  | remove first stop =>
    obtain ⟨t, ht, rfl⟩ := Recording.onTrace_eq_ok.1 h
    obtain ⟨hordered, hwithin, hlist⟩ := Trace.numberList_remove ht
    rw [← r.trace.length_numberList] at hwithin
    rw [onNumbers, if_pos ⟨hordered, hwithin⟩, Recording.numberList, hlist]
    rfl
  | finish =>
    cases h
    rfl

/-- A call that breaks its contract is one that does nothing to a list of numbers. -/
theorem Edit.onNumbers_of_eq_error {e : Edit .analog} {r r' : Recording τ .analog} {v : Violation}
    (h : e.run r = .error v r') : e.onNumbers r.numberList = r.numberList := by
  cases e with
  | appendAnalog xs =>
    refine if_neg ?_
    -- Otherwise the append would have been done.
    rintro ⟨hopen, hfits⟩
    have hwhole : (Binary32.encode xs).size % r.trace.width.bytes = 0 := by
      rw [r.trace.width_bytes, Binary32.size_encode, Nat.mul_mod_right]
    have hroom : r.trace.samples.bytes.size + (Binary32.encode xs).size < Packed.byteLimit := by
      rw [r.trace.size_eq, Binary32.size_encode, ← Nat.mul_add]
      exact hfits
    obtain ⟨t, ht⟩ := Trace.append_ok hwhole hroom
    have hdone := Recording.appendAnalog_eq_ok.2 ⟨hopen, t, ht, rfl⟩
    cases h.symm.trans hdone
  | reserve expected => rfl
  | remove first stop =>
    refine if_neg ?_
    -- Otherwise the removal would have been done.
    rintro ⟨hordered, hwithin⟩
    have hcount : r.trace.numberList.length = r.count := r.trace.length_numberList
    obtain ⟨r', hdone, -⟩ := r.remove_ok hordered (hcount ▸ hwithin)
    cases h.symm.trans hdone
  | finish => cases h

/-- A call does to the numbers of a recording what it is to do to a list of numbers. -/
theorem Edit.numberList_leaves (e : Edit .analog) (r : Recording τ .analog) :
    (e.run.leaves r).numberList = e.onNumbers r.numberList := by
  cases hact : e.run r with
  | ok u r' => rw [leaves_of_eq_ok hact, numberList_of_eq_ok hact]
  | error v r' =>
    have hsame : e.run.leaves r = r := by
      simp only [leaves, hact]
      exact e.atomic _ _ _ hact
    rw [hsame, onNumbers_of_eq_error hact]

/-- Calls do to the numbers of a recording what they are to do to a list of numbers. -/
theorem Edit.numberList_foldl (edits : List (Edit .analog)) (r : Recording τ .analog) :
    (edits.foldl (fun r e => e.run.leaves r) r).numberList =
      edits.foldl (fun l e => e.onNumbers l) r.numberList := by
  induction edits generalizing r with
  | nil => rfl
  | cons e edits ih => rw [List.foldl_cons, List.foldl_cons, ih, e.numberList_leaves]

namespace Recording

/-- A recording starts without numbers. -/
theorem numberList_of_start {rate : Nat} {start : τ} {r : Recording τ .analog}
    (h : startAnalog rate start = .ok r) : r.numberList = NumberList.empty := by
  unfold startAnalog at h
  split at h
  · cases h
    simp [numberList, Trace.numberList, Trace.empty, NumberList.empty]
  · cases h

/-- Whatever is called on an analog recording from its start on, it holds the numbers of the list on
which the same calls are made, bit for bit.  Every range is read as that range of the list, and a single
number as the number at its index, which is also what is read of the range of one. -/
theorem numbers_kept {rate : Nat} {start : τ} {r₀ : Recording τ .analog}
    (h : startAnalog rate start = .ok r₀) (edits : List (Edit .analog)) :
    let r := edits.foldl (fun r e => e.run.leaves r) r₀
    let xs := (edits.foldl (fun l e => e.onNumbers l) NumberList.empty).numbers
    r.count = xs.length ∧
    (∀ first stop, first ≤ stop → stop ≤ r.count →
      r.trace.numbers first stop = .ok (xs.extract first stop).toArray) ∧
    ∀ i (hi : i < xs.length), r.trace.number i = .ok xs[i] ∧
      r.trace.numbers i (i + 1) = .ok #[xs[i]] := by
  intro r xs
  -- Edit by edit the list is that of the trace, so the reads are reads of the list.
  have hlist : r.trace.numberList = xs := by
    have hrun := Edit.numberList_foldl edits r₀
    rw [numberList_of_start h] at hrun
    exact congrArg NumberList.numbers hrun
  have hcount : r.trace.count = xs.length := by rw [← hlist, Trace.length_numberList]
  have hranges : ∀ first stop, first ≤ stop → stop ≤ r.count →
      r.trace.numbers first stop = .ok (xs.extract first stop).toArray := by
    intro first stop hordered hwithin
    rw [Trace.numbers_eq hordered hwithin, hlist]
  refine ⟨hcount, hranges, fun i hi => ⟨?_, ?_⟩⟩
  · have hget : r.trace.numberAt i = xs[i] := by
      simp only [← hlist]
      exact (r.trace.getElem_numberList _).symm
    rw [Trace.number_eq_ok (hcount ▸ hi), hget]
  · -- One number that is read as a range is decoded like the others.
    have hwithin : i + 1 ≤ r.trace.count := hcount ▸ hi
    rw [hranges i (i + 1) (Nat.le_succ i) hwithin, List.extract_eq_take_drop,
      List.drop_eq_getElem_cons hi, Nat.add_sub_cancel_left]
    rfl

/-- A NaN with a payload, a one and a negative zero arrive, the one is removed, a removal that is
inverted is refused, and infinity arrives. -/
theorem numbers_kept_of_nan :
    ∃ r₀ : Recording Rat .analog, startAnalog 1000 0 = .ok r₀ ∧
      let edits : List (Edit .analog) :=
        [.appendAnalog #[⟨0x7fa00001⟩, ⟨0x3f800000⟩, ⟨0x80000000⟩], .remove 1 2, .remove 2 1,
          .appendAnalog #[⟨0x7f800000⟩]]
      let r := edits.foldl (fun r e => e.run.leaves r) r₀
      r.count = 3 ∧
      r.trace.numbers 0 3 = .ok #[⟨0x7fa00001⟩, ⟨0x80000000⟩, ⟨0x7f800000⟩] ∧
      r.trace.number 1 = .ok ⟨0x80000000⟩ ∧ r.trace.numbers 1 2 = .ok #[⟨0x80000000⟩] := by
  refine ⟨_, rfl, ?_⟩
  intro edits r
  obtain ⟨hcount, hranges, hsingle⟩ :=
    numbers_kept (show startAnalog 1000 (0 : Rat) = .ok _ from rfl) edits
  -- The list is evaluated; the reads follow.
  have hxs : (edits.foldl (fun l e => e.onNumbers l) NumberList.empty).numbers =
      [⟨0x7fa00001⟩, ⟨0x80000000⟩, ⟨0x7f800000⟩] := by decide
  simp only [hxs] at hcount hranges hsingle
  have hthree : r.count = 3 := hcount
  obtain ⟨hnumber, hnumbers⟩ := hsingle 1 (by decide)
  exact ⟨hthree, hranges 0 3 (by decide) (Nat.le_of_eq hthree.symm), hnumber, hnumbers⟩

end Recording

end Waveform
