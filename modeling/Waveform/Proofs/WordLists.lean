import Waveform.Proofs.AnalogSamples
import Waveform.Proofs.BrokenCalls

/-!
# Packed samples as a list of words

To a caller packed samples are a list of words of one width.  A payload is cut into words that go to
the end of the list, a removal takes the words of a range out of it, and what is read back are the
words of the list or, for a range, their bytes.  `PackedEdit.onWords` says so without a byte array and
without a position in it: `LittleEndian.cut` reads each word of a payload off its own bytes, as a
number to base 256.

## Key results

- `LittleEndian.bytesOf_wordAt`: a word that was read is written with the bytes it was read from
- `Packed.wordsOf_bytesOf`: the bytes of a range are the bytes of its words
- `PackedEdit.words_leaves`: a change does to the list of words what it is to do
- `Packed.read_as_words`: after any changes the samples read as the list of words
-/

namespace Waveform

open Operation

namespace LittleEndian

/-! ## Words and their bytes -/

/-- The number with the given bytes, the least significant first. -/
def numeral (bytes : List UInt8) : Nat :=
  bytes.foldr (fun b n => b.toNat + 256 * n) 0

/-- The words into which bytes are cut, `width` bytes for each. -/
def cut (width : Nat) (bytes : List UInt8) : List UInt64 :=
  (List.range (bytes.length / width)).map fun i =>
    (numeral ((bytes.drop (i * width)).take width)).toUInt64

/-- The bytes of words, `width` bytes for each. -/
def encode (width : Nat) (words : List UInt64) : List UInt8 :=
  words.flatMap (bytesOf width)

/-- Bytes are cut into as many whole widths as there are. -/
@[simp] theorem length_cut (width : Nat) (bytes : List UInt8) :
    (cut width bytes).length = bytes.length / width := by
  simp [cut]

/-- The bytes from a position on start with the byte at that position. -/
theorem drop_eq_byteAt_cons {bytes : ByteArray} {i : Nat} (h : i < bytes.size) :
    bytes.data.toList.drop i = byteAt bytes i :: bytes.data.toList.drop (i + 1) := by
  have hi : i < bytes.data.toList.length := by simpa using h
  rw [List.drop_eq_getElem_cons hi, byteAt, dif_pos h]
  simp [ByteArray.getElem_eq_getElem_data]

/-- The place of a byte in a word lies within 64 bits. -/
theorem one_shiftLeft_le {n : Nat} (hn : n < 8) : 1 <<< (8 * n) ≤ 0x100000000000000 := by
  rw [Nat.one_shiftLeft]
  exact Nat.pow_le_pow_right (by decide) (show _ ≤ 56 by omega)

/-- A word of few bytes is small. -/
theorem toNat_wordAt_lt (bytes : ByteArray) (i : Nat) {n : Nat} (hn : n ≤ 8) :
    (wordAt bytes i n).toNat < 1 <<< (8 * n) := by
  induction n generalizing i with
  | zero => exact Nat.one_pos
  | succ n ih =>
    have hrest := ih (i + 1) (by omega)
    have hlimit := one_shiftLeft_le (show n < 8 by omega)
    have hbyte := (byteAt bytes i).toNat_lt
    have hmore : 1 <<< (8 * (n + 1)) = 256 * 1 <<< (8 * n) := by
      rw [Nat.one_shiftLeft, Nat.one_shiftLeft, Nat.mul_add, Nat.pow_add, Nat.mul_comm]
    rw [wordAt, toNat_or_shiftLeft _ _ (by omega)]
    omega

/-- A word of up to eight bytes is its first byte and 256 times the word of the others.  There are at
most seven others, so none of them is lost when they move up. -/
theorem toNat_wordAt_succ (bytes : ByteArray) (i : Nat) {n : Nat} (hn : n < 8) :
    (wordAt bytes i (n + 1)).toNat =
      (byteAt bytes i).toNat + 256 * (wordAt bytes (i + 1) n).toNat := by
  have hrest := toNat_wordAt_lt bytes (i + 1) (Nat.le_of_lt hn)
  have hlimit := one_shiftLeft_le hn
  exact toNat_or_shiftLeft _ _ (by omega)

/-- A word is the number that its bytes stand for. -/
theorem toNat_wordAt {bytes : ByteArray} {i n : Nat} (hn : n ≤ 8) (h : i + n ≤ bytes.size) :
    (wordAt bytes i n).toNat = numeral ((bytes.data.toList.drop i).take n) := by
  induction n generalizing i with
  | zero => rfl
  | succ n ih =>
    have hrest := ih (i := i + 1) (by omega) (by omega)
    rw [toNat_wordAt_succ _ _ (by omega), hrest, drop_eq_byteAt_cons (show i < bytes.size by omega)]
    rfl

/-- A word that was read is written with the bytes it was read from. -/
theorem bytesOf_wordAt {bytes : ByteArray} {i n : Nat} (hn : n ≤ 8) (h : i + n ≤ bytes.size) :
    bytesOf n (wordAt bytes i n) = (bytes.data.toList.drop i).take n := by
  induction n generalizing i with
  | zero => rfl
  | succ n ih =>
    have hrest := ih (i := i + 1) (by omega) (by omega)
    have hword := toNat_wordAt_succ bytes i (show n < 8 by omega)
    have hbyte := (byteAt bytes i).toNat_lt
    -- The low byte of the word is the first, and the rest of it is the word behind.
    have hlow : (wordAt bytes i (n + 1)).toUInt8 = byteAt bytes i := by
      apply UInt8.toNat_inj.1
      rw [UInt64.toNat_toUInt8, hword]
      omega
    have hhigh : wordAt bytes i (n + 1) >>> 8 = wordAt bytes (i + 1) n := by
      apply UInt64.toNat_inj.1
      rw [UInt64.toNat_shiftRight, hword]
      simp only [Nat.shiftRight_eq_div_pow]
      show _ / 256 = _
      omega
    rw [bytesOf, hlow, hhigh, hrest, drop_eq_byteAt_cons (show i < bytes.size by omega),
      List.take_succ_cons]

/-- Bytes are cut into the words that are read from them one after the other. -/
theorem wordsOf_eq_cut {n : Nat} (hn : n ≤ 8) (bytes : ByteArray) :
    wordsOf bytes n = cut n bytes.data.toList := by
  have hlength : bytes.data.toList.length = bytes.size := Array.length_toList
  rw [wordsOf, cut, hlength]
  apply List.map_congr_left
  intro i hi
  have hend : (i + 1) * n ≤ bytes.size / n * n := Nat.mul_le_mul_right n (List.mem_range.1 hi)
  have hwithin : bytes.size / n * n ≤ bytes.size := Nat.div_mul_le_self _ _
  rw [Nat.add_mul, Nat.one_mul] at hend
  rw [← toNat_wordAt hn (by omega)]
  exact (UInt64.ofNat_toNat).symm

/-- The words of whole words' bytes are written with these bytes. -/
theorem encode_wordsOf {bytes : ByteArray} {n : Nat} (hn : n ≤ 8) (h : bytes.size % n = 0) :
    encode n (wordsOf bytes n) = bytes.data.toList := by
  have hsize : bytes.size / n * n = bytes.size := Nat.div_mul_cancel (Nat.dvd_of_mod_eq_zero h)
  -- Word by word, the bytes that are written are the next ones.
  have hwords : ∀ k, k * n ≤ bytes.size →
      encode n ((List.range k).map fun i => wordAt bytes (i * n) n) =
        bytes.data.toList.take (k * n) := by
    intro k
    induction k with
    | zero => intro _; simp [encode]
    | succ k ih =>
      intro hk
      rw [Nat.add_mul, Nat.one_mul] at hk
      have hinit := ih (by omega)
      rw [encode] at hinit ⊢
      rw [List.range_succ, List.map_append, List.flatMap_append, hinit, List.map_singleton,
        List.flatMap_singleton, bytesOf_wordAt hn hk, Nat.add_mul, Nat.one_mul, List.take_add]
  -- The words make up all of the bytes.
  rw [wordsOf, hwords _ (by omega), hsize]
  exact List.take_of_length_le (by simp)

/-- Bytes of whole words are equal if the words are. -/
theorem eq_of_wordAt_eq {bytes bytes' : ByteArray} {n count : Nat} (hn : n ≤ 8) (hpos : 0 < n)
    (hsize : bytes.size = count * n) (hsize' : bytes'.size = count * n)
    (hwords : ∀ i, i < count → wordAt bytes (i * n) n = wordAt bytes' (i * n) n) : bytes = bytes' := by
  have hlist : wordsOf bytes n = wordsOf bytes' n := by
    rw [wordsOf, wordsOf, hsize, hsize', Nat.mul_div_cancel _ hpos]
    exact List.map_congr_left fun i hi => hwords i (List.mem_range.1 hi)
  have hbytes : encode n (wordsOf bytes n) = bytes.data.toList :=
    encode_wordsOf hn (by rw [hsize, Nat.mul_mod_left])
  -- The same words are written with the same bytes.
  rw [hlist, encode_wordsOf hn (by rw [hsize', Nat.mul_mod_left])] at hbytes
  exact ByteArray.ext (Array.toList_inj.1 hbytes.symm)

/-- A byte of a part is one of the whole. -/
theorem byteAt_extract {bytes : ByteArray} {first stop k : Nat} (hk : first + k < stop)
    (hstop : stop ≤ bytes.size) :
    byteAt (bytes.extract first stop) k = byteAt bytes (first + k) := by
  have hsize : k < (bytes.extract first stop).size := by
    rw [ByteArray.size_extract]
    omega
  rw [byteAt, byteAt, dif_pos hsize, dif_pos (by omega), ByteArray.getElem_extract]

end LittleEndian

namespace Packed

variable {w : Width}

/-! ## Reading a range -/

/-- A range of samples takes up as many bytes as its samples. -/
theorem size_bytesOf (p : Packed w) (r : SampleRange p.count) :
    (p.bytesOf r).size = (r.stop - r.first) * w.bytes := by
  have hstop := p.mul_le_size r.within
  rw [bytesOf, ByteArray.size_extract, Nat.min_eq_left hstop, Nat.sub_mul]

/-- The words in the bytes of a range are the samples of the range. -/
theorem wordAt_bytesOf (p : Packed w) (r : SampleRange p.count) {i : Nat} (hi : i < r.stop - r.first) :
    LittleEndian.wordAt (p.bytesOf r) (i * w.bytes) w.bytes = p.word (r.first + i) := by
  have hstop := p.mul_le_size r.within
  have hend : (r.first + i + 1) * w.bytes ≤ r.stop * w.bytes := Nat.mul_le_mul_right _ (by omega)
  rw [Nat.add_mul, Nat.add_mul, Nat.one_mul] at hend
  rw [word, Nat.add_mul]
  apply LittleEndian.wordAt_congr
  intro k hk
  rw [bytesOf, LittleEndian.byteAt_extract (by omega) hstop, Nat.add_assoc]

/-- The bytes of a range are cut into the words of the range. -/
theorem wordsOf_bytesOf (p : Packed w) (r : SampleRange p.count) :
    LittleEndian.wordsOf (p.bytesOf r) w.bytes = p.words.extract r.first r.stop := by
  have hordered := r.ordered
  apply List.ext_getElem
  · -- As many words, and each of them the same.
    rw [LittleEndian.length_wordsOf, p.size_bytesOf, Nat.mul_div_cancel _ w.pos]
    have := r.within
    simp
    omega
  · intro i hi _
    rw [LittleEndian.length_wordsOf, p.size_bytesOf, Nat.mul_div_cancel _ w.pos] at hi
    simp only [LittleEndian.wordsOf, words, List.extract_eq_take_drop, List.getElem_map,
      List.getElem_range, List.getElem_take, List.getElem_drop]
    exact p.wordAt_bytesOf r hi

/-- What is read of a range are the bytes of its words. -/
theorem slice_eq (p : Packed w) (first stop : Nat) :
    p.slice first stop =
      if first ≤ stop then
        if stop ≤ p.count then
          .ok (LittleEndian.encode w.bytes (p.words.extract first stop)).toByteArray
        else .error (.rangePastEnd stop)
      else .error (.invertedRange first stop) := by
  rw [slice, SampleRange.check]
  split
  · split
    · -- Only a range that is accepted has bytes.
      let r : SampleRange p.count := ⟨first, stop, ‹_›, ‹_›⟩
      have hsize : (p.bytesOf r).size % w.bytes = 0 := by rw [p.size_bytesOf, Nat.mul_mod_left]
      have hbytes := LittleEndian.encode_wordsOf w.le_eight hsize
      rw [p.wordsOf_bytesOf r] at hbytes
      rw [hbytes]
      exact congrArg Except.ok (ByteArray.ext (by simp [r]))
    · rfl
  · rfl

/-- An append answers with the number of words that it has added. -/
theorem outcome_append (payload : ByteArray) (p : Packed w) :
    (append payload).outcome p =
      if payload.size % w.bytes = 0 then
        if p.bytes.size + payload.size < byteLimit then
          .ok (LittleEndian.cut w.bytes payload.data.toList).length
        else .error .capacityOverflow
      else .error (.raggedPayload (payload.size % w.bytes)) := by
  have hlength : payload.data.toList.length = payload.size := Array.length_toList
  unfold outcome
  rw [append, get_bind_eq, LittleEndian.length_cut, hlength]
  -- A ragged payload is refused before the room is looked at.
  by_cases hwhole : payload.size % w.bytes = 0
  · rw [dif_pos hwhole, if_pos hwhole]
    by_cases hfits : p.bytes.size + payload.size < byteLimit
    · rw [dif_pos hfits, if_pos hfits]
      rfl
    · rw [dif_neg hfits, if_neg hfits]
      rfl
  · rw [dif_neg hwhole, if_neg hwhole]
    rfl

end Packed

namespace PackedEdit

variable {w : Width}

/-! ## Changes of the list -/

/-- What a change does to a list of words: a payload goes to the end if it is whole words and fits in
the address space, and a range is taken out if it lies within the list.  Nothing else changes the list. -/
def onWords (w : Width) : PackedEdit → List UInt64 → List UInt64
  | .append payload, words =>
    if payload.size % w.bytes = 0 ∧ words.length * w.bytes + payload.size < Packed.byteLimit then
      words ++ LittleEndian.cut w.bytes payload.data.toList
    else words
  | .reserve _, words => words
  | .remove first stop, words =>
    if first ≤ stop ∧ stop ≤ words.length then words.take first ++ words.drop stop else words

/-- Packed samples after changes, those that break their contract included. -/
def after (w : Width) (edits : List PackedEdit) : Packed w :=
  edits.foldl (fun p e => e.run.leaves p) .empty

/-- A list of words after changes. -/
def wordsAfter (w : Width) (edits : List PackedEdit) : List UInt64 :=
  edits.foldl (fun words e => e.onWords w words) []

/-- Appending, whether it succeeds or not, does to the words what it does to a list. -/
theorem words_leaves_append (payload : ByteArray) (p : Packed w) :
    ((Packed.append payload).leaves p).words = (append payload).onWords w p.words := by
  rw [onWords, Packed.length_words, Packed.count_mul]
  cases hact : Packed.append payload p with
  | ok added p' =>
    obtain ⟨hwhole, hfits, -, hbytes⟩ := Packed.append_eq_ok.1 hact
    rw [if_pos ⟨hwhole, hfits⟩, ← LittleEndian.wordsOf_eq_cut w.le_eight]
    simp only [leaves, hact]
    exact Packed.words_of_append hbytes
  -- A refused append leaves the bytes, and the list refuses the same payloads.
  | error v p' =>
    have hrefused : ¬ (payload.size % w.bytes = 0 ∧
        p.bytes.size + payload.size < Packed.byteLimit) := by
      rintro ⟨hwhole, hfits⟩
      have houtcome := Packed.outcome_append payload p
      rw [if_pos hwhole, if_pos hfits, outcome, hact] at houtcome
      cases houtcome
    rw [if_neg hrefused]
    simp only [leaves, hact]
    rw [Packed.atomic_append payload p v p' hact]

/-- Removing, whether it succeeds or not, does to the words what it does to a list. -/
theorem words_leaves_remove (first stop : Nat) (p : Packed w) :
    ((Packed.remove first stop).leaves p).words = (remove first stop).onWords w p.words := by
  rw [onWords, Packed.length_words]
  split
  · obtain ⟨hordered, hwithin⟩ := ‹_›
    let range : SampleRange p.count := ⟨first, stop, hordered, hwithin⟩
    rw [leaves_of_eq_ok (p.remove_ok range)]
    exact p.words_without range
  · -- A removal that was done had a range that the list accepts.
    rename_i hrefused
    rcases (Packed.atomic_remove first stop).leaves_cases p with hsame | hdone
    · rw [hsame]
    · obtain ⟨range, rfl, rfl, -⟩ := Packed.remove_eq_ok hdone
      exact absurd ⟨range.ordered, range.within⟩ hrefused

/-- A change does to the words what it is to do to a list of words. -/
theorem words_leaves (e : PackedEdit) (p : Packed w) :
    (e.run.leaves p).words = e.onWords w p.words := by
  cases e with
  | append payload =>
    -- The number that an append returns plays no part in what it leaves.
    exact words_leaves_append payload p
  | reserve expected =>
    show ((Packed.reserve expected).leaves p).words = p.words
    rcases (Packed.atomic_reserve expected).leaves_cases p with hsame | hdone
    · rw [hsame]
    · rw [(Packed.reserve_eq_ok.1 hdone).2.2]
  | remove first stop => exact words_leaves_remove first stop p

/-- Changes do to the words what they are to do to a list of words. -/
theorem words_foldl (edits : List PackedEdit) (p : Packed w) :
    (edits.foldl (fun p e => e.run.leaves p) p).words =
      edits.foldl (fun words e => e.onWords w words) p.words := by
  induction edits generalizing p with
  | nil => rfl
  | cons e edits ih => rw [List.foldl_cons, List.foldl_cons, ih, e.words_leaves]

/-- After a run of edits the words are what the edits make of a list. -/
theorem words_after (w : Width) (edits : List PackedEdit) :
    (after w edits).words = wordsAfter w edits := by
  rw [after, words_foldl, Packed.words_empty]
  rfl

end PackedEdit

namespace Packed

/-- After any changes the samples read as the list of words that the changes make of the empty list.
There are as many as there are words, in as many bytes; a sample is the word at its index, and a range
is the bytes of its words, wherever there are such words; and an append answers with the number of words
into which its payload is cut. -/
theorem read_as_words (w : Width) (edits : List PackedEdit) :
    let p := PackedEdit.after w edits
    let words := PackedEdit.wordsAfter w edits
    p.count = words.length ∧ p.bytes.size = w.bytes * words.length ∧
    (∀ i, p.sample i =
      if h : i < words.length then .ok words[i] else .error (.noSuchSample i words.length)) ∧
    (∀ first stop, p.slice first stop =
      if first ≤ stop then
        if stop ≤ words.length then
          .ok (LittleEndian.encode w.bytes (words.extract first stop)).toByteArray
        else .error (.rangePastEnd stop)
      else .error (.invertedRange first stop)) ∧
    ∀ payload, (append payload).outcome p =
      if payload.size % w.bytes = 0 then
        if p.bytes.size + payload.size < byteLimit then
          .ok (LittleEndian.cut w.bytes payload.data.toList).length
        else .error .capacityOverflow
      else .error (.raggedPayload (payload.size % w.bytes)) := by
  intro p words
  have hwords : p.words = words := PackedEdit.words_after w edits
  have hcount : p.count = words.length := by rw [← hwords, length_words]
  refine ⟨hcount, ?_, fun i => ?_, fun first stop => ?_, fun payload => outcome_append payload p⟩
  · rw [← p.count_mul, hcount, Nat.mul_comm]
  · rw [sample, hcount]
    split
    · rename_i hi
      have hget : words[i]? = some (p.word i) := by
        rw [← hwords, Packed.words, List.getElem?_map, List.getElem?_range (hcount ▸ hi)]
        rfl
      rw [(List.getElem?_eq_some_iff.1 hget).2]
    · rfl
  · rw [slice_eq, hwords, hcount]

/-- Words of two bytes: a payload with a byte too many is refused, and of two words the first is removed. -/
example : PackedEdit.wordsAfter ⟨2, by decide, by decide⟩
    [.append ⟨#[1, 2, 3]⟩, .append ⟨#[1, 2, 3, 4]⟩, .remove 0 1] = [0x0403] := by decide

end Packed

end Waveform
