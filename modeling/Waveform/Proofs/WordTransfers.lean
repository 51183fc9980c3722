import Waveform.Proofs.WordLists

/-!
# Writing words and reading them back

`LittleEndian.pack` writes the low bytes of a word over the first bytes of an array, and
`LittleEndian.unpack` reads a word from them.  What is read back after a word was written is the word,
cut to the bytes that were written, and the bytes behind them stay as they were.  Writing what was
read changes nothing.

The entries of a logic pyramid join samples bit by bit, so they have no bits beyond the bytes of a
sample either, and are kept whole in as many bytes.

## Key results

- `LittleEndian.unpack_packed`, `LittleEndian.byteAt_packed`: the word and the other bytes after a word
  was written
- `LittleEndian.packed_wordAt`: writing what was read
- `LittleEndian.pack_unpack`: the two transfers undo each other
- `Trace.Summed.unpack_entry`: an entry of a pyramid is kept whole in the bytes of a sample
-/

namespace Waveform

namespace LittleEndian

variable {bytes : ByteArray} {n : Nat}

/-- A word is read where there are enough bytes. -/
theorem unpack_eq_ok (h : n ≤ bytes.size) : unpack bytes n = .ok (wordAt bytes 0 n) := by
  have hthere : require (n ≤ bytes.size) (.sliceTooShort n bytes.size) = .ok () := if_pos h
  rw [unpack, hthere]
  rfl

/-- Reading from a position on is reading at that position. -/
theorem unpack_extract {i : Nat} (h : i + n ≤ bytes.size) :
    unpack (bytes.extract i bytes.size) n = .ok (wordAt bytes i n) := by
  have hsize : (bytes.extract i bytes.size).size = bytes.size - i := by
    rw [ByteArray.size_extract, Nat.min_self]
  rw [unpack_eq_ok (by omega)]
  refine congrArg Except.ok (wordAt_congr fun k hk => ?_)
  rw [Nat.zero_add]
  exact byteAt_extract (by omega) (Nat.le_refl _)

/-- The bytes after a word was written over the first `n` of them. -/
def packed (bytes : ByteArray) (n : Nat) (word : UInt64) : ByteArray :=
  (bytesOf n word).toByteArray ++ bytes.extract n bytes.size

/-- A word is written where there are enough bytes, and eight at most. -/
theorem pack_eq_ok (hn : n ≤ 8) (h : n ≤ bytes.size) (word : UInt64) :
    pack bytes n word = .ok (packed bytes n word) := by
  have hthere : require (n ≤ bytes.size) (.sliceTooShort n bytes.size) = .ok () := if_pos h
  have hbits : require (n ≤ 8) .shiftRightOverflow = .ok () := if_pos hn
  rw [pack, hthere, hbits]
  rfl

/-- A word has as many bytes as are asked for. -/
theorem size_toByteArray_bytesOf (n : Nat) (word : UInt64) :
    (bytesOf n word).toByteArray.size = n := by
  rw [List.size_toByteArray, length_bytesOf]

/-- Writing a word leaves as many bytes. -/
theorem size_packed (h : n ≤ bytes.size) (word : UInt64) :
    (packed bytes n word).size = bytes.size := by
  rw [packed, ByteArray.size_append, size_toByteArray_bytesOf, ByteArray.size_extract]
  omega

/-- The word that was written is read back, cut to the bytes that were written. -/
theorem unpack_packed (h : n ≤ bytes.size) (word : UInt64) :
    unpack (packed bytes n word) n = .ok (word.toNat % 1 <<< (8 * n)).toUInt64 := by
  have hown : wordAt (packed bytes n word) 0 n = wordAt (bytesOf n word).toByteArray 0 n := by
    apply wordAt_congr
    intro k hk
    exact byteAt_append_of_lt _ _ (by rw [size_toByteArray_bytesOf]; omega)
  rw [unpack_eq_ok (by rw [size_packed h]; exact h), hown, ← toNat_wordAt_bytesOf]
  exact congrArg Except.ok UInt64.ofNat_toNat.symm

/-- The bytes behind those that were written are as before. -/
theorem byteAt_packed (h : n ≤ bytes.size) (word : UInt64) {i : Nat} (hi : n ≤ i) :
    byteAt (packed bytes n word) i = byteAt bytes i := by
  rcases Nat.lt_or_ge i bytes.size with hin | hout
  · have hbehind := byteAt_append_add (bytesOf n word).toByteArray (bytes.extract n bytes.size) (i - n)
    rw [size_toByteArray_bytesOf, byteAt_extract (by omega) (Nat.le_refl _),
      Nat.add_sub_cancel' hi] at hbehind
    exact hbehind
  · -- There are no bytes here, neither before nor after.
    have hout' : ¬ i < (packed bytes n word).size := by
      rw [size_packed h]
      exact Nat.not_lt_of_le hout
    rw [byteAt, byteAt, dif_neg hout', dif_neg (Nat.not_lt_of_le hout)]

/-- Writing the word that was read changes nothing. -/
theorem packed_wordAt (hn : n ≤ 8) (h : n ≤ bytes.size) :
    packed bytes n (wordAt bytes 0 n) = bytes := by
  have hread : (bytesOf n (wordAt bytes 0 n)).toByteArray = bytes.extract 0 n := by
    rw [bytesOf_wordAt hn (by omega)]
    exact ByteArray.ext (Array.toList_inj.1 (by simp))
  rw [packed, hread, ← ByteArray.extract_eq_extract_append_extract _ (Nat.zero_le _) h,
    ByteArray.extract_zero_size]

/-- After a word was written over the first `n` bytes, the word that is read from them is the remainder
of the word modulo `2 ^ (8 * n)`, and every byte behind them is as before.  A word that was read can be
written over the bytes it was read from without changing any.  Both transfers succeed wherever there are
as many bytes. -/
theorem pack_unpack (hn : n ≤ 8) (h : n ≤ bytes.size) (word : UInt64) :
    (∃ after, pack bytes n word = .ok after ∧ after.size = bytes.size ∧
      unpack after n = .ok (word.toNat % 1 <<< (8 * n)).toUInt64 ∧
      ∀ i, n ≤ i → byteAt after i = byteAt bytes i) ∧
    ∃ stored, unpack bytes n = .ok stored ∧ pack bytes n stored = .ok bytes := by
  constructor
  · exact ⟨_, pack_eq_ok hn h word, size_packed h word, unpack_packed h word,
      fun i hi => byteAt_packed h word hi⟩
  · refine ⟨_, unpack_eq_ok h, ?_⟩
    rw [pack_eq_ok hn h, packed_wordAt hn h]

/-- Three bytes of a word of eight, written over the first three of five bytes. -/
theorem pack_unpack_of_three :
    3 ≤ 8 ∧ 3 ≤ (⟨#[1, 2, 3, 170, 187]⟩ : ByteArray).size ∧
    pack ⟨#[1, 2, 3, 170, 187]⟩ 3 0x8877665544332211 = .ok ⟨#[17, 34, 51, 170, 187]⟩ ∧
    unpack ⟨#[17, 34, 51, 170, 187]⟩ 3 = .ok 0x332211 ∧
    unpack ⟨#[1, 2, 3, 170, 187]⟩ 3 = .ok 0x030201 ∧
    pack ⟨#[1, 2, 3, 170, 187]⟩ 3 0x030201 = .ok ⟨#[1, 2, 3, 170, 187]⟩ := by
  have hn : 3 ≤ 8 := by decide
  have h : 3 ≤ (⟨#[1, 2, 3, 170, 187]⟩ : ByteArray).size := by decide
  obtain ⟨⟨after, hwritten, -, hback, -⟩, stored, hread, hsame⟩ :=
    pack_unpack hn h 0x8877665544332211
  have hafter : pack ⟨#[1, 2, 3, 170, 187]⟩ 3 0x8877665544332211 =
      .ok ⟨#[17, 34, 51, 170, 187]⟩ := rfl
  have hstored : unpack ⟨#[1, 2, 3, 170, 187]⟩ 3 = .ok 0x030201 := rfl
  cases hwritten.symm.trans hafter
  cases hread.symm.trans hstored
  exact ⟨hn, h, hafter, hback, hstored, hsame⟩

end LittleEndian

/-- Joining entries sets no bit that is set in none of them. -/
theorem Signal.describes_lt (n : Nat) :
    changes.Describes fun _ _ entry => entry.toNat < 1 <<< n where
  empty _ := by
    rw [Nat.one_shiftLeft]
    exact Nat.two_pow_pos n
  join _ _ _ a b ha hb := by
    show (a ||| b).toNat < 1 <<< n
    rw [Nat.one_shiftLeft] at ha hb ⊢
    rw [UInt64.toNat_or]
    exact Nat.or_lt_two_pow ha hb

/-- What a sample contributes to its windows is the difference between two words of its bytes. -/
theorem Packed.toNat_leaf_lt {w : Width} (p : Packed w) (i : Nat) :
    (Signal.leaf .logic p.word i).toNat < 1 <<< (8 * w.bytes) := by
  have hword : ∀ i, (p.word i).toNat < 1 <<< (8 * w.bytes) :=
    fun i => LittleEndian.toNat_wordAt_lt _ _ w.le_eight
  -- The difference of two words has no more bits than they have.
  cases i with
  | zero => exact hword 0
  | succ i =>
    have hbefore := hword i
    have hafter := hword (i + 1)
    show (p.word i ^^^ p.word (i + 1)).toNat < _
    rw [Nat.one_shiftLeft] at hbefore hafter ⊢
    rw [UInt64.toNat_xor]
    exact Nat.xor_lt_two_pow hbefore hafter

namespace Trace

open LittleEndian

variable {t : Trace .logic}

/-- An entry of a logic pyramid has no bits beyond the bytes of a sample. -/
theorem Summed.toNat_entry_lt (h : t.Summed) {level index : Nat} {entry : UInt64}
    (hget : (t.pyramid.entries level)[index]? = some entry) :
    entry.toNat < 1 <<< (8 * t.width.bytes) :=
  Pyramid.Covers.entry (Signal.describes_lt (8 * t.width.bytes)) h t.samples.toNat_leaf_lt hget

/-- An entry of a logic pyramid is read back whole from as many bytes as a sample has. -/
theorem Summed.unpack_entry (h : t.Summed) {level index : Nat} {entry : UInt64}
    (hget : (t.pyramid.entries level)[index]? = some entry) {bytes : ByteArray}
    (hroom : t.width.bytes ≤ bytes.size) :
    pack bytes t.width.bytes entry = .ok (packed bytes t.width.bytes entry) ∧
      unpack (packed bytes t.width.bytes entry) t.width.bytes = .ok entry := by
  refine ⟨pack_eq_ok t.width.le_eight hroom entry, ?_⟩
  rw [unpack_packed hroom, Nat.mod_eq_of_lt (h.toNat_entry_lt hget)]
  exact congrArg Except.ok UInt64.ofNat_toNat

end Trace

end Waveform
