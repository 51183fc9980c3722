import Waveform.Analog.Plot
import Waveform.Proofs.PackedSamples

/-!
# Numbers as packed samples

Numbers are packed as the words of their patterns, four bytes each.  Reading the words of packed
numbers gives their patterns back, bit for bit.

## Key results

- `LittleEndian.toNat_wordAt_bytesOf`: a word read from its own bytes is the word, cut to their number
- `Binary32.size_encode`, `Binary32.wordsOf_encode`: packed numbers as bytes and as words
-/

namespace Waveform

namespace LittleEndian

/-- A word is pushed by appending its bytes. -/
theorem pushWord_eq (bytes : ByteArray) (n : Nat) (word : UInt64) :
    pushWord bytes n word = bytes ++ (bytesOf n word).toByteArray := by
  apply ByteArray.ext
  rw [data_pushWord, ByteArray.data_append, List.data_toByteArray]

/-- Reading past a first byte is reading from the second one. -/
theorem wordAt_cons (b : UInt8) (bs : List UInt8) (n : Nat) :
    wordAt (b :: bs).toByteArray 1 n = wordAt bs.toByteArray 0 n := by
  have happend : ([b] ++ bs).toByteArray = [b].toByteArray ++ bs.toByteArray :=
    List.toByteArray_append
  rw [← List.singleton_append, happend]
  apply wordAt_congr
  intro k _
  rw [Nat.zero_add]
  exact byteAt_append_add [b].toByteArray bs.toByteArray k

/-- The low byte of a word and what is above it stand side by side. -/
theorem toNat_or_shiftLeft (b : UInt8) (v : UInt64) (hv : v.toNat < 0x100000000000000) :
    (b.toUInt64 ||| v <<< 8).toNat = b.toNat + 256 * v.toNat := by
  have hb : b.toNat < 256 := b.toNat_lt
  have hshift : (v <<< 8).toNat = 256 * v.toNat := by
    simp only [UInt64.toNat_shiftLeft, Nat.shiftLeft_eq]
    simp
    omega
  rw [UInt64.toNat_or, hshift, UInt8.toNat_toUInt64, Nat.or_comm]
  exact (Nat.two_pow_add_eq_or_of_lt (i := 8) hb v.toNat).symm.trans (by omega)

/-- A word read from its own bytes is the word, cut to the number of bytes. -/
theorem toNat_wordAt_bytesOf (n : Nat) (word : UInt64) :
    (wordAt (bytesOf n word).toByteArray 0 n).toNat = word.toNat % 1 <<< (8 * n) := by
  -- On the bytes: the first is the remainder of the word, and the rest its quotient.
  induction n generalizing word with
  | zero => simp [wordAt, Nat.mod_one]
  | succ n ih =>
    have hrest : (word >>> 8).toNat = word.toNat / 256 := by
      simp [UInt64.toNat_shiftRight, Nat.shiftRight_eq_div_pow]
    have hword := word.toNat_lt
    have hupper : (word.toNat / 256) % 1 <<< (8 * n) ≤ word.toNat / 256 := Nat.mod_le _ _
    have hfirst : byteAt (word.toUInt8 :: bytesOf n (word >>> 8)).toByteArray 0 = word.toUInt8 := by
      simp [byteAt, List.getElem_toByteArray]
    rw [wordAt, bytesOf, hfirst, wordAt_cons, toNat_or_shiftLeft _ _ (by rw [ih, hrest]; omega), ih,
      hrest, Nat.one_shiftLeft, Nat.one_shiftLeft, show 8 * (n + 1) = 8 + 8 * n by omega,
      Nat.pow_add, Nat.mod_mul]
    rfl

end LittleEndian

namespace Binary32

/-- A number behind packed numbers is read as one further word. -/
theorem wordsOf_pushWord {bytes : ByteArray} (h : bytes.size % 4 = 0) (x : Binary32) :
    LittleEndian.wordsOf (LittleEndian.pushWord bytes 4 x.bits.toUInt64) 4 =
      LittleEndian.wordsOf bytes 4 ++ [x.bits.toUInt64] := by
  have hword : LittleEndian.wordAt (LittleEndian.bytesOf 4 x.bits.toUInt64).toByteArray 0 4 =
      x.bits.toUInt64 := by
    have hbits := x.bits.toNat_lt
    apply UInt64.toNat_inj.1
    rw [LittleEndian.toNat_wordAt_bytesOf, UInt32.toNat_toUInt64]
    exact Nat.mod_eq_of_lt hbits
  rw [LittleEndian.pushWord_eq, LittleEndian.wordsOf_append (by decide) h]
  congr 1
  rw [LittleEndian.wordsOf, List.size_toByteArray, LittleEndian.length_bytesOf]
  simp [List.range_succ, hword]

/-- A word that is pushed takes up as many bytes as asked for. -/
theorem size_pushWord (bytes : ByteArray) (n : Nat) (word : UInt64) :
    (LittleEndian.pushWord bytes n word).size = bytes.size + n := by
  rw [LittleEndian.pushWord_eq, ByteArray.size_append, List.size_toByteArray,
    LittleEndian.length_bytesOf]

/-- Packed numbers take four bytes each, and their words are the patterns of the numbers. -/
theorem foldl_pushWord (xs : List Binary32) {bytes : ByteArray} (h : bytes.size % 4 = 0) :
    let packed := xs.foldl (fun bytes x => LittleEndian.pushWord bytes 4 x.bits.toUInt64) bytes
    packed.size = bytes.size + 4 * xs.length ∧
      LittleEndian.wordsOf packed 4 =
        LittleEndian.wordsOf bytes 4 ++ xs.map fun x => x.bits.toUInt64 := by
  -- On the numbers: each adds one word of four bytes.
  induction xs generalizing bytes with
  | nil => simp
  | cons x xs ih =>
    have haligned : (LittleEndian.pushWord bytes 4 x.bits.toUInt64).size % 4 = 0 := by
      rw [size_pushWord]
      omega
    obtain ⟨hsize, hwords⟩ := ih haligned
    rw [size_pushWord] at hsize
    rw [wordsOf_pushWord h] at hwords
    simp only [List.foldl_cons, List.length_cons, List.map_cons]
    exact ⟨by omega, by rw [hwords, List.append_assoc, List.singleton_append]⟩

/-- A number takes up four bytes. -/
theorem size_encode (xs : Array Binary32) : (encode xs).size = 4 * xs.size := by
  have h := (@foldl_pushWord xs.toList ByteArray.empty rfl).1
  rw [encode, ← Array.foldl_toList]
  simpa using h

/-- Read back as words, encoded numbers are their bit patterns. -/
theorem wordsOf_encode (xs : Array Binary32) :
    LittleEndian.wordsOf (encode xs) 4 = xs.toList.map fun x => x.bits.toUInt64 := by
  have h := (@foldl_pushWord xs.toList ByteArray.empty rfl).2
  rw [encode, ← Array.foldl_toList]
  simpa using h

end Binary32

end Waveform
