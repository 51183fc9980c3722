import Waveform.Operation

/-!
# Words as bytes, least significant byte first

A word of up to eight bytes is read from and written to a byte array with its least significant
byte first.  `wordAt` and `pushWord` are the bare transfers; `unpack` and `pack` check that the
bytes are there.
-/

namespace Waveform.LittleEndian

/-- The byte at a position, `0` beyond the end. -/
def byteAt (bytes : ByteArray) (i : Nat) : UInt8 :=
  if h : i < bytes.size then bytes[i] else 0

/-- The word of the given number of bytes at a position.  Of more than eight bytes only the first
eight count. -/
def wordAt (bytes : ByteArray) (i : Nat) : Nat → UInt64
  | 0 => 0
  | n + 1 => (byteAt bytes i).toUInt64 ||| (wordAt bytes (i + 1) n <<< 8)

/-- The given number of bytes of a word.  From the ninth on they are `0`. -/
def bytesOf : Nat → UInt64 → List UInt8
  | 0, _ => []
  | n + 1, word => word.toUInt8 :: bytesOf n (word >>> 8)

/-- Appends the given number of bytes of a word. -/
def pushWord (bytes : ByteArray) : Nat → UInt64 → ByteArray
  | 0, _ => bytes
  | n + 1, word => pushWord (bytes.push word.toUInt8) n (word >>> 8)

/-- The word in the first `width` bytes. -/
def unpack (bytes : ByteArray) (width : Nat) : Except Violation UInt64 := do
  require (width ≤ bytes.size) (.sliceTooShort width bytes.size)
  return wordAt bytes 0 width

/-- Writes a word over the first `width` bytes.  Each byte takes the bits that stand eight places
further up than those of the byte before it, so there is no ninth. -/
def pack (bytes : ByteArray) (width : Nat) (word : UInt64) : Except Violation ByteArray := do
  require (width ≤ bytes.size) (.sliceTooShort width bytes.size)
  require (width ≤ 8) .shiftRightOverflow
  return (bytesOf width word).toByteArray ++ bytes.extract width bytes.size

/-- A word has as many bytes as are asked for. -/
@[simp] theorem length_bytesOf (n : Nat) (word : UInt64) : (bytesOf n word).length = n := by
  induction n generalizing word with
  | zero => rfl
  | succ n ih => simp [bytesOf, ih]

/-- Appending a word appends its bytes. -/
theorem data_pushWord (bytes : ByteArray) (n : Nat) (word : UInt64) :
    (pushWord bytes n word).data = bytes.data ++ (bytesOf n word).toArray := by
  induction n generalizing bytes word with
  | zero => simp [pushWord, bytesOf]
  | succ n ih =>
    rw [pushWord, ih, bytesOf, ByteArray.data_push]
    simp

end Waveform.LittleEndian
