import Waveform.Input

/-!
# The pieces of a JSON text

A JSON text is read as a list of bytes, from left to right, and the first fault found is the one that
is reported.  Each reader returns what it read and the bytes after it.

A number keeps the form in which it was written: a natural number, a negative whole number, or a
decimal number in double precision.  `Number.decimal` says how the digits become such a number.
-/

namespace Waveform.Json

/-- What is left to read. -/
abbrev Bytes : Type := List UInt8

/-- The byte of an ASCII character. -/
def byte (c : Char) : UInt8 :=
  c.toNat.toUInt8

/-- The bytes of a text. -/
def bytesOf (s : String) : Bytes :=
  s.toUTF8.data.toList

/-- Blanks may stand between any two pieces. -/
def isBlank (b : UInt8) : Bool :=
  b = byte ' ' || b = byte '\n' || b = byte '\t' || b = byte '\r'

/-- The bytes from the first that is no blank. -/
def skipBlanks (s : Bytes) : Bytes :=
  s.dropWhile isBlank

/-- Passing over blanks leaves no more than was there. -/
theorem length_skipBlanks_le (s : Bytes) : (skipBlanks s).length ≤ s.length :=
  (List.dropWhile_sublist _).length_le

/-- The byte behind the blanks is one that was there. -/
theorem length_of_skipBlanks_eq_cons {s rest : Bytes} {b : UInt8} (h : skipBlanks s = b :: rest) :
    rest.length < s.length := by
  have := length_skipBlanks_le s
  rw [h] at this
  exact this

/-- Reads the rest of a word. -/
def readWord : Bytes → Bytes → Except Fault Bytes
  | [], s => .ok s
  | _ :: _, [] => .error .truncated
  | expected :: word, b :: s => if b = expected then readWord word s else .error .malformed

/-- A word may be empty, so it need not use up a byte. -/
theorem length_of_readWord {word s rest : Bytes} (h : readWord word s = .ok rest) :
    rest.length ≤ s.length := by
  induction word generalizing s with
  | nil => cases h; exact Nat.le_refl _
  | cons expected word ih =>
    cases s with
    | nil => exact nomatch h
    | cons b s =>
      simp only [readWord] at h
      split at h
      · exact Nat.le_succ_of_le (ih h)
      · exact nomatch h

/-! ## Strings -/

/-- The value of a hexadecimal digit. -/
def hexDigit (b : UInt8) : Option Nat :=
  if byte '0' ≤ b ∧ b ≤ byte '9' then some (b.toNat - 48)
  else if byte 'a' ≤ b ∧ b ≤ byte 'f' then some (b.toNat - 87)
  else if byte 'A' ≤ b ∧ b ≤ byte 'F' then some (b.toNat - 55)
  else none

/-- Reads the four hexadecimal digits of a code unit. -/
def readUnit : Bytes → Except Fault (Nat × Bytes)
  | a :: b :: c :: d :: s =>
    match hexDigit a, hexDigit b, hexDigit c, hexDigit d with
    | some a, some b, some c, some d => .ok (4096 * a + 256 * b + 16 * c + d, s)
    | _, _, _, _ => .error .malformed
  | _ => .error .truncated

/-- A code unit uses up its digits. -/
theorem length_of_readUnit {s rest : Bytes} {unit : Nat} (h : readUnit s = .ok (unit, rest)) :
    rest.length < s.length := by
  unfold readUnit at h
  split at h
  · split at h
    · cases h
      simp only [List.length_cons]
      omega
    · exact nomatch h
  · exact nomatch h

/-- Reads one byte, which has to be the one given. -/
def readByte (expected : UInt8) : Bytes → Except Fault Bytes
  | [] => .error .truncated
  | b :: s => if b = expected then .ok s else .error .malformed

/-- A byte that has to be there is used up. -/
theorem length_of_readByte {expected : UInt8} {s rest : Bytes}
    (h : readByte expected s = .ok rest) : rest.length < s.length := by
  unfold readByte at h
  split at h
  · exact nomatch h
  · split at h
    · cases h
      exact Nat.lt_succ_self _
    · exact nomatch h

/-- The bytes of a character. -/
def encodeChar (code : Nat) : Bytes :=
  bytesOf (String.singleton (Char.ofNat code))

/-- Reads a character that is written as a code unit, or as two that form a surrogate pair. -/
def readEscapedChar (s : Bytes) : Except Fault (Bytes × Bytes) := do
  let (high, s) ← readUnit s
  if 0xd800 ≤ high ∧ high < 0xdc00 then
    -- The first half of a pair: the second half has to follow at once.
    let s ← readByte (byte '\\') s
    let s ← readByte (byte 'u') s
    let (low, s) ← readUnit s
    if 0xdc00 ≤ low ∧ low < 0xe000 then
      return (encodeChar (0x10000 + 0x400 * (high - 0xd800) + (low - 0xdc00)), s)
    else throw .malformed
  else if 0xdc00 ≤ high ∧ high < 0xe000 then throw .malformed
  else return (encodeChar high, s)

/-- A character that was escaped uses up bytes. -/
theorem length_of_readEscapedChar {s text rest : Bytes}
    (h : readEscapedChar s = .ok (text, rest)) : rest.length < s.length := by
  simp only [readEscapedChar, bind, Except.bind, pure, Except.pure, throw, throwThe,
    MonadExceptOf.throw] at h
  split at h
  · exact nomatch h
  · have := length_of_readUnit ‹_›
    split at h
    · split at h
      · exact nomatch h
      · have := length_of_readByte ‹_›
        split at h
        · exact nomatch h
        · have := length_of_readByte ‹_›
          split at h
          · exact nomatch h
          · have := length_of_readUnit ‹_›
            split at h
            · obtain ⟨-, rfl⟩ := Prod.mk.inj (Except.ok.inj h)
              omega
            · exact nomatch h
    · split at h
      · exact nomatch h
      · obtain ⟨-, rfl⟩ := Prod.mk.inj (Except.ok.inj h)
        assumption

/-- The byte that a short escape stands for. -/
def shortEscape (b : UInt8) : Option UInt8 :=
  if b = byte '"' || b = byte '\\' || b = byte '/' then some b
  else if b = byte 'b' then some 8
  else if b = byte 'f' then some 12
  else if b = byte 'n' then some 10
  else if b = byte 'r' then some 13
  else if b = byte 't' then some 9
  else none

/-- Reads the rest of an escape.  Where the text of a string does not matter, its code units only
have to be well written. -/
def readEscape (checked : Bool) : Bytes → Except Fault (Bytes × Bytes)
  | [] => .error .truncated
  | b :: s =>
    if b = byte 'u' then
      if checked then readEscapedChar s
      else do
        let (_, s) ← readUnit s
        return ([], s)
    else
      match shortEscape b with
      | some e => .ok ([e], s)
      | none => .error .malformed

/-- An escape uses up bytes, be it a pair of units or one. -/
theorem length_of_readEscape {checked : Bool} {s text rest : Bytes}
    (h : readEscape checked s = .ok (text, rest)) : rest.length < s.length := by
  unfold readEscape at h
  split at h
  · exact nomatch h
  · split at h
    · split at h
      · exact Nat.lt_succ_of_lt (length_of_readEscapedChar h)
      · simp only [bind, Except.bind, pure, Except.pure] at h
        split at h
        · exact nomatch h
        · cases h
          exact Nat.lt_succ_of_lt (length_of_readUnit ‹_›)
    · split at h
      · cases h
        exact Nat.lt_succ_self _
      · exact nomatch h

/-- Reads up to the end of a string, the text before being given in reverse. -/
def readContents (checked : Bool) (text : Bytes) : Bytes → Except Fault (Bytes × Bytes)
  | [] => .error .truncated
  | b :: s =>
    if b = byte '"' then .ok (text.reverse, s)
    else if b = byte '\\' then
      match _ : readEscape checked s with
      | .ok (piece, rest) => readContents checked (piece.reverseAux text) rest
      | .error f => .error f
    else if b < 0x20 then .error .malformed
    else readContents checked (b :: text) s
termination_by s => s.length
decreasing_by
  · exact Nat.lt_succ_of_lt (length_of_readEscape ‹_›)
  · exact Nat.lt_succ_self _

/-- The contents of a string end with the quote, which is used up. -/
theorem length_of_readContents {checked : Bool} {before s text rest : Bytes}
    (h : readContents checked before s = .ok (text, rest)) : rest.length < s.length := by
  fun_induction readContents checked before s with
  | case1 => exact nomatch h
  | case2 => cases h; exact Nat.lt_succ_self _
  | case3 _ _ _ _ he _ ih =>
    exact Nat.lt_succ_of_lt (Nat.lt_trans (ih h) (length_of_readEscape he))
  | case4 => exact nomatch h
  | case5 => exact nomatch h
  | case6 _ _ _ _ _ _ ih => exact Nat.lt_succ_of_lt (ih h)

/-- Reads the rest of a string whose text matters. -/
def readString (s : Bytes) : Except Fault (Bytes × Bytes) :=
  readContents true [] s

/-- Reads the rest of a string whose text does not matter. -/
def skipString (s : Bytes) : Except Fault Bytes :=
  (readContents false [] s).map (·.2)

/-- A string that is passed over uses up bytes. -/
theorem length_of_skipString {s rest : Bytes} (h : skipString s = .ok rest) :
    rest.length < s.length := by
  unfold skipString at h
  cases hr : readContents false [] s with
  | error f => rw [hr] at h; exact nomatch h
  | ok r =>
    rw [hr] at h
    cases h
    exact length_of_readContents hr

/-! ## Numbers -/

/-- A number as it was written. -/
inductive Number where
  | natural (n : Nat)
  | negative (n : Nat)
  | decimal (x : Float)

/-- Whether a byte is a decimal digit. -/
def isDigit (b : UInt8) : Bool :=
  byte '0' ≤ b && b ≤ byte '9'

/-- The first natural number that does not fit in 64 bits. -/
def naturalLimit : Nat := 0x10000000000000000

/-- The largest number whose negative fits in 64 bits with a sign. -/
def negativeLimit : Nat := 0x8000000000000000

/-- Takes digits into a significand as long as it fits in 64 bits.  Returns it and the digits that
were left. -/
def gather (significand : Nat) : Bytes → Nat × Bytes
  | [] => (significand, [])
  | d :: digits =>
    let next := 10 * significand + (d.toNat - 48)
    if next < naturalLimit then gather next digits else (significand, d :: digits)

/-- The power of ten with the given exponent, to the nearest. -/
def powerOfTen (exponent : Nat) : Float :=
  Float.ofScientific 1 false exponent

/-- Scales a number by a power of ten, in steps of at most 308 places.  Numbers too large for double
precision are refused; after three steps down nothing is left of a number. -/
def scale (x : Float) (exponent : Int) : Nat → Except Fault Float
  | 0 => .ok 0
  | n + 1 =>
    if exponent.natAbs ≤ 308 then
      if 0 ≤ exponent then
        let scaled := x * powerOfTen exponent.natAbs
        if scaled.isInf then .error .malformed else .ok scaled
      else .ok (x / powerOfTen exponent.natAbs)
    else if x == 0 then .ok x
    else if 0 ≤ exponent then .error .malformed
    else scale (x / powerOfTen 308) (exponent + 308) n

/-- The number with the given significand and decimal exponent.  The significand is rounded to double
precision, and so is every step of the scaling. -/
def Number.ofParts (negative : Bool) (significand : Nat) (exponent : Int) : Except Fault Number := do
  let x ← scale (Float.ofNat significand) exponent 5
  return .decimal (if negative then -x else x)

/-- A number without fraction and exponent.  Minus zero, and what does not fit in a signed 64-bit
number, is a decimal number. -/
def Number.ofWhole (negative : Bool) (n : Nat) : Number :=
  if negative then
    if n = 0 ∨ negativeLimit < n then .decimal (-(Float.ofNat n)) else .negative n
  else .natural n

/-- Reads at least one digit. -/
def readDigits (s : Bytes) : Except Fault (Bytes × Bytes) :=
  let digits := s.takeWhile isDigit
  let rest := s.dropWhile isDigit
  if digits.isEmpty then .error (if rest.isEmpty then .truncated else .malformed)
  else .ok (digits, rest)

/-- Where digits are asked for there is at least one. -/
theorem length_of_readDigits {s digits rest : Bytes} (h : readDigits s = .ok (digits, rest)) :
    rest.length < s.length := by
  have hsplit := congrArg List.length (List.takeWhile_append_dropWhile (p := isDigit) (l := s))
  rw [List.length_append] at hsplit
  simp only [readDigits] at h
  split at h
  · exact nomatch h
  · rename_i hne
    cases h
    have : 0 < (s.takeWhile isDigit).length :=
      List.length_pos_iff.2 fun he => hne (by rw [he]; rfl)
    omega

/-- Reads the digits before the point.  There is no further digit after a leading zero. -/
def readWhole (s : Bytes) : Except Fault (Bytes × Bytes) := do
  let (digits, rest) ← readDigits s
  if digits.head? = some (byte '0') ∧ 1 < digits.length then throw .malformed
  return (digits, rest)

/-- The whole part of a number has at least one digit. -/
theorem length_of_readWhole {s digits rest : Bytes} (h : readWhole s = .ok (digits, rest)) :
    rest.length < s.length := by
  simp only [readWhole, bind, Except.bind, pure, Except.pure, throw, throwThe,
    MonadExceptOf.throw] at h
  split at h
  · exact nomatch h
  · split at h
    · exact nomatch h
    · cases h
      exact length_of_readDigits ‹_›

/-- Reads the fraction, if there is one. -/
def readFraction : Bytes → Except Fault (Option Bytes × Bytes)
  | b :: s =>
    if b = byte '.' then do
      let (digits, rest) ← readDigits s
      return (some digits, rest)
    else .ok (none, b :: s)
  | [] => .ok (none, [])

/-- A number need not have a fraction. -/
theorem length_of_readFraction {s rest : Bytes} {digits : Option Bytes}
    (h : readFraction s = .ok (digits, rest)) : rest.length ≤ s.length := by
  unfold readFraction at h
  split at h
  · split at h
    · simp only [bind, Except.bind, pure, Except.pure] at h
      split at h
      · exact nomatch h
      · cases h
        exact Nat.le_succ_of_le (Nat.le_of_lt (length_of_readDigits ‹_›))
    · cases h
      exact Nat.le_refl _
  · cases h
    exact Nat.le_refl _

/-- The value of decimal digits. -/
def valueOf (digits : Bytes) : Nat :=
  digits.foldl (fun n d => 10 * n + (d.toNat - 48)) 0

/-- Reads the exponent, if there is one. -/
def readExponent : Bytes → Except Fault (Option Int × Bytes)
  | b :: s =>
    if b = byte 'e' || b = byte 'E' then do
      let down := s.head? = some (byte '-')
      let signed := down || s.head? = some (byte '+')
      let (digits, rest) ← readDigits (if signed then s.drop 1 else s)
      return (some (if down then -(valueOf digits : Int) else valueOf digits), rest)
    else .ok (none, b :: s)
  | [] => .ok (none, [])

/-- A number need not have an exponent. -/
theorem length_of_readExponent {s rest : Bytes} {exponent : Option Int}
    (h : readExponent s = .ok (exponent, rest)) : rest.length ≤ s.length := by
  unfold readExponent at h
  split at h
  · split at h
    · simp only [bind, Except.bind, pure, Except.pure] at h
      split at h
      · exact nomatch h
      · have hlt := length_of_readDigits ‹_›
        cases h
        split at hlt
        · rw [List.length_drop] at hlt
          simp only [List.length_cons]
          omega
        · exact Nat.le_succ_of_le (Nat.le_of_lt hlt)
    · cases h
      exact Nat.le_refl _
  · cases h
    exact Nat.le_refl _

/-- Splits off the sign of a number. -/
def splitSign (s : Bytes) : Bool × Bytes :=
  if s.head? = some (byte '-') then (true, s.drop 1) else (false, s)

/-- Reads a number.  The digits before and after the point make up one significand; digits before
the point that no longer fit count for the exponent only, digits after it not at all. -/
def readNumber (s : Bytes) : Except Fault (Number × Bytes) := do
  let (negative, s) := splitSign s
  let (whole, s) ← readWhole s
  let (fraction, s) ← readFraction s
  let (exponent, s) ← readExponent s
  let (significand, left) := gather 0 whole
  -- Digits alone stay exact as long as all of them fit.
  if fraction.isNone ∧ exponent.isNone ∧ left.isEmpty then
    return (.ofWhole negative significand, s)
  let digits := fraction.getD []
  let (significand, unused) := gather significand digits
  let places : Int := left.length - (digits.length - unused.length : Nat)
  return (← Number.ofParts negative significand (places + exponent.getD 0), s)

/-- Reads past a number whose value does not matter. -/
def passNumber (s : Bytes) : Except Fault Bytes := do
  let (_, s) ← readWhole (splitSign s).2
  let (_, s) ← readFraction s
  let (_, s) ← readExponent s
  return s

/-- A number uses up the digits of its whole part. -/
theorem length_of_passNumber {s rest : Bytes} (h : passNumber s = .ok rest) :
    rest.length < s.length := by
  have hsign : (splitSign s).2.length ≤ s.length := by
    unfold splitSign
    split
    · simp
    · exact Nat.le_refl _
  simp only [passNumber, bind, Except.bind, pure, Except.pure] at h
  split at h
  · exact nomatch h
  · have := length_of_readWhole ‹_›
    split at h
    · exact nomatch h
    · have := length_of_readFraction ‹_›
      split at h
      · exact nomatch h
      · have := length_of_readExponent ‹_›
        cases h
        omega

/-- Reads a number whose value does not matter.  Also one that ends too early is malformed. -/
def skipNumber (s : Bytes) : Except Fault Bytes :=
  (passNumber s).mapError fun _ => .malformed

/-- A number that is passed over uses up bytes. -/
theorem length_of_skipNumber {s rest : Bytes} (h : skipNumber s = .ok rest) :
    rest.length < s.length := by
  unfold skipNumber at h
  cases hr : passNumber s with
  | error f => rw [hr] at h; exact nomatch h
  | ok r =>
    rw [hr] at h
    cases h
    exact length_of_passNumber hr

end Waveform.Json
