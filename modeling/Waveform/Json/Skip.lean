import Waveform.Json.Token

/-!
# Values that do not matter

A value that nobody asks for is only checked for its grammar.  `skipValue` keeps the brackets that
are open in a list, so values may be nested to any depth.
-/

namespace Waveform.Json

/-- A bracket that is open. -/
inductive Bracket where
  | array
  | object

/-- The byte that closes a bracket. -/
def Bracket.closing : Bracket → UInt8
  | array => byte ']'
  | object => byte '}'

/-- What comes next in a value. -/
inductive Awaited where
  /-- A value. -/
  | value
  /-- The first item of a bracket, or its end. -/
  | first
  /-- A further item of a bracket, or its end. -/
  | more

/-- A step that awaits the first item may go on to await a value without reading a byte. -/
def Awaited.weight : Awaited → Nat
  | first => 1
  | _ => 0

/-- Reads a value that holds no others, where one has to stand. -/
def skipScalar (b : UInt8) (s : Bytes) : Except Fault Bytes :=
  if b = byte 'n' then readWord (bytesOf "ull") s
  else if b = byte 't' then readWord (bytesOf "rue") s
  else if b = byte 'f' then readWord (bytesOf "alse") s
  else if b = byte '"' then skipString s
  else if b = byte '-' || isDigit b then skipNumber (b :: s)
  else .error .malformed

/-- A scalar is read from the front, so no more is left than was there. -/
theorem length_of_skipScalar {b : UInt8} {s rest : Bytes} (h : skipScalar b s = .ok rest) :
    rest.length ≤ s.length := by
  unfold skipScalar at h
  split at h
  · exact length_of_readWord h
  · split at h
    · exact length_of_readWord h
    · split at h
      · exact length_of_readWord h
      · split at h
        · exact Nat.le_of_lt (length_of_skipString h)
        · split at h
          · exact Nat.le_of_lt_succ (length_of_skipNumber h)
          · exact nomatch h

/-- Reads up to the value of the next item: the name and the colon, in an object. -/
def skipName : Bracket → Bytes → Except Fault Bytes
  | .array, s => .ok s
  | .object, s => do
    let s ← readByte (byte '"') (skipBlanks s)
    let s ← skipString s
    readByte (byte ':') (skipBlanks s)

/-- In an array no name is read, so here nothing may be used up. -/
theorem length_of_skipName {bracket : Bracket} {s rest : Bytes}
    (h : skipName bracket s = .ok rest) : rest.length ≤ s.length := by
  cases bracket with
  | array => cases h; exact Nat.le_refl _
  | object =>
    simp only [skipName, bind, Except.bind] at h
    split at h
    · exact nomatch h
    · have := length_of_readByte ‹_›
      have := length_skipBlanks_le s
      split at h
      · exact nomatch h
      · rename_i named hnamed
        have := length_of_skipString hnamed
        have := length_of_readByte h
        have := length_skipBlanks_le named
        omega

/-- Reads on within the open brackets, the innermost first, until all are closed. -/
def skipNested (awaited : Awaited) (opened : List Bracket) (s : Bytes) : Except Fault Bytes :=
  match _ : skipBlanks s with
  | [] => .error .truncated
  | b :: after =>
    match awaited, opened with
    | .value, _ =>
      if b = byte '[' then skipNested .first (.array :: opened) after
      else if b = byte '{' then skipNested .first (.object :: opened) after
      else
        match _ : skipScalar b after with
        | .ok rest => if opened.isEmpty then .ok rest else skipNested .more opened rest
        | .error f => .error f
    | _, [] => .ok (b :: after)
    -- Either an empty bracket or an item that no comma precedes.
    | .first, bracket :: outer =>
      if b = bracket.closing then
        if outer.isEmpty then .ok after else skipNested .more outer after
      else
        match _ : skipName bracket (b :: after) with
        | .ok rest => skipNested .value (bracket :: outer) rest
        | .error f => .error f
    | .more, bracket :: outer =>
      if b = bracket.closing then
        if outer.isEmpty then .ok after else skipNested .more outer after
      else if b = byte ',' then
        match _ : skipName bracket after with
        | .ok rest => skipNested .value (bracket :: outer) rest
        | .error f => .error f
      else .error .malformed
termination_by 2 * s.length + awaited.weight
decreasing_by
  all_goals
    have := length_of_skipBlanks_eq_cons ‹_›
    simp only [Awaited.weight]
  · omega
  · omega
  · have := length_of_skipScalar ‹_›
    omega
  · omega
  · have := length_of_skipName ‹_›
    simp only [List.length_cons] at this
    omega
  · omega
  · have := length_of_skipName ‹_›
    omega

/-- Reads a value that does not matter. -/
def skipValue (s : Bytes) : Except Fault Bytes :=
  skipNested .value [] s

end Waveform.Json
