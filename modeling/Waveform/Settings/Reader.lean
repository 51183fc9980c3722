import Waveform.Json.Skip

/-!
# Settings as JSON text

Settings are read from a JSON object with a member for each field, or from an array of the fields in
their order.  What is not given keeps its default.  Members of other names are passed over, but no
field may be given twice.  Settings that were read are validated.
-/

namespace Waveform

open Json

namespace Settings

/-- The fields of the settings. -/
inductive Field where
  | rate
  | channels
  | expected
  | threshold
deriving DecidableEq

/-- The fields in their order. -/
def Field.all : List Field :=
  [.rate, .channels, .expected, .threshold]

/-- The name of a field in a JSON object. -/
def Field.name : Field → String
  | .rate => "samplerate"
  | .channels => "logic_channels"
  | .expected => "expected_samples"
  | .threshold => "envelope_threshold"

/-- The fault of a value that is not of the kind asked for: it is mismatched if it is well written.
Of a bracket only the opening is looked at. -/
def faultOf (b : UInt8) (s : Bytes) : Fault :=
  let read : Except Fault Bytes :=
    if b = byte '"' then (readString s).map (·.2)
    else if b = byte '-' || isDigit b then (readNumber (b :: s)).map (·.2)
    -- The kind is wrong whatever the bracket holds.
    else if b = byte '[' || b = byte '{' then .ok s
    else skipScalar b s
  match read with
  | .ok _ => .mismatched
  | .error f => f

/-- A number as a single-precision number.  A decimal number is rounded a second time. -/
def toBinary32 : Number → Binary32
  | .natural n => .ofNat n
  | .negative n => (Binary32.ofNat n).negate
  | .decimal x => .ofFloat x

/-- The settings with the given number in a field. -/
def setNumber (s : Settings) (field : Field) (n : Number) : Except Fault Settings :=
  match field, n with
  | .threshold, n => .ok { s with threshold := toBinary32 n }
  | .rate, .natural n => .ok { s with rate := n }
  | .expected, .natural n => .ok { s with expected := n }
  | .channels, .natural n =>
    if n < 0x100000000 then .ok { s with channels := n } else .error .mismatched
  | _, _ => .error .mismatched

/-- Reads the value of a field. -/
def readField (settings : Settings) (field : Field) (s : Bytes) :
    Except Fault (Settings × Bytes) :=
  match skipBlanks s with
  | [] => .error .truncated
  | b :: s =>
    if b = byte '-' || isDigit b then do
      let (n, s) ← readNumber (b :: s)
      return (← settings.setNumber field n, s)
    else .error (faultOf b s)

/-- Reads up to the next item: past the comma, if items were read before.  The answer is `none` at
the end of the bracket, which is left to be read. -/
def nextItem (bracket : Bracket) (isFirst : Bool) (s : Bytes) : Except Fault (Option Bytes) :=
  match skipBlanks s with
  | [] => .error .truncated
  | b :: s =>
    if b = bracket.closing then .ok none
    else if isFirst then .ok (some (b :: s))
    else if b = byte ',' then
      match skipBlanks s with
      | [] => .error .truncated
      | b :: s => if b = bracket.closing then .error .malformed else .ok (some (b :: s))
    else .error .malformed

/-- Reads the fields of an array, as many as are there. -/
def readArray (settings : Settings) (isFirst : Bool) :
    List Field → Bytes → Except Fault (Settings × Bytes)
  | [], s => .ok (settings, s)
  | field :: fields, s => do
    match ← nextItem .array isFirst s with
    | none => return (settings, s)
    | some s =>
      let (settings, s) ← settings.readField field s
      readArray settings false fields s

/-- Reads at most `n` members of an object, some fields having been given before. -/
def readMembers (settings : Settings) (given : List Field) (isFirst : Bool) :
    Nat → Bytes → Except Fault (Settings × Bytes)
  | 0, _ => .error .truncated
  | n + 1, s => do
    match ← nextItem .object isFirst s with
    | none => return (settings, s)
    | some s =>
      let s ← readByte (byte '"') s
      let (name, s) ← readString s
      match Field.all.find? (bytesOf ·.name = name) with
      | none =>
        let s ← readByte (byte ':') (skipBlanks s)
        readMembers settings given false n (← skipValue s)
      | some field =>
        if field ∈ given then throw .mismatched
        let s ← readByte (byte ':') (skipBlanks s)
        let (settings, s) ← settings.readField field s
        readMembers settings (field :: given) false n s

/-- Reads settings from a JSON text, which has to end behind them. -/
def parse (s : Bytes) : Except Fault Settings := do
  let read : Except Fault (Settings × Bytes) :=
    match skipBlanks s with
    | [] => .error .truncated
    | b :: s =>
      -- There are fewer members than bytes, so the bound is never met.
      if b = byte '{' then do
        let (settings, s) ← readMembers .default [] true (s.length + 1) s
        return (settings, ← readByte (byte '}') (skipBlanks s))
      else if b = byte '[' then do
        let (settings, s) ← readArray .default true Field.all s
        return (settings, ← readByte (byte ']') (skipBlanks s))
      else .error (faultOf b s)
  let (settings, s) ← read
  if (skipBlanks s).isEmpty then return settings else throw .malformed

/-- Reads and validates settings in JSON. -/
def ofJson (s : Bytes) : Except Rejection Settings :=
  read parse s

/-- Reads and validates the settings in a file, given its bytes if it is there. -/
def ofFile : Option ByteArray → Except Rejection Settings
  | none => .error (.unreadable .missing)
  | some bytes =>
    if bytes.validateUTF8 then ofJson bytes.data.toList
    else .error (.unreadable .notText)

end Settings

end Waveform
