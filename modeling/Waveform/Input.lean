import Waveform.Binary32.Decimal

/-!
# Input

Settings and blocks of samples come from outside and may be anything.  What cannot be used is refused
with a `Rejection`, one constructor for each cause.  `Rejection.message` words each cause.
-/

namespace Waveform

/-! ## Refusals -/

/-- The kinds of fault in a JSON text. -/
inductive Json.Fault where
  /-- The text breaks the grammar. -/
  | malformed
  /-- The text ends too early. -/
  | truncated
  /-- The text keeps to the grammar, but a value is not of the kind that is asked for. -/
  | mismatched
deriving DecidableEq

/-- Why a file could not be read as text. -/
inductive ReadFault where
  | missing
  | notText

/-- The text of a read fault. -/
def ReadFault.message : ReadFault → String
  | missing => "No such file or directory (os error 2)"
  | notText => "stream did not contain valid UTF-8"

/-- The ways in which input can be unusable. -/
inductive Rejection where
  /-- Settings without samples per second. -/
  | noRate
  /-- A block of samples of a width other than one to eight bytes. -/
  | widthOutOfRange (width : Nat)
  /-- A block of samples of a width other than that of the settings. -/
  | widthMismatch (expected given : Nat)
  /-- A block that ends within a sample. -/
  | raggedPayload (length width : Nat)
  /-- Settings with more channels than a sample can hold, or with none. -/
  | channelCount (count : Nat)
  /-- Settings with a threshold that is not positive. -/
  | envelopeThreshold (threshold : Binary32)
  /-- A settings file that cannot be read. -/
  | unreadable (cause : ReadFault)
  /-- Settings that are no JSON text of the right form. -/
  | unparsable (fault : Json.Fault)

/-- The text of a rejection.  For unparsable settings it names no place. -/
def Rejection.message : Rejection → String
  | noRate => "sample rate must be greater than zero"
  | widthOutOfRange width => s!"unit size must be between 1 and 8 bytes, got {width}"
  | widthMismatch expected given =>
    s!"unit size mismatch: expected {expected}, got {given}"
  | raggedPayload length width =>
    s!"payload of {length} bytes is not a multiple of the {width}-byte unit size"
  | channelCount count => s!"logic channel count must be between 1 and 64, got {count}"
  | envelopeThreshold threshold =>
    s!"envelope threshold must be positive, got {threshold.text}"
  | unreadable cause => s!"failed to read configuration: {cause.message}"
  | unparsable _ => "failed to parse configuration"

/-! ## Settings -/

/-- What an acquisition is told beforehand: the samples per second, the number of logic channels, the
number of samples to make room for in each recording, and the resolution from which analog ranges
are drawn as envelopes. -/
structure Settings where
  rate : Nat
  channels : Nat
  expected : Nat
  threshold : Binary32
deriving DecidableEq

namespace Settings

/-- A million samples per second, eight channels, no room made, and envelopes from 256 samples on. -/
def default : Settings :=
  ⟨1000000, 8, 0, ⟨0x43800000⟩⟩

/-- Refuses settings that no acquisition can run with. -/
def validate (s : Settings) : Except Rejection Unit :=
  if s.rate = 0 then .error .noRate
  else if s.channels = 0 ∨ 64 < s.channels then .error (.channelCount s.channels)
  else if Binary32.zero < s.threshold then .ok ()
  else .error (.envelopeThreshold s.threshold)

/-- Reads settings from a text and validates them, whatever parser makes settings of the text. -/
def read {Text : Type} (parse : Text → Except Json.Fault Settings) (text : Text) :
    Except Rejection Settings :=
  match parse text with
  | .error f => .error (.unparsable f)
  | .ok settings =>
    match settings.validate with
    | .ok () => .ok settings
    | .error r => .error r

/-- The bytes that a sample of all channels takes. -/
def sampleWidth (s : Settings) : Nat :=
  max 1 (min ((s.channels + 7) / 8) 8)

end Settings

/-! ## Blocks of samples -/

/-- What an acquisition is handed: samples of one kind, or the end of a frame. -/
inductive Block where
  /-- Packed logic samples of the given width. -/
  | logic (width : Nat) (payload : ByteArray)
  /-- Numbers. -/
  | analog (xs : Array Binary32)
  /-- The end of a frame. -/
  | frameEnd

namespace Block

/-- Refuses logic samples of an impossible width, and those that end within a sample. -/
def validate : Block → Except Rejection Unit
  | .logic width payload =>
    if width = 0 ∨ 8 < width then .error (.widthOutOfRange width)
    else if payload.size % width = 0 then .ok ()
    else .error (.raggedPayload payload.size width)
  | _ => .ok ()

/-- The number of whole samples in the block; a width of `0` counts bytes. -/
def count : Block → Nat
  | .logic width payload => payload.size / max width 1
  | .analog xs => xs.size
  | .frameEnd => 0

end Block

end Waveform
