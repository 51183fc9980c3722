import Waveform.Analog.Plot
import Waveform.Timeline.Clock
import Waveform.Trace

/-!
# Recordings

A `Recording` is a trace with its rate in samples per second and the time at which it was started.
It takes samples until it is complete.  A recording is *live* while the frame being acquired goes
on writing to it.
-/

namespace Waveform

/-- A trace of one rate. -/
structure Recording (τ : Type) (k : Signal) where
  rate : Nat
  rate_pos : 0 < rate
  startTime : τ
  complete : Bool
  live : Bool
  trace : Trace k

namespace Recording

variable {τ : Type} {k : Signal}

/-- A logic recording without samples. -/
def startLogic (rate width : Nat) (startTime : τ) : Except Violation (Recording τ .logic) :=
  if h : 0 < rate then
    match Width.ofNat width with
    | .ok w => .ok ⟨rate, h, startTime, false, false, .empty w trivial⟩
    | .error v => .error v
  else .error (.noRate .logic)

/-- An analog recording without samples. -/
def startAnalog (rate : Nat) (startTime : τ) : Except Violation (Recording τ .analog) :=
  if h : 0 < rate then .ok ⟨rate, h, startTime, false, false, .empty .four rfl⟩
  else .error (.noRate .analog)

/-- The number of samples. -/
def count (r : Recording τ k) : Nat :=
  r.trace.count

/-- The time that the samples take. -/
def duration [Clock τ] (r : Recording τ k) : τ :=
  Clock.ofCount r.count / Clock.ofCount r.rate

/-- Runs an operation on the trace alone. -/
def onTrace {α : Type} (act : Operation (Trace k) α) : Operation (Recording τ k) α
  | ⟨rate, rate_pos, startTime, complete, live, trace⟩ =>
    match act trace with
    | .ok a trace' => .ok a ⟨rate, rate_pos, startTime, complete, live, trace'⟩
    | .error v trace' => .error v ⟨rate, rate_pos, startTime, complete, live, trace'⟩

/-- Makes room for the given number of samples in total. -/
def reserve (expected : Nat) : Operation (Recording τ k) Unit :=
  onTrace (Trace.reserve expected)

/-- Appends logic samples of the given width, which is to be the recording's own. -/
def appendLogic (payload : ByteArray) (width : Nat) : Operation (Recording τ .logic) Unit := do
  let r ← get
  let own := r.trace.width.bytes
  require (width = own) (.widthMismatch width own)
  require (payload.size % own = 0) (.raggedPayload (payload.size % own))
  require (r.complete = false) (.appendAfterEnd .logic)
  onTrace (Trace.append payload)

/-- Appends numbers. -/
def appendAnalog (xs : Array Binary32) : Operation (Recording τ .analog) Unit := do
  let r ← get
  require (r.complete = false) (.appendAfterEnd .analog)
  onTrace (Trace.append (Binary32.encode xs))

/-- Removes the samples from `first` up to `stop`. -/
def remove (first stop : Nat) : Operation (Recording τ k) Unit :=
  onTrace (Trace.remove first stop)

/-- Takes no further samples. -/
def finish : Operation (Recording τ k) Unit :=
  modify fun r => { r with complete := true }

/-- A logic recording with samples, and room for the given number of them in total. -/
def ofLogic (rate width : Nat) (startTime : τ) (expected : Nat) (payload : ByteArray) :
    Except Violation (Recording τ .logic) := do
  let r ← startLogic rate width startTime
  let fill : Operation (Recording τ .logic) Unit := do
    reserve expected
    appendLogic payload width
  fill.after r

/-- An analog recording with samples. -/
def ofAnalog (rate : Nat) (startTime : τ) (xs : Array Binary32) :
    Except Violation (Recording τ .analog) := do
  (appendAnalog xs).after (← startAnalog rate startTime)

end Recording

end Waveform
