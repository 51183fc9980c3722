import Waveform.Input
import Waveform.Timeline.Lane

/-!
# Acquisitions

An `Acquisition` takes blocks of samples, frame by frame, and writes them to one logic and one analog
lane.  The first block of a kind in a frame starts a recording, further blocks of the frame go on
with it, and the end of the frame completes it.  All recordings of a frame start at the same time,
and a frame takes as long as its longest recording.

Blocks wait in a queue or are handed in directly.  A block that cannot be used is refused; the
acquisition goes on as if it had never been there.
-/

namespace Waveform

/-- Why an acquisition did not do what it was asked to. -/
inductive Failure where
  | rejected (r : Rejection)
  | violated (v : Violation)

/-- A running acquisition: its settings, the blocks that wait, the two lanes, and the time at which
the current frame starts. -/
structure Acquisition (τ : Type) where
  settings : Settings
  pending : List Block
  logic : Lane τ .logic
  analog : Lane τ .analog
  frameStart : τ

namespace Acquisition

variable {τ : Type}

/-- A step of an acquisition.  The acquisition that it leaves behind is part of the outcome. -/
abbrev Step (τ α : Type) : Type :=
  EStateM Failure (Acquisition τ) α

/-- Refuses input. -/
def Step.refusing {α : Type} : Except Rejection α → Step τ α
  | .ok a => pure a
  | .error r => throw (.rejected r)

/-- Runs an operation on the logic lane alone. -/
def onLogic {α : Type} (act : Operation (Lane τ .logic) α) : Step τ α
  | ⟨settings, pending, logic, analog, frameStart⟩ =>
    match act logic with
    | .ok a logic' => .ok a ⟨settings, pending, logic', analog, frameStart⟩
    | .error v logic' => .error (.violated v) ⟨settings, pending, logic', analog, frameStart⟩

/-- Runs an operation on the analog lane alone. -/
def onAnalog {α : Type} (act : Operation (Lane τ .analog) α) : Step τ α
  | ⟨settings, pending, logic, analog, frameStart⟩ =>
    match act analog with
    | .ok a analog' => .ok a ⟨settings, pending, logic, analog', frameStart⟩
    | .error v analog' => .error (.violated v) ⟨settings, pending, logic, analog', frameStart⟩

/-- Puts a new recording under way in a lane, unless one is already, with room for the given number
of samples. -/
def ensureActive {k : Signal} (start : Except Violation (Recording τ k)) (expected : Nat) :
    Operation (Lane τ k) Unit := do
  let lane ← get
  if lane.active.isNone then
    let r ← (Recording.reserve expected).after (← start)
    Lane.push { r with live := true }

/-- Writes logic samples to the current frame. -/
def writeLogic (width : Nat) (payload : ByteArray) : Step τ Unit := do
  let s := (← get).settings
  let frameStart := (← get).frameStart
  -- Refused before a recording is started, so that nothing is left behind.
  unless width = s.sampleWidth do throw (.rejected (.widthMismatch s.sampleWidth width))
  onLogic do
    ensureActive (Recording.startLogic s.rate width frameStart) s.expected
    let _ ← Lane.onActive (Recording.appendLogic payload width)

/-- Writes numbers to the current frame. -/
def writeAnalog (xs : Array Binary32) : Step τ Unit := do
  let s := (← get).settings
  let frameStart := (← get).frameStart
  onAnalog do
    ensureActive (Recording.startAnalog s.rate frameStart) s.expected
    let _ ← Lane.onActive (Recording.appendAnalog xs)

variable [Clock τ]

/-- The time that the recording under way has taken so far. -/
def activeDuration {k : Signal} (l : Lane τ k) : τ :=
  match l.active with
  | some r => r.duration
  | none => Clock.zero

/-- Ends the current frame.  The next one starts where its longest recording ends. -/
def endFrame : Step τ Unit :=
  modify fun a =>
    let duration :=
      Clock.later (Clock.later Clock.zero (activeDuration a.logic)) (activeDuration a.analog)
    { a with
      logic := a.logic.close
      analog := a.analog.close
      frameStart := a.frameStart + duration }

/-- Takes a block and returns the number of samples in it. -/
def push (b : Block) : Step τ Nat := do
  .refusing b.validate
  match b with
  | .logic width payload => writeLogic width payload
  | .analog xs => writeAnalog xs
  | .frameEnd => endFrame
  return b.count

/-- Takes the next block that waits.  The answer is `none` if there is none. -/
def pump : Step τ (Option Nat) := do
  match (← get).pending with
  | [] => return none
  | b :: rest =>
    -- The block is gone from the queue even if it is refused.
    modify ({ · with pending := rest })
    return some (← push b)

/-- Takes the next `n` blocks and returns the number of samples in them.  The sum is not checked: a sample
takes a byte or more, and all blocks that wait are held in memory together. -/
def pumpMany : Nat → Step τ Nat
  | 0 => return 0
  | n + 1 => do
    let taken ← pump
    return taken.getD 0 + (← pumpMany n)

/-- Takes all blocks that wait and ends the frame.  Returns the number of samples taken. -/
def runToEnd : Step τ Nat := do
  let taken ← pumpMany (← get).pending.length
  endFrame
  return taken

/-- An acquisition that has taken nothing yet. -/
def start (pending : List Block) (settings : Settings) : Except Rejection (Acquisition τ) :=
  match settings.validate with
  | .ok () => .ok ⟨settings, pending, .empty, .empty, Clock.zero⟩
  | .error r => .error r

end Acquisition

end Waveform
