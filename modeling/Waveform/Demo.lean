import Waveform.Acquisition.Basic
import Waveform.Caption.Row
import Waveform.Logic.EdgeCursor
import Waveform.Settings.Reader

/-!
# A demonstration

The demonstration acquires three frames of a synthetic signal and reports what it sees in them: a
clock on channel 0, a slow strobe on channel 1, noise on the other channels, and a sawtooth on the
analog side.  `Demo.run` returns the report line by line, together with the exit code.
-/

namespace Waveform.Demo

/-- Where the settings come from. -/
inductive SettingsSource where
  /-- The defaults. -/
  | builtin
  /-- A file, given its bytes if it is there. -/
  | file (name : String) (bytes : Option ByteArray)

/-- The outcome of a run. -/
structure Report where
  exitCode : Nat
  lines : List String

/-! ## The signal -/

/-- The number of frames. -/
def frames : Nat := 3

/-- The number of logic blocks in a frame, and of analog blocks. -/
def blocksPerFrame : Nat := 8

/-- The number of samples in a block. -/
def blockSamples : Nat := 4096

/-- Noise on all channels but the first two. -/
def noise (t : Nat) : UInt64 :=
  let x := (t.toUInt64 + 1) * 0x9e3779b97f4a7c15
  (x ^^^ (x >>> 29)) &&& 0xfffffffffffffffc

/-- The logic sample at a time. -/
def logicWord (t : Nat) : UInt64 :=
  let clock : UInt64 := (t / 8 % 2).toUInt64
  let strobe : UInt64 := if t % 5000 < 40 then 2 else 0
  clock ||| strobe ||| noise t

/-- The logic samples of a block. -/
def logicBlock (width first : Nat) : Block :=
  .logic width <| blockSamples.fold (fun i _ bytes =>
    LittleEndian.pushWord bytes width (logicWord (first + i))) ByteArray.empty

/-- The analog samples of a block. -/
def analogBlock (first : Nat) : Block :=
  .analog <| (Array.range blockSamples).map fun i => Binary32.ofNat ((first + i) % 2048)

/-- The blocks of all frames. -/
def blocks (width : Nat) : List Block :=
  (List.range (frames * blocksPerFrame)).flatMap fun n =>
    let first := n * blockSamples
    [logicBlock width first, analogBlock first] ++
      if n % blocksPerFrame + 1 = blocksPerFrame then [.frameEnd] else []

/-! ## The report -/

/-- A run writes its lines one after the other; they stay where it fails. -/
abbrev Writer (α : Type) : Type :=
  EStateM Failure (Array String) α

/-- Writes a line. -/
def say (line : String) : Writer Unit :=
  modify (·.push line)

/-- A reading that may break a contract. -/
def reading {α : Type} : Except Violation α → Writer α
  | .ok a => pure a
  | .error v => throw (.violated v)

/-- A step of the acquisition, and the acquisition after it. -/
def advancing {α : Type} (step : Acquisition.Step Float α) (a : Acquisition Float) :
    Writer (α × Acquisition Float) :=
  match step a with
  | .ok r a' => pure (r, a')
  | .error f _ => throw f

/-- A number in six columns, at their right end. -/
def column (x : Binary32) : String :=
  String.ofList (List.leftpad 6 ' ' x.text.toList)

/-- Reports how many edges the clock and the strobe show at a resolution. -/
def sayEdges (t : Trace .logic) (spacing : Binary32) : Writer Unit := do
  let clock ← reading (t.edges 0 (t.count - 1) spacing 0)
  let strobe ← reading (t.edges 0 (t.count - 1) spacing 1)
  say s!"{column spacing} samples/px: {clock.size} clock edges, {strobe.size} strobe edges"

/-- Reports what is drawn of an analog trace at a resolution. -/
def sayPlot (t : Trace .analog) (threshold spacing : Binary32) : Writer Unit := do
  match ← reading (t.plot 0 t.count spacing threshold) with
  | .numbers xs => say s!"{column spacing} samples/px: {xs.size} raw samples"
  | .envelope e =>
    say s!"{column spacing} samples/px: {e.extents.size} envelope bars of {e.scale} samples"

/-- Captions the pulses among the edges: each from where the level rises to where it falls. -/
def captionPulses (edges : List Edge) : Except Violation CaptionRow := do
  let step : CaptionRow × Option Nat → Edge → Except Violation (CaptionRow × Option Nat)
    | (row, none), ⟨index, true⟩ => pure (row, some index)
    | (row, some start), ⟨index, false⟩ => do
      let a ← Caption.ofRange start index 0 ["STB"]
      return (← (CaptionRow.push a).after row, none)
    | state, _ => pure state
  return (← edges.foldlM step (CaptionRow.empty, none)).1

/-- Reports the pulses of the strobe. -/
def sayPulses (t : Trace .logic) : Writer Unit := do
  let last := t.count - 1
  let row ← reading do captionPulses (← t.edges 0 last ⟨0x3f800000⟩ 1).toList
  let visible := (row.overlapping 0 (last / 2)).length
  say s!"{row.size} strobe annotations, {visible} in the first half, last ends at {row.lastSample}"

/-- Acquires the signal and reports on it. -/
def present (settings : Settings) : Writer Unit := do
  say s!"samplerate {settings.rate} Hz, {settings.channels} logic channels"
  let a ← match Acquisition.start (blocks settings.sampleWidth) settings with
    | .ok a => pure a
    | .error r => throw (.rejected r)
  let (total, a) ← advancing Acquisition.runToEnd a
  let logic := a.logic.newestFirst
  let analog := a.analog.newestFirst
  say s!"captured {total} samples into {logic.length} logic and {analog.length} analog segments"
  match logic with
  | [] => pure ()
  | newest :: _ =>
    [⟨0x3f800000⟩, ⟨0x42800000⟩, ⟨0x45800000⟩].forM (sayEdges newest.trace)
    match analog with
    | [] => pure ()
    | newest :: _ =>
      [⟨0x41800000⟩, ⟨0x44800000⟩].forM (sayPlot newest.trace settings.threshold)
    sayPulses newest.trace
  let start := a.logic.timeline.total * 0.25
  let stop := a.logic.timeline.total * 0.75
  let ((), a) ← advancing (Acquisition.onLogic (Lane.crop start stop)) a
  let ((), a) ← advancing (Acquisition.onAnalog (Lane.crop start stop)) a
  let longestLogic := a.logic.timeline.longest
  let longestAnalog := a.analog.timeline.longest
  say (s!"after crop: longest logic segment {longestLogic} samples, " ++
    s!"longest analog segment {longestAnalog} samples")

/-- The lines that explain why the settings cannot be used. -/
def explain (name : String) (r : Rejection) : List String :=
  s!"Error: loading store config from {name}" :: "" :: "Caused by:" ::
    match r with
    | .unreadable cause => ["    0: " ++ r.message, "    1: " ++ cause.message]
    | .unparsable _ => [r.message]
    | _ => ["    " ++ r.message]

/-- The report on a run with usable settings. -/
def report (settings : Settings) : Report :=
  match present settings #[] with
  | .ok () lines => ⟨0, lines.toList⟩
  | .error (.rejected r) lines =>
    ⟨1, lines.toList ++ ["Error: capture failed", "", "Caused by:", "    " ++ r.message]⟩
  | .error (.violated v) lines => ⟨101, lines.toList ++ [v.message]⟩

/-- Runs the demonstration. -/
def run : SettingsSource → Report
  | .builtin => report .default
  | .file name bytes =>
    match Settings.ofFile bytes with
    | .ok settings => report settings
    | .error r => ⟨1, explain name r⟩

end Waveform.Demo
