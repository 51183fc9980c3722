import Waveform.Timeline.Basic

/-!
# Lanes

A `Lane` is the timeline of one signal together with the recording that an acquisition has under way
in it.  That recording stands on the timeline and is marked live there.  If an edit takes it off the
timeline it goes on as the *detached* recording: the frame still writes to it, but it is lost to the
timeline.
-/

namespace Waveform

/-- A timeline, and the live recording if it was taken off. -/
structure Lane (τ : Type) (k : Signal) where
  timeline : Timeline τ k
  detached : Option (Recording τ k)

/-- The number of channels in a group of logic channels: one to 64. -/
structure ChannelCount where
  count : Nat
  pos : 0 < count
  le_64 : count ≤ 64

/-- The group of the given number of channels. -/
def ChannelCount.ofNat (n : Nat) : Except Violation ChannelCount :=
  if h : 0 < n ∧ n ≤ 64 then .ok ⟨n, h.1, h.2⟩ else .error (.channelCount n)

namespace Lane

variable {τ : Type} {k : Signal}

/-- The recordings, the newest first. -/
def newestFirst (l : Lane τ k) : List (Recording τ k) :=
  l.timeline.recordings.reverse

/-- The recording under way. -/
def active (l : Lane τ k) : Option (Recording τ k) :=
  match l.detached with
  | some r => some r
  | none => l.timeline.recordings.find? (·.live)

/-- Runs an edit of the timeline.  A live recording that the edit takes off is detached. -/
def edit (act : Operation (Timeline τ k) (List (Recording τ k))) : Operation (Lane τ k) Unit
  | ⟨timeline, detached⟩ =>
    match act timeline with
    -- At most one recording is live.
    | .ok taken timeline' => .ok () ⟨timeline', (taken.find? (·.live)).or detached⟩
    | .error v timeline' => .error v ⟨timeline', detached⟩

/-- Runs an operation on the recordings of the timeline alone. -/
def onRecordings {α : Type} (act : Operation (List (Recording τ k)) α) : Operation (Lane τ k) α
  | ⟨⟨recordings, origin⟩, detached⟩ =>
    match act recordings with
    | .ok a recordings' => .ok a ⟨⟨recordings', origin⟩, detached⟩
    | .error v recordings' => .error v ⟨⟨recordings', origin⟩, detached⟩

/-- Adds a recording as the newest. -/
def push (r : Recording τ k) : Operation (Lane τ k) Unit :=
  edit do
    Timeline.push r
    return []

/-- Runs an operation on the recording with the given number, counted from the newest; the answer is
`none` if there is no such recording. -/
def onNewest {α : Type} (n : Nat) (act : Operation (Recording τ k) α) :
    Operation (Lane τ k) (Option α) :=
  onRecordings fun recordings =>
    match Operation.atIndex act n recordings.reverse with
    | .ok a recordings' => .ok a recordings'.reverse
    | .error v recordings' => .error v recordings'.reverse

/-- Runs an operation on the recording under way, if there is one. -/
def onActive {α : Type} (act : Operation (Recording τ k) α) : Operation (Lane τ k) (Option α)
  | ⟨timeline, some r⟩ =>
    match act r with
    | .ok a r' => .ok (some a) ⟨timeline, some r'⟩
    | .error v r' => .error v ⟨timeline, some r'⟩
  | ⟨timeline, none⟩ =>
    onRecordings (Operation.onFirst (·.live) act) ⟨timeline, none⟩

/-- Ends the recording under way. -/
def close (l : Lane τ k) : Lane τ k where
  timeline := { l.timeline with
    recordings := l.timeline.recordings.map fun r =>
      if r.live then { r with complete := true, live := false } else r }
  detached := none

variable [Clock τ]

/-- A lane without recordings. -/
def empty : Lane τ k :=
  ⟨.empty, none⟩

/-- Erases the samples between two times. -/
def remove (start stop : τ) : Operation (Lane τ k) Unit :=
  edit (Timeline.remove start stop)

/-- Erases the samples outside two times. -/
def crop (start stop : τ) : Operation (Lane τ k) Unit :=
  edit (Timeline.crop start stop)

/-- Takes all recordings off the timeline. -/
def clear : Operation (Lane τ k) Unit :=
  edit Timeline.clear

end Lane

end Waveform
