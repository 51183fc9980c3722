import Waveform.Proofs.RefusedBlocks
import Waveform.Settings.Reader

/-!
# Requests that fail

How a request to an acquisition fails is told by the blocks that it has taken before.  A block is refused
for what it is; otherwise it is written unless the address space is too small for it.  `Logbook.failure`
says how a block fails once the blocks in the logbook were taken, and a request fails as the first of its
blocks that does (`Logbook.firstFailure`).

Settings are validated before anything is acquired with them, but the number of samples to make room for
is not looked at.  The first block of a kind in a frame makes that room, and breaks a contract if it would
outgrow the address space.

## Key results

- `Acquisition.Follows.push_eq`: how a block fails
- `Acquisition.Follows.fails_eq`: how a request fails
- `Acquisition.never_violated_iff`: the settings with which no request breaks a contract
-/

namespace Waveform

open Operation

variable {τ : Type} {k : Signal}

/-! ## Failures of a block -/

/-- The contract that making room in a new recording breaks, if it breaks one. -/
def Settings.roomViolation (s : Settings) (k : Signal) : Option Violation :=
  if s.expected * s.widthOf k < Packed.byteLimit then none
  else if s.expected * s.widthOf k < Word.limit then some .capacityOverflow
  else some .mulOverflow

/-- The contract that writing samples of a kind breaks, if it breaks one.  The first samples in a frame ask
for the room in the settings, and further ones need room behind those that are there. -/
def Settings.writeViolation (s : Settings) (k : Signal) (current : Option (List UInt64)) (size : Nat) :
    Option Violation :=
  match current with
  | none => s.roomViolation k
  | some samples =>
    if samples.length * s.widthOf k + size < Packed.byteLimit then none else some .capacityOverflow

/-- The contract that a block breaks, if it breaks one, once the blocks in the logbook were taken. -/
def Logbook.violation (s : Settings) (log : Logbook) (b : Block) : Option Violation :=
  b.kind.bind fun k => s.writeViolation k (samplesIn k log.current) b.size

/-- How a block fails, if it does, once the blocks in the logbook were taken. -/
def Logbook.failure (s : Settings) (log : Logbook) (b : Block) : Option Failure :=
  match b.refusal s with
  | some r => some (.rejected r)
  | none => (log.violation s b).map .violated

/-- How the first block fails that does, if blocks are taken one after the other. -/
def Logbook.firstFailure (s : Settings) : Logbook → List Block → Option Failure
  | _, [] => none
  | log, b :: rest =>
    match log.failure s b with
    | some f => some f
    | none => firstFailure s (log.enter b) rest

/-- There is room for the expected samples if their bytes lie in the address space. -/
theorem Settings.roomViolation_eq_none {s : Settings} :
    s.roomViolation k = none ↔ s.expected * s.widthOf k < Packed.byteLimit := by
  unfold roomViolation
  split
  · simp [*]
  · split <;> simp [*]

/-! ## Writing where there is no room -/

/-- Bytes that outgrow the address space are not appended. -/
theorem Trace.append_full {payload : ByteArray} {t : Trace k}
    (hwhole : payload.size % t.width.bytes = 0)
    (hfull : Packed.byteLimit ≤ t.samples.bytes.size + payload.size) :
    append payload t = .error .capacityOverflow t := by
  obtain ⟨width, admitted, samples, pyramid, removals⟩ := t
  have hsamples : Packed.append payload samples = .error .capacityOverflow samples := by
    rw [Packed.append, get_bind_eq, dif_pos hwhole, dif_neg (Nat.not_lt.2 hfull)]
    rfl
  refine bind_eq_error.2 (.inl ?_)
  simp only [onSamples, hsamples]

/-- Nor is a block that does. -/
theorem Block.append_full {s : Settings} {frameStart : τ} {b : Block} {w : Writer τ k}
    (hw : b.writer s frameStart k = some w) (hrefusal : b.refusal s = none) {r : Recording τ k}
    (hwidth : r.trace.width.bytes = s.widthOf k) (hopen : r.complete = false)
    (hfull : Packed.byteLimit ≤ r.trace.samples.bytes.size + b.size) :
    w.append r = .error .capacityOverflow r := by
  have honTrace {act : Operation (Trace k) Unit} (h : act r.trace = .error .capacityOverflow r.trace) :
      Recording.onTrace act r = .error .capacityOverflow r := by
    simp only [Recording.onTrace, h]
  -- A writer takes blocks of its own kind; the block passed its checks, so only the room is left to
  -- fail.
  cases b with
  | logic width payload =>
    cases k with
    | logic =>
      cases hw
      obtain ⟨hown, hwhole, -⟩ := refusal_logic_eq_none hrefusal
      have heq : width = r.trace.width.bytes := by rw [hwidth, hown]; rfl
      rw [heq] at hwhole
      show Recording.appendLogic payload width r = _
      rw [Recording.appendLogic, get_bind_eq, require_bind_of heq, require_bind_of hwhole,
        require_bind_of hopen]
      exact honTrace (Trace.append_full hwhole hfull)
    | analog => cases hw
  | analog xs =>
    cases k with
    | logic => cases hw
    | analog =>
      cases hw
      have hsize : (Binary32.encode xs).size = 4 * xs.size := Binary32.size_encode xs
      have hwhole : (Binary32.encode xs).size % r.trace.width.bytes = 0 := by
        rw [hsize, hwidth]
        exact Nat.mul_mod_right 4 _
      show Recording.appendAnalog xs r = _
      rw [Recording.appendAnalog, get_bind_eq, require_bind_of hopen]
      exact honTrace (Trace.append_full hwhole (hsize ▸ hfull))
  | frameEnd => cases k <;> cases hw

/-- Room that is not there cannot be made in a new recording. -/
theorem Recording.reserve_of_roomViolation {s : Settings} {r : Recording τ k}
    (hwidth : r.trace.width.bytes = s.widthOf k) (hempty : r.trace.samples.bytes.size = 0)
    {v : Violation} (h : s.roomViolation k = some v) : reserve s.expected r = .error v r := by
  obtain ⟨rate, rate_pos, startTime, complete, live, t⟩ := r
  obtain ⟨width, admitted, samples, pyramid, removals⟩ := t
  -- A violation is there only if the room does not fit.
  have hroom : ¬ s.expected * s.widthOf k < Packed.byteLimit := by
    intro hroom
    rw [Settings.roomViolation_eq_none.2 hroom] at h
    cases h
  have hpos : 0 < Packed.byteLimit := by decide
  simp only [Settings.roomViolation, if_neg hroom] at h
  have hsamples : Packed.reserve s.expected samples = .error v samples := by
    rw [Packed.reserve, get_bind_eq, hwidth]
    -- The bytes are counted before room is made for them.
    split at h
    · rename_i hword
      cases h
      refine bind_eq_error.2 (.inr ⟨_, samples, lift_eq_ok.2 ⟨if_pos hword, rfl⟩, ?_⟩)
      refine lift_eq_error.2 ⟨if_neg ?_, rfl⟩
      rintro (hle | hlt)
      · dsimp only at hempty
        omega
      · exact hroom hlt
    · rename_i hword
      cases h
      exact bind_eq_error.2 (.inl (lift_eq_error.2 ⟨if_neg hword, rfl⟩))
  simp only [reserve, onTrace, Trace.reserve, Trace.onSamples, hsamples]

namespace Lane

variable {l : Lane τ k} {w : Writer τ k} {expected : Nat} {v : Violation}

/-- A recording for which there is no room is not started. -/
theorem write_of_no_room (hidle : l.active = none) {r : Recording τ k} (hstart : w.start = .ok r)
    (hreserve : Recording.reserve expected r = .error v r) : write w expected l = .error v l := by
  have hensure : Acquisition.ensureActive w.start expected l = .error v l := by
    rw [Acquisition.ensureActive, get_bind_eq, hidle, Option.isNone_none, if_pos rfl]
    refine bind_eq_error.2 (.inr ⟨r, l, lift_eq_ok.2 ⟨hstart, rfl⟩, ?_⟩)
    refine bind_eq_error.2 (.inl (lift_eq_error.2 ⟨?_, rfl⟩))
    simp only [after, hreserve]
  exact bind_eq_error.2 (.inl hensure)

/-- A recording under way that comes last and takes nothing more leaves the lane as it is. -/
theorem write_of_full (hattached : l.detached = none) {older : List (Recording τ k)}
    {r : Recording τ k} (hrecordings : l.timeline.recordings = older ++ [r])
    (holder : ∀ x ∈ older, x.live = false) (hlive : r.live = true)
    (happend : w.append r = .error v r) : write w expected l = .error v l := by
  have hactive := active_of_open hattached hrecordings holder hlive
  refine bind_eq_error.2 (.inr ⟨(), l, ensureActive_eq_ok.2 (.inl ⟨by rw [hactive]; rfl, rfl⟩), ?_⟩)
  refine bind_eq_error.2 (.inl ?_)
  obtain ⟨⟨recordings, origin⟩, detached⟩ := l
  subst hattached hrecordings
  simp only [onActive, onRecordings, onFirst_of_last holder hlive, happend]

section Writing

variable {s : Settings} {start : τ} {older : List (Capture τ)} {new : List UInt64} {b : Block}

/-- The first samples of a frame start a recording, with room as in the settings. -/
theorem Follows.write_first (h : l.Follows s start older none) (hw : w.Writes s start new b.size)
    (hrate : 0 < s.rate) (hfits : b.Fits) :
    match s.roomViolation k with
    | some v => Lane.write w s.expected l = .error v l
    | none => ∃ l', Lane.write w s.expected l = .ok () l' := by
  -- The recording is made by this write, so it is empty.
  obtain ⟨r, hstart⟩ := hw.start_ok hrate
  have hcapture := hw.capture_start r hstart
  have hempty : r.trace.samples.bytes.size = 0 := by
    rw [r.size_eq, hcapture]
    exact Nat.zero_mul _
  -- Room is made first; where there is enough, the samples of the block fit in.
  cases hroom : s.roomViolation k with
  | some v =>
    exact write_of_no_room h.active_eq_none hstart
      (Recording.reserve_of_roomViolation (congrArg Capture.width hcapture) hempty hroom)
  | none =>
    have hfirst : ((none : Option (List UInt64)).getD []).length * s.widthOf k + b.size <
        Packed.byteLimit := by
      rw [Option.getD_none, List.length_nil, Nat.zero_mul, Nat.zero_add]
      exact hfits
    exact h.write_ok hw hrate (Settings.roomViolation_eq_none.1 hroom) hfirst

/-- Further samples go behind those that the recording under way holds. -/
theorem Follows.write_further {samples : List UInt64} (h : l.Follows s start older (some samples))
    (hwriter : b.writer s start k = some w) (hrefusal : b.refusal s = none)
    (hw : w.Writes s start new b.size) :
    if samples.length * s.widthOf k + b.size < Packed.byteLimit then
      ∃ l', Lane.write w s.expected l = .ok () l'
    else Lane.write w s.expected l = .error .capacityOverflow l := by
  obtain ⟨before, hbefore, -, r, hrecordings, hlive, hcapture⟩ := h.recordings
  have hsize : r.trace.samples.bytes.size = samples.length * s.widthOf k := by
    rw [r.size_eq, hcapture]
  have hwidth := congrArg Capture.width hcapture
  have hopen := congrArg Capture.complete hcapture
  split
  · rename_i hroom
    obtain ⟨r', happend⟩ := hw.append_ok r hwidth hopen (by rw [hsize]; exact hroom)
    exact ⟨_, (write_of_open h.attached hrecordings hbefore hlive).2 ⟨r', happend, rfl⟩⟩
  · rename_i hfull
    exact write_of_full h.attached hrecordings hbefore hlive
      (Block.append_full hwriter hrefusal hwidth hopen (by rw [hsize]; exact Nat.not_lt.1 hfull))

/-- What becomes of samples that are written to a lane is told by those in the current frame. -/
theorem Follows.write_eq {current : Option (List UInt64)} (h : l.Follows s start older current)
    (hwriter : b.writer s start k = some w) (hrefusal : b.refusal s = none)
    (hw : w.Writes s start new b.size) (hrate : 0 < s.rate) (hfits : b.Fits) :
    match s.writeViolation k current b.size with
    | some v => Lane.write w s.expected l = .error v l
    | none => ∃ l', Lane.write w s.expected l = .ok () l' := by
  cases current with
  | none => exact h.write_first hw hrate hfits
  | some samples =>
    have hwrite := h.write_further hwriter hrefusal hw
    by_cases hroom : samples.length * s.widthOf k + b.size < Packed.byteLimit
    · rw [if_pos hroom] at hwrite
      simp only [Settings.writeViolation, if_pos hroom]
      exact hwrite
    · rw [if_neg hroom] at hwrite
      simp only [Settings.writeViolation, if_neg hroom]
      exact hwrite

end Writing

end Lane

namespace Acquisition

/-- How a step fails, if it does. -/
def Step.failure {α : Type} (act : Step τ α) (a : Acquisition τ) : Option Failure :=
  match act a with
  | .ok _ _ => none
  | .error f _ => some f

/-- Two steps fail as the first does, or else as the second. -/
theorem Step.failure_bind {α β : Type} {act : Step τ α} {f : α → Step τ β} (a : Acquisition τ) :
    failure (act >>= f) a =
      match act a with
      | .ok x a' => failure (f x) a'
      | .error e _ => some e := by
  simp only [failure, bind, EStateM.bind]
  cases act a <;> rfl

variable [Clock τ] {a a' : Acquisition τ} {s : Settings} {log : Logbook} {b : Block}

/-- What becomes of a block is told by the blocks before it.  One that fails changes nothing. -/
theorem Follows.push_eq (h : a.Follows s log) (hrate : 0 < s.rate) (hfits : b.Fits) :
    match log.failure s b with
    | some f => Acquisition.push b a = .error f a
    | none => ∃ a', Acquisition.push b a = .ok b.count a' := by
  unfold Logbook.failure
  cases hrefusal : b.refusal s with
  -- A block is refused, ends the frame, or is written to the lane of its kind.
  | some r => exact push_of_refusal (h.settings ▸ hrefusal)
  | none =>
    have hrefusal' : b.refusal a.settings = none := h.settings ▸ hrefusal
    rcases Block.frameEnd_or_writes b hrefusal a.frameStart with
      rfl | ⟨k, w, new, hkind, hwriter, -, -, hw⟩
    · exact ⟨_, push_frameEnd a⟩
    · have hpush := push_of_writer (h.settings ▸ hwriter) hrefusal'
      have hwrite := (h.lane k).write_eq hwriter hrefusal hw hrate hfits
      rw [h.settings] at hpush
      simp only [Logbook.violation, hkind, Option.bind_some]
      -- The write fails exactly with what the logbook foresees.
      cases hviolation : s.writeViolation k (samplesIn k log.current) b.size with
      | some v =>
        rw [hviolation] at hwrite
        simp only [Option.map_some]
        rw [hpush, hwrite]
        cases k <;> rfl
      | none =>
        rw [hviolation] at hwrite
        obtain ⟨l, hwrite⟩ := hwrite
        exact ⟨a.withLane l, by rw [hpush, hwrite]⟩

/-! ## Failures of a request -/

/-- How a request fails, if it does. -/
def fails (a : Acquisition τ) : Request → Option Failure
  | .push b => Step.failure (Acquisition.push b) a
  | .pump => Step.failure pump a
  | .runToEnd => Step.failure runToEnd a
  | .endFrame => Step.failure endFrame a

/-- The blocks that a request comes to, unless it fails before. -/
def ahead (a : Acquisition τ) : Request → List Block
  | .push b => [b]
  | .pump => a.pending.take 1
  | .runToEnd => a.pending
  | .endFrame => []

/-- Waiting blocks make no difference to what was taken. -/
theorem Follows.withPending (h : a.Follows s log) (pending : List Block) :
    (a.withPending pending).Follows s log :=
  ⟨h.settings, h.frameStart, fun k => by cases k <;> exact h.lane _⟩

/-- Where no block waits none is taken. -/
theorem pump_of_nil (hnil : a.pending = []) : pump a = .ok none a := by
  rw [pump_eq, hnil]

/-- Where a block waits it is handed in. -/
theorem pump_of_cons {rest : List Block} (hcons : a.pending = b :: rest) :
    pump a =
      match Acquisition.push b (a.withPending rest) with
      | .ok n a' => .ok (some n) a'
      | .error f a' => .error f a' := by
  rw [pump_eq, hcons]
  rfl

/-- The next blocks fail as the first of them that does. -/
theorem Follows.failure_pumpMany (h : a.Follows s log) (hrate : 0 < s.rate)
    (hpending : ∀ b ∈ a.pending, b.Fits) (n : Nat) :
    Step.failure (pumpMany n) a = log.firstFailure s (a.pending.take n) := by
  -- On the number of blocks; the acquisition and its logbook move on together.
  induction n generalizing a log with
  | zero => rfl
  | succ n ih =>
    rw [pumpMany, Step.failure_bind]
    -- What a pump returns plays no part in whether the rest fails.
    have hrest (x : Option Nat) (a' : Acquisition τ) :
        Step.failure (do return x.getD 0 + (← pumpMany n)) a' = Step.failure (pumpMany n) a' := by
      rw [Step.failure_bind, Step.failure]
      cases pumpMany n a' <;> rfl
    cases hqueue : a.pending with
    | nil =>
      rw [pump_of_nil hqueue]
      simp only [hrest, ih h hpending, hqueue, List.take_nil]
    | cons b rest =>
      rw [hqueue] at hpending
      have hpush := (h.withPending rest).push_eq hrate (hpending b List.mem_cons_self)
      rw [pump_of_cons hqueue, List.take_succ_cons, Logbook.firstFailure]
      cases hfailure : log.failure s b with
      | some f =>
        rw [hfailure] at hpush
        rw [hpush]
      | none =>
        rw [hfailure] at hpush
        obtain ⟨a', hpush⟩ := hpush
        have hleft : a'.pending = rest := pending_push.1 hpush
        rw [hpush]
        simp only [hrest]
        rw [ih ((h.withPending rest).push hpush) (hleft ▸ fun x hx =>
          hpending x (List.mem_cons_of_mem b hx)), hleft]

/-- A request fails as the first of its blocks that does, and only if there is one. -/
theorem Follows.fails_eq (h : a.Follows s log) (hrate : 0 < s.rate)
    (hpending : ∀ b ∈ a.pending, b.Fits) (q : Request) (hq : q.Hands Block.Fits) :
    a.fails q = log.firstFailure s (a.ahead q) := by
  cases q with
  | push b =>
    have hpush := h.push_eq hrate hq
    rw [fails, ahead, Logbook.firstFailure, Step.failure]
    cases hfailure : log.failure s b with
    | some f =>
      rw [hfailure] at hpush
      rw [hpush]
    | none =>
      rw [hfailure] at hpush
      obtain ⟨a', hpush⟩ := hpush
      rw [hpush]
      rfl
  | pump =>
    -- A pump and a run to the end are runs of one block and of all.
    have hone := h.failure_pumpMany hrate hpending 1
    rw [pumpMany, Step.failure_bind] at hone
    rw [fails, ahead, ← hone, Step.failure]
    cases pump a <;> rfl
  | runToEnd =>
    have hall := h.failure_pumpMany hrate hpending a.pending.length
    rw [List.take_length] at hall
    rw [fails, ahead, ← hall, runToEnd, Step.failure, get_bind_eq]
    simp only [Step.failure, bind, EStateM.bind]
    cases pumpMany a.pending.length a <;> rfl
  | endFrame => rfl

end Acquisition

/-! ## Room for all blocks -/

/-- The number of bytes that blocks are stored in. -/
def Block.sizeAll (blocks : List Block) : Nat :=
  blocks.foldr (fun b n => b.size + n) 0

/-- The blocks that come with a request. -/
def Request.blocks : Request → List Block
  | .push b => [b]
  | .pump | .runToEnd | .endFrame => []

/-- The number of bytes of a kind in the current frame. -/
def Logbook.bytes (s : Settings) (log : Logbook) (k : Signal) : Nat :=
  ((samplesIn k log.current).getD []).length * s.widthOf k

namespace Block

@[simp] theorem sizeAll_nil : sizeAll [] = 0 := rfl

@[simp] theorem sizeAll_cons (b : Block) (rest : List Block) :
    sizeAll (b :: rest) = b.size + sizeAll rest := rfl

/-- The bytes of two lists of blocks add up. -/
theorem sizeAll_append (blocks blocks' : List Block) :
    sizeAll (blocks ++ blocks') = sizeAll blocks + sizeAll blocks' := by
  induction blocks with
  | nil => simp
  | cons b rest ih => simp [ih, Nat.add_assoc]

/-- A block takes no more bytes than all of them. -/
theorem size_le_sizeAll {b : Block} {blocks : List Block} (h : b ∈ blocks) :
    b.size ≤ sizeAll blocks := by
  obtain ⟨before, rest, rfl⟩ := List.append_of_mem h
  rw [sizeAll_append, sizeAll_cons]
  omega

/-- A sample takes a byte or more. -/
theorem count_le_size (b : Block) : b.count ≤ b.size := by
  cases b with
  | logic width payload => exact Nat.div_le_self _ _
  | analog xs => exact Nat.le_mul_of_pos_left xs.size (by decide : 0 < 4)
  | frameEnd => exact Nat.le_refl _

/-- Blocks that are split are stored in as many bytes. -/
theorem sizeAll_take_drop (n : Nat) (blocks : List Block) :
    sizeAll (blocks.take n) + sizeAll (blocks.drop n) = sizeAll blocks := by
  rw [← sizeAll_append, List.take_append_drop]

end Block

open Block

namespace Logbook

variable {s : Settings} {log : Logbook} {b : Block}

/-- A block that is taken adds its own bytes at most. -/
theorem bytes_enter_le (log : Logbook) (hrefusal : b.refusal s = none) (k : Signal) :
    (log.enter b).bytes s k ≤ log.bytes s k + b.size := by
  have hentered (henter : log.enter b = ⟨log.ended, log.current ++ [b]⟩) :
      (log.enter b).bytes s k ≤ log.bytes s k + b.size := by
    rw [henter, bytes, bytes, samplesIn_append]
    cases hnew : b.samples k with
    | none => exact Nat.le_add_right _ _
    | some new =>
      rw [Option.getD_some, List.length_append, Nat.add_mul]
      exact Nat.add_le_add_left (Nat.le_of_eq (size_eq hrefusal hnew).symm) _
  cases b with
  | logic width payload => exact hentered rfl
  | analog xs => exact hentered rfl
  | frameEnd => simp [enter, bytes, samplesIn]

/-- Blocks for which there is room break no contract. -/
theorem firstFailure_ne_violated (hexpected : ∀ k, s.expected * s.widthOf k < Packed.byteLimit)
    {blocks : List Block} (hroom : ∀ k, log.bytes s k + sizeAll blocks < Packed.byteLimit)
    (v : Violation) : log.firstFailure s blocks ≠ some (.violated v) := by
  -- On the blocks: those in the frame and those still to come stay below the limit together.
  induction blocks generalizing log with
  | nil => exact nofun
  | cons b rest ih =>
    rw [firstFailure, failure]
    cases hrefusal : b.refusal s with
    | some r => simp
    | none =>
      -- This block fits in, whether it opens the recording or is added to it.
      have hviolation : log.violation s b = none := by
        rw [violation]
        cases b.kind with
        | none => rfl
        | some k =>
          have hk := hroom k
          rw [bytes, sizeAll_cons] at hk
          rw [Option.bind_some]
          cases hsamples : samplesIn k log.current with
          | none => exact Settings.roomViolation_eq_none.2 (hexpected k)
          | some samples =>
            rw [hsamples, Option.getD_some] at hk
            exact if_pos (by omega)
      rw [hviolation]
      refine ih fun k => ?_
      have hk := hroom k
      -- What the frame gains is what the block takes from those to come.
      have henter := bytes_enter_le log hrefusal k
      rw [sizeAll_cons] at hk
      omega

end Logbook

namespace Acquisition

/-- The blocks that a request goes through were waiting, or came with it. -/
theorem sizeAll_ahead_le (a : Acquisition τ) (q : Request) :
    sizeAll (a.ahead q) ≤ sizeAll a.pending + sizeAll q.blocks := by
  have hsplit := sizeAll_take_drop 1 a.pending
  cases q with
  | push b => exact Nat.le_add_left _ _
  | pump =>
    rw [ahead]
    omega
  | runToEnd => exact Nat.le_add_right _ _
  | endFrame => exact Nat.zero_le _

variable [Clock τ] {a a' : Acquisition τ} {s : Settings} {log : Logbook} {b : Block}

/-- A block that is taken is not refused. -/
theorem refusal_of_push {n : Nat} (h : push b a = .ok n a') : b.refusal a.settings = none := by
  cases hrefusal : b.refusal a.settings with
  | none => rfl
  | some r =>
    rw [push_of_refusal hrefusal] at h
    cases h

/-- Blocks that are taken add their own bytes at most. -/
theorem Follows.bytes_le (h : a.Follows s log) {bs : List Block} (htakes : Takes Block.Fits a bs a')
    (k : Signal) : (bs.foldl Logbook.enter log).bytes s k ≤ log.bytes s k + sizeAll bs := by
  induction htakes generalizing log with
  | done => exact Nat.le_refl _
  | @takes a _ _ b bs _ _ hpush _ ih =>
    have henter := Logbook.bytes_enter_le log (h.settings ▸ refusal_of_push hpush) k
    have hrest := ih (h.push hpush)
    rw [List.foldl_cons, sizeAll_cons]
    omega
  | refuses hfits hpush _ ih => exact ih (push_unchanged hfits hpush ▸ h)
  | dequeues _ _ ih => exact ih (h.withPending _)

/-- The blocks that are taken leave the queue from the front. -/
theorem pending_pumpMany (n : Nat) {m : Nat} (h : pumpMany n a = .ok m a') :
    a'.pending = a.pending.drop n := by
  induction n generalizing a m with
  | zero =>
    cases h
    rfl
  | succ n ih =>
    obtain ⟨x, a₁, hpump, hrest⟩ := bind_eq_ok.1 h
    obtain ⟨m', a₂, hmany, hpure⟩ := bind_eq_ok.1 hrest
    cases hpure
    have hanything : ∀ b ∈ a.pending, (fun _ : Block => True) b := fun _ _ => trivial
    rw [ih hmany, (takes_pump_ok hanything hpump).2, List.drop_drop, Nat.add_comm]

/-- No block waits once all were taken. -/
theorem pending_runToEnd {m : Nat} (h : runToEnd a = .ok m a') : a'.pending = [] := by
  rw [runToEnd, get_bind_eq] at h
  obtain ⟨m', a₁, hmany, hrest⟩ := bind_eq_ok.1 h
  cases hrest
  show a₁.pending = []
  rw [pending_pumpMany _ hmany, List.drop_length]

/-- Where not all were taken, the one that failed has left the queue with those before it. -/
theorem pending_runToEnd_of_error {f : Failure} (h : runToEnd a = .error f a') :
    ∃ i, i < a.pending.length ∧ a'.pending = a.pending.drop (i + 1) := by
  have hanything : ∀ b ∈ a.pending, (fun _ : Block => True) b := fun _ _ => trivial
  rw [runToEnd, get_bind_eq] at h
  have hmany : pumpMany a.pending.length a = .error f a' := by
    rcases bind_eq_error.1 h with hmany | ⟨m', a₁, -, hrest⟩
    · exact hmany
    · cases hrest
  obtain ⟨i, hi, -, hpending⟩ := takes_pumpMany_error _ hanything hmany
  exact ⟨i, hi, hpending⟩

/-- A block that is taken from the queue has no more samples than bytes. -/
theorem pump_le {x : Option Nat} (h : pump a = .ok x a') :
    x.getD 0 + sizeAll a'.pending ≤ sizeAll a.pending := by
  rw [pump_eq] at h
  split at h
  · cases h
    exact Nat.le_of_eq (Nat.zero_add _)
  · rename_i b rest hcons
    split at h
    · rename_i n a₁ hpush
      cases h
      have hcount := b.count_le_size
      rw [pending_push.1 hpush, hcons, sizeAll_cons, Option.getD_some, count_of_push hpush]
      exact Nat.add_le_add_right hcount _
    · cases h

/-- Blocks that are taken from the queue have no more samples than bytes. -/
theorem pumpMany_le (n : Nat) {m : Nat} (h : pumpMany n a = .ok m a') :
    m + sizeAll a'.pending ≤ sizeAll a.pending := by
  induction n generalizing a m with
  | zero =>
    cases h
    exact Nat.le_of_eq (Nat.zero_add _)
  | succ n ih =>
    obtain ⟨x, a₁, hpump, hrest⟩ := bind_eq_ok.1 h
    obtain ⟨m', a₂, hmany, hpure⟩ := bind_eq_ok.1 hrest
    cases hpure
    have hfirst := pump_le hpump
    have hbehind := ih hmany
    omega

/-- The samples that are counted in taking all blocks are no more than the bytes that waited, so the sum
stays within 64 bits as long as these lie in the address space. -/
theorem runToEnd_le {m : Nat} (h : runToEnd a = .ok m a') : m ≤ sizeAll a.pending := by
  rw [runToEnd, get_bind_eq] at h
  obtain ⟨m', a₁, hmany, hrest⟩ := bind_eq_ok.1 h
  cases hrest
  exact Nat.le_trans (Nat.le_add_right _ _) (pumpMany_le _ hmany)

/-- What a request takes and what then waits was waiting before or came with the request. -/
theorem sizeAll_taken_le (a : Acquisition τ) (q : Request) :
    sizeAll (a.taken q) + sizeAll (a.after q).pending ≤ sizeAll a.pending + sizeAll q.blocks := by
  -- A request takes what it is handed or the front of the queue.
  have hanything : ∀ b ∈ a.pending, (fun _ : Block => True) b := fun _ _ => trivial
  cases q with
  | push b =>
    simp only [taken, after, Step.leaves, Request.blocks]
    cases hpush : push b a with
    | ok n a' => simp only [pending_push.1 hpush, Nat.add_comm, Nat.le_refl]
    | error f a' => simp only [pending_push.2 hpush, sizeAll_nil, Nat.zero_add, Nat.le_add_right]
  | pump =>
    have hsplit := sizeAll_take_drop 1 a.pending
    simp only [taken, after, Step.leaves, Request.blocks]
    cases hpump : pump a with
    | ok x a' =>
      simp only [(takes_pump_ok hanything hpump).2, sizeAll_nil]
      omega
    | error f a' =>
      simp only [(takes_pump_error hanything hpump).2.2, sizeAll_nil]
      omega
  | runToEnd =>
    simp only [taken, after, Step.leaves, Request.blocks]
    cases hrun : runToEnd a with
    | ok m a' =>
      -- The end of the frame that is taken as well has no bytes.
      have hframeEnd : sizeAll [.frameEnd] = 0 := rfl
      simp only [pending_runToEnd hrun, sizeAll_append, hframeEnd, sizeAll_nil, Nat.le_refl]
    | error f a' =>
      -- The block at `i` failed: it left the queue as those before it did, but was not taken.
      obtain ⟨i, hi, hpending⟩ := pending_runToEnd_of_error hrun
      have hlast : a.pending.length - (a.pending.drop (i + 1)).length - 1 = i := by
        rw [List.length_drop]
        omega
      have hsplit := sizeAll_take_drop i a.pending
      have hbehind := sizeAll_take_drop 1 (a.pending.drop i)
      rw [List.drop_drop] at hbehind
      simp only [hpending, hlast, sizeAll_nil]
      omega
  | endFrame => exact Nat.le_of_eq (Nat.zero_add _)

/-- In a run, what is taken and what waits in the end was waiting before or was handed in. -/
theorem sizeAll_takenBy_le (requests : List Request) (a : Acquisition τ) :
    sizeAll (takenBy requests a) + sizeAll (run requests a).pending ≤
      sizeAll a.pending + sizeAll (requests.flatMap Request.blocks) := by
  induction requests generalizing a with
  | nil => exact Nat.le_of_eq (Nat.zero_add _)
  | cons q rest ih =>
    have hfirst := sizeAll_taken_le a q
    have hrest := ih (a.after q)
    rw [takenBy, List.flatMap_cons, sizeAll_append, sizeAll_append]
    show _ + sizeAll (run rest (a.after q)).pending ≤ _
    omega

/-- An acquisition can be started with settings that are validated. -/
theorem start_of_validate (h : s.validate = .ok ()) (pending : List Block) :
    ∃ a : Acquisition τ, start pending s = .ok a := by
  unfold start
  rw [h]
  exact ⟨_, rfl⟩

/-- The requests of a run fail as the blocks that were taken before tell. -/
theorem fails_run {pending : List Block} {requests : List Request} {q : Request}
    (hstart : start pending s = .ok a) (hpending : ∀ b ∈ pending, b.Fits)
    (hrequests : ∀ q' ∈ q :: requests, q'.Hands Block.Fits) :
    (run requests a).fails q =
      (Logbook.of (takenBy requests a)).firstFailure s ((run requests a).ahead q) := by
  obtain ⟨hfollows, hqueue, hrate⟩ := follows_of_start hstart
  obtain ⟨hq, hbefore⟩ := List.forall_mem_cons.1 hrequests
  have htakes := takes_run (show Block.frameEnd.Fits by decide) requests hbefore (hqueue ▸ hpending)
  exact (hfollows.takes htakes).fails_eq hrate
    (fun b hb => hpending b (hqueue ▸ htakes.pending_suffix.mem hb)) q hq

/-- No request breaks a contract where there is room for the expected samples and for all blocks. -/
theorem not_violated {pending : List Block} {requests : List Request} {q : Request}
    (hstart : start pending s = .ok a)
    (hexpected : ∀ k, s.expected * s.widthOf k < Packed.byteLimit)
    (hsize : sizeAll pending + sizeAll ((requests ++ [q]).flatMap Request.blocks) <
      Packed.byteLimit) (v : Violation) :
    (run requests a).fails q ≠ some (.violated v) := by
  obtain ⟨hfollows, hqueue, -⟩ := follows_of_start hstart
  rw [List.flatMap_append, sizeAll_append, List.flatMap_singleton] at hsize
  -- Every block on its own is below the limit, as all together are.
  have hfits (b : Block) (hb : b.size < Packed.byteLimit) : b.Fits := hb
  have hpending : ∀ b ∈ pending, b.Fits := fun b hb =>
    hfits b (Nat.lt_of_le_of_lt (size_le_sizeAll hb) (by omega))
  have hhands : ∀ q' : Request, sizeAll q'.blocks < Packed.byteLimit → q'.Hands Block.Fits := by
    intro q' hq'
    cases q' with
    | push b => exact hfits b (Nat.lt_of_le_of_lt (size_le_sizeAll List.mem_cons_self) hq')
    | pump | runToEnd | endFrame => trivial
  have hrequests : ∀ q' ∈ requests, q'.Hands Block.Fits := by
    intro q' hq'
    refine hhands q' ?_
    obtain ⟨before, rest, rfl⟩ := List.append_of_mem hq'
    rw [List.flatMap_append, List.flatMap_cons, sizeAll_append, sizeAll_append] at hsize
    omega
  have hq : q.Hands Block.Fits := hhands q (by omega)
  rw [fails_run hstart hpending (List.forall_mem_cons.2 ⟨hq, hrequests⟩)]
  refine Logbook.firstFailure_ne_violated hexpected (fun k => ?_) v
  -- What is in the frame was taken, and what is ahead waits or comes with the request.
  have htakes := takes_run (show Block.frameEnd.Fits by decide) requests hrequests (hqueue ▸ hpending)
  have hframe := hfollows.bytes_le htakes k
  have htaken := sizeAll_takenBy_le requests a
  have hahead := sizeAll_ahead_le (run requests a) q
  have hnone : Logbook.bytes s ⟨[], []⟩ k = 0 := Nat.zero_mul _
  rw [hnone] at hframe
  rw [hqueue] at htaken
  rw [Logbook.of]
  omega

/-- Room for too many samples is asked for by the first block, even if it is empty. -/
theorem fails_of_no_room (h : a.Follows s ⟨[], []⟩) (hrate : 0 < s.rate)
    (hroom : Packed.byteLimit ≤ s.expected * s.widthOf k) :
    ∃ b v, b.size = 0 ∧ a.fails (.push b) = some (.violated v) := by
  obtain ⟨v, hv⟩ : ∃ v, s.roomViolation k = some v :=
    Option.ne_none_iff_exists'.1 fun hnone =>
      Nat.not_lt.2 hroom (Settings.roomViolation_eq_none.1 hnone)
  -- An empty block is enough, since room is made for what is expected.
  obtain ⟨b, hkind, hsize, hrefusal⟩ :
      ∃ b : Block, b.kind = some k ∧ b.size = 0 ∧ b.refusal s = none := by
    cases k with
    | logic =>
      have hbounds := s.sampleWidth_bounds
      have hvalid : (Block.logic s.sampleWidth ByteArray.empty).validate = .ok () := by
        rw [Block.validate, if_neg (by omega)]
        exact if_pos (Nat.zero_mod _)
      exact ⟨.logic s.sampleWidth ByteArray.empty, rfl, rfl, by simp [Block.refusal, hvalid]⟩
    | analog => exact ⟨.analog #[], rfl, rfl, rfl⟩
  have hfits : b.Fits := by
    rw [Block.Fits, hsize]
    decide
  refine ⟨b, v, hsize, ?_⟩
  -- The logbook foresees the failure.
  have hpush := h.push_eq hrate hfits
  have hfailure : Logbook.failure s ⟨[], []⟩ b = some (.violated v) := by
    rw [Logbook.failure, hrefusal, Logbook.violation, hkind]
    exact congrArg (Option.map Failure.violated) hv
  rw [hfailure] at hpush
  rw [fails, Step.failure, hpush]

/-- What validated settings warrant.  Settings that were read are validated, whatever parser they were read
with, and an acquisition can be started with them.  A request then fails as the first of its blocks that
is refused, or for which there is no room.  As long as all blocks together lie in the address space, no
request breaks a contract, provided that the room for the expected samples of either kind lies there too;
that is not validated, and if it does not, then there is an acquisition in which a request breaks one. -/
theorem never_violated_iff :
    (∀ (Text : Type) (parse : Text → Except Json.Fault Settings) (text : Text) (s : Settings),
      Settings.read parse text = .ok s → s.validate = .ok ()) ∧
    ∀ s : Settings, s.validate = .ok () →
      (∀ pending, ∃ a : Acquisition τ, start pending s = .ok a) ∧
      (∀ (pending : List Block) (a : Acquisition τ) (requests : List Request) (q : Request),
        start pending s = .ok a → (∀ b ∈ pending, b.Fits) →
        (∀ q' ∈ q :: requests, q'.Hands Block.Fits) →
        (run requests a).fails q = (Logbook.of (takenBy requests a)).firstFailure s
          ((run requests a).ahead q)) ∧
      ((∀ (pending : List Block) (a : Acquisition τ) (requests : List Request) (q : Request),
          start pending s = .ok a →
          sizeAll pending + sizeAll ((requests ++ [q]).flatMap Request.blocks) < Packed.byteLimit →
          ∀ v, (run requests a).fails q ≠ some (.violated v)) ↔
        ∀ k, s.expected * s.widthOf k < Packed.byteLimit) := by
  constructor
  · -- A reader checks the settings before it returns them.
    intro Text parse text s h
    unfold Settings.read at h
    split at h
    · cases h
    · split at h
      · cases h
        assumption
      · cases h
  · intro s hvalid
    refine ⟨start_of_validate hvalid, fun pending a requests q => fails_run, ?_, ?_⟩
    · -- Settings that expect too much: an empty block is the request that fails.
      intro hnever k
      refine Nat.not_le.1 fun hroom => ?_
      obtain ⟨a, hstart⟩ := start_of_validate (τ := τ) hvalid []
      obtain ⟨hfollows, -, hrate⟩ := follows_of_start hstart
      obtain ⟨b, v, hsize, hfails⟩ := fails_of_no_room hfollows hrate hroom
      refine hnever [] a [] (.push b) hstart ?_ v hfails
      simp [Request.blocks, hsize, Packed.byteLimit]
    · intro hexpected pending a requests q hstart hsize
      exact not_violated hstart hexpected hsize

/-- The default settings, read from an empty object, under which a block is refused and no contract is ever
broken; and settings under which an empty block breaks one. -/
theorem never_violated_iff_of_default :
    let half : Binary32 := ⟨0x3f000000⟩
    let pending : List Block := [.logic 1 ⟨#[1, 2]⟩, .analog #[half], .logic 2 ⟨#[0, 0]⟩, .frameEnd]
    let a : Acquisition Float := ⟨.default, pending, .empty, .empty, Clock.zero⟩
    let wide : Settings := ⟨16, 64, 0x1000000000000000, ⟨0x43800000⟩⟩
    Settings.default.validate = .ok () ∧ wide.validate = .ok () ∧
    a.fails .runToEnd = some (.rejected (.widthMismatch 1 2)) ∧
    (∀ v, (run [.pump, .runToEnd] a).fails (.push (.logic 1 ⟨#[3]⟩)) ≠ some (.violated v)) ∧
    ¬ ∀ (pending : List Block) (a : Acquisition Float) (requests : List Request) (q : Request),
      start pending wide = .ok a →
      sizeAll pending + sizeAll ((requests ++ [q]).flatMap Request.blocks) < Packed.byteLimit →
      ∀ v, (run requests a).fails q ≠ some (.violated v) := by
  intro half pending a wide
  obtain ⟨hread, hwarranted⟩ := never_violated_iff (τ := Float)
  -- The bytes are those of the empty object.
  have hvalid : Settings.default.validate = .ok () := hread Json.Bytes Settings.parse [123, 125] _ rfl
  have hwide : wide.validate = .ok () := rfl
  obtain ⟨-, hfails, hnever⟩ := hwarranted _ hvalid
  obtain ⟨-, -, hbreaks⟩ := hwarranted _ hwide
  have hstart : start pending .default = .ok a := rfl
  refine ⟨hvalid, hwide, ?_, ?_, fun h => ?_⟩
  · -- The second block was refused, and the failure is the first there is.
    exact hfails pending a [] .runToEnd hstart (by decide) (by decide)
  · refine hnever.2 (fun k => ?_) pending a [.pump, .runToEnd] _ hstart (by decide +kernel)
    cases k <;> decide
  · -- The settings `wide` pass the check and expect too much.
    exact absurd (hbreaks.1 h .logic) (by decide)

/-- Settings are validated with more samples to expect than the address space has room for. -/
theorem validated_settings_violate :
    ¬ ∀ (pending : List Block) (s : Settings) (a : Acquisition Float) (requests : List Request)
      (q : Request) (v : Violation), s.validate = .ok () → start pending s = .ok a →
        (run requests a).fails q ≠ some (.violated v) := by
  intro h
  refine h [] ⟨16, 64, 0x2000000000000000, ⟨0x43800000⟩⟩ _ []
    (.push (.logic 8 ⟨Array.replicate 24 1⟩)) .mulOverflow rfl rfl ?_
  rfl

end Acquisition

end Waveform
