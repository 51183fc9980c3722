import Waveform.Proofs.AcquisitionSteps

/-!
# Requests to an acquisition

An acquisition is asked to take a block, to take one or all of the blocks that wait, or to end the
frame.  Whatever it is asked for, it takes blocks one after the other, passing over those that it
refuses: `Takes` says so of a request and of a run of requests.  What is proved of a single block
follows for all of them by induction on `Takes`.

## Key results

- `Acquisition.takes_after`: a request takes blocks one after the other
- `Acquisition.takes_run`: so does a run of requests
-/

namespace Waveform

variable {τ : Type}

/-- What an acquisition can be asked to do. -/
inductive Request where
  /-- Take this block. -/
  | push (b : Block)
  /-- Take the next block that waits. -/
  | pump
  /-- Take all blocks that wait, and end the frame. -/
  | runToEnd
  /-- End the frame. -/
  | endFrame

/-- The block that comes with the request has a property, if there is one. -/
def Request.Hands (Admitted : Block → Prop) : Request → Prop
  | .push b => Admitted b
  | .pump | .runToEnd | .endFrame => True

instance (Admitted : Block → Prop) [DecidablePred Admitted] :
    DecidablePred (Request.Hands Admitted)
  | .push b => inferInstanceAs (Decidable (Admitted b))
  | .pump | .runToEnd | .endFrame => inferInstanceAs (Decidable True)

namespace Acquisition

/-- The acquisition that a step leaves behind, whether it succeeds or not. -/
def Step.leaves {α : Type} (act : Step τ α) (a : Acquisition τ) : Acquisition τ :=
  match act a with
  | .ok _ a' => a'
  | .error _ a' => a'

/-- A step that succeeds leaves the acquisition that it returns. -/
theorem Step.leaves_of_eq_ok {α : Type} {act : Step τ α} {a a' : Acquisition τ} {x : α}
    (h : act a = .ok x a') : Step.leaves act a = a' := by
  rw [leaves, h]

/-- A step that fails leaves the acquisition that it got to. -/
theorem Step.leaves_of_eq_error {α : Type} {act : Step τ α} {a a' : Acquisition τ} {f : Failure}
    (h : act a = .error f a') : Step.leaves act a = a' := by
  rw [leaves, h]

variable [Clock τ]

/-- The acquisition that a request leaves behind, whether it succeeds or not. -/
def after (a : Acquisition τ) : Request → Acquisition τ
  | .push b => Step.leaves (push b) a
  | .pump => Step.leaves pump a
  | .runToEnd => Step.leaves runToEnd a
  | .endFrame => Step.leaves endFrame a

/-- The blocks that an acquisition takes on a request.  A frame that ends without a block counts as a
block that ends it. -/
def taken (a : Acquisition τ) : Request → List Block
  | .push b =>
    match push b a with
    | .ok _ _ => [b]
    | .error _ _ => []
  | .pump =>
    match pump a with
    | .ok _ _ => a.pending.take 1
    | .error _ _ => []
  | .runToEnd =>
    match runToEnd a with
    | .ok _ _ => a.pending ++ [.frameEnd]
    -- The last block to leave the queue is the one that was not taken.
    | .error _ a' => a.pending.take (a.pending.length - a'.pending.length - 1)
  | .endFrame => [.frameEnd]

/-- The acquisition that a run of requests leaves behind. -/
def run (requests : List Request) (a : Acquisition τ) : Acquisition τ :=
  requests.foldl after a

/-- The blocks that an acquisition takes in a run of requests. -/
def takenBy : List Request → Acquisition τ → List Block
  | [], _ => []
  | q :: rest, a => a.taken q ++ takenBy rest (a.after q)

/-- One acquisition becomes another by taking blocks, one after the other.  Other blocks may be
refused in between, and blocks may leave the queue.  All that are tried have the property. -/
inductive Takes (Admitted : Block → Prop) :
    Acquisition τ → List Block → Acquisition τ → Prop where
  | done (a : Acquisition τ) : Takes Admitted a [] a
  | takes {a a' a'' : Acquisition τ} {b : Block} {bs : List Block} {n : Nat} :
    Admitted b → push b a = .ok n a' → Takes Admitted a' bs a'' → Takes Admitted a (b :: bs) a''
  | refuses {a a' a'' : Acquisition τ} {b : Block} {bs : List Block} {f : Failure} :
    Admitted b → push b a = .error f a' → Takes Admitted a' bs a'' → Takes Admitted a bs a''
  | dequeues {a a'' : Acquisition τ} {bs pending : List Block} :
    pending <:+ a.pending → Takes Admitted { a with pending } bs a'' → Takes Admitted a bs a''

variable {Admitted : Block → Prop} {a a' : Acquisition τ} {bs : List Block}

namespace Takes

/-- Blocks may be taken in two runs. -/
theorem trans {bs' : List Block} {a'' : Acquisition τ} (h : Takes Admitted a bs a')
    (h' : Takes Admitted a' bs' a'') : Takes Admitted a (bs ++ bs') a'' := by
  induction h with
  | done => exact h'
  | takes hb hpush _ ih => exact .takes hb hpush (ih h')
  | refuses hb hpush _ ih => exact .refuses hb hpush (ih h')
  | dequeues hsuffix _ ih => exact .dequeues hsuffix (ih h')

end Takes

/-- A block that is handed in leaves the queue alone, on either outcome. -/
theorem pending_push {b : Block} :
    (∀ {n : Nat}, push b a = .ok n a' → a'.pending = a.pending) ∧
    (∀ {f : Failure}, push b a = .error f a' → a'.pending = a.pending) := by
  have hwithLane {k : Signal} (l : Lane τ k) : (a.withLane l).pending = a.pending := by
    cases k <;> rfl
  rcases push_cases b a with ⟨r, -, hpush⟩ | rfl | ⟨k, w, new, -, -, -, -, -, hpush⟩
  · rw [hpush]
    exact ⟨nofun, by rintro _ ⟨⟩; rfl⟩
  · rw [push_frameEnd]
    exact ⟨by rintro _ ⟨⟩; rfl, nofun⟩
  · rw [hpush]
    split
    · exact ⟨by rintro _ ⟨⟩; exact hwithLane _, nofun⟩
    · exact ⟨nofun, by rintro _ ⟨⟩; exact hwithLane _⟩

/-- Blocks leave the queue from the front. -/
theorem Takes.pending_suffix (h : Takes Admitted a bs a') : a'.pending <:+ a.pending := by
  induction h with
  | done => exact List.suffix_rfl
  | takes _ hpush _ ih => exact pending_push.1 hpush ▸ ih
  | refuses _ hpush _ ih => exact pending_push.2 hpush ▸ ih
  | dequeues hsuffix _ ih => exact ih.trans hsuffix

/-- The next block that waits leaves the queue, and is then handed in. -/
theorem pump_eq (a : Acquisition τ) :
    pump a =
      match a.pending with
      | [] => .ok none a
      | b :: rest =>
        match push b { a with pending := rest } with
        | .ok n a' => .ok (some n) a'
        | .error f a' => .error f a' := by
  obtain ⟨settings, pending, logic, analog, frameStart⟩ := a
  cases pending with
  | nil => rfl
  | cons b rest =>
    show ((push b >>= fun n => pure (some n)) : Step τ (Option Nat))
      ⟨settings, rest, logic, analog, frameStart⟩ = _
    simp only [bind, EStateM.bind, pure, EStateM.pure]
    cases push b (⟨settings, rest, logic, analog, frameStart⟩ : Acquisition τ) <;> rfl

/-- A call for the next block takes it from the front of the queue. -/
theorem takes_pump_ok (hp : ∀ b ∈ a.pending, Admitted b) {x : Option Nat}
    (h : pump a = .ok x a') :
    Takes Admitted a (a.pending.take 1) a' ∧ a'.pending = a.pending.drop 1 := by
  rw [pump_eq] at h
  split at h
  · -- With an empty queue nothing is taken.
    rename_i hnil
    cases h
    rw [hnil]
    exact ⟨.done a, rfl⟩
  · -- Else the first block leaves the queue and is pushed.
    rename_i b rest hcons
    split at h
    · rename_i hpush
      cases h
      rw [hcons]
      exact ⟨.dequeues (hcons ▸ List.suffix_cons b rest)
        (.takes (hp b (by simp [hcons])) hpush (.done _)), pending_push.1 hpush⟩
    · exact nomatch h

/-- A block that is refused is gone from the queue all the same. -/
theorem takes_pump_error (hp : ∀ b ∈ a.pending, Admitted b) {f : Failure}
    (h : pump a = .error f a') :
    Takes Admitted a [] a' ∧ 0 < a.pending.length ∧ a'.pending = a.pending.drop 1 := by
  rw [pump_eq] at h
  split at h
  · exact nomatch h
  · rename_i b rest hcons
    split at h
    · exact nomatch h
    · rename_i hpush
      cases h
      rw [hcons]
      exact ⟨.dequeues (hcons ▸ List.suffix_cons b rest)
        (.refuses (hp b (by simp [hcons])) hpush (.done _)), by simp, pending_push.2 hpush⟩

/-- Where no block is refused, as many are taken as are asked for. -/
theorem takes_pumpMany_ok (n : Nat) (hp : ∀ b ∈ a.pending, Admitted b) {m : Nat}
    (h : pumpMany n a = .ok m a') :
    Takes Admitted a (a.pending.take n) a' := by
  induction n generalizing a m with
  | zero =>
    cases h
    exact .done _
  | succ n ih =>
    -- One pump, and then `n` more from where it leads.
    obtain ⟨x, a₁, hpump, hrest⟩ := Operation.bind_eq_ok.1 h
    obtain ⟨m', a₂, hmany, hpure⟩ := Operation.bind_eq_ok.1 hrest
    cases hpure
    obtain ⟨htakes, hpending⟩ := takes_pump_ok hp hpump
    have hp₁ : ∀ b ∈ a₁.pending, Admitted b := fun b hb =>
      hp b (htakes.pending_suffix.mem hb)
    have h₁ := ih hp₁ hmany
    rw [hpending] at h₁
    have hsplit : a.pending.take (n + 1) = a.pending.take 1 ++ (a.pending.drop 1).take n := by
      rw [Nat.add_comm, List.take_add]
    rw [hsplit]
    exact htakes.trans h₁

/-- Where not all blocks are taken, those before the last that left the queue were. -/
theorem takes_pumpMany_error (n : Nat) (hp : ∀ b ∈ a.pending, Admitted b) {f : Failure}
    (h : pumpMany n a = .error f a') :
    ∃ i, i < a.pending.length ∧ Takes Admitted a (a.pending.take i) a' ∧
      a'.pending = a.pending.drop (i + 1) := by
  induction n generalizing a with
  | zero => exact nomatch h
  | succ n ih =>
    rcases Operation.bind_eq_error.1 h with hpump | ⟨x, a₁, hpump, hrest⟩
    · -- The first block failed, or one behind it.
      obtain ⟨htakes, hlength, hpending⟩ := takes_pump_error hp hpump
      exact ⟨0, hlength, htakes, hpending⟩
    · have hmany : pumpMany n a₁ = .error f a' := by
        rcases Operation.bind_eq_error.1 hrest with hmany | ⟨_, _, -, hpure⟩
        · exact hmany
        · exact nomatch hpure
      -- The first block was taken, and `i` more of those behind it.
      obtain ⟨htakes, hpending⟩ := takes_pump_ok hp hpump
      have hp₁ : ∀ b ∈ a₁.pending, Admitted b := fun b hb =>
        hp b (htakes.pending_suffix.mem hb)
      obtain ⟨i, hi, h₁, hdrop⟩ := ih hp₁ hmany
      rw [hpending] at hi h₁ hdrop
      rw [List.length_drop] at hi
      refine ⟨i + 1, by omega, ?_, by rw [hdrop, List.drop_drop, Nat.add_comm]⟩
      rw [Nat.add_comm i 1, List.take_add]
      exact htakes.trans h₁

/-- Whatever an acquisition is asked for, it takes blocks one after the other. -/
theorem takes_after (hp : ∀ b ∈ a.pending, Admitted b) (hend : Admitted .frameEnd) (q : Request)
    (hq : q.Hands Admitted) : Takes Admitted a (a.taken q) (a.after q) := by
  have hclose (a : Acquisition τ) : Takes Admitted a [.frameEnd] (Step.leaves endFrame a) :=
    .takes hend (push_frameEnd a) (.done _)
  cases q with
  | push b =>
    simp only [taken, after, Step.leaves]
    cases hpush : push b a with
    | ok n a' => exact .takes hq hpush (.done a')
    | error f a' => exact .refuses hq hpush (.done a')
  | pump =>
    simp only [taken, after, Step.leaves]
    cases hpump : pump a with
    | ok x a' => exact (takes_pump_ok hp hpump).1
    | error f a' => exact (takes_pump_error hp hpump).1
  | runToEnd =>
    simp only [taken, after, Step.leaves]
    cases hrun : runToEnd a with
    -- The whole queue is taken, and then the frame is ended.
    | ok m a' =>
      rw [runToEnd, Operation.get_bind_eq] at hrun
      obtain ⟨m', a₁, hmany, hrest⟩ := Operation.bind_eq_ok.1 hrun
      obtain ⟨⟨⟩, a₂, hended, hpure⟩ := Operation.bind_eq_ok.1 hrest
      cases hpure
      have htakes := takes_pumpMany_ok _ hp hmany
      rw [List.take_length] at htakes
      exact htakes.trans (Step.leaves_of_eq_ok hended ▸ hclose a₁)
    | error f a' =>
      -- Ending a frame does not fail, so it was a block.
      rw [runToEnd, Operation.get_bind_eq] at hrun
      have hmany : pumpMany a.pending.length a = .error f a' := by
        rcases Operation.bind_eq_error.1 hrun with hmany | ⟨m', a₁, hmany, hrest⟩
        · exact hmany
        · exact nomatch hrest
      obtain ⟨i, hi, htakes, hpending⟩ := takes_pumpMany_error _ hp hmany
      -- The length of the queue that is left tells how many were taken.
      have hlast : a.pending.length - a'.pending.length - 1 = i := by
        rw [hpending, List.length_drop]
        omega
      simp only [hlast]
      exact htakes
  | endFrame => exact hclose a

/-- An acquisition takes the blocks of a run one after the other. -/
theorem takes_run (hend : Admitted .frameEnd) (requests : List Request)
    (hrequests : ∀ q ∈ requests, q.Hands Admitted) (hp : ∀ b ∈ a.pending, Admitted b) :
    Takes Admitted a (takenBy requests a) (run requests a) := by
  induction requests generalizing a with
  | nil => exact .done a
  | cons q rest ih =>
    have hq := takes_after hp hend q (hrequests q List.mem_cons_self)
    exact hq.trans (ih (fun q' hq' => hrequests q' (List.mem_cons_of_mem q hq'))
      fun b hb => hp b (hq.pending_suffix.mem hb))

end Acquisition

end Waveform
