import Waveform.Proofs.FrameRecords

/-!
# Blocks that are refused

A block that is refused is gone from the queue and leaves nothing else behind.  An acquisition that is to
take all blocks that wait stops at such a block, so that it has to be asked once more for each of them;
in the end it is where it would be if they had never been in the queue.

The proofs compare two runs.  The blocks that are taken between two refusals are taken one after the
other (`Acquisition.pushAll`), and what waits behind them makes no difference to that (`push_of_pending`).

## Key results

- `Acquisition.Follows.pushAll_ok`: blocks that are not refused are taken
- `Acquisition.runToEnd_of_refused`, `Acquisition.runToEnd_of_accepted`: a single call
- `Acquisition.refusals_skipped`: all calls, up to the one that comes to the end
-/

namespace Waveform

variable {τ : Type} {s : Settings}

/-! ## Refusals in a queue -/

namespace Block

/-- Whether an acquisition with given settings refuses a block. -/
def refused (s : Settings) (b : Block) : Bool :=
  (b.refusal s).isSome

/-- The number of samples in some blocks. -/
def countAll (blocks : List Block) : Nat :=
  blocks.foldr (fun b n => b.count + n) 0

/-- The blocks that are not refused. -/
def accepted (s : Settings) (blocks : List Block) : List Block :=
  blocks.filter fun b => !b.refused s

/-- The blocks behind the last one that is refused. -/
def behindRefused (s : Settings) (blocks : List Block) : List Block :=
  (blocks.reverse.takeWhile fun b => !b.refused s).reverse

/-- Of the blocks none is refused if each is accepted. -/
theorem countP_refused_eq_zero {blocks : List Block} :
    blocks.countP (refused s) = 0 ↔ ∀ b ∈ blocks, b.refused s = false := by
  simp [List.countP_eq_zero]

/-- Where no block is refused all are accepted. -/
theorem accepted_of_forall {blocks : List Block} (h : ∀ b ∈ blocks, b.refused s = false) :
    accepted s blocks = blocks :=
  List.filter_eq_self.2 fun b hb => by rw [h b hb]; rfl

/-- Where no block is refused all lie behind the last that was. -/
theorem behindRefused_of_forall {blocks : List Block} (h : ∀ b ∈ blocks, b.refused s = false) :
    behindRefused s blocks = blocks := by
  have hall : ∀ b ∈ blocks.reverse, (!b.refused s) = true := by
    intro b hb
    rw [h b (List.mem_reverse.1 hb)]
    rfl
  have htake : (blocks.reverse ++ []).takeWhile (fun b => !refused s b) = _ :=
    List.takeWhile_append_of_pos hall
  rw [List.append_nil, List.takeWhile_nil, List.append_nil] at htake
  rw [behindRefused, htake, List.reverse_reverse]

/-- Behind the last block that is refused lie those that follow it. -/
theorem behindRefused_append {before last : List Block} {b : Block} (hb : b.refused s = true)
    (hlast : ∀ x ∈ last, x.refused s = false) :
    behindRefused s (before ++ b :: last) = last := by
  have hall : ∀ x ∈ last.reverse, (!x.refused s) = true := by
    intro x hx
    rw [hlast x (List.mem_reverse.1 hx)]
    rfl
  rw [behindRefused, List.reverse_append, List.reverse_cons, List.append_assoc,
    List.takeWhile_append_of_pos hall, List.singleton_append,
    List.takeWhile_cons_of_neg (by simp [hb]), List.append_nil, List.reverse_reverse]

/-- None of the blocks is refused, or there is a last one that is. -/
theorem forall_or_exists_last (s : Settings) (blocks : List Block) :
    (∀ b ∈ blocks, b.refused s = false) ∨ ∃ before b last, blocks = before ++ b :: last ∧
      b.refused s = true ∧ ∀ x ∈ last, x.refused s = false := by
  induction blocks with
  | nil => exact .inl nofun
  | cons first rest ih =>
    rcases ih with hrest | ⟨before, b, last, rfl, hb, hlast⟩
    · cases hfirst : first.refused s with
      | true => exact .inr ⟨[], first, rest, rfl, hfirst, hrest⟩
      | false => exact .inl (List.forall_mem_cons.2 ⟨hfirst, hrest⟩)
    · exact .inr ⟨first :: before, b, last, rfl, hb, hlast⟩

/-- Behind the last block that is refused all blocks are accepted. -/
theorem accepted_append {before last : List Block} {b : Block} (hb : b.refused s = true)
    (hlast : ∀ x ∈ last, x.refused s = false) :
    accepted s (before ++ b :: last) = accepted s before ++ last := by
  have hnot : ¬ (!b.refused s) = true := by simp [hb]
  rw [accepted, List.filter_append, List.filter_cons, if_neg hnot]
  exact congrArg (accepted s before ++ ·) (accepted_of_forall hlast)

/-- The last block that is refused is one more than those before it. -/
theorem countP_append {before last : List Block} {b : Block} (hb : b.refused s = true)
    (hlast : ∀ x ∈ last, x.refused s = false) :
    (before ++ b :: last).countP (refused s) = before.countP (refused s) + 1 := by
  rw [List.countP_append, List.countP_cons_of_pos hb, countP_refused_eq_zero.2 hlast]

/-- A block that is not refused has no reason to be. -/
theorem refusal_eq_none {b : Block} (h : b.refused s = false) : b.refusal s = none :=
  Option.isSome_eq_false_iff.1 h |> Option.isNone_iff_eq_none.1

/-- The bytes of the samples in a block. -/
theorem size_eq {k : Signal} {b : Block} {new : List UInt64} (h : b.refusal s = none)
    (hnew : b.samples k = some new) : b.size = new.length * s.widthOf k := by
  -- Only a block of the kind has samples.
  cases b with
  | logic width payload =>
    cases k with
    | logic =>
      obtain ⟨hwidth, hwhole, -⟩ := refusal_logic_eq_none h
      cases hnew
      rw [LittleEndian.length_wordsOf, size, Settings.widthOf, ← hwidth]
      exact (Nat.div_mul_cancel (Nat.dvd_of_mod_eq_zero hwhole)).symm
    | analog => cases hnew
  | analog xs =>
    cases k with
    | logic => cases hnew
    | analog =>
      cases hnew
      rw [size, Settings.widthOf, List.length_map, Array.length_toList, Nat.mul_comm]
  | frameEnd => cases k <;> cases hnew

end Block

/-- The recordings of the current frame lie in the address space. -/
def Logbook.Roomy (s : Settings) (log : Logbook) : Prop :=
  ∀ k, ((samplesIn k log.current).getD []).length * s.widthOf k < Packed.byteLimit

/-- Where there is room for the samples of a block, there is room for the block. -/
theorem Logbook.Roomy.before {log : Logbook} {b : Block} (h : (log.enter b).Roomy s)
    (hrefusal : b.refusal s = none) {k : Signal} (hkind : b.kind = some k) :
    ((samplesIn k log.current).getD []).length * s.widthOf k + b.size < Packed.byteLimit := by
  obtain ⟨new, hnew⟩ : ∃ new, b.samples k = some new := by
    cases b <;> cases hkind <;> exact ⟨_, rfl⟩
  have henter : (log.enter b).current = log.current ++ [b] := by
    cases b <;> cases hkind <;> rfl
  have hroom := h k
  rw [henter, samplesIn_append, hnew, Option.getD_some, List.length_append, Nat.add_mul] at hroom
  rw [Block.size_eq hrefusal hnew]
  exact hroom

open Block

namespace Acquisition

/-! ## One block after the other -/

/-- The acquisition with another queue. -/
def withPending (a : Acquisition τ) (pending : List Block) : Acquisition τ :=
  { a with pending }

@[simp] theorem settings_withPending (a : Acquisition τ) (pending : List Block) :
    (a.withPending pending).settings = a.settings := rfl

@[simp] theorem pending_withPending (a : Acquisition τ) (pending : List Block) :
    (a.withPending pending).pending = pending := rfl

@[simp] theorem lane_withPending (a : Acquisition τ) (pending : List Block) (k : Signal) :
    (a.withPending pending).lane k = a.lane k := by
  cases k <;> rfl

/-- It does not matter whether a lane or the queue is replaced first. -/
theorem withLane_withPending {k : Signal} (a : Acquisition τ) (pending : List Block) (l : Lane τ k) :
    (a.withPending pending).withLane l = (a.withLane l).withPending pending := by
  cases k <;> rfl

variable [Clock τ] {a a' : Acquisition τ}

/-- Takes blocks one after the other and returns the number of samples in them. -/
def pushAll : List Block → Step τ Nat
  | [] => return 0
  | b :: rest => do
    let n ← push b
    return n + (← pushAll rest)

/-- What waits in the queue makes no difference to a block that is taken. -/
theorem push_of_pending {b : Block} {n : Nat} (h : push b a = .ok n a') (pending : List Block) :
    push b (a.withPending pending) = .ok n (a'.withPending pending) := by
  -- A push does not look at the queue.
  cases hrefusal : b.refusal a.settings with
  | some r => exact nomatch h.symm.trans (push_of_refusal hrefusal)
  | none =>
    rcases b.frameEnd_or_writes hrefusal a.frameStart with rfl | ⟨k, w, new, -, hwriter, -⟩
    · rw [push_frameEnd] at h
      cases h
      exact push_frameEnd _
    · have hsame : b.writer (a.withPending pending).settings (a.withPending pending).frameStart k =
          some w := hwriter
      rw [push_of_writer hwriter hrefusal] at h
      rw [push_of_writer hsame hrefusal, settings_withPending, lane_withPending]
      cases hwrite : Lane.write w a.settings.expected (a.lane k) with
      | ok u l =>
        rw [hwrite] at h
        cases h
        simp only [withLane_withPending]
      | error v l =>
        rw [hwrite] at h
        cases h

/-- Taking the next block that waits is handing it in with the others still waiting. -/
theorem pump_cons (a : Acquisition τ) (b : Block) (rest : List Block) :
    pump (a.withPending (b :: rest)) =
      match push b (a.withPending rest) with
      | .ok n a' => .ok (some n) a'
      | .error f a' => .error f a' :=
  pump_eq _

/-- Handing in blocks does not depend on the queue. -/
theorem pushAll_of_pending {blocks : List Block} {n : Nat} (h : pushAll blocks a = .ok n a')
    (pending : List Block) : pushAll blocks (a.withPending pending) = .ok n (a'.withPending pending) := by
  induction blocks generalizing a n with
  | nil =>
    cases h
    rfl
  | cons b rest ih =>
    obtain ⟨m, a₁, hpush, hrest⟩ := Operation.bind_eq_ok.1 h
    obtain ⟨m', a₂, hall, hpure⟩ := Operation.bind_eq_ok.1 hrest
    cases hpure
    exact Operation.bind_eq_ok.2 ⟨m, _, push_of_pending hpush pending,
      Operation.bind_eq_ok.2 ⟨m', _, ih hall, rfl⟩⟩

/-- A block that is taken leaves the settings alone. -/
theorem settings_push {b : Block} {n : Nat} (h : push b a = .ok n a') :
    a'.settings = a.settings := by
  rcases push_cases b a with ⟨r, -, hpush⟩ | rfl | ⟨k, w, new, -, -, -, -, -, hpush⟩
  · exact nomatch h.symm.trans hpush
  · rw [push_frameEnd] at h
    cases h
    rfl
  · rw [hpush] at h
    split at h
    · cases h
      cases k <;> rfl
    · cases h

/-- Blocks that are taken leave the settings alone, and are counted. -/
theorem settings_pushAll {blocks : List Block} {n : Nat} (h : pushAll blocks a = .ok n a') :
    a'.settings = a.settings ∧ n = countAll blocks := by
  induction blocks generalizing a n with
  | nil =>
    cases h
    exact ⟨rfl, rfl⟩
  | cons b rest ih =>
    obtain ⟨m, a₁, hpush, hrest⟩ := Operation.bind_eq_ok.1 h
    obtain ⟨m', a₂, hall, hpure⟩ := Operation.bind_eq_ok.1 hrest
    cases hpure
    obtain ⟨hsettings, rfl⟩ := ih hall
    obtain rfl := count_of_push hpush
    exact ⟨hsettings.trans (settings_push hpush), rfl⟩

/-- Blocks are taken one after the other, the first ones first. -/
theorem pushAll_append {blocks blocks' : List Block} {n : Nat}
    (h : pushAll (blocks ++ blocks') a = .ok n a') :
    ∃ m m' a₁, pushAll blocks a = .ok m a₁ ∧ pushAll blocks' a₁ = .ok m' a' ∧ n = m + m' := by
  induction blocks generalizing a n with
  | nil => exact ⟨0, n, a, rfl, h, (Nat.zero_add n).symm⟩
  | cons b rest ih =>
    obtain ⟨m, a₁, hpush, hrest⟩ := Operation.bind_eq_ok.1 h
    obtain ⟨m', a₂, hall, hpure⟩ := Operation.bind_eq_ok.1 hrest
    cases hpure
    obtain ⟨l, l', a₃, hfirst, hlater, rfl⟩ := ih hall
    exact ⟨m + l, l', a₃, Operation.bind_eq_ok.2 ⟨m, a₁, hpush,
      Operation.bind_eq_ok.2 ⟨l, a₃, hfirst, rfl⟩⟩, hlater, by omega⟩

/-- A queue that starts with blocks that are taken. -/
theorem pumpMany_of_pushAll {blocks rest : List Block} {n : Nat} (h : pushAll blocks a = .ok n a')
    (m : Nat) :
    pumpMany (blocks.length + m) (a.withPending (blocks ++ rest)) =
      match pumpMany m (a'.withPending rest) with
      | .ok m' a'' => .ok (n + m') a''
      | .error f a'' => .error f a'' := by
  -- On the blocks: a pump takes the first of the queue, as the push does of the list.
  induction blocks generalizing a n with
  | nil =>
    cases h
    rw [List.length_nil, Nat.zero_add, List.nil_append]
    cases pumpMany m (a'.withPending rest) <;> simp only [Nat.zero_add]
  | cons b blocks ih =>
    obtain ⟨l, a₁, hpush, hrest⟩ := Operation.bind_eq_ok.1 h
    obtain ⟨l', a₂, hall, hpure⟩ := Operation.bind_eq_ok.1 hrest
    cases hpure
    have hpump : pump (a.withPending (b :: blocks ++ rest)) =
        .ok (some l) (a₁.withPending (blocks ++ rest)) := by
      rw [List.cons_append, pump_cons, push_of_pending hpush]
    rw [List.length_cons, Nat.add_right_comm, pumpMany]
    simp only [bind, EStateM.bind, hpump, ih hall]
    cases pumpMany m (a'.withPending rest) with
    | ok m' a'' => simp [pure, EStateM.pure, Nat.add_assoc]
    | error f a'' => rfl

/-! ## A call -/

/-- A call that meets a block that is refused ends there, with the blocks before it taken. -/
theorem runToEnd_of_refused {blocks rest : List Block} {n : Nat} (h : pushAll blocks a = .ok n a')
    {b : Block} {r : Rejection} (hb : b.refusal a.settings = some r) :
    runToEnd (a.withPending (blocks ++ b :: rest)) = .error (.rejected r) (a'.withPending rest) := by
  have hrefusal : b.refusal (a'.withPending rest).settings = some r := by
    rw [settings_withPending, (settings_pushAll h).1]
    exact hb
  -- The blocks before are taken one by one, and the next pump meets the refused one.
  have hpump : pump (a'.withPending (b :: rest)) = .error (.rejected r) (a'.withPending rest) := by
    rw [pump_cons, push_of_refusal hrefusal]
  have hrest : pumpMany (rest.length + 1) (a'.withPending (b :: rest)) =
      .error (.rejected r) (a'.withPending rest) := by
    rw [pumpMany]
    simp only [bind, EStateM.bind, hpump]
  have hmany : pumpMany (blocks ++ b :: rest).length (a.withPending (blocks ++ b :: rest)) =
      .error (.rejected r) (a'.withPending rest) := by
    rw [List.length_append, List.length_cons, pumpMany_of_pushAll h, hrest]
  rw [runToEnd, Operation.get_bind_eq]
  simp only [bind, EStateM.bind, pending_withPending, hmany]

/-- A call that meets none takes all blocks and ends the frame. -/
theorem runToEnd_of_accepted {blocks : List Block} {n : Nat} (h : pushAll blocks a = .ok n a') :
    runToEnd (a.withPending blocks) = .ok n (Step.leaves endFrame (a'.withPending [])) := by
  have hmany : pumpMany blocks.length (a.withPending blocks) = .ok n (a'.withPending []) := by
    have hall : pumpMany (blocks.length + 0) (a.withPending (blocks ++ [])) = _ :=
      pumpMany_of_pushAll h 0
    rw [List.append_nil] at hall
    exact hall
  rw [runToEnd, Operation.get_bind_eq]
  simp only [bind, EStateM.bind, pending_withPending, hmany]
  rfl

/-! ## All calls -/

/-- The acquisition after a number of calls to take all blocks that wait. -/
def calls (n : Nat) (a : Acquisition τ) : Acquisition τ :=
  run (List.replicate n .runToEnd) a

/-- One more call comes after the others. -/
theorem calls_succ (n : Nat) (a : Acquisition τ) :
    calls (n + 1) a = Step.leaves runToEnd (calls n a) := by
  rw [calls, List.replicate_succ', run, List.foldl_append]
  rfl

/-- A block that is refused is met by the call after those that have met the ones before it. -/
theorem calls_refused {pending before rest : List Block} {b : Block} {r : Rejection}
    (hpending : pending = before ++ b :: rest) (hb : b.refusal a.settings = some r) {n : Nat}
    (h : pushAll (accepted a.settings before) a = .ok n a') :
    runToEnd (calls (before.countP (refused a.settings)) (a.withPending pending)) =
      .error (.rejected r) (a'.withPending rest) := by
  -- On the number of refused blocks before: as many calls have ended at one of them.
  induction hcount : before.countP (refused a.settings) generalizing before b rest r n a' with
  | zero =>
    rw [accepted_of_forall (countP_refused_eq_zero.1 hcount)] at h
    -- None was refused, so the first call gets here.
    rw [hpending]
    exact runToEnd_of_refused h hb
  | succ c ih =>
    rcases forall_or_exists_last a.settings before with hnone | ⟨before, b₁, between, rfl, hb₁, hbetween⟩
    · rw [countP_refused_eq_zero.2 hnone] at hcount
      omega
    · -- The call before met the last block that was refused, and left those between it and this one.
      rw [countP_append hb₁ hbetween] at hcount
      rw [accepted_append hb₁ hbetween] at h
      obtain ⟨m, m', a₁, hfirst, hlater, -⟩ := pushAll_append h
      obtain ⟨r₁, hr₁⟩ := Option.isSome_iff_exists.1 hb₁
      rw [List.append_assoc, List.cons_append] at hpending
      have hcall := ih hpending hr₁ hfirst (Nat.succ.inj hcount)
      rw [calls_succ, Step.leaves_of_eq_error hcall]
      exact runToEnd_of_refused hlater ((settings_pushAll hfirst).1 ▸ hb)

/-- The call after those that have met all blocks that are refused takes those behind them. -/
theorem calls_accepted {pending : List Block} {n : Nat}
    (h : pushAll (accepted a.settings pending) a = .ok n a') :
    runToEnd (calls (pending.countP (refused a.settings)) (a.withPending pending)) =
      .ok (countAll (behindRefused a.settings pending)) (Step.leaves endFrame (a'.withPending [])) := by
  -- The last call takes what stands behind the last refused block, and ends the frame.
  rcases forall_or_exists_last a.settings pending with hnone | ⟨before, b, last, hpending, hb, hlast⟩
  · rw [accepted_of_forall hnone] at h
    obtain ⟨-, rfl⟩ := settings_pushAll h
    rw [countP_refused_eq_zero.2 hnone, behindRefused_of_forall hnone]
    exact runToEnd_of_accepted h
  · rw [hpending, accepted_append hb hlast] at h
    obtain ⟨m, m', a₁, hfirst, hlater, -⟩ := pushAll_append h
    obtain ⟨-, rfl⟩ := settings_pushAll hlater
    obtain ⟨r, hr⟩ := Option.isSome_iff_exists.1 hb
    have hcall := calls_refused hpending hr hfirst
    rw [hpending, countP_append hb hlast, behindRefused_append hb hlast, ← hpending, calls_succ,
      Step.leaves_of_eq_error hcall]
    exact runToEnd_of_accepted hlater

/-! ## Room for what is accepted -/

/-- As long as there is room, blocks that are not refused are taken. -/
theorem Follows.pushAll_ok {log : Logbook} (h : a.Follows s log) (hrate : 0 < s.rate)
    (hexpected : ∀ k, s.expected * s.widthOf k < Packed.byteLimit) {blocks : List Block}
    (hblocks : ∀ b ∈ blocks, b.refused s = false)
    (hroom : ∀ n ≤ blocks.length, ((blocks.take n).foldl Logbook.enter log).Roomy s) :
    ∃ n a', pushAll blocks a = .ok n a' := by
  induction blocks generalizing a log with
  | nil => exact ⟨0, a, rfl⟩
  | cons b rest ih =>
    obtain ⟨hb, hrest⟩ := List.forall_mem_cons.1 hblocks
    have hrefusal := refusal_eq_none hb
    obtain ⟨a₁, hpush⟩ := h.push_ok_of_kind hrate hexpected hrefusal fun k hkind =>
      Logbook.Roomy.before (hroom 1 (by simp)) hrefusal hkind
    obtain ⟨n, a', hall⟩ := ih (h.push hpush) hrest fun n hn =>
      hroom (n + 1) (Nat.succ_le_succ hn)
    exact ⟨_, a', Operation.bind_eq_ok.2 ⟨_, a₁, hpush, Operation.bind_eq_ok.2 ⟨n, a', hall, rfl⟩⟩⟩

/-- A block that is refused is skipped without a trace.  Asked to take all blocks that wait, an acquisition
meets the blocks that it refuses one by one: each of the first calls ends at one of them, with the blocks
before it taken and the frame still open.  The next call takes what is left.  Then the acquisition is the
one that would have come of a single call if only the other blocks had waited.  Nor does a block that is
refused change anything when it is handed in directly. -/
theorem refusals_skipped {pending : List Block} (hstart : start pending s = .ok a)
    (hexpected : ∀ k, s.expected * s.widthOf k < Packed.byteLimit)
    (hroom : ∀ n ≤ (accepted s pending).length, (Logbook.of ((accepted s pending).take n)).Roomy s) :
    (∃ a₀ a' total, start (accepted s pending) s = .ok a₀ ∧ runToEnd a₀ = .ok total a' ∧
      (∀ before b rest r, pending = before ++ b :: rest → b.refusal s = some r →
        ∃ n a₁, pushAll (accepted s before) a₀ = .ok n a₁ ∧
          runToEnd (calls (before.countP (refused s)) a) =
            .error (.rejected r) (a₁.withPending rest)) ∧
      runToEnd (calls (pending.countP (refused s)) a) =
        .ok (countAll (behindRefused s pending)) a') ∧
    ∀ (a a' : Acquisition τ) (b : Block) (r : Rejection),
      push b a = .error (.rejected r) a' → a' = a ∧ b.refusal a.settings = some r := by
  constructor
  · -- The run without the refused blocks pushes all it is given; what the calls do is told by it.
    obtain ⟨hfollows, hqueue, hrate⟩ := follows_of_start hstart
    have hsettings : a.settings = s := hfollows.settings
    have hself : a.withPending pending = a := by
      rw [← hqueue]
      rfl
    have hnone : ∀ b ∈ accepted s pending, b.refused s = false := fun b hb => by
      simpa using (List.mem_filter.1 hb).2
    obtain ⟨total, a₁, hall⟩ := hfollows.pushAll_ok hrate hexpected hnone hroom
    refine ⟨a.withPending (accepted s pending), _, total, ?_, runToEnd_of_accepted hall, ?_, ?_⟩
    · unfold start at hstart ⊢
      split at hstart
      · cases hstart
        rfl
      · cases hstart
    · intro before b rest r hpending hr
      -- What is accepted before the block is a front part of what is accepted at all.
      have hpart : accepted s pending = accepted s before ++ accepted s (b :: rest) := by
        rw [hpending]
        exact List.filter_append ..
      rw [hpart] at hall ⊢
      obtain ⟨n, m, a₂, hbefore, -, -⟩ := pushAll_append hall
      refine ⟨n, _, pushAll_of_pending hbefore _, ?_⟩
      subst hsettings
      have hcall := calls_refused hpending hr hbefore
      rw [hself] at hcall
      exact hcall
    · subst hsettings
      have hcall := calls_accepted hall
      rw [hself] at hcall
      exact hcall
  · intro a a' b r hpush
    -- Only the checks of a block reject it, and they come before any change.
    rcases push_cases b a with ⟨r', hrefusal, hsame⟩ | rfl | ⟨k, w, new, -, -, -, -, -, hwritten⟩
    · cases hpush.symm.trans hsame
      exact ⟨rfl, hrefusal⟩
    · cases hpush
    · rw [hwritten] at hpush
      split at hpush <;> cases hpush

/-- Three blocks are refused, each for another reason, before and after the end of a frame. -/
theorem refusals_skipped_three_times :
    let s : Settings := ⟨16, 4, 64, ⟨0x43800000⟩⟩
    let half : Binary32 := ⟨0x3f000000⟩
    let pending : List Block := [.logic 1 ⟨#[1, 2]⟩, .logic 9 ⟨#[0]⟩, .analog #[half], .frameEnd,
      .logic 1 ⟨#[3]⟩, .logic 2 ⟨#[0, 0, 0]⟩, .logic 2 ⟨#[0, 0]⟩, .logic 1 ⟨#[4, 5]⟩]
    let a : Acquisition Rat := ⟨s, pending, .empty, .empty, Clock.zero⟩
    start pending s = .ok a ∧
    ∃ a₀ a' total a₁ a₂ a₃, start (accepted s pending) s = .ok a₀ ∧ runToEnd a₀ = .ok total a' ∧
      runToEnd (calls 0 a) = .error (.rejected (.widthOutOfRange 9)) a₁ ∧
      runToEnd (calls 1 a) = .error (.rejected (.raggedPayload 3 2)) a₂ ∧
      runToEnd (calls 2 a) = .error (.rejected (.widthMismatch 1 2)) a₃ ∧
      runToEnd (calls 3 a) = .ok 2 a' := by
  intro s half pending a
  have hstart : start pending s = .ok a := rfl
  have hexpected : ∀ k, s.expected * s.widthOf k < Packed.byteLimit := by
    intro k
    cases k <;> decide
  -- Few bytes come together in a frame here.
  have hroom : ∀ n ≤ (accepted s pending).length,
      (Logbook.of ((accepted s pending).take n)).Roomy s := by
    have hsmall : ∀ n ≤ (accepted s pending).length,
        let log := Logbook.of ((accepted s pending).take n)
        ((samplesIn .logic log.current).getD []).length * s.widthOf .logic < Packed.byteLimit ∧
        ((samplesIn .analog log.current).getD []).length * s.widthOf .analog < Packed.byteLimit := by
      decide +kernel
    intro n hn k
    cases k
    · exact (hsmall n hn).1
    · exact (hsmall n hn).2
  -- Each call meets the next refused block.
  obtain ⟨⟨a₀, a', total, haccepted, hall, hrefused, hrest⟩, -⟩ :=
    refusals_skipped hstart hexpected hroom
  obtain ⟨-, a₁, -, h₁⟩ := hrefused (pending.take 1) _ (pending.drop 2) (.widthOutOfRange 9) rfl rfl
  obtain ⟨-, a₂, -, h₂⟩ := hrefused (pending.take 5) _ (pending.drop 6) (.raggedPayload 3 2) rfl rfl
  have hmismatch : (Block.logic 2 ⟨#[0, 0]⟩).refusal s = some (.widthMismatch 1 2) := by
    have hwidth : s.sampleWidth = 1 := by decide
    have hvalid : (Block.logic 2 ⟨#[0, 0]⟩).validate = .ok () := rfl
    simp [refusal, hvalid, hwidth]
  obtain ⟨-, a₃, -, h₃⟩ := hrefused (pending.take 6) _ (pending.drop 7) _ rfl hmismatch
  have hcounts : (pending.take 1).countP (refused s) = 0 ∧ (pending.take 5).countP (refused s) = 1 ∧
      (pending.take 6).countP (refused s) = 2 ∧ pending.countP (refused s) = 3 ∧
      countAll (behindRefused s pending) = 2 := by decide +kernel
  obtain ⟨hfirst, hsecond, hthird, hcalls, hcount⟩ := hcounts
  rw [hfirst] at h₁
  rw [hsecond] at h₂
  rw [hthird] at h₃
  rw [hcalls, hcount] at hrest
  exact ⟨hstart, a₀, a', total, _, _, _, haccepted, hall, h₁, h₂, h₃, hrest⟩

end Acquisition

end Waveform
