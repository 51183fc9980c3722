import Waveform.Proofs.RecordingHistory

/-!
# The pyramid of a logic recording

An entry of a logic pyramid holds the channels that change within its window.  `Signal.changedIn`
says so from the samples alone, and the pyramid of every reachable recording agrees with it at all
levels: it depends on the samples that are there, and not on how they got there.

## Key results

- `Signal.describes_changedIn`: the entry of a run is the union of the changes in it
- `Recording.reachable_ofLogic`: a recording made with its samples has a history
- `Recording.pyramid_determined`: the pyramid is a function of the samples
-/

namespace Waveform

variable {τ : Type}

namespace Signal

/-- The sample before a sample.  Before the first one all channels are low. -/
def previous (word : Nat → UInt64) : Nat → UInt64
  | 0 => 0
  | i + 1 => word i

/-- The channels that are at another level than just before in one of `n` samples. -/
def changedIn (word : Nat → UInt64) (first n : Nat) : UInt64 :=
  (List.range' first n).foldr (fun i changed => (word i ^^^ previous word i) ||| changed) 0

/-- The changes in two runs that meet are those in the run of both. -/
theorem changedIn_add (word : Nat → UInt64) (first m n : Nat) :
    changedIn word first (m + n) = changedIn word first m ||| changedIn word (first + m) n := by
  induction m generalizing first with
  | zero =>
    rw [Nat.zero_add]
    exact UInt64.zero_or.symm
  | succ m ih =>
    have hcons (n : Nat) : changedIn word first (n + 1) =
        (word first ^^^ previous word first) ||| changedIn word (first + 1) n := rfl
    rw [show m + 1 + n = m + n + 1 by omega, hcons, ih, hcons, UInt64.or_assoc,
      show first + 1 + m = first + (m + 1) by omega]

/-- A sample contributes the channels that changed at it. -/
theorem leaf_eq_changedIn (word : Nat → UInt64) (i : Nat) :
    leaf .logic word i = changedIn word i 1 := by
  cases i with
  | zero => exact (UInt64.xor_zero.symm.trans UInt64.or_zero.symm)
  | succ i => exact (UInt64.xor_comm _ _).trans UInt64.or_zero.symm

/-- An entry tells which channels change in its run. -/
theorem describes_changedIn (word : Nat → UInt64) :
    changes.Describes fun first n entry => entry = changedIn word first n where
  empty _ := rfl
  join first m n _ _ hleft hright := by
    rw [changedIn_add, ← hleft, ← hright]
    rfl

end Signal

/-- The entries of a logic pyramid, from the samples. -/
theorem Trace.Summed.entry_eq {t : Trace .logic} (h : t.Summed) {level index : Nat}
    {entry : UInt64} (hget : (t.pyramid.entries level)[index]? = some entry) :
    entry = Signal.changedIn t.samples.word (index * Pyramid.window level)
      (Pyramid.window level) :=
  Pyramid.Covers.entry (Signal.describes_changedIn t.samples.word) h
    (Signal.leaf_eq_changedIn t.samples.word) hget

namespace Recording

/-- A recording that is made with its samples could have been made empty and filled. -/
theorem reachable_ofLogic {rate width expected : Nat} {start : τ} {payload : ByteArray}
    {r : Recording τ .logic} (h : ofLogic rate width start expected payload = .ok r) :
    r.Reachable := by
  simp only [ofLogic, bind, Except.bind] at h
  split at h
  · exact nomatch h
  · rename_i fresh hfresh
    obtain ⟨⟨⟩, roomy, hreserve, hfill⟩ := Operation.bind_eq_ok.1 (Operation.after_eq_ok.1 h)
    have hroomy : roomy.Reachable :=
      (Reachable.startLogic hfresh).of_eq_ok (.reserve expected) hreserve
    exact hroomy.of_eq_ok (.appendLogic payload width) hfill

/-- A single append fills a recording without samples. -/
theorem appendLogic_fill {w : Width} (p : Packed w) {r : Recording τ .logic}
    (htrace : r.trace = .empty w trivial) (hcomplete : r.complete = false) :
    appendLogic p.bytes w.bytes r =
      .ok () { r with trace := .summarize ⟨w, trivial, p, .empty, 0⟩ } := by
  have happend : Packed.append p.bytes (.empty : Packed w) = .ok p.count p := by
    -- Appended to nothing, the bytes are those of the buffer.
    refine Packed.append_eq_ok.2 ⟨p.aligned, ?_, p.count_eq, ByteArray.empty_append.symm⟩
    show ByteArray.empty.size + p.bytes.size < Packed.byteLimit
    rw [ByteArray.size_empty, Nat.zero_add]
    exact p.bounded
  have hfill : Trace.append p.bytes (Trace.empty w trivial : Trace .logic) =
      .ok () (.summarize ⟨w, trivial, p, .empty, 0⟩) :=
    Trace.append_eq_ok.2 ⟨_, p, happend, rfl⟩
  rw [← htrace] at hfill
  refine appendLogic_eq_ok.2 ⟨by rw [htrace]; rfl, by rw [htrace]; exact p.aligned, hcomplete, _,
    hfill, rfl⟩

/-- Any samples can be put into a fresh recording in one go. -/
theorem ofLogic_samples {w : Width} (p : Packed w) {rate : Nat} (hrate : 0 < rate) (start : τ) :
    ∃ r, ofLogic rate w.bytes start 0 p.bytes = .ok r ∧ r.trace.samples.words = p.words := by
  let fresh : Recording τ .logic := ⟨rate, hrate, start, false, false, .empty w trivial⟩
  have hstart : startLogic rate w.bytes start = .ok fresh := by
    rw [startLogic, dif_pos hrate, Width.ofNat_bytes]
  -- No room is asked for, and none is needed.
  have hreserve : reserve 0 fresh = .ok () fresh := by
    refine reserve_eq_ok.2 ⟨Packed.reserve_eq_ok.2 ⟨?_, .inl ?_, rfl⟩, rfl⟩
    · rw [Nat.zero_mul]
      decide
    · rw [Nat.zero_mul]
      exact Nat.zero_le _
  let full : Recording τ .logic :=
    { fresh with trace := .summarize ⟨w, trivial, p, .empty, 0⟩ }
  have hfill : appendLogic p.bytes w.bytes fresh = .ok () full := appendLogic_fill p rfl rfl
  refine ⟨full, ?_, rfl⟩
  simp only [ofLogic, hstart, bind, Except.bind]
  exact Operation.after_eq_ok.2 (Operation.bind_eq_ok.2 ⟨(), fresh, hreserve, hfill⟩)

/-- Whatever was done to a logic recording, its pyramid is a function of its samples: a level has an
entry for every complete window, and the entry holds the channels that change in it.  So recordings
with the same samples have the same pyramid, be it one that was filled in a single step. -/
theorem pyramid_determined {r : Recording τ .logic} (h : r.Reachable) :
    (∀ level, level < 10 →
      r.trace.pyramid.size level = r.count / Pyramid.window level ∧
      ∀ index, index < r.trace.pyramid.size level →
        (r.trace.pyramid.entries level)[index]? =
          some (Signal.changedIn r.trace.samples.word (index * Pyramid.window level)
            (Pyramid.window level))) ∧
    (∀ r' : Recording τ .logic, r'.Reachable →
      r'.trace.samples.words = r.trace.samples.words → r'.trace.pyramid = r.trace.pyramid) ∧
    ∀ rate start, 0 < rate →
      ∃ fresh : Recording τ .logic,
        ofLogic rate r.trace.width.bytes start 0 r.trace.samples.bytes = .ok fresh ∧
        fresh.trace.samples.words = r.trace.samples.words ∧
        fresh.trace.pyramid = r.trace.pyramid := by
  have hsummed := h.summed
  have hsame : ∀ r' : Recording τ .logic, r'.Reachable →
      r'.trace.samples.words = r.trace.samples.words → r'.trace.pyramid = r.trace.pyramid :=
    fun r' h' hwords => h'.summed.pyramid_eq hsummed hwords
  refine ⟨fun level hlevel => ⟨Pyramid.Covers.size_eq hsummed hlevel, fun index hindex => ?_⟩,
    hsame, fun rate start hrate => ?_⟩
  · have hget := Array.getElem?_eq_getElem hindex
    exact hget.trans (congrArg some (hsummed.entry_eq hget))
  · obtain ⟨fresh, hfresh, hwords⟩ := ofLogic_samples r.trace.samples hrate start
    exact ⟨fresh, hfresh, hwords, hsame fresh (reachable_ofLogic hfresh) hwords⟩

end Recording

end Waveform
