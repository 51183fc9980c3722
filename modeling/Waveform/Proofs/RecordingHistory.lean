import Waveform.Proofs.PackedSamples
import Waveform.Proofs.PyramidGrowth
import Waveform.Timeline.Recording

/-!
# The history of a recording

A recording starts empty and changes by calls that append samples, make room, remove samples or
complete it.  Any of them may break its contract, which leaves the recording as it was.
`Recording.Reachable` are the recordings that such calls can lead to, in any order.

Along every history the pyramid sums up exactly the samples that are there (`Trace.Summed`).  Calls
other than a removal only add samples at the end (`Trace.Extends`).

## Key results

- `Edit.atomic`: a call that breaks its contract changes nothing
- `Edit.step`: what a call that keeps its contract does to the trace
- `Reachable.summed`: the pyramid of a recording sums up its samples
-/

namespace Waveform

variable {τ : Type} {k : Signal}

/-- A call that may change a recording. -/
inductive Edit : Signal → Type where
  | appendLogic (payload : ByteArray) (width : Nat) : Edit .logic
  | appendAnalog (xs : Array Binary32) : Edit .analog
  | reserve {k : Signal} (expected : Nat) : Edit k
  | remove {k : Signal} (first stop : Nat) : Edit k
  | finish {k : Signal} : Edit k

/-- Carries out a call. -/
def Edit.run : {k : Signal} → Edit k → Operation (Recording τ k) Unit
  | _, .appendLogic payload width => Recording.appendLogic payload width
  | _, .appendAnalog xs => Recording.appendAnalog xs
  | _, .reserve expected => Recording.reserve expected
  | _, .remove first stop => Recording.remove first stop
  | _, .finish => Recording.finish

/-- The recordings that calls can lead to, those that break their contract included. -/
inductive Recording.Reachable : {k : Signal} → Recording τ k → Prop where
  | startLogic {rate width : Nat} {start : τ} {r : Recording τ .logic}
      (h : Recording.startLogic rate width start = .ok r) : Reachable r
  | startAnalog {rate : Nat} {start : τ} {r : Recording τ .analog}
      (h : Recording.startAnalog rate start = .ok r) : Reachable r
  | edit {k : Signal} {r : Recording τ k} (e : Edit k) (h : Reachable r) :
      Reachable (e.run.leaves r)

namespace Trace

/-- The pyramid sums up the samples. -/
def Summed (t : Trace k) : Prop :=
  t.pyramid.Covers k.summary (k.leaf t.samples.word) t.count

/-- The samples of `t` are the first ones of `t'`, and none was removed in between. -/
structure Extends (t t' : Trace k) : Prop where
  removals_eq : t'.removals = t.removals
  count_le : t.count ≤ t'.count
  word_eq : ∀ i, i < t.count → t'.samples.word i = t.samples.word i

/-- A trace extends itself. -/
theorem Extends.refl (t : Trace k) : t.Extends t :=
  ⟨rfl, Nat.le_refl _, fun _ _ => rfl⟩

/-- What a sample contributes depends on the samples up to it alone. -/
theorem leaf_congr {word word' : Nat → UInt64} {n : Nat} (h : ∀ i, i < n → word i = word' i)
    {i : Nat} (hi : i < n) : k.leaf word i = k.leaf word' i := by
  cases k with
  | logic =>
    -- A logic leaf looks at two samples, except for the first.
    cases i with
    | zero => exact h 0 hi
    | succ i =>
      have hbefore : word i = word' i := h i (by omega)
      have hat : word (i + 1) = word' (i + 1) := h (i + 1) hi
      show word i ^^^ word (i + 1) = word' i ^^^ word' (i + 1)
      rw [hbefore, hat]
  | analog =>
    have hat : word i = word' i := h i hi
    show Extent.ofSample ⟨(word i).toUInt32⟩ = Extent.ofSample ⟨(word' i).toUInt32⟩
    rw [hat]

/-- The pyramid over no samples sums them up. -/
theorem summed_empty (width : Width) (admitted : k.Admits width) :
    (empty width admitted).Summed := by
  have hcount : (empty width admitted : Trace k).count = 0 := rfl
  unfold Summed
  rw [hcount]
  exact Pyramid.covers_empty _

/-- Samples that read alike have the same pyramid. -/
theorem Summed.pyramid_eq {t t' : Trace k} (h : t.Summed) (h' : t'.Summed)
    (hwords : t.samples.words = t'.samples.words) : t.pyramid = t'.pyramid := by
  obtain ⟨hcount, hword⟩ := Packed.word_eq_of_words hwords
  have hsame : t.pyramid.Covers k.summary (k.leaf t'.samples.word) t'.count := by
    unfold count
    rw [← hcount]
    exact h.congr fun i hi => leaf_congr hword hi
  exact hsame.unique h'

/-! ## Operations on the samples of a trace -/

/-- An operation on the samples changes nothing else. -/
theorem onSamples_eq_ok {α : Type} {act : {w : Width} → Operation (Packed w) α} {t t' : Trace k}
    {a : α} : onSamples act t = .ok a t' ↔
      ∃ p, act t.samples = .ok a p ∧ t' = { t with samples := p } := by
  obtain ⟨width, admitted, samples, pyramid, removals⟩ := t
  simp only [onSamples]
  constructor
  · intro h
    split at h
    · cases h
      exact ⟨_, ‹_›, rfl⟩
    · exact nomatch h
  · intro hparts
    obtain ⟨p, hp, rfl⟩ := hparts
    rw [hp]

/-- An operation on the samples is atomic on the trace if it is so on them. -/
theorem atomic_onSamples {α : Type} {act : {w : Width} → Operation (Packed w) α}
    (hact : ∀ w, Operation.Atomic (act (w := w))) :
    Operation.Atomic (onSamples act : Operation (Trace k) α) := by
  rintro ⟨width, admitted, samples, pyramid, removals⟩ v t' h
  simp only [onSamples] at h
  split at h
  · exact nomatch h
  · rename_i hfail
    cases h
    rw [hact _ _ _ _ hfail]

/-- Samples that cannot be appended leave the trace as it was. -/
theorem atomic_append (payload : ByteArray) :
    Operation.Atomic (append payload : Operation (Trace k) Unit) :=
  .bind_total (atomic_onSamples fun _ => Packed.atomic_append payload) fun _ _ _ _ h => nomatch h

/-- Samples that cannot be removed leave the trace as it was. -/
theorem atomic_remove (first stop : Nat) :
    Operation.Atomic (remove first stop : Operation (Trace k) Unit) :=
  .bind_total (atomic_onSamples fun _ => Packed.atomic_remove first stop) fun _ _ _ _ h => nomatch h

/-- Appending puts whole samples behind those that are there. -/
theorem append_eq_ok {payload : ByteArray} {t t' : Trace k} :
    append payload t = .ok () t' ↔
      ∃ added p, Packed.append payload t.samples = .ok added p ∧
        t' = summarize { t with samples := p } := by
  constructor
  · intro h
    obtain ⟨added, _, hsamples, h⟩ := Operation.bind_eq_ok.1 h
    obtain ⟨p, hp, rfl⟩ := onSamples_eq_ok.1 hsamples
    cases h
    exact ⟨added, p, hp, rfl⟩
  · intro hparts
    obtain ⟨added, p, hp, rfl⟩ := hparts
    exact Operation.bind_eq_ok.2 ⟨added, _, onSamples_eq_ok.2 ⟨p, hp, rfl⟩, rfl⟩

/-- Appending keeps the pyramid up with the samples. -/
theorem append_step {payload : ByteArray} {t t' : Trace k} (h : append payload t = .ok () t') :
    t.Extends t' ∧ (t.Summed → t'.Summed) := by
  obtain ⟨_, p, hp, rfl⟩ := append_eq_ok.1 h
  obtain ⟨-, -, -, hbytes⟩ := Packed.append_eq_ok.1 hp
  have hword : ∀ i, i < t.count → p.word i = t.samples.word i :=
    fun i => Packed.word_eq_of_append hbytes
  have hle : t.count ≤ p.count := Packed.count_le_of_append hbytes
  refine ⟨⟨rfl, hle, hword⟩, fun hsummed => ?_⟩
  -- Over the samples that were there the pyramid is up to date, and it grows over the others.
  have hsame : t.pyramid.Covers k.summary (k.leaf p.word) t.count :=
    hsummed.congr fun i hi => leaf_congr (fun j hj => (hword j hj).symm) hi
  exact hsame.grow hle

/-- Removing counts itself and builds the pyramid anew. -/
theorem remove_eq_ok {first stop : Nat} {t t' : Trace k} (h : remove first stop t = .ok () t') :
    t'.removals = t.removals + 1 ∧ t'.Summed ∧
      ∃ range : SampleRange t.count, range.first = first ∧ range.stop = stop ∧
        t'.samples.bytes = (t.samples.without range).bytes := by
  obtain ⟨_, _, hsamples, h⟩ := Operation.bind_eq_ok.1 h
  obtain ⟨p, hp, rfl⟩ := onSamples_eq_ok.1 hsamples
  obtain ⟨range, hfirst, hstop, rfl⟩ := Packed.remove_eq_ok hp
  cases h
  exact ⟨rfl, (Pyramid.covers_empty _).grow (Nat.zero_le _), range, hfirst, hstop, rfl⟩

end Trace

namespace Recording

/-! ## Calls on a recording -/

/-- An operation on the trace changes nothing else. -/
theorem onTrace_eq_ok {α : Type} {act : Operation (Trace k) α} {r r' : Recording τ k} {a : α} :
    onTrace act r = .ok a r' ↔ ∃ t, act r.trace = .ok a t ∧ r' = { r with trace := t } := by
  obtain ⟨rate, rate_pos, startTime, complete, live, trace⟩ := r
  simp only [onTrace]
  constructor
  · intro h
    split at h
    · cases h
      exact ⟨_, ‹_›, rfl⟩
    · exact nomatch h
  · intro hparts
    obtain ⟨t, ht, rfl⟩ := hparts
    rw [ht]

/-- An operation on the trace is atomic on the recording if it is so on the trace. -/
theorem atomic_onTrace {α : Type} {act : Operation (Trace k) α} (hact : Operation.Atomic act) :
    Operation.Atomic (onTrace act : Operation (Recording τ k) α) := by
  rintro ⟨rate, rate_pos, startTime, complete, live, trace⟩ v r' h
  simp only [onTrace] at h
  split at h
  · exact nomatch h
  · rename_i hfail
    cases h
    rw [hact _ _ _ hfail]

/-- Making room changes nothing that can be seen. -/
theorem reserve_eq_ok {expected : Nat} {r r' : Recording τ k} :
    reserve expected r = .ok () r' ↔
      Packed.reserve expected r.trace.samples = .ok () r.trace.samples ∧ r' = r := by
  constructor
  · intro h
    obtain ⟨t, ht, rfl⟩ := onTrace_eq_ok.1 h
    obtain ⟨p, hp, rfl⟩ := Trace.onSamples_eq_ok.1 ht
    obtain ⟨-, -, rfl⟩ := Packed.reserve_eq_ok.1 hp
    exact ⟨hp, rfl⟩
  · intro hparts
    obtain ⟨hp, rfl⟩ := hparts
    exact onTrace_eq_ok.2 ⟨_, Trace.onSamples_eq_ok.2 ⟨_, hp, rfl⟩, rfl⟩

/-- Logic samples are appended if they pass all tests and there is room. -/
theorem appendLogic_eq_ok {payload : ByteArray} {width : Nat} {r r' : Recording τ .logic} :
    appendLogic payload width r = .ok () r' ↔
      width = r.trace.width.bytes ∧ payload.size % r.trace.width.bytes = 0 ∧
        r.complete = false ∧
        ∃ t, Trace.append payload r.trace = .ok () t ∧ r' = { r with trace := t } := by
  -- Three tests come before the trace is touched.
  rw [appendLogic, Operation.get_bind_eq, Operation.require_bind_eq_ok,
    Operation.require_bind_eq_ok, Operation.require_bind_eq_ok, onTrace_eq_ok]

/-- Numbers are appended if the recording goes on and there is room. -/
theorem appendAnalog_eq_ok {xs : Array Binary32} {r r' : Recording τ .analog} :
    appendAnalog xs r = .ok () r' ↔
      r.complete = false ∧
        ∃ t, Trace.append (Binary32.encode xs) r.trace = .ok () t ∧ r' = { r with trace := t } := by
  rw [appendAnalog, Operation.get_bind_eq, Operation.require_bind_eq_ok, onTrace_eq_ok]

end Recording

namespace Edit

/-- A call that breaks its contract changes nothing. -/
theorem atomic (e : Edit k) : Operation.Atomic (e.run : Operation (Recording τ k) Unit) := by
  -- Everything that can fail comes before the change.
  cases e with
  | appendLogic payload width =>
    exact .get_bind fun _ => .bind (.lift _) (.lift _) fun _ => .bind (.lift _) (.lift _) fun _ =>
      .bind (.lift _) (.lift _) fun _ => Recording.atomic_onTrace (Trace.atomic_append payload)
  | appendAnalog xs =>
    exact .get_bind fun _ => .bind (.lift _) (.lift _) fun _ =>
      Recording.atomic_onTrace (Trace.atomic_append _)
  | reserve expected =>
    exact Recording.atomic_onTrace
      (Trace.atomic_onSamples fun _ => Packed.atomic_reserve expected)
  | remove first stop => exact Recording.atomic_onTrace (Trace.atomic_remove first stop)
  | finish => exact fun _ _ _ h => nomatch h

/-- A call that keeps its contract removes samples, or only adds some at the end. -/
theorem step {e : Edit k} {r r' : Recording τ k} (h : e.run r = .ok () r') :
    (r.trace.Summed → r'.trace.Summed) ∧
      ((∃ first stop, e = .remove first stop ∧ r'.trace.removals = r.trace.removals + 1) ∨
        r.trace.Extends r'.trace) := by
  -- Only a removal counts up; an append extends the trace, and the others leave it.
  cases e with
  | appendLogic payload width =>
    obtain ⟨-, -, -, t, ht, rfl⟩ := Recording.appendLogic_eq_ok.1 h
    obtain ⟨hextends, hsummed⟩ := Trace.append_step ht
    exact ⟨hsummed, .inr hextends⟩
  | appendAnalog xs =>
    obtain ⟨-, t, ht, rfl⟩ := Recording.appendAnalog_eq_ok.1 h
    obtain ⟨hextends, hsummed⟩ := Trace.append_step ht
    exact ⟨hsummed, .inr hextends⟩
  | reserve expected =>
    obtain ⟨-, rfl⟩ := Recording.reserve_eq_ok.1 h
    exact ⟨id, .inr (.refl _)⟩
  | remove first stop =>
    obtain ⟨t, ht, rfl⟩ := Recording.onTrace_eq_ok.1 h
    obtain ⟨hremovals, hsummed, -⟩ := Trace.remove_eq_ok ht
    exact ⟨fun _ => hsummed, .inl ⟨first, stop, rfl, hremovals⟩⟩
  | finish =>
    cases h
    exact ⟨id, .inr (.refl _)⟩

end Edit

namespace Recording

/-- What an edit makes of a reachable recording is reachable. -/
theorem Reachable.of_eq_ok {r r' : Recording τ k} (h : r.Reachable) (e : Edit k)
    (hrun : e.run r = .ok () r') : r'.Reachable := by
  rw [← Operation.leaves_of_eq_ok hrun]
  exact h.edit e

/-- Whatever was done to a recording, its pyramid sums up the samples that it has now. -/
theorem Reachable.summed {r : Recording τ k} (h : r.Reachable) : r.trace.Summed := by
  induction h with
  -- A new recording is empty, and the empty pyramid stands over no samples.
  | startLogic h =>
    unfold Recording.startLogic at h
    split at h
    · split at h
      · cases h
        exact Trace.summed_empty _ _
      · exact nomatch h
    · exact nomatch h
  | startAnalog h =>
    unfold Recording.startAnalog at h
    split at h
    · cases h
      exact Trace.summed_empty _ _
    · exact nomatch h
  | edit e _ ih =>
    -- A call that broke its contract has left the recording as it was.
    rcases e.atomic.leaves_cases _ with hsame | hdone
    · rw [hsame]
      exact ih
    · exact (Edit.step hdone).1 ih

end Recording

end Waveform
