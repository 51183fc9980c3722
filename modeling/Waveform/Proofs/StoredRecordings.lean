import Waveform.Proofs.AnalogPyramid
import Waveform.Proofs.LogicPyramid
import Waveform.Proofs.StoredLevels
import Waveform.Storage.Recording

/-!
# Stored recordings under edits

What is stored of a recording follows the recording step by step: an edit ends in the same way on both, and
what is stored afterwards belongs to the recording afterwards (`Edit.runStored_alike`).  The sample that is
carried from one append to the next is the one at which the entries of the finest level end, whether or
not the append before has completed a window, and after a removal it is the one that the levels built
anew end at.

So the levels, what is carried and the room that is made depend on the samples that are there alone.

## Key results

- `StoredTrace.Of.grow`: extending the levels that are stored
- `Edit.runStored_alike`: an edit of what is stored
- `StoredRecording.levels_determined`: the levels of a logic recording are a function of its samples
- `StoredRecording.extents_determined`: and so are those of an analog recording
-/

namespace Waveform

open Operation

variable {k : Signal} {w : Width}

namespace StoredTrace

/-- Stored samples, levels and carry that belong to a trace whose pyramid sums up its samples. -/
structure Of (w : Width) (s : StoredTrace k) (t : Trace k) : Prop where
  width_eq : t.width = w
  samples_eq : s.samples = t.samples.stored
  levels : List.Forall₂ (StoredLevel.Holds w) s.levels t.pyramid.levels
  carry_eq : s.carry = k.carried t.samples.word (16 * t.pyramid.size 0)
  removals_eq : s.removals = t.removals
  summed : t.Summed

/-- Ten levels without entries hold ten empty levels of a pyramid. -/
theorem forall₂_replicate (n : Nat) : List.Forall₂ (StoredLevel.Holds (k := k) w)
    (List.replicate n .empty) (List.replicate n #[]) := by
  induction n with
  | zero => exact .nil
  | succ n ih => exact .cons StoredLevel.holds_empty ih

/-- A stored trace without samples is one of a trace without samples. -/
theorem of_empty (admitted : k.Admits w) : Of w (empty w) (Trace.empty w admitted) where
  width_eq := rfl
  samples_eq := rfl
  levels := forall₂_replicate 10
  carry_eq := (Signal.carried_zero _).symm
  removals_eq := rfl
  summed := Trace.summed_empty w admitted

/-! ## Extending the levels -/

/-- Levels over some of the samples are extended over all of them, and what is carried then is the last
sample of the last complete window. -/
theorem grown_ok {s : StoredTrace k} {p : Packed w} (hsamples : s.samples = p.stored)
    (hadmits : k.Admits w) {levels : List (Array k.Entry)} (hten : levels.length = 10)
    (hlevels : List.Forall₂ (StoredLevel.Holds w) s.levels levels)
    (hcarry : s.carry = k.carried p.word (16 * (levels.getD 0 #[]).size))
    {source : Nat → k.Entry} {count : Nat} (hstand : Pyramid.StandOver k.summary source count levels)
    (hle : count ≤ p.count) :
    ∃ stored, s.grown = .ok (k.carried p.word (16 * (p.count / 16)), stored) ∧
      List.Forall₂ (StoredLevel.Holds w) stored
        (Pyramid.growLevels k.summary (k.leaf p.word) p.count levels) := by
  obtain ⟨samples, storedLevels, carry, removals⟩ := s
  subst hsamples hcarry
  cases hlevels with
  | nil => exact nomatch hten
  -- The finest level is grown from the samples, and the coarser ones from it.
  | @cons finest entries upper rest h hupper =>
    obtain ⟨hsize, -, habove⟩ := hstand
    have hmono : entries.size ≤ p.count / 16 := by
      rw [hsize]
      exact Nat.div_le_div_right hle
    have hfinest : (entries :: rest).getD 0 #[] = entries := rfl
    rcases Nat.lt_or_eq_of_le hmono with hgain | hnone
    · -- The finest level gains entries.
      obtain ⟨finest', hgrow, hholds⟩ := StoredLevel.growFinest_of_gain p h hadmits hgain
      have hsize' := Pyramid.size_extend (S := k.summary) (k.leaf p.word)
        (p.count / 16 - entries.size) entries
      have hfits : Pyramid.EntriesFit k w (p.count / 16) := p.entriesFit hadmits
      obtain ⟨upper', hrest, hupper'⟩ := StoredLevel.growCoarser_ok hholds (hfits.mono (by omega))
        hupper habove (by omega)
      have hsome : ¬ p.count / 16 - entries.size = 0 := by omega
      refine ⟨finest' :: upper', ?_, ?_⟩
      · simp only [grown, hfinest]
        rw [hgrow, ok_bind]
        dsimp only
        rw [hrest]
        rfl
      · simp only [Pyramid.growLevels, if_neg hsome]
        exact .cons hholds hupper'
    · -- It gains none, and then nothing above it does.
      have hzero : p.count / 16 - entries.size = 0 := by omega
      refine ⟨finest :: upper, ?_, ?_⟩
      · have hsame : p.stored.count / 16 = finest.length := by rw [h.length_eq, hnone]
        simp only [grown, hfinest]
        rw [StoredLevel.growFinest_of_no_gain _ _ hsame, hnone]
        rfl
      · rw [Pyramid.growLevels, if_pos hzero]
        exact .cons h hupper

/-- Bringing the stored levels up to the samples brings the pyramid up to them. -/
theorem grow_ok {s : StoredTrace k} {t : Trace k} (hsamples : s.samples = t.samples.stored)
    (hlevels : List.Forall₂ (StoredLevel.Holds t.width) s.levels t.pyramid.levels)
    (hcarry : s.carry = k.carried t.samples.word (16 * t.pyramid.size 0))
    (hremovals : s.removals = t.removals) {source : Nat → k.Entry} {count : Nat}
    (hcovers : t.pyramid.Covers k.summary source count) (hle : count ≤ t.count)
    (hsummed : t.summarize.Summed) :
    ∃ s', grow s = .ok () s' ∧ s'.Of t.width t.summarize := by
  obtain ⟨stored, hgrown, hholds⟩ :=
    grown_ok hsamples t.admitted t.pyramid.length_levels hlevels hcarry hcovers hle
  refine ⟨⟨s.samples, stored, k.carried t.samples.word (16 * (t.samples.count / 16)), s.removals⟩,
    ?_, ?_⟩
  · rw [grow, get_bind_eq, hgrown]
    rfl
  · -- The carry now belongs behind the last complete window, which is where the finest level ends.
    have hsize : t.summarize.pyramid.size 0 = t.summarize.count / 16 :=
      Pyramid.Covers.size_eq hsummed (by decide)
    obtain ⟨width, admitted, samples, pyramid, removals⟩ := t
    exact {
      width_eq := rfl
      samples_eq := hsamples
      levels := hholds
      carry_eq := by rw [hsize]; rfl
      removals_eq := hremovals
      summed := hsummed }

/-! ## Edits of a trace -/

variable {s : StoredTrace k} {t : Trace k}

/-- What an operation on the samples alone does to a stored trace and to the trace. -/
theorem onSamples_cases {α : Type} (act : Operation StoredSamples α)
    (act' : {v : Width} → Operation (Packed v) α) (h : s.Of t.width t)
    (hact : Alike StoredSamples.Of (act t.samples.stored) (act' t.samples))
    (hatomic : Atomic (act' (v := t.width))) :
    (∃ v, onSamples act s = .error v s ∧ Trace.onSamples act' t = .error v t) ∨
    ∃ a p, act' t.samples = .ok a p ∧ onSamples act s = .ok a { s with samples := p.stored } ∧
      Trace.onSamples act' t = .ok a { t with samples := p } := by
  obtain ⟨samples, levels, carry, removals⟩ := s
  obtain rfl : samples = t.samples.stored := h.samples_eq
  obtain ⟨width, admitted, packed, pyramid, removals'⟩ := t
  simp only [onSamples, Trace.onSamples]
  generalize hstored : act packed.stored = x at hact
  generalize hpacked : act' packed = y at hact
  -- The edits of the samples agree, and a failed one leaves them as they were.
  cases hact with
  | ok a hof =>
    obtain rfl := hof
    exact .inr ⟨a, _, rfl, rfl, rfl⟩
  | error v hof =>
    obtain rfl := hof
    obtain rfl := hatomic _ _ _ hpacked
    exact .inl ⟨v, rfl, rfl⟩

/-- An append goes on from the sample that was carried. -/
theorem Of.append_alike (h : s.Of w t) (payload : ByteArray) :
    Alike (Of w) (append payload s) (Trace.append payload t) := by
  obtain rfl := h.width_eq
  -- Either both appends are refused, or the samples are appended in both.
  rcases onSamples_cases (StoredSamples.append payload) (Packed.append payload) h
    (StoredSamples.append_alike t.samples payload)
    (Packed.atomic_append payload) with ⟨v, hstored, hpacked⟩ | ⟨added, p, happend, hstored, hpacked⟩
  · rw [append, Trace.append, bind_eq_error.2 (.inl hstored), bind_eq_error.2 (.inl hpacked)]
    exact .error v h
  · obtain ⟨-, -, -, hbytes⟩ := Packed.append_eq_ok.1 happend
    -- The samples that were there stay, so the levels still stand over them.
    have hword : ∀ i, i < t.count → p.word i = t.samples.word i :=
      fun i => Packed.word_eq_of_append hbytes
    have happended : Trace.append payload t = .ok () (Trace.summarize { t with samples := p }) :=
      Trace.append_eq_ok.2 ⟨added, p, happend, rfl⟩
    -- The sample that is carried is one of those that were there before.
    have hsize : 16 * t.pyramid.size 0 ≤ t.count := by
      rw [Pyramid.Covers.size_eq h.summed (by decide), Pyramid.window_zero]
      exact Nat.mul_div_le _ _
    have hcarry : s.carry = k.carried p.word (16 * t.pyramid.size 0) := by
      rw [h.carry_eq]
      exact Signal.carried_congr fun i hi => (hword i (by omega)).symm
    obtain ⟨s', hgrow, hof⟩ := grow_ok (s := { s with samples := p.stored })
      (t := { t with samples := p }) rfl h.levels hcarry h.removals_eq h.summed
      (Packed.count_le_of_append hbytes) ((Trace.append_step happended).2 h.summed)
    rw [append, bind_eq_ok.2 ⟨added, _, hstored, hgrow⟩, happended]
    exact .ok () hof

/-- A removal sets what is carried back, as the levels are built anew. -/
theorem Of.remove_alike (h : s.Of w t) (first stop : Nat) :
    Alike (Of w) (remove first stop s) (Trace.remove first stop t) := by
  obtain rfl := h.width_eq
  rcases onSamples_cases (StoredSamples.remove first stop) (Packed.remove first stop) h
    (StoredSamples.remove_alike t.samples first stop)
    (Packed.atomic_remove first stop) with ⟨v, hstored, hpacked⟩ | ⟨_, p, -, hstored, hpacked⟩
  · rw [remove, Trace.remove, bind_eq_error.2 (.inl hstored), bind_eq_error.2 (.inl hpacked)]
    exact .error v h
  · -- The levels are dropped before they are grown from what is left.
    let cleared : Trace k :=
      { t with samples := p, pyramid := .empty, removals := t.removals + 1 }
    have hremoved : Trace.remove first stop t = .ok () cleared.summarize :=
      bind_eq_ok.2 ⟨(), _, hpacked, rfl⟩
    -- Empty levels stand over no samples, and before the first sample nothing is carried.
    obtain ⟨s', hgrow, hof⟩ := grow_ok (t := cleared)
      (s := ⟨p.stored, List.replicate 10 .empty, k.noCarry, s.removals + 1⟩) rfl
      (forall₂_replicate 10) (Signal.carried_zero p.word).symm
      (congrArg (· + 1) h.removals_eq) (Pyramid.covers_empty (k.leaf p.word)) (Nat.zero_le _)
      (Trace.remove_eq_ok hremoved).2.1
    rw [remove, bind_eq_ok.2 ⟨(), _, hstored, bind_eq_ok.2 ⟨(), _, rfl, hgrow⟩⟩, hremoved]
    exact .ok () hof

/-- Making room in a stored trace ends as it does in the trace. -/
theorem Of.reserve_alike (h : s.Of w t) (expected : Nat) :
    Alike (Of w) (onSamples (StoredSamples.reserve expected) s) (Trace.reserve expected t) := by
  obtain rfl := h.width_eq
  rcases onSamples_cases (StoredSamples.reserve expected) (Packed.reserve expected) h
    (StoredSamples.reserve_alike t.samples expected)
    (Packed.atomic_reserve expected) with ⟨v, hstored, hpacked⟩ | ⟨_, p, hreserve, hstored, hpacked⟩
  · rw [hstored, Trace.reserve, hpacked]
    exact .error v h
  · obtain ⟨-, -, rfl⟩ := Packed.reserve_eq_ok.1 hreserve
    rw [hstored, Trace.reserve, hpacked, ← h.samples_eq]
    exact .ok () h

/-! ## Readings -/

/-- Levels that hold the levels of a pyramid are found at the same places. -/
theorem Of.level (h : s.Of w t) {index : Nat} (hindex : index < 10) :
    ∃ level, s.levels[index]? = some level ∧ level.Holds w (t.pyramid.entries index) := by
  have hten := t.pyramid.length_levels
  have hlength : index < s.levels.length := by
    rw [h.levels.length_eq]
    omega
  have hholds := h.levels.get hlength (by omega)
  refine ⟨_, List.getElem?_eq_getElem hlength, ?_⟩
  rw [Pyramid.entries, List.getD_eq_getElem?_getD, List.getElem?_eq_getElem (by omega)]
  exact hholds

/-- Each stored level holds the entries of a level of the pyramid. -/
theorem Of.exists_holds (h : s.Of w t) {level : StoredLevel k} (hlevel : level ∈ s.levels) :
    ∃ entries, level.Holds w entries := by
  obtain ⟨index, hindex, rfl⟩ := List.mem_iff_getElem.1 hlevel
  have hentries := h.levels.length_eq ▸ hindex
  exact ⟨_, h.levels.get hindex hentries⟩

/-- The numbers of entries that are stored are those of the levels, as they follow from the samples. -/
theorem Of.lengths_eq (h : s.Of w t) :
    s.lengths = (List.range 10).map fun index => t.count / Pyramid.window index := by
  have hten : s.levels.length = 10 := h.levels.length_eq.trans t.pyramid.length_levels
  refine List.ext_getElem (by simp [lengths, hten]) fun index hleft hright => ?_
  have hindex : index < 10 := by simpa using hright
  obtain ⟨level, hlevel, hholds⟩ := h.level hindex
  obtain ⟨hlt, rfl⟩ := List.getElem?_eq_some_iff.1 hlevel
  simp only [lengths, List.getElem_map, List.getElem_range, hholds.length_eq]
  exact Pyramid.Covers.size_eq h.summed hindex

/-- Room is made for as many entries as there are, and for no more than it is made at a time. -/
theorem Of.rooms_eq (h : s.Of w t) : s.rooms = s.lengths.map Pyramid.room := by
  rw [rooms, lengths, List.map_map]
  refine List.map_congr_left fun level hlevel => ?_
  obtain ⟨entries, hholds⟩ := h.exists_holds hlevel
  rw [Function.comp_apply, hholds.room_eq, hholds.length_eq]

/-- The extents of an analog level are as many as it counts. -/
theorem Of.shelves_eq {s : StoredTrace .analog} {t : Trace .analog} (h : s.Of w t) :
    (s.levels.map fun level => level.shelf.size) = s.lengths := by
  refine List.map_congr_left fun level hlevel => ?_
  obtain ⟨entries, hholds⟩ := h.exists_holds hlevel
  have hshelf : level.shelf = entries := hholds.keeps
  rw [hshelf, hholds.length_eq]

/-- The entries of a level fit in the address space. -/
theorem Of.entriesFit (h : s.Of w t) {index : Nat} (hindex : index < 10) :
    Pyramid.EntriesFit k w (t.pyramid.size index) := by
  obtain rfl := h.width_eq
  have hbytes := t.samples.bounded
  rw [← t.samples.count_mul] at hbytes
  have hsize : t.pyramid.size index * 16 ≤ t.samples.count := by
    rw [Pyramid.Covers.size_eq h.summed hindex]
    exact Nat.le_trans (Nat.mul_le_mul_left _ (Pyramid.sixteen_le_window index))
      (Nat.div_mul_le_self _ _)
  exact ⟨t.admitted, Nat.lt_of_le_of_lt (Nat.mul_le_mul_right _ hsize) hbytes⟩

/-- An entry that is there is read from where it is stored. -/
theorem Of.entry_eq (h : s.Of w t) {index offset : Nat} (hindex : index < 10)
    (hoffset : offset < t.pyramid.size index) :
    s.entry index offset = .ok ((t.pyramid.entries index).getD offset k.summary.empty) := by
  obtain ⟨level, hget, hholds⟩ := h.level hindex
  have hroom : 0 < level.room := by
    rw [hholds.room_eq]
    exact Pyramid.room_pos_iff.2 (by unfold Pyramid.size at hoffset; omega)
  have hwidth : s.samples.width = w := by rw [h.samples_eq, ← h.width_eq]
  simp only [entry, hget, hwidth]
  exact (congrArg (· >>= _) (StoredLevel.checkRoom_ok hroom)).trans
    (hholds.fetch (h.entriesFit hindex) hoffset)

/-- An entry is read from what is stored as from the pyramid, wherever there is room for entries. -/
theorem Of.entry_eq_readEntry {s : StoredTrace .logic} {t : Trace .logic} (h : s.Of w t)
    {index : Nat} {level : StoredLevel .logic} (hget : s.levels[index]? = some level)
    (hholds : level.Holds w (t.pyramid.entries index)) (hroom : 0 < level.room) (offset : Nat) :
    s.entry index offset = Pyramid.readEntry (t.pyramid.entries index) t.width.bytes offset := by
  have hwidth : s.samples.width = w := by rw [h.samples_eq, ← h.width_eq]
  simp only [entry, hget]
  rw [StoredLevel.checkRoom_ok hroom, ok_bind, hwidth, h.width_eq]
  exact hholds.fetch_eq hroom offset

/-- The search for an edge reads from the stored levels what it reads from the pyramid: the number of
entries, whether there is room for any, and the entry. -/
theorem Of.quietAt_eq {s : StoredTrace .logic} {t : Trace .logic} (h : s.Of w t) (channel : Fin 64)
    (index place : Nat) : s.quietAt channel index place = t.quietAt channel index place := by
  have hten : s.levels.length = 10 := h.levels.length_eq.trans t.pyramid.length_levels
  rw [quietAt, Trace.quietAt, Pyramid.level]
  -- The checks are met one after another: the level, the shift, the entry.
  by_cases hindex : index < 10
  · obtain ⟨level, hget, hholds⟩ := h.level hindex
    rw [hget, if_pos hindex, ok_bind]
    dsimp only
    cases Word.shiftRight place (Pyramid.power index) with
    | error v => rw [error_bind, error_bind]
    | ok offset =>
      rw [ok_bind, ok_bind, hholds.length_eq]
      by_cases hoffset : offset < (t.pyramid.entries index).size
      · -- A level with an entry has room.
        have hroom : 0 < level.room := by
          rw [hholds.room_eq]
          exact Pyramid.room_pos_iff.2 (by omega)
        rw [if_pos hoffset, if_pos hoffset, h.entry_eq_readEntry hget hholds hroom]
      · rw [if_neg hoffset, if_neg hoffset]
  · rw [if_neg hindex, List.getElem?_eq_none (by omega), hten]
    rfl

/-- An envelope is cut out of the stored level as it is out of the pyramid. -/
theorem Of.envelope_eq {s : StoredTrace .analog} {t : Trace .analog} (h : s.Of w t) (first stop : Nat)
    (resolution : Binary32) : s.envelope first stop resolution = t.envelope first stop resolution := by
  have hindex : (levelFor resolution : Nat) < 10 := (levelFor resolution).isLt
  obtain ⟨level, hget, hholds⟩ := h.level hindex
  have hshelf : level.shelf = t.pyramid.entries (levelFor resolution) := hholds.keeps
  have hcount : s.samples.count = t.count := by
    rw [h.samples_eq]
    rfl
  -- The slice lies within the entries, so its check never fails.
  have hcut : ∀ low high, low ≤ level.length →
      max low (min high level.length) ≤ level.shelf.size := by
    intro low high hlow
    rw [hshelf, ← hholds.length_eq]
    omega
  rw [envelope, Trace.envelope, hcount]
  dsimp only
  rw [hget]
  dsimp only
  rw [require_eq_ok.2 (hcut _ _ (Nat.min_le_right _ _)), hshelf, hholds.length_eq]
  rfl

/-- A sample that is there is read from the stored bytes, and no other is. -/
theorem Of.sample_eq (h : s.Of w t) (i : Nat) : s.samples.sample i =
    if i < t.count then .ok (t.samples.word i) else .error (.noSuchSample i t.count) := by
  rw [h.samples_eq, StoredSamples.sample_stored]
  rfl

/-- The stored number of samples is that of the trace. -/
theorem Of.count_eq (h : s.Of w t) : s.samples.count = t.count := by
  rw [h.samples_eq]
  rfl

/-- Samples that are read alike from what is stored read alike. -/
theorem Of.words_eq {w' : Width} {s' : StoredTrace k} {t' : Trace k} (h : s.Of w t) (h' : s'.Of w' t')
    (hcount : s'.samples.count = s.samples.count)
    (hsamples : ∀ i, i < s.samples.count → s'.samples.sample i = s.samples.sample i) :
    t'.samples.words = t.samples.words := by
  rw [h.count_eq] at hcount hsamples
  rw [h'.count_eq] at hcount
  refine Packed.words_congr hcount fun i hi => ?_
  have hsample := hsamples i hi
  rw [h.sample_eq, h'.sample_eq, if_pos (show i < t.count from hi),
    if_pos (show i < t'.count from hcount ▸ hi)] at hsample
  exact Except.ok.inj hsample

/-- A level has an entry for each full window. -/
theorem Of.size_eq (h : s.Of w t) {index : Nat} (hindex : index < 10) :
    t.pyramid.size index = t.count / Pyramid.window index :=
  Pyramid.Covers.size_eq h.summed hindex

/-- What is carried is the last sample of the last complete window of 16. -/
theorem Of.carry_last (h : s.Of w t) : s.carry = k.carried t.samples.word (16 * (t.count / 16)) := by
  rw [h.carry_eq, h.size_eq (by decide), Pyramid.window_zero]

/-- Samples that read alike leave no choice for what is stored besides them. -/
theorem Of.congr {w' : Width} {s' : StoredTrace k} {t' : Trace k} (h : s.Of w t) (h' : s'.Of w' t')
    (hwords : t'.samples.words = t.samples.words) :
    s'.lengths = s.lengths ∧ s'.carry = s.carry ∧
      (∀ level offset, level < 10 → offset < t.count / Pyramid.window level →
        s'.entry level offset = s.entry level offset) ∧
      (w' = w → s'.levels = s.levels) := by
  have hpyramid : t'.pyramid = t.pyramid := h'.summed.pyramid_eq h.summed hwords
  have hcount : t'.count = t.count := (Packed.word_eq_of_words hwords).1
  refine ⟨?_, ?_, fun level offset hlevel hoffset => ?_, ?_⟩
  · rw [h.lengths_eq, h'.lengths_eq, hcount]
  · rw [h.carry_last, h'.carry_last, hcount, Packed.word_congr hwords]
  · rw [← h.size_eq hlevel] at hoffset
    rw [h.entry_eq hlevel hoffset, h'.entry_eq hlevel (hpyramid ▸ hoffset), hpyramid]
  · rintro rfl
    have hlevels := h'.levels
    rw [hpyramid] at hlevels
    exact List.left_unique_forall₂' (fun _ _ _ hleft hright => hleft.unique hright) hlevels h.levels

/-- A trace leaves no choice for what is stored of it. -/
theorem Of.unique {s' : StoredTrace k} (h : s.Of w t) (h' : s'.Of w t) : s' = s := by
  have hsamples : s'.samples = s.samples := h'.samples_eq.trans h.samples_eq.symm
  have hremovals : s'.removals = s.removals := h'.removals_eq.trans h.removals_eq.symm
  obtain ⟨-, hcarry, -, hlevels⟩ := h.congr h' rfl
  have hlevels := hlevels rfl
  cases s
  cases s'
  cases hsamples
  cases hlevels
  cases hcarry
  cases hremovals
  rfl

end StoredTrace

namespace StoredRecording

/-! ## Edits of a recording -/

variable {τ : Type}

/-- What is stored belongs to a recording of samples of the given width. -/
structure Of (w : Width) (s : StoredRecording k) (r : Recording τ k) : Prop where
  width_eq : s.width = w
  complete_eq : s.complete = r.complete
  trace : s.trace.object.Of w r.trace

variable {s : StoredRecording k} {r : Recording τ k}

/-- What is behind the lock is the stored trace, poisoned or not. -/
theorem Of.state (h : s.Of w r) : s.trace.state.Of w r.trace := by
  rw [Locked.state_eq]
  exact h.trace

/-- Whether the lock is poisoned plays no part in what a call does behind it. -/
theorem onTrace_alike {α : Type} {act : Operation (StoredTrace k) α} {act' : Operation (Trace k) α}
    (h : s.Of w r) (hact : Alike (StoredTrace.Of w) (act s.trace.object) (act' r.trace)) :
    Alike (Of w) (onTrace act s) (Recording.onTrace act' r) := by
  obtain ⟨width, complete, trace, poisoned⟩ := s
  obtain ⟨rate, rate_pos, startTime, complete', live, trace'⟩ := r
  obtain ⟨hwidth, hcomplete, -⟩ := h
  simp only [onTrace, Recording.onTrace, Locked.hold, Locked.state_eq]
  generalize act trace = x at hact
  generalize act' trace' = y at hact
  cases hact with
  | ok a htrace => exact .ok a ⟨hwidth, hcomplete, htrace⟩
  | error v htrace => exact .error v ⟨hwidth, hcomplete, htrace⟩

end StoredRecording

namespace Edit

variable {τ : Type}

/-- Carries out a call on what is stored of a recording. -/
def runStored : {k : Signal} → Edit k → Operation (StoredRecording k) Unit
  | _, .appendLogic payload width => StoredRecording.appendLogic payload width
  | _, .appendAnalog xs => StoredRecording.appendAnalog xs
  | _, .reserve expected => StoredRecording.reserve expected
  | _, .remove first stop => StoredRecording.remove first stop
  | _, .finish => StoredRecording.finish

/-- What is stored of a recording after calls, those that break their contract included. -/
def storedAfter (w : Width) (edits : List (Edit k)) : StoredRecording k :=
  edits.foldl (fun s e => e.runStored.leaves s) (.empty w)

/-- A call ends on what is stored as it does on the recording. -/
theorem runStored_alike {s : StoredRecording k} {r : Recording τ k} (h : s.Of w r) (e : Edit k) :
    Alike (StoredRecording.Of w) (e.runStored s) (e.run r) := by
  cases e with
  | appendLogic payload width =>
    -- The checks made before the samples are reached read equal fields.
    have hwidth : s.width = r.trace.width := h.width_eq.trans h.trace.width_eq.symm
    show Alike _ (StoredRecording.appendLogic payload width s) (Recording.appendLogic payload width r)
    rw [StoredRecording.appendLogic, Recording.appendLogic, get_bind_eq, get_bind_eq, hwidth,
      h.complete_eq]
    exact .require_bind h fun _ => .require_bind h fun _ => .require_bind h fun _ =>
      StoredRecording.onTrace_alike h (h.trace.append_alike payload)
  | appendAnalog xs =>
    show Alike _ (StoredRecording.appendAnalog xs s) (Recording.appendAnalog xs r)
    rw [StoredRecording.appendAnalog, Recording.appendAnalog, get_bind_eq, get_bind_eq,
      h.complete_eq]
    exact .require_bind h fun _ => StoredRecording.onTrace_alike h (h.trace.append_alike _)
  | reserve expected => exact StoredRecording.onTrace_alike h (h.trace.reserve_alike expected)
  | remove first stop => exact StoredRecording.onTrace_alike h (h.trace.remove_alike first stop)
  | finish => exact .ok () ⟨h.width_eq, rfl, h.trace⟩

/-- A call that breaks its contract changes nothing of what is stored but whether the lock is poisoned. -/
theorem unchanged_of_error {s s' : StoredRecording k} {r : Recording τ k} (h : s.Of w r) {e : Edit k}
    {v : Violation} (hfail : e.runStored s = .error v s') :
    s'.width = s.width ∧ s'.complete = s.complete ∧ s'.trace.state = s.trace.state := by
  have halike := runStored_alike h e
  rw [hfail] at halike
  generalize hrun : e.run r = outcome at halike
  cases halike with
  | error _ h' =>
    rw [e.atomic _ _ _ hrun] at h'
    exact ⟨h'.width_eq.trans h.width_eq.symm, h'.complete_eq.trans h.complete_eq.symm,
      h.state.unique h'.state⟩

/-- What is stored after calls belongs to the recording after them. -/
theorem foldl_runStored {s : StoredRecording k} {r : Recording τ k} (hr : r.Reachable) (h : s.Of w r)
    (edits : List (Edit k)) : ∃ r' : Recording τ k, r'.Reachable ∧
      (edits.foldl (fun s e => e.runStored.leaves s) s).Of w r' := by
  induction edits generalizing s r with
  | nil => exact ⟨r, hr, h⟩
  | cons e edits ih => exact ih (hr.edit e) (e.runStored_alike h).leaves

/-- The stored state after edits is that of a reachable logic recording. -/
theorem exists_of_logic (w : Width) (edits : List (Edit .logic)) :
    ∃ r : Recording Unit .logic, r.Reachable ∧ (storedAfter w edits).Of w r := by
  let fresh : Recording Unit .logic := ⟨1, Nat.one_pos, (), false, false, .empty w trivial⟩
  have hstart : Recording.startLogic 1 w.bytes () = .ok fresh := by
    rw [Recording.startLogic, dif_pos Nat.one_pos, Width.ofNat_bytes]
  have hof : (StoredRecording.empty w).Of w fresh := ⟨rfl, rfl, StoredTrace.of_empty _⟩
  exact foldl_runStored (.startLogic hstart) hof edits

/-- The stored state after edits is that of a reachable analog recording. -/
theorem exists_of_analog (edits : List (Edit .analog)) :
    ∃ r : Recording Unit .analog, r.Reachable ∧ (storedAfter .four edits).Of .four r := by
  let fresh : Recording Unit .analog := ⟨1, Nat.one_pos, (), false, false, .empty .four rfl⟩
  have hstart : Recording.startAnalog 1 () = .ok fresh := rfl
  have hof : (StoredRecording.empty .four).Of .four fresh := ⟨rfl, rfl, StoredTrace.of_empty _⟩
  exact foldl_runStored (.startAnalog hstart) hof edits

/-- A single append makes of what is stored of no samples what is stored of the samples appended. -/
theorem exists_of_fill (p : Packed w) : ∃ r : Recording Unit .logic,
    r.trace.samples.stored = p.stored ∧ r.trace.samples.words = p.words ∧
      (storedAfter w [.appendLogic p.bytes w.bytes]).Of w r := by
  let fresh : Recording Unit .logic := ⟨1, Nat.one_pos, (), false, false, .empty w trivial⟩
  have hof : (StoredRecording.empty w).Of w fresh := ⟨rfl, rfl, StoredTrace.of_empty _⟩
  let full : Recording Unit .logic :=
    { fresh with trace := .summarize ⟨w, trivial, p, .empty, 0⟩ }
  have hfill : (appendLogic p.bytes w.bytes).run fresh = .ok () full :=
    Recording.appendLogic_fill p rfl rfl
  have hafter := (runStored_alike hof (.appendLogic p.bytes w.bytes)).leaves
  rw [leaves_of_eq_ok hfill] at hafter
  exact ⟨full, rfl, rfl, hafter⟩

end Edit

namespace StoredRecording

/-! ## Levels and samples -/

/-- Whatever was done to a logic recording, what is stored of its pyramid is a function of its samples.
A level counts an entry for every complete window, has room made for so many, and the entry that is read
from it holds the channels that change in the window; and the sample that is carried to the next append is
the one at which the complete windows end.  Samples that are read alike have the same entries, stored in
the same way if they are as wide, be it after other calls or after a single append to a fresh recording. -/
theorem levels_determined (w : Width) (edits : List (Edit .logic)) :
    let t := (Edit.storedAfter w edits).trace.state
    let n := t.samples.count
    ∃ word : Nat → UInt64,
      (∀ i, t.samples.sample i = if i < n then .ok (word i) else .error (.noSuchSample i n)) ∧
      t.lengths = ((List.range 10).map fun level => n / Pyramid.window level) ∧
      t.rooms = t.lengths.map Pyramid.room ∧
      (∀ level offset, level < 10 → offset < n / Pyramid.window level →
        t.entry level offset = .ok (Signal.changedIn word (offset * Pyramid.window level)
          (Pyramid.window level))) ∧
      t.carry = Signal.previous word (16 * (n / 16)) ∧
      (∀ (w' : Width) (edits' : List (Edit .logic)),
        let t' := (Edit.storedAfter w' edits').trace.state
        t'.samples.count = n → (∀ i, i < n → t'.samples.sample i = t.samples.sample i) →
        t'.lengths = t.lengths ∧ t'.carry = t.carry ∧
        (∀ level offset, level < 10 → offset < n / Pyramid.window level →
          t'.entry level offset = t.entry level offset) ∧
        (w' = w → t'.levels = t.levels)) ∧
      let fresh := (Edit.storedAfter w [.appendLogic t.samples.bytes w.bytes]).trace.state
      fresh.samples = t.samples ∧ fresh.levels = t.levels ∧ fresh.carry = t.carry := by
  -- The recording that the stored one stands for says what every entry is.
  obtain ⟨r, hr, h⟩ := Edit.exists_of_logic w edits
  obtain rfl := h.trace.width_eq
  intro t n
  have ht : t.Of r.trace.width r.trace := h.state
  clear_value t
  have hn : n = r.trace.count := ht.count_eq
  obtain ⟨hentries, -, -⟩ := Recording.pyramid_determined hr
  refine ⟨r.trace.samples.word, fun i => hn ▸ ht.sample_eq i, hn ▸ ht.lengths_eq, ht.rooms_eq,
    fun level offset hlevel hoffset => ?_, hn ▸ ht.carry_last, fun w' edits' => ?_, ?_⟩
  · rw [hn, ← ht.size_eq hlevel] at hoffset
    have hentry := (hentries level hlevel).2 offset hoffset
    rw [ht.entry_eq hlevel hoffset, Array.getD_eq_getD_getElem?, hentry]
    rfl
  · -- Another history with the same samples: two stored states of the same words are equal.
    intro t' hcount hsamples
    obtain ⟨r', hr', h'⟩ := Edit.exists_of_logic w' edits'
    have ht' : t'.Of w' r'.trace := h'.state
    clear_value t'
    rw [hn]
    exact ht.congr ht' (ht.words_eq ht' hcount hsamples)
  · -- A fresh recording that is given the bytes is a history of one edit.
    intro fresh
    obtain ⟨r', hstored, hwords, h'⟩ := Edit.exists_of_fill r.trace.samples
    have hbytes : t.samples.bytes = r.trace.samples.bytes := by rw [ht.samples_eq]
    have hfresh : fresh.Of r.trace.width r'.trace := by
      rw [show fresh = _ from Locked.state_eq _, hbytes]
      exact h'.trace
    clear_value fresh
    obtain ⟨-, hcarry, -, hlevels⟩ := ht.congr hfresh hwords
    refine ⟨?_, hlevels rfl, hcarry⟩
    rw [ht.samples_eq, hfresh.samples_eq, hstored]

/-- Whatever was done to an analog recording, what is stored of its pyramid is a function of its numbers.  A
level counts an entry for every complete window, has as many extents on its shelf and room made for them,
and the extent that is read from it is a gap if there is a NaN in the window, and otherwise reaches from the
least number in it to the greatest.  Numbers that are read alike have the same levels. -/
theorem extents_determined (edits : List (Edit .analog)) :
    let t := (Edit.storedAfter .four edits).trace.state
    let n := t.samples.count
    ∃ number : Nat → Binary32,
      (∀ i, t.number i = if i < n then .ok (number i) else .error (.noSuchSample i n)) ∧
      t.lengths = ((List.range 10).map fun level => n / Pyramid.window level) ∧
      (t.levels.map fun level => level.shelf.size) = t.lengths ∧
      t.rooms = t.lengths.map Pyramid.room ∧
      (∀ level offset, level < 10 → offset < n / Pyramid.window level →
        ∃ extent, t.entry level offset = .ok extent ∧
          extent.Outlines number (offset * Pyramid.window level) (Pyramid.window level)) ∧
      ∀ edits' : List (Edit .analog),
        let t' := (Edit.storedAfter .four edits').trace.state
        t'.samples.count = n → (∀ i, i < n → t'.samples.sample i = t.samples.sample i) →
        t'.levels = t.levels := by
  -- As for logic, the numbers and the entries are read off the recording it stands for.
  obtain ⟨r, hr, h⟩ := Edit.exists_of_analog edits
  intro t n
  have ht : t.Of .four r.trace := h.state
  clear_value t
  have hn : n = r.trace.count := ht.count_eq
  obtain ⟨-, hentries, -⟩ := Recording.envelopes_determined hr
  refine ⟨r.trace.numberAt, fun i => ?_, hn ▸ ht.lengths_eq, ht.shelves_eq, ht.rooms_eq,
    fun level offset hlevel hoffset => ?_, fun edits' => ?_⟩
  · rw [StoredTrace.number, ht.sample_eq, hn]
    split <;> rfl
  · rw [hn, ← ht.size_eq hlevel] at hoffset
    obtain ⟨extent, hget, houtlines⟩ := (hentries level hlevel).2 offset hoffset
    refine ⟨extent, ?_, houtlines⟩
    rw [ht.entry_eq hlevel hoffset, Array.getD_eq_getD_getElem?, hget]
    rfl
  · intro t' hcount hsamples
    obtain ⟨r', hr', h'⟩ := Edit.exists_of_analog edits'
    have ht' : t'.Of .four r'.trace := h'.state
    clear_value t'
    exact (ht.congr ht' (ht.words_eq ht' hcount hsamples)).2.2.2 rfl

end StoredRecording

end Waveform
