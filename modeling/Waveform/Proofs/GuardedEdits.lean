import Waveform.Proofs.FiniteTurns
import Waveform.Timeline.Guarded

/-!
# The checks of an edit

An edit that has changed the samples goes through.  What it does afterwards, counting the samples and
growing the pyramid, breaks no contract: there are fewer entries than samples, so their bytes fit in the
address space as well, and each window that gets an entry is a window of samples or entries that are there.
So the edits with every access checked are those of the library, on every recording whose pyramid sums up
its samples.

## Key results

- `Pyramid.StandOver.growLevelsGuarded_eq`: growing levels breaks no contract
- `Trace.summarizeGuarded_eq`: nor does bringing the pyramid up to the samples
- `Edit.guarded_eq`: an edit with its checks is the edit
-/

namespace Waveform

open Operation

variable {k : Signal} {w : Width}

/-! ## Reading what is there -/

namespace Packed

/-- The bytes of samples are counted in 64 bits. -/
theorem size_lt_limit (p : Packed w) : p.bytes.size < Word.limit :=
  Nat.lt_trans p.bounded (by decide)

/-- The bytes of a sample that is there are all there. -/
theorem fetch_ok (p : Packed w) {i : Nat} (h : i < p.count) : p.fetch i = .ok (p.word i) := by
  -- The sample ends within the bytes, so neither bound of its slice is too far.
  have hend : (i + 1) * w.bytes ≤ p.count * w.bytes := Nat.mul_le_mul_right _ h
  rw [Nat.add_mul, Nat.one_mul, p.count_mul] at hend
  have hlimit := p.size_lt_limit
  have hstart : Word.mul i w.bytes = .ok (i * w.bytes) := if_pos (by omega)
  have hfirst : i * w.bytes ≤ p.bytes.size := by omega
  have hlast : w.bytes ≤ p.bytes.size - i * w.bytes := by omega
  rw [fetch, hstart, ok_bind, require_eq_ok.2 hfirst, ok_bind, require_eq_ok.2 hlast, ok_bind]
  exact if_pos h

end Packed

/-- What a sample contributes can be read if the sample is there. -/
theorem Signal.leafGuarded_ok (p : Packed w) {i : Nat} (h : i < p.count) :
    k.leafGuarded p i = .ok (k.leaf p.word i) := by
  cases k with
  | logic =>
    cases i with
    | zero => exact p.fetch_ok h
    | succ i =>
      rw [leafGuarded, p.fetch_ok (Nat.lt_of_succ_lt h), ok_bind, p.fetch_ok h]
      rfl
  | analog =>
    rw [leafGuarded, p.fetch_ok h]
    rfl

/-- A run of items that can all be fetched. -/
theorem Summary.runGuarded_ok {α : Type} {S : Summary α} {fetch : Nat → Except Violation α}
    {source : Nat → α} {first n : Nat}
    (h : ∀ i, first ≤ i → i < first + n → fetch i = .ok (source i))
    (hlimit : first + n < Word.limit) :
    S.runGuarded fetch first n = .ok (S.run source first n) := by
  induction n with
  | zero => rfl
  | succ n ih =>
    have hinit := ih (fun i hlo hhi => h i hlo (by omega)) (by omega)
    have hadd : Word.add first n = .ok (first + n) := if_pos (by omega)
    rw [runGuarded, hinit, ok_bind, hadd, ok_bind, h (first + n) (by omega) (by omega)]
    rfl

namespace Pyramid

/-! ## Room for entries -/

/-- The entries of a level fit in the address space, together with those for which room is made ahead. -/
def EntriesFit (k : Signal) (w : Width) (length : Nat) : Prop :=
  k.Admits w ∧ length * 16 * w.bytes < Packed.byteLimit

/-- Fewer entries fit where more do. -/
theorem EntriesFit.mono {length length' : Nat} (h : EntriesFit k w length) (hle : length' ≤ length) :
    EntriesFit k w length' :=
  ⟨h.1, Nat.lt_of_le_of_lt (Nat.mul_le_mul_right _ (Nat.mul_le_mul_right _ hle)) h.2⟩

/-- Entries that fit stand over fewer samples than the address space has bytes. -/
theorem EntriesFit.length_lt {length : Nat} (h : EntriesFit k w length) : length * 16 < Packed.byteLimit :=
  Nat.lt_of_le_of_lt (Nat.le_mul_of_pos_right _ w.pos) h.2

/-- Entries over items that fit in the address space fit in it, too. -/
theorem entriesFit_div (hadmits : k.Admits w) {count : Nat}
    (hbytes : count * w.bytes < Packed.byteLimit) : EntriesFit k w (count / 16) :=
  ⟨hadmits, Nat.lt_of_le_of_lt (Nat.mul_le_mul_right _ (Nat.div_mul_le_self count 16)) hbytes⟩

/-- The room that is made for entries ahead fits as well. -/
theorem claimBytes_ok {held length wanted : Nat} (h : EntriesFit k w length) (hheld : held ≤ wanted)
    (hwanted : wanted ≤ length + 65536) : claimBytes w held wanted k = .ok () := by
  have hentries := h.2
  cases k with
  | logic =>
    -- A level has a sixteenth of the bytes below it, so 65536 entries more still fit.
    have hbytes : wanted * w.bytes < Packed.byteLimit := by
      have hle := Nat.mul_le_mul_right w.bytes hwanted
      have height := w.le_eight
      rw [Nat.mul_right_comm] at hentries
      rw [Nat.add_mul] at hle
      unfold Packed.byteLimit at hentries ⊢
      omega
    have hword : Word.mul wanted w.bytes = .ok (wanted * w.bytes) :=
      if_pos (Nat.lt_trans hbytes (by decide))
    rw [claimBytes, hword, ok_bind, require_eq_ok.2 hbytes]
  -- Analog entries take eight bytes for sixteen samples of four bytes.
  | analog =>
    have hfour : w.bytes = 4 := congrArg Width.bytes h.1
    have hmore : Word.sub wanted held = .ok (wanted - held) := if_pos hheld
    have hbytes : (held + (wanted - held)) * 8 < Packed.byteLimit := by
      rw [hfour] at hentries
      unfold Packed.byteLimit at hentries ⊢
      omega
    rw [claimBytes, hmore, ok_bind, require_eq_ok.2 hbytes]

/-- There is room for entries that fit. -/
theorem makeRoom_ok {held length : Nat} (h : EntriesFit k w length) (hle : held ≤ length) :
    makeRoom k w held length = .ok () := by
  have hlength := h.length_lt
  unfold Packed.byteLimit at hlength
  have hadd : Word.add length 65536 = .ok (length + 65536) := if_pos (by unfold Word.limit; omega)
  have hsub : Word.sub (length + 65536) 1 = .ok (length + 65536 - 1) := if_pos (by omega)
  have hmul : Word.mul ((length + 65536 - 1) / 65536) 65536 =
      .ok ((length + 65536 - 1) / 65536 * 65536) := if_pos (by unfold Word.limit; omega)
  rw [makeRoom, hadd, ok_bind, hsub, ok_bind, hmul, ok_bind]
  split
  · exact claimBytes_ok h (by omega) (by omega)
  · rfl

/-- The bytes of an entry that is there are all there. -/
theorem locate_ok {length offset : Nat} (h : EntriesFit k w length) (hoffset : offset < length) :
    locate k w length offset = .ok () := by
  cases k with
  -- The offset of a logic entry is counted in bytes, that of an analog one in entries.
  | logic =>
    have hend : (offset + 1) * w.bytes ≤ length * w.bytes := Nat.mul_le_mul_right _ hoffset
    have hroom : length * w.bytes ≤ room length * w.bytes := Nat.mul_le_mul_right _ (le_room _)
    have hentries := h.2
    rw [Nat.mul_right_comm] at hentries
    rw [Nat.add_mul, Nat.one_mul] at hend
    have hstart : Word.mul offset w.bytes = .ok (offset * w.bytes) :=
      if_pos (by unfold Packed.byteLimit at hentries; unfold Word.limit; omega)
    have hfirst : offset * w.bytes ≤ room length * w.bytes := by omega
    have hlast : w.bytes ≤ room length * w.bytes - offset * w.bytes := by omega
    simp only [locate, hstart, ok_bind, require_eq_ok.2 hfirst]
    exact require_eq_ok.2 hlast
  | analog => exact require_eq_ok.2 hoffset

/-- An entry that is there can be read. -/
theorem fetchEntry_ok {level : Array k.Entry} {index : Nat} (h : EntriesFit k w level.size)
    (hindex : index < level.size) :
    fetchEntry w level index = .ok (level.getD index k.summary.empty) := by
  rw [fetchEntry, locate_ok h hindex]
  rfl

/-! ## Growing levels -/

/-- Entries join items that are there, and are written where there is room. -/
theorem extendGuarded_ok {fetch : Nat → Except Violation k.Entry} {source : Nat → k.Entry}
    {length : Nat} (hfits : EntriesFit k w length)
    (hfetch : ∀ i, i < length * 16 → fetch i = .ok (source i)) (n : Nat) {level : Array k.Entry}
    (hsize : level.size + n = length) :
    extendGuarded w fetch length n level = .ok (extend k.summary source n level) := by
  -- On the number of entries still to be made; none of the checks for one of them fails.
  induction n generalizing level with
  | zero => rfl
  | succ n ih =>
    have hlength := hfits.length_lt
    unfold Packed.byteLimit at hlength
    have hmul : Word.mul level.size 16 = .ok (16 * level.size) := by
      rw [Nat.mul_comm 16]
      exact if_pos (by unfold Word.limit; omega)
    have hrun : k.summary.runGuarded fetch (16 * level.size) 16 =
        .ok (k.summary.run source (16 * level.size) 16) :=
      Summary.runGuarded_ok (fun i _ hi => hfetch i (by omega)) (by unfold Word.limit; omega)
    rw [extendGuarded, hmul, ok_bind, hrun, ok_bind, locate_ok hfits (by omega), ok_bind, extend]
    exact ih (by rw [Array.size_push]; omega)

/-- A level that gains entries has room made for them and takes them, and the levels above follow. -/
theorem growLevelsGuarded_of_gain {level : Array k.Entry} {upper : List (Array k.Entry)}
    {fetch : Nat → Except Violation k.Entry} {count : Nat} (hfits : EntriesFit k w (count / 16))
    (hgain : level.size < count / 16) {grown : Array k.Entry}
    (hgrown : extendGuarded w fetch (count / 16) (count / 16 - level.size) level = .ok grown)
    {above : { above : List (Array k.Entry) // above.length = upper.length }}
    (habove : growLevelsGuarded w (fetchEntry w grown) grown.size upper = .ok above) :
    growLevelsGuarded w fetch count (level :: upper) =
      .ok ⟨grown :: above.1, congrArg (· + 1) above.2⟩ := by
  have hlength := hfits.length_lt
  unfold Packed.byteLimit at hlength
  have hfirst : Word.mul level.size 16 = .ok (level.size * 16) := if_pos (by unfold Word.limit; omega)
  have hlast : Word.mul (count / 16) 16 = .ok (count / 16 * 16) := if_pos (by unfold Word.limit; omega)
  have hrange : SampleRange.check count (level.size * 16) (count / 16 * 16) =
      .ok ⟨level.size * 16, count / 16 * 16, by omega, by omega⟩ :=
    SampleRange.check_eq_ok.2 ⟨rfl, rfl⟩
  have hsub : Word.sub (count / 16) level.size = .ok (count / 16 - level.size) :=
    if_pos (Nat.le_of_lt hgain)
  simp only [growLevelsGuarded, if_neg (Nat.ne_of_gt hgain), makeRoom_ok hfits (Nat.le_of_lt hgain),
    hfirst, hlast, hrange, hsub, hgrown, habove, ok_bind]
  rfl

/-- Levels that stand over fewer items grow without breaking a contract, if all items can be fetched. -/
theorem StandOver.growLevelsGuarded_eq {source' : Nat → k.Entry} {count' : Nat}
    {levels : List (Array k.Entry)} (h : StandOver k.summary source' count' levels)
    {fetch : Nat → Except Violation k.Entry} {source : Nat → k.Entry} {count : Nat}
    (hle : count' ≤ count) (hadmits : k.Admits w) (hbytes : count * w.bytes < Packed.byteLimit)
    (hfetch : ∀ i, i < count → fetch i = .ok (source i)) :
    growLevelsGuarded w fetch count levels =
      .ok ⟨growLevels k.summary source count levels, length_growLevels ..⟩ := by
  -- Each level is the items of the level above, so all that was assumed of the items goes up with it.
  induction levels generalizing source' count' fetch source count with
  | nil => rfl
  | cons level upper ih =>
    obtain ⟨hsize, -, hupper⟩ := h
    have hmono : level.size ≤ count / 16 := by rw [hsize]; exact Nat.div_le_div_right hle
    have hfits : EntriesFit k w (count / 16) := entriesFit_div hadmits hbytes
    -- A level gains entries, or it does not and the levels above are left.
    rcases Nat.lt_or_eq_of_le hmono with hgain | hnone
    · have hgrown : extendGuarded w fetch (count / 16) (count / 16 - level.size) level =
          .ok (extend k.summary source (count / 16 - level.size) level) :=
        extendGuarded_ok hfits (fun i hi => hfetch i (by omega)) _ (by omega)
      have hgrownsize := size_extend (S := k.summary) source (count / 16 - level.size) level
      have hgrownfits : EntriesFit k w
          (extend k.summary source (count / 16 - level.size) level).size := hfits.mono (by omega)
      have hgrownbytes : (extend k.summary source (count / 16 - level.size) level).size * w.bytes <
          Packed.byteLimit := Nat.lt_of_le_of_lt (Nat.mul_le_mul_right _ (by omega)) hbytes
      have habove := ih hupper (by omega) hgrownbytes fun i hi => fetchEntry_ok hgrownfits hi
      have hsome : ¬ count / 16 - level.size = 0 := by omega
      rw [growLevelsGuarded_of_gain hfits hgain hgrown habove]
      simp only [growLevels, if_neg hsome]
    · have hzero : count / 16 - level.size = 0 := by omega
      simp only [growLevelsGuarded, growLevels, if_pos hnone.symm, if_pos hzero]
      rfl

end Pyramid

/-! ## Edits of the samples -/

namespace Packed

/-- Counting the samples that were appended breaks no contract. -/
theorem appendGuarded_eq (payload : ByteArray) (p : Packed w) :
    appendGuarded payload p = append payload p := by
  rw [appendGuarded, get_bind_eq]
  cases happend : append payload p with
  | error v p' => exact bind_eq_error.2 (.inl happend)
  | ok added p' =>
    obtain ⟨-, hroom, rfl, -⟩ := append_eq_ok.1 happend
    -- The counts are those of bytes that are held, so their sum is a word.
    have hsum : p.count + payload.size / w.bytes < Word.limit := by
      have hheld : p.count ≤ p.bytes.size := p.count_eq ▸ Nat.div_le_self _ _
      have hadded : payload.size / w.bytes ≤ payload.size := Nat.div_le_self _ _
      unfold byteLimit at hroom
      unfold Word.limit
      omega
    have hcounted : Word.add p.count (payload.size / w.bytes) =
        .ok (p.count + payload.size / w.bytes) := if_pos hsum
    exact bind_eq_ok.2 ⟨_, p', happend, bind_eq_ok.2 ⟨_, p', lift_eq_ok.2 ⟨hcounted, rfl⟩, rfl⟩⟩

/-- Nor does counting those that are left. -/
theorem removeGuarded_eq (first stop : Nat) (p : Packed w) :
    removeGuarded first stop p = remove first stop p := by
  rw [removeGuarded, get_bind_eq]
  cases hrange : SampleRange.check p.count first stop with
  | error v =>
    -- Both look at the range first.
    have hremove : remove first stop p = .error v p := by
      rw [remove, get_bind_eq, hrange]
      rfl
    rw [hremove]
    rfl
  | ok range =>
    -- The offsets are within the bytes, so they are words.
    obtain ⟨rfl, rfl⟩ := SampleRange.check_eq_ok.1 hrange
    have hlimit := p.size_lt_limit
    have hstop := p.mul_le_size range.within
    have hfirst : range.first * w.bytes ≤ range.stop * w.bytes := Nat.mul_le_mul_right _ range.ordered
    have hfirstword : Word.mul range.first w.bytes = .ok (range.first * w.bytes) := if_pos (by omega)
    have hstopword : Word.mul range.stop w.bytes = .ok (range.stop * w.bytes) := if_pos (by omega)
    have hlength : Word.sub range.stop range.first = .ok (range.stop - range.first) :=
      if_pos range.ordered
    have hleft : Word.sub p.count (range.stop - range.first) =
        .ok (p.count - (range.stop - range.first)) :=
      if_pos (Nat.le_trans (Nat.sub_le _ _) range.within)
    -- The unguarded removal succeeds, and so does each check around it.
    have hremove := remove_ok p range
    rw [hremove]
    refine bind_eq_ok.2 ⟨range, p, rfl, ?_⟩
    refine bind_eq_ok.2 ⟨_, p, lift_eq_ok.2 ⟨hfirstword, rfl⟩, ?_⟩
    refine bind_eq_ok.2 ⟨_, p, lift_eq_ok.2 ⟨hstopword, rfl⟩, ?_⟩
    refine bind_eq_ok.2 ⟨(), _, hremove, ?_⟩
    refine bind_eq_ok.2 ⟨_, _, lift_eq_ok.2 ⟨hlength, rfl⟩, ?_⟩
    exact bind_eq_ok.2 ⟨_, _, lift_eq_ok.2 ⟨hleft, rfl⟩, rfl⟩

end Packed

/-! ## Edits -/

namespace Trace

/-- The pyramid is brought up to the samples without breaking a contract, if it sums up some of them. -/
theorem summarizeGuarded_eq {t : Trace k} {source : Nat → k.Entry} {count : Nat}
    (h : t.pyramid.Covers k.summary source count) (hle : count ≤ t.count) :
    summarizeGuarded t = .ok () t.summarize := by
  have hbytes : t.count * t.width.bytes < Packed.byteLimit := by
    rw [Trace.count, t.samples.count_mul]
    exact t.samples.bounded
  have hlevels := Pyramid.StandOver.growLevelsGuarded_eq h hle t.admitted hbytes
    fun i hi => Signal.leafGuarded_ok t.samples hi
  have hgrow : t.pyramid.growGuarded t.width (k.leafGuarded t.samples) t.count =
      .ok (t.pyramid.grow k.summary (k.leaf t.samples.word) t.count) := by
    rw [Pyramid.growGuarded, hlevels]
    rfl
  obtain ⟨width, admitted, samples, pyramid, removals⟩ := t
  rw [summarizeGuarded, get_bind_eq, hgrow]
  rfl

/-- Operations that do the same to the samples do the same to the trace. -/
theorem onSamples_congr {α : Type} {act act' : {w : Width} → Operation (Packed w) α}
    (h : ∀ (w : Width) (p : Packed w), act p = act' p) (t : Trace k) :
    onSamples act t = onSamples act' t := by
  obtain ⟨width, admitted, samples, pyramid, removals⟩ := t
  simp only [onSamples, h]

/-- With all checks samples are appended as without. -/
theorem appendGuarded_eq {t : Trace k} (h : t.Summed) (payload : ByteArray) :
    appendGuarded payload t = append payload t := by
  have hsamples : onSamples (Packed.appendGuarded payload) t = onSamples (Packed.append payload) t :=
    onSamples_congr (fun _ p => Packed.appendGuarded_eq payload p) t
  cases happend : onSamples (Packed.append payload) t with
  | error v t' =>
    exact (bind_eq_error.2 (.inl (hsamples.trans happend))).trans
      (bind_eq_error.2 (.inl happend)).symm
  | ok added t' =>
    obtain ⟨p, hp, rfl⟩ := onSamples_eq_ok.1 happend
    have hle : t.count ≤ p.count := Packed.count_le_of_append (Packed.append_eq_ok.1 hp).2.2.2
    have hgrown : appendGuarded payload t = .ok () (summarize { t with samples := p }) :=
      bind_eq_ok.2 ⟨added, _, hsamples.trans happend, summarizeGuarded_eq h hle⟩
    exact hgrown.trans (append_eq_ok.2 ⟨added, p, hp, rfl⟩).symm

/-- With all checks samples are removed as without. -/
theorem removeGuarded_eq (first stop : Nat) (t : Trace k) :
    removeGuarded first stop t = remove first stop t := by
  have hsamples : onSamples (Packed.removeGuarded first stop) t =
      onSamples (Packed.remove first stop) t :=
    onSamples_congr (fun _ p => Packed.removeGuarded_eq first stop p) t
  cases hremove : onSamples (Packed.remove first stop) t with
  | error v t' =>
    exact (bind_eq_error.2 (.inl (hsamples.trans hremove))).trans
      (bind_eq_error.2 (.inl hremove)).symm
  | ok u t' =>
    have hplain : remove first stop t =
        .ok () (summarize { t' with pyramid := .empty, removals := t'.removals + 1 }) :=
      bind_eq_ok.2 ⟨u, t', hremove, rfl⟩
    have hgrown : removeGuarded first stop t =
        .ok () (summarize { t' with pyramid := .empty, removals := t'.removals + 1 }) := by
      -- The pyramid is built anew, from one over no samples.
      refine bind_eq_ok.2 ⟨u, t', hsamples.trans hremove, bind_eq_ok.2 ⟨(), _, rfl, ?_⟩⟩
      exact summarizeGuarded_eq (Pyramid.covers_empty fun _ => k.summary.empty) (Nat.zero_le _)
    exact hgrown.trans hplain.symm

end Trace

/-- Carries out a call, with every access checked. -/
def Edit.guarded {τ : Type} : {k : Signal} → Edit k → Operation (Recording τ k) Unit
  | _, .appendLogic payload width => Recording.appendLogicGuarded payload width
  | _, .appendAnalog xs => Recording.appendAnalogGuarded xs
  | _, .reserve expected => Recording.reserve expected
  | _, .remove first stop => Recording.removeGuarded first stop
  | _, .finish => Recording.finish

/-- On a recording whose pyramid sums up its samples, an edit breaks no contract but those that are checked
before it. -/
theorem Edit.guarded_eq {τ : Type} {r : Recording τ k} (h : r.trace.Summed) (e : Edit k) :
    e.guarded r = e.run r := by
  have honTrace {act act' : Operation (Trace k) Unit} (hact : act r.trace = act' r.trace) :
      Recording.onTrace act r = Recording.onTrace act' r := by
    simp only [Recording.onTrace, hact]
  -- The checks before the samples are reached are the same.
  cases e with
  | appendLogic payload width =>
    show Recording.appendLogicGuarded payload width r = Recording.appendLogic payload width r
    rw [Recording.appendLogicGuarded, Recording.appendLogic, get_bind_eq, get_bind_eq]
    exact require_bind_congr (require_bind_congr (require_bind_congr
      (honTrace (Trace.appendGuarded_eq h payload))))
  | appendAnalog xs =>
    show Recording.appendAnalogGuarded xs r = Recording.appendAnalog xs r
    rw [Recording.appendAnalogGuarded, Recording.appendAnalog, get_bind_eq, get_bind_eq]
    exact require_bind_congr (honTrace (Trace.appendGuarded_eq h _))
  | reserve expected => rfl
  | remove first stop => exact honTrace (Trace.removeGuarded_eq first stop r.trace)
  | finish => rfl

end Waveform
