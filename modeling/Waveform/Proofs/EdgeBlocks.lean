import Waveform.Proofs.EdgeScan
import Waveform.Proofs.QuietWindows
import Waveform.Proofs.RecordingHistory

/-!
# The search for a block against the scan of the samples

`Trace.nextBlock` finds a block through the pyramid, `Scan.nextBlock` from the levels at the single
samples.  On a trace whose pyramid sums up its samples the two agree, and the search breaks no
contract: every sample that it looks at is there, and every sum fits in 64 bits.

In a query for single samples this takes a fact about the place from which the search sets out: the
level it is given is the one of the sample before.

## Key results

- `Summed.quiet_iff`: a quiet window is one that is complete and has no change
- `Summed.seek_samples`, `Summed.nextBlock_windows`: the search for a block in the two kinds of query
- `Summed.nextBlock_eq`: the search finds the block that the scan finds
- `Summed.search_ok`: the search for the next change of level, against the rest of the scan
-/

namespace Waveform

/-- A pyramid entry tells of each channel whether it changes. -/
theorem Signal.describes_changes (channel : Fin 64) (bit : Nat → Bool) :
    changes.Describes fun first n entry =>
      channelBit channel entry = Scan.changes bit first n where
  empty _ := Nat.zero_testBit _
  join first m n a b hleft hright := by
    rw [Scan.changes_add, ← hleft, ← hright]
    exact channelBit_or channel a b

namespace Trace

/-- The level of a channel at a sample. -/
def levelAt (t : Trace .logic) (channel : Fin 64) (i : Nat) : Bool :=
  channelBit channel (t.samples.word i)

variable {t : Trace .logic} {q : EdgeQuery} {channel : Fin 64} {level : Bool} {index : Nat}

/-- A sample that is there can be read. -/
theorem bit_ok {i : Nat} (hi : i < t.count) : t.bit channel i = .ok (t.levelAt channel i) := by
  have hsample : t.samples.sample i = .ok (t.samples.word i) := if_pos hi
  simp only [bit, hsample, bind, Except.bind, pure, Except.pure, levelAt]

/-- A sample contributes a channel if the level flips there. -/
theorem channelBit_leaf (channel : Fin 64) (i : Nat) :
    channelBit channel (Signal.leaf .logic t.samples.word i) =
      Scan.changes (t.levelAt channel) i 1 := by
  cases i with
  | zero => exact (Bool.or_false _).symm
  | succ i =>
    show channelBit channel (t.samples.word i ^^^ t.samples.word (i + 1)) =
      (t.levelAt channel (i + 1) != t.levelAt channel i || false)
    rw [Bool.or_false, channelBit, UInt64.toNat_xor, Nat.testBit_xor, levelAt, levelAt, channelBit,
      channelBit]
    exact Bool.xor_comm _ _

/-! ## Quiet windows of a trace -/

/-- A trace has fewer samples than the address space has bytes. -/
theorem count_lt (t : Trace .logic) : t.count < Packed.byteLimit :=
  t.samples.count_lt

/-- The windows of all levels are far from filling 64 bits. -/
theorem window_le {n : Nat} (hn : n < 10) : Pyramid.window n ≤ 0x10000000000 :=
  Nat.le_of_dvd (Pyramid.window_pos 9) (Pyramid.window_dvd_window (Nat.le_of_lt_succ hn))

/-- The windows that have entries end within 64 bits. -/
theorem Summed.fits (h : t.Summed) : t.pyramid.Fits := by
  intro n hn
  have hcount := t.count_lt
  have hwindow := window_le hn
  have hle : t.count / Pyramid.window n * Pyramid.window n ≤ t.count := Nat.div_mul_le_self _ _
  rw [Pyramid.Covers.size_eq h hn, Nat.add_mul, Nat.one_mul]
  unfold Packed.byteLimit at hcount
  unfold Word.limit
  omega

/-- A quiet window is complete, and the channel does not change in it. -/
theorem Summed.quiet_iff (h : t.Summed) {n i : Nat} (hn : n < 10) (halign : Pyramid.window n ∣ i) :
    t.pyramid.quiet channel n i = true ↔
      i + Pyramid.window n ≤ t.count ∧
        Scan.changes (t.levelAt channel) i (Pyramid.window n) = false := by
  -- The index is that of the window number `m`.
  obtain ⟨m, rfl⟩ := halign
  have hpos := Pyramid.window_pos n
  have hsize := Pyramid.Covers.size_eq h hn
  have hdiv : Pyramid.window n * m / Pyramid.window n = m := Nat.mul_div_cancel_left _ hpos
  -- An entry that is there tells of changes in its window, by what the pyramid covers.
  have hentry : ∀ entry, (t.pyramid.entries n)[m]? = some entry →
      channelBit channel entry =
        Scan.changes (t.levelAt channel) (Pyramid.window n * m) (Pyramid.window n) := by
    intro entry hget
    rw [Nat.mul_comm]
    exact Pyramid.Covers.entry (Signal.describes_changes channel (t.levelAt channel)) h
      (channelBit_leaf channel) hget
  -- It is there if and only if its window is complete.
  have hcomplete : m < t.pyramid.size n ↔ Pyramid.window n * m + Pyramid.window n ≤ t.count := by
    rw [hsize, ← Nat.succ_le_iff, Nat.le_div_iff_mul_le hpos, Nat.succ_mul, Nat.mul_comm]
  rw [Pyramid.quiet_eq_true_iff, hdiv]
  constructor
  · intro hparts
    obtain ⟨entry, hget, hquiet⟩ := hparts
    exact ⟨hcomplete.1 (Array.getElem?_eq_some_iff.1 hget).1, hentry entry hget ▸ hquiet⟩
  · intro hparts
    obtain ⟨hfits, hquiet⟩ := hparts
    have hget := Array.getElem?_eq_getElem (hcomplete.2 hfits)
    exact ⟨_, hget, (hentry _ hget).trans hquiet⟩

/-- Within quiet windows the channel does not change. -/
theorem Summed.flips_of_quiet (h : t.Summed) {n i : Nat} (hn : n < 10)
    (hquiet : t.pyramid.quiet channel n i) : Scan.flips (t.levelAt channel) i = false := by
  -- Whether a window is quiet can be seen from its start.
  have hdiv : i / Pyramid.window n * Pyramid.window n / Pyramid.window n =
      i / Pyramid.window n := Nat.mul_div_cancel _ (Pyramid.window_pos n)
  rw [Pyramid.quiet_congr hdiv.symm, h.quiet_iff hn (Nat.dvd_mul_left _ _)] at hquiet
  have hlt : i % Pyramid.window n < Pyramid.window n := Nat.mod_lt _ (Pyramid.window_pos n)
  have hsum := Nat.div_add_mod' i (Pyramid.window n)
  exact Scan.changes_eq_false_iff.1 hquiet.2 i (by omega) (by omega)

/-! ## The next block -/

/-- A walk looks at samples until the channel leaves the level. -/
theorem walk_ok (channel : Fin 64) (level : Bool) {n : Nat} (hcount : index + n ≤ t.count ∨ n = 0) :
    ∃ stop, t.walk channel level index n = .ok stop ∧ index ≤ stop ∧ stop ≤ index + n ∧
      (∀ i, index ≤ i → i < stop → t.levelAt channel i = level) ∧
      (stop < index + n → t.levelAt channel stop ≠ level) := by
  induction n generalizing index with
  | zero =>
    exact ⟨index, rfl, Nat.le_refl _, Nat.le_refl _, fun i hlo hhi => by omega,
      fun h => by omega⟩
  | succ n ih =>
    -- The sample at hand is read, and only one at the level lets the walk go on.
    rw [walk, bit_ok (by omega)]
    simp only
    split
    · rename_i hlevel
      obtain ⟨stop, hwalk, hlo, hhi, hstays, hleaves⟩ := @ih (index + 1) (by omega)
      refine ⟨stop, hwalk, by omega, by omega, fun i hi histop => ?_, fun h => hleaves (by omega)⟩
      by_cases heq : i = index
      · rw [heq, hlevel]
      · exact hstays i (by omega) histop
    · rename_i hlevel
      exact ⟨index, rfl, Nat.le_refl _, by omega, fun i hlo hhi => by omega, fun _ => hlevel⟩

/-- The indices of a range are far below the cap of the arithmetic. -/
theorem last_lt_addCapped {m n : Nat} : q.last < Word.addCapped m n ↔ q.last < m + n := by
  -- The cap is larger than the last index, so cutting off does not matter here.
  have hbounded := q.bounded
  unfold Word.addCapped
  omega

/-- Where no block fits in any more there is none. -/
theorem nextBlock_of_lt (h : q.last < index + q.block) : t.nextBlock q level index = .ok none := by
  simp only [nextBlock, if_pos (last_lt_addCapped.2 h)]
  rfl

/-- The block is the one at the place to which the search leads. -/
theorem nextBlock_of_start (hlast : q.last < t.count) (h : index + q.block ≤ q.last)
    {near start : Nat} {quiet : Bool}
    (happroach : t.approach q level index = .ok (some (near, quiet)))
    (hstart : t.blockStart q level near quiet = .ok start) :
    t.nextBlock q level index =
      .ok (Scan.blockAt (t.levelAt q.channel) q.last q.block start) := by
  simp only [nextBlock, last_lt_addCapped, if_neg (Nat.not_lt.2 h), happroach, hstart, bind,
    Except.bind, pure, Except.pure, Scan.blockAt]
  split
  · rfl
  · have hcap : Word.addCapped start q.block = start + q.block := by
      have hbounded := q.bounded
      unfold Word.addCapped
      omega
    have hpos := q.block_pos
    rw [hcap, bit_ok (by omega)]

/-! ## Single samples -/

/-- Where the channel is at a level just before quiet windows, it stays there in all of them. -/
theorem Summed.levelAt_of_quiet (h : t.Summed) (hpos : 0 < index)
    (hbefore : t.levelAt channel (index - 1) = level) {stop : Nat}
    (hquiet : ∀ i, index ≤ i → i < stop → t.pyramid.quiet channel 0 i) {i : Nat} (hlo : index ≤ i)
    (hhi : i < stop) : t.levelAt channel i = level := by
  rw [← hbefore]
  have hflips : ∀ j, index ≤ j → j < stop → Scan.flips (t.levelAt channel) j = false :=
    fun j hj hstop => h.flips_of_quiet (by decide) (hquiet j hj hstop)
  exact Scan.eq_of_not_flips hpos hflips (Nat.le_succ_of_le hlo) hhi

/-- A skip leads to the first sample at another level.  It needs no start of a window where the range
is over. -/
theorem Summed.skip_samples (h : t.Summed) (hdetail : q.detail = .samples) (hlast : q.last < t.count)
    (hpos : 0 < index) (hbefore : t.levelAt q.channel (index - 1) = level)
    (hplace : q.last ≤ index ∨ Pyramid.window 0 ∣ index) :
    ∃ start, t.skip q level index = .ok start ∧
      Scan.StaysUntil (t.levelAt q.channel) q.last level index start := by
  -- The search of the pyramid leads to a place up to which all windows are quiet.
  obtain ⟨top, low, htop, hlow, hle, hfirst⟩ :=
    Pyramid.exists_first_loud h.stacked h.fits q.channel 0 index
  -- From there the samples are walked.
  have hroom : low + (q.last - low) ≤ t.count ∨ q.last - low = 0 := by omega
  obtain ⟨start, hwalk, hlo, hhi, hstays, hleaves⟩ := walk_ok q.channel level hroom
  refine ⟨start, ?_, Nat.le_trans hle hlo, fun i hi histart hilast => ?_, ?_⟩
  · simp only [skip, hdetail, Detail.level, htop, hlow, hwalk, bind, Except.bind]
  · -- Before `low` the windows are quiet, and from there on the samples were looked at.
    by_cases hilow : i < low
    · have halign := hplace.resolve_left (by omega)
      exact h.levelAt_of_quiet hpos hbefore (hfirst halign).quiet hi hilow
    · exact hstays i (Nat.le_of_not_lt hilow) histart
  · -- The walk ends at the end of the range or at a change.
    by_cases hover : q.last ≤ start
    · exact .inl hover
    · exact .inr (hleaves (by omega))

/-- A search among single samples leads to the place at which the channel leaves the level. -/
theorem Summed.seek_samples (h : t.Summed) (hdetail : q.detail = .samples) (hlast : q.last < t.count)
    (hpos : 0 < index) (hbefore : t.levelAt q.channel (index - 1) = level) (hin : index < q.last) :
    ∃ near quiet start, t.approach q level index = .ok (some (near, quiet)) ∧
      t.blockStart q level near quiet = .ok start ∧
      Scan.StaysUntil (t.levelAt q.channel) q.last level index start := by
  have hcount := t.count_lt
  unfold Packed.byteLimit at hcount
  have hup : Word.roundUp index 4 = .ok ((index + 16 - 1) / 16 * 16) :=
    Word.roundUp_ok (by decide) (by show index + 16 < 0x10000000000000000; omega)
  -- The walk goes to the end of the window at hand, or of the range.
  generalize hedge : (index + 16 - 1) / 16 * 16 = edge at hup
  have hroom : index + (min q.last edge - index) ≤ t.count ∨ min q.last edge - index = 0 := by omega
  obtain ⟨near, hwalk, hlo, hhi, hstays, hleaves⟩ := walk_ok q.channel level hroom
  have happroach : t.approach q level index =
      .ok (some (near, decide (near = min q.last edge))) := by
    simp only [approach, hdetail, hup, hwalk, bind, Except.bind, pure, Except.pure]
  by_cases hquiet : near = min q.last edge
  · by_cases hsize : t.pyramid.size 0 = 0
    · -- Fewer than 16 samples, so the range was over before a window was reached.
      have hshort : t.count / 16 = 0 := (Pyramid.Covers.size_eq h (by decide)).symm.trans hsize
      refine ⟨near, _, near, happroach, ?_, hlo, fun i hi hstop _ => hstays i hi hstop, ?_⟩
      · simp only [blockStart, hdetail, Detail.level, hsize, ne_eq, not_true_eq_false, and_false,
          if_false]
      · exact .inl (by omega)
    · -- Nothing has changed up to here, so the skip sets out from the same level.
      have hbefore' : t.levelAt q.channel (near - 1) = level := by
        by_cases heq : near = index
        · rw [heq]
          exact hbefore
        · exact hstays (near - 1) (by omega) (by omega)
      have hplace : q.last ≤ near ∨ Pyramid.window 0 ∣ near := by
        rw [Pyramid.window_zero]
        omega
      obtain ⟨start, hskip, hstart⟩ :=
        h.skip_samples hdetail hlast (by omega) hbefore' hplace
      refine ⟨near, _, start, happroach, ?_, .of_stays hlo hstays hstart⟩
      simp only [blockStart, hdetail, Detail.level, hquiet, decide_true, true_and, ne_eq]
      rw [if_pos hsize, ← hquiet]
      exact hskip
  · -- The walk has met a change.
    refine ⟨near, _, near, happroach, ?_, hlo, fun i hi hstop _ => hstays i hi hstop, ?_⟩
    · simp only [blockStart, hquiet, decide_false, Bool.false_eq_true, false_and, if_false]
    · exact .inr (hleaves (by omega))

/-! ## Windows -/

/-- The first window that is not quiet is the first that changes or is not complete. -/
theorem Summed.firstWindow_eq (h : t.Summed) {n start stop : Nat} (hn : n < 10)
    (halign : Pyramid.window n ∣ start) (hfirst : t.pyramid.FirstLoud channel n start stop) :
    Scan.firstWindow (t.levelAt channel) t.count (Pyramid.window n) start (t.count + 1) = stop := by
  have hpos := Pyramid.window_pos n
  -- The windows between the two places, counted.
  obtain ⟨k, hk⟩ : Pyramid.window n ∣ stop - start := Nat.dvd_sub hfirst.dvd halign
  have hstop : stop = start + k * Pyramid.window n := by
    have hle := hfirst.le
    rw [Nat.mul_comm]
    omega
  -- Those before the loud one are quiet and complete.
  have hquiet : ∀ j, j < k → start + (j + 1) * Pyramid.window n ≤ t.count ∧
      Scan.changes (t.levelAt channel) (start + j * Pyramid.window n) (Pyramid.window n) = false := by
    intro j hj
    have hdvd : Pyramid.window n ∣ start + j * Pyramid.window n :=
      Nat.dvd_add halign (Nat.dvd_mul_left _ _)
    have hlt : j * Pyramid.window n < k * Pyramid.window n := (Nat.mul_lt_mul_right hpos).2 hj
    rw [Nat.add_mul, Nat.one_mul, ← Nat.add_assoc, ← h.quiet_iff hn hdvd]
    exact hfirst.quiet _ (Nat.le_add_right _ _) (by omega)
  -- The one that was found is not, or is incomplete.
  have hloud : t.count < stop + Pyramid.window n ∨
      Scan.changes (t.levelAt channel) stop (Pyramid.window n) = true := by
    apply Decidable.byContradiction
    intro hnone
    rw [not_or, Bool.not_eq_true, Nat.not_lt, ← h.quiet_iff hn hfirst.dvd, hfirst.loud] at hnone
    exact nomatch hnone
  rw [hstop] at hloud ⊢
  exact Scan.LoudAfter.firstWindow_eq ⟨hquiet, hloud⟩ (Scan.lt_windows hpos)

/-- From the start of a window the search leads to the first that is not quiet, unless the channel
has changed by then. -/
theorem Summed.blockStart_windows (h : t.Summed) {n : Fin 10} (hdetail : q.detail = .windows n)
    {near : Nat} (halign : Pyramid.window n ∣ near) :
    t.blockStart q level near (decide (t.levelAt q.channel near = level)) =
      .ok (if t.levelAt q.channel near = level then
        Scan.firstWindow (t.levelAt q.channel) t.count (Pyramid.window n) near (t.count + 1)
      else near) := by
  simp only [blockStart, hdetail, Detail.level, decide_eq_true_iff]
  by_cases hlevel : t.levelAt q.channel near = level
  · rw [if_pos hlevel]
    by_cases hsize : t.pyramid.size n = 0
    · -- No window is complete, not even the one at hand.
      have hshort : t.count / Pyramid.window n = 0 :=
        (Pyramid.Covers.size_eq h n.isLt).symm.trans hsize
      have hcount : t.count < Pyramid.window n :=
        (Nat.div_eq_zero_iff_lt (Pyramid.window_pos n)).1 hshort
      rw [if_neg (fun hboth => hboth.2 hsize), Scan.firstWindow, if_pos (.inl (by omega))]
    · -- The search of the pyramid ends where that over windows does.
      obtain ⟨top, stop, htop, hstop, -, hfirst⟩ :=
        Pyramid.exists_first_loud h.stacked h.fits q.channel n near
      rw [if_pos ⟨hlevel, hsize⟩, h.firstWindow_eq n.isLt halign (hfirst halign)]
      simp only [skip, hdetail, Detail.level, htop, hstop, bind, Except.bind, pure, Except.pure]
  · rw [if_neg hlevel, if_neg (fun hboth => hlevel hboth.1)]

/-- A search along windows finds the next block as a scan of all windows does. -/
theorem Summed.nextBlock_windows (h : t.Summed) {n : Fin 10} (hdetail : q.detail = .windows n)
    (hlast : q.last < t.count) (hin : index + q.block ≤ q.last) :
    t.nextBlock q level index =
      .ok (Scan.nextBlock (t.levelAt q.channel)
        (Scan.seekWindow (t.levelAt q.channel) t.count q.last q.block (Pyramid.window n)) q.last
        q.block level index) := by
  have hcount := t.count_lt
  have hwindow := window_le n.isLt
  unfold Packed.byteLimit at hcount
  have hup : Word.roundUp index (Pyramid.power n) =
      .ok ((index + Pyramid.window n - 1) / Pyramid.window n * Pyramid.window n) :=
    Word.roundUp_ok (Pyramid.power_lt n.isLt)
      (by show index + Pyramid.window n < 0x10000000000000000; omega)
  have halign : Pyramid.window n ∣
      (index + Pyramid.window n - 1) / Pyramid.window n * Pyramid.window n := Nat.dvd_mul_left _ _
  -- Both sides look at the first window from the index on.
  simp only [Scan.nextBlock, Scan.seekWindow, Nat.not_lt.2 hin, false_or]
  generalize (index + Pyramid.window n - 1) / Pyramid.window n * Pyramid.window n = near at *
  -- A window that starts at the end of the range or behind it ends both searches.
  by_cases hover : q.last ≤ near
  · have happroach : t.approach q level index = .ok none := by
      simp only [approach, hdetail, hup, if_pos hover, bind, Except.bind, pure, Except.pure]
    have hgo : ¬ q.last < index + q.block := Nat.not_lt.2 hin
    simp only [nextBlock, last_lt_addCapped, if_neg hgo, if_pos hover, happroach, bind,
      Except.bind, pure, Except.pure, Option.bind]
  · -- Else the first sample of the window decides whether the search skips.
    have happroach : t.approach q level index =
        .ok (some (near, decide (t.levelAt q.channel near = level))) := by
      simp only [approach, hdetail, hup, if_neg hover, bit_ok (Nat.lt_trans (Nat.not_le.1 hover) hlast),
        bind, Except.bind, pure, Except.pure]
    rw [nextBlock_of_start hlast hin happroach (h.blockStart_windows hdetail halign), if_neg hover]
    split <;> rfl

/-! ## The search -/

/-- Where a scan of the samples for a query seeks the next block. -/
def seek (t : Trace .logic) (q : EdgeQuery) : Bool → Nat → Option Nat :=
  match q.detail with
  | .samples => Scan.seekSample (t.levelAt q.channel) q.last
  | .windows n =>
    Scan.seekWindow (t.levelAt q.channel) t.count q.last q.block (Pyramid.window n)

/-- The edges from an index on, as a scan of the samples finds them. -/
def edgesFrom (t : Trace .logic) (q : EdgeQuery) (level : Bool) (index : Nat) : List Edge :=
  Scan.edgesFrom (t.levelAt q.channel) (t.seek q) q.last q.block level index

/-- The search for a block goes forward, whatever the detail. -/
theorem forward_seek (t : Trace .logic) (q : EdgeQuery) : Scan.Forward (t.seek q) := by
  unfold seek
  split
  · exact Scan.forward_seekSample
  · exact Scan.forward_seekWindow (Pyramid.window_pos _)

/-- The edges from a sample on are those of the next block and of what follows it. -/
theorem edgesFrom_eq (t : Trace .logic) (q : EdgeQuery) (level : Bool) (index : Nat) :
    t.edgesFrom q level index =
      match Scan.nextBlock (t.levelAt q.channel) (t.seek q) q.last q.block level index with
      | none => Scan.ending (t.levelAt q.channel) q.last level
      | some b =>
        if b.level = level then t.edgesFrom q level b.stop
        else ⟨b.start, b.level⟩ :: t.edgesFrom q b.level b.stop :=
  Scan.edgesFrom_eq (t.forward_seek q) q.block_pos level index

/-- The search for a block through the pyramid finds what a scan of the samples finds. -/
theorem Summed.nextBlock_eq (h : t.Summed) (hlast : q.last < t.count) (hpos : 0 < index)
    (hbefore : t.levelAt q.channel (index - 1) = level) :
    t.nextBlock q level index =
      .ok (Scan.nextBlock (t.levelAt q.channel) (t.seek q) q.last q.block level index) := by
  by_cases hover : q.last < index + q.block
  · rw [nextBlock_of_lt hover, Scan.nextBlock_of_lt (t.forward_seek q) hover]
  · have hin : index + q.block ≤ q.last := Nat.le_of_not_lt hover
    cases hdetail : q.detail with
    | samples =>
      have hblock := q.block_pos
      obtain ⟨near, quiet, start, happroach, hstart, hstays⟩ :=
        h.seek_samples hdetail hlast hpos hbefore (by omega)
      rw [nextBlock_of_start hlast hin happroach hstart, seek, hdetail]
      rw [Scan.nextBlock_of_staysUntil hblock hstays]
    | windows n =>
      rw [h.nextBlock_windows hdetail hlast hin, seek, hdetail]

/-- The search for a change of level goes from block to block as the scan does.  It never breaks a
contract, and it knows the level before the place at which it ends. -/
theorem Summed.search_ok (h : t.Summed) (hlast : q.last < t.count) (hpos : 0 < index)
    (hbefore : t.levelAt q.channel (index - 1) = level) :
    (t.search q level index = .ok none ∧
      t.edgesFrom q level index = Scan.ending (t.levelAt q.channel) q.last level) ∨
    ∃ b, t.search q level index = .ok (some b) ∧
      t.edgesFrom q level index = ⟨b.start, b.level⟩ :: t.edgesFrom q b.level b.stop ∧
      t.levelAt q.channel (b.stop - 1) = b.level := by
  -- The cases: no answer, no block, a block that is passed over, a block that is reported.
  fun_induction Trace.search t q level index with
  | case1 index v hfail =>
    rw [h.nextBlock_eq hlast hpos hbefore] at hfail
    cases hfail
  | case2 index hnone =>
    rw [h.nextBlock_eq hlast hpos hbefore, Except.ok.injEq] at hnone
    refine .inl ⟨rfl, ?_⟩
    rw [edgesFrom_eq, hnone]
  -- The block ends at the level that the scan had: both go on behind it.
  | case3 index b hsome hsame ih =>
    rw [h.nextBlock_eq hlast hpos hbefore, Except.ok.injEq] at hsome
    have hblock := q.block_pos
    obtain ⟨-, hstop, -, hlevel⟩ := Scan.nextBlock_eq_some hsome
    have hgo : t.edgesFrom q level index = t.edgesFrom q level b.stop := by
      rw [edgesFrom_eq, hsome]
      exact if_pos hsame
    rw [hgo]
    exact ih (by omega) (hlevel.symm.trans hsame)
  | case4 index b hsome hchange =>
    rw [h.nextBlock_eq hlast hpos hbefore, Except.ok.injEq] at hsome
    obtain ⟨-, -, -, hlevel⟩ := Scan.nextBlock_eq_some hsome
    refine .inr ⟨b, rfl, ?_, hlevel.symm⟩
    rw [edgesFrom_eq, hsome]
    exact if_neg hchange

end Trace

end Waveform
