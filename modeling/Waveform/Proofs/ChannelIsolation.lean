import Waveform.Proofs.EdgeQueries

/-!
# Channels apart from each other

The channels of a logic recording share its samples, the entries of its pyramid and the search through
it.  An edge query sees its own channel nevertheless: what it yields is a scan of the levels of that one
channel, so recordings that agree on the channel are told apart by no query on it, whatever the other
channels do and however the recordings came about.

A sample of few bytes has no bits for the upper channels, which then are always low.

## Key results

- `LittleEndian.testBit_wordAt`: a word has no bits beyond its bytes
- `Trace.edgeQuery_congr`, `Trace.scan_congr`: a query and its scan look at nothing but the number of
  samples and the levels of the channel
- `Recording.edges_of_channel`: recordings that agree on a channel yield the same edges of it
-/

namespace Waveform

/-- Above its bytes a word has no bits. -/
theorem LittleEndian.testBit_wordAt (bytes : ByteArray) (i : Nat) {n k : Nat} (h : 8 * n ≤ k) :
    (wordAt bytes i n).toNat.testBit k = false := by
  -- On the bytes: the low one is below bit 8, and the rest is shifted up by as much.
  induction n generalizing i k with
  | zero => exact Nat.zero_testBit k
  | succ n ih =>
    have hlow : (byteAt bytes i).toNat.testBit k = false := by
      apply Nat.testBit_lt_two_pow
      calc (byteAt bytes i).toNat < 2 ^ 8 := (byteAt bytes i).toNat_lt
        _ ≤ 2 ^ k := Nat.pow_le_pow_right (by decide) (by omega)
    have hhigh : (wordAt bytes (i + 1) n <<< 8).toNat.testBit k = false := by
      have hrest : (wordAt bytes (i + 1) n).toNat.testBit (k - 8) = false := ih _ (by omega)
      rw [UInt64.toNat_shiftLeft, show (8 : UInt64).toNat % 64 = 8 from rfl,
        Nat.testBit_mod_two_pow, Nat.testBit_shiftLeft, hrest, Bool.and_false, Bool.and_false]
    rw [wordAt, UInt64.toNat_or, Nat.testBit_or, UInt8.toNat_toUInt64, hlow, hhigh]
    rfl

namespace Trace

variable {t t' : Trace .logic} {channel : Fin 64}

/-- A channel for which the samples have no bit is low. -/
theorem levelAt_of_width_le (h : 8 * t.width.bytes ≤ channel) (i : Nat) :
    t.levelAt channel i = false :=
  LittleEndian.testBit_wordAt _ _ h

/-- The traces have the same number of samples, and the channel has the same level in each of them. -/
structure AgreeOn (channel : Fin 64) (t t' : Trace .logic) : Prop where
  count_eq : t.count = t'.count
  level_eq : ∀ i, i < t.count → t.levelAt channel i = t'.levelAt channel i

/-- Beyond the last sample all channels are low, so that traces agree there too. -/
theorem AgreeOn.levelAt_eq (h : AgreeOn channel t t') : t.levelAt channel = t'.levelAt channel := by
  funext i
  rcases Nat.lt_or_ge i t.count with hi | hi
  · exact h.level_eq i hi
  · have hi' : t'.count ≤ i := h.count_eq ▸ hi
    rw [levelAt, levelAt, t.samples.word_of_le hi, t'.samples.word_of_le hi']

/-- Whether a query is accepted, and what it asks for, depends on the number of samples alone. -/
theorem edgeQuery_congr (h : t.count = t'.count) (first last : Nat) (spacing : Binary32)
    (channel : Nat) :
    t.edgeQuery first last spacing channel = t'.edgeQuery first last spacing channel := by
  unfold edgeQuery
  simp only [h]

/-- An accepted query is for the channel that was asked for, within the samples. -/
theorem edgeQuery_bounds {first last channel : Nat} {spacing : Binary32} {q : EdgeQuery}
    (h : t.edgeQuery first last spacing channel = .ok q) :
    q.last < t.count ∧ q.channel = channel := by
  unfold edgeQuery at h
  split at h
  · rename_i hlast
    split at h
    · split at h
      · split at h
        · cases h
          exact ⟨hlast, rfl⟩
        · cases h
      · cases h
    · cases h
  · cases h

/-- A scan looks at the levels of one channel. -/
theorem scan_congr {q : EdgeQuery} (h : AgreeOn q.channel t t') : Scan.edges t q = Scan.edges t' q := by
  have hbit : (fun i => channelBit q.channel (t.samples.word i)) =
      fun i => channelBit q.channel (t'.samples.word i) := h.levelAt_eq
  simp only [Scan.edges, hbit, h.count_eq]

/-- A query that is refused has no edges. -/
theorem edges_of_error {v : Violation} {first last channel : Nat} {spacing : Binary32}
    (h : t.edgeQuery first last spacing channel = .error v) :
    t.edges first last spacing channel = .error v := by
  simp only [edges, edgesInto, openEdges, h, bind, Except.bind]

end Trace

namespace Recording

open Trace

/-- Two logic recordings, whatever was done to them, of any rates and sample widths.  If they have the
same number of samples and agree on a channel, then each query for the edges of that channel yields the
same on both: the same edges if it is accepted, which depends on the range and the resolution alone, and
otherwise the same violation.  A channel beyond the width of the samples counts as low. -/
theorem edges_of_channel {τ τ' : Type} {r : Recording τ .logic} {r' : Recording τ' .logic}
    (h : r.Reachable) (h' : r'.Reachable) {channel : Fin 64} (hcount : r.count = r'.count)
    (hlevel : ∀ i, i < r.count → r.trace.levelAt channel i = r'.trace.levelAt channel i) :
    (∀ (first last : Nat) (spacing : Binary32),
      r.trace.edges first last spacing channel = r'.trace.edges first last spacing channel ∧
      (first ≤ last → last < r.count → Binary32.zero < spacing → spacing.isFinite →
        ∃ edges, r.trace.edges first last spacing channel = .ok edges)) ∧
    (8 * r.trace.width.bytes ≤ channel → ∀ i, r.trace.levelAt channel i = false) := by
  have hagree : AgreeOn channel r.trace r'.trace := ⟨hcount, hlevel⟩
  refine ⟨fun first last spacing => ⟨?_, ?_⟩, levelAt_of_width_le⟩
  · -- Both requests are refused for the same reason, or accepted as the same query.
    have hquery := edgeQuery_congr hcount first last spacing channel
    cases hq : r.trace.edgeQuery first last spacing channel with
    | error v => rw [edges_of_error hq, edges_of_error (hquery ▸ hq)]
    | ok q =>
      obtain ⟨hlast, hchannel⟩ := edgeQuery_bounds hq
      have hlast' : q.last < r'.trace.count := Nat.lt_of_lt_of_eq hlast hcount
      have hsame : q.channel = channel := Fin.ext hchannel
      -- Each answer is the scan of its own trace, and the scans see one channel only.
      rw [h.summed.edges_ok hlast hq, h'.summed.edges_ok hlast' (hquery ▸ hq),
        scan_congr (hsame ▸ hagree)]
  · intro hrange hlast hpos hfinite
    exact ⟨_, h.edges_ok hrange hlast ⟨hpos, hfinite⟩ channel.isLt⟩

/-- Two rises of channel 0, alone in samples of one byte, and among busy channels in samples of two bytes
of another rate, from which the first two were removed. -/
theorem edges_of_channel_among_busy_ones :
    ∃ r full r' : Recording Rat .logic,
      ofLogic 1000 1 0 0 ⟨Array.replicate 20 0 ++ #[1, 1, 1, 0, 0] ++ Array.replicate 11 1⟩ = .ok r ∧
      ofLogic 7 2 5 0 ⟨#[1, 1, 0, 3] ++ Array.replicate 36 4 ++
        #[6, 1, 0, 8, 3, 9, 1, 0, 5, 5, 2, 255, 0, 7] ++ Array.replicate 22 65⟩ = .ok full ∧
      (Edit.remove 0 2).run full = .ok () r' ∧ r.trace.samples.words ≠ r'.trace.samples.words ∧
      ∃ edges, r.trace.edges 1 33 ⟨0x41880000⟩ 0 = .ok edges ∧
        r'.trace.edges 1 33 ⟨0x41880000⟩ 0 = .ok edges := by
  -- The recordings are evaluated: they differ in their words but not on the channel.
  have hruns : ∃ r full r' : Recording Rat .logic,
      ofLogic 1000 1 0 0 ⟨Array.replicate 20 0 ++ #[1, 1, 1, 0, 0] ++ Array.replicate 11 1⟩ = .ok r ∧
      ofLogic 7 2 5 0 ⟨#[1, 1, 0, 3] ++ Array.replicate 36 4 ++
        #[6, 1, 0, 8, 3, 9, 1, 0, 5, 5, 2, 255, 0, 7] ++ Array.replicate 22 65⟩ = .ok full ∧
      (Edit.remove 0 2).run full = .ok () r' ∧ r.trace.samples.words ≠ r'.trace.samples.words ∧
      33 < r.count ∧ r.count = r'.count ∧
      ∀ i, i < r.count → r.trace.levelAt 0 i = r'.trace.levelAt 0 i :=
    ⟨_, _, _, rfl, rfl, rfl, by decide +kernel, by decide +kernel, by decide +kernel,
      by decide +kernel⟩
  obtain ⟨r, full, r', hr, hfull, hremove, hdiffer, hlast, hcount, hlevel⟩ := hruns
  have hreachable' : r'.Reachable := (reachable_ofLogic hfull).of_eq_ok (.remove 0 2) hremove
  obtain ⟨hsame, haccepted⟩ := (edges_of_channel (reachable_ofLogic hr) hreachable' hcount hlevel).1
    1 33 ⟨0x41880000⟩
  obtain ⟨edges, hedges⟩ := haccepted (by decide) hlast (by decide) (by decide)
  exact ⟨r, full, r', hr, hfull, hremove, hdiffer, edges, hedges, hsame.symm.trans hedges⟩

end Recording

end Waveform
