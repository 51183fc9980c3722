import Mathlib.Order.Bounds.Basic
import Waveform.Proofs.NumberLists
import Waveform.Proofs.QuietWindows

/-!
# Envelopes and the numbers they stand for

An envelope is a slice of one pyramid level, and the numbers of the same range are read from the
samples.  Here the two are compared: the slice has one entry for every complete window of the level
from the one that holds the first number of the range up to the end of the range, and each entry shows
the numbers that are read of its window.

The slice is cut to the entries that the level has.  It has one for every complete window of the trace
(`Pyramid.Covers.size_eq`), so a range within the trace loses nothing by that.

## Key results

- `Extent.Outlines.shows`: what an entry says of indices, it says of the numbers that are read
- `Trace.envelope_eq_ok`: the slice that an envelope is
- `Recording.envelope_shows`: every entry of an envelope shows the numbers of its window
-/

namespace Waveform

variable {τ : Type}

/-- A window of a level holds `16 ^ (level + 1)` samples. -/
theorem Pyramid.window_eq_pow (level : Nat) : window level = Nat.pow 16 (level + 1) := by
  induction level with
  | zero => rfl
  | succ level ih => rw [window_succ, ih]; rfl

/-! ## What an entry shows -/

namespace Extent

/-- The entry shows the numbers: it is a gap exactly if there is a NaN among them, and a bar reaches from
the least of their values to the greatest. -/
def Shows (entry : Extent) (xs : Array Binary32) : Prop :=
  (entry = .gap ↔ ∃ x ∈ xs, x.isNaN = true) ∧
  ∀ low high, entry = .bar low high → low.isNaN = false ∧ high.isNaN = false ∧
    IsLeast {v | ∃ x ∈ xs, x.value = v} low.value ∧
    IsGreatest {v | ∃ x ∈ xs, x.value = v} high.value

/-- What an entry says of indices, it says of the numbers at these indices. -/
theorem Outlines.shows {source : Nat → Binary32} {first n : Nat} {entry : Extent}
    (h : entry.Outlines source first n) {xs : Array Binary32}
    (hxs : ∀ x, x ∈ xs ↔ ∃ i, first ≤ i ∧ i < first + n ∧ source i = x) : entry.Shows xs := by
  obtain ⟨hgap, hbar⟩ := h
  -- With a NaN among the numbers the entry is a gap, and without one it is a bar.
  by_cases hnan : ∃ i, first ≤ i ∧ i < first + n ∧ (source i).isNaN = true
  · obtain rfl := hgap hnan
    obtain ⟨i, hlo, hhi, hi⟩ := hnan
    refine ⟨⟨fun _ => ⟨source i, (hxs _).2 ⟨i, hlo, hhi, rfl⟩, hi⟩, fun _ => rfl⟩, ?_⟩
    intro low high heq
    cases heq
  · have hnumbers : ∀ i, first ≤ i → i < first + n → (source i).isNaN = false :=
      fun i hlo hhi => Bool.eq_false_iff.2 fun hi => hnan ⟨i, hlo, hhi, hi⟩
    obtain ⟨low, high, rfl, hlow, hhigh, hbounds, ⟨i, hilo, hihi, hleast⟩, j, hjlo, hjhi, hmost⟩ :=
      hbar hnumbers
    constructor
    · constructor
      · intro heq
        cases heq
      · rintro ⟨x, hx, hxnan⟩
        obtain ⟨i, hlo, hhi, rfl⟩ := (hxs x).1 hx
        exact absurd ⟨i, hlo, hhi, hxnan⟩ hnan
    · intro low' high' heq
      cases heq
      -- The bounds are numbers of the window, and no number is outside of them.
      refine ⟨hlow, hhigh, ⟨⟨source i, (hxs _).2 ⟨i, hilo, hihi, rfl⟩, hleast.symm⟩, ?_⟩,
        ⟨source j, (hxs _).2 ⟨j, hjlo, hjhi, rfl⟩, hmost.symm⟩, ?_⟩
      · rintro v ⟨x, hx, rfl⟩
        obtain ⟨i, hlo, hhi, rfl⟩ := (hxs x).1 hx
        exact (hbounds i hlo hhi).1
      · rintro v ⟨x, hx, rfl⟩
        obtain ⟨i, hlo, hhi, rfl⟩ := (hxs x).1 hx
        exact (hbounds i hlo hhi).2

/-- A number that an entry shows lies within its bar, unless the entry is a gap. -/
theorem Shows.bounds {entry : Extent} {xs : Array Binary32} (h : entry.Shows xs) {x : Binary32}
    (hx : x ∈ xs) :
    entry = .gap ∨ ∃ low high, entry = .bar low high ∧ low.value ≤ x.value ∧ x.value ≤ high.value := by
  cases entry with
  | gap => exact .inl rfl
  | bar low high =>
    obtain ⟨-, -, hleast, hgreatest⟩ := h.2 low high rfl
    exact .inr ⟨low, high, rfl, hleast.2 ⟨x, hx, rfl⟩, hgreatest.2 ⟨x, hx, rfl⟩⟩

end Extent

namespace Trace

/-- The numbers of a range are those at its indices. -/
theorem mem_extract_numberList {t : Trace .analog} {first stop : Nat} (hwithin : stop ≤ t.count)
    (x : Binary32) :
    x ∈ (t.numberList.extract first stop).toArray ↔
      ∃ i, first ≤ i ∧ i < stop ∧ t.numberAt i = x := by
  rw [List.mem_toArray, List.extract_eq_take_drop, List.mem_iff_getElem]
  simp only [List.length_take, List.length_drop, length_numberList, List.getElem_take,
    List.getElem_drop, getElem_numberList]
  constructor
  · rintro ⟨n, hn, rfl⟩
    exact ⟨first + n, by omega, by omega, rfl⟩
  · rintro ⟨i, hlo, hhi, rfl⟩
    exact ⟨i - first, by omega, by rw [Nat.add_sub_cancel' hlo]⟩

/-- An envelope is the slice of a level between the windows of the two ends. -/
theorem Summed.envelope_eq_ok {t : Trace .analog} (h : t.Summed) {first stop : Nat}
    {resolution : Binary32} (hordered : first ≤ stop) (hwithin : stop ≤ t.count)
    (hpos : Binary32.zero < resolution) :
    let level : Nat := levelFor resolution
    let W := Pyramid.window level
    t.envelope first stop resolution =
      .ok ⟨first / W * W, W, stop / W - first / W,
        (t.pyramid.entries level).extract (first / W) (stop / W)⟩ := by
  intro level W
  have hsize : (t.pyramid.entries level).size = t.count / W :=
    Pyramid.Covers.size_eq h (levelFor resolution).isLt
  have hfirst : first / W ≤ stop / W := Nat.div_le_div_right hordered
  have hstop : stop / W ≤ t.count / W := Nat.div_le_div_right hwithin
  have hlow : min (first / W) (t.count / W) = first / W := by omega
  have hhigh : max (first / W) (min (stop / W) (t.count / W)) = stop / W := by omega
  have hshift : (first / W) <<< Pyramid.power level = first / W * W := by
    rw [Nat.shiftLeft_eq, show W = 1 <<< Pyramid.power level from rfl, Nat.one_shiftLeft]
  -- The requirements hold, so the slice is what is left.
  rw [envelope, require, if_pos hordered, require, if_pos hpos, require, if_pos hwithin]
  show Except.ok _ = _
  simp only [Pyramid.shiftRight_power]
  rw [hsize, hlow, hhigh, hshift]

/-- An entry shows the numbers that are read of its window. -/
theorem Summed.shows {t : Trace .analog} (h : t.Summed) {level : Nat} (hlevel : level < 10) {n : Nat}
    {entry : Extent} (hget : (t.pyramid.entries level)[n]? = some entry) :
    ∃ xs, t.numbers (n * Pyramid.window level) ((n + 1) * Pyramid.window level) = .ok xs ∧
      entry.Shows xs ∧
      ∀ i, n * Pyramid.window level ≤ i → i < (n + 1) * Pyramid.window level → t.numberAt i ∈ xs := by
  -- An entry that is there has all of its samples.
  have hn : n < t.count / Pyramid.window level := by
    rw [← Pyramid.Covers.size_eq h hlevel]
    exact (Array.getElem?_eq_some_iff.1 hget).1
  have hwithin : (n + 1) * Pyramid.window level ≤ t.count :=
    (Nat.le_div_iff_mul_le (Pyramid.window_pos level)).1 hn
  have hordered : n * Pyramid.window level ≤ (n + 1) * Pyramid.window level :=
    Nat.mul_le_mul_right _ (Nat.le_succ n)
  have hmem (x : Binary32) :
      x ∈ (t.numberList.extract (n * Pyramid.window level) ((n + 1) * Pyramid.window level)).toArray ↔
        ∃ i, n * Pyramid.window level ≤ i ∧ i < (n + 1) * Pyramid.window level ∧
          t.numberAt i = x := mem_extract_numberList hwithin x
  refine ⟨_, numbers_eq hordered hwithin, (h.outlines hget).shows fun x => ?_,
    fun i hlo hhi => (hmem _).2 ⟨i, hlo, hhi, rfl⟩⟩
  rw [hmem, Nat.add_mul, Nat.one_mul]

/-- The entries of a slice of a level show the numbers of the windows from the first of the slice on. -/
theorem Summed.shows_extract {t : Trace .analog} (h : t.Summed) {level : Nat} (hlevel : level < 10)
    {first stop j : Nat} (hj : j < ((t.pyramid.entries level).extract first stop).size) :
    let W := Pyramid.window level
    ∃ xs, t.numbers (first * W + j * W) (first * W + (j + 1) * W) = .ok xs ∧
      ((t.pyramid.entries level).extract first stop)[j].Shows xs ∧
      ∀ i, first * W + j * W ≤ i → i < first * W + (j + 1) * W → t.numberAt i ∈ xs := by
  intro W
  have hget : (t.pyramid.entries level)[first + j]? =
      some ((t.pyramid.entries level).extract first stop)[j] := by
    rw [Array.getElem_extract, Array.getElem?_eq_getElem]
  have hentry := h.shows hlevel hget
  rw [Nat.add_assoc, Nat.add_mul, Nat.add_mul] at hentry
  exact hentry

end Trace

namespace Recording

/-- Whatever was done to an analog recording, an envelope of a range of it agrees with its numbers.  The
windows are those of the level for the resolution.  The envelope starts with the window that holds the
first number of the range, and has an entry for each window from there that ends within the range, as
many as its length says.  An entry shows the numbers that are read of its window, so every number of the
range up to the end of the last window lies within the bar of its window, unless a NaN has made that
window a gap. -/
theorem envelope_shows {r : Recording τ .analog} (h : r.Reachable) {first stop : Nat}
    {resolution : Binary32} (hordered : first ≤ stop) (hwithin : stop ≤ r.count)
    (hpos : Binary32.zero < resolution) :
    ∃ e, r.trace.envelope first stop resolution = .ok e ∧
      e.scale = Nat.pow 16 ((levelFor resolution : Nat) + 1) ∧
      e.start = first / e.scale * e.scale ∧
      e.length = stop / e.scale - first / e.scale ∧ e.extents.size = e.length ∧
      (∀ j (hj : j < e.extents.size), ∃ xs,
        r.trace.numbers (e.start + j * e.scale) (e.start + (j + 1) * e.scale) = .ok xs ∧
          e.extents[j].Shows xs) ∧
      ∀ i x, first ≤ i → i < stop / e.scale * e.scale → r.trace.number i = .ok x →
        ∃ j, ∃ hj : j < e.extents.size,
          e.start + j * e.scale ≤ i ∧ i < e.start + (j + 1) * e.scale ∧
          (e.extents[j] = .gap ∨ ∃ low high, e.extents[j] = .bar low high ∧
            low.value ≤ x.value ∧ x.value ≤ high.value) := by
  have hsummed := h.summed
  let level : Nat := levelFor resolution
  let W := Pyramid.window level
  have hlevel : level < 10 := (levelFor resolution).isLt
  have hWpos : 0 < W := Pyramid.window_pos level
  let entries := r.trace.pyramid.entries level
  have hsize : entries.size = r.count / W := Pyramid.Covers.size_eq hsummed hlevel
  have hstop : stop / W ≤ r.count / W := Nat.div_le_div_right hwithin
  have hlength : (entries.extract (first / W) (stop / W)).size = stop / W - first / W := by
    rw [Array.size_extract]
    omega
  refine ⟨_, hsummed.envelope_eq_ok hordered hwithin hpos, Pyramid.window_eq_pow level, rfl, rfl, hlength,
    fun j hj => ?_, fun i x hlo hhi hx => ?_⟩
  · -- Each entry shows the numbers of its window.
    obtain ⟨xs, hread, hentry, -⟩ := hsummed.shows_extract hlevel hj
    exact ⟨xs, hread, hentry⟩
  · -- A sample is shown by the entry of the window it is in.
    have hi : i / W < stop / W := (Nat.div_lt_iff_lt_mul hWpos).2 hhi
    have hfirst : first / W ≤ i / W := Nat.div_le_div_right hlo
    have hj : i / W - first / W < (entries.extract (first / W) (stop / W)).size := by omega
    -- The window of `i`, counted from the first of the envelope.
    have hstart : first / W * W + (i / W - first / W) * W = i / W * W := by
      rw [← Nat.add_mul, Nat.add_sub_cancel' hfirst]
    have hend : first / W * W + (i / W - first / W + 1) * W = (i / W + 1) * W := by
      rw [← Nat.add_mul, ← Nat.add_assoc, Nat.add_sub_cancel' hfirst]
    have hilo : i / W * W ≤ i := Nat.div_mul_le_self i W
    have hihi : i < (i / W + 1) * W := (Nat.div_lt_iff_lt_mul hWpos).1 (Nat.lt_succ_self _)
    have hcount : i < r.trace.count := by
      have := Nat.div_mul_le_self stop W
      exact Nat.lt_of_lt_of_le hhi (Nat.le_trans this hwithin)
    obtain ⟨xs, -, hentry, hmem⟩ := hsummed.shows_extract hlevel hj
    rw [hstart, hend] at hmem
    obtain rfl : r.trace.numberAt i = x := Except.ok.inj ((Trace.number_eq_ok hcount).symm.trans hx)
    exact ⟨_, hj, hstart ▸ hilo, hend ▸ hihi, hentry.bounds (hmem i hilo hihi)⟩

/-- Numbers that arrive in two steps, and the first of which is removed.  An envelope from the fourth
number on starts with the whole first window, whose greatest number comes before the range, and there is
a NaN in the second window. -/
theorem envelope_shows_whole_window :
    ∃ r r₁ r₂ r₃ : Recording Rat .analog,
      startAnalog 1000 0 = .ok r ∧
      (Edit.appendAnalog (#[⟨0⟩, ⟨0⟩, ⟨0x3f800000⟩] ++ Array.replicate 14 ⟨0⟩)).run r = .ok () r₁ ∧
      (Edit.appendAnalog (#[⟨0xbf800000⟩, ⟨0x7fc00000⟩] ++ Array.replicate 15 ⟨0⟩)).run r₁ =
        .ok () r₂ ∧
      (Edit.remove 0 1).run r₂ = .ok () r₃ ∧ r₃.Reachable ∧
      ∃ e, r₃.trace.envelope 3 33 ⟨0x41800000⟩ = .ok e ∧ e.start = 0 ∧ e.scale = 16 ∧
        e.extents.size = 2 ∧ e.extents[1]? = some .gap ∧
        ∃ low high, e.extents[0]? = some (.bar low high) ∧
          low.value = Binary32.zero.value ∧ high.value = Binary32.value ⟨0x3f800000⟩ := by
  have hruns : ∃ r r₁ r₂ r₃ : Recording Rat .analog,
      startAnalog 1000 0 = .ok r ∧
      (Edit.appendAnalog (#[⟨0⟩, ⟨0⟩, ⟨0x3f800000⟩] ++ Array.replicate 14 ⟨0⟩)).run r = .ok () r₁ ∧
      (Edit.appendAnalog (#[⟨0xbf800000⟩, ⟨0x7fc00000⟩] ++ Array.replicate 15 ⟨0⟩)).run r₁ =
        .ok () r₂ ∧
      (Edit.remove 0 1).run r₂ = .ok () r₃ :=
    ⟨_, _, _, _, rfl, rfl, rfl, rfl⟩
  obtain ⟨r, r₁, r₂, r₃, hstart, happend, happend', hremove⟩ := hruns
  have hreachable : r₃.Reachable :=
    (((Reachable.startAnalog hstart).of_eq_ok _ happend).of_eq_ok _ happend').of_eq_ok
      (.remove 0 1) hremove
  -- The numbers that are left, and with them those of both windows.
  have hlist := Edit.numberList_of_eq_ok hremove
  rw [Edit.numberList_of_eq_ok happend', Edit.numberList_of_eq_ok happend,
    numberList_of_start hstart] at hlist
  have hnumbers : r₃.trace.numberList = [⟨0⟩, ⟨0x3f800000⟩] ++ List.replicate 14 ⟨0⟩ ++
      [⟨0xbf800000⟩, ⟨0x7fc00000⟩] ++ List.replicate 15 ⟨0⟩ :=
    (congrArg NumberList.numbers hlist).trans (by decide +kernel)
  have hcount : r₃.trace.count = 33 := by
    rw [← Trace.length_numberList, hnumbers]
    rfl
  have hwindow : r₃.trace.numbers 0 16 =
      .ok (#[⟨0⟩, ⟨0x3f800000⟩] ++ Array.replicate 14 ⟨0⟩) := by
    rw [Trace.numbers_eq (by decide) (by omega), hnumbers]
    rfl
  have hwindow' : r₃.trace.numbers 16 32 =
      .ok (#[⟨0xbf800000⟩, ⟨0x7fc00000⟩] ++ Array.replicate 14 ⟨0⟩) := by
    rw [Trace.numbers_eq (by decide) (by omega), hnumbers]
    rfl
  have hpos : Binary32.zero < ⟨0x41800000⟩ := by decide
  obtain ⟨e, henvelope, hscale, hfirst, hlength, hsize, hshows, -⟩ :=
    envelope_shows hreachable (show 3 ≤ 33 by decide) (Nat.le_of_eq hcount.symm) hpos
  rw [show levelFor ⟨0x41800000⟩ = 0 by decide] at hscale
  have hscale : e.scale = 16 := hscale
  rw [hscale] at hfirst hlength hshows
  have hfirst : e.start = 0 := hfirst
  have htwo : e.extents.size = 2 := hsize.trans hlength
  rw [hfirst] at hshows
  refine ⟨r, r₁, r₂, r₃, hstart, happend, happend', hremove, hreachable, e, henvelope, hfirst, hscale,
    htwo, ?_, ?_⟩
  · -- The second window starts with the NaN.
    obtain ⟨xs, hread, hgap, -⟩ := hshows 1 (by omega)
    obtain rfl := Except.ok.inj (hwindow'.symm.trans hread)
    rw [Array.getElem?_eq_getElem (by omega), hgap.2 ⟨⟨0x7fc00000⟩, by decide +kernel⟩]
  · obtain ⟨xs, hread, hgap, hbar⟩ := hshows 0 (by omega)
    obtain rfl := Except.ok.inj (hwindow.symm.trans hread)
    rw [Array.getElem?_eq_getElem (by omega)]
    cases hentry : e.extents[0] with
    | gap => exact absurd (hgap.1 hentry) (by decide +kernel)
    | bar low high =>
      obtain ⟨-, -, hleast, hgreatest⟩ := hbar low high hentry
      have hbounds : ∀ x ∈ (#[⟨0⟩, ⟨0x3f800000⟩] ++ Array.replicate 14 ⟨0⟩ : Array Binary32),
          Binary32.zero.value ≤ x.value ∧ x.value ≤ Binary32.value ⟨0x3f800000⟩ := by decide +kernel
      refine ⟨low, high, rfl,
        hleast.unique ⟨⟨Binary32.zero, by decide +kernel, rfl⟩, ?_⟩,
        hgreatest.unique ⟨⟨⟨0x3f800000⟩, by decide +kernel, rfl⟩, ?_⟩⟩
      · rintro v ⟨x, hx, rfl⟩
        exact (hbounds x hx).1
      · rintro v ⟨x, hx, rfl⟩
        exact (hbounds x hx).2

end Recording

end Waveform
