import Waveform.Packed.Basic
import Waveform.Proofs.Operations

/-!
# Packed samples under edits

What the operations on packed samples do to the bytes and to the samples read from them.  An
operation that breaks its contract leaves the samples as they were.

Read as a list of words, packed samples are a plain list: appending a payload appends its words, and
removing a range takes it out of the list.

## Key results

- `append_eq_ok`, `reserve_eq_ok`, `remove_eq_ok`: when an operation keeps its contract, and the
  samples after it
- `atomic_append`, `atomic_remove`, `atomic_reserve`: an operation that did not has changed nothing
- `word_eq_of_append`: appending does not touch the samples before
- `words_of_append`, `words_without`: the list of samples after an append and after a removal
-/

namespace Waveform

/-- A range is accepted exactly if it can be built. -/
theorem SampleRange.check_eq_ok {count first stop : Nat} {range : SampleRange count} :
    check count first stop = .ok range ↔ range.first = first ∧ range.stop = stop := by
  constructor
  · intro h
    unfold check at h
    split at h
    · split at h
      · cases h
        exact ⟨rfl, rfl⟩
      · cases h
    · cases h
  · rintro ⟨rfl, rfl⟩
    rw [check, dif_pos range.ordered, dif_pos range.within]

namespace LittleEndian

/-- Bytes that are appended leave those before them. -/
theorem byteAt_append_of_lt (a b : ByteArray) {i : Nat} (hi : i < a.size) :
    byteAt (a ++ b) i = byteAt a i := by
  have hi' : i < (a ++ b).size := by
    rw [ByteArray.size_append]
    omega
  rw [byteAt, byteAt, dif_pos hi, dif_pos hi', ByteArray.getElem_append_left hi]

/-- A word only looks at its own bytes. -/
theorem wordAt_congr {a b : ByteArray} {i j n : Nat}
    (h : ∀ k, k < n → byteAt a (i + k) = byteAt b (j + k)) : wordAt a i n = wordAt b j n := by
  induction n generalizing i j with
  | zero => rfl
  | succ n ih =>
    have hfirst : byteAt a i = byteAt b j := h 0 (Nat.succ_pos n)
    have hrest : wordAt a (i + 1) n = wordAt b (j + 1) n := by
      apply ih
      intro k hk
      rw [Nat.add_assoc, Nat.add_assoc, Nat.add_comm 1 k]
      exact h (k + 1) (by omega)
    rw [wordAt, wordAt, hfirst, hrest]

/-- Bytes that are appended lie behind those before them. -/
theorem byteAt_append_add (a b : ByteArray) (i : Nat) : byteAt (a ++ b) (a.size + i) = byteAt b i := by
  unfold byteAt
  by_cases hi : i < b.size
  · have hlt : a.size + i < (a ++ b).size := by
      rw [ByteArray.size_append]
      omega
    rw [dif_pos hi, dif_pos hlt, ByteArray.getElem_append_right (by omega)]
    simp
  · have hge : ¬ a.size + i < (a ++ b).size := by
      rw [ByteArray.size_append]
      omega
    rw [dif_neg hi, dif_neg hge]

/-! ## Bytes as a list of words -/

/-- The words of `n` bytes in a run of bytes, one after the other. -/
def wordsOf (bytes : ByteArray) (n : Nat) : List UInt64 :=
  (List.range (bytes.size / n)).map fun i => wordAt bytes (i * n) n

/-- Bytes hold as many words as they hold whole widths. -/
@[simp] theorem length_wordsOf (bytes : ByteArray) (n : Nat) :
    (wordsOf bytes n).length = bytes.size / n := by
  simp [wordsOf]

@[simp] theorem wordsOf_empty (n : Nat) : wordsOf ByteArray.empty n = [] := by
  simp [wordsOf]

/-- Bytes behind whole words are read as further words. -/
theorem wordsOf_append {a : ByteArray} {n : Nat} (hn : 0 < n) (ha : a.size % n = 0)
    (b : ByteArray) : wordsOf (a ++ b) n = wordsOf a n ++ wordsOf b n := by
  have hsize : a.size / n * n = a.size := Nat.div_mul_cancel (Nat.dvd_of_mod_eq_zero ha)
  -- The first bytes are whole words, so no word lies across the seam.
  have hcount : (a ++ b).size / n = a.size / n + b.size / n := by
    rw [ByteArray.size_append, ← hsize, Nat.mul_comm, Nat.mul_add_div hn, Nat.mul_div_cancel_left _ hn]
  rw [wordsOf, hcount, List.range_add, List.map_append, List.map_map]
  congr 1
  · apply List.map_congr_left
    intro i hi
    have hend : (i + 1) * n ≤ a.size / n * n := Nat.mul_le_mul_right n (List.mem_range.1 hi)
    rw [hsize, Nat.add_mul, Nat.one_mul] at hend
    exact wordAt_congr fun k hk => byteAt_append_of_lt _ _ (by omega)
  · apply List.map_congr_left
    intro i _
    apply wordAt_congr
    intro k hk
    rw [Nat.add_mul, hsize, Nat.add_assoc, byteAt_append_add]

end LittleEndian

/-- A width is made from its own number of bytes. -/
theorem Width.ofNat_bytes (w : Width) : Width.ofNat w.bytes = .ok w := by
  rw [Width.ofNat, dif_pos ⟨w.pos, w.le_eight⟩]

namespace Packed

open Operation

variable {w : Width}

/-- The first samples lie within the bytes of all samples. -/
theorem mul_le_size (p : Packed w) {i : Nat} (hi : i ≤ p.count) : i * w.bytes ≤ p.bytes.size := by
  rw [← p.count_mul]
  exact Nat.mul_le_mul_right _ hi

/-- Samples that read alike are equally many, and one by one the same. -/
theorem word_eq_of_words {v : Width} {p : Packed w} {q : Packed v} (h : p.words = q.words) :
    p.count = q.count ∧ ∀ i, i < p.count → p.word i = q.word i := by
  have hcount : p.count = q.count := by
    rw [← length_words, ← length_words, h]
  refine ⟨hcount, fun i hi => ?_⟩
  have hget : p.words[i]? = q.words[i]? := by rw [h]
  rw [words, words, List.getElem?_map, List.getElem?_map, List.getElem?_range hi,
    List.getElem?_range (hcount ▸ hi)] at hget
  exact Option.some.inj hget

/-- Samples that are equally many, and one by one the same, read alike. -/
theorem words_congr {v : Width} {p : Packed w} {q : Packed v} (hcount : p.count = q.count)
    (hword : ∀ i, i < q.count → p.word i = q.word i) : p.words = q.words := by
  rw [words, words, hcount]
  exact List.map_congr_left fun i hi => hword i (List.mem_range.1 hi)

/-- Beyond the last sample words are read as `0`. -/
theorem word_of_le (p : Packed w) {i : Nat} (h : p.count ≤ i) : p.word i = 0 := by
  have hbyte : ∀ k, p.bytes.size ≤ k → LittleEndian.byteAt p.bytes k = 0 :=
    fun k hk => dif_neg (Nat.not_lt.2 hk)
  -- Behind the end every byte reads as zero, so every word does.
  have hzero : ∀ n k, p.bytes.size ≤ k → LittleEndian.wordAt p.bytes k n = 0 := by
    intro n
    induction n with
    | zero => exact fun _ _ => rfl
    | succ n ih =>
      intro k hk
      rw [LittleEndian.wordAt, hbyte k hk, ih (k + 1) (Nat.le_succ_of_le hk)]
      decide
  refine hzero _ _ ?_
  rw [← p.count_mul]
  exact Nat.mul_le_mul_right _ h

/-- Samples that read alike do so at every index. -/
theorem word_congr {v : Width} {p : Packed w} {q : Packed v} (h : p.words = q.words) :
    p.word = q.word := by
  obtain ⟨hcount, hword⟩ := word_eq_of_words h
  funext i
  rcases Nat.lt_or_ge i p.count with hi | hi
  · exact hword i hi
  · rw [p.word_of_le hi, q.word_of_le (hcount ▸ hi)]

/-- The bytes of a sample lie within the bytes of all samples. -/
theorem offset_lt (p : Packed w) {i k : Nat} (hi : i < p.count) (hk : k < w.bytes) :
    i * w.bytes + k < p.bytes.size := by
  have hle := p.mul_le_size (Nat.succ_le_of_lt hi)
  rw [Nat.succ_mul] at hle
  omega

/-- The samples are the words of the bytes. -/
theorem words_eq (p : Packed w) : p.words = LittleEndian.wordsOf p.bytes w.bytes := by
  rw [words, LittleEndian.wordsOf, ← p.count_eq]
  rfl

/-- The bytes leave no choice for the number of samples. -/
theorem eq_of_bytes_eq {p q : Packed w} (h : p.bytes = q.bytes) : p = q := by
  have hcount : p.count = q.count := by rw [p.count_eq, q.count_eq, h]
  cases p
  cases q
  cases h
  cases hcount
  rfl

/-- Whole samples can be appended as long as the address space lasts. -/
theorem append_eq_ok {payload : ByteArray} {p p' : Packed w} {added : Nat} :
    append payload p = .ok added p' ↔
      payload.size % w.bytes = 0 ∧ p.bytes.size + payload.size < byteLimit ∧
        added = payload.size / w.bytes ∧ p'.bytes = p.bytes ++ payload := by
  rw [append, Operation.get_bind_eq]
  constructor
  · intro h
    split at h
    · split at h
      · cases h
        exact ⟨‹_›, ‹_›, rfl, rfl⟩
      · cases h
    · cases h
  · -- The two checks are all that can fail, and the count follows from the bytes.
    intro hparts
    obtain ⟨hwhole, hfits, rfl, hbytes⟩ := hparts
    rw [dif_pos hwhole, dif_pos hfits]
    exact congrArg (EStateM.Result.ok _) (eq_of_bytes_eq hbytes.symm)

/-- Bytes that cannot be appended leave the samples as they were. -/
theorem atomic_append (payload : ByteArray) : Atomic (append payload : Operation (Packed w) Nat) := by
  intro p v p' h
  rw [append, Operation.get_bind_eq] at h
  split at h
  · split at h
    · cases h
    · cases h; rfl
  · cases h; rfl

/-- Making room changes nothing. -/
theorem atomic_reserve (expected : Nat) : Atomic (reserve expected : Operation (Packed w) Unit) :=
  Atomic.get_bind fun _ => Atomic.bind (.lift _) (.lift _) fun _ => .lift _

/-- There is room for what is there already and for what the address space can hold.  Making room
changes no sample. -/
theorem reserve_eq_ok {expected : Nat} {p p' : Packed w} :
    reserve expected p = .ok () p' ↔
      expected * w.bytes < Word.limit ∧
        (expected * w.bytes ≤ p.bytes.size ∨ expected * w.bytes < byteLimit) ∧ p' = p := by
  constructor
  · intro h
    rw [reserve, Operation.get_bind_eq] at h
    obtain ⟨_, _, hmul, h⟩ := bind_eq_ok.1 h
    obtain ⟨hmul, rfl⟩ := lift_eq_ok.1 hmul
    obtain ⟨hroom, rfl⟩ := lift_eq_ok.1 h
    unfold Word.mul at hmul
    split at hmul
    · cases hmul
      exact ⟨‹_›, require_eq_ok.1 hroom, rfl⟩
    · exact nomatch hmul
  · intro hparts
    obtain ⟨hmul, hroom, rfl⟩ := hparts
    have hwanted : Word.mul expected w.bytes = .ok (expected * w.bytes) := by
      rw [Word.mul, if_pos hmul]
    rw [reserve, Operation.get_bind_eq]
    refine bind_eq_ok.2 ⟨_, _, lift_eq_ok.2 ⟨hwanted, rfl⟩, ?_⟩
    exact lift_eq_ok.2 ⟨require_eq_ok.2 hroom, rfl⟩

/-- Samples that cannot be removed leave all of them as they were. -/
theorem atomic_remove (first stop : Nat) :
    Atomic (remove first stop : Operation (Packed w) Unit) :=
  Atomic.get_bind fun _ => Atomic.bind (.lift _) (.lift _) fun _ _ _ _ h => nomatch h

/-- A removal that keeps its contract removes a range of samples. -/
theorem remove_eq_ok {first stop : Nat} {p p' : Packed w} (h : remove first stop p = .ok () p') :
    ∃ r : SampleRange p.count, r.first = first ∧ r.stop = stop ∧ p' = p.without r := by
  rw [remove, Operation.get_bind_eq] at h
  obtain ⟨r, _, hcheck, h⟩ := bind_eq_ok.1 h
  obtain ⟨hcheck, rfl⟩ := lift_eq_ok.1 hcheck
  cases h
  obtain ⟨hfirst, hstop⟩ := SampleRange.check_eq_ok.1 hcheck
  exact ⟨r, hfirst, hstop, rfl⟩

/-- A range of samples that are there can be removed. -/
theorem remove_ok (p : Packed w) (r : SampleRange p.count) :
    remove r.first r.stop p = .ok () (p.without r) := by
  have hcheck : SampleRange.check p.count r.first r.stop = .ok r := SampleRange.check_eq_ok.2 ⟨rfl, rfl⟩
  rw [remove, Operation.get_bind_eq, hcheck]
  rfl

/-- Appending does not touch the samples before. -/
theorem word_eq_of_append {p p' : Packed w} {payload : ByteArray}
    (h : p'.bytes = p.bytes ++ payload) {i : Nat} (hi : i < p.count) : p'.word i = p.word i := by
  rw [word, word, h]
  exact LittleEndian.wordAt_congr fun k hk =>
    LittleEndian.byteAt_append_of_lt _ _ (p.offset_lt hi hk)

/-- Appending appends the words of the payload. -/
theorem words_of_append {p p' : Packed w} {payload : ByteArray}
    (h : p'.bytes = p.bytes ++ payload) :
    p'.words = p.words ++ LittleEndian.wordsOf payload w.bytes := by
  rw [p'.words_eq, p.words_eq, h, LittleEndian.wordsOf_append w.pos p.aligned]

/-- Whole words at the head of the bytes are the first words, and the others come after them. -/
theorem words_split (p : Packed w) {i : Nat} (hi : i ≤ p.count) :
    LittleEndian.wordsOf (p.bytes.extract 0 (i * w.bytes)) w.bytes = p.words.take i ∧
      LittleEndian.wordsOf (p.bytes.extract (i * w.bytes) p.bytes.size) w.bytes =
        p.words.drop i := by
  have hle := p.mul_le_size hi
  have hsize : (p.bytes.extract 0 (i * w.bytes)).size = i * w.bytes := by
    rw [ByteArray.size_extract]
    omega
  -- Cut between two words, the bytes are the words before and those behind.
  have hwords : p.words = LittleEndian.wordsOf (p.bytes.extract 0 (i * w.bytes)) w.bytes ++
      LittleEndian.wordsOf (p.bytes.extract (i * w.bytes) p.bytes.size) w.bytes := by
    rw [← LittleEndian.wordsOf_append w.pos (by rw [hsize, Nat.mul_mod_left]),
      ← ByteArray.extract_eq_extract_append_extract _ (Nat.zero_le _) hle,
      ByteArray.extract_zero_size, p.words_eq]
  have hlength :
      (LittleEndian.wordsOf (p.bytes.extract 0 (i * w.bytes)) w.bytes).length = i := by
    rw [LittleEndian.length_wordsOf, hsize, Nat.mul_div_cancel _ w.pos]
  rw [hwords]
  exact ⟨(List.take_left' hlength).symm, (List.drop_left' hlength).symm⟩

/-- Removing a range takes it out of the list of samples. -/
theorem words_without (p : Packed w) (r : SampleRange p.count) :
    (p.without r).words = p.words.take r.first ++ p.words.drop r.stop := by
  have hordered := r.ordered
  have hwithin := r.within
  have hle : r.first * w.bytes ≤ p.bytes.size := p.mul_le_size (by omega)
  have hwhole : (p.bytes.extract 0 (r.first * w.bytes)).size % w.bytes = 0 := by
    rw [ByteArray.size_extract, Nat.min_eq_left hle, Nat.sub_zero, Nat.mul_mod_left]
  rw [(p.without r).words_eq, ← (p.words_split (by omega)).1, ← (p.words_split hwithin).2]
  exact LittleEndian.wordsOf_append w.pos hwhole _

/-- Appending leaves no fewer samples. -/
theorem count_le_of_append {p p' : Packed w} {payload : ByteArray}
    (h : p'.bytes = p.bytes ++ payload) : p.count ≤ p'.count := by
  rw [p.count_eq, p'.count_eq, h, ByteArray.size_append]
  exact Nat.div_le_div_right (Nat.le_add_right _ _)

end Packed

end Waveform
