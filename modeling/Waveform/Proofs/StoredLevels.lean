import Mathlib.Data.List.Forall2
import Waveform.Proofs.StoredSamples
import Waveform.Storage.Levels

/-!
# The stored levels of a pyramid

A stored level holds a level of a pyramid: it counts its entries, it has the room that is made for so
many, and each entry is found at its place on the shelf.  The shelf is longer than that, and what is left
of it is zero.

Extending stored levels extends the levels that they hold, and no check fails on the way.  The finest
level is made from bytes, with the last sample before them carried along; that sample is the one at which
the entries before end, which is what an entry over a whole run of samples asks for.

## Key results

- `Signal.Keeps.enlarge`, `Signal.Keeps.place`: what making room and putting an entry do to a shelf
- `Signal.absorbRun_eq`: the entry that is made from bytes and what is carried is that of its window
- `StoredLevel.growFinest_of_gain`, `StoredLevel.growCoarser_ok`: extending levels
- `StoredLevel.Holds.unique`: the entries leave no choice for what is stored
-/

namespace Waveform

open Operation

variable {k : Signal} {w : Width}

namespace LittleEndian

variable {bytes : ByteArray} {n : Nat}

/-- Where all bytes are zero, the word is. -/
theorem wordAt_eq_zero {i : Nat} (h : ∀ k, i ≤ k → k < i + n → byteAt bytes k = 0) :
    wordAt bytes i n = 0 := by
  induction n generalizing i with
  | zero => rfl
  | succ n ih =>
    have hrest := ih (i := i + 1) fun k hlo hhi => h k (by omega) (by omega)
    rw [wordAt, h i (Nat.le_refl i) (by omega), hrest]
    decide

/-- The bytes after a word was written at a position. -/
def written (bytes : ByteArray) (start n : Nat) (word : UInt64) : ByteArray :=
  bytes.extract 0 start ++ packed (bytes.extract start bytes.size) n word

/-- Writing a word leaves as many bytes. -/
theorem size_written {start : Nat} (h : start + n ≤ bytes.size) (word : UInt64) :
    (written bytes start n word).size = bytes.size := by
  have htail : n ≤ (bytes.extract start bytes.size).size := by
    rw [ByteArray.size_extract]
    omega
  rw [written, ByteArray.size_append, size_packed htail, ByteArray.size_extract,
    ByteArray.size_extract]
  omega

/-- Bytes outside those that were written are as before. -/
theorem byteAt_written_of_ne {start i : Nat} (h : start + n ≤ bytes.size) (word : UInt64)
    (hi : i < start ∨ start + n ≤ i) : byteAt (written bytes start n word) i = byteAt bytes i := by
  have hhead : (bytes.extract 0 start).size = start := by
    rw [ByteArray.size_extract]
    omega
  have htail : (bytes.extract start bytes.size).size = bytes.size - start := by
    rw [ByteArray.size_extract, Nat.min_self]
  rcases hi with hbefore | hbehind
  · -- Before the word, the byte is one of the copied head.
    have hread : byteAt (bytes.extract 0 start) i = byteAt bytes (0 + i) :=
      byteAt_extract (by omega) (by omega)
    rw [written, byteAt_append_of_lt _ _ (by omega), hread, Nat.zero_add]
  · -- Behind it, the byte is one of the tail that was packed, behind the bytes of the word.
    have hread := byteAt_append_add (bytes.extract 0 start)
      (packed (bytes.extract start bytes.size) n word) (i - start)
    rw [hhead, Nat.add_sub_cancel' (by omega),
      byteAt_packed (by omega) word (by omega)] at hread
    rw [written, hread]
    -- Behind the end, both read as zero.
    rcases Nat.lt_or_ge i bytes.size with hin | hout
    · rw [byteAt_extract (by omega) (Nat.le_refl _), Nat.add_sub_cancel' (by omega)]
    · rw [byteAt, byteAt, dif_neg (by omega), dif_neg (by omega)]

/-- A word of few enough bytes is read back where it was written. -/
theorem wordAt_written_self {start : Nat} (h : start + n ≤ bytes.size) {word : UInt64}
    (hword : word.toNat < 1 <<< (8 * n)) : wordAt (written bytes start n word) start n = word := by
  have hhead : (bytes.extract 0 start).size = start := by
    rw [ByteArray.size_extract]
    omega
  have htail : n ≤ (bytes.extract start bytes.size).size := by
    rw [ByteArray.size_extract]
    omega
  -- The word lies in the tail, so it is what packing put at its front.
  have hown : wordAt (written bytes start n word) start n =
      wordAt (packed (bytes.extract start bytes.size) n word) 0 n := by
    refine wordAt_congr fun k _ => ?_
    have hread := byteAt_append_add (bytes.extract 0 start)
      (packed (bytes.extract start bytes.size) n word) k
    rw [hhead] at hread
    rw [written, hread, Nat.zero_add]
  have hread := unpack_packed htail word
  rw [unpack_eq_ok (by rw [size_packed htail]; exact htail), Nat.mod_eq_of_lt hword] at hread
  rw [hown, Except.ok.inj hread]
  exact UInt64.ofNat_toNat

/-- Words are kept in `n` bytes each: the others are as before when one is written. -/
theorem wordAt_written_of_ne {i j : Nat} (h : j * n + n ≤ bytes.size) (word : UInt64) (hne : i ≠ j) :
    wordAt (written bytes (j * n) n word) (i * n) n = wordAt bytes (i * n) n := by
  refine wordAt_congr fun k hk => byteAt_written_of_ne h word ?_
  rcases Nat.lt_or_gt_of_ne hne with hlt | hgt
  · have hend := Nat.mul_le_mul_right n (Nat.succ_le_of_lt hlt)
    rw [Nat.succ_mul] at hend
    exact .inl (by omega)
  · have hend := Nat.mul_le_mul_right n (Nat.succ_le_of_lt hgt)
    rw [Nat.succ_mul] at hend
    exact .inr (by omega)

end LittleEndian

namespace Signal

/-! ## Shelves -/

/-- The bytes of a sample are enough for the entry. -/
def Fits (w : Width) : (k : Signal) → k.Entry → Prop
  | .logic, changed => changed.toNat < 1 <<< (8 * w.bytes)
  | .analog, _ => True

/-- A shelf with room for `room` entries keeps the entries of a level, each at its place.  Behind the last
one the bytes of a logic shelf are zero. -/
def Keeps (w : Width) : (k : Signal) → (room : Nat) → k.Shelf → Array k.Entry → Prop
  | .logic, room, bytes, level => bytes.size = room * w.bytes ∧
      ∀ i, i < room → LittleEndian.wordAt bytes (i * w.bytes) w.bytes = level.getD i 0
  | .analog, _, extents, level => extents = level

/-- A shelf without room keeps no entries. -/
theorem keeps_empty : k.Keeps w 0 k.emptyShelf #[] := by
  cases k with
  | logic => exact ⟨(Nat.zero_mul _).symm, fun i hi => absurd hi (Nat.not_lt_zero i)⟩
  | analog => rfl

variable {room : Nat} {shelf : k.Shelf} {level : Array k.Entry}

/-- The place of an entry for which there is room lies within the bytes. -/
theorem place_le {bytes : ByteArray} (hsize : bytes.size = room * w.bytes) {i : Nat} (hi : i < room) :
    i * w.bytes + w.bytes ≤ bytes.size := by
  have hend := Nat.mul_le_mul_right w.bytes (Nat.succ_le_of_lt hi)
  rwa [Nat.succ_mul, ← hsize] at hend

/-- Room and entries leave no choice for the shelf. -/
theorem Keeps.unique {shelf' : k.Shelf} (h : k.Keeps w room shelf level)
    (h' : k.Keeps w room shelf' level) : shelf = shelf' := by
  cases k with
  | logic =>
    obtain ⟨hsize, hword⟩ := h
    obtain ⟨hsize', hword'⟩ := h'
    exact LittleEndian.eq_of_wordAt_eq w.le_eight w.pos hsize hsize'
      fun i hi => (hword i hi).trans (hword' i hi).symm
  | analog =>
    have hleft : shelf = level := h
    have hright : shelf' = level := h'
    rw [hleft, hright]

/-- Entries that are there are found. -/
theorem Keeps.fetch (h : k.Keeps w room shelf level) {i : Nat} (hi : i < level.size)
    (hroom : level.size ≤ room) (hlimit : room * w.bytes < Packed.byteLimit) :
    k.fetch w shelf i = .ok (level.getD i k.summary.empty) := by
  cases k with
  | logic =>
    -- Logic entries are bytes: the offset is in range, so the bounds of the slice hold.
    obtain ⟨hsize, hword⟩ := h
    have hplace := place_le hsize (Nat.lt_of_lt_of_le hi hroom)
    unfold Packed.byteLimit at hlimit
    have hstart : Word.mul i w.bytes = .ok (i * w.bytes) := if_pos (by unfold Word.limit; omega)
    have hlow : i * w.bytes ≤ shelf.size := by omega
    rw [Signal.fetch, hstart, ok_bind, require_eq_ok.2 hlow, ok_bind,
      LittleEndian.unpack_extract hplace, hword i (by omega)]
    rfl
  | analog =>
    -- Analog entries are kept as they are.
    obtain rfl : shelf = level := h
    rw [Signal.fetch, require_eq_ok.2 hi]
    rfl

/-- An entry is put at the first place that is free. -/
theorem Keeps.place (h : k.Keeps w room shelf level) (hroom : level.size < room)
    (hlimit : room * w.bytes < Packed.byteLimit) {entry : k.Entry} (hfits : k.Fits w entry) :
    ∃ shelf', k.place w shelf level.size entry = .ok shelf' ∧
      k.Keeps w room shelf' (level.push entry) := by
  cases k with
  | logic =>
    obtain ⟨hsize, hword⟩ := h
    have hplace := place_le hsize hroom
    unfold Packed.byteLimit at hlimit
    have hstart : Word.mul level.size w.bytes = .ok (level.size * w.bytes) :=
      if_pos (by unfold Word.limit; omega)
    have hlow : level.size * w.bytes ≤ shelf.size := by omega
    have htail : w.bytes ≤ (shelf.extract (level.size * w.bytes) shelf.size).size := by
      rw [ByteArray.size_extract]
      omega
    -- The write succeeds, keeps the size, and changes this word only.
    refine ⟨LittleEndian.written shelf (level.size * w.bytes) w.bytes entry, ?_, ?_, fun i hi => ?_⟩
    · rw [Signal.place, hstart, ok_bind, require_eq_ok.2 hlow, ok_bind,
        LittleEndian.pack_eq_ok w.le_eight htail]
      rfl
    · rw [LittleEndian.size_written hplace, hsize]
    · by_cases hlast : i = level.size
      · subst hlast
        rw [LittleEndian.wordAt_written_self hplace hfits]
        simp
      · rw [LittleEndian.wordAt_written_of_ne hplace entry hlast, hword i hi]
        simp only [Array.getD_eq_getD_getElem?, Array.getElem?_push, if_neg hlast]
  | analog =>
    obtain rfl : shelf = level := h
    exact ⟨_, rfl, rfl⟩

/-- Bytes are cut off or filled up to the size that is asked for. -/
theorem size_resized (bytes : ByteArray) (size : Nat) : (resized bytes size).size = size := by
  rw [resized, ByteArray.size_append, ByteArray.size_extract]
  show _ + (Array.replicate _ _).size = _
  rw [Array.size_replicate]
  omega

/-- The bytes that are filled up are zero, as if they were read beyond the end. -/
theorem byteAt_resized {bytes : ByteArray} {size : Nat} (h : bytes.size ≤ size) (i : Nat) :
    LittleEndian.byteAt (resized bytes size) i = LittleEndian.byteAt bytes i := by
  -- The size does not shrink, so the whole of the old bytes is copied.
  have hhead : bytes.extract 0 size = bytes := by
    apply ByteArray.ext_getElem
    · rw [ByteArray.size_extract]
      omega
    · intro i _ _
      rw [ByteArray.getElem_extract]
      simp only [Nat.zero_add]
  rw [resized, hhead]
  -- An old byte, or one of the zeros behind them.
  rcases Nat.lt_or_ge i bytes.size with hin | hout
  · exact LittleEndian.byteAt_append_of_lt _ _ hin
  · have hread := LittleEndian.byteAt_append_add bytes ⟨Array.replicate (size - bytes.size) 0⟩
      (i - bytes.size)
    rw [Nat.add_sub_cancel' hout] at hread
    rw [hread, LittleEndian.byteAt, LittleEndian.byteAt, dif_neg (Nat.not_lt.2 hout)]
    split
    · exact Array.getElem_replicate _
    · rfl

/-- Making room leaves the entries where they are, and zeros behind them. -/
theorem Keeps.enlarge {wanted length : Nat} (h : k.Keeps w room shelf level) (hroom : level.size ≤ room)
    (hmore : room ≤ wanted) (hfits : Pyramid.EntriesFit k w length)
    (hwanted : wanted ≤ length + 65536) :
    ∃ shelf', k.enlarge w wanted shelf = .ok shelf' ∧ k.Keeps w wanted shelf' level := by
  cases k with
  | logic =>
    obtain ⟨hsize, hword⟩ := h
    -- The allocation is within the memory limit.
    have hclaim := Pyramid.claimBytes_ok hfits (Nat.zero_le wanted) hwanted
    have hle : shelf.size ≤ wanted * w.bytes := by
      rw [hsize]
      exact Nat.mul_le_mul_right _ hmore
    refine ⟨resized shelf (wanted * w.bytes), ?_, size_resized _ _, fun i _ => ?_⟩
    · rw [Signal.enlarge, hclaim]
      rfl
    · -- The new bytes are zero, which is what an entry that is not there reads as.
      have hsame := LittleEndian.wordAt_congr (n := w.bytes) (i := i * w.bytes) (j := i * w.bytes)
        fun k _ => byteAt_resized hle (i * w.bytes + k)
      rw [hsame]
      by_cases hold : i < room
      · exact hword i hold
      · -- There was no byte here before.
        have hbeyond := Nat.mul_le_mul_right w.bytes (Nat.le_of_not_lt hold)
        have hnone : level.size ≤ i := by omega
        rw [Array.getD_eq_getD_getElem?, Array.getElem?_eq_none hnone]
        exact LittleEndian.wordAt_eq_zero fun j hlo _ => dif_neg (by omega)
  | analog =>
    obtain rfl : shelf = level := h
    have hclaim := Pyramid.claimBytes_ok hfits (Nat.le_trans hroom hmore) hwanted
    refine ⟨_, ?_, rfl⟩
    rw [Signal.enlarge, hclaim]
    rfl

/-- Entries that are made one after the other are put behind those that are there.  `Ready` is what is
known of what is carried before the entry at an offset is made. -/
theorem Keeps.fill {c : Type} (make : Nat → c → Except Violation (c × k.Entry))
    (source : Nat → k.Entry) (Ready : Nat → c → Prop) {length : Nat}
    (hroom : length ≤ room) (hlimit : room * w.bytes < Packed.byteLimit)
    (hmake : ∀ offset carry, offset < length → Ready offset carry →
      ∃ carry', make offset carry = .ok (carry', k.summary.run source (16 * offset) 16) ∧
        Ready (offset + 1) carry')
    (hfits : ∀ offset, offset < length → k.Fits w (k.summary.run source (16 * offset) 16))
    (n : Nat) {shelf : k.Shelf} {level : Array k.Entry} {carry : c}
    (h : k.Keeps w room shelf level) (hsize : level.size + n = length)
    (hready : Ready level.size carry) :
    ∃ carry' shelf', k.fill w make n level.size carry shelf = .ok (carry', shelf') ∧
      Ready length carry' ∧ k.Keeps w room shelf' (Pyramid.extend k.summary source n level) := by
  induction n generalizing shelf level carry with
  | zero => exact ⟨carry, shelf, rfl, hsize ▸ hready, h⟩
  | succ n ih =>
    obtain ⟨next, hentry, hnext⟩ := hmake level.size carry (by omega) hready
    obtain ⟨shelf₁, hplace, hkeeps⟩ := h.place (by omega) hlimit (hfits level.size (by omega))
    rw [← Array.size_push] at hnext
    obtain ⟨carry', shelf', hrest, hlast, hall⟩ := ih hkeeps (by rw [Array.size_push]; omega) hnext
    rw [Array.size_push] at hrest
    refine ⟨carry', shelf', ?_, hlast, hall⟩
    rw [Signal.fill, hentry, ok_bind]
    dsimp only
    rw [hplace, ok_bind, hrest]

/-! ## What goes into an entry -/

/-- An entry that joins entries of few enough bytes has no more. -/
theorem fits_run {source : Nat → k.Entry} {first n : Nat}
    (h : ∀ i, first ≤ i → i < first + n → k.Fits w (source i)) :
    k.Fits w (k.summary.run source first n) := by
  cases k with
  | logic =>
    exact @Summary.Describes.run _ _ _ (describes_lt (8 * w.bytes)) source 1 first n h
  | analog => trivial

/-- What a sample contributes has no more bytes than a sample. -/
theorem fits_leaf (p : Packed w) (i : Nat) : k.Fits w (k.leaf p.word i) := by
  cases k with
  | logic => exact p.toNat_leaf_lt i
  | analog => trivial

/-- Where the entries that are added to a level fit as those do that are there, all of them fit. -/
theorem fits_extend {source : Nat → k.Entry} (n : Nat) {level : Array k.Entry}
    (hlevel : ∀ i, i < level.size → k.Fits w (level.getD i k.summary.empty))
    (hsource : ∀ offset, offset < level.size + n →
      k.Fits w (k.summary.run source (16 * offset) 16)) :
    ∀ i, i < level.size + n →
      k.Fits w ((Pyramid.extend k.summary source n level).getD i k.summary.empty) := by
  induction n generalizing level with
  | zero => exact hlevel
  | succ n ih =>
    -- One entry is pushed and the rest is the hypothesis at the longer level.
    have hentry := hsource level.size (by omega)
    have hpushed := @ih (level.push (k.summary.run source (16 * level.size) 16))
    rw [Array.size_push, show level.size + 1 + n = level.size + (n + 1) by omega] at hpushed
    refine hpushed (fun i hi => ?_) hsource
    rw [Array.getD_eq_getD_getElem?]
    -- An entry of the longer level is an old one or the one that was pushed.
    rcases Nat.lt_succ_iff_lt_or_eq.1 hi with hold | rfl
    · rw [Array.getElem?_push_lt hold, ← Array.getElem?_eq_getElem hold,
        ← Array.getD_eq_getD_getElem?]
      exact hlevel i hold
    · rw [Array.getElem?_push_size]
      exact hentry

/-- What is carried once the first `n` samples went into entries. -/
def carried : (k : Signal) → (Nat → UInt64) → Nat → k.Carry
  | .logic, word, n => previous word n
  | .analog, _, _ => ()

/-- Before the first sample nothing is carried. -/
theorem carried_zero (word : Nat → UInt64) : k.carried word 0 = k.noCarry := by
  cases k <;> rfl

/-- What is carried depends on the samples that went into entries alone. -/
theorem carried_congr {word word' : Nat → UInt64} {n : Nat} (h : ∀ i, i < n → word i = word' i) :
    k.carried word n = k.carried word' n := by
  cases k with
  | logic =>
    cases n with
    | zero => rfl
    | succ n => exact h n (Nat.lt_succ_self n)
  | analog => rfl

/-- Samples that are read from bytes, after what was carried up to the first of them, give the entry over
them and what is to be carried on. -/
theorem absorbRun_eq {word : Nat → UInt64} {bytes : ByteArray} {first start n : Nat}
    (hword : ∀ j, j < n →
      LittleEndian.wordAt bytes ((first + j) * w.bytes) w.bytes = word (start + j)) :
    k.absorbRun w bytes first n (k.carried word start, k.summary.empty) =
      (k.carried word (start + n), k.summary.run (k.leaf word) start n) := by
  induction n with
  | zero => rfl
  | succ n ih =>
    have hinit := ih fun j hj => hword j (by omega)
    have hlast := hword n (Nat.lt_succ_self n)
    -- The window without its last sample is the hypothesis, so one sample is left.
    simp only [absorbRun, hinit, hlast]
    cases k with
    | logic =>
      refine Prod.ext rfl ?_
      -- What the sample contributes is how it differs from the one that was carried.
      have hleaf : leaf .logic word (start + n) = previous word (start + n) ^^^ word (start + n) := by
        cases start + n with
        | zero => exact UInt64.zero_xor.symm
        | succ i => rfl
      show _ ||| (previous word (start + n) ^^^ word (start + n)) = _
      rw [← hleaf]
      rfl
    | analog => rfl

/-- The bytes of a range of whole windows are absorbed window by window. -/
theorem absorbRun_bytesOf (p : Packed w) {range : SampleRange p.count} {held length offset : Nat}
    (hfirst : range.first = held * 16) (hstop : range.stop = length * 16) (hle : held ≤ offset)
    (hlt : offset < length) :
    k.absorbRun w (p.bytesOf range) ((offset - held) * 16) 16
        (k.carried p.word (16 * offset), k.summary.empty) =
      (k.carried p.word (16 * (offset + 1)), k.summary.run (k.leaf p.word) (16 * offset) 16) := by
  refine absorbRun_eq fun j hj => ?_
  have hplace : range.first + ((offset - held) * 16 + j) = 16 * offset + j := by omega
  rw [p.wordAt_bytesOf range (by omega), hplace]

end Signal

/-- The entries over samples that are held fit in the address space. -/
theorem Packed.entriesFit (p : Packed w) (hadmits : k.Admits w) :
    Pyramid.EntriesFit k w (p.count / 16) :=
  Pyramid.entriesFit_div hadmits (p.count_mul ▸ p.bounded)

namespace Pyramid.EntriesFit

/-- The room that is made for entries fits in the address space as well. -/
theorem room_lt {length : Nat} (h : EntriesFit k w length) : room length * w.bytes < Packed.byteLimit := by
  have hentries := h.2
  have hroom : room length ≤ length + 65535 := by
    unfold room
    omega
  have hbytes := Nat.mul_le_mul_right w.bytes hroom
  have height := w.le_eight
  rw [Nat.mul_right_comm] at hentries
  rw [Nat.add_mul] at hbytes
  unfold Packed.byteLimit at hentries ⊢
  omega

end Pyramid.EntriesFit

namespace StoredLevel

/-! ## Levels -/

/-- A stored level holds a level of a pyramid. -/
structure Holds (w : Width) (stored : StoredLevel k) (level : Array k.Entry) : Prop where
  length_eq : stored.length = level.size
  room_eq : stored.room = Pyramid.room level.size
  keeps : k.Keeps w stored.room stored.shelf level
  fits : ∀ i, i < level.size → k.Fits w (level.getD i k.summary.empty)

/-- A level without entries holds none. -/
theorem holds_empty : Holds w (empty : StoredLevel k) #[] :=
  ⟨rfl, show 0 = Pyramid.room 0 from rfl, Signal.keeps_empty, fun i hi => absurd hi (Nat.not_lt_zero i)⟩

variable {stored : StoredLevel k} {level : Array k.Entry}

/-- Entries that are there are found. -/
theorem Holds.fetch (h : Holds w stored level) (hfits : Pyramid.EntriesFit k w level.size) {i : Nat}
    (hi : i < level.size) : k.fetch w stored.shelf i = .ok (level.getD i k.summary.empty) :=
  h.keeps.fetch hi (h.room_eq ▸ Pyramid.le_room _) (h.room_eq ▸ hfits.room_lt)

/-- Room is made for all entries that a level is to have. -/
theorem Holds.makeRoom (h : Holds w stored level) {length : Nat} (hle : level.size ≤ length)
    (hfits : Pyramid.EntriesFit k w length) :
    ∃ shelf, { stored with length }.makeRoom w = .ok ⟨length, Pyramid.room length, shelf⟩ ∧
      k.Keeps w (Pyramid.room length) shelf level := by
  have hlength := hfits.length_lt
  unfold Packed.byteLimit at hlength
  -- The arithmetic of rounding up stays below the word limit.
  have hadd : Word.add length 65536 = .ok (length + 65536) := if_pos (by unfold Word.limit; omega)
  have hsub : Word.sub (length + 65536) 1 = .ok (length + 65535) := if_pos (by omega)
  have hmul : Word.mul ((length + 65535) / 65536) 65536 = .ok (Pyramid.room length) :=
    if_pos (by unfold Word.limit; omega)
  have hkeeps := h.keeps
  have hmore : stored.room ≤ Pyramid.room length := by
    rw [h.room_eq]
    unfold Pyramid.room
    omega
  rw [StoredLevel.makeRoom]
  dsimp only
  rw [hadd, ok_bind, hsub, ok_bind, hmul, ok_bind]
  -- Either the storage grows, or it has the room already.
  split
  · have hheld : level.size ≤ stored.room := h.room_eq ▸ Pyramid.le_room _
    obtain ⟨shelf, henlarge, hkeeps'⟩ := hkeeps.enlarge hheld hmore hfits (by
      unfold Pyramid.room
      omega)
    exact ⟨shelf, by rw [henlarge]; rfl, hkeeps'⟩
  · have hroom : stored.room = Pyramid.room length := by omega
    exact ⟨stored.shelf, by rw [← hroom]; rfl, hroom ▸ hkeeps⟩

/-- A shelf onto which all missing entries were put holds the longer level. -/
theorem Holds.extend (h : Holds w stored level) {source : Nat → k.Entry} {length : Nat}
    {shelf : k.Shelf} (hle : level.size ≤ length)
    (hkeeps : k.Keeps w (Pyramid.room length) shelf
      (Pyramid.extend k.summary source (length - level.size) level))
    (hentries : ∀ offset, offset < length → k.Fits w (k.summary.run source (16 * offset) 16)) :
    Holds w ⟨length, Pyramid.room length, shelf⟩
      (Pyramid.extend k.summary source (length - level.size) level) := by
  have hsize : (Pyramid.extend k.summary source (length - level.size) level).size = length := by
    rw [Pyramid.size_extend]
    omega
  have hfits := Signal.fits_extend (length - level.size) h.fits
    fun offset hoffset => hentries offset (by omega)
  rw [← Pyramid.size_extend] at hfits
  exact ⟨hsize.symm, by rw [hsize], hkeeps, hfits⟩

/-- The finest level gains an entry for every complete window of the samples, and what is carried on is the
last sample that went into one. -/
theorem growFinest_of_gain (p : Packed w) (h : Holds w stored level) (hadmits : k.Admits w)
    (hgain : level.size < p.count / 16) :
    ∃ stored', growFinest p.stored (k.carried p.word (16 * level.size)) stored =
        .ok (some (k.carried p.word (16 * (p.count / 16)), stored')) ∧
      Holds w stored'
        (Pyramid.extend k.summary (k.leaf p.word) (p.count / 16 - level.size) level) := by
  have hfits : Pyramid.EntriesFit k w (p.count / 16) := p.entriesFit hadmits
  obtain ⟨shelf, hmakeRoom, hkeeps⟩ := h.makeRoom (Nat.le_of_lt hgain) hfits
  have hlength := hfits.length_lt
  unfold Packed.byteLimit at hlength
  have hlow : Word.mul level.size 16 = .ok (level.size * 16) := if_pos (by unfold Word.limit; omega)
  have hhigh : Word.mul (p.count / 16) 16 = .ok (p.count / 16 * 16) :=
    if_pos (by unfold Word.limit; omega)
  -- The bytes of the complete windows that have no entry yet.
  let range : SampleRange p.count :=
    ⟨level.size * 16, p.count / 16 * 16, by omega, Nat.div_mul_le_self _ _⟩
  have hslice : p.stored.slice (level.size * 16) (p.count / 16 * 16) = .ok (p.bytesOf range) :=
    StoredSamples.slice_of_range p range
  have hblocks : (p.bytesOf range).size / (16 * w.bytes) = p.count / 16 - level.size := by
    rw [p.size_bytesOf, ← Nat.sub_mul, Nat.mul_assoc,
      Nat.mul_div_cancel _ (Nat.mul_pos (by decide) w.pos)]
  -- Every entry fits in a word of this width.
  have hleaves (offset : Nat) : k.Fits w (k.summary.run (k.leaf p.word) (16 * offset) 16) :=
    Signal.fits_run fun i _ _ => Signal.fits_leaf p i
  -- The step of the loop, and what holds of the carry before it.
  let make (offset : Nat) (carry : k.Carry) : Except Violation (k.Carry × k.Entry) :=
    .ok (k.absorbRun w (p.bytesOf range) ((offset - level.size) * 16) 16 (carry, k.summary.empty))
  let Ready (offset : Nat) (carry : k.Carry) : Prop :=
    carry = k.carried p.word (16 * offset) ∧ level.size ≤ offset
  -- One step makes the entry of its window and carries on the last sample of it.
  have hmake : ∀ offset carry, offset < p.count / 16 → Ready offset carry →
      ∃ carry', make offset carry =
        .ok (carry', k.summary.run (k.leaf p.word) (16 * offset) 16) ∧ Ready (offset + 1) carry' := by
    rintro offset carry hoffset ⟨rfl, hle⟩
    exact ⟨_, congrArg Except.ok (Signal.absorbRun_bytesOf p rfl rfl hle hoffset), rfl, by omega⟩
  -- The loop, run over all the windows that are missing.
  obtain ⟨carry', shelf', hfill, ⟨rfl, -⟩, hkeeps'⟩ :=
    Signal.Keeps.fill make (k.leaf p.word) Ready (Pyramid.le_room _) hfits.room_lt hmake
      (fun offset _ => hleaves offset)
      (p.count / 16 - level.size) hkeeps (by omega) ⟨rfl, Nat.le_refl _⟩
  have hsome : ¬ p.count / 16 = level.size := by omega
  -- What the loop returns is the level that was to be shown.
  refine ⟨_, ?_, h.extend (Nat.le_of_lt hgain) hkeeps' fun offset _ => hleaves offset⟩
  rw [growFinest]
  dsimp only [Packed.stored]
  rw [h.length_eq, if_neg hsome, hmakeRoom, ok_bind, hlow, ok_bind, hhigh, ok_bind, hslice,
    ok_bind, hblocks]
  have hrun : k.fill w make (p.count / 16 - level.size) level.size
      (k.carried p.word (16 * level.size)) shelf = _ := hfill
  exact congrArg (· >>= _) hrun

/-- A finest level over no more complete windows stays as it is. -/
theorem growFinest_of_no_gain (s : StoredSamples) (carry : k.Carry) {stored : StoredLevel k}
    (h : s.count / 16 = stored.length) : growFinest s carry stored = .ok none := by
  rw [growFinest, if_pos h]
  rfl

/-- The items under entries that a level is to gain can be cut out of the level below. -/
theorem checkBelow_ok {below : StoredLevel k} {items : Array k.Entry} (h : Holds w below items)
    (hfits : Pyramid.EntriesFit k w items.size) {held length : Nat} (hle : held ≤ length)
    (hlength : length ≤ items.size / 16) : checkBelow held length k below.shelf = .ok () := by
  have hitems := hfits.length_lt
  unfold Packed.byteLimit at hitems
  cases k with
  | logic => rfl
  | analog =>
    have hkeeps : below.shelf = items := h.keeps
    have hlow : Word.mul held 16 = .ok (held * 16) := if_pos (by unfold Word.limit; omega)
    have hhigh : Word.mul length 16 = .ok (length * 16) := if_pos (by unfold Word.limit; omega)
    have hordered : held * 16 ≤ length * 16 := Nat.mul_le_mul_right 16 hle
    have hwithin : length * 16 ≤ items.size := by omega
    rw [checkBelow, hkeeps, hlow, ok_bind, hhigh, ok_bind, require_eq_ok.2 hordered, ok_bind]
    exact require_eq_ok.2 hwithin

/-- A level above another gains an entry for every sixteen entries of it. -/
theorem growCoarser_of_gain {below : StoredLevel k} {items : Array k.Entry} (hbelow : Holds w below items)
    (hfits : Pyramid.EntriesFit k w items.size)
    (h : Holds w stored level) (hgain : level.size < items.size / 16) :
    ∃ stored', (∀ upper, growCoarser w below (stored :: upper) = do
        return stored' :: (← growCoarser w stored' upper)) ∧
      Holds w stored' (Pyramid.extend k.summary (fun i => items.getD i k.summary.empty)
        (items.size / 16 - level.size) level) := by
  let source (i : Nat) : k.Entry := items.getD i k.summary.empty
  have hlength := hfits.length_lt
  unfold Packed.byteLimit at hlength
  have hfits' : Pyramid.EntriesFit k w (items.size / 16) := hfits.mono (Nat.div_le_self _ _)
  obtain ⟨shelf, hmakeRoom, hkeeps⟩ := h.makeRoom (Nat.le_of_lt hgain) hfits'
  -- One entry, summarized from sixteen of the level below. Nothing is carried.
  let make (offset : Nat) (_ : Unit) : Except Violation (Unit × k.Entry) := do
    return ((), ← k.summary.runGuarded (k.fetch w below.shelf) (← Word.mul offset 16) 16)
  have hmake : ∀ offset carry, offset < items.size / 16 → True →
      ∃ carry', make offset carry = .ok (carry', k.summary.run source (16 * offset) 16) ∧ True := by
    intro offset _ hoffset _
    have hmul : Word.mul offset 16 = .ok (16 * offset) := by
      rw [Nat.mul_comm 16]
      exact if_pos (by unfold Word.limit; omega)
    -- The sixteen entries below are there, so no read fails.
    have hrun : k.summary.runGuarded (k.fetch w below.shelf) (16 * offset) 16 =
        .ok (k.summary.run source (16 * offset) 16) :=
      Summary.runGuarded_ok (fun i _ hi => hbelow.fetch hfits (by omega))
        (by unfold Word.limit; omega)
    refine ⟨(), ?_, trivial⟩
    show (Word.mul offset 16 >>= _) = _
    rw [hmul, ok_bind, hrun]
    rfl
  -- Summaries of entries that fit in a word do so too.
  have hentries : ∀ offset, offset < items.size / 16 →
      k.Fits w (k.summary.run source (16 * offset) 16) :=
    fun offset hoffset => Signal.fits_run fun i _ hi => hbelow.fits i (by omega)
  obtain ⟨carry', shelf', hfill, -, hkeeps'⟩ :=
    Signal.Keeps.fill make source (fun _ _ => True) (Pyramid.le_room _) hfits'.room_lt hmake
      hentries
      (items.size / 16 - level.size) hkeeps (by omega) trivial
  have hsome : ¬ items.size / 16 = level.size := by omega
  -- What the loop returns is the level, and the recursion goes on from it.
  refine ⟨_, fun upper => ?_, h.extend (Nat.le_of_lt hgain) hkeeps' hentries⟩
  -- The assertion about the level below holds.
  have hcheck := checkBelow_ok hbelow hfits (Nat.le_of_lt hgain) (Nat.le_refl _)
  rw [growCoarser]
  dsimp only
  rw [hbelow.length_eq, h.length_eq, if_neg hsome, hmakeRoom, ok_bind, hcheck, ok_bind]
  have hrun : k.fill w make (items.size / 16 - level.size) level.size () shelf = _ := hfill
  exact congrArg (· >>= _) hrun

/-- Levels above a level that has grown gain an entry for every sixteen entries below.  Where one gains
none, there is nothing to gain above it. -/
theorem growCoarser_ok {below : StoredLevel k} {items : Array k.Entry} (hbelow : Holds w below items)
    (hfits : Pyramid.EntriesFit k w items.size)
    {source' : Nat → k.Entry} {count' : Nat} {stored : List (StoredLevel k)}
    {levels : List (Array k.Entry)} (hlevels : List.Forall₂ (Holds w) stored levels)
    (hstand : Pyramid.StandOver k.summary source' count' levels) (hle : count' ≤ items.size) :
    ∃ stored', growCoarser w below stored = .ok stored' ∧
      List.Forall₂ (Holds w) stored' (Pyramid.growLevels k.summary
        (fun i => items.getD i k.summary.empty) items.size levels) := by
  -- Up the levels: every one is grown from the one below, which has its new entries.
  induction hlevels generalizing below items source' count' with
  | nil => exact ⟨[], rfl, .nil⟩
  | @cons level entries upper rest h hupper ih =>
    obtain ⟨hsize, -, habove⟩ := hstand
    have hmono : entries.size ≤ items.size / 16 := by
      rw [hsize]
      exact Nat.div_le_div_right hle
    have hlength : below.length / 16 = items.size / 16 := by rw [hbelow.length_eq]
    -- The growth stops at the first level that gains nothing.
    rcases Nat.lt_or_eq_of_le hmono with hgain | hnone
    · obtain ⟨level', hgrow, hlevel'⟩ := growCoarser_of_gain hbelow hfits h hgain
      have hsize' := Pyramid.size_extend (S := k.summary)
        (fun i => items.getD i k.summary.empty) (items.size / 16 - entries.size) entries
      obtain ⟨upper', hrest, hupper'⟩ := ih hlevel' (hfits.mono (by omega)) habove (by omega)
      have hsome : ¬ items.size / 16 - entries.size = 0 := by omega
      refine ⟨level' :: upper', ?_, ?_⟩
      · rw [hgrow, hrest]
        rfl
      · simp only [Pyramid.growLevels, if_neg hsome]
        exact .cons hlevel' hupper'
    · have hzero : items.size / 16 - entries.size = 0 := by omega
      refine ⟨level :: upper, ?_, ?_⟩
      · rw [growCoarser, hlength, h.length_eq, if_pos hnone.symm]
        rfl
      · rw [Pyramid.growLevels, if_pos hzero]
        exact .cons h hupper

/-- The entries of a level leave no choice for what is stored, behind the last of them included. -/
theorem Holds.unique {stored' : StoredLevel k} (h : Holds w stored level) (h' : Holds w stored' level) :
    stored = stored' := by
  have hlength : stored.length = stored'.length := h.length_eq.trans h'.length_eq.symm
  have hroom : stored.room = stored'.room := h.room_eq.trans h'.room_eq.symm
  have hshelf : stored.shelf = stored'.shelf := h.keeps.unique (hroom ▸ h'.keeps)
  cases stored
  cases stored'
  cases hlength
  cases hroom
  cases hshelf
  rfl

/-- A level for which room was made is found to have it. -/
theorem checkRoom_ok {stored : StoredLevel k} (h : 0 < stored.room) : stored.checkRoom = .ok () := by
  cases k with
  | logic => exact require_eq_ok.2 h
  | analog => rfl

/-- Reading from the shelf is reading from an array of entries with zeros behind the last one, wherever
that is. -/
theorem Holds.fetch_eq {stored : StoredLevel .logic} {level : Array UInt64} (h : Holds w stored level)
    (hallocated : 0 < stored.room) (offset : Nat) :
    Signal.logic.fetch w stored.shelf offset = Pyramid.readEntry level w.bytes offset := by
  obtain ⟨hsize, hword⟩ := h.keeps
  have hroom := h.room_eq
  rw [hroom] at hsize hword hallocated
  rw [Signal.fetch, Pyramid.readEntry, require_eq_ok.2 hallocated, ok_bind, hsize]
  dsimp only
  -- The checks are the same, one after another.
  cases hmul : Word.mul offset w.bytes with
  | error v => rw [error_bind, error_bind]
  | ok start =>
    obtain rfl := Word.mul_eq_ok hmul
    rw [ok_bind, ok_bind]
    by_cases hlow : offset * w.bytes ≤ Pyramid.room level.size * w.bytes
    · rw [require_eq_ok.2 hlow, ok_bind, ok_bind, ← hsize]
      by_cases hhigh : w.bytes ≤ stored.shelf.size - offset * w.bytes
      · have hplace : offset * w.bytes + w.bytes ≤ stored.shelf.size := by omega
        -- A word within the bytes is one of the words of the room.
        have hoffset : offset < Pyramid.room level.size := by
          rw [hsize, ← Nat.succ_mul] at hplace
          exact Nat.le_of_mul_le_mul_right hplace w.pos
        rw [LittleEndian.unpack_extract hplace, hword offset hoffset, require_eq_ok.2 hhigh]
        rfl
      · rw [LittleEndian.unpack, ByteArray.size_extract, Nat.min_self, require, if_neg hhigh]
        rfl
    · rw [require, if_neg hlow]
      rfl

end StoredLevel

end Waveform
