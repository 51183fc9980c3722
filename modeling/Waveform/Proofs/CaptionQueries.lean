import Waveform.Caption.Row
import Waveform.Proofs.Operations

/-!
# Queries on a row of captions

A query on a row does not look at all captions.  It starts where a search by halving leads it and stops
at the first caption that starts too late.  Nothing is cut off at either side, because every push keeps
the captions ordered by their first samples and keeps track of the longest span (`Kept`).

Which captions a row holds can be said without a row: of captions that are pushed one after the other,
those that do not start before the last one that was taken (`Caption.inOrder`).

## Key results

- `push_cases`: what a push does
- `Kept.push`, `kept_pushAll`: a push keeps the order and the longest span, and so do many
- `partitionPoint_splits`: where the search by halving ends
- `Kept.overlapping_eq`: a query finds what a look at all captions finds
- `overlapping_pushed`: so it does whatever was pushed
-/

namespace Waveform

/-- Of captions that come one after the other, those that do not start before the last one of them that
was taken.  The first one is not to start before `least`. -/
def Caption.inOrder (least : Nat) : List Caption → List Caption
  | [] => []
  | a :: rest => if least ≤ a.first then a :: inOrder a.first rest else inOrder least rest

/-- A caption ends its span behind its start. -/
theorem Caption.last_eq (a : Caption) : a.last = a.first + a.span := by
  have := a.ordered
  unfold span
  omega

namespace CaptionRow

open Operation

variable {row row' : CaptionRow} {a : Caption}

/-! ## Pushing captions -/

/-- The least start of a caption that a row takes: that of the caption pushed last. -/
def leastStart (row : CaptionRow) : Nat :=
  match row.captions.back? with
  | some newest => newest.first
  | none => 0

/-- A caption is taken if it does not start too early; if it does, nothing has changed. -/
theorem push_cases (a : Caption) (row : CaptionRow) :
    (row.leastStart ≤ a.first ∧
      push a row = .ok () ⟨row.captions.push a, max row.longestSpan a.span⟩) ∨
    (a.first < row.leastStart ∧ push a row = .error .captionOrder row) := by
  rw [push, get_bind_eq]
  unfold leastStart
  -- The first caption may start anywhere.
  cases row.captions.back? with
  | none => exact .inl ⟨Nat.zero_le _, rfl⟩
  | some newest =>
    by_cases h : newest.first ≤ a.first
    · refine .inl ⟨h, ?_⟩
      rw [bind_eq_ok]
      exact ⟨(), row, lift_eq_ok.2 ⟨require_eq_ok.2 h, rfl⟩, rfl⟩
    · refine .inr ⟨Nat.lt_of_not_le h, ?_⟩
      simp only [require, if_neg h]
      rfl

/-- A caption that is refused leaves the row as it was. -/
theorem atomic_push (a : Caption) : Atomic (push a) := by
  intro row v row' h
  rcases push_cases a row with ⟨-, hpush⟩ | ⟨-, hpush⟩
  · exact nomatch hpush.symm.trans h
  · cases hpush.symm.trans h
    rfl

/-- The row after captions were pushed, one after the other.  Those that start too early have no
effect. -/
def pushAll (pushed : List Caption) (row : CaptionRow) : CaptionRow :=
  pushed.foldl (fun row a => (push a).leaves row) row

/-- The captions of a row come in the order of their first samples, and none spans more than the longest
span that is kept with them. -/
structure Kept (row : CaptionRow) : Prop where
  sorted : row.captions.toList.Pairwise fun a b => a.first ≤ b.first
  span_le : ∀ a ∈ row.captions.toList, a.span ≤ row.longestSpan

/-- A row without captions is in order. -/
theorem kept_empty : empty.Kept :=
  ⟨.nil, nofun⟩

/-- No caption of an ordered row starts behind the one pushed last. -/
theorem Kept.le_leastStart (h : row.Kept) : ∀ a ∈ row.captions.toList, a.first ≤ row.leastStart := by
  intro a ha
  have hsorted := h.sorted
  unfold leastStart
  rw [← Array.getLast?_toList]
  -- The newest caption starts last.
  rcases List.eq_nil_or_concat row.captions.toList with hnil | ⟨older, newest, hlist⟩
  · rw [hnil] at ha
    exact absurd ha List.not_mem_nil
  · rw [List.concat_eq_append] at hlist
    rw [hlist] at ha hsorted ⊢
    rw [List.getLast?_concat]
    rcases List.mem_append.1 ha with ha | ha
    · exact (List.pairwise_append.1 hsorted).2.2 a ha newest (List.mem_singleton_self _)
    · exact Nat.le_of_eq (congrArg Caption.first (List.mem_singleton.1 ha))

/-- What a row keeps to is kept by a push, whether it succeeds or not. -/
theorem Kept.push (h : row.Kept) (a : Caption) : ((push a).leaves row).Kept := by
  unfold Operation.leaves
  -- Either the caption is kept behind the others, or it is refused and nothing has changed.
  rcases push_cases a row with ⟨hle, hpush⟩ | ⟨-, hpush⟩
  · rw [hpush]
    constructor
    · rw [Array.toList_push, List.pairwise_append]
      refine ⟨h.sorted, List.pairwise_singleton _ _, fun b hb c hc => ?_⟩
      rw [List.mem_singleton.1 hc]
      exact Nat.le_trans (h.le_leastStart b hb) hle
    · intro b hb
      rw [Array.toList_push] at hb
      rcases List.mem_append.1 hb with hb | hb
      · exact Nat.le_trans (h.span_le b hb) (Nat.le_max_left _ _)
      · rw [List.mem_singleton.1 hb]
        exact Nat.le_max_right _ _
  · rw [hpush]
    exact h

/-- However many captions are pushed, the row keeps to its order and its longest span. -/
theorem Kept.pushAll (h : row.Kept) (pushed : List Caption) : (pushAll pushed row).Kept := by
  induction pushed generalizing row with
  | nil => exact h
  | cons a rest ih => exact ih (h.push a)

/-- A row has taken the captions that came in order. -/
theorem captions_pushAll (pushed : List Caption) (row : CaptionRow) :
    (pushAll pushed row).captions.toList =
      row.captions.toList ++ Caption.inOrder row.leastStart pushed := by
  -- On what is pushed; a caption that is kept is the least start from there on.
  induction pushed generalizing row with
  | nil => exact (List.append_nil _).symm
  | cons a rest ih =>
    show (CaptionRow.pushAll rest ((push a).leaves row)).captions.toList = _
    rw [ih, Caption.inOrder]
    unfold Operation.leaves
    rcases push_cases a row with ⟨hle, hpush⟩ | ⟨hlt, hpush⟩
    · have hleast (longest : Nat) : leastStart ⟨row.captions.push a, longest⟩ = a.first := by
        rw [leastStart, Array.back?_push]
      rw [hpush, if_pos hle, hleast]
      simp
    · rw [hpush, if_neg (Nat.not_le.2 hlt)]

/-! ## The search by halving -/

/-- The first `n` items have a property and the others have not. -/
def Splits {α : Type} (items : Array α) (p : α → Bool) (n : Nat) : Prop :=
  (∀ x ∈ items.toList.take n, p x = true) ∧ ∀ x ∈ items.toList.drop n, p x = false

/-- In a list in which no item has a property that one before it has not, the search finds where the
items with the property end. -/
theorem partitionPoint_splits {α : Type} {items : Array α} {p : α → Bool}
    (hmono : items.toList.Pairwise fun x y => p y = true → p x = true) {low high : Nat}
    (hlow : ∀ x ∈ items.toList.take low, p x = true)
    (hhigh : ∀ x ∈ items.toList.drop high, p x = false) (hle : low ≤ high)
    (hsize : high ≤ items.size) : Splits items p (partitionPoint items p low high) := by
  -- The item in the middle decides for all items on one side of it.
  have hsplit (i : Nat) (hi : i < items.size) :
      (∀ x ∈ items.toList.take i, p items[i] = true → p x = true) ∧
        ∀ y ∈ items.toList.drop (i + 1), p y = true → p items[i] = true := by
    have hlist := List.take_append_drop i items.toList
    rw [List.drop_eq_getElem_cons (by simpa using hi), Array.getElem_toList] at hlist
    rw [← hlist, List.pairwise_append, List.pairwise_cons] at hmono
    exact ⟨fun x hx => hmono.2.2 x hx _ List.mem_cons_self, hmono.2.1.1⟩
  -- Case by case: the middle is missing, holds, does not hold, or the halves have met.
  fun_induction partitionPoint items p low high with
  | case1 low high hlt middle hnone =>
    have := Array.getElem?_eq_none_iff.1 hnone
    omega
  | case2 low high hlt middle item hitem hp ih =>
    obtain ⟨hmiddle, rfl⟩ := Array.getElem?_eq_some_iff.1 hitem
    refine ih (fun x hx => ?_) hhigh (by omega) hsize
    rw [List.take_succ_eq_append_getElem (by simpa using hmiddle), Array.getElem_toList] at hx
    rcases List.mem_append.1 hx with hx | hx
    · exact (hsplit middle hmiddle).1 x hx hp
    · rw [List.mem_singleton.1 hx]
      exact hp
  | case3 low high hlt middle item hitem hp ih =>
    obtain ⟨hmiddle, rfl⟩ := Array.getElem?_eq_some_iff.1 hitem
    refine ih hlow (fun x hx => ?_) (by omega) (by omega)
    rw [List.drop_eq_getElem_cons (by simpa using hmiddle), Array.getElem_toList] at hx
    rcases List.mem_cons.1 hx with rfl | hx
    · exact Bool.eq_false_iff.2 hp
    · exact Bool.eq_false_iff.2 fun hx' => hp ((hsplit middle hmiddle).2 x hx hx')
  | case4 low high hnot =>
    obtain rfl : low = high := by omega
    exact ⟨hlow, hhigh⟩

/-! ## Queries -/

/-- Where captions come in the order of their first samples, the first ones that start in time are all
that do. -/
theorem takeWhile_eq_filter {captions : List Caption} (last : Nat)
    (h : captions.Pairwise fun a b => a.first ≤ b.first) :
    captions.takeWhile (·.first ≤ last) = captions.filter (·.first ≤ last) := by
  induction captions with
  | nil => rfl
  | cons a rest ih =>
    obtain ⟨hfirst, hrest⟩ := List.pairwise_cons.1 h
    -- Behind the first caption that starts too late, all do.
    by_cases ha : a.first ≤ last
    · rw [List.takeWhile_cons_of_pos (by simpa using ha), List.filter_cons_of_pos (by simpa using ha),
        ih hrest]
    · have hnone : rest.filter (·.first ≤ last) = [] := by
        rw [List.filter_eq_nil_iff]
        intro b hb
        have := hfirst b hb
        simpa using Nat.lt_of_lt_of_le (Nat.lt_of_not_le ha) this
      rw [List.takeWhile_cons_of_neg (by simpa using ha), List.filter_cons_of_neg (by simpa using ha),
        hnone]

/-- A query finds the captions that a look at all of them finds. -/
theorem Kept.overlapping_eq (h : row.Kept) (first last : Nat) :
    row.overlapping first last =
      row.captions.toList.filter fun a => a.first ≤ last ∧ first ≤ a.last := by
  -- The test of the binary search holds up to a point and not behind it.
  have hmono : row.captions.toList.Pairwise fun a b =>
      decide (b.first < first - row.longestSpan) = true →
        decide (a.first < first - row.longestSpan) = true := by
    refine h.sorted.imp fun {a b} hab hb => ?_
    simp only [decide_eq_true_eq] at hb ⊢
    omega
  have hnone : row.captions.toList.drop row.size = [] :=
    List.drop_eq_nil_of_le (Nat.le_of_eq Array.length_toList)
  obtain ⟨hbefore, -⟩ := partitionPoint_splits hmono (fun _ hx => absurd hx List.not_mem_nil)
    (fun _ hx => absurd (hnone ▸ hx) List.not_mem_nil) (Nat.zero_le row.size) (Nat.le_refl _)
  simp only [overlapping]
  generalize partitionPoint row.captions _ 0 row.size = start at hbefore ⊢
  -- The captions before the start of the search are too short to reach the range.
  have hshort : (row.captions.toList.take start).filter
      (fun a => decide (a.first ≤ last ∧ first ≤ a.last)) = [] := by
    rw [List.filter_eq_nil_iff]
    intro a ha
    have hfirst := hbefore a ha
    have hspan := h.span_le a (List.mem_of_mem_take ha)
    have hlast := a.last_eq
    simp only [decide_eq_true_eq] at hfirst ⊢
    omega
  -- The search is a filter of what follows its start, and nothing before the start is lost.
  calc ((row.captions.toList.drop start).takeWhile (·.first ≤ last)).filter (first ≤ ·.last)
      = (row.captions.toList.drop start).filter fun a => a.first ≤ last ∧ first ≤ a.last := by
        rw [takeWhile_eq_filter last (h.sorted.sublist (List.drop_sublist _ _)), List.filter_filter]
        congr 1
        funext a
        simp [Bool.and_comm]
    _ = (row.captions.toList.take start ++ row.captions.toList.drop start).filter
          fun a => a.first ≤ last ∧ first ≤ a.last := by
        rw [List.filter_append, hshort, List.nil_append]
    _ = row.captions.toList.filter fun a => a.first ≤ last ∧ first ≤ a.last := by
        rw [List.take_append_drop]

/-- Whatever captions are pushed to an empty row, it holds those that came in order, and a query for a
range of samples, be it inverted or not, finds exactly those of them that start before the range ends and
end after it starts, each once, in the order in which they were pushed. -/
theorem overlapping_pushed (pushed : List Caption) (first last : Nat) :
    (pushAll pushed empty).captions.toList = Caption.inOrder 0 pushed ∧
      (pushAll pushed empty).overlapping first last =
        (Caption.inOrder 0 pushed).filter fun a => a.first ≤ last ∧ first ≤ a.last := by
  have hcaptions : (pushAll pushed empty).captions.toList = Caption.inOrder 0 pushed := by
    rw [captions_pushAll]
    rfl
  refine ⟨hcaptions, ?_⟩
  rw [(kept_empty.pushAll pushed).overlapping_eq, hcaptions]

/-- A long caption, behind which two shorter ones start and one is pushed too late. -/
example : ((pushAll [⟨10, 400, 0, [], by decide⟩, ⟨12, 15, 0, [], by decide⟩,
    ⟨11, 500, 0, [], by decide⟩, ⟨300, 300, 0, [], by decide⟩] empty).overlapping 300 350).map
      Caption.first = [10, 300] := by
  decide +kernel

end CaptionRow

end Waveform
