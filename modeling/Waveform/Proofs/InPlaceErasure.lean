import Mathlib.Data.List.Basic
import Waveform.Proofs.GuardedEdits
import Waveform.Proofs.TimelineCuts
import Waveform.Timeline.InPlace

/-!
# What an erasure touches

An erasure in place comes by each recording once.  Whatever the arithmetic of times says, a recording is
left alone, or taken off, or loses one range of samples that it has and that is neither empty nor all of
them; none of this can break a contract, and no other recording is taken off for one that is to go.

The proof goes by the recordings in the order of the walk, the oldest first.  `cutsBy` gives each its cut,
as a list that has nothing to do with positions.  The recordings that the walk has behind it stand at the
end of the stored list, so the two loops are followed with that end as a parameter.

## Key results

- `Timeline.walk_eq_ok`, `Timeline.takeOutAll_eq_ok`: what the two loops do to the stored recordings
- `Timeline.eraseInPlace_eq_ok`: an erasure in place never fails
- `Timeline.cutsBy_readings`: a clock's readings ask for the cuts that the clock plans
- `Timeline.touched_at_most_once`: what an erasure does to each recording
-/

namespace Waveform

open Operation

variable {τ : Type} {k : Signal}

/-! ## Cuts without positions -/

/-- What a cut makes of a recording that stays where it is. -/
def Recording.cutBy (r : Recording τ k) : Cut → Recording τ k
  | .keep | .drop => r
  | .trim first stop => (Recording.remove first stop).leaves r

@[simp] theorem Recording.cutBy_keep (r : Recording τ k) : r.cutBy .keep = r := rfl

@[simp] theorem Recording.cutBy_drop (r : Recording τ k) : r.cutBy .drop = r := rfl

/-- What a cut leaves of a recording, if the recording is not taken off. -/
def Recording.afterCut (r : Recording τ k) : Cut → Option (Recording τ k)
  | .drop => none
  | c => some (r.cutBy c)

/-- A range of samples that are there can be removed, with every access checked or without. -/
theorem Recording.remove_of_fits {r : Recording τ k} {first stop : Nat}
    (h : (Cut.trim first stop).Fits r.count) :
    Recording.remove first stop r = .ok () (r.cutBy (.trim first stop)) := by
  obtain ⟨r', hremove, -⟩ := r.remove_ok h.1 h.2
  have hleft : r.cutBy (.trim first stop) = r' := leaves_of_eq_ok hremove
  rw [hleft, hremove]

/-- With all checks a removal from a recording comes to the same as without. -/
theorem Recording.removeGuarded_eq (first stop : Nat) (r : Recording τ k) :
    Recording.removeGuarded first stop r = Recording.remove first stop r := by
  simp only [Recording.removeGuarded, Recording.remove, Recording.onTrace, Trace.removeGuarded_eq]

/-- A reading that keeps its contract hands on what it read. -/
theorem Operation.lift_ok_bind {σ α β : Type} (a : α) (f : α → Operation σ β) (s : σ) :
    ((liftM (.ok a : Except Violation α) : Operation σ α) >>= f) s = f a s :=
  rfl

/-- An operation works on the one item at its position. -/
theorem Operation.atIndex_append {σ α : Type} {act : Operation σ α} {s t : σ} {a : α}
    (h : act s = .ok a t) (before after : List σ) :
    atIndex act before.length (before ++ s :: after) = .ok (some a) (before ++ t :: after) := by
  induction before with
  | nil => simp [atIndex, h]
  | cons b before ih => simp [atIndex, ih]

namespace Timeline

/-- The cuts that readings ask for, for recordings from the oldest to the newest. -/
def cutsBy : List Reading → List (Recording τ k) → List (Recording τ k × Cut)
  | .apart :: readings, r :: newer => (r, .keep) :: cutsBy readings newer
  | .overlap first last :: readings, r :: newer =>
    (r, .ofRange (min (first.getD 0) r.count) (min (last.getD r.count) r.count) r.count) ::
      cutsBy readings newer
  | _, recordings => recordings.map (·, .keep)

/-- The positions at which cuts do something, where the newest recording is stored first. -/
def touches : List (Recording τ k × Cut) → List (Nat × Cut)
  | [] => []
  | (_, .keep) :: newer => touches newer
  | (_, c) :: newer => (newer.length, c) :: touches newer

/-- A cut other than `keep` is one touch, at the position behind those of the newer recordings. -/
theorem touches_cons {c : Cut} (hc : c ≠ .keep) (r : Recording τ k)
    (newer : List (Recording τ k × Cut)) :
    touches ((r, c) :: newer) = (newer.length, c) :: touches newer := by
  cases c with
  | keep => exact absurd rfl hc
  | drop => rfl
  | trim first stop => rfl

/-- The recordings while they are all still there. -/
def trimmed (cuts : List (Recording τ k × Cut)) : List (Recording τ k) :=
  cuts.map fun p => p.1.cutBy p.2

/-- The recordings that stay. -/
def kept (cuts : List (Recording τ k × Cut)) : List (Recording τ k) :=
  cuts.filterMap fun p => p.1.afterCut p.2

/-- Cuts that only trim are carried out one recording after the other. -/
@[simp] theorem trimmed_cons (r : Recording τ k) (c : Cut) (newer : List (Recording τ k × Cut)) :
    trimmed ((r, c) :: newer) = r.cutBy c :: trimmed newer :=
  rfl

/-- Newest first, the oldest recording comes last, in front of those that are done. -/
theorem reverse_trimmed_cons (r : Recording τ k) (c : Cut) (newer : List (Recording τ k × Cut))
    (done : List (Recording τ k)) :
    (trimmed ((r, c) :: newer)).reverse ++ done = (trimmed newer).reverse ++ r.cutBy c :: done := by
  simp

/-- Trimming leaves all recordings in place. -/
@[simp] theorem length_trimmed (cuts : List (Recording τ k × Cut)) :
    (trimmed cuts).length = cuts.length :=
  List.length_map _

/-- Without recordings there is nothing to cut, whatever the readings say. -/
theorem cutsBy_nil (readings : List Reading) : cutsBy readings ([] : List (Recording τ k)) = [] := by
  unfold cutsBy
  split <;> simp_all

/-- Recordings that are left alone are not touched. -/
theorem touches_keep (recordings : List (Recording τ k)) :
    touches (recordings.map (·, .keep)) = [] := by
  induction recordings with
  | nil => rfl
  | cons r newer ih => simpa [touches] using ih

/-- Recordings that are left alone stay as they are. -/
theorem trimmed_keep (recordings : List (Recording τ k)) :
    trimmed (recordings.map (·, .keep)) = recordings := by
  simp [trimmed, Recording.cutBy, Function.comp_def]

/-- Readings ask for one cut of each recording. -/
@[simp] theorem map_fst_cutsBy (readings : List Reading) (recordings : List (Recording τ k)) :
    (cutsBy readings recordings).map Prod.fst = recordings := by
  induction recordings generalizing readings with
  | nil => rw [cutsBy_nil]; rfl
  | cons r newer ih => cases readings with
    | nil => simp [cutsBy, Function.comp_def]
    | cons reading readings => cases reading <;> simp [cutsBy, ih, Function.comp_def]

/-- Readings ask for as many cuts as there are recordings. -/
@[simp] theorem length_cutsBy (readings : List Reading) (recordings : List (Recording τ k)) :
    (cutsBy readings recordings).length = recordings.length := by
  rw [← List.length_map Prod.fst, map_fst_cutsBy]

/-- The cuts lie within the recordings. -/
theorem cutsBy_fits (readings : List Reading) (recordings : List (Recording τ k)) :
    ∀ p ∈ cutsBy readings recordings, p.2.Fits p.1.count := by
  -- Along the recordings; only an overlap cuts, and a cut is within the recording it is made for.
  induction recordings generalizing readings with
  | nil => simp [cutsBy_nil]
  | cons r newer ih =>
    have hkeep : ∀ p ∈ (r :: newer).map (·, Cut.keep), p.2.Fits p.1.count := by
      intro p hp
      obtain ⟨x, -, rfl⟩ := List.mem_map.1 hp
      trivial
    cases readings with
    | nil => exact hkeep
    | cons reading readings =>
      cases reading with
      | beyond => exact hkeep
      | apart => simpa [cutsBy, Cut.Fits] using ih readings
      | overlap first last =>
        simp only [cutsBy, List.forall_mem_cons]
        exact ⟨Cut.fits_ofRange (Nat.min_le_right _ _), ih readings⟩

/-! ## The two loops -/

/-- The recording behind others is at the position that is their number. -/
theorem recordingAt_append (before : List (Recording τ k)) (r : Recording τ k)
    (after : List (Recording τ k)) :
    recordingAt (before ++ r :: after) before.length = .ok r := by
  simp [recordingAt]

/-- Where the walk stops, the recordings it has not come to are left alone. -/
theorem untouched_eq (recordings done : List (Recording τ k)) :
    (.ok [] (recordings.reverse ++ done) : EStateM.Result Violation _ (List (Nat × Cut))) =
      .ok (touches (recordings.map (·, .keep)))
        ((trimmed (recordings.map (·, .keep))).reverse ++ done) := by
  rw [touches_keep, trimmed_keep]

/-- An erasure in place walks the recordings from the oldest to the newest, and carries out the removals. -/
theorem walk_eq_ok (readings : List Reading) (recordings done : List (Recording τ k)) :
    walk readings recordings.length (recordings.reverse ++ done) =
      .ok (touches (cutsBy readings recordings))
        ((trimmed (cutsBy readings recordings)).reverse ++ done) := by
  -- From the oldest recording on. The storage is in reverse, so it is the last of those still to
  -- walk.
  induction recordings generalizing readings done with
  | nil =>
    rw [cutsBy_nil]
    cases readings <;> rfl
  | cons r newer ih =>
    cases readings with
    | nil => exact untouched_eq (r :: newer) done
    | cons reading readings =>
      -- What the walk has behind it stands at the end, and `r` comes to stand there too.
      have hstored : (r :: newer).reverse ++ done = newer.reverse ++ r :: done := by simp
      have hhere : recordingAt (newer.reverse ++ r :: done) newer.length = .ok r := by
        simpa using recordingAt_append newer.reverse r done
      rw [List.length_cons, hstored, walk, get_bind_eq, hhere, lift_ok_bind]
      -- Behind the erasure, before it, or over some of its samples.
      cases reading with
      | beyond =>
        rw [← hstored]
        exact untouched_eq (r :: newer) done
      | apart => simpa [cutsBy, touches] using ih readings (r :: done)
      | overlap first last =>
        have hcut := cutsBy_fits (.overlap first last :: readings) (r :: newer) _ List.mem_cons_self
        simp only [cutsBy] at hcut ⊢
        generalize Cut.ofRange _ _ _ = c at hcut ⊢
        -- The overlap keeps all samples, drops the recording, or trims it.
        cases c with
        | keep => simpa [touches] using ih readings (r :: done)
        | drop =>
          rw [touches_cons (c := .drop) nofun, length_cutsBy, reverse_trimmed_cons]
          exact bind_eq_ok.2 ⟨_, _, ih readings (r :: done), rfl⟩
        | trim first last =>
          have hremove : Recording.removeGuarded first last r = .ok () (r.cutBy (.trim first last)) :=
            (Recording.removeGuarded_eq first last r).trans (Recording.remove_of_fits hcut)
          have hat := atIndex_append hremove newer.reverse done
          rw [List.length_reverse] at hat
          rw [touches_cons (c := .trim first last) nofun, length_cutsBy, reverse_trimmed_cons]
          exact bind_eq_ok.2 ⟨_, _, hat, bind_eq_ok.2 ⟨_, _, ih readings _, rfl⟩⟩

/-- The item at a position can be taken out, and the others close the gap. -/
theorem takeOut_append (before : List (Recording τ k)) (r : Recording τ k)
    (after : List (Recording τ k)) :
    takeOut before.length (before ++ r :: after) = .ok () (before ++ after) := by
  have hthere : before.length < (before ++ r :: after).length := by simp
  rw [takeOut, get_bind_eq, require_bind_of hthere]
  simp [List.eraseIdx_append_of_length_le]
  rfl

/-- What the walk has noted is taken out, and nothing else. -/
theorem takeOutAll_eq_ok (cuts : List (Recording τ k × Cut)) (done : List (Recording τ k)) :
    takeOutAll (doomed (touches cuts)) ((trimmed cuts).reverse ++ done) =
      .ok () ((kept cuts).reverse ++ done) := by
  -- On the cuts, oldest first, which is the order in which the positions were noted.
  induction cuts generalizing done with
  | nil => rfl
  | cons p newer ih =>
    obtain ⟨r, c⟩ := p
    cases c with
    | keep => simpa [touches, kept, Recording.afterCut] using ih (r :: done)
    | drop =>
      -- With `r` out, what is behind it closes up, and the positions in front of it stay as noted.
      have hout := takeOut_append (trimmed newer).reverse r done
      rw [List.length_reverse, length_trimmed] at hout
      have hdoomed : doomed (touches ((r, .drop) :: newer)) = newer.length :: doomed (touches newer) :=
        rfl
      rw [hdoomed, reverse_trimmed_cons]
      exact bind_eq_ok.2 ⟨(), _, hout, ih done⟩
    | trim first stop =>
      have hrest := ih (r.cutBy (.trim first stop) :: done)
      simpa [touches, doomed, kept, Recording.afterCut] using hrest

/-- An erasure in place never fails. -/
theorem eraseInPlace_eq_ok (readings : List Reading) (recordings : List (Recording τ k)) :
    eraseInPlace readings recordings.reverse =
      .ok (touches (cutsBy readings recordings)) (kept (cutsBy readings recordings)).reverse := by
  have hwalk := walk_eq_ok readings recordings []
  have hout := takeOutAll_eq_ok (cutsBy readings recordings) []
  simp only [List.append_nil] at hwalk hout
  rw [eraseInPlace, get_bind_eq, List.length_reverse]
  exact bind_eq_ok.2 ⟨_, _, hwalk, bind_eq_ok.2 ⟨(), _, hout, rfl⟩⟩

/-! ## The plan of a clock -/

/-- Cuts within the recordings leave the same whether they are carried out in place or not. -/
theorem applyCuts_eq_kept {cuts : List (Recording τ k × Cut)}
    (hcuts : ∀ p ∈ cuts, p.2.Fits p.1.count) :
    applyCuts cuts = .ok (kept cuts) := by
  -- On the cuts; trimming succeeds since the cut fits.
  induction cuts with
  | nil => rfl
  | cons p rest ih =>
    obtain ⟨r, c⟩ := p
    have hrest := ih fun q hq => hcuts q (List.mem_cons_of_mem _ hq)
    cases c with
    | keep =>
      rw [applyCuts, hrest]
      rfl
    | drop =>
      rw [applyCuts, hrest]
      rfl
    | trim first stop =>
      have hremove := Recording.remove_of_fits (hcuts _ List.mem_cons_self)
      rw [applyCuts, after_eq_ok.2 hremove, hrest]
      rfl

/-- What a clock says about the recordings asks for the cuts that the clock plans. -/
theorem cutsBy_readings [Clock τ] (start stop offset erasedTo : τ)
    (recordings : List (Recording τ k)) :
    cutsBy (readings start stop offset recordings) recordings =
      (plan start stop offset erasedTo recordings).1 := by
  -- Both walk the recordings with the same comparisons of times.
  induction recordings generalizing offset erasedTo with
  | nil => exact cutsBy_nil _
  | cons r newer ih =>
    simp only [readings, plan]
    split
    · split
      · rfl
      · simp only [cutsBy]
        rw [ih _ erasedTo]
    · -- A reading names the end of the recording where the plan does, and else the sample it
      -- counted.
      have hend (p : Prop) [Decidable p] (atEnd n : Nat) (h : atEnd ≤ r.count) :
          min ((if p then none else some n).getD atEnd) r.count =
            if p then atEnd else min n r.count := by
        split <;> simp [h]
      simp only [cutsBy, hend, Nat.zero_le, Nat.le_refl]
      rw [ih]
      rfl

/-! ## What may be done to a recording -/

/-- What a reading can ask for, of a recording with a number of samples. -/
inductive Asks (count : Nat) : Reading → Cut → Prop where
  /-- The recording is to go if all of it is to be erased. -/
  | whole {first last : Option Nat} (hfirst : min (first.getD 0) count = 0)
      (hlast : min (last.getD count) count = count) : Asks count (.overlap first last) .drop
  /-- Otherwise samples can be removed that are there, if these are some and not all. -/
  | part {first last : Option Nat} {low high : Nat} (hlow : low = min (first.getD 0) count)
      (hhigh : high = min (last.getD count) count) (hordered : low < high) (hwithin : high ≤ count)
      (hnotall : ¬(low = 0 ∧ high = count)) : Asks count (.overlap first last) (.trim low high)

/-- What is done at a position. -/
def cutAt (touches : List (Nat × Cut)) (position : Nat) : Cut :=
  (touches.lookup position).getD .keep

/-- The recordings that stay in a list, in their order, if this is what is done at its positions. -/
def survivors (touches : List (Nat × Cut)) (before : List (Recording τ k)) : List (Recording τ k) :=
  before.zipIdx.filterMap fun p => p.1.afterCut (cutAt touches p.2)

/-- No recording is touched twice, none is touched in a way that its reading does not ask for, and what is
left is what that leaves of each recording.  The readings start with the oldest recording, the list ends
with it. -/
structure TouchedOnce (readings : List Reading) (before : List (Recording τ k))
    (touches : List (Nat × Cut)) (left : List (Recording τ k)) : Prop where
  /-- The positions descend. -/
  descending : touches.Pairwise fun p q => q.1 < p.1
  /-- Each is that of a recording whose reading asks for what is done. -/
  asked : ∀ p ∈ touches, ∃ r reading age, p.1 + age + 1 = before.length ∧ before[p.1]? = some r ∧
    readings[age]? = some reading ∧ Asks r.count reading p.2
  left_eq : left = survivors touches before

/-- A cut that is asked for by an overlap is one of the range that the overlap gives. -/
theorem Asks.ofRange {first last : Option Nat} {count : Nat}
    (h : Cut.ofRange (min (first.getD 0) count) (min (last.getD count) count) count ≠ .keep) :
    Asks count (.overlap first last)
      (.ofRange (min (first.getD 0) count) (min (last.getD count) count) count) := by
  unfold Cut.ofRange at h ⊢
  split at h
  · rename_i hall
    rw [if_pos hall]
    exact .whole hall.1 hall.2
  · rename_i hnotall
    split at h
    · rename_i hordered
      rw [if_neg hnotall, if_pos hordered]
      exact .part rfl rfl hordered (Nat.min_le_right _ _) hnotall
    · exact absurd rfl h

/-- The oldest recording is touched if its cut does anything, at the last position. -/
theorem touches_cons_cases (r : Recording τ k) (c : Cut) (newer : List (Recording τ k × Cut)) :
    c = .keep ∧ touches ((r, c) :: newer) = touches newer ∨
      c ≠ .keep ∧ touches ((r, c) :: newer) = (newer.length, c) :: touches newer := by
  by_cases hc : c = .keep
  · subst hc
    exact .inl ⟨rfl, rfl⟩
  · exact .inr ⟨hc, touches_cons hc r newer⟩

/-- All positions that are touched are positions of recordings. -/
theorem lt_of_mem_touches {cuts : List (Recording τ k × Cut)} {p : Nat × Cut} (hp : p ∈ touches cuts) :
    p.1 < cuts.length := by
  induction cuts with
  | nil => exact absurd hp List.not_mem_nil
  | cons q newer ih =>
    rw [List.length_cons]
    obtain ⟨-, htouches⟩ | ⟨-, htouches⟩ := touches_cons_cases q.1 q.2 newer <;> rw [htouches] at hp
    · exact Nat.lt_succ_of_lt (ih hp)
    · rcases List.mem_cons.1 hp with rfl | hp
      · exact Nat.lt_succ_self _
      · exact Nat.lt_succ_of_lt (ih hp)

/-- Positions are touched from the last one down, each at most once. -/
theorem touches_descending (cuts : List (Recording τ k × Cut)) :
    (touches cuts).Pairwise fun p q => q.1 < p.1 := by
  induction cuts with
  | nil => exact .nil
  | cons q newer ih =>
    obtain ⟨-, htouches⟩ | ⟨-, htouches⟩ := touches_cons_cases q.1 q.2 newer <;> rw [htouches]
    · exact ih
    · exact .cons (fun p hp => lt_of_mem_touches hp) ih

/-- What is done at the position of a newer recording does not depend on the oldest. -/
theorem cutAt_cons_of_lt (r : Recording τ k) (c : Cut) (newer : List (Recording τ k × Cut))
    {position : Nat} (h : position < newer.length) :
    cutAt (touches ((r, c) :: newer)) position = cutAt (touches newer) position := by
  obtain ⟨-, htouches⟩ | ⟨-, htouches⟩ := touches_cons_cases r c newer <;> rw [htouches]
  rw [cutAt, List.lookup_cons, beq_false_of_ne (Nat.ne_of_lt h)]
  rfl

/-- At the last position the cut of the oldest recording is carried out. -/
theorem cutAt_cons_self (r : Recording τ k) (c : Cut) (newer : List (Recording τ k × Cut)) :
    cutAt (touches ((r, c) :: newer)) newer.length = c := by
  obtain ⟨hkeep, htouches⟩ | ⟨-, htouches⟩ := touches_cons_cases r c newer <;> rw [htouches]
  · -- All touches of newer recordings are at positions below.
    have hnone : (touches newer).lookup newer.length = none := by
      rw [List.lookup_eq_none_iff]
      intro p hp
      simpa using (Nat.ne_of_lt (lt_of_mem_touches hp)).symm
    rw [cutAt, hnone, hkeep]
    rfl
  · simp [cutAt]

/-- What stays is what the touches leave. -/
theorem survivors_touches (cuts : List (Recording τ k × Cut)) :
    survivors (touches cuts) (cuts.map Prod.fst).reverse = (kept cuts).reverse := by
  -- On the cuts, oldest first: the oldest is at the last position.
  induction cuts with
  | nil => rfl
  | cons q newer ih =>
    obtain ⟨r, c⟩ := q
    have hbelow : survivors (touches ((r, c) :: newer)) (newer.map Prod.fst).reverse =
        survivors (touches newer) (newer.map Prod.fst).reverse := by
      -- The newer recordings are at positions below that of `r`.
      apply List.filterMap_congr
      intro p hp
      have hlt : p.2 < newer.length := by simpa using (List.mem_zipIdx hp).2.1
      rw [cutAt_cons_of_lt r c newer hlt]
    simp only [survivors] at hbelow ih ⊢
    rw [List.map_cons, List.reverse_cons, List.zipIdx_append, List.filterMap_append, hbelow, ih]
    cases hafter : r.afterCut c <;> simp [kept, cutAt_cons_self, hafter]

/-- What is done to a recording is what the reading about it asks for. -/
theorem touches_asked (readings : List Reading) (recordings : List (Recording τ k)) :
    ∀ p ∈ touches (cutsBy readings recordings), ∃ r reading age, p.1 + age + 1 = recordings.length ∧
      recordings.reverse[p.1]? = some r ∧ readings[age]? = some reading ∧ Asks r.count reading p.2 := by
  -- On the recordings, oldest first.
  induction recordings generalizing readings with
  | nil => simp [cutsBy_nil, touches]
  | cons r newer ih =>
    intro p hp
    cases readings with
    | nil => simp only [cutsBy, touches_keep, List.not_mem_nil] at hp
    | cons reading readings =>
      -- A newer recording stands at the same position as without `r`.
      have hnewer (h : p ∈ touches (cutsBy readings newer)) :
          ∃ s read age, p.1 + age + 1 = (r :: newer).length ∧ (r :: newer).reverse[p.1]? = some s ∧
            (reading :: readings)[age]? = some read ∧ Asks s.count read p.2 := by
        obtain ⟨s, read, age, hage, hthere, hread, hasks⟩ := ih readings p h
        refine ⟨s, read, age + 1, by rw [List.length_cons]; omega, ?_, hread, hasks⟩
        rw [List.reverse_cons, List.getElem?_append_left (by simp; omega), hthere]
      cases reading with
      | beyond => simp only [cutsBy, touches_keep, List.not_mem_nil] at hp
      | apart => exact hnewer hp
      | overlap first last =>
        simp only [cutsBy] at hp
        -- A cut that keeps all touches nothing, and any other touches `r` first.
        obtain ⟨-, htouches⟩ | ⟨hcut, htouches⟩ := touches_cons_cases r _ (cutsBy readings newer) <;>
          rw [htouches] at hp
        · exact hnewer hp
        · rcases List.mem_cons.1 hp with rfl | hp
          · exact ⟨r, _, 0, by simp, by simp, rfl, .ofRange hcut⟩
          · exact hnewer hp

/-- An erasure in place never fails, whatever the readings say, and touches each recording at most once, as
its reading asks.  With the readings of a clock it is the erasure of that clock. -/
theorem touched_at_most_once [Clock τ] (before : List (Recording τ k)) :
    (∀ readings, ∃ touches left, eraseInPlace readings before = .ok touches left ∧
      TouchedOnce readings before touches left) ∧
    ∀ start stop origin : τ, ∃ touches left taken origin',
      eraseInPlace (readings start stop origin before.reverse) before = .ok touches left ∧
      erase start stop ⟨before.reverse, origin⟩ = .ok taken ⟨left.reverse, origin'⟩ := by
  constructor
  · intro readings
    -- The touches are those of the cuts, whatever the readings are.
    have herase := eraseInPlace_eq_ok readings before.reverse
    rw [List.reverse_reverse] at herase
    refine ⟨_, _, herase, touches_descending _, ?_, ?_⟩
    · simpa using touches_asked readings before.reverse
    · rw [← survivors_touches, map_fst_cutsBy, List.reverse_reverse]
  · -- Both sides carry out the cuts of the clock's plan.
    intro start stop origin
    have hplace := eraseInPlace_eq_ok (readings start stop origin before.reverse) before.reverse
    rw [List.reverse_reverse, cutsBy_readings start stop origin origin] at hplace
    obtain ⟨left, happly, -, herase⟩ := erase_eq_ok start stop ⟨before.reverse, origin⟩
    rw [applyCuts_eq_kept (plan_fits start stop origin origin before.reverse)] at happly
    cases happly
    exact ⟨_, _, _, _, hplace, by simpa using herase⟩

end Timeline

end Waveform
