import Waveform.Logic.EdgeTurns
import Waveform.Proofs.EdgeQueries

/-!
# The turns of a step come to an end

A step of a cursor is a finite number of turns of its loops, and no turn breaks a contract.  This is
carried over from the recursions of the search: wherever one of them returns a result, the turns lead to
the place that stands for it.  The measures of the recursions are thereby those of the loops.

## Key results

- `Trace.Summed.quietAt_eq`: entries are read only where there are any
- `Trace.Summed.leads_climb`, `Trace.Summed.leads_descend`: the loops that skip quiet windows
- `Trace.Summed.leads_search`: the loops around them
- `EdgeCursor.leads_next`: a step of a cursor
-/

namespace Waveform

/-- A step that has a result hands it on. -/
theorem ok_bind {α β : Type} (a : α) (f : α → Except Violation β) : Except.ok a >>= f = f a := rfl

/-- A step that fails ends all that follows. -/
theorem error_bind {α β : Type} (v : Violation) (f : α → Except Violation β) :
    Except.error v >>= f = Except.error v := rfl

namespace Pyramid

/-- There is room for all entries. -/
theorem le_room (length : Nat) : length ≤ room length := by
  unfold room
  omega

/-- A level has room if it has entries. -/
theorem room_pos_iff {length : Nat} : 0 < room length ↔ length ≠ 0 := by
  unfold room
  omega

/-- An entry that is there can be read. -/
theorem readEntry_ok {entries : Array UInt64} {width offset : Nat} (hoffset : offset < entries.size)
    (hfits : entries.size * width < Word.limit) :
    readEntry entries width offset = .ok (entries.getD offset 0) := by
  have hroom : 0 < room entries.size := room_pos_iff.2 (by omega)
  have hle : (offset + 1) * width ≤ entries.size * width := Nat.mul_le_mul_right width hoffset
  have hbytes : entries.size * width ≤ room entries.size * width :=
    Nat.mul_le_mul_right width (le_room _)
  rw [Nat.add_mul, Nat.one_mul] at hle
  have hstart : Word.mul offset width = .ok (offset * width) := if_pos (by omega)
  have hfirst : offset * width ≤ room entries.size * width := by omega
  have hlast : width ≤ room entries.size * width - offset * width := by omega
  rw [readEntry, Operation.require_eq_ok.2 hroom, ok_bind, hstart, ok_bind,
    Operation.require_eq_ok.2 hfirst, ok_bind, Operation.require_eq_ok.2 hlast, ok_bind]
  rfl

end Pyramid

/-- A query looks at one of the ten levels. -/
theorem Detail.level_lt (d : Detail) : d.level < 10 := by
  cases d with
  | samples => exact Nat.succ_pos 9
  | windows level => exact level.isLt

namespace Trace

variable {t : Trace .logic} {q : EdgeQuery} {level : Bool} {index : Nat}

/-- Whether a window is quiet can be read off the pyramid without breaking a contract. -/
theorem Summed.quietAt_eq (h : t.Summed) (channel : Fin 64) {depth : Nat} (hdepth : depth < 10)
    (index : Nat) : t.quietAt channel depth index = .ok (t.pyramid.quiet channel depth index) := by
  have hentries : t.pyramid.level depth = .ok (t.pyramid.entries depth) := if_pos hdepth
  have hshift : Word.shiftRight index (Pyramid.power depth) = .ok (index >>> Pyramid.power depth) :=
    if_pos (Pyramid.power_lt hdepth)
  -- There are no more entries than samples, so their bytes fit in the address space, too.
  have hfits : (t.pyramid.entries depth).size * t.width.bytes < Word.limit := by
    have hsize : (t.pyramid.entries depth).size = t.count / Pyramid.window depth :=
      Pyramid.Covers.size_eq h hdepth
    have hle := Nat.mul_le_mul_right t.width.bytes (Nat.div_le_self t.count (Pyramid.window depth))
    have hbytes : t.count * t.width.bytes = t.samples.bytes.size := t.samples.count_mul
    have hbounded := t.samples.bounded
    rw [hsize]
    unfold Packed.byteLimit at hbounded
    unfold Word.limit
    omega
  -- An entry is read only if it is there, and the read succeeds then.
  rw [quietAt, hentries, ok_bind, hshift, ok_bind, Pyramid.quiet]
  split
  · rename_i hoffset
    rw [Pyramid.readEntry_ok hoffset hfits, ok_bind, Array.getD_eq_getD_getElem?,
      Array.getElem?_eq_getElem hoffset]
    rfl
  · rename_i hoffset
    rw [Array.getElem?_eq_none (by omega)]
    rfl

/-! ## Places that turns lead to -/

/-- One place leads to another, by any number of turns. -/
inductive Leads (t : Trace .logic) (q : EdgeQuery) : EdgeTurn → EdgeTurn → Prop where
  | here (place : EdgeTurn) : Leads t q place place
  | onward {place next last : EdgeTurn} (hturn : t.turn q place = .ok next)
      (hnext : Leads t q next last) : Leads t q place last

/-- A place leads to that of its next turn. -/
theorem Leads.once {place next : EdgeTurn} (hturn : t.turn q place = .ok next) :
    Leads t q place next :=
  .onward hturn (.here next)

/-- Turns may be taken one after the other. -/
theorem Leads.trans {place next last : EdgeTurn} (h : Leads t q place next)
    (h' : Leads t q next last) : Leads t q place last := by
  induction h with
  | here => exact h'
  | onward hturn _ ih => exact .onward hturn (ih h')

/-- What turns lead to is reached after some number of them. -/
theorem Leads.exists_turns {place last : EdgeTurn} (h : Leads t q place last) :
    ∃ n, t.turns q n place = .ok last := by
  induction h with
  | here place => exact ⟨0, rfl⟩
  | @onward place next last hturn _ ih =>
    obtain ⟨n, hturns⟩ := ih
    refine ⟨n + 1, ?_⟩
    simp only [turns, hturn, bind, Except.bind]
    exact hturns

/-! ## The inner loops -/

/-- A walk to the start of a window.  It ends there at the latest, as no sample on the way starts a
window. -/
theorem leads_approach {n start stop : Nat} (hwalk : t.walk q.channel level index n = .ok start)
    (hstop : index + n = stop) (hwindow : stop ≤ (index + 15) / 16 * 16) (hlimit : stop < Word.limit)
    {place : EdgeTurn} (hplace : t.setOff q level start (start = stop) = .ok place) :
    Leads t q (.approach level index stop) place := by
  -- On the samples still to be walked. The turn looks for the end itself, so it stops with the
  -- walk.
  induction n generalizing index with
  | zero =>
    obtain rfl : index = start := Except.ok.inj hwalk
    have hend : ¬ (index < stop ∧ index % 16 ≠ 0) := by omega
    apply Leads.once
    simp only [turn, if_neg hend]
    rw [decide_eq_true (by omega)] at hplace
    exact hplace
  | succ n ih =>
    have hmore : index < stop ∧ index % 16 ≠ 0 := by omega
    have hadd : Word.add index 1 = .ok (index + 1) := if_pos (by omega)
    simp only [walk] at hwalk
    -- The sample is read; one at the level is passed, and at another the walk ends.
    split at hwalk
    · rename_i found hbit
      split at hwalk
      · rename_i hsame
        refine .onward ?_ (ih hwalk (by omega) (by omega))
        simp only [turn, if_pos hmore, hbit, if_pos hsame, hadd, bind, Except.bind, pure, Except.pure]
      · rename_i hchange
        obtain rfl : index = start := Except.ok.inj hwalk
        apply Leads.once
        simp only [turn, if_pos hmore, hbit, if_neg hchange, bind, Except.bind]
        rw [decide_eq_false (by omega)] at hplace
        exact hplace
    · cases hwalk

/-- A walk to the first change. -/
theorem leads_walk {n start : Nat} (hwalk : t.walk q.channel level index n = .ok start)
    (hn : n = q.last - index) : Leads t q (.walk level index) (.block level start) := by
  -- As in the approach, but the end is that of the range.
  induction n generalizing index with
  | zero =>
    obtain rfl : index = start := Except.ok.inj hwalk
    have hend : ¬ index < q.last := by omega
    apply Leads.once
    simp only [turn, if_neg hend, pure, Except.pure]
  | succ n ih =>
    have hmore : index < q.last := by omega
    have hadd : Word.add index 1 = .ok (index + 1) := if_pos (by have := q.bounded; omega)
    simp only [walk] at hwalk
    split at hwalk
    · rename_i found hbit
      split at hwalk
      · rename_i hsame
        refine .onward ?_ (ih hwalk (by omega))
        simp only [turn, if_pos hmore, hbit, if_pos hsame, hadd, bind, Except.bind, pure, Except.pure]
      · rename_i hchange
        obtain rfl : index = start := Except.ok.inj hwalk
        apply Leads.once
        simp only [turn, if_pos hmore, hbit, if_neg hchange, bind, Except.bind, pure, Except.pure]
    · cases hwalk

/-- A window of a level can be numbered. -/
theorem shiftRight_ok (index : Nat) {depth : Nat} (hdepth : depth < 10) :
    Word.shiftRight index (Pyramid.power depth) = .ok (index >>> Pyramid.power depth) :=
  if_pos (Pyramid.power_lt hdepth)

/-- A climb leads up, if anywhere, but not beyond the tenth level. -/
theorem Summed.leads_climb (h : t.Summed) (level : Bool) {depth : Nat} (hdepth : depth < 10) {r : Nat × Nat}
    (hclimb : t.pyramid.climb q.channel depth index = .ok r) :
    Leads t q (.climb level depth index) (.descend level r.1 r.2) ∧ depth ≤ r.1 ∧ r.1 < 10 := by
  -- Case by case along the climb: quiet with nothing above, up a level, to the next place, loud.
  fun_induction Pyramid.climb t.pyramid q.channel depth index with
  | case1 depth index hquiet hgroup hempty =>
    cases hclimb
    refine ⟨.once ?_, Nat.le_refl _, hdepth⟩
    simp only [turn, h.quietAt_eq q.channel hdepth, hquiet, shiftRight_ok index hdepth, if_pos hgroup,
      bind, Except.bind, pure, Except.pure, if_true]
    -- There is no next level, or it has no room.
    split
    · rfl
    · rename_i hupper
      have hlevel : t.pyramid.level (depth + 1) = .ok (t.pyramid.entries (depth + 1)) :=
        if_pos (by omega)
      have hroom : Pyramid.room (t.pyramid.entries (depth + 1)).size = 0 := by
        have := mt Pyramid.room_pos_iff.1 (not_not_intro hempty)
        exact Nat.eq_zero_of_not_pos this
      simp only [hlevel, if_pos hroom]
  -- The group starts here, so the search goes up a level.
  | case2 depth index hquiet hgroup hsize ih =>
    have hupper := Pyramid.level_lt_of_size_ne_zero hsize
    obtain ⟨hleads, hle, hlt⟩ := ih hupper hclimb
    have hlevel : t.pyramid.level (depth + 1) = .ok (t.pyramid.entries (depth + 1)) := if_pos hupper
    have hroom : ¬ Pyramid.room (t.pyramid.entries (depth + 1)).size = 0 :=
      Nat.ne_of_gt (Pyramid.room_pos_iff.2 hsize)
    refine ⟨.onward ?_ hleads, by omega, hlt⟩
    simp only [turn, h.quietAt_eq q.channel hdepth, hquiet, shiftRight_ok index hdepth, if_pos hgroup,
      if_neg (Nat.not_le_of_lt hupper), hlevel, if_neg hroom, bind, Except.bind, pure, Except.pure,
      if_true]
  -- Within a group it goes on to the next place.
  | case3 depth index hquiet hgroup next hnext ih =>
    obtain ⟨hleads, hle, hlt⟩ := ih hdepth hclimb
    refine ⟨.onward ?_ hleads, hle, hlt⟩
    simp only [turn, h.quietAt_eq q.channel hdepth, hquiet, shiftRight_ok index hdepth, if_neg hgroup,
      hnext, bind, Except.bind, pure, Except.pure, if_true]
  | case4 => cases hclimb
  | case5 depth index hloud =>
    cases hclimb
    refine ⟨.once ?_, Nat.le_refl _, hdepth⟩
    simp only [turn, h.quietAt_eq q.channel hdepth, if_neg hloud, bind, Except.bind, pure, Except.pure]

/-- A descent leads down to the level of the query. -/
theorem Summed.leads_descend (h : t.Summed) (level : Bool) {depth stop : Nat} (hdepth : depth < 10)
    (hbottom : q.detail.level ≤ depth)
    (hdescend : t.pyramid.descend q.channel q.detail.level depth index = .ok stop) :
    Leads t q (.descend level depth index) (landing q level stop) := by
  -- Case by case along the descent: a quiet place is passed, a loud one is entered.
  fun_induction Pyramid.descend t.pyramid q.channel q.detail.level depth index with
  | case1 depth index hquiet next hnext ih =>
    refine .onward ?_ (ih hdepth hbottom hdescend)
    simp only [turn, h.quietAt_eq q.channel hdepth, hquiet, hnext, bind, Except.bind, pure, Except.pure,
      if_true]
  | case2 => cases hdescend
  | case3 depth index hloud hlow =>
    cases hdescend
    -- The lowest level is reached.
    have hat : depth = q.detail.level := Nat.le_antisymm hlow hbottom
    apply Leads.once
    simp only [turn, h.quietAt_eq q.channel hdepth, if_neg hloud, if_pos hat, bind, Except.bind, pure,
      Except.pure]
  | case4 depth index hloud hhigh ih =>
    have hsub : Word.sub depth 1 = .ok (depth - 1) := if_pos (by omega)
    refine .onward ?_ (ih (by omega) (by omega) hdescend)
    simp only [turn, h.quietAt_eq q.channel hdepth, if_neg hloud, if_neg (show depth ≠ q.detail.level by
      omega), hsub, bind, Except.bind, pure, Except.pure]

/-! ## The loops around them -/

/-- What is skipped leads to the start of a block. -/
theorem Summed.leads_skip (h : t.Summed) {start : Nat} (hskip : t.skip q level index = .ok start) :
    Leads t q (.climb level q.detail.level index) (.block level start) := by
  simp only [skip, bind, Except.bind] at hskip
  -- A skip is a climb, a descent, and at the finest detail a walk.
  split at hskip
  · cases hskip
  · rename_i top htop
    split at hskip
    · cases hskip
    · rename_i low hlow
      obtain ⟨hclimb, hle, hlt⟩ := h.leads_climb level q.detail.level_lt htop
      have hdescend := h.leads_descend level hlt hle hlow
      refine (hclimb.trans hdescend).trans ?_
      cases hdetail : q.detail with
      | samples =>
        have hlanding : landing q level low = .walk level low := by rw [landing, hdetail]
        rw [hlanding]
        simp only [hdetail] at hskip
        exact leads_walk hskip rfl
      | windows depth =>
        have hlanding : landing q level low = .block level low := by rw [landing, hdetail]
        rw [hlanding]
        simp only [hdetail] at hskip
        cases hskip
        exact .here _

/-- From where an approach has led, the start of a block is reached. -/
theorem Summed.leads_blockStart (h : t.Summed) {quiet : Bool} {start : Nat}
    (hstart : t.blockStart q level index quiet = .ok start) :
    ∃ place, t.setOff q level index quiet = .ok place ∧ Leads t q place (.block level start) := by
  have hlevel : t.pyramid.level q.detail.level = .ok (t.pyramid.entries q.detail.level) :=
    if_pos q.detail.level_lt
  simp only [setOff, hlevel, Pyramid.room_pos_iff, bind, Except.bind, pure, Except.pure]
  unfold blockStart at hstart
  split at hstart
  · rename_i hskips
    exact ⟨_, if_pos hskips, h.leads_skip hstart⟩
  · rename_i hstays
    cases hstart
    exact ⟨_, if_neg hstays, .here _⟩

/-- The place to which a block leads. -/
def past (level : Bool) : Option EdgeBlock → EdgeTurn
  | none => .closing level
  | some b =>
    if b.level = level then .phase (.searching b.stop level)
    else .answer (some ⟨b.start, b.level⟩) (.searching b.stop b.level)

/-- A block that would run past the end of the range is the end of the search. -/
theorem leads_block_of_lt {start : Nat} (hover : q.last < Word.addCapped start q.block) :
    Leads t q (.block level start) (past level none) := by
  apply Leads.once
  simp only [turn, if_pos hover, past, pure, Except.pure]

/-- Of any other block the last sample is looked at. -/
theorem leads_block_of_le {start : Nat} (hwithin : Word.addCapped start q.block ≤ q.last) {found : Bool}
    (hbit : t.bit q.channel (Word.addCapped start q.block - 1) = .ok found) :
    Leads t q (.block level start)
      (past level (some ⟨start, Word.addCapped start q.block, found⟩)) := by
  have hsub : Word.sub (Word.addCapped start q.block) 1 = .ok (Word.addCapped start q.block - 1) := by
    have hblock := q.block_pos
    exact if_pos (by unfold Word.addCapped Word.limit; omega)
  apply Leads.once
  simp only [turn, if_neg (Nat.not_lt_of_le hwithin), hsub, hbit, past, bind, Except.bind, pure,
    Except.pure]
  split <;> rfl

/-- An approach leads to where a skip may start, unless the range ends before. -/
theorem leads_of_approach (hwithin : Word.addCapped index q.block ≤ q.last)
    {near : Option (Nat × Bool)} (happroach : t.approach q level index = .ok near) :
    match near with
    | none => Leads t q (.phase (.searching index level)) (.closing level)
    | some (start, quiet) => ∀ place, t.setOff q level start quiet = .ok place →
        Leads t q (.phase (.searching index level)) place := by
  have hover : ¬ q.last < Word.addCapped index q.block := Nat.not_lt_of_le hwithin
  have hlast : index ≤ q.last := by
    have := q.bounded
    unfold Word.addCapped Word.limit at *
    omega
  unfold approach at happroach
  -- By samples the approach is a walk to the end of the window, by windows it is one look.
  cases hdetail : q.detail with
  | samples =>
    simp only [hdetail, bind, Except.bind, pure, Except.pure] at happroach
    split at happroach
    · cases happroach
    · rename_i stop hround
      split at happroach
      · cases happroach
      · rename_i start hwalk
        cases happroach
        intro place hplace
        -- The walk is one of at most 15 samples.
        obtain ⟨-, hlimit, hstop⟩ := Word.roundUp_eq_ok hround
        replace hstop : stop = (index + 15) / 16 * 16 := hstop
        have hle := Word.le_of_roundUp hround
        have hend : index + (min q.last stop - index) = min q.last stop := by omega
        refine .onward ?_ (leads_approach hwalk hend (by omega) ?_ hplace)
        · simp only [turn, if_neg hover, hdetail, hround, bind, Except.bind, pure, Except.pure]
        · have := q.bounded
          omega
  | windows bottom =>
    simp only [hdetail, bind, Except.bind, pure, Except.pure] at happroach
    split at happroach
    · cases happroach
    · rename_i start hround
      -- A window behind the range closes the answer.
      split at happroach
      · rename_i hend
        cases happroach
        apply Leads.once
        simp only [turn, if_neg hover, hdetail, hround, if_pos hend, bind, Except.bind, pure,
          Except.pure]
      · rename_i hend
        split at happroach
        · cases happroach
        · rename_i found hbit
          cases happroach
          intro place hplace
          apply Leads.once
          simp only [turn, if_neg hover, hdetail, hround, if_neg hend, hbit, bind, Except.bind, pure,
            Except.pure]
          exact hplace

/-- The search for the next block leads to the place behind it. -/
theorem Summed.leads_nextBlock (h : t.Summed) {next : Option EdgeBlock}
    (hnext : t.nextBlock q level index = .ok next) :
    Leads t q (.phase (.searching index level)) (past level next) := by
  simp only [nextBlock, bind, Except.bind, pure, Except.pure] at hnext
  -- The range is over, or the parts of the function lead on one after another.
  split at hnext
  · rename_i hover
    cases hnext
    apply Leads.once
    simp only [turn, if_pos hover, past, pure, Except.pure]
  · rename_i hwithin
    split at hnext
    · cases hnext
    · rename_i near happroach
      have hleads := leads_of_approach (Nat.le_of_not_lt hwithin) happroach
      split at hnext
      · cases hnext
        exact hleads
      · rename_i start quiet
        split at hnext
        · cases hnext
        · rename_i start hstart
          obtain ⟨place, hplace, hblock⟩ := h.leads_blockStart hstart
          refine (hleads place hplace).trans (hblock.trans ?_)
          -- The block goes beyond the range or ends within it.
          split at hnext
          · rename_i hover
            cases hnext
            exact leads_block_of_lt hover
          · rename_i hinside
            split at hnext
            · cases hnext
            · rename_i found hbit
              cases hnext
              exact leads_block_of_le (Nat.le_of_not_lt hinside) hbit

/-- So does the search for a block that changes the level. -/
theorem Summed.leads_search (h : t.Summed) {next : Option EdgeBlock}
    (hnext : t.search q level index = .ok next) :
    Leads t q (.phase (.searching index level)) (past level next) := by
  fun_induction Trace.search t q level index with
  | case1 => cases hnext
  | case2 index hb =>
    cases hnext
    exact h.leads_nextBlock hb
  | case3 index b hb hsame ih =>
    have hleads := h.leads_nextBlock hb
    rw [past, if_pos hsame] at hleads
    exact hleads.trans (ih hnext)
  | case4 index b hb hchange =>
    cases hnext
    exact h.leads_nextBlock hb

/-- A block that is found ends at another level than the one before it. -/
theorem level_of_search {b : EdgeBlock} (hsearch : t.search q level index = .ok (some b)) :
    b.level ≠ level := by
  fun_induction Trace.search t q level index with
  | case1 => cases hsearch
  | case2 => cases hsearch
  | case3 index b hb hsame ih => exact ih hsearch
  | case4 index b hb hchange =>
    cases hsearch
    exact hchange

/-- Behind the last block the level at the end of the range is reported, if it is another one, and
otherwise the edge behind the range. -/
theorem leads_closing {final : Bool} (hfinal : t.bit q.channel q.last = .ok final) :
    Leads t q (.closing level)
      (if final = level then .answer (some ⟨q.last + 1, level⟩) .done
        else .answer (some ⟨q.last, final⟩) (.ending final)) := by
  have hbeyond : Word.add q.last 1 = .ok (q.last + 1) := if_pos q.bounded
  split
  · rename_i hsame
    have hturn : t.turn q (.closing level) = .ok (.phase (.ending level)) := by
      simp only [turn, hfinal, if_pos hsame, bind, Except.bind, pure, Except.pure]
    refine .onward hturn (.once ?_)
    simp only [turn, hbeyond, bind, Except.bind, pure, Except.pure]
  · rename_i hchange
    apply Leads.once
    simp only [turn, hfinal, if_neg hchange, bind, Except.bind, pure, Except.pure]

end Trace

namespace EdgeCursor

variable {t : Trace .logic} {c c' : EdgeCursor} {e : Option Edge}

/-- A step of a cursor changes nothing but what it does next. -/
theorem eq_of_next (hnext : c.next t = .ok (e, c')) : c' = { c with phase := c'.phase } := by
  obtain ⟨query, removals, phase⟩ := c
  simp only [next, finish_ok, bind, Except.bind, pure, Except.pure] at hnext
  -- Every branch either fails or sets the phase.
  cases phase <;> dsimp only at hnext <;> repeat' split at hnext
  all_goals first | contradiction | (cases hnext; rfl)

/-- Where a step of a cursor has a result, the turns lead to it. -/
theorem leads_next (h : t.Summed) (hnext : c.next t = .ok (e, c')) :
    t.Leads c.query (c.outset t) (.answer e c'.phase) := by
  obtain ⟨query, removals, phase⟩ := c
  have hbeyond : Word.add query.last 1 = .ok (query.last + 1) := if_pos query.bounded
  simp only [next, finish_ok, bind, Except.bind, pure, Except.pure] at hnext
  simp only [outset]
  -- After a removal the answer is at hand. Else it is that of the phase.
  split at hnext
  · rename_i hremoved
    cases hnext
    rw [if_pos hremoved]
    exact .here _
  · rename_i hsame
    rw [if_neg hsame]
    cases phase with
    | opening =>
      dsimp only at hnext
      split at hnext
      · cases hnext
      · rename_i level hbit
        split at hnext
        · cases hnext
        · rename_i beyond hadd
          cases hnext
          apply Trace.Leads.once
          simp only [Trace.turn, hbit, hadd, bind, Except.bind, pure, Except.pure]
    | searching index level =>
      dsimp only at hnext
      split at hnext
      · cases hnext
      · rename_i found hsearch
        have hleads := h.leads_search hsearch
        -- An edge was found, or the search is over and the end is left to tell.
        split at hnext
        · cases hnext
          rw [Trace.past, if_neg (Trace.level_of_search hsearch)] at hleads
          exact hleads
        · split at hnext
          · cases hnext
          · rename_i final hfinal
            have hclosing := hleads.trans (Trace.leads_closing hfinal)
            split at hnext
            · rename_i hlevel
              cases hnext
              rw [if_pos hlevel] at hclosing
              exact hclosing
            · rename_i hlevel
              cases hnext
              rw [if_neg hlevel] at hclosing
              exact hclosing
    | ending level =>
      cases hnext
      apply Trace.Leads.once
      simp only [Trace.turn, hbeyond, bind, Except.bind, pure, Except.pure]
    | done =>
      cases hnext
      exact .once rfl

end EdgeCursor

end Waveform
