import Waveform.Logic.EdgeCursor

/-!
# Reading edges, turn by turn

`EdgeCursor.next` comes to the next edge by a few recursions.  Here it is taken apart into the turns of
its loops: an `EdgeTurn` is a place between two turns, and `Trace.turn` goes on to the next place.  A turn
looks at a few samples and at no more than one entry of the pyramid.  Whatever could go wrong in it is
checked: that the samples and the entry are there, that the level has room for entries at all, and that
sums, differences, products and shifts stay within 64 bits.

The last place is an answer, and `Trace.turns` stays there.
-/

namespace Waveform

namespace Pyramid

/-- The number of entries for which a level has room.  Room is made for 65536 entries at a time. -/
def room (length : Nat) : Nat :=
  (length + 65535) / 65536 * 65536

/-- Reads an entry from the bytes of a level. -/
def readEntry (entries : Array UInt64) (width offset : Nat) : Except Violation UInt64 := do
  require (0 < room entries.size) .levelWithoutRoom
  let bytes := room entries.size * width
  let start ← Word.mul offset width
  require (start ≤ bytes) (.sliceStartPastEnd start bytes)
  require (width ≤ bytes - start) (.sliceTooShort width (bytes - start))
  -- The bytes behind the last entry are zero.
  return entries.getD offset 0

end Pyramid

/-- A place between two turns of the loops that look for the next edge.  The level, where one is given, is
the one that the channel had last. -/
inductive EdgeTurn where
  /-- At what the cursor does next. -/
  | phase (p : EdgePhase)
  /-- On the way to the start of a window, sample by sample. -/
  | approach (level : Bool) (index stop : Nat)
  /-- On the way to the right and up, past quiet windows. -/
  | climb (level : Bool) (depth index : Nat)
  /-- On the way to the right and down, past quiet windows. -/
  | descend (level : Bool) (depth index : Nat)
  /-- On the way past quiet samples. -/
  | walk (level : Bool) (index : Nat)
  /-- At the start of a block. -/
  | block (level : Bool) (start : Nat)
  /-- Behind the last block. -/
  | closing (level : Bool)
  /-- The edge is found, or there is none; what the cursor does after this. -/
  | answer (edge : Option Edge) (next : EdgePhase)

namespace Trace

/-- Whether a window of a level has an entry in which the channel did not change. -/
def quietAt (t : Trace .logic) (channel : Fin 64) (level index : Nat) : Except Violation Bool := do
  let entries ← t.pyramid.level level
  let offset ← Word.shiftRight index (Pyramid.power level)
  if offset < entries.size then
    return !channelBit channel (← Pyramid.readEntry entries t.width.bytes offset)
  else return false

/-- Sets off from where an approach has led.  Nothing is skipped if a change was met on the way, or if
the pyramid has no room for entries at the level in question. -/
def setOff (t : Trace .logic) (q : EdgeQuery) (level : Bool) (near : Nat) (quiet : Bool) :
    Except Violation EdgeTurn := do
  let entries ← t.pyramid.level q.detail.level
  if quiet ∧ 0 < Pyramid.room entries.size then return .climb level q.detail.level near
  else return .block level near

/-- The place to which a descent leads: a query for single samples walks on from there. -/
def landing (q : EdgeQuery) (level : Bool) (index : Nat) : EdgeTurn :=
  match q.detail with
  | .samples => .walk level index
  | .windows _ => .block level index

/-- The next place. -/
def turn (t : Trace .logic) (q : EdgeQuery) : EdgeTurn → Except Violation EdgeTurn
  | .phase .opening => do
    let level ← t.bit q.channel q.first
    let beyond ← Word.add q.first 1
    return .answer (some ⟨q.first, level⟩) (.searching beyond level)
  | .phase (.searching index level) => do
    if q.last < Word.addCapped index q.block then return .closing level
    match q.detail with
    | .samples => return .approach level index (min q.last (← Word.roundUp index 4))
    | .windows bottom =>
      let start ← Word.roundUp index (Pyramid.power bottom)
      if q.last ≤ start then return .closing level
      t.setOff q level start ((← t.bit q.channel start) = level)
  | .phase (.ending level) => do
    let beyond ← Word.add q.last 1
    return .answer (some ⟨beyond, level⟩) .done
  | .phase .done => return .answer none .done
  | .approach level index stop => do
    if index < stop ∧ index % 16 ≠ 0 then
      if (← t.bit q.channel index) = level then
        return .approach level (← Word.add index 1) stop
      t.setOff q level index false
    else t.setOff q level index true
  | .climb level depth index => do
    if ← t.quietAt q.channel depth index then
      if (← Word.shiftRight index (Pyramid.power depth)) % 16 = 0 then
        if 10 ≤ depth + 1 then return .descend level depth index
        let upper ← t.pyramid.level (depth + 1)
        if Pyramid.room upper.size = 0 then return .descend level depth index
        return .climb level (depth + 1) index
      return .climb level depth (← nextWindow depth index)
    return .descend level depth index
  | .descend level depth index => do
    if ← t.quietAt q.channel depth index then
      return .descend level depth (← nextWindow depth index)
    if depth = q.detail.level then return landing q level index
    return .descend level (← Word.sub depth 1) index
  | .walk level index => do
    if index < q.last then
      if (← t.bit q.channel index) = level then return .walk level (← Word.add index 1)
    return .block level index
  | .block level start => do
    let stop := Word.addCapped start q.block
    if q.last < stop then return .closing level
    let found ← t.bit q.channel (← Word.sub stop 1)
    if found = level then return .phase (.searching stop level)
    return .answer (some ⟨start, found⟩) (.searching stop found)
  | .closing level => do
    let final ← t.bit q.channel q.last
    if final = level then return .phase (.ending level)
    return .answer (some ⟨q.last, final⟩) (.ending final)
  | .answer edge next => return .answer edge next

/-- The place after a number of turns. -/
def turns (t : Trace .logic) (q : EdgeQuery) : Nat → EdgeTurn → Except Violation EdgeTurn
  | 0, place => return place
  | n + 1, place => do turns t q n (← t.turn q place)

end Trace

/-- The place from which a cursor sets out for the next edge. -/
def EdgeCursor.outset (t : Trace .logic) (c : EdgeCursor) : EdgeTurn :=
  if t.removals ≠ c.removals then .answer none .done else .phase c.phase

end Waveform
