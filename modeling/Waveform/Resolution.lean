import Waveform.Binary32.Basic

/-!
# Resolutions of a query

A caller asks for a resolution as a number of samples that may be told apart no further.  For a
pyramid it comes down to a level, for an edge query also to whether single samples matter and to
the length of the blocks that are reported as one.
-/

namespace Waveform

/-- The resolutions from which the levels `1` to `9` are used, in turn.  Level `L` takes over where
the quotient of the logarithms of the resolution and of 16, every step rounded to single precision,
reaches `L + 1`.  The roundings let that happen a few numbers before `16 ^ (L + 1)`.

The table stands in place of the logarithm, the division and the rounding down.  How a logarithm is
rounded is left to the platform; these are the nine bit patterns of one platform, and on another an entry may
differ by a few numbers.  What is proved of cursors asks no more of a level than that its windows are at most
twice as long as the blocks. -/
def levelThresholds : List Binary32 :=
  [⟨0x437ffffd⟩, ⟨0x457ffff9⟩, ⟨0x477ffff9⟩, ⟨0x497ffff9⟩, ⟨0x4b7ffff1⟩,
   ⟨0x4d7ffff1⟩, ⟨0x4f7ffff2⟩, ⟨0x517ffff2⟩, ⟨0x537ffff2⟩]

/-- The pyramid level for a resolution. -/
def levelFor (resolution : Binary32) : Fin 10 :=
  ⟨levelThresholds.countP fun t => decide (¬ resolution < t),
    Nat.lt_succ_of_le List.countP_le_length⟩

/-- How closely an edge query looks at a trace. -/
inductive Detail where
  /-- At every sample. -/
  | samples
  /-- At the windows of a pyramid level. -/
  | windows (level : Fin 10)

/-- The least resolution at which whole windows are looked at. -/
def Detail.threshold : Binary32 := ⟨0x41800000⟩

/-- The detail for a resolution: below 16 samples every sample counts. -/
def Detail.ofResolution (resolution : Binary32) : Detail :=
  if resolution < threshold then .samples else .windows (levelFor resolution)

/-- The finest pyramid level that is looked at. -/
def Detail.level : Detail → Nat
  | .samples => 0
  | .windows level => level

/-- The number of samples that are reported as one: the whole part of the resolution, and at least
one. -/
def blockLength (resolution : Binary32) : Nat :=
  max 1 resolution.whole

end Waveform
