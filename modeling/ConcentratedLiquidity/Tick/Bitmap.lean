import ConcentratedLiquidity.Tick.List
import ConcentratedLiquidity.Word.BitScan
import Std.Data.HashMap

/-!
# Tick bitmaps

A tick bitmap marks the listed steps of the grid in a sparse map of words, one bit a step. A search masks off one side of a word and scans it for its nearest bit, and walks on word by word where it may. Bits only locate indices; the ticks themselves are read back from the list.
-/

namespace ConcentratedLiquidity

/-- Words of the grid by position. A word that is not stored is zero. -/
abbrev WordMap := Std.HashMap Int Word

namespace WordMap

def word (words : WordMap) (position : Int) : Word := words.getD position 0

def mark (words : WordMap) (step : Int) : WordMap :=
  words.insert (Grid.wordOf step) (words.word (Grid.wordOf step) ||| 1 <<< Grid.bitOf step)

def ofTicks (ticks : Ticks) (spacing : TickSpacing) : WordMap :=
  ticks.foldl (fun words tick => words.mark (Grid.stepBelow spacing tick.index)) ∅

/-- The nearest marked step at or below a step, in the same word. -/
def lastInWord? (words : WordMap) (step : Int) : Option Int :=
  match (words.word (Grid.wordOf step) &&& Word.maskThrough (Grid.bitOf step)).highestBit with
  | .ok bit => some (step - (Grid.bitOf step - bit))
  | .error _ => none

def firstInWord? (words : WordMap) (step : Int) : Option Int :=
  match (words.word (Grid.wordOf step) &&& Word.maskFrom (Grid.bitOf step)).lowestBit with
  | .ok bit => some (step + (bit - Grid.bitOf step))
  | .error _ => none

/-- The nearest marked step at or below a step, in the words down to the one of `lowest`. -/
def lastAtOrBelow? (words : WordMap) (lowest step : Int) : Option Int :=
  match words.lastInWord? step with
  | some found => some found
  | none =>
    if lowest < Grid.wordStart step then
      words.lastAtOrBelow? lowest (Grid.wordStart step - 1)
    else
      none
termination_by (step - lowest).toNat
decreasing_by
  have hstart := Grid.wordStart_le step
  omega

def firstAtOrAbove? (words : WordMap) (highest step : Int) : Option Int :=
  match words.firstInWord? step with
  | some found => some found
  | none =>
    if Grid.wordEnd step < highest then
      words.firstAtOrAbove? highest (Grid.wordEnd step + 1)
    else
      none
termination_by (highest - step).toNat
decreasing_by
  have hend := Grid.le_wordEnd step
  omega

end WordMap

structure TickBitmap where
  list : TickList
  words : WordMap
  inRange : ∀ tick ∈ list.ticks, tick.index.InRange
  words_eq : words = WordMap.ofTicks list.ticks list.spacing

namespace TickBitmap

/-- Makes the bitmap of a list, all of whose ticks must have a price. -/
def ofList (list : TickList) : Except Error TickBitmap :=
  if hrange : ∀ tick ∈ list.ticks, tick.index.InRange then
    .ok ⟨list, WordMap.ofTicks list.ticks list.spacing, hrange, rfl⟩
  else
    .error .tickOutOfRange

theorem ofList_eq_ok_iff {list : TickList} {bitmap : TickBitmap} :
    ofList list = .ok bitmap ↔ bitmap.list = list := by
  unfold ofList
  split
  · rw [Except.ok.injEq]
    constructor
    · rintro rfl
      rfl
    · obtain ⟨_, _, _, hwords⟩ := bitmap
      rintro rfl
      subst hwords
      rfl
  · rename_i hrange
    constructor
    · intro h; cases h
    · rintro rfl
      exact absurd bitmap.inRange hrange

def word (bitmap : TickBitmap) (position : Int) : Word := bitmap.words.word position

/-- The lowest and the highest listed index, unless no tick lies in the direction of a search. -/
def boundsToward (bitmap : TickBitmap) (direction : Direction) (index : TickIndex) :
    Except Error (TickIndex × TickIndex) :=
  match bitmap.list.ticks[0]?, bitmap.list.ticks.back? with
  | some first, some last =>
    match direction with
    | .down => if index < first.index then .error .belowSmallest else .ok (first.index, last.index)
    | .up => if last.index ≤ index then .error .atOrAboveLargest else .ok (first.index, last.index)
  | _, _ => .error .emptyList

def nextWithinWord (bitmap : TickBitmap) (spacing : TickSpacing) (direction : Direction)
    (index : TickIndex) : Except Error NextTick := do
  bitmap.list.requireSpacing spacing
  let _ ← bitmap.boundsToward direction index
  let step := Grid.stepBelow bitmap.list.spacing index
  let found? := match direction with
    | .down => bitmap.words.lastInWord? step
    | .up => bitmap.words.firstInWord? (step + 1)
  let edge := match direction with
    | .down => Grid.wordStart step
    | .up => Grid.wordEnd (step + 1)
  .ok { index := Grid.tickAt bitmap.list.spacing (found?.getD edge), initialized := found?.isSome }

/-- The index of the next tick in a direction and whether that tick is initialized. Of several ticks with that index, the one nearest in the direction of the search is asked. -/
def nextIndex (bitmap : TickBitmap) (direction : Direction) (index : TickIndex) :
    Except Error NextTick := do
  let (first, last) ← bitmap.boundsToward direction index
  let step := Grid.stepBelow bitmap.list.spacing index
  let lowest := Grid.stepBelow bitmap.list.spacing first
  let highest := Grid.stepBelow bitmap.list.spacing last
  match direction with
  | .down =>
    match bitmap.words.lastAtOrBelow? lowest (min step highest) with
    | some found =>
      let index := Grid.tickAt bitmap.list.spacing found
      .ok { index, initialized := (bitmap.list.ticks.lastAtOrBelow? index).any (·.isInitialized) }
    | none => .error .belowSmallest
  | .up =>
    match bitmap.words.firstAtOrAbove? highest (max (step + 1) lowest) with
    | some found =>
      let index := Grid.tickAt bitmap.list.spacing found
      .ok { index, initialized := (bitmap.list.ticks.firstAtOrAbove? index).any (·.isInitialized) }
    | none => .error .atOrAboveLargest

end TickBitmap

end ConcentratedLiquidity
