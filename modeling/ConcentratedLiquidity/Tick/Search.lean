import ConcentratedLiquidity.Direction
import ConcentratedLiquidity.Tick.Basic
import ConcentratedLiquidity.Tick.Grid

/-!
# Searching a snapshot of ticks

Binary search in ticks sorted by index. A downward search returns the last tick at or below an index, an upward search the first tick above it. Where an index is listed more than once, a search by index returns its first entry. The searches bounded by a word stop at the edge of the grid word they start in.
-/

namespace ConcentratedLiquidity.Ticks

/-! ### Binary search -/

/-- Halves the positions from `low` to `high` until one is left: the first from which a property fails that holds before it. -/
def splitBetween (ticks : Ticks) (holds : Tick → Bool) (low high : Nat) (hhigh : high ≤ ticks.size) :
    Nat :=
  if hlow : low < high then
    have hmiddle : (low + high) / 2 < ticks.size := by omega
    if holds ticks[(low + high) / 2] then
      splitBetween ticks holds ((low + high) / 2 + 1) high hhigh
    else
      splitBetween ticks holds low ((low + high) / 2) (by omega)
  else
    low
termination_by high - low

/-- The number of ticks before the first at which a property fails. -/
def splitPoint (ticks : Ticks) (holds : Tick → Bool) : Nat :=
  splitBetween ticks holds 0 ticks.size (Nat.le_refl _)

theorem splitBetween_le (ticks : Ticks) (holds : Tick → Bool) (low high : Nat)
    (hhigh : high ≤ ticks.size) (hle : low ≤ high) :
    splitBetween ticks holds low high hhigh ≤ high := by
  fun_induction splitBetween ticks holds low high hhigh with
  | case1 low high _ hlow _ _ ih => exact ih (by omega)
  | case2 low high _ hlow _ _ ih => exact Nat.le_trans (ih (by omega)) (by omega)
  | case3 => exact hle

theorem splitPoint_le_size (ticks : Ticks) (holds : Tick → Bool) :
    ticks.splitPoint holds ≤ ticks.size :=
  splitBetween_le ticks holds 0 ticks.size (Nat.le_refl _) (Nat.zero_le _)

theorem splitBetween_pos {ticks : Ticks} {holds : Tick → Bool} (hsome : 0 < ticks.size)
    (hfirst : holds ticks[0] = true) {low high : Nat} (hhigh : high ≤ ticks.size) (hpos : 0 < high) :
    0 < splitBetween ticks holds low high hhigh := by
  fun_induction splitBetween ticks holds low high hhigh with
  | case1 low high _ hlow hmiddle hholds ih => exact ih hpos
  | case2 low high _ hlow hmiddle hfails ih =>
    apply ih
    apply Nat.pos_of_ne_zero
    intro hzero
    simp only [hzero] at hfails
    exact hfails hfirst
  | case3 low high _ hge => omega

theorem splitBetween_lt_size {ticks : Ticks} {holds : Tick → Bool} (hsome : 0 < ticks.size)
    (hlast : holds (ticks.back hsome) = false) {low high : Nat} (hhigh : high ≤ ticks.size)
    (hlow : low < ticks.size) : splitBetween ticks holds low high hhigh < ticks.size := by
  fun_induction splitBetween ticks holds low high hhigh with
  | case1 low high _ _ hmiddle hholds ih =>
    apply ih
    have hne : (low + high) / 2 ≠ ticks.size - 1 := by
      intro heq
      simp only [heq] at hholds
      rw [Array.back_eq_getElem, hholds] at hlast
      cases hlast
    omega
  | case2 low high _ _ _ _ ih => exact ih hlow
  | case3 => exact hlow

def lastAtOrBelow? (ticks : Ticks) (index : TickIndex) : Option Tick :=
  match ticks.splitPoint (·.index ≤ index) with
  | 0 => none
  | position + 1 => ticks[position]?

def firstAtOrAbove? (ticks : Ticks) (index : TickIndex) : Option Tick :=
  ticks[ticks.splitPoint (·.index < index)]?

/-! ### Questions about a snapshot -/

def isBelowSmallest (ticks : Ticks) (index : TickIndex) : Except Error Bool :=
  match ticks[0]? with
  | some first => .ok (index < first.index)
  | none => .error .emptyList

def isAtOrAboveLargest (ticks : Ticks) (index : TickIndex) : Except Error Bool :=
  match ticks.back? with
  | some last => .ok (last.index ≤ index)
  | none => .error .emptyList

/-- The first tick with an index. -/
def find (ticks : Ticks) (index : TickIndex) : Except Error Tick :=
  if ticks.isEmpty then
    .error .emptyList
  else
    match (ticks.firstAtOrAbove? index).filter (·.index = index) with
    | some tick => .ok tick
    | none => .error .noSuchTick

/-- The position of the last tick at or below an index that does not lie below all ticks. -/
def lastPosition (ticks : Ticks) (index : TickIndex) : Nat := ticks.splitPoint (·.index ≤ index) - 1

theorem lastPosition_lt_size {ticks : Ticks} (hsome : 0 < ticks.size) (index : TickIndex) :
    ticks.lastPosition index < ticks.size := by
  have hle := ticks.splitPoint_le_size (·.index ≤ index)
  rw [lastPosition]
  omega

/-- The ends alone decide this, whether or not the ticks between them are sorted. -/
theorem lastPosition_add_one {ticks : Ticks} {index : TickIndex} (hsome : 0 < ticks.size)
    (hfirst : ¬index < ticks[0].index) :
    ticks.lastPosition index + 1 = ticks.splitPoint (·.index ≤ index) := by
  have hpos : 0 < ticks.splitPoint (·.index ≤ index) :=
    splitBetween_pos hsome (decide_eq_true (Int32.not_lt.1 hfirst)) _ hsome
  rw [lastPosition]
  omega

theorem lastPosition_add_one_lt_size {ticks : Ticks} {index : TickIndex} (hsome : 0 < ticks.size)
    (hlast : ¬(ticks.back hsome).index ≤ index) (hfirst : ¬index < ticks[0].index) :
    ticks.lastPosition index + 1 < ticks.size := by
  rw [lastPosition_add_one hsome hfirst]
  exact splitBetween_lt_size hsome (decide_eq_false hlast) _ hsome

/-- The next tick in a direction: at or below an index, or above it. The ends are asked before the ticks are halved. -/
def next (ticks : Ticks) (direction : Direction) (index : TickIndex) : Except Error Tick :=
  if hsome : 0 < ticks.size then
    match direction with
    | .down =>
      if index < ticks[0].index then
        .error .belowSmallest
      else if (ticks.back hsome).index ≤ index then
        .ok (ticks.back hsome)
      else
        have hposition := lastPosition_lt_size hsome index
        .ok ticks[ticks.lastPosition index]
    | .up =>
      if hlast : (ticks.back hsome).index ≤ index then
        .error .atOrAboveLargest
      else if hfirst : index < ticks[0].index then
        .ok ticks[0]
      else
        have hposition := lastPosition_add_one_lt_size hsome hlast hfirst
        .ok ticks[ticks.lastPosition index + 1]
  else
    .error .emptyList

def nextIndex (ticks : Ticks) (direction : Direction) (index : TickIndex) :
    Except Error NextTick := do
  let tick ← ticks.next direction index
  .ok { index := tick.index, initialized := tick.isInitialized }

/-- The next tick in a direction, or the edge of the grid word where that comes first. Downwards the word is the one that holds the index, upwards the one that holds the step after it. -/
def nextWithinWord (ticks : Ticks) (spacing : TickSpacing) (direction : Direction) (index : TickIndex) :
    Except Error NextTick :=
  if spacing ≤ 0 then
    .error .nonPositiveSpacing
  else do
    let tick ← ticks.next direction index
    let step := Grid.stepBelow spacing index
    let nearer := match direction with
      | .down => max (Grid.wordStart step * spacing.toInt) tick.index.toInt
      | .up => min (Grid.wordEnd (step + 1) * spacing.toInt) tick.index.toInt
    let reached := Int32.ofInt nearer
    .ok { index := reached, initialized := reached = tick.index }

end ConcentratedLiquidity.Ticks
