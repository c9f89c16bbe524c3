import ConcentratedLiquidity.Proofs.Tick.Stop
import Mathlib.Data.Int.ConditionallyCompleteOrder
import Mathlib.Tactic.Linarith

/-!
# What a bounded search reaches

The edge of a search is the first index of the word that its index lies in, or the last one of the word that the next step lies in. Of the listed indices on the way to the edge the search answers with the nearest, and where there are none with the edge. An edge may be far outside the indices of 32 bits, but then a listed index comes before it. So nothing is lost where the nearer of the two is made an index.
-/

namespace ConcentratedLiquidity

namespace Direction

/-- The last place at which a search bounded by a word may stop. -/
def wordEdge (direction : Direction) (spacing : TickSpacing) (index : TickIndex) : Int :=
  match direction with
  | .down => 256 * (index.toInt / spacing.toInt / 256) * spacing.toInt
  | .up => (256 * ((index.toInt / spacing.toInt + 1) / 256) + 255) * spacing.toInt

/-- The one of two places ahead that comes first in a direction. -/
def nearer : Direction → Int → Int → Int
  | .down => max
  | .up => min

theorem wordEdge_down (spacing : TickSpacing) (index : TickIndex) :
    Direction.down.wordEdge spacing index =
      Grid.wordStart (Grid.stepBelow spacing index) * spacing.toInt := by
  rw [wordEdge, Grid.wordStart_eq, Grid.wordOf, Grid.stepBelow, Int.mul_comm 256]

theorem wordEdge_up (spacing : TickSpacing) (index : TickIndex) :
    Direction.up.wordEdge spacing index =
      Grid.wordEnd (Grid.stepBelow spacing index + 1) * spacing.toInt := by
  rw [wordEdge, Grid.wordEnd_eq, Grid.wordOf, Grid.stepBelow, Int.mul_comm 256]

section Bounds

variable {spacing : TickSpacing} (hspacing : 0 < spacing.toInt)

include hspacing

theorem mul_spacing_bounds {step : Int} (hlow : -2 ^ 32 ≤ step) (hhigh : step ≤ 2 ^ 32) :
    -2 ^ 63 ≤ step * spacing.toInt ∧ step * spacing.toInt < 2 ^ 63 := by
  have hlt := spacing.toInt_lt
  constructor
  · nlinarith
  · nlinarith

/-- The edges of words fit 64 bits, as steps of little more than 32 bits times a spacing of 31. -/
theorem wordEdge_bounds (direction : Direction) (index : TickIndex) :
    -2 ^ 63 ≤ direction.wordEdge spacing index ∧ direction.wordEdge spacing index < 2 ^ 63 := by
  have hlow : -2 ^ 31 ≤ Grid.stepBelow spacing index := by
    rw [Grid.le_stepBelow_iff hspacing]
    nlinarith [index.le_toInt]
  have hhigh : Grid.stepBelow spacing index < 2 ^ 31 := by
    rw [Grid.stepBelow_lt_iff hspacing]
    nlinarith [index.toInt_lt]
  cases direction with
  | down =>
    rw [wordEdge_down]
    apply mul_spacing_bounds hspacing
    all_goals rw [Grid.wordStart_eq, Grid.wordOf]; omega
  | up =>
    rw [wordEdge_up]
    apply mul_spacing_bounds hspacing
    all_goals rw [Grid.wordEnd_eq, Grid.wordOf]; omega

end Bounds

end Direction

/-- What a search answers with: the nearest of some places, or the edge of its word if there is none. -/
def NextTick.Answers (next : NextTick) (nearest : Set Int → Int → Prop) (places : Set Int)
    (edge : Int) : Prop :=
  (next.initialized = true ∧ nearest places next.index.toInt) ∨
    (next.initialized = false ∧ places = ∅ ∧ next.index.toInt = edge)

namespace Ticks

variable {ticks : Ticks} {spacing : TickSpacing} {direction : Direction} {index : TickIndex}
  {tick : Tick} {next : NextTick}

def places (ticks : Ticks) : Set Int := {place | ∃ tick ∈ ticks, tick.index.toInt = place}

/-! ### Where a search stops -/

theorem answers_of_nextWithinWord_down (hsorted : ticks.Sorted)
    (h : ticks.nextWithinWord spacing .down index = .ok next) :
    next.Answers IsGreatest
      (ticks.places ∩ Set.Icc (Direction.down.wordEdge spacing index) index.toInt)
      (Direction.down.wordEdge spacing index) := by
  obtain ⟨tick, hlast, hinitialized, edge, hedge, hword, hnext⟩ := nextWithinWord_down hsorted h
  obtain ⟨position, hget, hle, -⟩ := (lastAtOrBelow?_eq_some_iff hsorted).1 hlast
  have hnearest : ∀ other ∈ ticks, other.index ≤ index → other.index ≤ tick.index :=
    fun other hmem => le_of_lastAtOrBelow? hsorted hlast hmem
  simp only [Int32.le_iff_toInt_le] at hle hnearest
  rw [← Int32.toInt_inj, hnext] at hinitialized
  rw [Direction.wordEdge_down, ← hword]
  by_cases hreached : edge ≤ tick.index.toInt
  · refine Or.inl ⟨hinitialized.2 (max_eq_right hreached), ?_⟩
    rw [hnext, max_eq_right hreached]
    refine ⟨⟨⟨tick, Array.mem_of_getElem? hget, rfl⟩, hreached, hle⟩, ?_⟩
    rintro place ⟨⟨other, hmem, rfl⟩, -, hbelow⟩
    exact hnearest other hmem hbelow
  · refine Or.inr ⟨?_, ?_, ?_⟩
    · rw [← Bool.not_eq_true, hinitialized]
      omega
    · rw [Set.eq_empty_iff_forall_notMem]
      rintro place ⟨⟨other, hmem, rfl⟩, habove, hbelow⟩
      have hother := hnearest other hmem hbelow
      omega
    · omega

theorem answers_of_nextWithinWord_up (hsorted : ticks.Sorted)
    (h : ticks.nextWithinWord spacing .up index = .ok next) :
    next.Answers IsLeast
      (ticks.places ∩ Set.Ioc index.toInt (Direction.up.wordEdge spacing index))
      (Direction.up.wordEdge spacing index) := by
  obtain ⟨tick, hfirst, hinitialized, edge, hedge, hword, hnext⟩ := nextWithinWord_up hsorted h
  obtain ⟨position, hget, hlt, -⟩ := (firstAbove?_eq_some_iff hsorted).1 hfirst
  have hnearest : ∀ other ∈ ticks, index < other.index → tick.index ≤ other.index :=
    fun other hmem => le_of_firstAbove? hsorted hfirst hmem
  simp only [Int32.le_iff_toInt_le, Int32.lt_iff_toInt_lt] at hlt hnearest
  rw [← Int32.toInt_inj, hnext] at hinitialized
  rw [Direction.wordEdge_up, ← hword]
  by_cases hreached : tick.index.toInt ≤ edge
  · refine Or.inl ⟨hinitialized.2 (min_eq_right hreached), ?_⟩
    rw [hnext, min_eq_right hreached]
    refine ⟨⟨⟨tick, Array.mem_of_getElem? hget, rfl⟩, hlt, hreached⟩, ?_⟩
    rintro place ⟨⟨other, hmem, rfl⟩, habove, -⟩
    exact hnearest other hmem habove
  · refine Or.inr ⟨?_, ?_, ?_⟩
    · rw [← Bool.not_eq_true, hinitialized]
      omega
    · rw [Set.eq_empty_iff_forall_notMem]
      rintro place ⟨⟨other, hmem, rfl⟩, habove, hbelow⟩
      have hother := hnearest other hmem habove
      omega
    · omega

theorem toInt_index_of_nextWithinWord (hsorted : ticks.Sorted)
    (h : ticks.nextWithinWord spacing direction index = .ok next) :
    ∃ tick, ticks.next direction index = .ok tick ∧
      next.index.toInt = direction.nearer (direction.wordEdge spacing index) tick.index.toInt := by
  cases direction with
  | down =>
    obtain ⟨tick, hlast, -, edge, -, hword, hnext⟩ := nextWithinWord_down hsorted h
    rw [hword, ← Direction.wordEdge_down] at hnext
    exact ⟨tick, (next_down_eq_ok_iff hsorted).2 hlast, hnext⟩
  | up =>
    obtain ⟨tick, hfirst, -, edge, -, hword, hnext⟩ := nextWithinWord_up hsorted h
    rw [hword, ← Direction.wordEdge_up] at hnext
    exact ⟨tick, (next_up_eq_ok_iff hsorted).2 hfirst, hnext⟩

/-! ### Whether it stops -/

theorem exists_nextWithinWord_eq_ok (hspacing : 0 < spacing)
    (h : ∃ tick, ticks.next direction index = .ok tick) :
    ∃ next, ticks.nextWithinWord spacing direction index = .ok next := by
  obtain ⟨tick, hnext⟩ := h
  rw [nextWithinWord, if_neg (Int32.not_le.2 hspacing), hnext, ok_bind]
  exact ⟨_, rfl⟩

theorem nextWithinWord_of_next_eq_error (hspacing : 0 < spacing) {cause : Error}
    (h : ticks.next direction index = .error cause) :
    ticks.nextWithinWord spacing direction index = .error cause := by
  rw [nextWithinWord, if_neg (Int32.not_le.2 hspacing), h]
  rfl

/-- A search bounded by a word answers with the nearest listed index up to the edge of the word, or with the edge, unless no tick is listed in its direction. Its answer is the nearer of the edge and the next tick, and not only congruent to it. -/
theorem nextWithinWord_is_nearest_up_to_edge (hsorted : ticks.Sorted) (hspacing : 0 < spacing)
    (index : TickIndex) :
    (ticks = #[] → ∀ direction, ticks.nextWithinWord spacing direction index = .error .emptyList) ∧
    (∀ first, ticks[0]? = some first →
      (first.index ≤ index → ∃ next, ticks.nextWithinWord spacing .down index = .ok next ∧
        next.Answers IsGreatest
          (ticks.places ∩ Set.Icc (Direction.down.wordEdge spacing index) index.toInt)
          (Direction.down.wordEdge spacing index)) ∧
      (index < first.index → ticks.nextWithinWord spacing .down index = .error .belowSmallest)) ∧
    (∀ last, ticks.back? = some last →
      (index < last.index → ∃ next, ticks.nextWithinWord spacing .up index = .ok next ∧
        next.Answers IsLeast
          (ticks.places ∩ Set.Ioc index.toInt (Direction.up.wordEdge spacing index))
          (Direction.up.wordEdge spacing index)) ∧
      (last.index ≤ index → ticks.nextWithinWord spacing .up index = .error .atOrAboveLargest)) ∧
    ∀ direction, -2 ^ 63 ≤ direction.wordEdge spacing index ∧
      direction.wordEdge spacing index < 2 ^ 63 ∧
      ∀ next, ticks.nextWithinWord spacing direction index = .ok next →
        ∃ tick, ticks.next direction index = .ok tick ∧
          next.index.toInt = direction.nearer (direction.wordEdge spacing index) tick.index.toInt := by
  refine ⟨fun hempty direction => ?_, fun first hfirst => ⟨fun hle => ?_, fun hlt => ?_⟩,
    fun last hlast => ⟨fun hlt => ?_, fun hle => ?_⟩, fun direction => ?_⟩
  · exact nextWithinWord_of_next_eq_error hspacing (next_empty hempty)
  · obtain ⟨next, hnext⟩ := exists_nextWithinWord_eq_ok hspacing
      (exists_next_down_of_first_le hsorted hfirst hle)
    exact ⟨next, hnext, answers_of_nextWithinWord_down hsorted hnext⟩
  · exact nextWithinWord_of_next_eq_error hspacing (next_down_of_lt_first hsorted hfirst hlt)
  · obtain ⟨next, hnext⟩ := exists_nextWithinWord_eq_ok hspacing
      (exists_next_up_of_lt_last hsorted hlast hlt)
    exact ⟨next, hnext, answers_of_nextWithinWord_up hsorted hnext⟩
  · exact nextWithinWord_of_next_eq_error hspacing (next_up_of_last_le hsorted hlast hle)
  · obtain ⟨hlow, hhigh⟩ :=
      Direction.wordEdge_bounds (Int32.lt_iff_toInt_lt.1 hspacing) direction index
    exact ⟨hlow, hhigh, fun next hnext => toInt_index_of_nextWithinWord hsorted hnext⟩

def farTicks : Ticks := #[⟨-2147483648, 1, ⟨1⟩⟩, ⟨5, 1, ⟨-1⟩⟩]

/-- With the widest spacing the edge below the lowest index has 40 bits, and the listed index comes before it. Upwards the word ends at the next index, which is not listed. -/
theorem nextWithinWord_at_lowest_index :
    farTicks.Sorted ∧ (0 : TickSpacing) < 2147483647 ∧
      Direction.down.wordEdge 2147483647 (-2147483648) = -549755813632 ∧
      farTicks.nextWithinWord 2147483647 .down (-2147483648) = .ok ⟨-2147483648, true⟩ ∧
      farTicks.nextWithinWord 2147483647 .up (-2147483648) = .ok ⟨-2147483647, false⟩ := by
  have hsorted : farTicks.Sorted := isNonDecreasing_iff_sorted.1 (by decide)
  have hspacing : (0 : TickSpacing) < 2147483647 := by decide
  have hplaces (place : Int) : place ∈ farTicks.places ↔ place = -2147483648 ∨ place = 5 := by
    simp [places, farTicks, eq_comm]
  have hlow : Direction.down.wordEdge 2147483647 (-2147483648) = -549755813632 := by decide
  have hhigh : Direction.up.wordEdge 2147483647 (-2147483648) = -2147483647 := by decide
  have hindex : (-2147483648 : TickIndex).toInt = -2147483648 := by decide
  obtain ⟨-, hfirst, hlast, -⟩ :=
    nextWithinWord_is_nearest_up_to_edge hsorted hspacing (-2147483648)
  obtain ⟨⟨down, downFlag⟩, hdown, hbelow⟩ := (hfirst _ rfl).1 (by decide)
  obtain ⟨⟨up, upFlag⟩, hup, habove⟩ := (hlast _ rfl).1 (by decide)
  rw [hlow, hindex] at hbelow
  rw [hhigh, hindex] at habove
  refine ⟨hsorted, hspacing, hlow, ?_, ?_⟩
  · rcases hbelow with ⟨rfl, ⟨hlisted, -, hle⟩, -⟩ | ⟨-, hempty, -⟩
    · obtain rfl : down = -2147483648 := by
        simp only [hplaces] at hlisted hle
        rw [← Int32.toInt_inj, hindex]
        omega
      exact hdown
    · have hlisted := (hplaces (-2147483648)).2 (Or.inl rfl)
      exact absurd hempty (Set.Nonempty.ne_empty ⟨_, hlisted, by decide, by decide⟩)
  · rcases habove with ⟨-, ⟨hlisted, hlt, hle⟩, -⟩ | ⟨rfl, -, hedge⟩
    · rw [hplaces] at hlisted
      omega
    · obtain rfl : up = -2147483647 := by
        rw [← Int32.toInt_inj]
        exact hedge
      exact hup

end Ticks

end ConcentratedLiquidity
