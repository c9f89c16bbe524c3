import ConcentratedLiquidity.Proofs.Error
import ConcentratedLiquidity.Proofs.Tick.Search

/-!
# Searches as scans

What a search of sorted ticks returns is what a scan of all of them returns: from the front for an index and for the next tick above, from the back for the next tick below. So of several entries with one index, an upward search finds the first one and a downward search the last one.

Between the ends a search reads the entry before the split point or the one at it. Nothing in the answer would tell a read outside the ticks, so the search is written out once more with reads that fail in a way of the caller's choice where there is no entry. That it still agrees, whatever the failure chosen, says that there is no such read.
-/

namespace ConcentratedLiquidity

/-! ### Scans of an array -/

section Scan

variable {α : Type} {entries : Array α} {holds : α → Bool} {entry : α}

theorem find?_eq_some_iff_getElem? : entries.find? holds = some entry ↔
    ∃ position : Nat, entries[position]? = some entry ∧ holds entry = true ∧
      ∀ ⦃earlier : Nat⦄ ⦃other⦄, entries[earlier]? = some other → earlier < position →
        holds other = false := by
  rw [Array.find?_eq_some_iff_getElem]
  constructor
  · rintro ⟨hholds, position, hposition, rfl, hearlier⟩
    refine ⟨position, Array.getElem?_eq_getElem hposition, hholds, fun earlier other hother hlt => ?_⟩
    obtain ⟨-, rfl⟩ := Array.getElem?_eq_some_iff.1 hother
    simpa using hearlier earlier hlt
  · rintro ⟨position, hget, hholds, hearlier⟩
    obtain ⟨hposition, rfl⟩ := Array.getElem?_eq_some_iff.1 hget
    refine ⟨hholds, position, hposition, rfl, fun earlier hlt => ?_⟩
    simp [hearlier (Array.getElem?_eq_getElem (hlt.trans hposition)) hlt]

theorem findRev?_eq_some_iff_getElem? : entries.findRev? holds = some entry ↔
    ∃ position : Nat, entries[position]? = some entry ∧ holds entry = true ∧
      ∀ ⦃later : Nat⦄ ⦃other⦄, entries[later]? = some other → position < later →
        holds other = false := by
  rw [Array.findRev?_eq_find?_reverse, find?_eq_some_iff_getElem?]
  constructor
  · rintro ⟨position, hget, hholds, hearlier⟩
    have hposition := (Array.getElem?_eq_some_iff.1 hget).1
    rw [Array.size_reverse] at hposition
    rw [Array.getElem?_reverse hposition] at hget
    refine ⟨_, hget, hholds, fun later other hother hlt => ?_⟩
    have hlater := (Array.getElem?_eq_some_iff.1 hother).1
    have hback : entries.reverse[entries.size - 1 - later]? = some other := by
      rw [Array.getElem?_reverse (by omega), ← hother]
      congr 1
      omega
    exact hearlier hback (by omega)
  · rintro ⟨position, hget, hholds, hlater⟩
    have hposition := (Array.getElem?_eq_some_iff.1 hget).1
    refine ⟨entries.size - 1 - position, ?_, hholds, fun earlier other hother hlt => ?_⟩
    · rw [Array.getElem?_reverse (by omega), ← hget]
      congr 1
      omega
    · rw [Array.getElem?_reverse (by omega)] at hother
      exact hlater hother (by omega)

end Scan

namespace Ticks

variable {ticks : Ticks} {index : TickIndex} {tick : Tick}

/-! ### Searches and scans -/

theorem lastAtOrBelow?_eq_findRev? (hsorted : ticks.Sorted) (index : TickIndex) :
    ticks.lastAtOrBelow? index = ticks.findRev? (·.index ≤ index) := by
  ext tick
  rw [lastAtOrBelow?_eq_some_iff hsorted, findRev?_eq_some_iff_getElem?]
  simp

theorem firstAbove?_eq_find? (hsorted : ticks.Sorted) (index : TickIndex) :
    ticks.firstAbove? index = ticks.find? (index < ·.index) := by
  ext tick
  rw [firstAbove?_eq_some_iff hsorted, find?_eq_some_iff_getElem?]
  simp

/-- Entries before the first one at or above an index are below it, and so none of them has it. -/
theorem filter_firstAtOrAbove?_eq_find? (hsorted : ticks.Sorted) (index : TickIndex) :
    (ticks.firstAtOrAbove? index).filter (·.index = index) = ticks.find? (·.index = index) := by
  ext tick
  rw [Option.filter_eq_some_iff, firstAtOrAbove?_eq_some_iff hsorted, find?_eq_some_iff_getElem?]
  simp only [decide_eq_true_eq, decide_eq_false_iff_not]
  constructor
  · rintro ⟨⟨position, hget, -, hearlier⟩, rfl⟩
    refine ⟨position, hget, rfl, fun earlier other hother hlt => ?_⟩
    exact Int32.ne_of_lt (hearlier hother hlt)
  · rintro ⟨position, hget, rfl, hearlier⟩
    refine ⟨⟨position, hget, Int32.le_refl _, fun earlier other hother hlt => ?_⟩, rfl⟩
    exact Int32.lt_of_le_of_ne (hsorted hother hget hlt.le) (hearlier hother hlt)

def answer (ticks : Ticks) (missing : Error) (found? : Option Tick) : Except Error Tick :=
  if ticks.isEmpty then
    .error .emptyList
  else
    match found? with
    | some tick => .ok tick
    | none => .error missing

theorem find_eq_answer (ticks : Ticks) (index : TickIndex) :
    ticks.find index =
      ticks.answer .noSuchTick ((ticks.firstAtOrAbove? index).filter (·.index = index)) := rfl

theorem next_down_eq_answer (hsorted : ticks.Sorted) (index : TickIndex) :
    ticks.next .down index = ticks.answer .belowSmallest (ticks.lastAtOrBelow? index) := by
  by_cases hempty : ticks = #[]
  · rw [next_empty hempty, hempty]
    rfl
  · rw [next_down hsorted hempty]
    exact (if_neg (by rwa [Array.isEmpty_iff])).symm

theorem next_up_eq_answer (hsorted : ticks.Sorted) (index : TickIndex) :
    ticks.next .up index = ticks.answer .atOrAboveLargest (ticks.firstAbove? index) := by
  by_cases hempty : ticks = #[]
  · rw [next_empty hempty, hempty]
    rfl
  · rw [next_up hsorted hempty]
    exact (if_neg (by rwa [Array.isEmpty_iff])).symm

/-! ### Reads outside the ticks -/

/-- The entry at a position, where a read outside the ticks ends the search with a given failure. -/
def readOrFail (cause : Error) (ticks : Ticks) (position : Nat) : Except Error Tick :=
  match ticks[position]? with
  | some tick => .ok tick
  | none => .error cause

/-- The position of the last entry at or below an index, which may fail where no entry comes before the split point. -/
def lastPositionOrFail (cause : Error) (ticks : Ticks) (index : TickIndex) : Except Error Nat := do
  if ← ticks.isBelowSmallest index then
    .error .belowSmallest
  else
    match ticks.splitPoint (·.index ≤ index) with
    | 0 => .error cause
    | position + 1 => .ok position

def nextOrFail (cause : Error) (ticks : Ticks) (direction : Direction) (index : TickIndex) :
    Except Error Tick :=
  match direction with
  | .down => do
    if ← ticks.isBelowSmallest index then
      .error .belowSmallest
    else if ← ticks.isAtOrAboveLargest index then
      ticks.readOrFail cause (ticks.size - 1)
    else
      ticks.readOrFail cause (← ticks.lastPositionOrFail cause index)
  | .up => do
    if ← ticks.isAtOrAboveLargest index then
      .error .atOrAboveLargest
    else if ← ticks.isBelowSmallest index then
      ticks.readOrFail cause 0
    else
      ticks.readOrFail cause ((← ticks.lastPositionOrFail cause index) + 1)

theorem readOrFail_eq_ok {position : Nat} (cause : Error) (hget : ticks[position]? = some tick) :
    ticks.readOrFail cause position = .ok tick := by
  rw [readOrFail, hget]

section Ends

variable (hsome : 0 < ticks.size)

theorem isBelowSmallest_eq (index : TickIndex) :
    ticks.isBelowSmallest index = .ok (index < ticks[0].index) := by
  rw [isBelowSmallest, Array.getElem?_eq_getElem hsome]

theorem isAtOrAboveLargest_eq (index : TickIndex) :
    ticks.isAtOrAboveLargest index = .ok ((ticks.back hsome).index ≤ index) := by
  rw [isAtOrAboveLargest, back?_eq_back hsome]

theorem lastPositionOrFail_eq_ok (cause : Error) (hfirst : ¬index < ticks[0].index) :
    ticks.lastPositionOrFail cause index = .ok (ticks.lastPosition index) := by
  rw [lastPositionOrFail, isBelowSmallest_eq hsome, ok_bind, if_neg (by simpa using hfirst),
    ← lastPosition_add_one hsome hfirst]

end Ends

/-- Between the ends there is an entry both before the split point and at it, whether or not the ticks are sorted. -/
theorem nextOrFail_eq (cause : Error) (direction : Direction) (index : TickIndex) :
    ticks.nextOrFail cause direction index = ticks.next direction index := by
  by_cases hempty : ticks = #[]
  · rw [next_empty hempty, hempty]
    cases direction with
    | down => rfl
    | up => rfl
  · have hsome : 0 < ticks.size := Array.size_pos_iff.2 hempty
    rw [next, dif_pos hsome]
    cases direction with
    | down =>
      simp only [nextOrFail, isBelowSmallest_eq hsome, isAtOrAboveLargest_eq hsome, ok_bind,
        decide_eq_true_eq]
      by_cases hfirst : index < ticks[0].index
      · rw [if_pos hfirst, if_pos hfirst]
      · have hback : ticks[ticks.size - 1]? = some (ticks.back hsome) :=
          Array.back?_eq_getElem?.symm.trans (back?_eq_back hsome)
        rw [if_neg hfirst, if_neg hfirst, lastPositionOrFail_eq_ok hsome cause hfirst, ok_bind,
          readOrFail_eq_ok cause hback,
          readOrFail_eq_ok cause (Array.getElem?_eq_getElem (lastPosition_lt_size hsome index))]
    | up =>
      simp only [nextOrFail, isBelowSmallest_eq hsome, isAtOrAboveLargest_eq hsome, ok_bind, decide_eq_true_eq]
      by_cases hlast : (ticks.back hsome).index ≤ index
      · rw [if_pos hlast, dif_pos hlast]
      · rw [if_neg hlast, dif_neg hlast]
        by_cases hfirst : index < ticks[0].index
        · rw [if_pos hfirst, dif_pos hfirst]
          exact readOrFail_eq_ok cause (Array.getElem?_eq_getElem hsome)
        · rw [if_neg hfirst, dif_neg hfirst, lastPositionOrFail_eq_ok hsome cause hfirst, ok_bind]
          exact readOrFail_eq_ok cause
            (Array.getElem?_eq_getElem (lastPosition_add_one_lt_size hsome hlast hfirst))

/-- Searches of sorted ticks find what scans of them find, and fail where these find nothing. No search reads outside the ticks. -/
theorem searches_agree_with_scans (hsorted : ticks.Sorted) (index : TickIndex) :
    ticks.find index = ticks.answer .noSuchTick (ticks.find? (·.index = index)) ∧
    ticks.next .down index = ticks.answer .belowSmallest (ticks.findRev? (·.index ≤ index)) ∧
    ticks.next .up index = ticks.answer .atOrAboveLargest (ticks.find? (index < ·.index)) ∧
    ∀ cause direction, ticks.nextOrFail cause direction index = ticks.next direction index := by
  rw [find_eq_answer, next_down_eq_answer hsorted, next_up_eq_answer hsorted,
    filter_firstAtOrAbove?_eq_find? hsorted, lastAtOrBelow?_eq_findRev? hsorted,
    firstAbove?_eq_find? hsorted]
  exact ⟨rfl, rfl, rfl, fun cause direction => nextOrFail_eq cause direction index⟩

/-- Every index is listed twice, with an amount of liquidity that tells the two entries apart. -/
def repeatedTicks : Ticks :=
  #[⟨-20, 1, ⟨0⟩⟩, ⟨-20, 2, ⟨0⟩⟩, ⟨0, 3, ⟨0⟩⟩, ⟨0, 4, ⟨0⟩⟩, ⟨20, 5, ⟨0⟩⟩, ⟨20, 6, ⟨0⟩⟩]

/-- At the same index each of the three searches picks another entry. -/
theorem searches_of_repeated_pick_one :
    repeatedTicks.Sorted ∧ repeatedTicks.find 0 = .ok ⟨0, 3, ⟨0⟩⟩ ∧
      repeatedTicks.next .down 0 = .ok ⟨0, 4, ⟨0⟩⟩ ∧ repeatedTicks.next .up 0 = .ok ⟨20, 5, ⟨0⟩⟩ ∧
      repeatedTicks.nextOrFail .overflow .down 0 = .ok ⟨0, 4, ⟨0⟩⟩ := by
  have hsorted : repeatedTicks.Sorted := isNonDecreasing_iff_sorted.1 (by decide)
  obtain ⟨hfind, hdown, hup, hreads⟩ := searches_agree_with_scans hsorted 0
  have hlast : repeatedTicks.next .down 0 = .ok ⟨0, 4, ⟨0⟩⟩ := hdown.trans (by decide +kernel)
  exact ⟨hsorted, hfind.trans (by decide +kernel), hlast, hup.trans (by decide +kernel),
    (hreads .overflow .down).trans hlast⟩

end Ticks

end ConcentratedLiquidity
