import ConcentratedLiquidity.Proofs.Tick.Source

/-!
# Where a bounded search stops

A search bounded by a word stops at a listed tick or at the edge of the word, and tells which. Either way it passes over no listed tick. Whoever moves on from stop to stop therefore meets every tick on the way. Both sources stop at the same places.

Upwards a search looks only beyond its index, downwards also at it. One that goes on from a stop begins at its index upwards and one below it downwards (`NextTick.tickPast`), and then looks in either direction for what lies beyond the stop.
-/

namespace ConcentratedLiquidity

def Direction.endOfList : Direction → Error
  | .down => .belowSmallest
  | .up => .atOrAboveLargest

theorem Direction.kind_endOfList (direction : Direction) : direction.endOfList.kind = .tickList := by
  cases direction with
  | down => rfl
  | up => rfl

/-! ### Indices ahead -/

namespace Direction

/-- An index lies behind another one in a direction, and is not the same. -/
def Passes : Direction → TickIndex → TickIndex → Prop
  | .down, start, finish => finish < start
  | .up, start, finish => start < finish

/-- An index is one that a search from another one can answer with. Only downwards the search may stop where it starts. -/
def Seeks : Direction → TickIndex → TickIndex → Prop
  | .down, start, index => index ≤ start
  | .up, start, index => start < index

theorem Seeks.of_passes {direction : Direction} {start middle index : TickIndex}
    (hseeks : direction.Seeks start middle) (hpasses : direction.Passes middle index) :
    direction.Seeks start index := by
  cases direction with
  | down => exact Int32.le_of_lt (Int32.lt_of_lt_of_le hpasses hseeks)
  | up => exact Int32.lt_trans hseeks hpasses

end Direction

namespace NextTick

variable {next : NextTick}

/-- The tick of a price that has reached a stop in a direction. -/
def tickPast (next : NextTick) : Direction → TickIndex
  | .down => next.index - 1
  | .up => next.index

theorem tickPast_bounds (hlow : TickIndex.lowest ≤ next.index) (direction : Direction) :
    next.index.toInt - 1 ≤ (next.tickPast direction).toInt ∧
      (next.tickPast direction).toInt ≤ next.index.toInt := by
  cases direction with
  | down =>
    rw [tickPast, TickIndex.toInt_sub_one hlow]
    omega
  | up =>
    rw [tickPast]
    omega

theorem le_tickPast_down_iff (hlow : TickIndex.lowest ≤ next.index) {index : TickIndex} :
    index ≤ next.tickPast .down ↔ index < next.index := by
  rw [Int32.le_iff_toInt_le, Int32.lt_iff_toInt_lt, tickPast, TickIndex.toInt_sub_one hlow]
  omega

theorem seeks_tickPast_iff {direction : Direction} {index : TickIndex}
    (hlow : direction = .down → TickIndex.lowest ≤ next.index) :
    direction.Seeks (next.tickPast direction) index ↔ direction.Passes next.index index := by
  cases direction with
  | down => exact le_tickPast_down_iff (hlow rfl)
  | up => exact Iff.rfl

theorem passes_tickPast {direction : Direction} {start : TickIndex}
    (hlow : direction = .down → TickIndex.lowest ≤ next.index)
    (hseeks : direction.Seeks start next.index) :
    direction.Passes start (next.tickPast direction) := by
  cases direction with
  | down =>
    have hle := Int32.le_iff_toInt_le.1 hseeks
    rw [Direction.Passes, Int32.lt_iff_toInt_lt, tickPast, TickIndex.toInt_sub_one (hlow rfl)]
    omega
  | up => exact hseeks

end NextTick

/-! ### One search -/

namespace Ticks

variable {ticks : Ticks} {spacing : TickSpacing} {index : TickIndex} {next : NextTick}

theorem next_eq_error {direction : Direction} {cause : Error} (hsorted : ticks.Sorted)
    (hsome : ticks ≠ #[]) (h : ticks.next direction index = .error cause) : cause = direction.endOfList := by
  cases direction with
  | down =>
    rw [next_down hsorted hsome] at h
    split at h
    · cases h
    · exact (Except.error.inj h).symm
  | up =>
    rw [next_up hsorted hsome] at h
    split at h
    · cases h
    · exact (Except.error.inj h).symm

theorem not_seeks_of_next_eq_error {direction : Direction} {cause : Error} (hsorted : ticks.Sorted)
    (h : ticks.next direction index = .error cause) {tick : Tick} (hmem : tick ∈ ticks) :
    ¬direction.Seeks index tick.index := by
  have hsome : ticks ≠ #[] := Array.ne_empty_of_mem hmem
  cases direction with
  | down =>
    rw [next_down hsorted hsome] at h
    split at h
    · cases h
    · rename_i hnone
      exact Int32.not_le.2 ((lastAtOrBelow?_eq_none_iff hsorted).1 hnone tick hmem)
  | up =>
    rw [next_up hsorted hsome] at h
    split at h
    · cases h
    · rename_i hnone
      exact Int32.not_lt.2 ((firstAbove?_eq_none_iff hsorted).1 hnone tick hmem)

/-- What a search at or below an index promises about the place where it stops. -/
structure StopsBelow (ticks : Ticks) (index : TickIndex) (next : NextTick) : Prop where
  le : next.index ≤ index
  skips_none : ∀ tick ∈ ticks, tick.index ≤ index → tick.index ≤ next.index
  initialized_iff : next.initialized = true ↔ ∃ tick ∈ ticks, tick.index = next.index

structure StopsAbove (ticks : Ticks) (index : TickIndex) (next : NextTick) : Prop where
  lt : index < next.index
  skips_none : ∀ tick ∈ ticks, index < tick.index → next.index ≤ tick.index
  initialized_iff : next.initialized = true ↔ ∃ tick ∈ ticks, tick.index = next.index

theorem StopsBelow.le_iff (h : ticks.StopsBelow index next) {tick : Tick} (hmem : tick ∈ ticks) :
    tick.index ≤ index ↔ tick.index ≤ next.index :=
  ⟨h.skips_none tick hmem, fun hle => Int32.le_trans hle h.le⟩

theorem StopsAbove.le_iff (h : ticks.StopsAbove index next) {tick : Tick} (hmem : tick ∈ ticks) :
    tick.index ≤ index ↔ tick.index < next.index := by
  refine ⟨fun hle => Int32.lt_of_le_of_lt hle h.lt, fun hlt => ?_⟩
  by_contra hgt
  exact Int32.not_lt.2 (h.skips_none tick hmem (Int32.not_le.1 hgt)) hlt

theorem nextWithinWord_down (hsorted : ticks.Sorted)
    (h : ticks.nextWithinWord spacing .down index = .ok next) :
    ∃ tick, ticks.lastAtOrBelow? index = some tick ∧
      (next.initialized = true ↔ next.index = tick.index) ∧
      ∃ edge, edge ≤ index.toInt ∧
        edge = Grid.wordStart (Grid.stepBelow spacing index) * spacing.toInt ∧
        next.index.toInt = max edge tick.index.toInt := by
  rw [nextWithinWord, error_else_eq_ok_iff, bind_eq_ok_iff] at h
  obtain ⟨hspacing, tick, hnext, hstop⟩ := h
  have hpos : 0 < spacing.toInt := Int32.lt_iff_toInt_lt.1 (Int32.not_le.1 hspacing)
  rw [next_down_eq_ok_iff hsorted] at hnext
  obtain ⟨position, -, hle, -⟩ := (lastAtOrBelow?_eq_some_iff hsorted).1 hnext
  have hedge : Grid.wordStart (Grid.stepBelow spacing index) * spacing.toInt ≤ index.toInt := by
    rw [← Grid.le_stepBelow_iff hpos]
    exact Grid.wordStart_le _
  cases hstop
  exact ⟨tick, hnext, decide_eq_true_iff, _, hedge, rfl,
    TickIndex.toInt_ofInt_of_between (le_max_right _ _) (max_le hedge (Int32.le_iff_toInt_le.1 hle))⟩

theorem nextWithinWord_up (hsorted : ticks.Sorted)
    (h : ticks.nextWithinWord spacing .up index = .ok next) :
    ∃ tick, ticks.firstAbove? index = some tick ∧
      (next.initialized = true ↔ next.index = tick.index) ∧
      ∃ edge, index.toInt < edge ∧
        edge = Grid.wordEnd (Grid.stepBelow spacing index + 1) * spacing.toInt ∧
        next.index.toInt = min edge tick.index.toInt := by
  rw [nextWithinWord, error_else_eq_ok_iff, bind_eq_ok_iff] at h
  obtain ⟨hspacing, tick, hnext, hstop⟩ := h
  have hpos : 0 < spacing.toInt := Int32.lt_iff_toInt_lt.1 (Int32.not_le.1 hspacing)
  rw [next_up_eq_ok_iff hsorted] at hnext
  obtain ⟨position, -, hlt, -⟩ := (firstAbove?_eq_some_iff hsorted).1 hnext
  have hedge : index.toInt < Grid.wordEnd (Grid.stepBelow spacing index + 1) * spacing.toInt := by
    rw [← Grid.stepBelow_lt_iff hpos]
    exact Grid.le_wordEnd _
  cases hstop
  exact ⟨tick, hnext, decide_eq_true_iff, _, hedge, rfl,
    TickIndex.toInt_ofInt_of_between (le_min hedge.le (Int32.lt_iff_toInt_lt.1 hlt).le)
      (min_le_right _ _)⟩

theorem stopsBelow_of_nextWithinWord (hsorted : ticks.Sorted)
    (h : ticks.nextWithinWord spacing .down index = .ok next) : ticks.StopsBelow index next := by
  obtain ⟨tick, hlast, hinitialized, edge, hedge, -, hnext⟩ := nextWithinWord_down hsorted h
  obtain ⟨position, hget, hle, -⟩ := (lastAtOrBelow?_eq_some_iff hsorted).1 hlast
  have hnearest : ∀ other ∈ ticks, other.index ≤ index → other.index ≤ tick.index :=
    fun other hmem => le_of_lastAtOrBelow? hsorted hlast hmem
  simp only [Int32.le_iff_toInt_le] at hle hnearest
  refine ⟨?_, fun other hmem hbelow => ?_, ?_⟩
  · rw [Int32.le_iff_toInt_le]
    omega
  · rw [Int32.le_iff_toInt_le] at hbelow ⊢
    have hother := hnearest other hmem hbelow
    omega
  · rw [hinitialized]
    constructor
    · intro heq
      exact ⟨tick, Array.mem_of_getElem? hget, heq.symm⟩
    · rintro ⟨other, hmem, heq⟩
      rw [← Int32.toInt_inj] at heq ⊢
      have hother := hnearest other hmem
      omega

theorem stopsAbove_of_nextWithinWord (hsorted : ticks.Sorted)
    (h : ticks.nextWithinWord spacing .up index = .ok next) : ticks.StopsAbove index next := by
  obtain ⟨tick, hfirst, hinitialized, edge, hedge, -, hnext⟩ := nextWithinWord_up hsorted h
  obtain ⟨position, hget, hlt, -⟩ := (firstAbove?_eq_some_iff hsorted).1 hfirst
  have hnearest : ∀ other ∈ ticks, index < other.index → tick.index ≤ other.index :=
    fun other hmem => le_of_firstAbove? hsorted hfirst hmem
  simp only [Int32.le_iff_toInt_le, Int32.lt_iff_toInt_lt] at hlt hnearest
  refine ⟨?_, fun other hmem habove => ?_, ?_⟩
  · rw [Int32.lt_iff_toInt_lt]
    omega
  · rw [Int32.lt_iff_toInt_lt] at habove
    rw [Int32.le_iff_toInt_le]
    have hother := hnearest other hmem habove
    omega
  · rw [hinitialized]
    constructor
    · intro heq
      exact ⟨tick, Array.mem_of_getElem? hget, heq.symm⟩
    · rintro ⟨other, hmem, heq⟩
      rw [← Int32.toInt_inj] at heq ⊢
      have hother := hnearest other hmem
      omega

end Ticks

namespace TickSource

variable {source : TickSource} {spacing : TickSpacing} {direction : Direction} {index : TickIndex}
  {next : NextTick}

theorem nextWithinWord_eq_list (source : TickSource) (spacing : TickSpacing) (direction : Direction)
    (index : TickIndex) :
    source.nextWithinWord spacing direction index =
      (TickSource.list source.tickList).nextWithinWord spacing direction index := by
  cases source with
  | list ticks => rfl
  | bitmap ticks => exact ticks.nextWithinWord_eq spacing direction index

theorem ticks_nextWithinWord (h : source.nextWithinWord spacing direction index = .ok next) :
    source.tickList.ticks.nextWithinWord spacing direction index = .ok next := by
  rw [nextWithinWord_eq_list, nextWithinWord] at h
  obtain ⟨-, -, hnext⟩ := bind_eq_ok_iff.1 h
  exact hnext

theorem next_eq_error_of_nextWithinWord {cause : Error}
    (h : source.nextWithinWord source.spacing direction index = .error cause) :
    source.tickList.ticks.next direction index = .error cause := by
  have hspacing : source.tickList.requireSpacing source.spacing = .ok () :=
    TickList.requireSpacing_eq_ok_iff.2 rfl
  have hpos : ¬source.spacing ≤ 0 := Int32.not_le.2 source.tickList.spacing_pos
  rw [nextWithinWord_eq_list, nextWithinWord, hspacing, ok_bind, Ticks.nextWithinWord,
    if_neg hpos] at h
  rcases bind_eq_error_iff.1 h with hnext | ⟨tick, -, hfound⟩
  · exact hnext
  · cases hfound

/-- With the spacing of its own list a search fails only where it leaves the list. -/
theorem nextWithinWord_eq_error {cause : Error} (hsome : source.tickList.ticks ≠ #[])
    (h : source.nextWithinWord source.spacing direction index = .error cause) :
    cause = direction.endOfList :=
  Ticks.next_eq_error source.tickList.sorted hsome (next_eq_error_of_nextWithinWord h)

theorem stopsBelow (h : source.nextWithinWord spacing .down index = .ok next) :
    source.tickList.ticks.StopsBelow index next :=
  Ticks.stopsBelow_of_nextWithinWord source.tickList.sorted (ticks_nextWithinWord h)

theorem stopsAbove (h : source.nextWithinWord spacing .up index = .ok next) :
    source.tickList.ticks.StopsAbove index next :=
  Ticks.stopsAbove_of_nextWithinWord source.tickList.sorted (ticks_nextWithinWord h)

theorem initialized_iff (h : source.nextWithinWord spacing direction index = .ok next) :
    next.initialized = true ↔ ∃ tick ∈ source.tickList.ticks, tick.index = next.index := by
  cases direction with
  | down => exact (stopsBelow h).initialized_iff
  | up => exact (stopsAbove h).initialized_iff

theorem seeks_next (h : source.nextWithinWord spacing direction index = .ok next) :
    direction.Seeks index next.index := by
  cases direction with
  | down => exact (stopsBelow h).le
  | up => exact (stopsAbove h).lt

theorem eq_or_passes_of_seeks (h : source.nextWithinWord spacing direction index = .ok next)
    {tick : Tick} (hmem : tick ∈ source.tickList.ticks) (hseeks : direction.Seeks index tick.index) :
    tick.index = next.index ∨ direction.Passes next.index tick.index := by
  by_cases heq : tick.index = next.index
  · exact Or.inl heq
  · cases direction with
    | down => exact Or.inr (Int32.lt_of_le_of_ne ((stopsBelow h).skips_none tick hmem hseeks) heq)
    | up =>
      exact Or.inr (Int32.lt_of_le_of_ne ((stopsAbove h).skips_none tick hmem hseeks) (Ne.symm heq))

/-- A search that stops has a listed index ahead, even if it stops at an edge before it. -/
theorem exists_sought (h : source.nextWithinWord spacing direction index = .ok next) :
    ∃ tick ∈ source.tickList.ticks, direction.Seeks index tick.index := by
  have hsorted := source.tickList.sorted
  cases direction with
  | down =>
    obtain ⟨tick, hlast, -⟩ := Ticks.nextWithinWord_down hsorted (ticks_nextWithinWord h)
    obtain ⟨position, hget, hle, -⟩ := (Ticks.lastAtOrBelow?_eq_some_iff hsorted).1 hlast
    exact ⟨tick, Array.mem_of_getElem? hget, hle⟩
  | up =>
    obtain ⟨tick, hfirst, -⟩ := Ticks.nextWithinWord_up hsorted (ticks_nextWithinWord h)
    obtain ⟨position, hget, hlt, -⟩ := (Ticks.firstAbove?_eq_some_iff hsorted).1 hfirst
    exact ⟨tick, Array.mem_of_getElem? hget, hlt⟩

end TickSource

end ConcentratedLiquidity
