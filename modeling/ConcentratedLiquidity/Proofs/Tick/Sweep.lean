import ConcentratedLiquidity.Proofs.Tick.Stop

/-!
# Sweeps

A sweep repeats the search bounded by a word: each search begins at the tick past the stop of the one before, until a search fails. It stops at edges of words on its way, but of the stops that it reports as initialized there is one for every listed index ahead, in the order in which they lie. One search either stops at the nearest of these indices and leaves the others ahead, or stops short of it and leaves them all.
-/

namespace ConcentratedLiquidity

namespace Direction

/-- The number of places a tick can still move to in a direction, down to the one below all prices. -/
def ticksAhead : Direction → TickIndex → Nat
  | .down, tick => (tick.toInt - (TickIndex.lowest.toInt - 1)).toNat
  | .up, tick => (TickIndex.highest.toInt - tick.toInt).toNat

theorem ticksAhead_lt {direction : Direction} {start finish index : TickIndex}
    (hseeks : direction.Seeks start index) (hrange : index.InRange)
    (hpasses : direction.Passes start finish) :
    direction.ticksAhead finish < direction.ticksAhead start := by
  rw [TickIndex.InRange, Int32.le_iff_toInt_le, Int32.le_iff_toInt_le] at hrange
  cases direction with
  | down =>
    rw [Seeks, Int32.le_iff_toInt_le] at hseeks
    rw [Passes, Int32.lt_iff_toInt_lt] at hpasses
    rw [ticksAhead, ticksAhead]
    omega
  | up =>
    rw [Seeks, Int32.lt_iff_toInt_lt] at hseeks
    rw [Passes, Int32.lt_iff_toInt_lt] at hpasses
    rw [ticksAhead, ticksAhead]
    omega

end Direction

def Ticks.Lists (ticks : Ticks) (index : TickIndex) : Prop := ∃ tick ∈ ticks, tick.index = index

def NextTick.visited (stops : List NextTick) : List TickIndex :=
  (stops.filter (·.initialized)).map (·.index)

namespace NextTick

variable {next : NextTick} {stops : List NextTick}

theorem visited_cons_of_initialized (h : next.initialized = true) :
    visited (next :: stops) = next.index :: visited stops := by
  rw [visited, List.filter_cons_of_pos h, List.map_cons, visited]

theorem visited_cons_of_not_initialized (h : ¬next.initialized = true) :
    visited (next :: stops) = visited stops := by
  rw [visited, List.filter_cons_of_neg h, visited]

theorem mem_visited_cons {index : TickIndex} :
    index ∈ visited (next :: stops) ↔
      (next.initialized = true ∧ index = next.index) ∨ index ∈ visited stops := by
  by_cases h : next.initialized = true
  · rw [visited_cons_of_initialized h, List.mem_cons, and_iff_right h]
  · rw [visited_cons_of_not_initialized h, or_iff_right fun hstop => h hstop.1]

end NextTick

namespace TickSource

variable {source : TickSource} {direction : Direction} {start index : TickIndex} {next : NextTick}
  {stops : List NextTick} {cause : Error}

/-- A sweep in a direction, with its stops and the failure that ends it. -/
inductive Sweeps (source : TickSource) (direction : Direction) :
    TickIndex → List NextTick → Error → Prop
  | ends {start : TickIndex} {cause : Error}
      (hsearch : source.nextWithinWord source.spacing direction start = .error cause) :
      Sweeps source direction start [] cause
  | goesOn {start : TickIndex} {next : NextTick} {stops : List NextTick} {cause : Error}
      (hsearch : source.nextWithinWord source.spacing direction start = .ok next)
      (hrest : Sweeps source direction (next.tickPast direction) stops cause) :
      Sweeps source direction start (next :: stops) cause

/-! ### One search of a sweep -/

section Search

variable (hrange : ∀ tick ∈ source.tickList.ticks, tick.index.InRange)
  (h : source.nextWithinWord source.spacing direction start = .ok next)

include hrange h

/-- Downwards no search stops below the listed ticks, and so the index past its stop does not wrap. Upwards a stop may still lie below all prices, at the edge of a word. -/
theorem lowest_le_next (hdown : direction = .down) : TickIndex.lowest ≤ next.index := by
  subst hdown
  obtain ⟨tick, hmem, hsought⟩ := exists_sought h
  exact Int32.le_trans (hrange tick hmem).1 ((stopsBelow h).skips_none tick hmem hsought)

theorem ticksAhead_tickPast_lt :
    direction.ticksAhead (next.tickPast direction) < direction.ticksAhead start := by
  obtain ⟨tick, hmem, hsought⟩ := exists_sought h
  exact Direction.ticksAhead_lt hsought (hrange tick hmem)
    (NextTick.passes_tickPast (lowest_le_next hrange h) (seeks_next h))

/-- A search takes its own stop from the listed indices ahead if it is one of them, and no other. -/
theorem seeks_lists_iff : direction.Seeks start index ∧ source.tickList.ticks.Lists index ↔
    (next.initialized = true ∧ index = next.index) ∨
      (direction.Seeks (next.tickPast direction) index ∧ source.tickList.ticks.Lists index) := by
  rw [NextTick.seeks_tickPast_iff (lowest_le_next hrange h)]
  constructor
  · rintro ⟨hseeks, tick, hmem, rfl⟩
    rcases eq_or_passes_of_seeks h hmem hseeks with heq | hpasses
    · exact Or.inl ⟨(initialized_iff h).2 ⟨tick, hmem, heq⟩, heq⟩
    · exact Or.inr ⟨hpasses, tick, hmem, rfl⟩
  · rintro (⟨hinitialized, rfl⟩ | ⟨hpasses, hlists⟩)
    · exact ⟨seeks_next h, (initialized_iff h).1 hinitialized⟩
    · exact ⟨(seeks_next h).of_passes hpasses, hlists⟩

end Search

/-! ### The whole sweep -/

/-- Each search leaves fewer places ahead, and so one of them fails. -/
theorem exists_sweeps (hrange : ∀ tick ∈ source.tickList.ticks, tick.index.InRange)
    (direction : Direction) (start : TickIndex) :
    ∃ stops cause, source.Sweeps direction start stops cause := by
  induction hahead : direction.ticksAhead start using Nat.strong_induction_on generalizing start with
  | _ ahead ih =>
    subst hahead
    cases hsearch : source.nextWithinWord source.spacing direction start with
    | error cause => exact ⟨[], cause, .ends hsearch⟩
    | ok next =>
      obtain ⟨stops, cause, hrest⟩ := ih _ (ticksAhead_tickPast_lt hrange hsearch) _ rfl
      exact ⟨next :: stops, cause, .goesOn hsearch hrest⟩

theorem Sweeps.cause_eq (h : source.Sweeps direction start stops cause) :
    cause = if source.tickList.ticks = #[] then .emptyList else direction.endOfList := by
  induction h with
  | ends hsearch =>
    have hnext := next_eq_error_of_nextWithinWord hsearch
    split
    · rename_i hempty
      rw [Ticks.next_empty hempty] at hnext
      exact (Except.error.inj hnext).symm
    · rename_i hsome
      exact Ticks.next_eq_error source.tickList.sorted hsome hnext
  | goesOn _ _ ih => exact ih

theorem Sweeps.mem_visited_iff (hrange : ∀ tick ∈ source.tickList.ticks, tick.index.InRange)
    (h : source.Sweeps direction start stops cause) :
    index ∈ NextTick.visited stops ↔
      direction.Seeks start index ∧ source.tickList.ticks.Lists index := by
  induction h with
  | ends hsearch =>
    have hnext := next_eq_error_of_nextWithinWord hsearch
    constructor
    · intro hmem
      cases hmem
    · rintro ⟨hseeks, tick, hmem, rfl⟩
      exact absurd hseeks (Ticks.not_seeks_of_next_eq_error source.tickList.sorted hnext hmem)
  | goesOn hsearch _ ih => rw [seeks_lists_iff hrange hsearch, ← ih, NextTick.mem_visited_cons]

theorem Sweeps.pairwise_visited (hrange : ∀ tick ∈ source.tickList.ticks, tick.index.InRange)
    (h : source.Sweeps direction start stops cause) :
    (NextTick.visited stops).Pairwise direction.Passes := by
  induction h with
  | ends => exact List.Pairwise.nil
  | goesOn hsearch hrest ih =>
    rename_i next stops _
    by_cases hinitialized : next.initialized = true
    · -- What is visited later is ahead of the tick past this stop, and so beyond the stop itself.
      rw [NextTick.visited_cons_of_initialized hinitialized, List.pairwise_cons]
      refine ⟨fun index hmem => ?_, ih⟩
      rw [hrest.mem_visited_iff hrange] at hmem
      exact (NextTick.seeks_tickPast_iff (lowest_le_next hrange hsearch)).1 hmem.1
    · rw [NextTick.visited_cons_of_not_initialized hinitialized]
      exact ih

/-- A sweep ends, and it visits every listed index ahead of its start once, in order. -/
theorem sweep_visits_each_listed_once (source : TickSource)
    (hrange : ∀ tick ∈ source.tickList.ticks, tick.index.InRange) (direction : Direction)
    (start : TickIndex) :
    (∃ stops cause, source.Sweeps direction start stops cause) ∧
    ∀ stops cause, source.Sweeps direction start stops cause →
      (NextTick.visited stops).Pairwise direction.Passes ∧
      (∀ index, index ∈ NextTick.visited stops ↔
        direction.Seeks start index ∧ source.tickList.ticks.Lists index) ∧
      cause = if source.tickList.ticks = #[] then .emptyList else direction.endOfList :=
  ⟨exists_sweeps hrange direction start, fun _ _ hsweeps =>
    ⟨hsweeps.pairwise_visited hrange, fun _ => hsweeps.mem_visited_iff hrange, hsweeps.cause_eq⟩⟩

/-- From below the listed indices, off the grid and over a word edge with nothing listed. One index is listed twice, and is visited once. -/
theorem sweep_visits_repeated_once :
    ∃ list bitmap stops,
      TickList.ofTicks #[⟨-60, 5, ⟨5⟩⟩, ⟨60, 0, ⟨0⟩⟩, ⟨60, 3, ⟨-3⟩⟩, ⟨18000, 2, ⟨-2⟩⟩] 60 = .ok list ∧
      TickBitmap.ofList list = .ok bitmap ∧
      (TickSource.bitmap bitmap).Sweeps .up (-100) stops .atOrAboveLargest ∧
      (NextTick.visited stops).Pairwise Direction.up.Passes ∧
      ∀ index, index ∈ NextTick.visited stops ↔ index ∈ [-60, 60, 18000] := by
  let list : TickList :=
    ⟨#[⟨-60, 5, ⟨5⟩⟩, ⟨60, 0, ⟨0⟩⟩, ⟨60, 3, ⟨-3⟩⟩, ⟨18000, 2, ⟨-2⟩⟩], 60, by decide +kernel⟩
  have hrange : ∀ tick ∈ list.ticks, tick.index.InRange := by
    simp [list, TickIndex.inRange_iff]
  let bitmap : TickBitmap := ⟨list, _, hrange, rfl⟩
  obtain ⟨⟨stops, cause, hsweeps⟩, hall⟩ :=
    sweep_visits_each_listed_once (.bitmap bitmap) hrange .up (-100)
  obtain ⟨hordered, hvisited, rfl⟩ := hall stops cause hsweeps
  refine ⟨list, bitmap, stops, TickList.ofTicks_eq_ok_iff.2 ⟨rfl, rfl⟩,
    TickBitmap.ofList_eq_ok_iff.2 rfl, hsweeps, hordered, fun index => ?_⟩
  have hlists : list.ticks.Lists index ↔ index ∈ [-60, 60, 18000] := by
    simp [list, Ticks.Lists, eq_comm]
  rw [hvisited]
  constructor
  · rintro ⟨-, hlisted⟩
    exact hlists.1 hlisted
  · intro hmem
    refine ⟨?_, hlists.2 hmem⟩
    simp only [List.mem_cons, List.not_mem_nil, or_false] at hmem
    rcases hmem with rfl | rfl | rfl
    · exact (by decide : (-100 : TickIndex) < -60)
    · exact (by decide : (-100 : TickIndex) < 60)
    · exact (by decide : (-100 : TickIndex) < 18000)

end TickSource

end ConcentratedLiquidity
