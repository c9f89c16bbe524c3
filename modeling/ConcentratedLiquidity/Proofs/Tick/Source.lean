import ConcentratedLiquidity.Proofs.Error
import ConcentratedLiquidity.Proofs.Tick.Bitmap
import ConcentratedLiquidity.Tick.Source

/-!
# The bitmap answers like the list

Both sources refuse the same questions for the same reason. Where the list finds a tick, its step is the nearest marked one, and so the bitmap finds it too, or stops at the same edge of the same word.
-/

namespace ConcentratedLiquidity

namespace TickBitmap

variable {bitmap : TickBitmap} {index : TickIndex}

/-! ### The check of the direction -/

/-- A tick lies below an index exactly if the lowest one does, and above it exactly if the highest one does. -/
theorem boundsToward_eq (bitmap : TickBitmap) (direction : Direction) (index : TickIndex) :
    (∃ cause, bitmap.boundsToward direction index = .error cause ∧
      bitmap.list.ticks.next direction index = .error cause) ∨
    ∃ first last tick, bitmap.boundsToward direction index = .ok (first, last) ∧
      bitmap.list.ticks.next direction index = .ok tick ∧
      ∀ other ∈ bitmap.list.ticks, first ≤ other.index ∧ other.index ≤ last := by
  have hsorted := bitmap.list.sorted
  by_cases hempty : bitmap.list.ticks = #[]
  · refine Or.inl ⟨.emptyList, ?_, Ticks.next_empty hempty⟩
    rw [boundsToward, hempty]
    rfl
  · obtain ⟨first, last, hfirst, hlast⟩ := Ticks.exists_ends hempty
    have hends : ∀ other ∈ bitmap.list.ticks, first.index ≤ other.index ∧ other.index ≤ last.index :=
      fun other hmem => ⟨hsorted.first_le hfirst hmem, hsorted.le_last hlast hmem⟩
    rw [boundsToward, hfirst, hlast]
    cases direction with
    | down =>
      by_cases hbelow : index < first.index
      · exact Or.inl
          ⟨.belowSmallest, if_pos hbelow, Ticks.next_down_of_lt_first hsorted hfirst hbelow⟩
      · obtain ⟨tick, hnext⟩ :=
          Ticks.exists_next_down_of_first_le hsorted hfirst (Int32.not_lt.1 hbelow)
        exact Or.inr ⟨first.index, last.index, tick, if_neg hbelow, hnext, hends⟩
    | up =>
      by_cases habove : last.index ≤ index
      · exact Or.inl
          ⟨.atOrAboveLargest, if_pos habove, Ticks.next_up_of_last_le hsorted hlast habove⟩
      · obtain ⟨tick, hnext⟩ :=
          Ticks.exists_next_up_of_lt_last hsorted hlast (Int32.not_le.1 habove)
        exact Or.inr ⟨first.index, last.index, tick, if_neg habove, hnext, hends⟩

/-! ### The search bounded by a word -/

/-- Below an index the list compares the tick with the edge of the word, and the bitmap finds no bit where the edge comes first. -/
theorem nextTick_down {tick : Tick} (h : bitmap.list.ticks.lastAtOrBelow? index = some tick) :
    let spacing := bitmap.list.spacing
    let step := Grid.stepBelow spacing index
    let found? := bitmap.words.lastInWord? step
    let reached := Int32.ofInt (max (Grid.wordStart step * spacing.toInt) tick.index.toInt)
    (⟨Grid.tickAt spacing (found?.getD (Grid.wordStart step)), found?.isSome⟩ : NextTick) =
      ⟨reached, reached = tick.index⟩ := by
  intro spacing step found? reached
  have hpos : 0 < spacing.toInt := bitmap.spacing_toInt_pos
  obtain ⟨position, hget, hle, -⟩ := (Ticks.lastAtOrBelow?_eq_some_iff bitmap.list.sorted).1 h
  have hmem := Array.mem_of_getElem? hget
  have hnearest := nearestBelow_of_lastAtOrBelow? h
  have hstep := stepBelow_mul_of_mem hmem
  by_cases hword : Grid.wordOf (Grid.stepBelow spacing tick.index) = Grid.wordOf step
  · have hfound : found? = some (Grid.stepBelow spacing tick.index) :=
      WordMap.lastInWord?_eq_some_iff.2 ⟨hnearest, hword⟩
    have hedge : Grid.wordStart step * spacing.toInt ≤ tick.index.toInt := by
      rw [← Grid.le_stepBelow_iff hpos]
      exact (Grid.wordOf_eq_iff.1 hword).1
    have hreached : reached = tick.index := by
      change Int32.ofInt (max _ _) = _
      rw [max_eq_right hedge, Int32.ofInt_toInt]
    rw [hfound, Option.getD_some, tickAt_stepBelow_of_mem hmem, hreached, decide_eq_true rfl]
    rfl
  · have hfound : found? = none := (WordMap.lastInWord?_eq_none_iff hnearest).2 hword
    have hstart := (hnearest.pastWord hword).le
    have hedge : tick.index.toInt < Grid.wordStart step * spacing.toInt := by
      rw [← Grid.stepBelow_lt_iff hpos]
      exact Int.lt_of_le_sub_one hstart
    have hindex : Grid.wordStart step * spacing.toInt ≤ index.toInt := by
      rw [← Grid.le_stepBelow_iff hpos]
      exact Grid.wordStart_le step
    have hreached : reached = Grid.tickAt spacing (Grid.wordStart step) := by
      change Int32.ofInt (max _ _) = _
      rw [max_eq_left hedge.le]
      rfl
    have hne : ¬ reached = tick.index := by
      intro heq
      rw [hreached, Grid.tickAt, ← Int32.toInt_inj, TickIndex.toInt_ofInt_of_between hedge.le hindex] at heq
      omega
    rw [hfound, Option.getD_none, hreached.symm, decide_eq_false hne]
    rfl

theorem nextTick_up {tick : Tick} (h : bitmap.list.ticks.firstAbove? index = some tick) :
    let spacing := bitmap.list.spacing
    let step := Grid.stepBelow spacing index + 1
    let found? := bitmap.words.firstInWord? step
    let reached := Int32.ofInt (min (Grid.wordEnd step * spacing.toInt) tick.index.toInt)
    (⟨Grid.tickAt spacing (found?.getD (Grid.wordEnd step)), found?.isSome⟩ : NextTick) =
      ⟨reached, reached = tick.index⟩ := by
  intro spacing step found? reached
  have hpos : 0 < spacing.toInt := bitmap.spacing_toInt_pos
  obtain ⟨position, hget, hlt, -⟩ := (Ticks.firstAbove?_eq_some_iff bitmap.list.sorted).1 h
  have hmem := Array.mem_of_getElem? hget
  have hnearest := nearestAbove_of_firstAbove? h
  have hstep := stepBelow_mul_of_mem hmem
  by_cases hword : Grid.wordOf (Grid.stepBelow spacing tick.index) = Grid.wordOf step
  · have hfound : found? = some (Grid.stepBelow spacing tick.index) :=
      WordMap.firstInWord?_eq_some_iff.2 ⟨hnearest, hword⟩
    have hedge : tick.index.toInt ≤ Grid.wordEnd step * spacing.toInt := by
      rw [← hstep]
      exact Int.mul_le_mul_of_nonneg_right (Grid.wordOf_eq_iff.1 hword).2 hpos.le
    have hreached : reached = tick.index := by
      change Int32.ofInt (min _ _) = _
      rw [min_eq_right hedge, Int32.ofInt_toInt]
    rw [hfound, Option.getD_some, tickAt_stepBelow_of_mem hmem, hreached, decide_eq_true rfl]
    rfl
  · have hfound : found? = none := (WordMap.firstInWord?_eq_none_iff hnearest).2 hword
    have hend := (hnearest.pastWord hword).ge
    have hedge : Grid.wordEnd step * spacing.toInt < tick.index.toInt := by
      rw [← hstep]
      exact Int.mul_lt_mul_of_pos_right hend hpos
    have hindex : index.toInt ≤ Grid.wordEnd step * spacing.toInt := by
      apply le_of_lt
      rw [← Grid.stepBelow_lt_iff hpos]
      exact Grid.le_wordEnd step
    have hreached : reached = Grid.tickAt spacing (Grid.wordEnd step) := by
      change Int32.ofInt (min _ _) = _
      rw [min_eq_left hedge.le]
      rfl
    have hne : ¬ reached = tick.index := by
      intro heq
      rw [hreached, Grid.tickAt, ← Int32.toInt_inj, TickIndex.toInt_ofInt_of_between hindex hedge.le] at heq
      omega
    rw [hfound, Option.getD_none, hreached.symm, decide_eq_false hne]
    rfl

theorem nextWithinWord_eq (bitmap : TickBitmap) (spacing : TickSpacing) (direction : Direction)
    (index : TickIndex) :
    bitmap.nextWithinWord spacing direction index =
      (TickSource.list bitmap.list).nextWithinWord spacing direction index := by
  rw [nextWithinWord, TickSource.nextWithinWord]
  rcases hspacing : bitmap.list.requireSpacing spacing with cause | checked
  · rfl
  · rw [ok_bind, ok_bind]
    obtain rfl := TickList.requireSpacing_eq_ok_iff.1 hspacing
    rw [Ticks.nextWithinWord, if_neg (Int32.not_le.2 bitmap.list.spacing_pos)]
    rcases boundsToward_eq bitmap direction index with
      ⟨cause, hbounds, hnext⟩ | ⟨first, last, tick, hbounds, hnext, -⟩
    · rw [hbounds, hnext]
      rfl
    · rw [hbounds, hnext, ok_bind, ok_bind]
      cases direction with
      | down =>
        exact congrArg Except.ok
          (nextTick_down ((Ticks.next_down_eq_ok_iff bitmap.list.sorted).1 hnext))
      | up =>
        exact congrArg Except.ok
          (nextTick_up ((Ticks.next_up_eq_ok_iff bitmap.list.sorted).1 hnext))

/-! ### The search across words -/

/-- The step from which the search across words starts: inside the listed range. -/
def walkStart (bitmap : TickBitmap) (direction : Direction) (index first last : TickIndex) : Int :=
  match direction with
  | .down => min (Grid.stepBelow bitmap.list.spacing index) (Grid.stepBelow bitmap.list.spacing last)
  | .up => max (Grid.stepBelow bitmap.list.spacing index + 1) (Grid.stepBelow bitmap.list.spacing first)

theorem stepBelow_le_stepBelow (bitmap : TickBitmap) {low high : TickIndex} (hle : low ≤ high) :
    Grid.stepBelow bitmap.list.spacing low ≤ Grid.stepBelow bitmap.list.spacing high :=
  Int.ediv_le_ediv bitmap.spacing_toInt_pos (Int32.le_iff_toInt_le.1 hle)

/-- Where the check of the direction passes, the walk from its start ends at the step of the tick that the list finds, and the bitmap answers with that tick. -/
theorem nextIndex_of_boundsToward_eq_ok {direction : Direction} {first last : TickIndex}
    (hbounds : bitmap.boundsToward direction index = .ok (first, last)) :
    ∃ tick ∈ bitmap.list.ticks, bitmap.list.ticks.next direction index = .ok tick ∧
      bitmap.words.Walks direction (bitmap.walkStart direction index first last)
        (Grid.stepBelow bitmap.list.spacing tick.index) ∧
      bitmap.nextIndex direction index = .ok ⟨tick.index, tick.isInitialized⟩ := by
  have hsorted := bitmap.list.sorted
  rcases boundsToward_eq bitmap direction index with
    ⟨cause, hbounds', -⟩ | ⟨first', last', tick, hbounds', hnext, hends⟩
  · rw [hbounds] at hbounds'
    cases hbounds'
  · rw [hbounds] at hbounds'
    cases hbounds'
    rw [nextIndex, hbounds, ok_bind]
    cases direction with
    | down =>
      have hlast := (Ticks.next_down_eq_ok_iff hsorted).1 hnext
      obtain ⟨position, hget, hle, -⟩ := (Ticks.lastAtOrBelow?_eq_some_iff hsorted).1 hlast
      have hmem := Array.mem_of_getElem? hget
      have hnearest := (nearestBelow_of_lastAtOrBelow? hlast).of_le
        (le_min (bitmap.stepBelow_le_stepBelow hle) (bitmap.stepBelow_le_stepBelow (hends tick hmem).2))
        (min_le_left _ _)
      refine ⟨tick, hmem, hnext, WordMap.walks_down hnearest, ?_⟩
      have hwalk := WordMap.lastAtOrBelow?_eq hnearest
        (bitmap.stepBelow_le_stepBelow (hends tick hmem).1)
      simp only [hwalk, tickAt_stepBelow_of_mem hmem, Ticks.lastAtOrBelow?_index hsorted hlast,
        Option.any_some]
    | up =>
      have hfirst := (Ticks.next_up_eq_ok_iff hsorted).1 hnext
      obtain ⟨position, hget, hlt, -⟩ := (Ticks.firstAbove?_eq_some_iff hsorted).1 hfirst
      have hmem := Array.mem_of_getElem? hget
      have hnearest := nearestAbove_of_firstAbove? hfirst
      have hnearest' := hnearest.of_le (le_max_left _ _)
        (max_le hnearest.ge (bitmap.stepBelow_le_stepBelow (hends tick hmem).1))
      refine ⟨tick, hmem, hnext, WordMap.walks_up hnearest', ?_⟩
      have hwalk := WordMap.firstAtOrAbove?_eq hnearest'
        (bitmap.stepBelow_le_stepBelow (hends tick hmem).2)
      simp only [hwalk, tickAt_stepBelow_of_mem hmem, Ticks.firstAtOrAbove?_index hsorted hfirst,
        Option.any_some]

theorem nextIndex_eq (bitmap : TickBitmap) (direction : Direction) (index : TickIndex) :
    bitmap.nextIndex direction index = (TickSource.list bitmap.list).nextIndex direction index := by
  rw [TickSource.nextIndex, Ticks.nextIndex]
  rcases boundsToward_eq bitmap direction index with
    ⟨cause, hbounds, hnext⟩ | ⟨first, last, tick, hbounds, hnext, -⟩
  · rw [nextIndex, hbounds, hnext]
    rfl
  · obtain ⟨other, -, hother, -, hresult⟩ := nextIndex_of_boundsToward_eq_ok hbounds
    rw [hresult, hother]
    rfl

end TickBitmap

/-- A bitmap gives the answers of its list to every question, failures included. Its walk from word to word always ends, at the step of the answer. -/
theorem TickSource.bitmap_answers_like_list {list : TickList} {bitmap : TickBitmap}
    (hbitmap : TickBitmap.ofList list = .ok bitmap) :
    (∀ index, (TickSource.bitmap bitmap).find index = (TickSource.list list).find index) ∧
    (∀ spacing direction index, (TickSource.bitmap bitmap).nextWithinWord spacing direction index =
      (TickSource.list list).nextWithinWord spacing direction index) ∧
    (∀ direction index, (TickSource.bitmap bitmap).nextIndex direction index =
      (TickSource.list list).nextIndex direction index) ∧
    ∀ direction index first last, bitmap.boundsToward direction index = .ok (first, last) →
      ∃ found next, bitmap.words.Walks direction (bitmap.walkStart direction index first last) found ∧
        (TickSource.bitmap bitmap).nextIndex direction index = .ok next ∧
        next.index = Grid.tickAt list.spacing found := by
  obtain rfl := TickBitmap.ofList_eq_ok_iff.1 hbitmap
  refine ⟨fun index => rfl, bitmap.nextWithinWord_eq, bitmap.nextIndex_eq, ?_⟩
  intro direction index first last hbounds
  obtain ⟨tick, hmem, -, hwalks, hresult⟩ := TickBitmap.nextIndex_of_boundsToward_eq_ok hbounds
  exact ⟨_, _, hwalks, hresult, (TickBitmap.tickAt_stepBelow_of_mem hmem).symm⟩

/-- Of two entries with one index, the first counts upwards, and it has no liquidity here. -/
theorem TickSource.bitmap_answers_like_list_on_repeated :
    ∃ list bitmap, TickList.ofTicks #[⟨-60, 5, ⟨5⟩⟩, ⟨60, 0, ⟨0⟩⟩, ⟨60, 5, ⟨-5⟩⟩] 60 = .ok list ∧
      TickBitmap.ofList list = .ok bitmap ∧
      (TickSource.bitmap bitmap).nextIndex .up 0 = .ok ⟨60, false⟩ := by
  let list : TickList :=
    ⟨#[⟨-60, 5, ⟨5⟩⟩, ⟨60, 0, ⟨0⟩⟩, ⟨60, 5, ⟨-5⟩⟩], 60, by decide +kernel⟩
  have hrange : ∀ tick ∈ list.ticks, tick.index.InRange := by
    simp [list, TickIndex.inRange_iff]
  let bitmap : TickBitmap := ⟨list, _, hrange, rfl⟩
  have hbitmap : TickBitmap.ofList list = .ok bitmap := TickBitmap.ofList_eq_ok_iff.2 rfl
  refine ⟨list, bitmap, TickList.ofTicks_eq_ok_iff.2 ⟨rfl, rfl⟩, hbitmap, ?_⟩
  rw [(TickSource.bitmap_answers_like_list hbitmap).2.2.1]
  decide +kernel

end ConcentratedLiquidity
