import ConcentratedLiquidity.Tick.List
import Mathlib.Data.List.Chain
import Mathlib.Order.Basic

/-!
# What the searches of a snapshot find

A binary search over ticks whose indices do not decrease splits them into those before the answer and those from it on. The entry that a search returns is known by its position, so that of several entries with one index the right one is meant. The search for the next tick looks at the two ends first; in sorted ticks the split point alone would answer the same.
-/

namespace ConcentratedLiquidity

namespace Ticks

variable {ticks : Ticks}

def Sorted (ticks : Ticks) : Prop :=
  ∀ ⦃earlier later : Nat⦄ ⦃first second : Tick⦄, ticks[earlier]? = some first →
    ticks[later]? = some second → earlier ≤ later → first.index ≤ second.index

/-- A property that holds of every entry before one of which it holds. -/
def HoldsBefore (ticks : Ticks) (holds : Tick → Bool) : Prop :=
  ∀ ⦃earlier later : Nat⦄ ⦃first second : Tick⦄, ticks[earlier]? = some first →
    ticks[later]? = some second → earlier ≤ later → holds second = true → holds first = true

theorem isNonDecreasing_iff_isChain {indices : List TickIndex} :
    isNonDecreasing indices = true ↔ indices.IsChain (· ≤ ·) := by
  fun_induction isNonDecreasing indices with
  | case1 first second rest ih =>
    rw [Bool.and_eq_true, decide_eq_true_eq, ih, List.isChain_cons_cons]
  | case2 indices hshort =>
    rcases indices with - | ⟨first, - | ⟨second, rest⟩⟩
    · simp
    · simp
    · exact absurd rfl (hshort first second rest)

theorem isNonDecreasing_iff_sorted :
    isNonDecreasing (ticks.toList.map (·.index)) = true ↔ ticks.Sorted := by
  have htrans : IsTrans TickIndex (· ≤ ·) := ⟨fun _ _ _ => Int32.le_trans⟩
  rw [isNonDecreasing_iff_isChain, List.isChain_iff_pairwise, List.pairwise_map,
    List.pairwise_iff_getElem]
  constructor
  · intro hpairwise earlier later first second hfirst hsecond hle
    rw [Array.getElem?_eq_some_iff] at hfirst hsecond
    obtain ⟨hearlier, rfl⟩ := hfirst
    obtain ⟨hlater, rfl⟩ := hsecond
    rcases Nat.lt_or_eq_of_le hle with hlt | rfl
    · exact hpairwise earlier later hearlier hlater hlt
    · exact Int32.le_refl _
  · intro hsorted earlier later hearlier hlater hlt
    exact hsorted (Array.getElem?_eq_getElem hearlier) (Array.getElem?_eq_getElem hlater) hlt.le

theorem Sorted.holdsBefore_le (hsorted : ticks.Sorted) (index : TickIndex) :
    ticks.HoldsBefore (·.index ≤ index) := by
  intro earlier later first second hfirst hsecond hle hholds
  rw [decide_eq_true_eq] at hholds ⊢
  exact Int32.le_trans (hsorted hfirst hsecond hle) hholds

theorem Sorted.holdsBefore_lt (hsorted : ticks.Sorted) (index : TickIndex) :
    ticks.HoldsBefore (·.index < index) := by
  intro earlier later first second hfirst hsecond hle hholds
  rw [decide_eq_true_eq] at hholds ⊢
  exact Int32.lt_of_le_of_lt (hsorted hfirst hsecond hle) hholds

/-! ### The split point -/

theorem lt_splitBetween_iff {holds : Tick → Bool} (hbefore : ticks.HoldsBefore holds) {low high : Nat}
    (hhigh : high ≤ ticks.size) (hle : low ≤ high)
    (hlow : ∀ ⦃position tick⦄, ticks[position]? = some tick → position < low → holds tick = true)
    (hfails : ∀ ⦃position tick⦄, ticks[position]? = some tick → high ≤ position → holds tick = false)
    {position : Nat} {tick : Tick} (hget : ticks[position]? = some tick) :
    position < splitBetween ticks holds low high hhigh ↔ holds tick = true := by
  fun_induction splitBetween ticks holds low high hhigh with
  | case1 low high hhigh hlt hmiddle hholds ih =>
    refine ih (by omega) (fun other entry hother hlt' => ?_) hfails
    exact hbefore hother (Array.getElem?_eq_getElem hmiddle) (by omega) hholds
  | case2 low high hhigh hlt hmiddle hholds ih =>
    refine ih (by omega) hlow (fun other entry hother hle' => ?_)
    by_contra hentry
    rw [Bool.not_eq_false] at hentry
    exact hholds (hbefore (Array.getElem?_eq_getElem hmiddle) hother hle' hentry)
  | case3 low high hhigh hge =>
    constructor
    · intro hlt
      exact hlow hget hlt
    · intro hholds
      by_contra hnot
      rw [hfails hget (by omega)] at hholds
      cases hholds

theorem lt_splitPoint_iff {holds : Tick → Bool} (hbefore : ticks.HoldsBefore holds) {position : Nat}
    {tick : Tick} (hget : ticks[position]? = some tick) :
    position < ticks.splitPoint holds ↔ holds tick = true := by
  refine lt_splitBetween_iff hbefore (Nat.le_refl _) (Nat.zero_le _) ?_ ?_ hget
  · intro other entry _ hlt
    exact absurd hlt (Nat.not_lt_zero _)
  · intro other entry hother hle
    rw [Array.getElem?_eq_none hle] at hother
    cases hother

theorem getElem?_splitPoint_eq_some_iff {holds : Tick → Bool} (hbefore : ticks.HoldsBefore holds)
    (tick : Tick) :
    ticks[ticks.splitPoint holds]? = some tick ↔
      ∃ position : Nat, ticks[position]? = some tick ∧ holds tick = false ∧
        ∀ ⦃earlier : Nat⦄ ⦃other⦄, ticks[earlier]? = some other → earlier < position → holds other = true := by
  constructor
  · intro hget
    refine ⟨ticks.splitPoint holds, hget, ?_, fun earlier other hother hlt => ?_⟩
    · rw [← Bool.not_eq_true, ← lt_splitPoint_iff hbefore hget]
      exact Nat.lt_irrefl _
    · exact (lt_splitPoint_iff hbefore hother).1 hlt
  · rintro ⟨position, hget, hfails, hearlier⟩
    have hle : ticks.splitPoint holds ≤ position := by
      rw [← Nat.not_lt, lt_splitPoint_iff hbefore hget, hfails]
      exact Bool.false_ne_true
    have hge : position ≤ ticks.splitPoint holds := by
      by_contra hlt
      have hsize : ticks.splitPoint holds < ticks.size :=
        lt_of_lt_of_le (Nat.not_le.1 hlt) (Array.getElem?_eq_some_iff.1 hget).1.le
      have hholds := hearlier (Array.getElem?_eq_getElem hsize) (Nat.not_le.1 hlt)
      exact Nat.lt_irrefl _ ((lt_splitPoint_iff hbefore (Array.getElem?_eq_getElem hsize)).2 hholds)
    rw [le_antisymm hle hge]
    exact hget

theorem getElem?_before_splitPoint_eq_some_iff {holds : Tick → Bool}
    (hbefore : ticks.HoldsBefore holds) (tick : Tick) :
    (match ticks.splitPoint holds with
      | 0 => none
      | position + 1 => ticks[position]?) = some tick ↔
      ∃ position : Nat, ticks[position]? = some tick ∧ holds tick = true ∧
        ∀ ⦃later : Nat⦄ ⦃other⦄, ticks[later]? = some other → position < later → holds other = false := by
  constructor
  · intro hget
    split at hget
    · cases hget
    · rename_i position hsplit
      refine ⟨position, hget, ?_, fun later other hother hlt => ?_⟩
      · rw [← lt_splitPoint_iff hbefore hget, hsplit]
        exact Nat.lt_succ_self _
      · rw [← Bool.not_eq_true, ← lt_splitPoint_iff hbefore hother, hsplit]
        omega
  · rintro ⟨position, hget, hholds, hlater⟩
    have hlt : position < ticks.splitPoint holds := (lt_splitPoint_iff hbefore hget).2 hholds
    have hsplit : ticks.splitPoint holds = position + 1 := by
      apply le_antisymm _ hlt
      by_contra hnot
      have hle := ticks.splitPoint_le_size holds
      have hnext : position + 1 < ticks.size := by omega
      have hfails := hlater (Array.getElem?_eq_getElem hnext) (Nat.lt_succ_self _)
      rw [← Bool.not_eq_true, ← lt_splitPoint_iff hbefore (Array.getElem?_eq_getElem hnext)] at hfails
      omega
    rw [hsplit]
    exact hget

theorem getElem?_splitPoint_eq_none_iff {holds : Tick → Bool} (hbefore : ticks.HoldsBefore holds) :
    ticks[ticks.splitPoint holds]? = none ↔ ∀ tick ∈ ticks, holds tick = true := by
  constructor
  · intro hnone tick hmem
    obtain ⟨position, hget⟩ := Array.mem_iff_getElem?.1 hmem
    rw [← lt_splitPoint_iff hbefore hget]
    exact lt_of_lt_of_le (Array.getElem?_eq_some_iff.1 hget).1 (Array.getElem?_eq_none_iff.1 hnone)
  · intro hall
    rw [Array.getElem?_eq_none_iff]
    by_contra hlt
    have hget := Array.getElem?_eq_getElem (Nat.not_le.1 hlt)
    have hholds := hall _ (Array.getElem_mem (Nat.not_le.1 hlt))
    exact Nat.lt_irrefl _ ((lt_splitPoint_iff hbefore hget).2 hholds)

theorem getElem?_before_splitPoint_eq_none_iff {holds : Tick → Bool}
    (hbefore : ticks.HoldsBefore holds) :
    (match ticks.splitPoint holds with
      | 0 => none
      | position + 1 => ticks[position]?) = none ↔ ∀ tick ∈ ticks, holds tick = false := by
  have hle := ticks.splitPoint_le_size holds
  constructor
  · intro hnone tick hmem
    obtain ⟨position, hget⟩ := Array.mem_iff_getElem?.1 hmem
    rw [← Bool.not_eq_true, ← lt_splitPoint_iff hbefore hget]
    split at hnone
    · rename_i hsplit
      rw [hsplit]
      exact Nat.not_lt_zero _
    · rw [Array.getElem?_eq_none_iff] at hnone
      omega
  · intro hall
    split
    · rfl
    · rename_i position hsplit
      have hlt : position < ticks.size := by omega
      have hget := Array.getElem?_eq_getElem hlt
      have hfails := hall _ (Array.getElem_mem hlt)
      rw [← Bool.not_eq_true, ← lt_splitPoint_iff hbefore hget] at hfails
      omega

/-! ### The searches by index -/

/-- The first tick above an index, by the split point alone. -/
def firstAbove? (ticks : Ticks) (index : TickIndex) : Option Tick :=
  ticks[ticks.splitPoint (·.index ≤ index)]?

theorem lastAtOrBelow?_eq_some_iff (hsorted : ticks.Sorted) {index : TickIndex} {tick : Tick} :
    ticks.lastAtOrBelow? index = some tick ↔
      ∃ position : Nat, ticks[position]? = some tick ∧ tick.index ≤ index ∧
        ∀ ⦃later : Nat⦄ ⦃other⦄, ticks[later]? = some other → position < later → index < other.index := by
  have hiff := getElem?_before_splitPoint_eq_some_iff (hsorted.holdsBefore_le index) tick
  simp only [decide_eq_true_eq, decide_eq_false_iff_not, Int32.not_le] at hiff
  exact hiff

theorem firstAbove?_eq_some_iff (hsorted : ticks.Sorted) {index : TickIndex} {tick : Tick} :
    ticks.firstAbove? index = some tick ↔
      ∃ position : Nat, ticks[position]? = some tick ∧ index < tick.index ∧
        ∀ ⦃earlier : Nat⦄ ⦃other⦄, ticks[earlier]? = some other → earlier < position →
          other.index ≤ index := by
  have hiff := getElem?_splitPoint_eq_some_iff (hsorted.holdsBefore_le index) tick
  simp only [decide_eq_true_eq, decide_eq_false_iff_not, Int32.not_le] at hiff
  exact hiff

theorem firstAtOrAbove?_eq_some_iff (hsorted : ticks.Sorted) {index : TickIndex} {tick : Tick} :
    ticks.firstAtOrAbove? index = some tick ↔
      ∃ position : Nat, ticks[position]? = some tick ∧ index ≤ tick.index ∧
        ∀ ⦃earlier : Nat⦄ ⦃other⦄, ticks[earlier]? = some other → earlier < position →
          other.index < index := by
  have hiff := getElem?_splitPoint_eq_some_iff (hsorted.holdsBefore_lt index) tick
  simp only [decide_eq_true_eq, decide_eq_false_iff_not, Int32.not_lt] at hiff
  exact hiff

theorem lastAtOrBelow?_eq_none_iff (hsorted : ticks.Sorted) {index : TickIndex} :
    ticks.lastAtOrBelow? index = none ↔ ∀ tick ∈ ticks, index < tick.index := by
  have hiff := getElem?_before_splitPoint_eq_none_iff (hsorted.holdsBefore_le index)
  simp only [decide_eq_false_iff_not, Int32.not_le] at hiff
  exact hiff

theorem firstAbove?_eq_none_iff (hsorted : ticks.Sorted) {index : TickIndex} :
    ticks.firstAbove? index = none ↔ ∀ tick ∈ ticks, tick.index ≤ index := by
  have hiff := getElem?_splitPoint_eq_none_iff (hsorted.holdsBefore_le index)
  simp only [decide_eq_true_eq] at hiff
  exact hiff

theorem lastAtOrBelow?_index (hsorted : ticks.Sorted) {index : TickIndex} {tick : Tick}
    (h : ticks.lastAtOrBelow? index = some tick) : ticks.lastAtOrBelow? tick.index = some tick := by
  rw [lastAtOrBelow?_eq_some_iff hsorted] at h ⊢
  obtain ⟨position, hget, hle, hlater⟩ := h
  refine ⟨position, hget, Int32.le_refl _, fun later other hother hlt => ?_⟩
  exact Int32.lt_of_le_of_lt hle (hlater hother hlt)

theorem firstAtOrAbove?_index (hsorted : ticks.Sorted) {index : TickIndex} {tick : Tick}
    (h : ticks.firstAbove? index = some tick) : ticks.firstAtOrAbove? tick.index = some tick := by
  rw [firstAbove?_eq_some_iff hsorted] at h
  obtain ⟨position, hget, hlt, hearlier⟩ := h
  rw [firstAtOrAbove?_eq_some_iff hsorted]
  refine ⟨position, hget, Int32.le_refl _, fun earlier other hother hbefore => ?_⟩
  exact Int32.lt_of_le_of_lt (hearlier hother hbefore) hlt

theorem le_of_lastAtOrBelow? (hsorted : ticks.Sorted) {index : TickIndex} {tick other : Tick}
    (h : ticks.lastAtOrBelow? index = some tick) (hmem : other ∈ ticks) (hle : other.index ≤ index) :
    other.index ≤ tick.index := by
  obtain ⟨position, hget, -, hlater⟩ := (lastAtOrBelow?_eq_some_iff hsorted).1 h
  obtain ⟨place, hplace⟩ := Array.mem_iff_getElem?.1 hmem
  refine hsorted hplace hget ?_
  by_contra hlt
  exact Int32.not_le.2 (hlater hplace (Nat.not_le.1 hlt)) hle

theorem le_of_firstAbove? (hsorted : ticks.Sorted) {index : TickIndex} {tick other : Tick}
    (h : ticks.firstAbove? index = some tick) (hmem : other ∈ ticks) (hlt : index < other.index) :
    tick.index ≤ other.index := by
  obtain ⟨position, hget, -, hearlier⟩ := (firstAbove?_eq_some_iff hsorted).1 h
  obtain ⟨place, hplace⟩ := Array.mem_iff_getElem?.1 hmem
  refine hsorted hget hplace ?_
  by_contra hbefore
  exact Int32.not_le.2 hlt (hearlier hplace (Nat.not_le.1 hbefore))

/-! ### The ends -/

theorem back?_eq_back (hsome : 0 < ticks.size) : ticks.back? = some (ticks.back hsome) := by
  rw [Array.back?_eq_getElem?, Array.back_eq_getElem]
  exact Array.getElem?_eq_getElem (Nat.sub_lt hsome Nat.one_pos)

theorem exists_ends (hne : ticks ≠ #[]) :
    ∃ first last, ticks[0]? = some first ∧ ticks.back? = some last := by
  have hsome : 0 < ticks.size := Array.size_pos_iff.2 hne
  exact ⟨ticks[0], _, Array.getElem?_eq_getElem hsome, back?_eq_back hsome⟩

theorem Sorted.first_le (hsorted : ticks.Sorted) {first tick : Tick} (hfirst : ticks[0]? = some first)
    (hmem : tick ∈ ticks) : first.index ≤ tick.index := by
  obtain ⟨position, hget⟩ := Array.mem_iff_getElem?.1 hmem
  exact hsorted hfirst hget (Nat.zero_le _)

theorem Sorted.le_last (hsorted : ticks.Sorted) {last tick : Tick} (hlast : ticks.back? = some last)
    (hmem : tick ∈ ticks) : tick.index ≤ last.index := by
  obtain ⟨position, hget⟩ := Array.mem_iff_getElem?.1 hmem
  rw [Array.back?_eq_getElem?] at hlast
  refine hsorted hget hlast ?_
  have hlt := (Array.getElem?_eq_some_iff.1 hget).1
  omega

section Ends

variable {first last : Tick} {index : TickIndex} (hsorted : ticks.Sorted)

include hsorted

theorem lastAtOrBelow?_of_lt_first (hfirst : ticks[0]? = some first) (hlt : index < first.index) :
    ticks.lastAtOrBelow? index = none := by
  rw [lastAtOrBelow?_eq_none_iff hsorted]
  intro tick hmem
  exact Int32.lt_of_lt_of_le hlt (hsorted.first_le hfirst hmem)

theorem lastAtOrBelow?_of_last_le (hlast : ticks.back? = some last) (hle : last.index ≤ index) :
    ticks.lastAtOrBelow? index = some last := by
  rw [lastAtOrBelow?_eq_some_iff hsorted]
  rw [Array.back?_eq_getElem?] at hlast
  refine ⟨ticks.size - 1, hlast, hle, fun later other hother hlater => ?_⟩
  have hlt := (Array.getElem?_eq_some_iff.1 hother).1
  omega

theorem firstAbove?_of_last_le (hlast : ticks.back? = some last) (hle : last.index ≤ index) :
    ticks.firstAbove? index = none := by
  rw [firstAbove?_eq_none_iff hsorted]
  intro tick hmem
  exact Int32.le_trans (hsorted.le_last hlast hmem) hle

theorem firstAbove?_of_lt_first (hfirst : ticks[0]? = some first) (hlt : index < first.index) :
    ticks.firstAbove? index = some first := by
  rw [firstAbove?_eq_some_iff hsorted]
  exact ⟨0, hfirst, hlt, fun earlier other _ hearlier => absurd hearlier (Nat.not_lt_zero _)⟩

end Ends

/-! ### The next tick -/

theorem next_empty {direction : Direction} {index : TickIndex} (hempty : ticks = #[]) :
    ticks.next direction index = .error .emptyList := by
  rw [hempty]
  rfl

section Between

variable {index : TickIndex} (hsome : 0 < ticks.size) (hfirst : ¬index < ticks[0].index)

include hfirst

theorem lastAtOrBelow?_eq_getElem? :
    ticks.lastAtOrBelow? index = ticks[ticks.lastPosition index]? := by
  rw [lastAtOrBelow?, ← lastPosition_add_one hsome hfirst]

theorem firstAbove?_eq_getElem? : ticks.firstAbove? index = ticks[ticks.lastPosition index + 1]? := by
  rw [firstAbove?, lastPosition_add_one hsome hfirst]

end Between

theorem next_down (hsorted : ticks.Sorted) (hne : ticks ≠ #[]) (index : TickIndex) :
    ticks.next .down index =
      match ticks.lastAtOrBelow? index with
      | some tick => .ok tick
      | none => .error .belowSmallest := by
  have hsome : 0 < ticks.size := Array.size_pos_iff.2 hne
  rw [next, dif_pos hsome]
  dsimp only
  by_cases hfirst : index < ticks[0].index
  · rw [if_pos hfirst,
      lastAtOrBelow?_of_lt_first hsorted (Array.getElem?_eq_getElem hsome) hfirst]
  · rw [if_neg hfirst]
    by_cases hlast : (ticks.back hsome).index ≤ index
    · rw [if_pos hlast, lastAtOrBelow?_of_last_le hsorted (back?_eq_back hsome) hlast]
    · rw [if_neg hlast, lastAtOrBelow?_eq_getElem? hsome hfirst,
        Array.getElem?_eq_getElem (lastPosition_lt_size hsome index)]

theorem next_up (hsorted : ticks.Sorted) (hne : ticks ≠ #[]) (index : TickIndex) :
    ticks.next .up index =
      match ticks.firstAbove? index with
      | some tick => .ok tick
      | none => .error .atOrAboveLargest := by
  have hsome : 0 < ticks.size := Array.size_pos_iff.2 hne
  rw [next, dif_pos hsome]
  dsimp only
  by_cases hlast : (ticks.back hsome).index ≤ index
  · rw [dif_pos hlast, firstAbove?_of_last_le hsorted (back?_eq_back hsome) hlast]
  · rw [dif_neg hlast]
    by_cases hfirst : index < ticks[0].index
    · rw [dif_pos hfirst,
        firstAbove?_of_lt_first hsorted (Array.getElem?_eq_getElem hsome) hfirst]
    · rw [dif_neg hfirst, firstAbove?_eq_getElem? hsome hfirst,
        Array.getElem?_eq_getElem (lastPosition_add_one_lt_size hsome hlast hfirst)]

section Sorted

variable {index : TickIndex} (hsorted : ticks.Sorted)

include hsorted

theorem next_down_eq_ok_iff {tick : Tick} :
    ticks.next .down index = .ok tick ↔ ticks.lastAtOrBelow? index = some tick := by
  by_cases hempty : ticks = #[]
  · rw [next_empty hempty, hempty, lastAtOrBelow?, Nat.le_zero.1 (splitPoint_le_size #[] _)]
    simp
  · rw [next_down hsorted hempty]
    cases ticks.lastAtOrBelow? index with
    | none => simp
    | some other => simp

theorem next_up_eq_ok_iff {tick : Tick} :
    ticks.next .up index = .ok tick ↔ ticks.firstAbove? index = some tick := by
  by_cases hempty : ticks = #[]
  · rw [next_empty hempty, hempty, firstAbove?]
    simp
  · rw [next_up hsorted hempty]
    cases ticks.firstAbove? index with
    | none => simp
    | some other => simp

variable {first last : Tick}

theorem next_down_of_lt_first (hfirst : ticks[0]? = some first) (hlt : index < first.index) :
    ticks.next .down index = .error .belowSmallest := by
  rw [next_down hsorted (Array.ne_empty_of_mem (Array.mem_of_getElem? hfirst)),
    lastAtOrBelow?_of_lt_first hsorted hfirst hlt]

theorem exists_next_down_of_first_le (hfirst : ticks[0]? = some first) (hle : first.index ≤ index) :
    ∃ tick, ticks.next .down index = .ok tick := by
  rcases hlast : ticks.lastAtOrBelow? index with - | tick
  · have hall := (lastAtOrBelow?_eq_none_iff hsorted).1 hlast
    exact absurd (hall first (Array.mem_of_getElem? hfirst)) (Int32.not_lt.2 hle)
  · exact ⟨tick, (next_down_eq_ok_iff hsorted).2 hlast⟩

theorem next_up_of_last_le (hlast : ticks.back? = some last) (hle : last.index ≤ index) :
    ticks.next .up index = .error .atOrAboveLargest := by
  rw [next_up hsorted (Array.ne_empty_of_mem (Array.mem_of_back? hlast)),
    firstAbove?_of_last_le hsorted hlast hle]

theorem exists_next_up_of_lt_last (hlast : ticks.back? = some last) (hlt : index < last.index) :
    ∃ tick, ticks.next .up index = .ok tick := by
  rcases hfirst : ticks.firstAbove? index with - | tick
  · have hall := (firstAbove?_eq_none_iff hsorted).1 hfirst
    exact absurd (hall last (Array.mem_of_back? hlast)) (Int32.not_le.2 hlt)
  · exact ⟨tick, (next_up_eq_ok_iff hsorted).2 hfirst⟩

end Sorted

/-! ### The tick with an index -/

theorem find_eq_ok_iff (hsorted : ticks.Sorted) {index : TickIndex} {tick : Tick} :
    ticks.find index = .ok tick ↔
      ∃ position : Nat, ticks[position]? = some tick ∧ tick.index = index ∧
        ∀ ⦃earlier : Nat⦄ ⦃other⦄, ticks[earlier]? = some other → earlier < position →
          other.index < index := by
  have hfind : ticks.find index = .ok tick ↔
      ticks.firstAtOrAbove? index = some tick ∧ tick.index = index := by
    by_cases hempty : ticks = #[]
    · rw [hempty, find, firstAtOrAbove?]
      simp
    · rw [find, if_neg (by rwa [Array.isEmpty_iff])]
      rcases hfirst : ticks.firstAtOrAbove? index with - | first
      · simp
      · by_cases heq : first.index = index
        · simp only [Option.filter_some, heq, decide_true, if_true, Except.ok.injEq,
            Option.some.injEq]
          exact ⟨fun h => ⟨h, h ▸ heq⟩, And.left⟩
        · simp only [Option.filter_some, heq, decide_false, Bool.false_eq_true, if_false,
            reduceCtorEq, Option.some.injEq, false_iff, not_and]
          rintro rfl
          exact heq
  rw [hfind, firstAtOrAbove?_eq_some_iff hsorted]
  constructor
  · rintro ⟨⟨position, hget, -, hearlier⟩, heq⟩
    exact ⟨position, hget, heq, hearlier⟩
  · rintro ⟨position, hget, heq, hearlier⟩
    exact ⟨⟨position, hget, heq ▸ Int32.le_refl _, hearlier⟩, heq⟩

theorem exists_find_eq_ok (hsorted : ticks.Sorted) {index : TickIndex}
    (hlisted : ∃ tick ∈ ticks, tick.index = index) :
    ∃ tick ∈ ticks, ticks.find index = .ok tick ∧ tick.index = index := by
  obtain ⟨tick, hmem, hindex⟩ := hlisted
  obtain ⟨place, hplace⟩ := Array.mem_iff_getElem?.1 hmem
  rcases hfirst : ticks.firstAtOrAbove? index with - | first
  · have hall := (getElem?_splitPoint_eq_none_iff (hsorted.holdsBefore_lt index)).1 hfirst tick hmem
    rw [decide_eq_true_eq, hindex] at hall
    exact absurd hall Int32.lt_irrefl
  · obtain ⟨position, hget, hle, hearlier⟩ := (firstAtOrAbove?_eq_some_iff hsorted).1 hfirst
    have hbefore : position ≤ place := by
      by_contra hlt
      have hbelow := hearlier hplace (Nat.not_le.1 hlt)
      rw [hindex] at hbelow
      exact Int32.lt_irrefl hbelow
    have heq : first.index = index :=
      Int32.le_antisymm (hindex ▸ hsorted hget hplace hbefore) hle
    exact ⟨first, Array.mem_of_getElem? hget,
      (find_eq_ok_iff hsorted).2 ⟨position, hget, heq, hearlier⟩, heq⟩

end Ticks

theorem TickList.sorted (list : TickList) : list.ticks.Sorted :=
  Ticks.isNonDecreasing_iff_sorted.1 (Ticks.validate_eq_ok_iff.1 list.valid).2.2.2

end ConcentratedLiquidity
