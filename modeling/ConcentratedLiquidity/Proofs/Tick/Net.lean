import ConcentratedLiquidity.Tick.Basic
import Mathlib.Algebra.BigOperators.Group.List.Basic
import Mathlib.Algebra.Ring.Int.Defs

/-!
# Net changes up to an index

The net changes of all ticks at or below an index add up to the liquidity that the index has gained over a place below all ticks. Moving an index past no tick keeps the sum, and moving it past one tick adds that tick's own change.
-/

namespace ConcentratedLiquidity

namespace Ticks

variable {ticks : Ticks}

def StrictlySorted (ticks : Ticks) : Prop :=
  ticks.toList.Pairwise fun first second => first.index < second.index

instance (ticks : Ticks) : Decidable ticks.StrictlySorted :=
  inferInstanceAs (Decidable (ticks.toList.Pairwise fun first second => first.index < second.index))

/-- The sum of the net changes of all ticks at or below an index. -/
def netThrough (ticks : Ticks) (index : TickIndex) : Int :=
  ((ticks.toList.filter (·.index ≤ index)).map (·.net.toInt)).sum

def netOfFirst (ticks : Ticks) (count : Nat) : Int :=
  ((ticks.toList.take count).map (·.net.toInt)).sum

theorem exists_filter_eq_take {ticks : List Tick}
    (hstrict : ticks.Pairwise fun first second => first.index < second.index) (index : TickIndex) :
    ∃ count ≤ ticks.length, ticks.filter (·.index ≤ index) = ticks.take count := by
  induction ticks with
  | nil => exact ⟨0, Nat.le_refl 0, rfl⟩
  | cons tick ticks ih =>
    obtain ⟨hfirst, hrest⟩ := List.pairwise_cons.1 hstrict
    by_cases hle : tick.index ≤ index
    · obtain ⟨count, hcount, hfilter⟩ := ih hrest
      refine ⟨count + 1, Nat.succ_le_succ hcount, ?_⟩
      rw [List.filter_cons_of_pos (by simpa using hle), hfilter, List.take_succ_cons]
    · refine ⟨0, Nat.zero_le _, ?_⟩
      rw [List.take_zero, List.filter_eq_nil_iff]
      intro other hother
      rw [decide_eq_true_eq, Int32.not_le]
      rcases List.mem_cons.1 hother with rfl | hother
      · exact Int32.not_le.1 hle
      · exact Int32.lt_trans (Int32.not_le.1 hle) (hfirst other hother)

theorem exists_netThrough_eq_netOfFirst (hstrict : ticks.StrictlySorted) (index : TickIndex) :
    ∃ count ≤ ticks.size, ticks.netThrough index = ticks.netOfFirst count := by
  obtain ⟨count, hcount, hfilter⟩ := exists_filter_eq_take hstrict index
  refine ⟨count, hcount, ?_⟩
  rw [netThrough, netOfFirst, hfilter]

theorem netThrough_eq_of_none_between {low high : TickIndex}
    (h : ∀ tick ∈ ticks, tick.index ≤ low ↔ tick.index ≤ high) :
    ticks.netThrough low = ticks.netThrough high := by
  have hfilter : ticks.toList.filter (·.index ≤ low) = ticks.toList.filter (·.index ≤ high) := by
    apply List.filter_congr
    intro tick hmem
    simp [h tick (Array.mem_toList_iff.1 hmem)]
  rw [netThrough, netThrough, hfilter]

/-- Where one tick lies between two indices and no other does, the sums differ by its change. -/
theorem netThrough_eq_add_net (hstrict : ticks.StrictlySorted) {tick : Tick} (hmem : tick ∈ ticks)
    {low high : TickIndex} (hlow : ∀ other ∈ ticks, other.index ≤ low ↔ other.index < tick.index)
    (hhigh : ∀ other ∈ ticks, other.index ≤ high ↔ other.index ≤ tick.index) :
    ticks.netThrough high = ticks.netThrough low + tick.net.toInt := by
  obtain ⟨before, after, hsplit⟩ := List.append_of_mem (Array.mem_toList_iff.2 hmem)
  rw [StrictlySorted, hsplit, List.pairwise_append, List.pairwise_cons] at hstrict
  obtain ⟨-, ⟨hafter, -⟩, hbefore⟩ := hstrict
  have hlisted : ∀ other, other ∈ before ++ tick :: after → other ∈ ticks := fun other h =>
    Array.mem_toList_iff.1 (hsplit ▸ h)
  have hlowFilter : (before ++ tick :: after).filter (·.index ≤ low) = before := by
    rw [List.filter_append, List.filter_eq_self.2, List.filter_eq_nil_iff.2, List.append_nil]
    · intro other hother
      rw [decide_eq_true_eq, hlow other (hlisted other (List.mem_append_right before hother)),
        Int32.not_lt]
      rcases List.mem_cons.1 hother with rfl | hother
      · exact Int32.le_refl _
      · exact Int32.le_of_lt (hafter other hother)
    · intro other hother
      rw [decide_eq_true_eq, hlow other (hlisted other (List.mem_append_left _ hother))]
      exact hbefore other hother tick List.mem_cons_self
  have hhighFilter : (before ++ tick :: after).filter (·.index ≤ high) = before ++ [tick] := by
    rw [List.append_cons, List.filter_append, List.filter_eq_self.2, List.filter_eq_nil_iff.2,
      List.append_nil]
    · intro other hother
      have hmem := hlisted other (List.mem_append_right before (List.mem_cons_of_mem tick hother))
      rw [decide_eq_true_eq, hhigh other hmem, Int32.not_le]
      exact hafter other hother
    · intro other hother
      have hmem : other ∈ before ++ tick :: after := by
        rw [List.append_cons]
        exact List.mem_append_left after hother
      rw [decide_eq_true_eq, hhigh other (hlisted other hmem)]
      rcases List.mem_append.1 hother with hother | hother
      · exact Int32.le_of_lt (hbefore other hother tick List.mem_cons_self)
      · rw [List.mem_singleton.1 hother]
        exact Int32.le_refl _
  rw [netThrough, netThrough, hsplit, hlowFilter, hhighFilter, List.map_append, List.sum_append]
  simp

end Ticks

end ConcentratedLiquidity
