import ConcentratedLiquidity.Proofs.Signed
import ConcentratedLiquidity.Proofs.Tick.Search
import Mathlib.Algebra.BigOperators.Group.List.Basic

/-!
# What is checked of a snapshot

A snapshot is refused for the first of four conditions that it does not meet, and accepted if it meets them all. The sum of the net changes is kept in a signed word and wraps around, but it is congruent to the sum of them as integers at every step, and of fewer than 2^64 changes that sum fits. So a sum of zero is a sum of zero in the integers, too.
-/

namespace ConcentratedLiquidity

theorem Signed.extend_eq_ofInt {width wider : Nat} (number : Signed width) (hwider : width ≤ wider) :
    number.extend wider = ofInt wider number.toInt := by
  rw [← toInt_extend hwider, ofInt_toInt]

namespace Ticks

variable {ticks : Ticks} {spacing : TickSpacing}

def AlignedTo (ticks : Ticks) (spacing : TickSpacing) : Prop :=
  ∀ tick ∈ ticks, spacing.toInt ∣ tick.index.toInt

def netTotal (ticks : Ticks) : Int := (ticks.toList.map (·.net.toInt)).sum

/-! ### The sum of the net changes -/

theorem foldl_net_eq_ofInt (entries : List Tick) (start : Int) :
    entries.foldl (fun sum tick => sum + tick.net.extend 256) (Signed.ofInt 256 start) =
      Signed.ofInt 256 (start + (entries.map (·.net.toInt)).sum) := by
  induction entries generalizing start with
  | nil => simp
  | cons tick entries ih =>
    rw [List.foldl_cons, Signed.extend_eq_ofInt tick.net (by decide), ← Signed.ofInt_add, ih,
      List.map_cons, List.sum_cons, Int.add_assoc]

/-- The sum that is kept is congruent to the sum in the integers, however often it wraps around. -/
theorem netSum_eq_ofInt (ticks : Ticks) : ticks.netSum = Signed.ofInt 256 ticks.netTotal := by
  have hfold := foldl_net_eq_ofInt ticks.toList 0
  rw [Int.zero_add] at hfold
  rw [netSum, ← Array.foldl_toList]
  exact hfold

theorem netTotal_bounds (ticks : Ticks) :
    -(ticks.size * 2 ^ 127 : Int) ≤ ticks.netTotal ∧ ticks.netTotal ≤ ticks.size * 2 ^ 127 := by
  rw [netTotal, ← Array.length_toList]
  induction ticks.toList with
  | nil => simp
  | cons tick entries ih =>
    have hnet := tick.net.toInt_bounds
    rw [List.map_cons, List.sum_cons, List.length_cons]
    push_cast
    omega

theorem toInt_netSum (hsize : ticks.size < 2 ^ 64) : ticks.netSum.toInt = ticks.netTotal := by
  have hbounds := ticks.netTotal_bounds
  rw [netSum_eq_ofInt]
  exact Signed.toInt_ofInt (by decide) (by omega) (by omega)

theorem netSum_eq_zero_iff (hsize : ticks.size < 2 ^ 64) : ticks.netSum = 0 ↔ ticks.netTotal = 0 := by
  rw [← Signed.toInt_eq_zero_iff, toInt_netSum hsize]

/-! ### The checks -/

/-- The checks in their order, each on the condition that those before it are met. -/
theorem validate_cases (hsize : ticks.size < 2 ^ 64) (spacing : TickSpacing) :
    (ticks.validate spacing = .error .nonPositiveSpacing ∧ ¬0 < spacing) ∨
    (ticks.validate spacing = .error .spacingMismatch ∧ 0 < spacing ∧ ¬ticks.AlignedTo spacing) ∨
    (ticks.validate spacing = .error .nonZeroNetSum ∧
      0 < spacing ∧ ticks.AlignedTo spacing ∧ ticks.netTotal ≠ 0) ∨
    (ticks.validate spacing = .error .notSorted ∧
      0 < spacing ∧ ticks.AlignedTo spacing ∧ ticks.netTotal = 0 ∧ ¬ticks.Sorted) ∨
    (ticks.validate spacing = .ok () ∧
      0 < spacing ∧ ticks.AlignedTo spacing ∧ ticks.netTotal = 0 ∧ ticks.Sorted) := by
  rw [Ne, ← netSum_eq_zero_iff hsize, ← isNonDecreasing_iff_sorted, AlignedTo,
    ← any_emod_ne_zero_eq_false_iff, ← Int32.not_le, validate]
  generalize ticks.any (fun tick => tick.index.toInt % spacing.toInt ≠ 0) = misaligned
  by_cases hpos : spacing ≤ 0
  · simp [hpos]
  · cases misaligned with
    | true => simp [hpos]
    | false =>
      by_cases hsum : ticks.netSum = 0
      · by_cases hsorted : isNonDecreasing (ticks.toList.map (·.index)) = true
        · simp [hpos, hsum, hsorted]
        · simp [hpos, hsum, hsorted]
      · simp [hpos, hsum]

/-- A snapshot is accepted if it meets all four conditions, and is otherwise refused for the first one that it does not meet. The sum that is compared with zero is the true one. -/
theorem validate_reports_first_fault (hsize : ticks.size < 2 ^ 64) (spacing : TickSpacing) :
    (ticks.validate spacing = .ok () ↔
      0 < spacing ∧ ticks.AlignedTo spacing ∧ ticks.netTotal = 0 ∧ ticks.Sorted) ∧
    (ticks.validate spacing = .error .nonPositiveSpacing ↔ ¬0 < spacing) ∧
    (ticks.validate spacing = .error .spacingMismatch ↔ 0 < spacing ∧ ¬ticks.AlignedTo spacing) ∧
    (ticks.validate spacing = .error .nonZeroNetSum ↔
      0 < spacing ∧ ticks.AlignedTo spacing ∧ ticks.netTotal ≠ 0) ∧
    (ticks.validate spacing = .error .notSorted ↔
      0 < spacing ∧ ticks.AlignedTo spacing ∧ ticks.netTotal = 0 ∧ ¬ticks.Sorted) ∧
    ticks.netSum.toInt = ticks.netTotal := by
  have hsum := toInt_netSum hsize
  rcases validate_cases hsize spacing with ⟨hverdict, hpos⟩ | ⟨hverdict, hpos, haligned⟩ |
    ⟨hverdict, hpos, haligned, htotal⟩ | ⟨hverdict, hpos, haligned, htotal, hsorted⟩ |
    ⟨hverdict, hpos, haligned, htotal, hsorted⟩
  · simp [hverdict, hpos, hsum]
  · simp [hverdict, hpos, haligned, hsum]
  · simp [hverdict, hpos, haligned, htotal, hsum]
  · simp [hverdict, hpos, haligned, htotal, hsorted, hsum]
  · simp [hverdict, hpos, haligned, htotal, hsorted, hsum]

/-- Twice the lowest change and once the highest one, with the indices in the wrong order. -/
def unbalancedTicks : Ticks :=
  #[⟨60, 0, ⟨BitVec.intMin 128⟩⟩, ⟨-60, 0, ⟨BitVec.intMin 128⟩⟩, ⟨0, 0, ⟨BitVec.intMax 128⟩⟩]

/-- Of two faults the net changes are reported before the order. Their sum is below all changes of 128 bits. -/
theorem validate_reports_net_before_order :
    unbalancedTicks.size < 2 ^ 64 ∧ unbalancedTicks.netSum.toInt = -2 ^ 127 - 1 ∧
      ¬unbalancedTicks.Sorted ∧ unbalancedTicks.validate 60 = .error .nonZeroNetSum := by
  have hsize : unbalancedTicks.size < 2 ^ 64 := by decide
  have htotal : unbalancedTicks.netTotal = -2 ^ 127 - 1 := by decide +kernel
  have haligned : unbalancedTicks.AlignedTo 60 := any_emod_ne_zero_eq_false_iff.1 (by decide +kernel)
  obtain ⟨-, -, -, hnet, -, hsum⟩ := validate_reports_first_fault hsize 60
  refine ⟨hsize, hsum.trans htotal, ?_, hnet.2 ⟨by decide, haligned, by rw [htotal]; decide⟩⟩
  rw [← isNonDecreasing_iff_sorted]
  decide

end Ticks

end ConcentratedLiquidity
