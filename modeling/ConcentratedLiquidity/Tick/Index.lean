/-!
# Tick indices

A tick index is the power to which 1.0001 is raised in the price at that tick. Indices have 32 bits; only those from `lowest` to `highest` have a price.
-/

namespace ConcentratedLiquidity

abbrev TickIndex := Int32

/-- The distance between neighbouring ticks of a pool. -/
abbrev TickSpacing := Int32

namespace TickIndex

/-- The lowest index with a price. -/
def lowest : TickIndex := -887272

def highest : TickIndex := 887272

/-- The indices that have a price. -/
def InRange (tick : TickIndex) : Prop := lowest ≤ tick ∧ tick ≤ highest

instance (tick : TickIndex) : Decidable tick.InRange := inferInstanceAs (Decidable (_ ∧ _))

theorem inRange_iff {tick : TickIndex} : tick.InRange ↔ tick.toInt.natAbs ≤ 887272 := by
  rw [InRange, Int32.le_iff_toInt_le, Int32.le_iff_toInt_le,
    show lowest.toInt = -887272 from by decide, show highest.toInt = 887272 from by decide]
  omega

theorem toInt_sub_one {tick : TickIndex} (hlow : lowest ≤ tick) :
    (tick - 1).toInt = tick.toInt - 1 := by
  have hlt := tick.toInt_lt
  rw [Int32.le_iff_toInt_le, show lowest.toInt = -887272 from by decide] at hlow
  rw [Int32.toInt_sub, show (1 : TickIndex).toInt = 1 from rfl]
  apply Int.bmod_eq_of_le
  · omega
  · omega

end TickIndex

end ConcentratedLiquidity
