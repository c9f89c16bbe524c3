import ConcentratedLiquidity.Signed

/-!
# Liquidity

The liquidity in range is a number of 128 bits. Adding or removing liquidity changes it by a signed number of the same width, and the result must again be an amount of liquidity.
-/

namespace ConcentratedLiquidity

abbrev Liquidity := BitVec 128

/-- A change of liquidity: positive where it is added, negative where it is removed. -/
abbrev LiquidityChange := Signed 128

namespace Liquidity

def toWord (liquidity : Liquidity) : Word := liquidity.setWidth 256

def applyChange (liquidity : Liquidity) (change : LiquidityChange) : Except Error Liquidity :=
  if change.isNegative then
    if change.magnitude ≤ liquidity then
      .ok (liquidity - change.magnitude)
    else
      .error .liquidityUnderflow
  else if liquidity.uaddOverflow change.magnitude then
    .error .liquidityOverflow
  else
    .ok (liquidity + change.magnitude)

theorem toNat_toWord (liquidity : Liquidity) : liquidity.toWord.toNat = liquidity.toNat :=
  BitVec.toNat_setWidth_of_le (by decide)

theorem applyChange_eq_ok_iff {liquidity result : Liquidity} {change : LiquidityChange} :
    liquidity.applyChange change = .ok result ↔ (result.toNat : Int) = liquidity.toNat + change.toInt := by
  have hresult := result.isLt
  have hmagnitude := change.toNat_magnitude
  have hsign := change.isNegative_iff
  unfold applyChange
  by_cases hneg : change.isNegative = true
  · rw [if_pos hneg]
    rw [hsign] at hneg
    by_cases hle : change.magnitude ≤ liquidity
    · rw [if_pos hle, Except.ok.injEq, ← BitVec.toNat_inj, BitVec.toNat_sub_of_le hle]
      rw [BitVec.le_def] at hle
      omega
    · rw [if_neg hle]
      rw [BitVec.le_def] at hle
      exact ⟨(fun h => nomatch h), fun h => by omega⟩
  · rw [if_neg hneg]
    rw [hsign] at hneg
    unfold BitVec.uaddOverflow
    split
    · rename_i hlarge
      rw [decide_eq_true_eq] at hlarge
      exact ⟨(fun h => nomatch h), fun h => by omega⟩
    · rename_i hfits
      rw [decide_eq_true_eq, Nat.not_le] at hfits
      rw [Except.ok.injEq, ← BitVec.toNat_inj, BitVec.toNat_add, Nat.mod_eq_of_lt hfits]
      omega

theorem applyChange_eq_error {liquidity : Liquidity} {change : LiquidityChange}
    {cause : Error} (h : liquidity.applyChange change = .error cause) :
    cause = .liquidityOverflow ∨ cause = .liquidityUnderflow := by
  rw [applyChange] at h
  split at h
  · split at h
    · cases h
    · cases h
      exact Or.inr rfl
  · split at h
    · cases h
      exact Or.inl rfl
    · cases h

end Liquidity

end ConcentratedLiquidity
