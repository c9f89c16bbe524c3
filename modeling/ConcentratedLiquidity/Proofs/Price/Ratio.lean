import ConcentratedLiquidity.Price.Ratio
import ConcentratedLiquidity.Proofs.Word.SquareRoot

/-!
# The price of a ratio of amounts

The ratio is rounded down before its root is taken and rounded down in turn. The two come to one rounding: the square of a whole number is above the exact ratio as soon as it is above the rounded one.

Two amounts of 128 bits make a ratio of at most 320 bits with the fractional ones. Its root has half as many, so it is a price whatever the amounts are, and is the same number in a word as it is in two.
-/

namespace ConcentratedLiquidity.SqrtPrice

/-- The ratio of two amounts, with as many fractional bits as the square of a price has. -/
def scaledRatio (amount1 amount0 : BitVec 128) : DoubleWord :=
  (amount1.setWidth 512 <<< (2 * fractionBits)) / amount0.setWidth 512

section Ratio

variable (amount1 amount0 : BitVec 128)

theorem toNat_scaledRatio :
    (scaledRatio amount1 amount0).toNat = amount1.toNat * 2 ^ 192 / amount0.toNat := by
  rw [scaledRatio, BitVec.toNat_udiv, BitVec.toNat_setWidth_of_le (by decide),
    toNat_setWidth_shiftLeft (by decide)]
  rfl

theorem sqrt_scaledRatio_lt : (scaledRatio amount1 amount0).sqrt.toNat < 2 ^ 160 := by
  rw [DoubleWord.toNat_sqrt, Nat.sqrt_lt, toNat_scaledRatio]
  calc amount1.toNat * 2 ^ 192 / amount0.toNat ≤ amount1.toNat * 2 ^ 192 := Nat.div_le_self _ _
    _ < 2 ^ 128 * 2 ^ 192 := Nat.mul_lt_mul_of_pos_right amount1.isLt (Nat.two_pow_pos 192)
    _ = 2 ^ 160 * 2 ^ 160 := by norm_num

theorem toNat_setWidth_sqrt_scaledRatio :
    ((scaledRatio amount1 amount0).sqrt.setWidth 256).toNat =
      (scaledRatio amount1 amount0).sqrt.toNat := by
  rw [BitVec.toNat_setWidth]
  apply Nat.mod_eq_of_lt
  exact (sqrt_scaledRatio_lt amount1 amount0).trans (Nat.pow_lt_pow_right Nat.one_lt_two (by decide))

variable {amount1 amount0}

theorem ofRatio_zero : ofRatio amount1 0 = .error .divisionByZero := rfl

theorem ofRatio_eq (hamount0 : amount0 ≠ 0) :
    ofRatio amount1 amount0 = .ok ((scaledRatio amount1 amount0).sqrt.setWidth 256) := by
  have hbits := DoubleWord.bitLength_le_iff.2 (sqrt_scaledRatio_lt amount1 amount0)
  rw [ofRatio, if_neg hamount0]
  exact if_neg (Nat.not_lt.2 hbits)

end Ratio

/-- The price of a ratio is its exact root, rounded down once. It is never refused for its width, and no bit of the root is cut off. -/
theorem ofRatio_is_floor_of_root (amount1 amount0 : BitVec 128) :
    if amount0 = 0 then
      ofRatio amount1 amount0 = .error .divisionByZero
    else
      ∃ price, ofRatio amount1 amount0 = .ok price ∧
        price.toNat ^ 2 * amount0.toNat ≤ amount1.toNat * 2 ^ 192 ∧
        amount1.toNat * 2 ^ 192 < (price.toNat + 1) ^ 2 * amount0.toNat ∧
        price.toNat ≤ 2 ^ 160 - 1 ∧
        price.toNat = (scaledRatio amount1 amount0).sqrt.toNat := by
  split
  · rename_i hzero
    rw [hzero, ofRatio_zero]
  · rename_i hamount0
    have hpos : 0 < amount0.toNat :=
      Nat.pos_of_ne_zero fun h => hamount0 (BitVec.eq_of_toNat_eq h)
    have hroot := toNat_setWidth_sqrt_scaledRatio amount1 amount0
    have hlt := sqrt_scaledRatio_lt amount1 amount0
    refine ⟨_, ofRatio_eq hamount0, ?_, ?_, ?_, hroot⟩
    · rw [hroot, DoubleWord.toNat_sqrt, ← Nat.le_div_iff_mul_le hpos, ← toNat_scaledRatio]
      exact Nat.sqrt_le' _
    · rw [hroot, DoubleWord.toNat_sqrt, ← Nat.div_lt_iff_lt_mul hpos, ← toNat_scaledRatio]
      exact Nat.lt_succ_sqrt' _
    · rw [hroot]
      exact Nat.le_sub_one_of_lt hlt

end ConcentratedLiquidity.SqrtPrice
