import ConcentratedLiquidity.Swap.Step
import ConcentratedLiquidity.Proofs.Price.Next

/-!
# How far an amount moves the price

The amounts over a range and the prices after a trade are inverse to each other, up to rounding. An amount over a range is compared with a bound by an inequality between products, in which the far end of the range stands alone; the prices after a trade satisfy the same inequalities. A trade that is too small to pay for the whole range therefore ends inside it, and what it pays for is no more than what it gave.
-/

namespace ConcentratedLiquidity

/-- The prices that a move from one price to another passes, both ends included. -/
def SqrtPrice.OnPath (current target price : SqrtPrice) : Prop :=
  if target ≤ current then target ≤ price ∧ price ≤ current else current ≤ price ∧ price ≤ target

theorem SqrtPrice.onPath_target (current target : SqrtPrice) :
    SqrtPrice.OnPath current target target := by
  rw [OnPath]
  split
  · rename_i hle
    exact ⟨BitVec.le_refl target, hle⟩
  · rename_i hlt
    exact ⟨BitVec.le_of_lt (BitVec.not_le.1 hlt), BitVec.le_refl target⟩

namespace Direction

variable {liquidity : Liquidity} {current next : SqrtPrice} {amount : Word} {bound : Nat}

theorem toward_of_le {current target : SqrtPrice} (hle : target ≤ current) :
    toward current target = .down := if_pos hle

theorem toward_of_lt {current target : SqrtPrice} (hlt : current < target) :
    toward current target = .up := if_neg (BitVec.not_le.2 hlt)

/-! ### Amounts compared with a bound -/

theorem amountIn_down_le_iff (hle : next ≤ current)
    (h : Direction.down.amountIn liquidity current next = .ok amount) :
    amount.toNat ≤ bound ↔
      liquidity.scaled.toNat * current.toNat ≤
        (liquidity.scaled.toNat + bound * current.toNat) * next.toNat := by
  change liquidity.token0Between .up current next = .ok amount at h
  rw [Liquidity.token0Between_of_ge hle, Liquidity.token0Over_eq_ok_iff hle] at h
  obtain ⟨hnext, hamount⟩ := h
  have hnextPos := BitVec.toNat_pos_of_ne_zero hnext
  have hcurrentPos : 0 < current.toNat := lt_of_lt_of_le hnextPos hle
  rw [hamount, Rounding.divide, ceilDiv_le_iff_le_mul (Nat.mul_pos hcurrentPos hnextPos),
    Nat.mul_sub, Nat.sub_le_iff_le_add, add_mul, add_comm]
  rw [mul_comm bound, mul_right_comm]

theorem amountIn_up_le_iff (hle : current ≤ next)
    (h : Direction.up.amountIn liquidity current next = .ok amount) :
    amount.toNat ≤ bound ↔ liquidity.toNat * (next.toNat - current.toNat) ≤ bound * 2 ^ 96 := by
  change liquidity.token1Between .up current next = .ok amount at h
  rw [Liquidity.token1Between_of_le hle, Liquidity.token1Over_eq_ok_iff hle] at h
  rw [h, Rounding.divide, ceilDiv_le_iff_le_mul (Nat.two_pow_pos 96), mul_comm (2 ^ 96)]

theorem le_amountOut_down_iff (hle : next ≤ current)
    (h : Direction.down.amountOut liquidity current next = .ok amount) :
    bound ≤ amount.toNat ↔ bound * 2 ^ 96 ≤ liquidity.toNat * (current.toNat - next.toNat) := by
  change liquidity.token1Between .down current next = .ok amount at h
  rw [Liquidity.token1Between_of_ge hle, Liquidity.token1Over_eq_ok_iff hle] at h
  rw [h, Rounding.divide, Nat.le_div_iff_mul_le (Nat.two_pow_pos 96)]

theorem le_amountOut_up_iff (hle : current ≤ next)
    (h : Direction.up.amountOut liquidity current next = .ok amount) :
    bound ≤ amount.toNat ↔
      bound * (next.toNat * current.toNat) ≤
        liquidity.scaled.toNat * (next.toNat - current.toNat) := by
  change liquidity.token0Between .down current next = .ok amount at h
  rw [Liquidity.token0Between_of_le hle, Liquidity.token0Over_eq_ok_iff hle] at h
  obtain ⟨hcurrent, hamount⟩ := h
  have hcurrentPos := BitVec.toNat_pos_of_ne_zero hcurrent
  have hnextPos : 0 < next.toNat := lt_of_lt_of_le hcurrentPos hle
  rw [hamount, Rounding.divide, Nat.le_div_iff_mul_le (Nat.mul_pos hnextPos hcurrentPos)]

end Direction

namespace SqrtPrice

variable {liquidity : Liquidity} {current target price : SqrtPrice} {amount toTarget spent : Word}

theorem afterInput_eq_ok_iff {direction : Direction} :
    afterInput direction current liquidity amount = .ok price ↔
      current ≠ 0 ∧ liquidity ≠ 0 ∧
        (match direction with
          | .down => current.afterToken0In liquidity amount
          | .up => current.afterToken1In liquidity amount) = .ok price := by
  rw [afterInput.eq_def, error_else_eq_ok_iff]
  exact and_congr Iff.rfl error_else_eq_ok_iff

theorem afterOutput_eq_ok_iff {direction : Direction} :
    afterOutput direction current liquidity amount = .ok price ↔
      current ≠ 0 ∧ liquidity ≠ 0 ∧
        (match direction with
          | .down => current.afterToken1Out liquidity amount
          | .up => current.afterToken0Out liquidity amount) = .ok price := by
  rw [afterOutput.eq_def, error_else_eq_ok_iff]
  exact and_congr Iff.rfl error_else_eq_ok_iff

/-! ### Trades that do not reach their target -/

/-- An amount too small for a fall to the target stops above the target, and pays for the fall it makes. -/
theorem afterInput_down_inside (hle : target ≤ current)
    (htarget : Direction.down.amountIn liquidity current target = .ok toTarget)
    (hshort : amount < toTarget)
    (hprice : afterInput .down current liquidity amount = .ok price) :
    target < price ∧ price ≤ current ∧
      ∀ spent, Direction.down.amountIn liquidity current price = .ok spent → spent ≤ amount := by
  obtain ⟨_, hliquidity, hafter⟩ := afterInput_eq_ok_iff.1 hprice
  obtain ⟨hfall, hreach⟩ := afterToken0In_bounds hliquidity hafter
  refine ⟨?_, BitVec.le_def.2 hfall, fun spent hspent => ?_⟩
  · rw [← BitVec.not_le]
    intro hpast
    refine absurd ((Direction.amountIn_down_le_iff hle htarget).2 (hreach.trans ?_))
      (Nat.not_le.2 (BitVec.lt_def.1 hshort))
    exact Nat.mul_le_mul_left _ (BitVec.le_def.1 hpast)
  · exact BitVec.le_def.2 ((Direction.amountIn_down_le_iff (BitVec.le_def.2 hfall) hspent).2 hreach)

theorem afterInput_up_inside (hle : current ≤ target)
    (htarget : Direction.up.amountIn liquidity current target = .ok toTarget)
    (hshort : amount < toTarget)
    (hprice : afterInput .up current liquidity amount = .ok price) :
    current ≤ price ∧ price < target ∧
      ∀ spent, Direction.up.amountIn liquidity current price = .ok spent → spent ≤ amount := by
  obtain ⟨_, hliquidity, hafter⟩ := afterInput_eq_ok_iff.1 hprice
  have hvalue := afterToken1In_value hliquidity hafter
  have hrise : current.toNat ≤ price.toNat := by
    rw [hvalue]
    exact Nat.le_add_right _ _
  have hreach : liquidity.toNat * (price.toNat - current.toNat) ≤ amount.toNat * 2 ^ 96 := by
    rw [hvalue, Nat.add_sub_cancel_left]
    exact Nat.mul_div_le _ _
  refine ⟨BitVec.le_def.2 hrise, ?_, fun spent hspent => ?_⟩
  · rw [← BitVec.not_le]
    intro hpast
    refine absurd ((Direction.amountIn_up_le_iff hle htarget).2 (le_trans ?_ hreach))
      (Nat.not_le.2 (BitVec.lt_def.1 hshort))
    exact Nat.mul_le_mul_left _ (Nat.sub_le_sub_right (BitVec.le_def.1 hpast) _)
  · exact BitVec.le_def.2 ((Direction.amountIn_up_le_iff (BitVec.le_def.2 hrise) hspent).2 hreach)

theorem afterOutput_down_inside (hle : target ≤ current)
    (htarget : Direction.down.amountOut liquidity current target = .ok toTarget)
    (hshort : amount < toTarget)
    (hprice : afterOutput .down current liquidity amount = .ok price) :
    target ≤ price ∧ price ≤ current := by
  obtain ⟨_, hliquidity, hafter⟩ := afterOutput_eq_ok_iff.1 hprice
  have hvalue := afterToken1Out_value hliquidity hafter
  have hheld := (Direction.le_amountOut_down_iff hle htarget).1 (BitVec.lt_def.1 hshort).le
  have hfall := ceilDiv_le_of_le_mul hheld
  rw [BitVec.le_def] at hle
  rw [BitVec.le_def, BitVec.le_def]
  omega

theorem rise_le_of_held {scaled released low high : Nat} (hle : low ≤ high)
    (hheld : released * (high * low) ≤ scaled * (high - low)) :
    (scaled * low) ⌈/⌉ (scaled - released * low) ≤ high := by
  apply ceilDiv_le_of_le_mul
  have hpaid : released * low * high ≤ scaled * high - scaled * low := by
    rw [← Nat.mul_sub, mul_assoc, mul_comm low]
    exact hheld
  have hmono : scaled * low ≤ scaled * high := Nat.mul_le_mul_left _ hle
  rw [Nat.sub_mul]
  omega

theorem afterOutput_up_inside (hle : current ≤ target)
    (htarget : Direction.up.amountOut liquidity current target = .ok toTarget)
    (hshort : amount < toTarget)
    (hprice : afterOutput .up current liquidity amount = .ok price) :
    current ≤ price ∧ price ≤ target := by
  obtain ⟨_, hliquidity, hafter⟩ := afterOutput_eq_ok_iff.1 hprice
  obtain ⟨_, hvalue⟩ := afterToken0Out_value hliquidity hafter
  have hheld := (Direction.le_amountOut_up_iff hle htarget).1 (BitVec.lt_def.1 hshort).le
  constructor
  · exact BitVec.le_def.2 (afterToken0Out_bounds hliquidity hafter).1
  · apply BitVec.le_def.2
    rw [hvalue]
    exact rise_le_of_held (BitVec.le_def.1 hle) hheld

/-! ### Outputs that stop short -/

theorem afterOutput_down_releases
    (hprice : afterOutput .down current liquidity amount = .ok price)
    (hreleased : Direction.down.amountOut liquidity current price = .ok spent) :
    amount ≤ spent := by
  obtain ⟨_, hliquidity, hafter⟩ := afterOutput_eq_ok_iff.1 hprice
  have hvalue := afterToken1Out_value hliquidity hafter
  have hpos := BitVec.toNat_pos_of_ne_zero hliquidity
  have hle : price ≤ current := BitVec.le_def.2 (Nat.le.intro hvalue)
  apply BitVec.le_def.2
  rw [Direction.le_amountOut_down_iff hle hreleased, ← hvalue, Nat.add_sub_cancel_left]
  exact le_smul_ceilDiv hpos

theorem afterOutput_up_releases
    (hprice : afterOutput .up current liquidity amount = .ok price)
    (hreleased : Direction.up.amountOut liquidity current price = .ok spent) :
    amount ≤ spent := by
  obtain ⟨_, hliquidity, hafter⟩ := afterOutput_eq_ok_iff.1 hprice
  obtain ⟨hreserves, _⟩ := afterToken0Out_value hliquidity hafter
  obtain ⟨hrise, hceil⟩ := afterToken0Out_bounds hliquidity hafter
  have hle : current ≤ price := BitVec.le_def.2 hrise
  apply BitVec.le_def.2
  rw [Direction.le_amountOut_up_iff hle hreleased]
  have hpaid : amount.toNat * current.toNat * price.toNat ≤
      liquidity.scaled.toNat * price.toNat := Nat.mul_le_mul_right _ hreserves.le
  rw [Nat.sub_mul] at hceil
  rw [Nat.mul_sub, mul_comm price.toNat, ← mul_assoc]
  omega

end SqrtPrice

end ConcentratedLiquidity
