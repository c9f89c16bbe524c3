import ConcentratedLiquidity.Proofs.Swap.Nearest

/-!
# Larger amounts and higher fees

A step for a larger amount ends at least as near to its target, and exchanges at least as much. The price after a trade is a quotient that moves one way with the amount; for an input of token 0 the quotient changes its form as the amount grows, and the rounded form begins no higher than the precise one ends. Beyond the amount for the whole range a step stays at its target, which is the furthest that it can go.

A higher fee only leaves less of an input, and so comes to the same as a smaller amount.
-/

namespace ConcentratedLiquidity

/-- A step that goes as far towards a target as another one, and exchanges as much. -/
structure SwapStep.Covers (target : SqrtPrice) (further step : SwapStep) : Prop where
  price : SqrtPrice.OnPath step.price target further.price
  amountIn : step.amountIn ≤ further.amountIn
  amountOut : step.amountOut ≤ further.amountOut

namespace SqrtPrice

variable {direction : Direction} {price next further : SqrtPrice} {liquidity : Liquidity}
  {amount more : Word}

/-! ### Prices after a larger trade -/

theorem afterInput_mono (hle : amount ≤ more)
    (h : afterInput direction price liquidity amount = .ok next)
    (hmore : afterInput direction price liquidity more = .ok further) :
    direction.Leads next further := by
  obtain ⟨-, hliquidity, hafter⟩ := afterInput_eq_ok_iff.1 h
  obtain ⟨-, -, hafterMore⟩ := afterInput_eq_ok_iff.1 hmore
  cases direction with
  | down => exact BitVec.le_def.2 (afterToken0In_antitone hliquidity hle hafter hafterMore)
  | up =>
    apply BitVec.le_def.2
    rw [afterToken1In_value hliquidity hafter, afterToken1In_value hliquidity hafterMore]
    exact Nat.add_le_add_left (Nat.div_le_div_right (Nat.mul_le_mul_right _ hle)) _

theorem afterOutput_mono (hle : amount ≤ more)
    (h : afterOutput direction price liquidity amount = .ok next)
    (hmore : afterOutput direction price liquidity more = .ok further) :
    direction.Leads next further := by
  obtain ⟨-, hliquidity, hafter⟩ := afterOutput_eq_ok_iff.1 h
  obtain ⟨-, -, hafterMore⟩ := afterOutput_eq_ok_iff.1 hmore
  cases direction with
  | down =>
    have hfall := afterToken1Out_value hliquidity hafter
    have hfallMore := afterToken1Out_value hliquidity hafterMore
    have hless : (amount.toNat * 2 ^ 96) ⌈/⌉ liquidity.toNat ≤
        (more.toNat * 2 ^ 96) ⌈/⌉ liquidity.toNat :=
      ceilDiv_le_of_le_mul ((Nat.mul_le_mul_right _ hle).trans
        (le_smul_ceilDiv (BitVec.toNat_pos_of_ne_zero hliquidity)))
    apply BitVec.le_def.2
    omega
  | up =>
    apply BitVec.le_def.2
    rw [(afterToken0Out_value hliquidity hafter).2]
    apply ceilDiv_le_of_le_mul
    refine (afterToken0Out_bounds hliquidity hafterMore).2.trans (Nat.mul_le_mul_right _ ?_)
    exact Nat.sub_le_sub_left (Nat.mul_le_mul_right _ hle) _

end SqrtPrice

namespace FeePips

variable {fee other : FeePips} {amount more budget room taken takenMore : Word}

/-! ### Fees -/

theorem deduct_mono (hfee : fee ≤ whole) (hother : other ≤ fee) (hle : amount ≤ more)
    (h : fee.deduct amount = .ok budget) (hmore : other.deduct more = .ok room) :
    budget ≤ room := by
  rw [BitVec.le_def, (deduct_eq_ok_iff hfee).1 h,
    (deduct_eq_ok_iff (UInt32.le_trans hother hfee)).1 hmore]
  exact Nat.div_le_div_right
    (Nat.mul_le_mul hle (Nat.sub_le_sub_left (UInt32.le_iff_toNat_le.1 hother) _))

theorem onTop_mono (hother : other ≤ whole) (hfee : fee ≤ other) (hle : amount ≤ more)
    (h : fee.onTop amount = .ok taken) (hmore : other.onTop more = .ok takenMore) :
    taken ≤ takenMore := by
  obtain ⟨-, hvalue⟩ := (onTop_eq_ok_iff (UInt32.le_trans hfee hother)).1 h
  obtain ⟨hrate, hvalueMore⟩ := (onTop_eq_ok_iff hother).1 hmore
  have hfeeNat := UInt32.le_iff_toNat_le.1 hfee
  rw [BitVec.le_def, hvalue, hvalueMore]
  apply ceilDiv_le_of_le_mul
  calc
    amount.toNat * fee.toNat ≤ more.toNat * other.toNat := Nat.mul_le_mul hle hfeeNat
    _ ≤ (10 ^ 6 - other.toNat) * ((more.toNat * other.toNat) ⌈/⌉ (10 ^ 6 - other.toNat)) :=
      le_smul_ceilDiv (Nat.sub_pos_of_lt hrate)
    _ ≤ _ := Nat.mul_le_mul_right _ (Nat.sub_le_sub_left hfeeNat _)

end FeePips

namespace SwapStep

variable {direction : Direction} {current target price furtherPrice : SqrtPrice}
  {liquidity : Liquidity} {amount more toTarget : Word} {fee other : FeePips}
  {step further : SwapStep}

/-! ### Steps -/

/-- Where a price moves on with the amount, it also does so up to the amount for the whole range and beyond, where it stays at the target. -/
theorem leads_of_larger {find : Word → Except Error SqrtPrice} (hle : amount ≤ more)
    (hwithin : direction.Leads price target)
    (hmono : find amount = .ok price → find more = .ok furtherPrice →
      direction.Leads price furtherPrice)
    (h : (if toTarget ≤ amount then .ok target else find amount) = .ok price)
    (hmore : (if toTarget ≤ more then .ok target else find more) = .ok furtherPrice) :
    direction.Leads price furtherPrice := by
  by_cases hreached : toTarget ≤ more
  · rw [if_pos hreached, Except.ok.injEq] at hmore
    rw [← hmore]
    exact hwithin
  · rw [if_neg hreached] at hmore
    rw [if_neg fun hless => hreached (BitVec.le_trans hless hle)] at h
    exact hmono h hmore

theorem exactInput_mono (hfee : fee ≤ FeePips.whole) (hother : other ≤ fee) (hle : amount ≤ more)
    (h : exactInput current target liquidity amount fee = .ok step)
    (hmore : exactInput current target liquidity more other = .ok further) :
    further.Covers target step := by
  obtain ⟨hstart, hwithin⟩ :=
    (Direction.leads_toward current target).of_onPath (exactInput_inside h).1
  obtain ⟨-, hwithinMore⟩ :=
    (Direction.leads_toward current target).of_onPath (exactInput_inside hmore).1
  obtain ⟨budget, toTarget, hbudget, htarget, hprice, hin, hout, -⟩ := exactInput_parts h
  obtain ⟨room, toTargetAgain, hroom, htargetAgain, hpriceMore, hinMore, houtMore, -⟩ :=
    exactInput_parts hmore
  obtain rfl : toTarget = toTargetAgain := by
    rw [htarget] at htargetAgain
    exact Except.ok.inj htargetAgain
  have hbudgets := FeePips.deduct_mono hfee hother hle hbudget hroom
  have hleads := leads_of_larger hbudgets hwithin (SqrtPrice.afterInput_mono hbudgets) hprice
    hpriceMore
  obtain ⟨hpaid, hreleases⟩ := Direction.amounts_mono hstart hleads hin hout hinMore houtMore
  exact ⟨hleads.onPath hwithinMore, hpaid, hreleases⟩

theorem exactOutput_mono (hle : amount ≤ more)
    (h : exactOutput current target liquidity amount fee = .ok step)
    (hmore : exactOutput current target liquidity more other = .ok further) :
    further.Covers target step := by
  obtain ⟨hstart, hwithin⟩ :=
    (Direction.leads_toward current target).of_onPath (exactOutput_inside h)
  obtain ⟨-, hwithinMore⟩ :=
    (Direction.leads_toward current target).of_onPath (exactOutput_inside hmore)
  obtain ⟨toTarget, released, htarget, hprice, hin, hreleased, hout, -⟩ := exactOutput_parts h
  obtain ⟨toTargetAgain, releasedMore, htargetAgain, hpriceMore, hinMore, hreleasedMore, houtMore,
    -⟩ := exactOutput_parts hmore
  obtain rfl : toTarget = toTargetAgain := by
    rw [htarget] at htargetAgain
    exact Except.ok.inj htargetAgain
  have hleads := leads_of_larger hle hwithin (SqrtPrice.afterOutput_mono hle) hprice hpriceMore
  obtain ⟨hpaid, hreleases⟩ :=
    Direction.amounts_mono hstart hleads hin hreleased hinMore hreleasedMore
  refine ⟨hleads.onPath hwithinMore, hpaid, ?_⟩
  -- Both outputs are capped, the smaller one at the smaller amount.
  rw [hout, houtMore]
  simp only [BitVec.le_def, BitVec.lt_def] at hle hreleases ⊢
  split <;> split <;> omega

end SwapStep

/-- A step for more of an input, at a fee that is not higher, goes at least as far towards its target and exchanges at least as much, and so does a step for more of an output; at a fee that is not lower it also takes at least as high a fee. -/
theorem swapStep_monotone {current target : SqrtPrice} {liquidity : Liquidity}
    {remaining more : SignedWord} {fee other : FeePips} {step further : SwapStep}
    (h : swapStep current target liquidity remaining fee = .ok step)
    (hmore : swapStep current target liquidity more other = .ok further) :
    (0 ≤ remaining.toInt → remaining.toInt ≤ more.toInt → other ≤ fee →
        further.Covers target step) ∧
      (remaining.toInt < 0 → more.toInt ≤ remaining.toInt →
        further.Covers target step ∧ (fee ≤ other → step.fee ≤ further.fee)) := by
  have hsize := remaining.toNat_magnitude
  have hsizeMore := more.toNat_magnitude
  constructor
  · intro hremaining hlarger hother
    have hle : remaining.magnitude ≤ more.magnitude := BitVec.le_def.2 (by omega)
    exact SwapStep.exactInput_mono (fee_le_whole_of_swapStep h) hother hle
      (swapStep_of_nonneg hremaining h) (swapStep_of_nonneg (hremaining.trans hlarger) hmore)
  · intro hremaining hlarger
    have hle : remaining.magnitude ≤ more.magnitude := BitVec.le_def.2 (by omega)
    have houtput := swapStep_of_neg hremaining h
    have houtputMore := swapStep_of_neg (lt_of_le_of_lt hlarger hremaining) hmore
    have hcovers := SwapStep.exactOutput_mono hle houtput houtputMore
    refine ⟨hcovers, fun hfee => ?_⟩
    obtain ⟨-, -, -, -, -, -, -, htaken⟩ := SwapStep.exactOutput_parts houtput
    obtain ⟨-, -, -, -, -, -, -, htakenMore⟩ := SwapStep.exactOutput_parts houtputMore
    exact FeePips.onTop_mono (fee_le_whole_of_swapStep hmore) hfee hcovers.amountIn htaken htakenMore

/-- Twice an input of token 0 at a lower fee, of which only the larger one is too large for the precise formula, and twice an output of token 0. -/
theorem swapStep_monotone_across_formulas :
    let fall := swapStep 730750818665451459101842416358141509827966271488 SqrtPrice.lowest
      170141183460469231731687303715884105728
    let rise := swapStep SqrtPrice.one SqrtPrice.highest 1000000000000000000
    let step : SwapStep :=
      { price := 135205349358888880845672964461131897519, amountIn := 99700000000000000000000000000,
        amountOut := 1569275433556318914088606200736813501289622979622744358912,
        fee := 300000000000000000000000000 }
    let further : SwapStep :=
      { price := 67433583453383641027492768301544443522, amountIn := 199900000000000000000000000000,
        amountOut := 1569275433701857673166762616424673965659769435507254099968,
        fee := 100000000000000000000000000 }
    let asked : SwapStep :=
      { price := 88031291682515930659493278152, amountIn := 111111111111111112,
        amountOut := 100000000000000000, fee := 334336342360415 }
    let askedMore : SwapStep :=
      { price := 99035203142830421991929937920, amountIn := 250000000000000000,
        amountOut := 200000000000000000, fee := 752256770310933 }
    (fall (Signed.ofInt 256 100000000000000000000000000000) 3000 = .ok step ∧
      fall (Signed.ofInt 256 200000000000000000000000000000) 500 = .ok further ∧
      further.Covers SqrtPrice.lowest step) ∧
    (rise (Signed.ofInt 256 (-100000000000000000)) 3000 = .ok asked ∧
      rise (Signed.ofInt 256 (-200000000000000000)) 3000 = .ok askedMore ∧
      askedMore.Covers SqrtPrice.highest asked ∧ asked.fee ≤ askedMore.fee) := by
  intro fall rise step further asked askedMore
  have hstep : fall (Signed.ofInt 256 100000000000000000000000000000) 3000 = .ok step := by
    decide +kernel
  have hfurther : fall (Signed.ofInt 256 200000000000000000000000000000) 500 = .ok further := by
    decide +kernel
  have hasked : rise (Signed.ofInt 256 (-100000000000000000)) 3000 = .ok asked := by
    decide +kernel
  have haskedMore : rise (Signed.ofInt 256 (-200000000000000000)) 3000 = .ok askedMore := by
    decide +kernel
  obtain ⟨hinput, -⟩ := swapStep_monotone hstep hfurther
  obtain ⟨-, houtput⟩ := swapStep_monotone hasked haskedMore
  obtain ⟨hcovers, hfee⟩ := houtput (by decide) (by decide)
  exact ⟨⟨hstep, hfurther, hinput (by decide) (by decide) (by decide)⟩, hasked, haskedMore, hcovers,
    hfee (by decide)⟩

end ConcentratedLiquidity
