import ConcentratedLiquidity.Proofs.Signed
import ConcentratedLiquidity.Proofs.Swap.Run

/-!
# What remains of an order

A step takes off what it was paid or adds what it released, and never more than remains. The wrapping sums of a cursor are therefore sums of integers, and what remains of an order after any of its steps is its amount less all that its steps have been paid, or have released, so far. A step that does not reach its target leaves nothing.
-/

namespace ConcentratedLiquidity

namespace SwapStep

variable {current target : SqrtPrice} {liquidity : Liquidity} {amount : Word}
  {remaining : SignedWord} {fee : FeePips} {step : SwapStep}

/-! ### What a step takes off -/

theorem remainingOf_of_nonneg (hremaining : 0 ≤ remaining.toInt)
    (h : swapStep current target liquidity remaining fee = .ok step) :
    0 ≤ (step.remainingOf remaining).toInt ∧
      (step.remainingOf remaining).toInt =
        remaining.toInt - (step.amountIn.toNat + step.fee.toNat) := by
  have hpaid := exactInput_paid_le (fee_le_whole_of_swapStep h) (swapStep_of_nonneg hremaining h)
  rw [remaining.toNat_magnitude] at hpaid
  have hbounds := remaining.toInt_bounds
  have hsum : (step.amountIn + step.fee).toNat = step.amountIn.toNat + step.fee.toNat := by
    rw [BitVec.toNat_add, Nat.mod_eq_of_lt]
    omega
  have hsign : ¬remaining.isNegative = true := by
    rw [Signed.isNegative_iff]
    omega
  rw [remainingOf, if_neg hsign, Signed.toInt_sub_word (by decide) (by omega) (by omega), hsum]
  omega

theorem remainingOf_of_neg (hremaining : remaining.toInt < 0)
    (h : swapStep current target liquidity remaining fee = .ok step) :
    (step.remainingOf remaining).toInt ≤ 0 ∧
      (step.remainingOf remaining).toInt = remaining.toInt + step.amountOut.toNat := by
  have hreleased := BitVec.le_def.1 (exactOutput_amountOut_le (swapStep_of_neg hremaining h))
  rw [remaining.toNat_magnitude] at hreleased
  have hbounds := remaining.toInt_bounds
  rw [remainingOf, if_pos (Signed.isNegative_iff.2 hremaining),
    Signed.toInt_add_word (by decide) (by omega) (by omega)]
  omega

theorem remainingOf_eq_zero (h : swapStep current target liquidity remaining fee = .ok step)
    (hshort : step.price ≠ target) : step.remainingOf remaining = 0 := by
  have hmagnitude := remaining.toNat_magnitude
  rw [← Signed.toInt_eq_zero_iff]
  by_cases hremaining : 0 ≤ remaining.toInt
  · have hpaid := exactInput_paid_eq (swapStep_of_nonneg hremaining h) hshort
    rw [(remainingOf_of_nonneg hremaining h).2]
    omega
  · have hneg := Int.not_le.1 hremaining
    have hreleased := exactOutput_amountOut_eq (swapStep_of_neg hneg h) hshort
    rw [(remainingOf_of_neg hneg h).2, hreleased]
    omega

end SwapStep

namespace Cursor

variable {cursor after last : Cursor} {market : Market} {order : Order} {source : TickSource}
  {direction : Direction} {next : NextTick} {nextPrice began : SqrtPrice} {leg : Leg}
  {legs : List Leg}

theorem Settles.remaining_eq (h : cursor.Settles source direction next nextPrice began after) :
    after.remaining = cursor.remaining := by
  cases h <;> rfl

theorem Advances.remaining_eq (h : cursor.Advances market order leg) :
    leg.after.remaining = leg.step.remainingOf cursor.remaining := h.settles.remaining_eq

/-! ### What the steps of a run take off together -/

namespace Run

theorem remaining_of_nonneg (hrun : Run market order cursor legs last)
    (hremaining : 0 ≤ cursor.remaining.toInt) :
    0 ≤ last.remaining.toInt ∧
      last.remaining.toInt =
        cursor.remaining.toInt - (Leg.total SwapStep.amountIn legs + Leg.total SwapStep.fee legs) := by
  induction hrun with
  | stay cursor => simp [hremaining]
  | step hopen hadvances _ ih =>
    obtain ⟨hsign, hstep⟩ := SwapStep.remainingOf_of_nonneg hremaining hadvances.step
    rw [← hadvances.remaining_eq] at hsign hstep
    obtain ⟨hlast, hsum⟩ := ih hsign
    rw [Leg.total_cons, Leg.total_cons]
    omega

theorem remaining_of_nonpos (hrun : Run market order cursor legs last)
    (hremaining : cursor.remaining.toInt ≤ 0) :
    last.remaining.toInt ≤ 0 ∧
      last.remaining.toInt = cursor.remaining.toInt + Leg.total SwapStep.amountOut legs := by
  induction hrun with
  | stay cursor => simp [hremaining]
  | @step cursor leg legs last hopen hadvances _ ih =>
    -- An amount used up is read as an input, and an order with nothing left is not open.
    have hsome : cursor.remaining.toInt ≠ 0 :=
      mt Signed.toInt_eq_zero_iff.1 (Order.stopAt_eq_none_iff.1 hopen).1
    obtain ⟨hsign, hstep⟩ :=
      SwapStep.remainingOf_of_neg (lt_of_le_of_ne hremaining hsome) hadvances.step
    rw [← hadvances.remaining_eq] at hsign hstep
    obtain ⟨hlast, hsum⟩ := ih hsign
    rw [Leg.total_cons]
    omega

end Run

end Cursor

namespace Pool

/-- After every step that a quote records, what remains of its order is the amount less all that the steps so far were paid, or have released. It has not changed sign. -/
theorem quote_accounts_for_remaining {pool : Pool} {market : Market} {stepLimit : Nat}
    {order : Order} {earlier later : List Leg} {leg : Leg}
    (hlegs : (pool.quote market stepLimit order).legs = earlier ++ leg :: later) :
    (0 ≤ order.amount.toInt →
      0 ≤ leg.after.remaining.toInt ∧
        leg.after.remaining.toInt = order.amount.toInt -
          (Leg.total SwapStep.amountIn (earlier ++ [leg]) +
            Leg.total SwapStep.fee (earlier ++ [leg]))) ∧
      (order.amount.toInt < 0 →
        leg.after.remaining.toInt ≤ 0 ∧
          leg.after.remaining.toInt =
            order.amount.toInt + Leg.total SwapStep.amountOut (earlier ++ [leg])) := by
  obtain ⟨last, hrun⟩ := exists_run_of_quote hlegs
  have hthrough := hrun.through
  exact ⟨fun hinput => hthrough.remaining_of_nonneg hinput,
    fun houtput => hthrough.remaining_of_nonpos houtput.le⟩

/-- The largest input that can be given, and the largest output that can be asked for. Neither is used up when the ticks end. -/
theorem quote_accounts_for_extreme_amounts :
    let given : Order := ⟨⟨2 ^ 255 - 1⟩, .up, none⟩
    let asked : Order := ⟨⟨2 ^ 255⟩, .up, none⟩
    (∃ first second, (sample.quote .sample 40 given).legs = [first, second] ∧
      second.after.remaining.toInt = 2 ^ 255 - 1 -
        (Leg.total SwapStep.amountIn [first, second] + Leg.total SwapStep.fee [first, second])) ∧
      ∃ first second, (sample.quote .sample 40 asked).legs = [first, second] ∧
        second.after.remaining.toInt = -2 ^ 255 + Leg.total SwapStep.amountOut [first, second] := by
  intro given asked
  have hgiven : given.amount.toInt = 2 ^ 255 - 1 := by decide +kernel
  have hasked : asked.amount.toInt = -2 ^ 255 := by decide +kernel
  have hlegs : ∀ order, (sample.quote .sample 40 order).legs.length = 2 →
      ∃ first second, (sample.quote .sample 40 order).legs = [first] ++ second :: [] :=
    fun order hlength => List.length_eq_two.1 hlength
  obtain ⟨first, second, hinput⟩ := hlegs given (by decide +kernel)
  obtain ⟨third, fourth, houtput⟩ := hlegs asked (by decide +kernel)
  refine ⟨⟨first, second, hinput, ?_⟩, third, fourth, houtput, ?_⟩
  · rw [← hgiven]
    exact ((quote_accounts_for_remaining hinput).1 (by omega)).2
  · rw [← hasked]
    exact ((quote_accounts_for_remaining houtput).2 (by omega)).2

end Pool

end ConcentratedLiquidity
