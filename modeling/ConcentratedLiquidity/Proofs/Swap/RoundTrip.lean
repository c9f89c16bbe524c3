import ConcentratedLiquidity.Proofs.Swap.Course
import ConcentratedLiquidity.Proofs.Swap.Remaining
import ConcentratedLiquidity.Proofs.Swap.Reserve

/-!
# Round trips

A trade and one back with all it released. The trade back has at most the change of a reserve to spend, and the way back to the first price costs at least as much: it is spent when the price arrives, and ends there if not before. On its way it is paid out of the other reserve at most what the first trade has put in.

An input ends at the first price also where no liquidity is in range there, so that going on would cost nothing: before a step of that kind the reserve is back at its value, and nothing remains to go on with.
-/

namespace ConcentratedLiquidity

namespace Cursor

variable {cursor last : Cursor} {market : Market} {order : Order} {leg : Leg} {legs : List Leg}
  {bound : SqrtPrice}

/-- An input that cannot pay for more than the way to a price does not pass it in a step, and what remains cannot pay for more than the rest of the way. -/
theorem Advances.leads_of_remaining_le (h : cursor.Advances market order leg)
    (hconsistent : cursor.toPool.Consistent) (hlimit : order.LimitAhead cursor.price)
    (hlisted : ∀ tick ∈ market.source.tickList.ticks, tick.index.InRange)
    (hopen : cursor.remaining ≠ 0) (hinput : 0 ≤ cursor.remaining.toInt) (hpos : 0 < bound.toNat)
    (hbound : order.direction.Leads cursor.price bound)
    (hcovers : (cursor.remaining.toInt : ℚ) ≤ order.direction.gain
      (cursor.reserve market.source.tickList.ticks order.direction.tokenIn) cursor.price bound) :
    order.direction.Leads leg.after.price bound ∧ 0 ≤ leg.after.remaining.toInt ∧
      (leg.after.remaining.toInt : ℚ) ≤ order.direction.gain
        (cursor.reserve market.source.tickList.ticks order.direction.tokenIn)
        leg.after.price bound := by
  obtain ⟨hstart, hfinish⟩ := h.leads hconsistent hlimit
  obtain ⟨hpaid, -⟩ := h.exchanges hconsistent hlimit hlisted
  obtain ⟨hsign, hremaining⟩ := SwapStep.remainingOf_of_nonneg hinput h.step
  rw [← h.remaining_eq] at hsign hremaining
  have hspent : (leg.step.amountIn.toNat : ℚ) + leg.after.remaining.toInt ≤ cursor.remaining.toInt := by
    have hsum : (leg.step.amountIn.toNat : ℤ) + leg.after.remaining.toInt ≤ cursor.remaining.toInt := by
      omega
    exact_mod_cast hsum
  have hsplit := Direction.gain_add_gain order.direction
    (cursor.reserve market.source.tickList.ticks order.direction.tokenIn)
    cursor.price leg.after.price bound
  refine ⟨?_, hsign, by linarith⟩
  by_contra hpast
  obtain ⟨hbeyond, hne⟩ := Direction.Leads.of_not hpast
  have hafter := (h.consistent hconsistent).price_pos
  have hsome : (0 : ℚ) < cursor.remaining.toInt :=
    Int.cast_pos.2 (lt_of_le_of_ne hinput (Ne.symm (mt Signed.toInt_eq_zero_iff.1 hopen)))
  -- The whole step is made with one liquidity, and so it is positive and the part beyond the price costs.
  rw [h.gain_reserve hconsistent hlisted _ hbound (hbeyond.trans hfinish)] at hcovers
  rw [h.gain_reserve hconsistent hlisted _ hstart hfinish,
    ← Direction.gain_add_gain _ _ cursor.price bound leg.after.price] at hpaid
  have hliquidity : (0 : ℚ) < cursor.liquidity.toNat := by
    refine lt_of_le_of_ne (Nat.cast_nonneg _) fun hzero => ?_
    rw [← hzero, zero_mul] at hcovers
    linarith
  have hbeyondGain := mul_pos hliquidity
    (Direction.gain_coordinate_pos order.direction.tokenIn hpos hafter hbeyond hne)
  have hrest : (0 : ℚ) ≤ leg.after.remaining.toInt := by exact_mod_cast hsign
  linarith

/-! ### The whole trade -/

section

variable (hstrict : market.source.tickList.ticks.StrictlySorted)
  (hlisted : ∀ tick ∈ market.source.tickList.ticks, tick.index.InRange)
  (hnet : ∀ tick ∈ market.source.tickList.ticks, tick.net.toInt ≠ -2 ^ 127)

include hstrict hlisted hnet

theorem Run.leads_of_remaining_le (hrun : Run market order cursor legs last)
    (hconsistent : cursor.toPool.Consistent) (hlimit : order.LimitAhead cursor.price)
    (hinput : 0 ≤ cursor.remaining.toInt) (hpos : 0 < bound.toNat)
    (hbound : order.direction.Leads cursor.price bound)
    (hcovers : (cursor.remaining.toInt : ℚ) ≤ order.direction.gain
      (cursor.reserve market.source.tickList.ticks order.direction.tokenIn) cursor.price bound) :
    order.direction.Leads last.price bound := by
  induction hrun with
  | stay cursor => exact hbound
  | step hopen hadvances _ ih =>
    obtain ⟨hleads, hsign, hrest⟩ := hadvances.leads_of_remaining_le hconsistent hlimit hlisted
      (Order.stopAt_eq_none_iff.1 hopen).1 hinput hpos hbound hcovers
    rw [← hadvances.reserve_eq hstrict hlisted hnet hconsistent hlimit] at hrest
    exact ih (hadvances.consistent hconsistent) (hadvances.limitAhead hconsistent hlimit) hsign
      hleads hrest

/-! ### There and back -/

variable {outward homeward : Order} {turn : Cursor} {more : List Leg}
  (hconsistent : cursor.toPool.Consistent) (hout : outward.LimitAhead cursor.price)
  (hthere : Run market outward cursor legs turn) (hhome : homeward.LimitAhead turn.price)
  (hback : Run market homeward (start turn.toPool homeward) more last)
  (hdirection : homeward.direction = outward.direction.reverse)
  (hamount : homeward.amount.toInt = Leg.total SwapStep.amountOut legs)

include hconsistent hout hthere hhome hback hdirection hamount

/-- What a trade releases does not pay for more than the way back to where it began. -/
theorem Run.home_leads : homeward.direction.Leads last.price cursor.price := by
  obtain ⟨hturn, -⟩ := hthere.consistent hconsistent hout
  obtain ⟨-, hreleased⟩ := hthere.exchanges hstrict hlisted hnet hconsistent hout
  refine hback.leads_of_remaining_le hstrict hlisted hnet hturn hhome ?_ hconsistent.price_pos ?_ ?_
  · exact hamount ▸ Int.natCast_nonneg _
  · rw [hdirection, Direction.leads_reverse_iff]
    exact hthere.leads hconsistent hout
  · change (homeward.amount.toInt : ℚ) ≤ homeward.direction.gain
      (turn.reserve market.source.tickList.ticks homeward.direction.tokenIn) turn.price cursor.price
    rw [hamount, Int.cast_natCast, hdirection, Direction.gain_reverse,
      hthere.reserve_eq hstrict hlisted hnet hconsistent hout]
    exact hreleased

theorem Run.total_home_le :
    Leg.total SwapStep.amountOut more ≤ Leg.total SwapStep.amountIn legs := by
  have hleads := Run.home_leads hstrict hlisted hnet hconsistent hout hthere hhome hback hdirection
    hamount
  obtain ⟨hturn, -⟩ := hthere.consistent hconsistent hout
  have hbehind : homeward.direction.Leads turn.price last.price := hback.leads hturn hhome
  rw [hdirection, Direction.leads_reverse_iff] at hleads hbehind
  obtain ⟨hpaid, -⟩ := hthere.exchanges hstrict hlisted hnet hconsistent hout
  have hreturned : (Leg.total SwapStep.amountOut more : ℚ) ≤ homeward.direction.gain
      (turn.reserve market.source.tickList.ticks homeward.direction.tokenOut) turn.price last.price :=
    (hback.exchanges hstrict hlisted hnet hturn hhome).2
  rw [hdirection, Direction.gain_reverse, Direction.tokenOut_reverse,
    hthere.reserve_eq hstrict hlisted hnet hconsistent hout] at hreturned
  -- The trade has also paid for what the way back leaves out, from where it began to the last price.
  have hleft := hthere.gain_reserve_nonneg hstrict hlisted hnet hconsistent hout
    outward.direction.tokenIn hleads hbehind
  have hsplit := Direction.gain_add_gain outward.direction
    (cursor.reserve market.source.tickList.ticks outward.direction.tokenIn)
    cursor.price last.price turn.price
  have htotal : (Leg.total SwapStep.amountOut more : ℚ) ≤ Leg.total SwapStep.amountIn legs := by
    linarith
  exact_mod_cast htotal

end

end Cursor

namespace Pool

/-- A trade and one back with all that it released, where no change of liquidity fails: the price does not pass the one of the start, and no more comes back than was paid in. The fees are not even counted. -/
theorem round_trip_never_profits {market : Market} {price : SqrtPrice} {liquidity : Liquidity}
    {pool : Pool} {stepLimit : Nat} {outward homeward : Order} {there back : Quote}
    (hstrict : market.source.tickList.ticks.StrictlySorted)
    (hlisted : ∀ tick ∈ market.source.tickList.ticks, tick.index.InRange)
    (hnet : ∀ tick ∈ market.source.tickList.ticks, tick.net.toInt ≠ -2 ^ 127)
    (hpool : atPrice price liquidity = .ok pool)
    (hlimits : LimitsAhead market stepLimit pool [outward, homeward])
    (hquotes : pool.quotes market stepLimit [outward, homeward] = [there, back])
    (hdirection : homeward.direction = outward.direction.reverse)
    (hamount : homeward.amount.toInt = Leg.total SwapStep.amountOut there.legs)
    (hthere : ¬there.LiquidityFailed) (hback : ¬back.LiquidityFailed) :
    homeward.direction.Leads back.final.price price ∧
      Leg.total SwapStep.amountOut back.legs ≤ Leg.total SwapStep.amountIn there.legs := by
  have hconsistent := consistent_atPrice hpool
  obtain ⟨tick, -, rfl⟩ : ∃ tick, price.tick = .ok tick ∧ (⟨price, tick, liquidity⟩ : Pool) = pool := by
    obtain ⟨tick, htick, hok⟩ := bind_eq_ok_iff.1 hpool
    exact ⟨tick, htick, Except.ok.inj hok⟩
  obtain ⟨hout, hhome, -⟩ := hlimits
  cases hquotes
  -- Both trades as runs, the second from where the first ends.
  have hfirst := run_quote hconsistent hout hthere
  obtain ⟨hturn, -⟩ := hfirst.consistent hconsistent hout
  have hsecond := run_quote hturn hhome hback
  exact ⟨Cursor.Run.home_leads hstrict hlisted hnet hconsistent hout hfirst hhome hsecond hdirection
      hamount,
    Cursor.Run.total_home_le hstrict hlisted hnet hconsistent hout hfirst hhome hsecond hdirection
      hamount⟩

/-- A round trip over the tick at 120 where no fee is taken, which costs what is rounded off. -/
theorem round_trip_costs_the_rounding :
    let market : Market := ⟨.list .sample, 0⟩
    let up : Order := ⟨⟨10 ^ 16⟩, .up, none⟩
    let down : Order := ⟨⟨9908731848506525⟩, .down, none⟩
    ∃ there back, sample.quotes market 40 [up, down] = [there, back] ∧
      SqrtPrice.one ≤ back.final.price ∧ Leg.total SwapStep.amountIn there.legs = 10 ^ 16 ∧
      Leg.total SwapStep.amountOut back.legs = 10 ^ 16 - 4 ∧
      Leg.total SwapStep.amountOut back.legs ≤ Leg.total SwapStep.amountIn there.legs := by
  intro market up down
  let there := sample.quote market 40 up
  let back := there.final.toPool.quote market 40 down
  have hpool : atPrice .one (10 ^ 18) = .ok sample := by decide +kernel
  have hlimits : LimitsAhead market 40 sample [up, down] :=
    ⟨fun limit h => (nomatch h), fun limit h => (nomatch h), trivial⟩
  have hquotes : sample.quotes market 40 [up, down] = [there, back] := rfl
  have hamount : down.amount.toInt = Leg.total SwapStep.amountOut there.legs := by decide +kernel
  obtain ⟨hleads, hprofit⟩ := round_trip_never_profits (by decide +kernel) (by decide +kernel)
    (by decide +kernel) hpool hlimits hquotes rfl hamount (by decide +kernel) (by decide +kernel)
  exact ⟨there, back, hquotes, hleads, by decide +kernel, by decide +kernel, hprofit⟩

end Pool

end ConcentratedLiquidity
