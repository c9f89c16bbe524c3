import ConcentratedLiquidity.Proofs.Signed
import ConcentratedLiquidity.Proofs.Swap.Bookkeeping
import ConcentratedLiquidity.Proofs.Swap.Failure
import ConcentratedLiquidity.Proofs.Swap.Tracking

/-!
# How trades end

The net changes that positions list add up to an amount of liquidity everywhere, and the liquidity in range is their sum up to the tick of the pool. In such a pool every stop has a price, every step between two prices can be traded, and every change of liquidity fits. All that can fail is a search that leaves the list. It fails before its step is traded, and so the pool is as the last recorded step left it.

These conditions are `Ticks.WellFormed` on the list and `Pool.Sound` on the pool, and every step keeps the second.
-/

namespace ConcentratedLiquidity

theorem SqrtPrice.valid_of_bounds {price : SqrtPrice} (hlow : SqrtPrice.lowest ≤ price)
    (hhigh : price ≤ SqrtPrice.highest) : price.Valid :=
  ⟨le_trans (by decide) (BitVec.le_def.1 hlow), le_trans (BitVec.le_def.1 hhigh) (by decide)⟩

theorem Liquidity.exists_applyChange_eq_ok {liquidity : Liquidity} {change : LiquidityChange} {sum : Int}
    (hsum : (liquidity.toNat : Int) + change.toInt = sum) (hfits : 0 ≤ sum ∧ sum < 2 ^ 128) :
    ∃ result, liquidity.applyChange change = .ok result := by
  refine ⟨BitVec.ofNat 128 sum.toNat, applyChange_eq_ok_iff.2 ?_⟩
  rw [BitVec.toNat_ofNat, Nat.mod_eq_of_lt (by omega), Int.toNat_of_nonneg hfits.1, hsum]

/-- A list of ticks as positions leave it: no index twice, a price at each, a negative of each change, and an amount of liquidity past each number of them. -/
structure Ticks.WellFormed (ticks : Ticks) : Prop where
  nonempty : ticks ≠ #[]
  strictlySorted : ticks.StrictlySorted
  inRange : ∀ tick ∈ ticks, tick.index.InRange
  net_ne_lowest : ∀ tick ∈ ticks, tick.net.toInt ≠ -2 ^ 127
  netOfFirst_fits : ∀ count ≤ ticks.size, 0 ≤ ticks.netOfFirst count ∧ ticks.netOfFirst count < 2 ^ 128

theorem Ticks.WellFormed.netThrough_fits {ticks : Ticks} (h : ticks.WellFormed) (index : TickIndex) :
    0 ≤ ticks.netThrough index ∧ ticks.netThrough index < 2 ^ 128 := by
  obtain ⟨count, hcount, hsum⟩ := exists_netThrough_eq_netOfFirst h.strictlySorted index
  rw [hsum]
  exact h.netOfFirst_fits count hcount

/-- A pool whose price and tick agree and whose liquidity in range is what its ticks list. -/
structure Pool.Sound (pool : Pool) (ticks : Ticks) : Prop where
  consistent : pool.Consistent
  ofPool : pool.tick.OfPool
  baseLiquidity_eq : pool.baseLiquidity ticks = 0

theorem Pool.Sound.toNat_liquidity {pool : Pool} {ticks : Ticks} (h : pool.Sound ticks) :
    (pool.liquidity.toNat : Int) = ticks.netThrough pool.tick :=
  Int.sub_eq_zero.1 h.baseLiquidity_eq

namespace TickSource

variable {source : TickSource} {spacing : TickSpacing} {direction : Direction} {tick : TickIndex}
  {next : NextTick} {listed : Tick}

theorem inRange_of_nextWithinWord
    (hlisted : ∀ other ∈ source.tickList.ticks, other.index.InRange) (htick : tick.OfPool)
    (h : source.nextWithinWord spacing direction tick = .ok next) : next.index.InRange := by
  obtain ⟨hlow, hhigh⟩ := htick
  obtain ⟨found, hmem, hsought⟩ := exists_sought h
  cases direction with
  | down =>
    have hstops := stopsBelow h
    exact ⟨Int32.le_trans (hlisted found hmem).1 (hstops.skips_none found hmem hsought),
      Int32.le_trans hstops.le (Int32.le_iff_toInt_le.2 hhigh)⟩
  | up =>
    have hstops := stopsAbove h
    have habove := Int32.lt_iff_toInt_lt.1 hstops.lt
    exact ⟨Int32.le_iff_toInt_le.2 (by omega),
      Int32.le_trans (hstops.skips_none found hmem hsought) (hlisted found hmem).2⟩

variable (hstrict : source.tickList.ticks.StrictlySorted) (hmem : listed ∈ source.tickList.ticks)
  (hindex : listed.index = next.index)

include hstrict hmem hindex

theorem netThrough_eq_add_net_of_down
    (hsearch : source.nextWithinWord spacing .down tick = .ok next) (hrange : next.index.InRange) :
    source.tickList.ticks.netThrough tick =
      source.tickList.ticks.netThrough (next.tickPast .down) + listed.net.toInt := by
  refine Ticks.netThrough_eq_add_net hstrict hmem (fun other _ => ?_) (fun other hother => ?_)
  · rw [hindex]
    exact NextTick.le_tickPast_down_iff hrange.1
  · rw [hindex]
    exact (stopsBelow hsearch).le_iff hother

theorem netThrough_eq_add_net_of_up
    (hsearch : source.nextWithinWord spacing .up tick = .ok next) :
    source.tickList.ticks.netThrough (next.tickPast .up) =
      source.tickList.ticks.netThrough tick + listed.net.toInt := by
  refine Ticks.netThrough_eq_add_net hstrict hmem (fun other hother => ?_) (fun other _ => ?_)
  · rw [hindex]
    exact (stopsAbove hsearch).le_iff hother
  · rw [hindex]
    rfl

end TickSource

namespace Cursor

variable {cursor left : Cursor} {market : Market} {order : Order} {leg : Leg} {cause : Error}
  {source : TickSource} {direction : Direction} {next : NextTick}

/-! ### One step -/

/-- Past a stop the liquidity is the sum of the changes that are listed up to there, and so it fits. -/
theorem exists_liquidityPast_eq_ok (hticks : source.tickList.ticks.WellFormed)
    (hsound : cursor.toPool.Sound source.tickList.ticks)
    (hsearch : source.nextWithinWord source.spacing direction cursor.tick = .ok next)
    (hrange : next.index.InRange) :
    ∃ liquidity, cursor.liquidityPast source direction next = .ok liquidity := by
  by_cases hinitialized : next.initialized = true
  · obtain ⟨tick, hmem, hfind, hindex⟩ := Ticks.exists_find_eq_ok source.tickList.sorted
      ((TickSource.initialized_iff hsearch).1 hinitialized)
    have hfits := hticks.netThrough_fits (next.tickPast direction)
    have hbegan := hsound.toNat_liquidity
    cases direction with
    | down =>
      have hpast := TickSource.netThrough_eq_add_net_of_down hticks.strictlySorted hmem hindex
        hsearch hrange
      have hsum : (cursor.liquidity.toNat : Int) + (-tick.net).toInt =
          source.tickList.ticks.netThrough (next.tickPast .down) := by
        rw [Signed.toInt_neg (by decide) (hticks.net_ne_lowest tick hmem)]
        omega
      obtain ⟨liquidity, hchange⟩ := Liquidity.exists_applyChange_eq_ok hsum hfits
      exact ⟨liquidity, (liquidityPast_eq_ok_iff hinitialized).2 ⟨tick, hfind, hchange⟩⟩
    | up =>
      have hpast := TickSource.netThrough_eq_add_net_of_up hticks.strictlySorted hmem hindex hsearch
      rw [← hbegan] at hpast
      obtain ⟨liquidity, hchange⟩ := Liquidity.exists_applyChange_eq_ok hpast.symm hfits
      exact ⟨liquidity, (liquidityPast_eq_ok_iff hinitialized).2 ⟨tick, hfind, hchange⟩⟩
  · exact ⟨cursor.liquidity, if_neg hinitialized⟩

section

variable (hticks : market.source.tickList.ticks.WellFormed)
  (hsound : cursor.toPool.Sound market.source.tickList.ticks) (hlimit : order.LimitAhead cursor.price)

include hticks hsound hlimit

theorem nextStep_eq_error (hfee : market.fee.toNat < 10 ^ 6)
    (h : cursor.nextStep market order = .error cause) : cause = order.direction.endOfList := by
  rcases bind_eq_error_iff.1 h with hsearch | ⟨next, hsearch, h⟩
  · exact TickSource.nextWithinWord_eq_error hticks.nonempty hsearch
  · have hrange := TickSource.inRange_of_nextWithinWord hticks.inRange hsound.ofPool hsearch
    have hbounds := And.intro hsound.consistent.lowest_le hsound.consistent.le_highest
    obtain ⟨htarget, hbefore, -⟩ := Order.leads_target hlimit
      (leads_nextPrice hsound.consistent hsearch hrange)
    obtain ⟨hlow, hhigh⟩ :=
      htarget.middle_bounds hbefore hbounds (TickIndex.roundedRatio_bounds hrange)
    obtain ⟨step, hstep⟩ := swapStep_ok (SqrtPrice.valid_of_bounds hbounds.1 hbounds.2)
      (SqrtPrice.valid_of_bounds hlow hhigh) cursor.liquidity cursor.remaining hfee
    rw [TickIndex.sqrtPrice_eq_ok hrange, ok_bind, hstep] at h
    cases h

theorem advance_eq_error (hfee : market.fee.toNat < 10 ^ 6)
    (h : cursor.advance market order = (left, .error cause)) :
    left = cursor ∧ cause = order.direction.endOfList := by
  rcases unsettled_of_advance h with ⟨hleft, hnext⟩ |
    ⟨next, step, hsearch, hrange, hstep, rfl, hsettle⟩
  · exact ⟨hleft, nextStep_eq_error hticks hsound hlimit hfee hnext⟩
  · exfalso
    rcases settle_eq_error hsettle with ⟨-, hliquidity⟩ | ⟨hprice, hbegan, hnone⟩
    · obtain ⟨liquidity, hfits⟩ := exists_liquidityPast_eq_ok hticks hsound hsearch hrange
      cases hliquidity.symm.trans hfits
    · obtain ⟨tick, htick⟩ :=
        exists_tick_of_pause hsound.consistent hlimit hsearch hrange hstep hprice hbegan
      cases hnone.symm.trans htick

theorem Advances.sound (h : cursor.Advances market order leg) :
    leg.after.toPool.Sound market.source.tickList.ticks := by
  have hpasses := h.passes hsound.consistent hlimit hticks.inRange
  refine ⟨h.consistent hsound.consistent, h.ofPool hsound.ofPool, ?_⟩
  rw [hpasses.baseLiquidity_eq hticks.strictlySorted hticks.net_ne_lowest]
  exact hsound.baseLiquidity_eq

end

end Cursor

namespace Pool

variable {market : Market} {pool last : Pool} {stepLimit : Nat} {orders : List Order}
  {legs : List Leg}

theorem sound_atPrice {price : SqrtPrice} {liquidity : Liquidity} {ticks : Ticks}
    (hpool : atPrice price liquidity = .ok pool)
    (hliquidity : (liquidity.toNat : Int) = ticks.netThrough pool.tick) : pool.Sound ticks := by
  refine ⟨consistent_atPrice hpool, ofPool_atPrice hpool, Int.sub_eq_zero.2 ?_⟩
  obtain ⟨tick, -, hmade⟩ := bind_eq_ok_iff.1 hpool
  cases hmade
  exact hliquidity

section

variable (hticks : market.source.tickList.ticks.WellFormed)

include hticks

theorem Course.sound (hcourse : Course market pool legs last)
    (hsound : pool.Sound market.source.tickList.ticks) :
    last.Sound market.source.tickList.ticks := by
  induction hcourse with
  | stay pool => exact hsound
  | step hlimit hadvances _ ih => exact ih (hadvances.sound hticks hsound hlimit)

variable (hfee : market.fee.toNat < 10 ^ 6)

include hfee

/-- A quote in a sound pool fails only where a search leaves the list, and ends at the pool that its steps leave. -/
theorem quote_of_sound (stepLimit : Nat) {order : Order}
    (hsound : pool.Sound market.source.tickList.ticks) (hlimit : order.LimitAhead pool.price) :
    (∀ cause, (pool.quote market stepLimit order).stop = .failed cause →
        cause = order.direction.endOfList) ∧
      (pool.quote market stepLimit order).final.toPool =
        pool.afterLegs (pool.quote market stepLimit order).legs ∧
      (pool.quote market stepLimit order).final.toPool.Sound market.source.tickList.ticks := by
  obtain ⟨last, hrun, hend⟩ := (Cursor.start pool order).run_follow market order stepLimit
  have hcourse := hrun.course hsound.consistent hlimit
  have hlast := hcourse.sound hticks hsound
  have hleft : pool.afterLegs (pool.quote market stepLimit order).legs = last.toPool :=
    hcourse.afterLegs_eq
  rw [← quote] at hend
  rw [hleft]
  rcases hend with ⟨rfl, hstop⟩ | ⟨cause, hstop, hadvance⟩
  · exact ⟨fun cause h => absurd h (hstop cause), rfl, hlast⟩
  · obtain ⟨hfinal, hcause⟩ := Cursor.advance_eq_error hticks hlast
      (hrun.consistent hsound.consistent hlimit).2 hfee hadvance
    rw [hstop, hfinal]
    refine ⟨fun other h => ?_, rfl, hlast⟩
    cases h
    exact hcause

theorem not_liquidityFailed_of_sound (hsound : pool.Sound market.source.tickList.ticks)
    (hlimits : LimitsAhead market stepLimit pool orders) :
    ∀ quote ∈ pool.quotes market stepLimit orders, ¬quote.LiquidityFailed := by
  induction orders generalizing pool with
  | nil => exact fun quote hmem => nomatch hmem
  | cons order orders ih =>
    obtain ⟨hfails, -, hkept⟩ := quote_of_sound hticks hfee stepLimit hsound hlimits.1
    intro quote hmem hfailed
    rcases List.mem_cons.1 hmem with rfl | hmem
    · have hkind : ∀ cause, (pool.quote market stepLimit order).stop = .failed cause →
          cause.kind = .tickList := by
        intro cause h
        rw [hfails cause h]
        exact order.direction.kind_endOfList
      rcases hfailed with h | h
      · cases hkind _ h
      · cases hkind _ h
    · exact ih hkept hlimits.2 quote hmem hfailed

end

/-- In every run of quotes in a sound pool, a quote fails only where its search leaves the list on the side it trades to, and it leaves the pool as the last recorded step did. -/
theorem quotes_fail_only_at_the_ends {price : SqrtPrice} {liquidity : Liquidity}
    {earlier later : List Quote} {quote : Quote} {order : Order}
    (hticks : market.source.tickList.ticks.WellFormed) (hfee : market.fee.toNat < 10 ^ 6)
    (hpool : atPrice price liquidity = .ok pool)
    (hliquidity : (liquidity.toNat : Int) = market.source.tickList.ticks.netThrough pool.tick)
    (hlimits : LimitsAhead market stepLimit pool orders)
    (hquotes : pool.quotes market stepLimit orders = earlier ++ quote :: later)
    (horder : orders[earlier.length]? = some order) :
    (∀ cause, quote.stop = .failed cause → cause = order.direction.endOfList) ∧
      quote.final.toPool = pool.afterLegs ((earlier ++ [quote]).flatMap Quote.legs) := by
  have hsound := sound_atPrice hpool hliquidity
  have hearlier : ∀ other ∈ earlier, ¬other.LiquidityFailed := by
    intro other hother
    apply not_liquidityFailed_of_sound hticks hfee hsound hlimits
    rw [hquotes]
    exact List.mem_append_left _ hother
  obtain ⟨reached, start, hreached, hcourse, hlimit, rfl⟩ :=
    exists_order_of_quotes hsound.consistent hlimits hquotes hearlier
  obtain rfl : reached = order := Option.some.inj (hreached.symm.trans horder)
  obtain ⟨hfails, hfinal, -⟩ :=
    quote_of_sound hticks hfee stepLimit (hcourse.sound hticks hsound) hlimit
  refine ⟨hfails, ?_⟩
  rw [hfinal, List.flatMap_append, List.flatMap_singleton, afterLegs_append, hcourse.afterLegs_eq]

/-- A trade up through all ticks, and one back down through all of them. -/
theorem quotes_fail_at_both_ends :
    let up : Order := ⟨⟨10 ^ 18⟩, .up, none⟩
    let down : Order := ⟨⟨10 ^ 18⟩, .down, none⟩
    ∃ there back, sample.quotes .sample 40 [up, down] = [there] ++ back :: [] ∧
      there.stop = .failed .atOrAboveLargest ∧ back.stop = .failed .belowSmallest ∧
      there.legs.map (·.after.tick) = [120, 240] ∧ back.legs.map (·.after.tick) = [239, 119, -1, -121] ∧
      back.final.toPool = sample.afterLegs (([there] ++ [back]).flatMap Quote.legs) := by
  intro up down
  let there := sample.quote .sample 40 up
  let back := there.final.toPool.quote .sample 40 down
  have hticks : Market.sample.source.tickList.ticks.WellFormed :=
    ⟨by decide, by decide +kernel, by decide +kernel, by decide +kernel, by decide +kernel⟩
  have hpool : atPrice .one (10 ^ 18) = .ok sample := by decide +kernel
  have hlimits : LimitsAhead .sample 40 sample [up, down] :=
    ⟨fun limit h => (nomatch h), fun limit h => (nomatch h), trivial⟩
  have hquotes : sample.quotes .sample 40 [up, down] = [there] ++ back :: [] := rfl
  have hliquidity : ((10 ^ 18 : Liquidity).toNat : Int) = TickList.sample.ticks.netThrough 0 := by
    decide +kernel
  obtain ⟨-, hfinal⟩ :=
    quotes_fail_only_at_the_ends hticks (by decide) hpool hliquidity hlimits hquotes rfl
  exact ⟨there, back, hquotes, by decide +kernel, by decide +kernel, by decide +kernel,
    by decide +kernel, hfinal⟩

end Pool

end ConcentratedLiquidity
