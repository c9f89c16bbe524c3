import ConcentratedLiquidity.Proofs.Swap.Bookkeeping
import ConcentratedLiquidity.Proofs.Swap.Exchange
import ConcentratedLiquidity.Proofs.Swap.Run

/-!
# Reserves along a trade

The ticks of a pool and its liquidity without them describe how much of each token the pool holds up to any price (`Pool.reserve`): a sum with one term for every tick, which sets in at the price of that tick. Over the range of a step no term sets in, and the reserve changes as a pool of the liquidity in range would change it. No step changes the reserve as a function of the price, since none changes the liquidity without the ticks.

The steps of a trade are therefore paid at least the change of one reserve, and release at most that of the other, wherever they begin and end. The reserves need not rise with the price everywhere, but they do where a trade has come along, because there the liquidity in range was not negative.
-/

namespace ConcentratedLiquidity

namespace Ticks

/-- Between two values no tick's term sets in, and only those of the ticks at or below an index have set in before. -/
theorem sum_past_sub (ticks : List Tick) (index : TickIndex) (place : Tick → ℚ) {low high : ℚ}
    (hle : low ≤ high) (hbelow : ∀ tick ∈ ticks, tick.index ≤ index → place tick ≤ low)
    (habove : ∀ tick ∈ ticks, index < tick.index → high ≤ place tick) :
    (ticks.map fun tick => tick.net.toInt * max 0 (high - place tick)).sum -
        (ticks.map fun tick => tick.net.toInt * max 0 (low - place tick)).sum =
      ((ticks.filter (·.index ≤ index)).map (·.net.toInt)).sum * (high - low) := by
  induction ticks with
  | nil => simp
  | cons tick ticks ih =>
    have hrest := ih (fun other hmem => hbelow other (List.mem_cons_of_mem tick hmem))
      fun other hmem => habove other (List.mem_cons_of_mem tick hmem)
    by_cases hindex : tick.index ≤ index
    · have hplace := hbelow tick List.mem_cons_self hindex
      rw [List.filter_cons_of_pos (by simpa using hindex), List.map_cons, List.map_cons, List.map_cons,
        List.sum_cons, List.sum_cons, List.sum_cons, max_eq_right (by linarith),
        max_eq_right (by linarith), Int.cast_add]
      linarith
    · have hplace := habove tick List.mem_cons_self (Int32.not_le.1 hindex)
      rw [List.filter_cons_of_neg (by simpa using hindex), List.map_cons, List.map_cons,
        List.sum_cons, List.sum_cons, max_eq_left (by linarith), max_eq_left (by linarith)]
      linarith

end Ticks

namespace Pool

variable {pool other : Pool} {ticks : Ticks}

/-- What a pool would hold of a token at a price, counted so that it rises with the price where liquidity is in range. -/
def reserve (pool : Pool) (ticks : Ticks) (token : Token) (price : SqrtPrice) : ℚ :=
  pool.baseLiquidity ticks * price.coordinate token +
    (ticks.toList.map fun tick =>
      tick.net.toInt * max 0 (price.coordinate token - tick.index.roundedRatio.coordinate token)).sum

theorem reserve_eq_of_baseLiquidity_eq (h : other.baseLiquidity ticks = pool.baseLiquidity ticks) :
    other.reserve ticks = pool.reserve ticks := by
  funext token price
  rw [reserve, reserve, h]

theorem reserve_sub_reserve (token : Token) {low high : SqrtPrice} (hlow : 0 < low.toNat)
    (hle : low ≤ high)
    (hbelow : ∀ tick ∈ ticks, tick.index ≤ pool.tick →
      0 < tick.index.roundedRatio.toNat ∧ tick.index.roundedRatio ≤ low)
    (habove : ∀ tick ∈ ticks, pool.tick < tick.index → high ≤ tick.index.roundedRatio) :
    pool.reserve ticks token high - pool.reserve ticks token low =
      pool.liquidity.toNat * (high.coordinate token - low.coordinate token) := by
  have hhigh : 0 < high.toNat := lt_of_lt_of_le hlow hle
  have hsum := Ticks.sum_past_sub ticks.toList pool.tick
    (fun tick => tick.index.roundedRatio.coordinate token) (SqrtPrice.coordinate_le token hlow hle)
    (fun tick hmem hindex => by
      obtain ⟨hpos, hplace⟩ := hbelow tick (Array.mem_toList_iff.1 hmem) hindex
      exact SqrtPrice.coordinate_le token hpos hplace)
    (fun tick hmem hindex =>
      SqrtPrice.coordinate_le token hhigh (habove tick (Array.mem_toList_iff.1 hmem) hindex))
  have hliquidity : (pool.liquidity.toNat : ℚ) =
      pool.baseLiquidity ticks + ticks.netThrough pool.tick := by
    rw [baseLiquidity]
    push_cast
    ring
  rw [reserve, reserve, hliquidity, Ticks.netThrough]
  linarith

theorem Consistent.price_pos (h : pool.Consistent) : 0 < pool.price.toNat :=
  lt_of_lt_of_le (by decide) h.lowest_le

end Pool

theorem TickIndex.roundedRatio_pos {tick : TickIndex} (htick : tick.InRange) :
    0 < tick.roundedRatio.toNat := lt_of_lt_of_le (by decide) (roundedRatio_bounds htick).1

namespace Cursor

variable {cursor last : Cursor} {market : Market} {order : Order} {leg : Leg} {legs : List Leg}
  {price : SqrtPrice}

/-! ### One step -/

theorem Advances.gain_reserve (h : cursor.Advances market order leg)
    (hconsistent : cursor.toPool.Consistent)
    (hlisted : ∀ tick ∈ market.source.tickList.ticks, tick.index.InRange) (token : Token)
    (hfrom : order.direction.Leads cursor.price price)
    (hto : order.direction.Leads price leg.next.index.roundedRatio) :
    order.direction.gain (cursor.reserve market.source.tickList.ticks token) cursor.price price =
      cursor.liquidity.toNat *
        order.direction.gain (SqrtPrice.coordinate token) cursor.price price := by
  have hsearch := h.search
  have hstop := TickIndex.roundedRatio_pos h.inRange
  cases hdirection : order.direction with
  | down =>
    rw [hdirection] at hsearch hfrom hto
    refine Pool.reserve_sub_reserve token (lt_of_lt_of_le hstop hto) hfrom
      (fun tick hmem hindex => ?_) (fun tick hmem hindex => ?_)
    · have hbefore := (TickSource.stopsBelow hsearch).skips_none tick hmem hindex
      exact ⟨TickIndex.roundedRatio_pos (hlisted tick hmem), BitVec.le_trans
        (TickIndex.roundedRatio_le_roundedRatio (hlisted tick hmem) h.inRange hbefore) hto⟩
    · exact hconsistent.le_ratio tick.index (hlisted tick hmem) hindex
  | up =>
    rw [hdirection] at hsearch hfrom hto
    refine Pool.reserve_sub_reserve token hconsistent.price_pos hfrom
      (fun tick hmem hindex => ?_) (fun tick hmem hindex => ?_)
    · exact ⟨TickIndex.roundedRatio_pos (hlisted tick hmem),
        hconsistent.ratio_le tick.index (hlisted tick hmem) hindex⟩
    · have hbeyond := (TickSource.stopsAbove hsearch).skips_none tick hmem hindex
      exact BitVec.le_trans hto
        (TickIndex.roundedRatio_le_roundedRatio h.inRange (hlisted tick hmem) hbeyond)

theorem Advances.leads (h : cursor.Advances market order leg) (hconsistent : cursor.toPool.Consistent)
    (hlimit : order.LimitAhead cursor.price) :
    order.direction.Leads cursor.price leg.after.price ∧
      order.direction.Leads leg.after.price leg.next.index.roundedRatio := by
  obtain ⟨hstart, hfinish, -⟩ := leads_step hconsistent hlimit h.search h.inRange h.step
  rw [h.price_eq]
  exact ⟨hstart, hfinish⟩

theorem Advances.exchanges (h : cursor.Advances market order leg)
    (hconsistent : cursor.toPool.Consistent) (hlimit : order.LimitAhead cursor.price)
    (hlisted : ∀ tick ∈ market.source.tickList.ticks, tick.index.InRange) :
    order.direction.gain (cursor.reserve market.source.tickList.ticks order.direction.tokenIn)
        cursor.price leg.after.price ≤ leg.step.amountIn.toNat ∧
      (leg.step.amountOut.toNat : ℚ) ≤
        order.direction.gain (cursor.reserve market.source.tickList.ticks order.direction.tokenOut)
          cursor.price leg.after.price := by
  obtain ⟨hstart, hfinish⟩ := h.leads hconsistent hlimit
  obtain ⟨htarget, -, -⟩ := Order.leads_target hlimit
    (leads_nextPrice hconsistent h.search h.inRange)
  rw [h.gain_reserve hconsistent hlisted _ hstart hfinish,
    h.gain_reserve hconsistent hlisted _ hstart hfinish, h.price_eq]
  exact (trades_of_swapStep htarget h.step).exchanges

/-! ### The whole trade -/

theorem Run.leads (hrun : Run market order cursor legs last) (hconsistent : cursor.toPool.Consistent)
    (hlimit : order.LimitAhead cursor.price) : order.direction.Leads cursor.price last.price := by
  induction hrun with
  | stay cursor => exact Direction.Leads.refl _ _
  | step hopen hadvances _ ih =>
    exact (hadvances.leads hconsistent hlimit).1.trans
      (ih (hadvances.consistent hconsistent) (hadvances.limitAhead hconsistent hlimit))

section

variable (hstrict : market.source.tickList.ticks.StrictlySorted)
  (hlisted : ∀ tick ∈ market.source.tickList.ticks, tick.index.InRange)
  (hnet : ∀ tick ∈ market.source.tickList.ticks, tick.net.toInt ≠ -2 ^ 127)

include hstrict hlisted hnet

/-- No step changes a reserve as a function of the price. -/
theorem Advances.reserve_eq (h : cursor.Advances market order leg)
    (hconsistent : cursor.toPool.Consistent) (hlimit : order.LimitAhead cursor.price) :
    leg.after.reserve market.source.tickList.ticks = cursor.reserve market.source.tickList.ticks :=
  Pool.reserve_eq_of_baseLiquidity_eq
    ((h.passes hconsistent hlimit hlisted).baseLiquidity_eq hstrict hnet)

namespace Run

variable (hrun : Run market order cursor legs last) (hconsistent : cursor.toPool.Consistent)
  (hlimit : order.LimitAhead cursor.price)

include hrun hconsistent hlimit

theorem reserve_eq :
    last.reserve market.source.tickList.ticks = cursor.reserve market.source.tickList.ticks := by
  induction hrun with
  | stay cursor => rfl
  | step hopen hadvances _ ih =>
    exact (ih (hadvances.consistent hconsistent) (hadvances.limitAhead hconsistent hlimit)).trans
      (hadvances.reserve_eq hstrict hlisted hnet hconsistent hlimit)

/-- A trade is paid at least the change of one reserve, and releases at most that of the other. -/
theorem exchanges :
    order.direction.gain (cursor.reserve market.source.tickList.ticks order.direction.tokenIn)
        cursor.price last.price ≤ Leg.total SwapStep.amountIn legs ∧
      (Leg.total SwapStep.amountOut legs : ℚ) ≤
        order.direction.gain (cursor.reserve market.source.tickList.ticks order.direction.tokenOut)
          cursor.price last.price := by
  induction hrun with
  | stay cursor => simp
  | @step cursor leg legs last hopen hadvances _ ih =>
    obtain ⟨hpaid, hreleased⟩ := hadvances.exchanges hconsistent hlimit hlisted
    obtain ⟨hpaidRest, hreleasedRest⟩ :=
      ih (hadvances.consistent hconsistent) (hadvances.limitAhead hconsistent hlimit)
    rw [hadvances.reserve_eq hstrict hlisted hnet hconsistent hlimit] at hpaidRest hreleasedRest
    have hsplit : ∀ token, order.direction.gain (cursor.reserve market.source.tickList.ticks token)
        cursor.price last.price = _ := fun token =>
      (Direction.gain_add_gain order.direction _ cursor.price leg.after.price last.price).symm
    rw [Leg.total_cons, Leg.total_cons, Nat.cast_add, Nat.cast_add, hsplit, hsplit]
    exact ⟨add_le_add hpaid hpaidRest, add_le_add hreleased hreleasedRest⟩

/-- Where a trade has come along, the reserves rise with the price. -/
theorem gain_reserve_nonneg (token : Token) (hfrom : order.direction.Leads cursor.price price)
    (hto : order.direction.Leads price last.price) :
    0 ≤ order.direction.gain (cursor.reserve market.source.tickList.ticks token)
      cursor.price price := by
  induction hrun with
  | stay cursor => rw [hfrom.antisymm hto, Direction.gain_self]
  | @step cursor leg legs last hopen hadvances hrest ih =>
    obtain ⟨hstart, hfinish⟩ := hadvances.leads hconsistent hlimit
    have hkept := hadvances.consistent hconsistent
    have hahead := hadvances.limitAhead hconsistent hlimit
    -- Up to the end of the first step the liquidity in range is that of the step.
    have hstep : ∀ reached, order.direction.Leads cursor.price reached →
        order.direction.Leads reached leg.after.price →
        0 ≤ order.direction.gain (cursor.reserve market.source.tickList.ticks token)
          cursor.price reached := by
      intro reached hbefore hbeyond
      have hpos := hbefore.middle_pos hbeyond hconsistent.price_pos hkept.price_pos
      rw [hadvances.gain_reserve hconsistent hlisted token hbefore (hbeyond.trans hfinish)]
      exact mul_nonneg (Nat.cast_nonneg _)
        (Direction.gain_coordinate_nonneg token hconsistent.price_pos hpos hbefore)
    by_cases hbeyond : order.direction.Leads price leg.after.price
    · exact hstep price hfrom hbeyond
    · have hrestGain := ih hkept hahead (Direction.Leads.of_not hbeyond).1 hto
      rw [hadvances.reserve_eq hstrict hlisted hnet hconsistent hlimit] at hrestGain
      rw [← Direction.gain_add_gain _ _ _ leg.after.price]
      exact add_nonneg (hstep leg.after.price hstart (Direction.Leads.refl _ _)) hrestGain

end Run

end

end Cursor

end ConcentratedLiquidity
