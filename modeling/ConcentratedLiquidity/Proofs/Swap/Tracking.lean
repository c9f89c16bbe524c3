import ConcentratedLiquidity.Proofs.Swap.Course

/-!
# The tick follows the price

A pool keeps its tick beside its price, and a step sets it by one of three rules: one below the stop it reached on the way down, the stop itself on the way up, or the tick of the price on the way. Where the price did not move the tick is left alone. By all of them the price stays between the prices of the tick and of the next one, and a step that moved the price leaves its very tick, unless it came down onto the price of a stop.
-/

namespace ConcentratedLiquidity

/-- The indices that the tick of a pool can have: those with a price, and the one below them. -/
def TickIndex.OfPool (tick : TickIndex) : Prop :=
  lowest.toInt - 1 ≤ tick.toInt ∧ tick.toInt ≤ highest.toInt

namespace TickIndex

variable {tick : TickIndex}

theorem InRange.ofPool (h : tick.InRange) : tick.OfPool := by
  rw [InRange, Int32.le_iff_toInt_le, Int32.le_iff_toInt_le] at h
  exact ⟨by omega, h.2⟩

theorem OfPool.lt_add_one (h : tick.OfPool) : tick < tick + 1 := by
  obtain ⟨hlow, hhigh⟩ := h
  rw [show lowest.toInt = -887272 from rfl] at hlow
  rw [show highest.toInt = 887272 from rfl] at hhigh
  rw [Int32.lt_iff_toInt_lt, Int32.toInt_add, show (1 : TickIndex).toInt = 1 from rfl,
    Int.bmod_eq_of_le (by omega) (by omega)]
  omega

theorem ofPool_tickPast {next : NextTick} (hrange : next.index.InRange) (direction : Direction) :
    (next.tickPast direction).OfPool := by
  have hbounds := NextTick.tickPast_bounds hrange.1 direction
  rw [InRange, Int32.le_iff_toInt_le, Int32.le_iff_toInt_le] at hrange
  exact ⟨by omega, by omega⟩

theorem ofPool_of_tick {price : SqrtPrice} (h : price.tick = .ok tick) : tick.OfPool := by
  obtain ⟨hlow, hhigh, hbrackets⟩ := SqrtPrice.brackets_of_tick h
  exact InRange.ofPool
    ⟨hbrackets.lowest_le_high hlow, Int32.le_of_lt (hbrackets.low_lt_highest hhigh)⟩

end TickIndex

namespace Pool

variable {pool : Pool} {ratio : SqrtPrice}

theorem Consistent.tick_le (h : pool.Consistent) (hratio : pool.tick.sqrtPrice = .ok ratio) :
    ratio ≤ pool.price := by
  obtain ⟨hrange, rfl⟩ := TickIndex.sqrtPrice_eq_ok_iff.1 hratio
  exact h.ratio_le pool.tick hrange (Int32.le_refl _)

theorem Consistent.le_next (h : pool.Consistent) (htick : pool.tick.OfPool)
    (hratio : (pool.tick + 1).sqrtPrice = .ok ratio) : pool.price ≤ ratio := by
  obtain ⟨hrange, rfl⟩ := TickIndex.sqrtPrice_eq_ok_iff.1 hratio
  exact h.le_ratio (pool.tick + 1) hrange htick.lt_add_one

end Pool

namespace Cursor

variable {cursor last : Cursor} {market : Market} {order : Order} {leg : Leg}

theorem Advances.ofPool (h : cursor.Advances market order leg) (htick : cursor.tick.OfPool) :
    leg.after.tick.OfPool := by
  have hsettles := h.settles
  generalize leg.after = after at hsettles ⊢
  cases hsettles with
  | crosses => exact TickIndex.ofPool_tickPast h.inRange order.direction
  | rests => exact htick
  | pauses tick _ _ hfound => exact TickIndex.ofPool_of_tick hfound

theorem Advances.tick_eq_of_moved (h : cursor.Advances market order leg)
    (hmoved : leg.after.price ≠ cursor.price)
    (hside : ¬(order.direction = .down ∧ leg.next.index.sqrtPrice = .ok leg.after.price))
    (hlt : leg.after.price < SqrtPrice.highest) : leg.after.price.tick = .ok leg.after.tick := by
  have hsettles := h.settles
  generalize leg.after = after at hsettles hmoved hside hlt ⊢
  cases hsettles with
  | crosses liquidity hprice =>
    have hreached : (cursor.trade leg.step).price = leg.next.index.roundedRatio := hprice
    cases hdirection : order.direction with
    | down =>
      refine absurd ⟨hdirection, ?_⟩ hside
      exact (TickIndex.sqrtPrice_eq_ok h.inRange).trans (congrArg Except.ok hreached.symm)
    | up =>
      dsimp only at hlt ⊢
      rw [hreached] at hlt ⊢
      exact TickIndex.tick_roundedRatio h.inRange hlt
  | rests _ hbegan => exact absurd hbegan hmoved
  | pauses tick _ _ hfound => exact hfound

end Cursor

namespace Pool

variable {market : Market} {pool last : Pool} {legs : List Leg}

theorem Course.ofPool (hcourse : Course market pool legs last) (htick : pool.tick.OfPool) :
    last.tick.OfPool := by
  induction hcourse with
  | stay pool => exact htick
  | step hlimit hadvances _ ih => exact ih (hadvances.ofPool htick)

theorem ofPool_atPrice {price : SqrtPrice} {liquidity : Liquidity}
    (h : atPrice price liquidity = .ok pool) : pool.tick.OfPool := by
  obtain ⟨tick, htick, hpool⟩ := bind_eq_ok_iff.1 h
  cases hpool
  exact TickIndex.ofPool_of_tick htick

/-- In every run of quotes, as long as no change of liquidity has failed, each recorded step leaves a price between those of the tick and of the next one. Where it moved the price, and not down onto the price of a stop, it leaves the tick of that price. -/
theorem quotes_keep_tick_at_price {market : Market} {price : SqrtPrice} {liquidity : Liquidity}
    {pool : Pool} {stepLimit : Nat} {orders : List Order} {earlier later : List Quote} {quote : Quote}
    {order : Order} {before after : List Leg} {leg : Leg}
    (hpool : atPrice price liquidity = .ok pool)
    (hlimits : LimitsAhead market stepLimit pool orders)
    (hquotes : pool.quotes market stepLimit orders = earlier ++ quote :: later)
    (hearlier : ∀ other ∈ earlier, ¬other.LiquidityFailed)
    (horder : orders[earlier.length]? = some order) (hlegs : quote.legs = before ++ leg :: after) :
    leg.after.tick.OfPool ∧
      (∀ ratio, leg.after.tick.sqrtPrice = .ok ratio → ratio ≤ leg.after.price) ∧
      (∀ ratio, (leg.after.tick + 1).sqrtPrice = .ok ratio → leg.after.price ≤ ratio) ∧
      (leg.after.price ≠ (pool.afterLegs (earlier.flatMap Quote.legs ++ before)).price →
        ¬(order.direction = .down ∧ leg.next.index.sqrtPrice = .ok leg.after.price) →
        leg.after.price < SqrtPrice.highest → leg.after.price.tick = .ok leg.after.tick) := by
  have hconsistent := consistent_atPrice hpool
  obtain ⟨reached, start, hreached, hcourse, hlimit, rfl⟩ :=
    exists_order_of_quotes hconsistent hlimits hquotes hearlier
  obtain rfl : reached = order := Option.some.inj (hreached.symm.trans horder)
  obtain ⟨last, hrun⟩ := exists_run_of_quote hlegs
  obtain ⟨middle, hbefore, -, hadvances⟩ := hrun.exists_before
  have hkept := hcourse.consistent hconsistent
  have htick : pool.tick.OfPool := by
    obtain ⟨tick, htick, hpool⟩ := bind_eq_ok_iff.1 hpool
    cases hpool
    exact TickIndex.ofPool_of_tick htick
  -- The pool before the step is the one that all steps so far leave.
  have hmiddle : pool.afterLegs (earlier.flatMap Quote.legs ++ before) = middle.toPool := by
    rw [afterLegs_append, hcourse.afterLegs_eq]
    exact hbefore.afterLegs_eq
  have hsofar := hcourse.append (hbefore.course hkept hlimit)
  have hafter := hadvances.consistent (hsofar.consistent hconsistent)
  have hafterTick := hadvances.ofPool (hsofar.ofPool htick)
  refine ⟨hafterTick, fun ratio => hafter.tick_le, fun ratio => hafter.le_next hafterTick, ?_⟩
  rw [hmiddle]
  exact hadvances.tick_eq_of_moved

/-- A trade up to the price of the tick at 120 and not beyond it, and one back. The trade back crosses that tick before the price moves. -/
theorem quotes_keep_tick_at_a_turn :
    let up : Order := ⟨⟨10 ^ 18⟩, .up, some (TickIndex.roundedRatio 120)⟩
    let down : Order := ⟨⟨10 ^ 15⟩, .down, none⟩
    ∃ there back crossing pause, sample.quotes .sample 40 [up, down] = [there] ++ back :: [] ∧
      back.legs = [crossing] ++ pause :: [] ∧
      crossing.after.price = TickIndex.roundedRatio 120 ∧ crossing.after.tick = 119 ∧
      pause.after.price.tick = .ok 99 := by
  intro up down
  let there := sample.quote .sample 40 up
  let back := there.final.toPool.quote .sample 40 down
  have hlimits : LimitsAhead .sample 40 sample [up, down] := by
    refine ⟨fun limit h => ?_, fun limit h => (nomatch h), trivial⟩
    cases h
    show Pool.sample.price ≤ TickIndex.roundedRatio 120
    decide +kernel
  have hlength : back.legs.length = 2 := by decide +kernel
  obtain ⟨crossing, pause, hlegs⟩ := List.length_eq_two.1 hlength
  have hcrossing : ∀ leg ∈ back.legs.take 1,
      leg.after.price = TickIndex.roundedRatio 120 ∧ leg.after.tick = 119 := by decide +kernel
  have hpause : ∀ leg ∈ back.legs.drop 1, leg.after.price ≠ TickIndex.roundedRatio 120 ∧
      leg.next.index.sqrtPrice ≠ .ok leg.after.price ∧ leg.after.price < SqrtPrice.highest ∧
        leg.after.tick = 99 := by decide +kernel
  rw [hlegs] at hcrossing hpause
  replace hlegs : back.legs = [crossing] ++ pause :: [] := hlegs
  obtain ⟨hprice, htick⟩ := hcrossing crossing List.mem_cons_self
  obtain ⟨hmoved, hside, hlt, hpauseTick⟩ := hpause pause List.mem_cons_self
  have hpool : atPrice .one (10 ^ 18) = .ok sample := by decide +kernel
  have hquotes : sample.quotes .sample 40 [up, down] = [there] ++ back :: [] := rfl
  have hkeep := quotes_keep_tick_at_price hpool hlimits hquotes (by decide +kernel) rfl hlegs
  have hbegan : (sample.afterLegs ([there].flatMap Quote.legs ++ [crossing])).price =
      TickIndex.roundedRatio 120 := by
    rw [afterLegs_append]
    exact hprice
  refine ⟨there, back, crossing, pause, hquotes, hlegs, hprice, htick, ?_⟩
  rw [← hpauseTick]
  refine hkeep.2.2.2 ?_ (fun h => hside h.2) hlt
  rw [hbegan]
  exact hmoved

end Pool

end ConcentratedLiquidity
