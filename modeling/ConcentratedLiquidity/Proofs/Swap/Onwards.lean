import ConcentratedLiquidity.Proofs.Swap.Course

/-!
# Trades move onwards

A step is given two prices and no direction, and takes its direction from their order. It is the order's own as long as the next stop is not behind the price, as it never is where price and tick agree (`Pool.Consistent`). The price of such a trade moves from step to step in the direction of the order, stops at the limit, and stays among the prices that ticks have.

An order whose limit lies behind the price is taken to that limit, against its direction. If no tick is found for the price at which it is left there, the quote fails, and the pool keeps that price beside a tick that has nothing to do with it. From such a pool the next stop may lie behind, and a trade may be led back. As long as no change of liquidity fails, nothing else takes price and tick apart, and a step that ends at a price with a tick puts them together again.
-/

namespace ConcentratedLiquidity

/-- The moves that an order allows: in its direction, not past its limit, and to a price that ticks have. -/
structure Order.Allows (order : Order) (start finish : SqrtPrice) : Prop where
  leads : order.direction.Leads start finish
  limitAhead : order.LimitAhead finish
  lowest_le : SqrtPrice.lowest ≤ finish
  le_highest : finish ≤ SqrtPrice.highest

/-! ### Pools on the scale of ticks -/

namespace Pool

variable {pool other : Pool}

def ConsistentIfPriced (pool : Pool) : Prop := ∀ tick, pool.price.tick = .ok tick → pool.Consistent

/-- The price has a tick, or it is the highest price, which has none, and the tick is one of the last two. -/
def OnScale (pool : Pool) : Prop :=
  (∃ tick, pool.price.tick = .ok tick) ∨
    pool.price = SqrtPrice.highest ∧ TickIndex.highest.toInt - 1 ≤ pool.tick.toInt

theorem consistent_of_highest (hprice : pool.price = SqrtPrice.highest)
    (htick : TickIndex.highest.toInt - 1 ≤ pool.tick.toInt) : pool.Consistent := by
  have hhighest : TickIndex.highest.roundedRatio = SqrtPrice.highest :=
    (TickIndex.sqrtPrice_eq_ok_iff.1 TickIndex.sqrtPrice_highest).2
  constructor
  · rw [hprice]
    decide
  · exact BitVec.le_of_eq hprice
  · intro index hindex _
    rw [hprice]
    exact (TickIndex.roundedRatio_bounds hindex).2
  · intro index hindex hlt
    have hlast : index = TickIndex.highest := by
      rw [Int32.lt_iff_toInt_lt] at hlt
      have hle := Int32.le_iff_toInt_le.1 hindex.2
      exact Int32.toInt_inj.1 (by omega)
    rw [hlast, hhighest]
    exact BitVec.le_of_eq hprice

theorem Consistent.onScale (h : pool.Consistent) : pool.OnScale := by
  by_cases hprice : pool.price < SqrtPrice.highest
  · obtain ⟨tick, htick, -⟩ := SqrtPrice.tick_brackets h.lowest_le hprice
    exact Or.inl ⟨tick, htick⟩
  · have hhighest : pool.price = SqrtPrice.highest :=
      BitVec.le_antisymm h.le_highest (BitVec.not_lt.1 hprice)
    refine Or.inr ⟨hhighest, ?_⟩
    by_contra hbelow
    have hlt : pool.tick < 887271 := by
      rw [Int32.lt_iff_toInt_lt]
      exact not_le.1 hbelow
    have hle := h.le_ratio 887271 (by decide) hlt
    rw [hhighest] at hle
    exact absurd hle (by decide +kernel)

theorem ConsistentIfPriced.consistent (h : pool.ConsistentIfPriced) (hscale : pool.OnScale) :
    pool.Consistent := by
  rcases hscale with ⟨tick, htick⟩ | ⟨hprice, htick⟩
  · exact h tick htick
  · exact consistent_of_highest hprice htick

theorem ConsistentIfPriced.congr (h : pool.ConsistentIfPriced) (hprice : other.price = pool.price)
    (htick : other.tick = pool.tick) : other.ConsistentIfPriced := by
  intro tick hother
  rw [hprice] at hother
  exact (h tick hother).congr hprice htick

end Pool

namespace Cursor

variable {cursor left last : Cursor} {market : Market} {order : Order} {leg : Leg} {cause : Error}
  {legs : List Leg}

/-! ### One step -/

theorem allows_self (hconsistent : cursor.toPool.Consistent) (hlimit : order.LimitAhead cursor.price) :
    order.Allows cursor.price cursor.price :=
  ⟨.refl _ _, hlimit, hconsistent.lowest_le, hconsistent.le_highest⟩

theorem allows_step {next : NextTick} {step : SwapStep} (hconsistent : cursor.toPool.Consistent)
    (hlimit : order.LimitAhead cursor.price)
    (hsearch : market.source.nextWithinWord market.source.spacing order.direction cursor.tick =
      .ok next)
    (hrange : next.index.InRange)
    (hstep : swapStep cursor.price (order.target next.index.roundedRatio) cursor.liquidity
      cursor.remaining market.fee = .ok step) : order.Allows cursor.price step.price := by
  obtain ⟨hstart, hfinish, hahead⟩ := leads_step hconsistent hlimit hsearch hrange hstep
  obtain ⟨hlow, hhigh⟩ := hstart.middle_bounds hfinish
    ⟨hconsistent.lowest_le, hconsistent.le_highest⟩ (TickIndex.roundedRatio_bounds hrange)
  exact ⟨hstart, hahead, hlow, hhigh⟩

theorem Advances.allows (h : cursor.Advances market order leg)
    (hconsistent : cursor.toPool.Consistent) (hlimit : order.LimitAhead cursor.price) :
    order.Allows cursor.price leg.after.price := by
  rw [h.price_eq]
  exact allows_step hconsistent hlimit h.search h.inRange h.step

theorem allows_of_failed_advance (hconsistent : cursor.toPool.Consistent)
    (hlimit : order.LimitAhead cursor.price)
    (h : cursor.advance market order = (left, .error cause)) :
    order.Allows cursor.price left.price := by
  rcases unsettled_of_advance h with ⟨rfl, -⟩ | ⟨next, step, hsearch, hrange, hstep, rfl, -⟩
  · exact allows_self hconsistent hlimit
  · exact allows_step hconsistent hlimit hsearch hrange hstep

/-! ### Wherever the limit lies -/

/-- A step that finds a tick, or comes to the price of one, makes price and tick agree, and any other changes neither. -/
theorem Advances.consistentIfPriced (h : cursor.Advances market order leg)
    (hpriced : cursor.toPool.ConsistentIfPriced) : leg.after.toPool.ConsistentIfPriced := by
  have hsettles := h.settles
  generalize leg.after = after at hsettles ⊢
  cases hsettles with
  | crosses liquidity hprice hliquidity =>
    intro tick _
    exact Pool.consistent_of_price_eq h.inRange hprice
      (NextTick.tickPast_bounds h.inRange.1 order.direction)
  | rests hprice hbegan => exact hpriced.congr hbegan rfl
  | pauses tick hprice hbegan htick =>
    intro _ _
    exact Pool.consistent_of_price_tick htick

/-- A step that failed once it was traded failed at the liquidity or at a price without a tick. -/
theorem cause_of_failed_advance (h : cursor.advance market order = (left, .error cause)) :
    left = cursor ∨ (cause = .liquidityOverflow ∨ cause = .liquidityUnderflow) ∨
      left.price.tick = .error cause ∧ cause = .sqrtPriceOutOfBounds := by
  rcases unsettled_of_advance h with ⟨hleft, -⟩ | ⟨next, step, hsearch, -, -, -, hsettle⟩
  · exact Or.inl hleft
  · right
    rcases settle_eq_error hsettle with ⟨-, hliquidity⟩ | ⟨-, -, hnone⟩
    · exact Or.inl (liquidityPast_eq_error hsearch hliquidity)
    · exact Or.inr ⟨hnone, SqrtPrice.eq_of_tick_eq_error hnone⟩

theorem Run.consistentIfPriced (hrun : Run market order cursor legs last)
    (hpriced : cursor.toPool.ConsistentIfPriced) : last.toPool.ConsistentIfPriced := by
  induction hrun with
  | stay cursor => exact hpriced
  | step _ hadvances _ ih => exact ih (hadvances.consistentIfPriced hpriced)

section Follow

variable (cursor : Cursor) (market : Market) (order : Order) (steps : Nat)
  (hliquidity : ¬(follow market order steps cursor).LiquidityFailed)

include hliquidity

/-- Where it is not the liquidity that fails, a quote ends where its run does, or at a price without a tick. -/
theorem run_follow_of_liquidity :
    ∃ last, Run market order cursor (follow market order steps cursor).legs last ∧
      ((follow market order steps cursor).final = last ∨
        (follow market order steps cursor).stop = .failed .sqrtPriceOutOfBounds ∧
          (follow market order steps cursor).final.price.tick = .error .sqrtPriceOutOfBounds) := by
  obtain ⟨last, hrun, hend⟩ := run_follow cursor market order steps
  refine ⟨last, hrun, ?_⟩
  rcases hend with ⟨hfinal, -⟩ | ⟨cause, hfailed, hadvance⟩
  · exact Or.inl hfinal
  · rcases cause_of_failed_advance hadvance with hleft | (rfl | rfl) | ⟨hnone, rfl⟩
    · exact Or.inl hleft
    · exact absurd (Or.inl hfailed) hliquidity
    · exact absurd (Or.inr hfailed) hliquidity
    · exact Or.inr ⟨hfailed, hnone⟩

theorem consistentIfPriced_follow (hpriced : cursor.toPool.ConsistentIfPriced) :
    (follow market order steps cursor).final.toPool.ConsistentIfPriced := by
  obtain ⟨last, hrun, hfinal | ⟨-, hnone⟩⟩ :=
    run_follow_of_liquidity cursor market order steps hliquidity
  · rw [hfinal]
    exact hrun.consistentIfPriced hpriced
  · intro tick htick
    cases hnone.symm.trans htick

theorem consistent_follow (hconsistent : cursor.toPool.Consistent)
    (hprice : order.LimitAhead cursor.price ∨
      (follow market order steps cursor).stop ≠ .failed .sqrtPriceOutOfBounds) :
    (follow market order steps cursor).final.toPool.Consistent := by
  rcases hprice with hlimit | hstop
  · obtain ⟨last, hrun, hend⟩ := run_follow_of_consistent cursor market steps hconsistent hlimit
    rw [hend.resolve_left hliquidity]
    exact hrun.last_consistent hconsistent
  · obtain ⟨last, hrun, hfinal | ⟨hfailed, -⟩⟩ :=
      run_follow_of_liquidity cursor market order steps hliquidity
    · rw [hfinal]
      exact hrun.last_consistent hconsistent
    · exact absurd hfailed hstop

end Follow

end Cursor

namespace Pool

variable {market : Market} {start pool : Pool}

/-! ### The pools that are reached -/

/-- The pools that orders reach from another, while no change of liquidity fails. -/
inductive Reaches (market : Market) (start : Pool) : Pool → Prop
  | stay : Reaches market start start
  | quote {pool : Pool} (hreached : Reaches market start pool) (order : Order) (stepLimit : Nat)
      (hliquidity : ¬(pool.quote market stepLimit order).LiquidityFailed) :
      Reaches market start (pool.quote market stepLimit order).final.toPool

theorem Reaches.consistentIfPriced (h : Reaches market start pool) (hstart : start.Consistent) :
    pool.ConsistentIfPriced := by
  induction h with
  | stay => exact fun _ _ => hstart
  | quote _ order stepLimit hliquidity ih =>
    exact Cursor.consistentIfPriced_follow _ market order stepLimit hliquidity ih

theorem Reaches.consistent_iff (h : Reaches market start pool) (hstart : start.Consistent) :
    pool.Consistent ↔ pool.OnScale :=
  ⟨Consistent.onScale, (h.consistentIfPriced hstart).consistent⟩

/-- A pool leaves the scale only by an order whose limit lies behind the price, when that order fails for the price it is left at. -/
theorem Reaches.onScale_quote (h : Reaches market start pool) (hstart : start.Consistent)
    (hscale : pool.OnScale) {order : Order} {stepLimit : Nat}
    (hliquidity : ¬(pool.quote market stepLimit order).LiquidityFailed)
    (hprice : order.LimitAhead pool.price ∨
      (pool.quote market stepLimit order).stop ≠ .failed .sqrtPriceOutOfBounds) :
    (pool.quote market stepLimit order).final.toPool.OnScale :=
  (Cursor.consistent_follow _ market order stepLimit hliquidity
    ((h.consistent_iff hstart).2 hscale) hprice).onScale

/-- In every pool that orders reach and that is on the scale, each step of an order whose limit lies ahead makes a move that the order allows, and so does the step at which a quote fails. -/
theorem quote_moves_onwards {price : SqrtPrice} {liquidity : Liquidity} {order : Order}
    (hstart : atPrice price liquidity = .ok start) (hreached : Reaches market start pool)
    (hscale : pool.OnScale) (hlimit : order.LimitAhead pool.price) (stepLimit : Nat) :
    (∀ before leg after, (pool.quote market stepLimit order).legs = before ++ leg :: after →
      order.Allows (pool.afterLegs before).price leg.after.price) ∧
    order.Allows (pool.afterLegs (pool.quote market stepLimit order).legs).price
      (pool.quote market stepLimit order).final.price := by
  have hconsistent := (hreached.consistent_iff (consistent_atPrice hstart)).2 hscale
  obtain ⟨last, hrun, hend⟩ := (Cursor.start pool order).run_follow market order stepLimit
  constructor
  · intro before leg after hlegs
    rw [← quote, hlegs] at hrun
    obtain ⟨middle, hbefore, -, hadvances⟩ := hrun.exists_before
    obtain ⟨hkept, hahead⟩ := hbefore.consistent hconsistent hlimit
    have hmiddle : pool.afterLegs before = middle.toPool := hbefore.afterLegs_eq
    rw [hmiddle]
    exact hadvances.allows hkept hahead
  · rw [← quote] at hrun hend
    obtain ⟨hkept, hahead⟩ := hrun.consistent hconsistent hlimit
    have hlast : pool.afterLegs (pool.quote market stepLimit order).legs = last.toPool :=
      hrun.afterLegs_eq
    rw [hlast]
    rcases hend with ⟨hfinal, -⟩ | ⟨cause, -, hadvance⟩
    · rw [hfinal]
      exact Cursor.allows_self hkept hahead
    · exact Cursor.allows_of_failed_advance hkept hahead hadvance

/-- A trade up to the price of the tick at 120, and one back, which crosses that tick before the price moves. -/
theorem quote_moves_onwards_after_a_turn :
    let up : Order := ⟨⟨10 ^ 18⟩, .up, some (TickIndex.roundedRatio 120)⟩
    let down : Order := ⟨⟨10 ^ 15⟩, .down, some SqrtPrice.lowest⟩
    let turned := (sample.quote .sample 40 up).final.toPool
    ∃ crossing pause, (turned.quote .sample 40 down).legs = [] ++ crossing :: [pause] ∧
      turned.price = TickIndex.roundedRatio 120 ∧ turned.tick = 120 ∧ crossing.after.tick = 119 ∧
      down.Allows turned.price crossing.after.price ∧
      down.Allows crossing.after.price pause.after.price := by
  intro up down turned
  have hstart : atPrice .one (10 ^ 18) = .ok sample := by decide +kernel
  have hreached : Reaches .sample sample turned := .quote .stay up 40 (by decide +kernel)
  have hscale : turned.OnScale := Or.inl ⟨120, by decide +kernel⟩
  have hlimit : down.LimitAhead turned.price := by
    intro limit h
    cases h
    show SqrtPrice.lowest ≤ turned.price
    decide +kernel
  obtain ⟨hmoves, -⟩ := quote_moves_onwards hstart hreached hscale hlimit 40
  have hlength : (turned.quote .sample 40 down).legs.length = 2 := by decide +kernel
  obtain ⟨crossing, pause, hlegs⟩ := List.length_eq_two.1 hlength
  have htick : ∀ leg ∈ (turned.quote .sample 40 down).legs.take 1, leg.after.tick = 119 := by
    decide +kernel
  rw [hlegs] at htick
  exact ⟨crossing, pause, hlegs, by decide +kernel, by decide +kernel,
    htick crossing List.mem_cons_self, hmoves [] crossing [pause] hlegs,
    hmoves [crossing] pause [] hlegs⟩

/-- An order down with its limit far above every price of a tick is led up to that limit, where it fails and leaves the tick at which it began. An order up that is too small to move the price records a step there, and the first step of a larger one goes down to the price of the tick at 120. -/
theorem quote_led_back_off_the_scale :
    let astray : Order := ⟨⟨2 ^ 255 - 1⟩, .down, some (2 ^ 160 - 1)⟩
    let tiny : Order := ⟨⟨1⟩, .up, none⟩
    let up : Order := ⟨⟨10 ^ 18⟩, .up, none⟩
    let stray := (sample.quote .sample 40 astray).final.toPool
    atPrice .one (10 ^ 18) = .ok sample ∧ Reaches .sample sample stray ∧
      tiny.LimitAhead stray.price ∧ up.LimitAhead stray.price ∧
      (∃ leg, (stray.quote .sample 40 tiny).legs = [leg] ∧ SqrtPrice.highest < leg.after.price ∧
        ¬tiny.Allows stray.price leg.after.price) ∧
      ∃ leg legs, (stray.quote .sample 40 up).legs = leg :: legs ∧ leg.after.price < stray.price ∧
        ¬up.Allows stray.price leg.after.price := by
  intro astray tiny up stray
  have hreached : Reaches .sample sample stray := .quote .stay astray 40 (by decide +kernel)
  have hbeyond : ∀ {order : Order} {price finish : SqrtPrice}, SqrtPrice.highest < finish →
      ¬order.Allows price finish :=
    fun hlt hallows => BitVec.not_lt.2 hallows.le_highest hlt
  have hagainst : ∀ {price finish : SqrtPrice}, finish < price → ¬up.Allows price finish :=
    fun hlt hallows => BitVec.not_lt.2 hallows.leads hlt
  have hone : (stray.quote .sample 40 tiny).legs.length = 1 := by decide +kernel
  obtain ⟨rest, hrest⟩ := List.length_eq_one_iff.1 hone
  have hprice : ∀ leg ∈ (stray.quote .sample 40 tiny).legs, SqrtPrice.highest < leg.after.price := by
    decide +kernel
  rw [hrest] at hprice
  have hhigh := hprice rest List.mem_cons_self
  have htwo : (stray.quote .sample 40 up).legs.length = 2 := by decide +kernel
  obtain ⟨leg, last, hlegs⟩ := List.length_eq_two.1 htwo
  have hdown : ∀ leg ∈ (stray.quote .sample 40 up).legs.take 1, leg.after.price < stray.price := by
    decide +kernel
  rw [hlegs] at hdown
  have hback := hdown leg List.mem_cons_self
  exact ⟨by decide +kernel, hreached, fun _ h => (nomatch h), fun _ h => (nomatch h),
    ⟨rest, hrest, hhigh, hbeyond hhigh⟩, leg, [last], hlegs, hback, hagainst hback⟩

end Pool

end ConcentratedLiquidity
