import ConcentratedLiquidity.Proofs.Swap.Step
import ConcentratedLiquidity.Proofs.Tick.OfPrice
import ConcentratedLiquidity.Proofs.Tick.Stop
import ConcentratedLiquidity.Swap.Cursor

/-!
# One step of a trade

A step searches for the next stop, trades towards its price, and settles. `Cursor.Advances` and `Cursor.Settles` say once what a finished step can do; the rest of the theory of trades takes steps apart through them and never unfolds `Cursor.advance`.

Between steps the price lies between the prices of the ticks around it (`Pool.Consistent`). For this reason the next stop is never behind the price, the step goes in the direction of the order, and the tick found again from a price on the way lies on the same side of every listed tick as the one before. The only thing that can go wrong once a step is traded is a change of liquidity that does not fit.
-/

namespace ConcentratedLiquidity

/-! ### Directions and limits -/

/-- A move from one price to another does not go against a direction. -/
def Direction.Leads : Direction → SqrtPrice → SqrtPrice → Prop
  | .down, start, finish => finish ≤ start
  | .up, start, finish => start ≤ finish

namespace Direction

variable {direction : Direction} {start middle finish : SqrtPrice}

theorem Leads.refl (direction : Direction) (price : SqrtPrice) : direction.Leads price price := by
  cases direction with
  | down => exact BitVec.le_refl price
  | up => exact BitVec.le_refl price

theorem Leads.trans (hfirst : direction.Leads start middle) (hsecond : direction.Leads middle finish) :
    direction.Leads start finish := by
  cases direction with
  | down => exact BitVec.le_trans hsecond hfirst
  | up => exact BitVec.le_trans hfirst hsecond

theorem Leads.middle_bounds {low high : SqrtPrice} (hfirst : direction.Leads start middle)
    (hsecond : direction.Leads middle finish) (hstart : low ≤ start ∧ start ≤ high)
    (hfinish : low ≤ finish ∧ finish ≤ high) : low ≤ middle ∧ middle ≤ high := by
  cases direction with
  | down => exact ⟨BitVec.le_trans hfinish.1 hsecond, BitVec.le_trans hfirst hstart.2⟩
  | up => exact ⟨BitVec.le_trans hstart.1 hfirst, BitVec.le_trans hsecond hfinish.2⟩

theorem Leads.of_onPath (htarget : direction.Leads start finish)
    (h : SqrtPrice.OnPath start finish middle) :
    direction.Leads start middle ∧ direction.Leads middle finish := by
  cases direction with
  | down =>
    have hle : finish ≤ start := htarget
    rw [SqrtPrice.OnPath, if_pos hle] at h
    exact ⟨h.2, h.1⟩
  | up =>
    rw [SqrtPrice.OnPath] at h
    split at h
    · rename_i hle
      exact ⟨BitVec.le_trans htarget h.1, BitVec.le_trans h.2 htarget⟩
    · exact h

theorem Leads.onPath (hfirst : direction.Leads start middle)
    (hsecond : direction.Leads middle finish) : SqrtPrice.OnPath start finish middle := by
  cases direction with
  | down =>
    rw [SqrtPrice.OnPath, if_pos (BitVec.le_trans hsecond hfirst)]
    exact ⟨hsecond, hfirst⟩
  | up =>
    rw [SqrtPrice.OnPath]
    split
    · rename_i hle
      exact ⟨BitVec.le_trans hle hfirst, BitVec.le_trans hsecond hle⟩
    · exact ⟨hfirst, hsecond⟩

end Direction

namespace Order

/-- The limit of an order, if there is one, lies on its own side of a price. -/
def LimitAhead (order : Order) (price : SqrtPrice) : Prop :=
  ∀ limit, order.limit = some limit → order.direction.Leads price limit

theorem leads_target {order : Order} {price nextPrice : SqrtPrice} (hlimit : order.LimitAhead price)
    (hnext : order.direction.Leads price nextPrice) :
    order.direction.Leads price (order.target nextPrice) ∧
      order.direction.Leads (order.target nextPrice) nextPrice ∧
      order.LimitAhead (order.target nextPrice) := by
  obtain ⟨amount, direction, limit⟩ := order
  rcases limit with - | limit
  · exact ⟨hnext, Direction.Leads.refl _ _, fun _ h => nomatch h⟩
  · have hahead := hlimit limit rfl
    simp only [LimitAhead, target, Option.some.injEq, forall_eq'] at hahead ⊢
    cases direction with
    | down =>
      simp only [Direction.Leads] at hnext hahead ⊢
      split
      · rename_i hlt
        exact ⟨hahead, BitVec.le_of_lt hlt, BitVec.le_refl limit⟩
      · rename_i hle
        exact ⟨hnext, BitVec.le_refl nextPrice, BitVec.not_lt.1 hle⟩
    | up =>
      simp only [Direction.Leads] at hnext hahead ⊢
      split
      · rename_i hlt
        exact ⟨hahead, BitVec.le_of_lt hlt, BitVec.le_refl limit⟩
      · rename_i hle
        exact ⟨hnext, BitVec.le_refl nextPrice, BitVec.not_lt.1 hle⟩

end Order

/-! ### Price and tick of a pool -/

namespace Pool

/-- The price is one that ticks have, and it lies between the price of the tick and that of the next one, both included. Both prices are asked for only where there are any. -/
structure Consistent (pool : Pool) : Prop where
  lowest_le : SqrtPrice.lowest ≤ pool.price
  le_highest : pool.price ≤ SqrtPrice.highest
  ratio_le : ∀ index : TickIndex, index.InRange → index ≤ pool.tick → index.roundedRatio ≤ pool.price
  le_ratio : ∀ index : TickIndex, index.InRange → pool.tick < index → pool.price ≤ index.roundedRatio

variable {pool other : Pool}

theorem Consistent.congr (h : pool.Consistent) (hprice : other.price = pool.price)
    (htick : other.tick = pool.tick) : other.Consistent := by
  constructor
  · exact hprice ▸ h.lowest_le
  · exact hprice ▸ h.le_highest
  · rw [hprice, htick]
    exact h.ratio_le
  · rw [hprice, htick]
    exact h.le_ratio

theorem consistent_of_price_tick (h : pool.price.tick = .ok pool.tick) : pool.Consistent := by
  obtain ⟨hlow, hhigh, hbrackets⟩ := SqrtPrice.brackets_of_tick h
  exact ⟨hlow, BitVec.le_of_lt hhigh, hbrackets.below,
    fun index hindex hlt => BitVec.le_of_lt (hbrackets.above index hindex hlt)⟩

/-- At the price of a tick the pool may be on either side of it. -/
theorem consistent_of_price_eq {index : TickIndex} (hindex : index.InRange)
    (hprice : pool.price = index.roundedRatio)
    (htick : index.toInt - 1 ≤ pool.tick.toInt ∧ pool.tick.toInt ≤ index.toInt) :
    pool.Consistent := by
  have hbounds := TickIndex.roundedRatio_bounds hindex
  rw [← hprice] at hbounds
  refine ⟨hbounds.1, hbounds.2, fun lower hlower hle => ?_, fun upper hupper hlt => ?_⟩
  · rw [hprice]
    rw [Int32.le_iff_toInt_le] at hle
    exact TickIndex.roundedRatio_le_roundedRatio hlower hindex (Int32.le_iff_toInt_le.2 (by omega))
  · rw [hprice]
    rw [Int32.lt_iff_toInt_lt] at hlt
    exact TickIndex.roundedRatio_le_roundedRatio hindex hupper (Int32.le_iff_toInt_le.2 (by omega))

theorem consistent_atPrice {price : SqrtPrice} {liquidity : Liquidity}
    (h : atPrice price liquidity = .ok pool) : pool.Consistent := by
  obtain ⟨tick, htick, hpool⟩ := bind_eq_ok_iff.1 h
  cases hpool
  exact consistent_of_price_tick htick

end Pool

namespace Cursor

variable {cursor after left : Cursor} {market : Market} {order : Order} {source : TickSource}
  {direction : Direction} {next : NextTick} {nextPrice began : SqrtPrice} {leg : Leg} {cause : Error}

/-! ### What a finished step can do -/

/-- The three ways in which a step is settled: at the next price, where it began, or on the way. -/
inductive Settles (cursor : Cursor) (source : TickSource) (direction : Direction) (next : NextTick)
    (nextPrice began : SqrtPrice) : Cursor → Prop
  | crosses (liquidity : Liquidity) (hprice : cursor.price = nextPrice)
      (hliquidity : cursor.liquidityPast source direction next = .ok liquidity) :
      Settles cursor source direction next nextPrice began
        { cursor with liquidity, tick := next.tickPast direction }
  | rests (hprice : cursor.price ≠ nextPrice) (hbegan : cursor.price = began) :
      Settles cursor source direction next nextPrice began cursor
  | pauses (tick : TickIndex) (hprice : cursor.price ≠ nextPrice) (hbegan : cursor.price ≠ began)
      (htick : cursor.price.tick = .ok tick) :
      Settles cursor source direction next nextPrice began { cursor with tick }

theorem settles_of_settle (h : cursor.settle source direction next nextPrice began = .ok after) :
    cursor.Settles source direction next nextPrice began after := by
  rw [settle.eq_def] at h
  split at h
  · rename_i hprice
    obtain ⟨liquidity, hliquidity, hafter⟩ := bind_eq_ok_iff.1 h
    cases hafter
    exact .crosses liquidity hprice hliquidity
  · rename_i hprice
    split at h
    · rename_i hbegan
      cases h
      exact .rests hprice hbegan
    · rename_i hbegan
      obtain ⟨tick, htick, hafter⟩ := bind_eq_ok_iff.1 h
      cases hafter
      exact .pauses tick hprice hbegan htick

/-- A finished step: the stop it went towards, the step that was traded, and how it was settled. -/
structure Advances (cursor : Cursor) (market : Market) (order : Order) (leg : Leg) : Prop where
  search : market.source.nextWithinWord market.source.spacing order.direction cursor.tick =
    .ok leg.next
  inRange : leg.next.index.InRange
  step : swapStep cursor.price (order.target leg.next.index.roundedRatio) cursor.liquidity
    cursor.remaining market.fee = .ok leg.step
  settles : (cursor.trade leg.step).Settles market.source order.direction leg.next
    leg.next.index.roundedRatio cursor.price leg.after

theorem nextStep_eq_ok_iff {step : SwapStep} :
    cursor.nextStep market order = .ok (next, nextPrice, step) ↔
      market.source.nextWithinWord market.source.spacing order.direction cursor.tick = .ok next ∧
        next.index.InRange ∧ next.index.roundedRatio = nextPrice ∧
        swapStep cursor.price (order.target nextPrice) cursor.liquidity cursor.remaining market.fee =
          .ok step := by
  simp only [nextStep, bind_eq_ok_iff, TickIndex.sqrtPrice_eq_ok_iff, Except.ok.injEq, Prod.mk.injEq]
  constructor
  · rintro ⟨next', hnext, price', ⟨hrange, hprice⟩, step', hstep, rfl, rfl, rfl⟩
    exact ⟨hnext, hrange, hprice, hstep⟩
  · rintro ⟨hnext, hrange, hprice, hstep⟩
    exact ⟨next, hnext, nextPrice, ⟨hrange, hprice⟩, step, hstep, rfl, rfl, rfl⟩

theorem advances_of_advance (h : cursor.advance market order = (after, .ok leg)) :
    leg.after = after ∧ cursor.Advances market order leg := by
  rw [advance] at h
  split at h
  · cases h
  · rename_i next nextPrice step hnext
    obtain ⟨hsearch, hrange, rfl, hstep⟩ := nextStep_eq_ok_iff.1 hnext
    dsimp only at h
    split at h
    · cases h
    · rename_i settled hsettle
      cases h
      exact ⟨rfl, hsearch, hrange, hstep, settles_of_settle hsettle⟩

theorem unsettled_of_advance (h : cursor.advance market order = (left, .error cause)) :
    (left = cursor ∧ cursor.nextStep market order = .error cause) ∨ ∃ next step,
      market.source.nextWithinWord market.source.spacing order.direction cursor.tick = .ok next ∧
        next.index.InRange ∧
        swapStep cursor.price (order.target next.index.roundedRatio) cursor.liquidity
          cursor.remaining market.fee = .ok step ∧
        left = cursor.trade step ∧
        left.settle market.source order.direction next next.index.roundedRatio cursor.price =
          .error cause := by
  rw [advance] at h
  split at h
  · rename_i failure hnext
    cases h
    exact Or.inl ⟨rfl, hnext⟩
  · rename_i next nextPrice step hnext
    obtain ⟨hsearch, hrange, rfl, hstep⟩ := nextStep_eq_ok_iff.1 hnext
    dsimp only at h
    split at h
    · rename_i failure hsettle
      cases h
      exact Or.inr ⟨next, step, hsearch, hrange, hstep, rfl, hsettle⟩
    · cases h

/-! ### The way of a step -/

section Way

variable {step : SwapStep} (hconsistent : cursor.toPool.Consistent)
  (hlimit : order.LimitAhead cursor.price)
  (hsearch : market.source.nextWithinWord market.source.spacing order.direction cursor.tick =
    .ok next)
  (hrange : next.index.InRange)
  (hstep : swapStep cursor.price (order.target next.index.roundedRatio) cursor.liquidity
    cursor.remaining market.fee = .ok step)

include hconsistent hsearch hrange

theorem leads_nextPrice : order.direction.Leads cursor.price next.index.roundedRatio := by
  cases hdirection : order.direction with
  | down =>
    rw [hdirection] at hsearch
    exact hconsistent.ratio_le _ hrange (TickSource.stopsBelow hsearch).le
  | up =>
    rw [hdirection] at hsearch
    exact hconsistent.le_ratio _ hrange (TickSource.stopsAbove hsearch).lt

include hlimit hstep

/-- A step goes in the direction of its order, not past the next price and not past the limit. -/
theorem leads_step : order.direction.Leads cursor.price step.price ∧
    order.direction.Leads step.price next.index.roundedRatio ∧ order.LimitAhead step.price := by
  have hnext := leads_nextPrice hconsistent hsearch hrange
  obtain ⟨htarget, hbefore, hahead⟩ := Order.leads_target hlimit hnext
  obtain ⟨hstart, hfinish⟩ := htarget.of_onPath (swapStep_onPath hstep)
  exact ⟨hstart, hfinish.trans hbefore, fun limit h => hfinish.trans (hahead limit h)⟩

theorem exists_tick_of_pause (hprice : step.price ≠ next.index.roundedRatio)
    (hbegan : step.price ≠ cursor.price) : ∃ tick, step.price.tick = .ok tick := by
  obtain ⟨hstart, hfinish, -⟩ := leads_step hconsistent hlimit hsearch hrange hstep
  have hbounds := TickIndex.roundedRatio_bounds hrange
  have hrangePrice : SqrtPrice.lowest ≤ step.price ∧ step.price < SqrtPrice.highest := by
    cases hdirection : order.direction with
    | down =>
      rw [hdirection] at hstart hfinish
      have hmoved : step.price < cursor.price := BitVec.lt_of_le_ne hstart hbegan
      exact ⟨BitVec.le_trans hbounds.1 hfinish,
        Nat.lt_of_lt_of_le (BitVec.lt_def.1 hmoved) (BitVec.le_def.1 hconsistent.le_highest)⟩
    | up =>
      rw [hdirection] at hstart hfinish
      have hshort : step.price < next.index.roundedRatio := BitVec.lt_of_le_ne hfinish hprice
      exact ⟨BitVec.le_trans hconsistent.lowest_le hstart,
        Nat.lt_of_lt_of_le (BitVec.lt_def.1 hshort) (BitVec.le_def.1 hbounds.2)⟩
  obtain ⟨tick, htick, -⟩ := SqrtPrice.tick_brackets hrangePrice.1 hrangePrice.2
  exact ⟨tick, htick⟩

/-- The tick found again on the way lies on the same side of every listed tick as the one before. -/
theorem le_tick_iff_of_pause (hprice : step.price ≠ next.index.roundedRatio)
    (hbegan : step.price ≠ cursor.price) {tick : TickIndex} (htick : step.price.tick = .ok tick)
    {other : Tick} (hmem : other ∈ market.source.tickList.ticks) (hother : other.index.InRange) :
    other.index ≤ cursor.tick ↔ other.index ≤ tick := by
  obtain ⟨hstart, hfinish, -⟩ := leads_step hconsistent hlimit hsearch hrange hstep
  have hbrackets := (SqrtPrice.brackets_of_tick htick).2.2
  rw [← hbrackets.roundedRatio_le_iff hother]
  cases hdirection : order.direction with
  | down =>
    rw [hdirection] at hsearch hstart hfinish
    have hstops := TickSource.stopsBelow hsearch
    constructor
    · intro hle
      exact BitVec.le_trans (TickIndex.roundedRatio_le_roundedRatio hother hrange
        (hstops.skips_none other hmem hle)) hfinish
    · intro hle
      by_contra hgt
      -- No tick above the index has a price below the one the step began at, and it moved down.
      have hmoved : step.price < cursor.price := BitVec.lt_of_le_ne hstart hbegan
      have habove := hconsistent.le_ratio _ hother (Int32.not_le.1 hgt)
      exact BitVec.not_lt.2 (BitVec.le_trans habove hle) hmoved
  | up =>
    rw [hdirection] at hsearch hstart hfinish
    have hstops := TickSource.stopsAbove hsearch
    constructor
    · intro hle
      exact BitVec.le_trans (hconsistent.ratio_le _ hother hle) hstart
    · intro hle
      by_contra hgt
      -- The search skipped no tick, so the tick is not before the stop, which the step fell short of.
      have hshort : step.price < next.index.roundedRatio := BitVec.lt_of_le_ne hfinish hprice
      have habove := TickIndex.roundedRatio_le_roundedRatio hrange hother
        (hstops.skips_none other hmem (Int32.not_le.1 hgt))
      exact BitVec.not_lt.2 (BitVec.le_trans habove hle) hshort

end Way

/-! ### What a step keeps -/

theorem Settles.price_eq (h : cursor.Settles source direction next nextPrice began after) :
    after.price = cursor.price := by
  cases h <;> rfl

theorem Advances.price_eq (h : cursor.Advances market order leg) :
    leg.after.price = leg.step.price := h.settles.price_eq

theorem Advances.consistent (h : cursor.Advances market order leg)
    (hconsistent : cursor.toPool.Consistent) : leg.after.toPool.Consistent := by
  have hsettles := h.settles
  generalize leg.after = after at hsettles ⊢
  cases hsettles with
  | crosses liquidity hprice hliquidity =>
    refine Pool.consistent_of_price_eq h.inRange ?_ ?_
    · exact hprice
    · exact NextTick.tickPast_bounds h.inRange.1 order.direction
  | rests hprice hbegan => exact hconsistent.congr hbegan rfl
  | pauses tick hprice hbegan htick => exact Pool.consistent_of_price_tick htick

theorem Advances.limitAhead (h : cursor.Advances market order leg)
    (hconsistent : cursor.toPool.Consistent) (hlimit : order.LimitAhead cursor.price) :
    order.LimitAhead leg.after.price := by
  rw [h.settles.price_eq]
  exact (leads_step hconsistent hlimit h.search h.inRange h.step).2.2

/-! ### What can go wrong once a step is traded -/

theorem liquidityPast_eq_error {stop : TickIndex} (hsearch : source.nextWithinWord source.spacing
    direction stop = .ok next) (h : cursor.liquidityPast source direction next = .error cause) :
    cause = .liquidityOverflow ∨ cause = .liquidityUnderflow := by
  rw [liquidityPast] at h
  split at h
  · rename_i hinitialized
    have hlisted := (TickSource.initialized_iff hsearch).1 hinitialized
    obtain ⟨tick, -, hfind, -⟩ := Ticks.exists_find_eq_ok source.tickList.sorted hlisted
    rcases bind_eq_error_iff.1 h with hnone | ⟨found, -, hchange⟩
    · rw [TickSource.find, hfind] at hnone
      cases hnone
    · exact Liquidity.applyChange_eq_error hchange
  · cases h

/-- A step that was traded is not settled because the change of liquidity at the next price does not fit, or because the price it left on the way has no tick. -/
theorem settle_eq_error (h : cursor.settle source direction next nextPrice began = .error cause) :
    (cursor.price = nextPrice ∧ cursor.liquidityPast source direction next = .error cause) ∨
      (cursor.price ≠ nextPrice ∧ cursor.price ≠ began ∧ cursor.price.tick = .error cause) := by
  rw [settle.eq_def] at h
  split at h
  · rename_i hprice
    rcases bind_eq_error_iff.1 h with hliquidity | ⟨_, _, hafter⟩
    · exact Or.inl ⟨hprice, hliquidity⟩
    · cases hafter
  · rename_i hprice
    split at h
    · cases h
    · rename_i hbegan
      rcases bind_eq_error_iff.1 h with htick | ⟨_, _, hafter⟩
      · exact Or.inr ⟨hprice, hbegan, htick⟩
      · cases hafter

theorem left_eq_of_advance (hconsistent : cursor.toPool.Consistent)
    (hlimit : order.LimitAhead cursor.price)
    (h : cursor.advance market order = (left, .error cause)) :
    left = cursor ∨ cause = .liquidityOverflow ∨ cause = .liquidityUnderflow := by
  rcases unsettled_of_advance h with ⟨hleft, -⟩ | ⟨next, step, hsearch, hrange, hstep, rfl, hsettle⟩
  · exact Or.inl hleft
  · right
    rcases settle_eq_error hsettle with ⟨-, hliquidity⟩ | ⟨hprice, hbegan, hnone⟩
    · exact liquidityPast_eq_error hsearch hliquidity
    · obtain ⟨tick, htick⟩ :=
        exists_tick_of_pause hconsistent hlimit hsearch hrange hstep hprice hbegan
      cases hnone.symm.trans htick

end Cursor

end ConcentratedLiquidity
