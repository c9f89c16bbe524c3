import ConcentratedLiquidity.Proofs.Swap.Remaining
import ConcentratedLiquidity.Proofs.Tick.Sweep

/-!
# Progress of a trade

A step may leave the price where it was: where there is no liquidity over an empty range, where rounding takes the whole input, where the fee does. The price is therefore no measure of progress. But a step that does not end its trade, by using up the order or by reaching the limit, ends at the price of the stop it went towards, and its tick then passes that stop. There are only so many ticks, and so a trade ends by itself, whatever the number of steps it is allowed.
-/

namespace ConcentratedLiquidity

inductive Leg.Progress (order : Order) (tick : TickIndex) (leg : Leg) : Prop
  | usesUp (hremaining : leg.after.remaining = 0)
  | reachesLimit (hlimit : order.limit = some leg.after.price)
  | passes (hprice : leg.next.index.sqrtPrice = .ok leg.after.price)
      (htick : order.direction.Passes tick leg.after.tick)

theorem Order.target_eq_or (order : Order) (nextPrice : SqrtPrice) :
    order.target nextPrice = nextPrice ∨ order.limit = some (order.target nextPrice) := by
  obtain ⟨amount, direction, limit⟩ := order
  rcases limit with - | limit
  · exact Or.inl rfl
  · rw [target]
    cases direction with
    | down =>
      dsimp only
      split
      · exact Or.inr rfl
      · exact Or.inl rfl
    | up =>
      dsimp only
      split
      · exact Or.inr rfl
      · exact Or.inl rfl

namespace Cursor

variable {cursor : Cursor} {market : Market} {order : Order} {leg : Leg}

/-! ### One step -/

theorem Advances.tick_eq_tickPast (h : cursor.Advances market order leg)
    (hprice : leg.after.price = leg.next.index.roundedRatio) :
    leg.after.tick = leg.next.tickPast order.direction := by
  have hsettles := h.settles
  generalize leg.after = after at hsettles hprice ⊢
  cases hsettles with
  | crosses => rfl
  | rests hshort => exact absurd hprice hshort
  | pauses tick hshort => exact absurd hprice hshort

theorem Advances.passes_tickPast (h : cursor.Advances market order leg) :
    order.direction.Passes cursor.tick (leg.next.tickPast order.direction) :=
  NextTick.passes_tickPast (fun _ => h.inRange.1) (TickSource.seeks_next h.search)

theorem Advances.progress (h : cursor.Advances market order leg) :
    leg.Progress order cursor.tick := by
  by_cases hshort : leg.step.price ≠ order.target leg.next.index.roundedRatio
  · exact .usesUp (h.remaining_eq.trans (SwapStep.remainingOf_eq_zero h.step hshort))
  have hreached := h.price_eq.trans (Decidable.not_not.1 hshort)
  rcases order.target_eq_or leg.next.index.roundedRatio with hnext | hlimit
  · have hprice := hreached.trans hnext
    refine .passes ?_ ?_
    · rw [hprice]
      exact TickIndex.sqrtPrice_eq_ok h.inRange
    · rw [h.tick_eq_tickPast hprice]
      exact h.passes_tickPast
  · exact .reachesLimit (hlimit.trans (congrArg some hreached.symm))

theorem Advances.ends_or_nears (h : cursor.Advances market order leg) :
    order.stopAt leg.after ≠ none ∨
      order.direction.ticksAhead leg.after.tick < order.direction.ticksAhead cursor.tick := by
  cases h.progress with
  | usesUp hremaining =>
    exact Or.inl fun hopen => (Order.stopAt_eq_none_iff.1 hopen).1 hremaining
  | reachesLimit hlimit =>
    exact Or.inl fun hopen => (Order.stopAt_eq_none_iff.1 hopen).2 hlimit
  | passes hprice htick =>
    have htickPast := h.tick_eq_tickPast (TickIndex.sqrtPrice_eq_ok_iff.1 hprice).2.symm
    rw [htickPast] at htick ⊢
    exact Or.inr (Direction.ticksAhead_lt (TickSource.seeks_next h.search) h.inRange htick)

/-! ### The whole trade -/

/-- With more steps than there are places left, a trade ends for a reason of its own, and still more steps change nothing. -/
theorem follow_ends (cursor : Cursor) (market : Market) (order : Order) (steps : Nat)
    (h : order.stopAt cursor ≠ none ∨ order.direction.ticksAhead cursor.tick < steps) :
    (follow market order steps cursor).stop ≠ .maxSteps ∧
      ∀ more, follow market order (steps + more) cursor = follow market order steps cursor := by
  induction steps generalizing cursor with
  | zero =>
    obtain ⟨stop, hstop⟩ := Option.ne_none_iff_exists'.1 (h.resolve_right (Nat.not_lt_zero _))
    rw [follow_of_stopAt _ hstop]
    exact ⟨Order.stopAt_ne_maxSteps hstop, fun more => follow_of_stopAt (0 + more) hstop⟩
  | succ steps ih =>
    cases hstop : order.stopAt cursor with
    | some stop =>
      rw [follow_of_stopAt _ hstop]
      exact ⟨Order.stopAt_ne_maxSteps hstop, fun more => follow_of_stopAt (steps + 1 + more) hstop⟩
    | none =>
      have hahead := h.resolve_left fun hne => hne hstop
      cases hadvance : cursor.advance market order with
      | mk left outcome =>
        cases outcome with
        | error cause =>
          refine ⟨?_, fun more => ?_⟩
          · rw [follow_of_error _ hstop hadvance]
            exact Stop.noConfusion
          · rw [Nat.add_right_comm, follow_of_error _ hstop hadvance, follow_of_error _ hstop hadvance]
        | ok leg =>
          obtain ⟨rfl, hadvances⟩ := advances_of_advance hadvance
          have hnear : order.stopAt leg.after ≠ none ∨
              order.direction.ticksAhead leg.after.tick < steps :=
            hadvances.ends_or_nears.imp_right fun hlt => by omega
          obtain ⟨hends, hsame⟩ := ih leg.after hnear
          refine ⟨?_, fun more => ?_⟩
          · rw [follow_of_ok _ hstop hadvance]
            exact hends
          · rw [Nat.add_right_comm, follow_of_ok _ hstop hadvance, follow_of_ok _ hstop hadvance,
              hsame more]

end Cursor

namespace Pool

/-- Every step that a quote records uses up the order, reaches the limit, or moves the tick past the stop whose price it reached. A quote that is allowed more steps than the tick has places left ends for a reason of its own, and as it would without a bound. -/
theorem quote_progresses_until_it_ends (pool : Pool) (market : Market) (order : Order) :
    (∀ stepLimit earlier leg later,
      (pool.quote market stepLimit order).legs = earlier ++ leg :: later →
        leg.Progress order (pool.afterLegs earlier).tick) ∧
      ∀ more,
        pool.quote market (order.direction.ticksAhead pool.tick + 1 + more) order =
          pool.quote market (order.direction.ticksAhead pool.tick + 1) order ∧
        (pool.quote market (order.direction.ticksAhead pool.tick + 1 + more) order).stop ≠
          .maxSteps := by
  refine ⟨fun stepLimit earlier leg later hlegs => ?_, fun more => ?_⟩
  · obtain ⟨last, hrun⟩ := exists_run_of_quote hlegs
    obtain ⟨before, hbefore, -, hadvances⟩ := hrun.exists_before
    have htick : (pool.afterLegs earlier).tick = before.tick :=
      congrArg Pool.tick hbefore.afterLegs_eq
    rw [htick]
    exact hadvances.progress
  · obtain ⟨hends, hsame⟩ := Cursor.follow_ends (Cursor.start pool order) market order
      (order.direction.ticksAhead pool.tick + 1) (Or.inr (Nat.lt_succ_self _))
    rw [quote, quote, hsame more]
    exact ⟨rfl, hends⟩

/-- A trade up through all ticks, with one step and with as many as there are places. -/
theorem quote_progresses_past_every_tick :
    let order : Order := ⟨⟨2 ^ 255 - 1⟩, .up, none⟩
    (sample.quote .sample 1 order).stop = .maxSteps ∧
      (sample.quote .sample (Direction.up.ticksAhead 0 + 1) order).stop ≠ .maxSteps ∧
      ∃ first second, (sample.quote .sample 40 order).legs = [first] ++ second :: [] ∧
        second.Progress order first.after.tick := by
  intro order
  obtain ⟨hsteps, hends⟩ := quote_progresses_until_it_ends sample .sample order
  have hlength : (sample.quote .sample 40 order).legs.length = 2 := by decide +kernel
  obtain ⟨first, second, hlegs⟩ := List.length_eq_two.1 hlength
  exact ⟨by decide +kernel, (hends 0).2, first, second, hlegs, hsteps 40 [first] second [] hlegs⟩

end Pool

end ConcentratedLiquidity
