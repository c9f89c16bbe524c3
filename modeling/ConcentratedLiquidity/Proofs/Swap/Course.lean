import ConcentratedLiquidity.Proofs.Swap.Run

/-!
# Courses of trades

The steps that quotes record follow one another, also from one quote to the next. `Pool.Course` is such a sequence of steps, of whatever orders: the runs of single orders, one after the other. What holds of every sequence of quotes is proved by induction over it. A quote whose last step failed still leaves the pool that its last recorded step left, unless the step was traded and its change of liquidity did not fit.
-/

namespace ConcentratedLiquidity

namespace Pool

variable {market : Market} {pool middle last : Pool} {legs more : List Leg}

/-- Steps that are taken one after the other, each for an order whose limit lies ahead. -/
inductive Course (market : Market) : Pool → List Leg → Pool → Prop
  | stay (pool : Pool) : Course market pool [] pool
  | step {cursor : Cursor} {order : Order} {leg : Leg} {legs : List Leg} {last : Pool}
      (hlimit : order.LimitAhead cursor.price) (hadvances : cursor.Advances market order leg)
      (hrest : Course market leg.after.toPool legs last) :
      Course market cursor.toPool (leg :: legs) last

namespace Course

theorem append (hfirst : Course market pool legs middle) (hsecond : Course market middle more last) :
    Course market pool (legs ++ more) last := by
  induction hfirst with
  | stay pool => exact hsecond
  | step hlimit hadvances _ ih => exact step hlimit hadvances (ih hsecond)

theorem consistent (hcourse : Course market pool legs last) (hconsistent : pool.Consistent) :
    last.Consistent := by
  induction hcourse with
  | stay pool => exact hconsistent
  | step hlimit hadvances _ ih => exact ih (hadvances.consistent hconsistent)

theorem afterLegs_eq (hcourse : Course market pool legs last) : pool.afterLegs legs = last := by
  induction hcourse with
  | stay pool => rfl
  | step _ _ _ ih => exact ih

end Course

end Pool

def Quote.LiquidityFailed (quote : Quote) : Prop :=
  quote.stop = .failed .liquidityOverflow ∨ quote.stop = .failed .liquidityUnderflow

instance (quote : Quote) : Decidable quote.LiquidityFailed :=
  inferInstanceAs (Decidable (_ ∨ _))

namespace Cursor

variable {cursor last : Cursor} {market : Market} {order : Order} {legs : List Leg}

theorem Run.course (hrun : Run market order cursor legs last) (hconsistent : cursor.toPool.Consistent)
    (hlimit : order.LimitAhead cursor.price) :
    Pool.Course market cursor.toPool legs last.toPool := by
  induction hrun with
  | stay cursor => exact .stay _
  | step hopen hadvances _ ih =>
    exact .step hlimit hadvances
      (ih (hadvances.consistent hconsistent) (hadvances.limitAhead hconsistent hlimit))

/-- Where price and tick agree, a quote ends where its run does, unless a change of liquidity did not fit. -/
theorem run_follow_of_consistent (cursor : Cursor) (market : Market) (steps : Nat) {order : Order}
    (hconsistent : cursor.toPool.Consistent) (hlimit : order.LimitAhead cursor.price) :
    ∃ last, Run market order cursor (follow market order steps cursor).legs last ∧
      ((follow market order steps cursor).LiquidityFailed ∨
        (follow market order steps cursor).final = last) := by
  obtain ⟨last, hrun, hend⟩ := run_follow cursor market order steps
  refine ⟨last, hrun, ?_⟩
  rcases hend with ⟨hfinal, -⟩ | ⟨cause, hstop, hadvance⟩
  · exact Or.inr hfinal
  · obtain ⟨hkept, hahead⟩ := hrun.consistent hconsistent hlimit
    rcases left_eq_of_advance hkept hahead hadvance with hleft | rfl | rfl
    · exact Or.inr hleft
    · exact Or.inl (Or.inl hstop)
    · exact Or.inl (Or.inr hstop)

theorem course_follow (cursor : Cursor) (market : Market) (steps : Nat) {order : Order}
    (hconsistent : cursor.toPool.Consistent) (hlimit : order.LimitAhead cursor.price) :
    ∃ last, Pool.Course market cursor.toPool (follow market order steps cursor).legs last ∧
      ((follow market order steps cursor).LiquidityFailed ∨
        (follow market order steps cursor).final.toPool = last) := by
  obtain ⟨last, hrun, hend⟩ := run_follow_of_consistent cursor market steps hconsistent hlimit
  refine ⟨last.toPool, hrun.course hconsistent hlimit, ?_⟩
  rcases hend with hfailed | hfinal
  · exact Or.inl hfailed
  · exact Or.inr (congrArg Cursor.toPool hfinal)

end Cursor

namespace Pool

variable {market : Market} {pool : Pool} {stepLimit : Nat} {orders : List Order}
  {earlier later : List Quote} {quote : Quote}

/-- The limits of orders that are traded one after the other lie ahead, each of the price that the orders before it leave. -/
def LimitsAhead (market : Market) (stepLimit : Nat) : Pool → List Order → Prop
  | _, [] => True
  | pool, order :: orders =>
    order.LimitAhead pool.price ∧
      LimitsAhead market stepLimit (pool.quote market stepLimit order).final.toPool orders

theorem course_quote (market : Market) (stepLimit : Nat) {order : Order}
    (hconsistent : pool.Consistent) (hlimit : order.LimitAhead pool.price) :
    ∃ last, Course market pool (pool.quote market stepLimit order).legs last ∧
      ((pool.quote market stepLimit order).LiquidityFailed ∨
        (pool.quote market stepLimit order).final.toPool = last) :=
  (Cursor.start pool order).course_follow market stepLimit hconsistent hlimit

theorem run_quote (hconsistent : pool.Consistent) {order : Order} (hlimit : order.LimitAhead pool.price)
    (hquote : ¬(pool.quote market stepLimit order).LiquidityFailed) :
    Cursor.Run market order (Cursor.start pool order) (pool.quote market stepLimit order).legs
      (pool.quote market stepLimit order).final := by
  obtain ⟨last, hrun, hend⟩ :=
    (Cursor.start pool order).run_follow_of_consistent market stepLimit hconsistent hlimit
  rw [quote] at hquote ⊢
  rw [hend.resolve_left hquote]
  exact hrun

/-- A quote that was reached without a failed change of liquidity is that of its order, in the pool that the quotes before it leave. -/
theorem exists_order_of_quotes (hconsistent : pool.Consistent)
    (hlimits : LimitsAhead market stepLimit pool orders)
    (hquotes : pool.quotes market stepLimit orders = earlier ++ quote :: later)
    (hearlier : ∀ other ∈ earlier, ¬other.LiquidityFailed) :
    ∃ order start, orders[earlier.length]? = some order ∧
      Course market pool (earlier.flatMap Quote.legs) start ∧ order.LimitAhead start.price ∧
      quote = start.quote market stepLimit order := by
  induction earlier generalizing pool orders with
  | nil =>
    cases orders with
    | nil => cases hquotes
    | cons order orders =>
      cases hquotes
      exact ⟨order, pool, rfl, .stay pool, hlimits.1, rfl⟩
  | cons first earlier ih =>
    cases orders with
    | nil => cases hquotes
    | cons order orders =>
      obtain ⟨rfl, hrest⟩ := List.cons.inj hquotes
      obtain ⟨middle, hfirst, hfailed | rfl⟩ :=
        course_quote market stepLimit hconsistent hlimits.1
      · exact absurd hfailed (hearlier _ List.mem_cons_self)
      · obtain ⟨reached, start, horder, hsecond, hlimit, hquote⟩ :=
          ih (hfirst.consistent hconsistent) hlimits.2 hrest
            fun other hother => hearlier other (List.mem_cons_of_mem _ hother)
        exact ⟨reached, start, horder, hfirst.append hsecond, hlimit, hquote⟩

theorem course_quotes (hconsistent : pool.Consistent)
    (hlimits : LimitsAhead market stepLimit pool orders)
    (hquotes : pool.quotes market stepLimit orders = earlier ++ quote :: later)
    (hearlier : ∀ other ∈ earlier, ¬other.LiquidityFailed) :
    ∃ last, Course market pool ((earlier ++ [quote]).flatMap Quote.legs) last := by
  obtain ⟨order, start, -, hcourse, hlimit, rfl⟩ :=
    exists_order_of_quotes hconsistent hlimits hquotes hearlier
  obtain ⟨last, hthen, -⟩ :=
    course_quote market stepLimit (hcourse.consistent hconsistent) hlimit
  refine ⟨last, ?_⟩
  rw [List.flatMap_append, List.flatMap_singleton]
  exact hcourse.append hthen

end Pool

end ConcentratedLiquidity
