import ConcentratedLiquidity.Proofs.Swap.Advance
import ConcentratedLiquidity.Swap.Quote

/-!
# Runs of one order

The steps that a quote records are a run of its order: each is a finished step, and before each the order was still open. A run asks nothing of the pool it begins in, so that what holds of every quote from every state is an induction over `Cursor.Run`. A quote ends where its run does, unless its last step failed.
-/

namespace ConcentratedLiquidity

namespace Order

variable {order : Order} {cursor : Cursor}

theorem stopAt_eq_none_iff :
    order.stopAt cursor = none ↔ cursor.remaining ≠ 0 ∧ order.limit ≠ some cursor.price := by
  rw [stopAt]
  by_cases hremaining : cursor.remaining = 0
  · simp [hremaining]
  · by_cases hlimit : order.limit = some cursor.price
    · simp [hremaining, hlimit]
    · simp [hremaining, hlimit]

theorem done_or_limit_of_stopAt {stop : Stop} (h : order.stopAt cursor = some stop) :
    stop = .done ∨ stop = .limit := by
  rw [stopAt] at h
  split at h
  · exact Or.inl (Option.some.inj h).symm
  · split at h
    · exact Or.inr (Option.some.inj h).symm
    · cases h

theorem stopAt_ne_maxSteps {stop : Stop} (h : order.stopAt cursor = some stop) : stop ≠ .maxSteps := by
  rintro rfl
  rcases done_or_limit_of_stopAt h with h | h <;> cases h

theorem stopAt_ne_failed {stop : Stop} (h : order.stopAt cursor = some stop) (cause : Error) :
    stop ≠ .failed cause := by
  rintro rfl
  rcases done_or_limit_of_stopAt h with h | h <;> cases h

end Order

/-- The pool that the last of some steps leaves, or the one before them. -/
def Pool.afterLegs (pool : Pool) : List Leg → Pool
  | [] => pool
  | leg :: legs => leg.after.toPool.afterLegs legs

theorem Pool.afterLegs_append (pool : Pool) (legs more : List Leg) :
    pool.afterLegs (legs ++ more) = (pool.afterLegs legs).afterLegs more := by
  induction legs generalizing pool with
  | nil => rfl
  | cons leg legs ih => exact ih leg.after.toPool

namespace Leg

variable {amount : SwapStep → Word} {leg : Leg} {legs more : List Leg}

def total (amount : SwapStep → Word) (legs : List Leg) : Nat :=
  (legs.map fun leg => (amount leg.step).toNat).sum

@[simp] theorem total_nil : total amount [] = 0 := rfl

@[simp] theorem total_cons : total amount (leg :: legs) = (amount leg.step).toNat + total amount legs :=
  List.sum_cons

end Leg

namespace Cursor

variable {cursor middle last : Cursor} {market : Market} {order : Order} {leg : Leg}
  {legs more : List Leg}

/-- Finished steps of an order, taken one after the other while it was open. -/
inductive Run (market : Market) (order : Order) : Cursor → List Leg → Cursor → Prop
  | stay (cursor : Cursor) : Run market order cursor [] cursor
  | step {cursor : Cursor} {leg : Leg} {legs : List Leg} {last : Cursor}
      (hopen : order.stopAt cursor = none) (hadvances : cursor.Advances market order leg)
      (hrest : Run market order leg.after legs last) : Run market order cursor (leg :: legs) last

section

variable (steps : Nat)

theorem follow_of_stopAt {stop : Stop} (hstop : order.stopAt cursor = some stop) :
    follow market order steps cursor = { legs := [], stop, final := cursor } := by
  cases steps with
  | zero => rw [follow, hstop, Option.getD_some]
  | succ steps => rw [follow, hstop]

theorem follow_of_error {left : Cursor} {cause : Error} (hopen : order.stopAt cursor = none)
    (hadvance : cursor.advance market order = (left, .error cause)) :
    follow market order (steps + 1) cursor =
      { legs := [], stop := .failed cause, final := left } := by
  rw [follow, hopen, hadvance]

theorem follow_of_ok {after : Cursor} (hopen : order.stopAt cursor = none)
    (hadvance : cursor.advance market order = (after, .ok leg)) :
    follow market order (steps + 1) cursor =
      { follow market order steps after with
        legs := leg :: (follow market order steps after).legs } := by
  rw [follow, hopen, hadvance]

end

/-- The steps of a quote are a run. The quote ends where it does, or in a step that failed there. -/
theorem run_follow (cursor : Cursor) (market : Market) (order : Order) (steps : Nat) :
    ∃ last, Run market order cursor (follow market order steps cursor).legs last ∧
      ((follow market order steps cursor).final = last ∧
          (∀ cause, (follow market order steps cursor).stop ≠ .failed cause) ∨
        ∃ cause, (follow market order steps cursor).stop = .failed cause ∧
          last.advance market order =
            ((follow market order steps cursor).final, .error cause)) := by
  induction steps generalizing cursor with
  | zero =>
    refine ⟨cursor, .stay cursor, Or.inl ⟨rfl, fun cause => ?_⟩⟩
    cases hstop : order.stopAt cursor with
    | some stop =>
      rw [follow_of_stopAt _ hstop]
      exact Order.stopAt_ne_failed hstop cause
    | none =>
      rw [follow, hstop]
      exact Stop.noConfusion
  | succ steps ih =>
    cases hstop : order.stopAt cursor with
    | some stop =>
      rw [follow_of_stopAt _ hstop]
      exact ⟨cursor, .stay cursor, Or.inl ⟨rfl, Order.stopAt_ne_failed hstop⟩⟩
    | none =>
      cases hadvance : cursor.advance market order with
      | mk left outcome =>
        cases outcome with
        | error cause =>
          rw [follow_of_error _ hstop hadvance]
          exact ⟨cursor, .stay cursor, Or.inr ⟨cause, rfl, hadvance⟩⟩
        | ok leg =>
          obtain ⟨rfl, hadvances⟩ := advances_of_advance hadvance
          obtain ⟨last, hrun, hend⟩ := ih leg.after
          rw [follow_of_ok _ hstop hadvance]
          exact ⟨last, .step hstop hadvances hrun, hend⟩

namespace Run

theorem append (hfirst : Run market order cursor legs middle)
    (hsecond : Run market order middle more last) : Run market order cursor (legs ++ more) last := by
  induction hfirst with
  | stay cursor => exact hsecond
  | step hopen hadvances _ ih => exact step hopen hadvances (ih hsecond)

theorem exists_before (hrun : Run market order cursor (legs ++ leg :: more) last) :
    ∃ middle, Run market order cursor legs middle ∧ order.stopAt middle = none ∧
      middle.Advances market order leg := by
  induction legs generalizing cursor with
  | nil =>
    cases hrun with
    | step hopen hadvances hrest => exact ⟨cursor, .stay cursor, hopen, hadvances⟩
  | cons first legs ih =>
    cases hrun with
    | step hopen hadvances hrest =>
      obtain ⟨middle, hbefore, hthen⟩ := ih hrest
      exact ⟨middle, .step hopen hadvances hbefore, hthen⟩

theorem through (hrun : Run market order cursor (legs ++ leg :: more) last) :
    Run market order cursor (legs ++ [leg]) leg.after := by
  obtain ⟨middle, hbefore, hopen, hadvances⟩ := hrun.exists_before
  exact hbefore.append (.step hopen hadvances (.stay leg.after))

theorem afterLegs_eq (hrun : Run market order cursor legs last) :
    cursor.toPool.afterLegs legs = last.toPool := by
  induction hrun with
  | stay cursor => rfl
  | step _ _ _ ih => exact ih

/-- Price and tick of the pool agree after a run if they did before, wherever the limit lies. -/
theorem last_consistent (hrun : Run market order cursor legs last)
    (hconsistent : cursor.toPool.Consistent) : last.toPool.Consistent := by
  induction hrun with
  | stay cursor => exact hconsistent
  | step _ hadvances _ ih => exact ih (hadvances.consistent hconsistent)

theorem consistent (hrun : Run market order cursor legs last) (hconsistent : cursor.toPool.Consistent)
    (hlimit : order.LimitAhead cursor.price) :
    last.toPool.Consistent ∧ order.LimitAhead last.price := by
  induction hrun with
  | stay cursor => exact ⟨hconsistent, hlimit⟩
  | step hopen hadvances _ ih =>
    exact ih (hadvances.consistent hconsistent) (hadvances.limitAhead hconsistent hlimit)

end Run

end Cursor

theorem Pool.exists_run_of_quote {pool : Pool} {market : Market} {stepLimit : Nat} {order : Order}
    {legs : List Leg} (hlegs : (pool.quote market stepLimit order).legs = legs) :
    ∃ last, Cursor.Run market order (Cursor.start pool order) legs last := by
  obtain ⟨last, hrun, -⟩ := Cursor.run_follow (Cursor.start pool order) market order stepLimit
  rw [← hlegs]
  exact ⟨last, hrun⟩

/-! ### A market to run in -/

/-- Liquidity from tick -120 to tick 240, and as much again from tick 120 on. -/
def TickList.sample : TickList :=
  ⟨#[⟨-120, 10 ^ 18, ⟨10 ^ 18⟩⟩, ⟨120, 2 * 10 ^ 18, ⟨10 ^ 18⟩⟩, ⟨240, 2 * 10 ^ 18, ⟨-2 * 10 ^ 18⟩⟩], 60,
    by decide +kernel⟩

def Market.sample : Market := ⟨.list .sample, 3000⟩

def Pool.sample : Pool := ⟨.one, 0, 10 ^ 18⟩

end ConcentratedLiquidity
