import ConcentratedLiquidity.Swap.Pool

/-!
# Trades under way

A cursor is a pool during a trade. One step moves its price towards the next tick of the same grid word, the edge of that word, or the limit of the order, whichever comes first. Reaching an initialized tick changes the liquidity in range.

A step is traded first and settled afterwards. When settling fails, the price and the amount traded stay as the step left them, and only the tick and the liquidity are as before.
-/

namespace ConcentratedLiquidity

/-- A pool during a trade, with the amount still to be traded. -/
structure Cursor extends Pool where
  remaining : SignedWord
  deriving DecidableEq, Repr

structure Leg where
  step : SwapStep
  /-- The tick or word edge that the step went towards. -/
  next : NextTick
  /-- The cursor once the step is settled. -/
  after : Cursor
  deriving DecidableEq, Repr

def SwapStep.remainingOf (step : SwapStep) (remaining : SignedWord) : SignedWord :=
  if remaining.isNegative then
    remaining + ⟨step.amountOut⟩
  else
    remaining - ⟨step.amountIn + step.fee⟩

namespace Cursor

def start (pool : Pool) (order : Order) : Cursor := { pool with remaining := order.amount }

/-- The cursor once a step is traded and not yet settled. -/
def trade (cursor : Cursor) (step : SwapStep) : Cursor :=
  { cursor with price := step.price, remaining := step.remainingOf cursor.remaining }

/-- The liquidity in range past a tick. An initialized one adds its net change on the way up and takes it back on the way down. -/
def liquidityPast (cursor : Cursor) (source : TickSource) (direction : Direction)
    (next : NextTick) : Except Error Liquidity :=
  if next.initialized then do
    let tick ← source.find next.index
    cursor.liquidity.applyChange (match direction with | .down => -tick.net | .up => tick.net)
  else
    .ok cursor.liquidity

/-- Settles the tick and the liquidity after a step that began at a given price. At the next price the tick is the one reached, or the one below it on the way down. Short of it the tick follows from the price, unless the price did not move. -/
def settle (cursor : Cursor) (source : TickSource) (direction : Direction) (next : NextTick)
    (nextPrice began : SqrtPrice) : Except Error Cursor :=
  if cursor.price = nextPrice then do
    let liquidity ← cursor.liquidityPast source direction next
    .ok { cursor with
      liquidity
      tick := match direction with | .down => next.index - 1 | .up => next.index }
  else if cursor.price = began then
    .ok cursor
  else do
    .ok { cursor with tick := ← cursor.price.tick }

def nextStep (cursor : Cursor) (market : Market) (order : Order) :
    Except Error (NextTick × SqrtPrice × SwapStep) := do
  let source := market.source
  let next ← source.nextWithinWord source.spacing order.direction cursor.tick
  let nextPrice ← next.index.sqrtPrice
  let step ←
    swapStep cursor.price (order.target nextPrice) cursor.liquidity cursor.remaining market.fee
  .ok (next, nextPrice, step)

/-- One step of a trade: the cursor it leaves behind, and its record unless it failed. -/
def advance (cursor : Cursor) (market : Market) (order : Order) : Cursor × Except Error Leg :=
  match cursor.nextStep market order with
  | .error cause => (cursor, .error cause)
  | .ok (next, nextPrice, step) =>
    let traded := cursor.trade step
    match traded.settle market.source order.direction next nextPrice cursor.price with
    | .error cause => (traded, .error cause)
    | .ok after => (after, .ok { step, next, after })

end Cursor

end ConcentratedLiquidity
