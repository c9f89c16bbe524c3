import ConcentratedLiquidity.Swap.Step
import ConcentratedLiquidity.Tick.OfPrice
import ConcentratedLiquidity.Tick.Source

/-!
# Pools and orders

The state of a pool between trades, what a pool keeps fixed, and what a trader asks of it.
-/

namespace ConcentratedLiquidity

/-- The state of a pool between trades. -/
structure Pool where
  price : SqrtPrice
  tick : TickIndex
  /-- The liquidity in range. -/
  liquidity : Liquidity
  deriving DecidableEq, Repr

/-- What trades in a pool do not change. -/
structure Market where
  source : TickSource
  fee : FeePips

/-- A trade to be made: an input to spend where the amount is not negative, an output to release where it is, and possibly a price not to go beyond. -/
structure Order where
  amount : SignedWord
  direction : Direction
  limit : Option SqrtPrice
  deriving DecidableEq, Repr

namespace Pool

/-- The pool at a price, whose tick follows from it. -/
def atPrice (price : SqrtPrice) (liquidity : Liquidity) : Except Error Pool := do
  .ok { price, tick := ← price.tick, liquidity }

end Pool

namespace Order

/-- The price a step aims at: the next one, or the limit where that comes first. -/
def target (order : Order) (nextPrice : SqrtPrice) : SqrtPrice :=
  match order.limit with
  | none => nextPrice
  | some limit =>
    match order.direction with
    | .down => if nextPrice < limit then limit else nextPrice
    | .up => if limit < nextPrice then limit else nextPrice

end Order

end ConcentratedLiquidity
