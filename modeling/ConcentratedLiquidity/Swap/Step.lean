import ConcentratedLiquidity.Fee
import ConcentratedLiquidity.Price.Next

/-!
# Swap steps

A step trades against constant liquidity, from the current price towards a target and never past it. The direction follows from the two prices: a price that is not below its target moves down. A step with exact input spends at most the amount given, fee included, and a step with exact output releases at most the amount asked for.

The amount over the whole range is found first, because it decides whether the target is reached; where it is reached, that amount stands and is not found again.
-/

namespace ConcentratedLiquidity

namespace Direction

/-- The direction from one price to another. Equal prices count as falling. -/
def toward (current target : SqrtPrice) : Direction := if target ≤ current then .down else .up

/-- The amount a trader pays in over a price range, without the fee. -/
def amountIn (direction : Direction) (liquidity : Liquidity) (a b : SqrtPrice) :
    Except Error Word :=
  match direction with
  | .down => liquidity.token0Between .up a b
  | .up => liquidity.token1Between .up a b

def amountOut (direction : Direction) (liquidity : Liquidity) (a b : SqrtPrice) :
    Except Error Word :=
  match direction with
  | .down => liquidity.token1Between .down a b
  | .up => liquidity.token0Between .down a b

end Direction

namespace FeePips

/-- What is left of an amount after the fee is taken from it, rounded down. -/
def deduct (fee : FeePips) (amount : Word) : Except Error Word :=
  Word.mulDiv amount (whole.toWord - fee.toWord) whole.toWord

/-- The fee on top of an amount that is net of it, rounded up. -/
def onTop (fee : FeePips) (amount : Word) : Except Error Word :=
  Word.mulDivUp amount fee.toWord (whole.toWord - fee.toWord)

end FeePips

structure SwapStep where
  /-- The price after the step. -/
  price : SqrtPrice
  /-- The amount paid in, without the fee. -/
  amountIn : Word
  amountOut : Word
  fee : Word
  deriving DecidableEq, Repr

namespace SwapStep

/-- A step that spends an amount. The part left after the fee moves the price; short of the target, what that part does not use is the fee. -/
def exactInput (current target : SqrtPrice) (liquidity : Liquidity) (amount : Word)
    (fee : FeePips) : Except Error SwapStep := do
  let direction := Direction.toward current target
  let budget ← fee.deduct amount
  let inToTarget ← direction.amountIn liquidity current target
  let price ←
    if inToTarget ≤ budget then .ok target
    else SqrtPrice.afterInput direction current liquidity budget
  let amountIn ←
    if price = target then .ok inToTarget else direction.amountIn liquidity current price
  let amountOut ← direction.amountOut liquidity current price
  let feeTaken ← if price = target then fee.onTop amountIn else Word.subChecked amount amountIn
  .ok { price, amountIn, amountOut, fee := feeTaken }

/-- A step that releases an amount. The price moves far enough to release all of it, and what the rounding of the price would release beyond it is kept. -/
def exactOutput (current target : SqrtPrice) (liquidity : Liquidity) (amount : Word)
    (fee : FeePips) : Except Error SwapStep := do
  let direction := Direction.toward current target
  let outToTarget ← direction.amountOut liquidity current target
  let price ←
    if outToTarget ≤ amount then .ok target
    else SqrtPrice.afterOutput direction current liquidity amount
  let amountIn ← direction.amountIn liquidity current price
  let released ←
    if price = target then .ok outToTarget else direction.amountOut liquidity current price
  let feeTaken ← fee.onTop amountIn
  .ok { price, amountIn, amountOut := if amount < released then amount else released,
        fee := feeTaken }

end SwapStep

/-- The step from a price towards a target for the amount that remains of a trade: an input to spend where it is not negative, an output to release where it is. -/
def swapStep (current target : SqrtPrice) (liquidity : Liquidity) (remaining : SignedWord)
    (fee : FeePips) : Except Error SwapStep :=
  if FeePips.whole < fee then
    .error .feeOutOfBounds
  else if remaining.isNegative then
    SwapStep.exactOutput current target liquidity remaining.magnitude fee
  else
    SwapStep.exactInput current target liquidity remaining.magnitude fee

end ConcentratedLiquidity
