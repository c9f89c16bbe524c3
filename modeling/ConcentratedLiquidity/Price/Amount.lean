import ConcentratedLiquidity.Liquidity
import ConcentratedLiquidity.Price.Basic
import ConcentratedLiquidity.Word.MulDiv

/-!
# Token amounts of a price range

Moving the price across a range takes liquidity times the change of the square-root price in token 1, and liquidity times the change of its inverse in token 0. Either amount is rounded as the caller asks, up where a trader pays and down where a trader is paid. The ends of a range may come in either order.

A change of liquidity over a range moves a signed amount: added liquidity is paid for, rounded up, and removed liquidity is paid out, rounded down.
-/

namespace ConcentratedLiquidity

/-- The integer taken for an amount that lies between two. -/
inductive Rounding where
  | down
  | up
  deriving DecidableEq, Repr

namespace Liquidity

/-- Liquidity with as many fractional bits as a price. -/
def scaled (liquidity : Liquidity) : Word := liquidity.toWord <<< SqrtPrice.fractionBits

/-- The amount of token 0 between a lower and a higher price. -/
def token0Over (liquidity : Liquidity) (rounding : Rounding) (low high : SqrtPrice) :
    Except Error Word :=
  if low = 0 then
    .error .sqrtRatioZero
  else
    match rounding with
    | .up => do
      let perLow ← Word.mulDivUp liquidity.scaled (high - low) high
      Word.divUp perLow low
    | .down => do
      let perLow ← Word.mulDiv liquidity.scaled (high - low) high
      .ok (perLow / low)

def token1Over (liquidity : Liquidity) (rounding : Rounding) (low high : SqrtPrice) :
    Except Error Word :=
  match rounding with
  | .up => Word.mulDivUp liquidity.toWord (high - low) SqrtPrice.one
  | .down => Word.mulDiv liquidity.toWord (high - low) SqrtPrice.one

def token0Between (liquidity : Liquidity) (rounding : Rounding) (a b : SqrtPrice) :
    Except Error Word :=
  if b < a then liquidity.token0Over rounding b a else liquidity.token0Over rounding a b

def token1Between (liquidity : Liquidity) (rounding : Rounding) (a b : SqrtPrice) :
    Except Error Word :=
  if b < a then liquidity.token1Over rounding b a else liquidity.token1Over rounding a b

end Liquidity

namespace LiquidityChange

/-- Amounts paid in round up and amounts paid out round down. -/
def rounding (change : LiquidityChange) : Rounding := if change.isNegative then .down else .up

/-- Gives an amount the sign of a change. -/
def signed (change : LiquidityChange) (amount : Word) : Except Error SignedWord := do
  let amount ← amount.toSigned
  .ok (if change.isNegative then -amount else amount)

def token0Between (change : LiquidityChange) (a b : SqrtPrice) : Except Error SignedWord := do
  change.signed (← Liquidity.token0Between change.magnitude change.rounding a b)

def token1Between (change : LiquidityChange) (a b : SqrtPrice) : Except Error SignedWord := do
  change.signed (← Liquidity.token1Between change.magnitude change.rounding a b)

end LiquidityChange

end ConcentratedLiquidity
