import ConcentratedLiquidity.Price.Basic
import ConcentratedLiquidity.Word.SquareRoot

/-!
# Prices from a ratio of amounts

The price at which one amount of token 1 is worth another of token 0.
-/

namespace ConcentratedLiquidity.SqrtPrice

/-- The square root of a ratio of amounts, rounded down. -/
def ofRatio (amount1 amount0 : BitVec 128) : Except Error SqrtPrice :=
  if amount0 = 0 then
    .error .divisionByZero
  else
    let ratio : DoubleWord := (amount1.setWidth 512 <<< (2 * fractionBits)) / amount0.setWidth 512
    let root : DoubleWord := ratio.sqrt
    if 160 < root.bitLength then .error .exceedsPriceWidth else .ok (root.setWidth 256)

end ConcentratedLiquidity.SqrtPrice
