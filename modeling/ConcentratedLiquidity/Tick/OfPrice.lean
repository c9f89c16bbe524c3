import ConcentratedLiquidity.Price.Logarithm
import ConcentratedLiquidity.Tick.ToPrice

/-!
# The tick of a price

The highest tick whose price is not above a given one. The binary logarithm of the price, scaled to base 1.0001, gives the tick up to a known error. Both ends of that error are looked at, and where they fall on two ticks, the price of the upper one decides.
-/

namespace ConcentratedLiquidity

/-- The number of ticks in a factor of two of the square-root price, with 64 fractional bits. -/
def ticksPerDoubling : Word := 255738958999603826347141

/-- Taken off the scaled logarithm of a price, it leaves a number whose integer part is not above the tick. It has 128 fractional bits. -/
def tickMarginBelow : Word := 3402992956809132418596140100660247210

/-- Added to the scaled logarithm of a price, it gives a number whose integer part is not below the tick. It has 128 fractional bits. -/
def tickMarginAbove : Word := 291339464771989622907027621153398088495

namespace TickIndex

/-- The integer part of a signed number with 128 fractional bits, as a tick index. -/
def ofFixedPoint (number : Word) : TickIndex := Int32.ofInt (number.sshiftRight 128).toInt

end TickIndex

namespace SqrtPrice

/-- The highest tick whose price is not above a given one. -/
def tick (price : SqrtPrice) : Except Error TickIndex :=
  if lowest ≤ price ∧ price < highest then do
    let scaled := (← binaryLogarithm (price <<< 32)) * ticksPerDoubling
    let low := TickIndex.ofFixedPoint (scaled - tickMarginBelow)
    let high := TickIndex.ofFixedPoint (scaled + tickMarginAbove)
    if low = high then
      .ok low
    else if (← high.sqrtPrice) ≤ price then
      .ok high
    else
      .ok low
  else
    .error .sqrtPriceOutOfBounds

end SqrtPrice

end ConcentratedLiquidity
