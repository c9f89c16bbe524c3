/-!
# Causes of failure

Every way in which a computation of this library can fail, the broad class each cause belongs to, and the text shown for it. A function that can fail returns `Except Error`, and the first cause it meets is the one reported.
-/

namespace ConcentratedLiquidity

inductive Error where
  /-- A result is too large for a word. -/
  | overflow
  /-- A difference is below zero. -/
  | underflow
  | divisionByZero
  /-- A bit scan was asked for a bit of the zero word. -/
  | zeroValue
  /-- A word is too large to be read as a signed amount. -/
  | exceedsSignedWord
  /-- A price needs more than 160 bits. -/
  | exceedsPriceWidth
  | liquidityOverflow
  | liquidityUnderflow
  | sqrtPriceOutOfBounds
  | sqrtPriceZero
  /-- The lower end of a price range is zero. -/
  | sqrtRatioZero
  | tickOutOfBounds
  | liquidityZero
  /-- More of a token was asked for than the price range holds. -/
  | insufficientReserves
  | feeOutOfBounds
  /-- A tick spacing is zero or negative. -/
  | nonPositiveSpacing
  /-- A tick index, or a spacing given by a caller, disagrees with the spacing of the list. -/
  | spacingMismatch
  /-- The net liquidity changes of a list do not cancel. -/
  | nonZeroNetSum
  | notSorted
  | emptyList
  | belowSmallest
  | atOrAboveLargest
  /-- No tick of the list has the index asked for. -/
  | noSuchTick
  /-- A listed tick has no price, so it cannot be put into a bitmap. -/
  | tickOutOfRange
  deriving DecidableEq, Repr

/-- The broad classes of failure, by which a caller tells its own mistakes from the conditions it has to expect. -/
inductive ErrorKind where
  /-- A result does not fit the width it is kept in. -/
  | overflow
  /-- A conversion or a bound was violated. -/
  | range
  /-- An operand is degenerate. -/
  | invalidInput
  | invalidTick
  | invalidSqrtRatio
  /-- A condition the caller should have guaranteed does not hold. -/
  | invariant
  /-- A tick list was refused, or a search in it left the list. -/
  | tickList
  deriving DecidableEq, Repr

namespace Error

def kind : Error → ErrorKind
  | overflow => .overflow
  | underflow | divisionByZero | sqrtRatioZero | insufficientReserves => .invariant
  | zeroValue => .invalidInput
  | exceedsSignedWord | exceedsPriceWidth | liquidityOverflow | liquidityUnderflow
  | sqrtPriceZero | liquidityZero | feeOutOfBounds => .range
  | sqrtPriceOutOfBounds => .invalidSqrtRatio
  | tickOutOfBounds => .invalidTick
  | nonPositiveSpacing | spacingMismatch | nonZeroNetSum | notSorted | emptyList | belowSmallest
  | atOrAboveLargest | noSuchTick | tickOutOfRange => .tickList

def message : Error → String
  | overflow => "Math error - overflow"
  | underflow => "Math error - underflow"
  | divisionByZero => "Math error - division by zero"
  | zeroValue => "BitMath error - zero input value"
  | exceedsSignedWord => "SafeCast error - value exceeds int256 max"
  | exceedsPriceWidth => "SafeCast error - value exceeds uint160 max"
  | liquidityOverflow => "LiquidityMath error - uint128 overflow"
  | liquidityUnderflow => "LiquidityMath error - uint128 underflow"
  | sqrtPriceOutOfBounds => "State error - sqrtPrice out of bounds"
  | sqrtPriceZero => "State error - sqrtPrice is 0"
  | sqrtRatioZero => "State error - sqrtRatio is 0"
  | tickOutOfBounds => "State error - tick out of bounds"
  | liquidityZero => "State error - liquidity is 0"
  | insufficientReserves => "State error - requested amount exceeds pool reserves"
  | feeOutOfBounds => "State error - fee exceeds 1_000_000 pips"
  | nonPositiveSpacing => "TickList error - tick spacing must be greater than 0"
  | spacingMismatch => "TickList error - tick index is not a multiple of the tick spacing"
  | nonZeroNetSum => "TickList error - liquidity net deltas do not sum to zero"
  | notSorted => "TickList error - ticks must be sorted by index"
  | emptyList => "TickList error - empty tick list"
  | belowSmallest => "TickList error - below smallest tick"
  | atOrAboveLargest => "TickList error - at or above largest tick"
  | noSuchTick => "TickList error - invalid tick index"
  | tickOutOfRange => "TickList error - tick index outside the legal tick range"

end Error

end ConcentratedLiquidity
