import ConcentratedLiquidity.Liquidity
import ConcentratedLiquidity.Tick.Index

/-!
# Ticks

A tick is a boundary of positions: where the price crosses it, the liquidity in range changes.
-/

namespace ConcentratedLiquidity

structure Tick where
  index : TickIndex
  /-- The liquidity of all positions bounded by the tick. -/
  gross : Liquidity
  /-- The change of the liquidity in range when the price crosses the tick upwards. -/
  net : LiquidityChange
  deriving DecidableEq, Repr

/-- A tick is initialized as long as a position is bounded by it. -/
def Tick.isInitialized (tick : Tick) : Bool := tick.gross ≠ 0

structure NextTick where
  index : TickIndex
  initialized : Bool
  deriving DecidableEq, Repr

/-- A snapshot of ticks. A search expects the lowest index first. -/
abbrev Ticks := Array Tick

end ConcentratedLiquidity
