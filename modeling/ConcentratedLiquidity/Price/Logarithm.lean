import ConcentratedLiquidity.Price.Basic
import ConcentratedLiquidity.Word.BitScan

/-!
# Binary logarithms

The logarithm to base two of a ratio with 128 fractional bits, found bit by bit. The integer part is the position of the highest set bit. Squaring the mantissa doubles its logarithm, so the bit that a square carries past the mantissa is the next fractional bit. The logarithm is in two's complement with 64 fractional bits, of which the first fourteen are determined.
-/

namespace ConcentratedLiquidity

structure LogarithmState where
  /-- What is left of the ratio, a number from one to below two with 127 fractional bits. -/
  mantissa : Word
  /-- The bits of the logarithm found so far. -/
  log : Word
  deriving DecidableEq, Repr

namespace LogarithmState

/-- The integer part of the logarithm of a ratio, given the position of the ratio's highest set bit. -/
def start (ratio : Word) (highest : Nat) : LogarithmState where
  mantissa := if 128 ≤ highest then ratio >>> (highest - 127) else ratio <<< (127 - highest)
  log := (BitVec.ofNat 256 highest - 128) <<< 64

/-- Finds the fractional bit at a place, counted from zero. -/
def refine (state : LogarithmState) (place : Nat) : LogarithmState :=
  let square := (state.mantissa * state.mantissa) >>> 127
  let bit := square >>> 128
  { mantissa := square >>> bit.toNat, log := state.log ||| (bit <<< (63 - place)) }

def refineTimes (state : LogarithmState) : Nat → LogarithmState
  | 0 => state
  | places + 1 => (state.refineTimes places).refine places

end LogarithmState

/-- The logarithm of a ratio, to fourteen fractional bits. -/
def binaryLogarithm (ratio : Word) : Except Error Word := do
  let highest ← ratio.highestBit
  .ok ((LogarithmState.start ratio highest).refineTimes 14).log

end ConcentratedLiquidity
