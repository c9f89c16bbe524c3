import ConcentratedLiquidity.Tick.Index
import ConcentratedLiquidity.Word.Basic

/-!
# Fees

A fee is a rate in pips, millionths of the amount paid in. Pools use one of four standard tiers, each with the tick spacing that goes with it.
-/

namespace ConcentratedLiquidity

abbrev FeePips := UInt32

namespace FeePips

/-- The rate at which the whole input is taken. -/
def whole : FeePips := 1000000

def toWord (fee : FeePips) : Word := BitVec.ofNat 256 fee.toNat

end FeePips

inductive FeeTier where
  | lowest
  | low
  | medium
  | high
  deriving DecidableEq, Repr

namespace FeeTier

/-- All tiers, cheapest first. -/
def all : List FeeTier := [lowest, low, medium, high]

def pips : FeeTier → FeePips
  | lowest => 100
  | low => 500
  | medium => 3000
  | high => 10000

def tickSpacing : FeeTier → TickSpacing
  | lowest => 1
  | low => 10
  | medium => 60
  | high => 200

def name : FeeTier → String
  | lowest => "Lowest"
  | low => "Low"
  | medium => "Medium"
  | high => "High"

def ofPips (fee : FeePips) : Except Error FeeTier :=
  match all.find? (·.pips = fee) with
  | some tier => .ok tier
  | none => .error .feeOutOfBounds

end FeeTier

end ConcentratedLiquidity
