/-!
# Integer square roots

The square root of a 512-bit number, rounded down, by Newton's method. The iterates start at a power of two not below the root and fall until they stop improving.
-/

namespace ConcentratedLiquidity

/-- An unsigned number of 512 bits. -/
abbrev DoubleWord := BitVec 512

namespace DoubleWord

/-- The number of bits up to the highest set one. -/
def bitLength (value : DoubleWord) : Nat := 512 - value.clz.toNat

def improveRoot (value estimate : DoubleWord) : DoubleWord := (estimate + value / estimate) >>> 1

/-- Improves an estimate of a square root for as long as it falls. -/
def descendToRoot (value estimate : DoubleWord) : DoubleWord :=
  if improveRoot value estimate < estimate then
    descendToRoot value (improveRoot value estimate)
  else
    estimate
termination_by estimate.toNat
decreasing_by simpa [BitVec.lt_def] using ‹improveRoot value estimate < estimate›

def sqrt (value : DoubleWord) : DoubleWord :=
  if value < 2 then value else descendToRoot value (1 <<< ((value.bitLength + 1) / 2))

end DoubleWord

end ConcentratedLiquidity
