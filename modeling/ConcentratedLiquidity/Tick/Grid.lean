import ConcentratedLiquidity.Tick.Index

/-!
# The tick grid

Ticks sit on a grid of evenly spaced indices. A step counts spacings from index zero, negative below it, and 256 consecutive steps share a word: a step is the word position times 256 plus the bit position. Steps are integers, so that no index and no spacing takes them out of range.
-/

namespace ConcentratedLiquidity.Grid

/-- The step at or below a tick index. -/
def stepBelow (spacing : TickSpacing) (tick : TickIndex) : Int := tick.toInt / spacing.toInt

def tickAt (spacing : TickSpacing) (step : Int) : TickIndex := Int32.ofInt (step * spacing.toInt)

def wordOf (step : Int) : Int := step / 256

def bitOf (step : Int) : Nat := (step % 256).toNat

def wordStart (step : Int) : Int := step - bitOf step

def wordEnd (step : Int) : Int := step + (255 - bitOf step)

theorem bitOf_lt (step : Int) : bitOf step < 256 := by
  unfold bitOf
  omega

theorem wordOf_mul_add_bitOf (step : Int) : wordOf step * 256 + bitOf step = step := by
  unfold wordOf bitOf
  omega

theorem wordStart_eq (step : Int) : wordStart step = wordOf step * 256 := by
  unfold wordStart wordOf bitOf
  omega

theorem wordEnd_eq (step : Int) : wordEnd step = wordOf step * 256 + 255 := by
  unfold wordEnd wordOf bitOf
  omega

theorem wordStart_le (step : Int) : wordStart step ≤ step := by
  unfold wordStart
  omega

theorem le_wordEnd (step : Int) : step ≤ wordEnd step := by
  have hbit := bitOf_lt step
  unfold wordEnd
  omega

end ConcentratedLiquidity.Grid
