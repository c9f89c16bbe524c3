import ConcentratedLiquidity.Word.Basic

/-!
# Scanning a word for its outermost bits

The positions of the highest and of the lowest set bit, counted from zero at the low end, and the masks that restrict a scan to one side of a position.
-/

namespace ConcentratedLiquidity.Word

/-- The widths halved through when the highest bit is sought: at each one the upper half is kept if it holds a bit. -/
def scanWidths : List Nat := [128, 64, 32, 16, 8, 4, 2, 1]

/-- The position of the highest set bit among the widths left, on top of the width already passed. -/
def scanHighest (word : Word) (passed : Nat) : List Nat → Nat
  | [] => passed
  | width :: widths =>
    if 1 <<< width ≤ word then
      scanHighest (word >>> width) (passed + width) widths
    else
      scanHighest word passed widths

def highestBit (word : Word) : Except Error Nat :=
  if word = 0 then .error .zeroValue else .ok (scanHighest word 0 scanWidths)

/-- The position of the lowest set bit, which is the number of zeros below it. -/
def lowestBit (word : Word) : Except Error Nat :=
  if word = 0 then .error .zeroValue else .ok word.ctz.toNat

/-- The bits at and below a position. It is put together from two halves so that position 255 does not wrap to nothing. -/
def maskThrough (position : Nat) : Word := (1 <<< position) - 1 + (1 <<< position)

def maskFrom (position : Nat) : Word := ~~~((1 <<< position) - 1)

end ConcentratedLiquidity.Word
