import ConcentratedLiquidity.Tick.Bitmap

/-!
# Sources of ticks

A trade reads the ticks of its pool from a source: the sorted list itself, or the list with a bitmap. Both answer the same questions, and a word-bounded search must name the spacing of the list.
-/

namespace ConcentratedLiquidity

/-- A tick list in either of its searchable forms. -/
inductive TickSource where
  | list (ticks : TickList)
  | bitmap (ticks : TickBitmap)

namespace TickSource

def tickList : TickSource → TickList
  | list ticks => ticks
  | bitmap ticks => ticks.list

def spacing (source : TickSource) : TickSpacing := source.tickList.spacing

def find (source : TickSource) (index : TickIndex) : Except Error Tick :=
  source.tickList.ticks.find index

def nextWithinWord (source : TickSource) (spacing : TickSpacing) (direction : Direction)
    (index : TickIndex) : Except Error NextTick :=
  match source with
  | list ticks => do
    ticks.requireSpacing spacing
    ticks.ticks.nextWithinWord spacing direction index
  | bitmap ticks => ticks.nextWithinWord spacing direction index

def nextIndex (source : TickSource) (direction : Direction) (index : TickIndex) :
    Except Error NextTick :=
  match source with
  | list ticks => ticks.ticks.nextIndex direction index
  | bitmap ticks => ticks.nextIndex direction index

end TickSource

end ConcentratedLiquidity
