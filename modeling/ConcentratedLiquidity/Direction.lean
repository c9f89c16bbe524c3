/-!
# Directions

Prices move down when token 0 is paid in and up when token 1 is. The same two directions say to which side of a tick the next one is sought.
-/

namespace ConcentratedLiquidity

inductive Direction where
  | down
  | up
  deriving DecidableEq, Repr

end ConcentratedLiquidity
