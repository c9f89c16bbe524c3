import ConcentratedLiquidity.Swap.Cursor

/-!
# Quotes

A quote follows an order through the ticks of a pool. It ends when the amount is used up, when the price is at the limit, when as many steps are made as the caller allows, or when a step fails. The pool that is left takes the next order.
-/

namespace ConcentratedLiquidity

inductive Stop where
  | done
  | limit
  | maxSteps
  | failed (cause : Error)
  deriving DecidableEq, Repr

structure Quote where
  legs : List Leg
  stop : Stop
  final : Cursor
  deriving DecidableEq, Repr

def Order.stopAt (order : Order) (cursor : Cursor) : Option Stop :=
  if cursor.remaining = 0 then some .done
  else if order.limit = some cursor.price then some .limit
  else none

def Cursor.follow (market : Market) (order : Order) : Nat → Cursor → Quote
  | 0, cursor => { legs := [], stop := (order.stopAt cursor).getD .maxSteps, final := cursor }
  | steps + 1, cursor =>
    match order.stopAt cursor with
    | some stop => { legs := [], stop, final := cursor }
    | none =>
      match cursor.advance market order with
      | (left, .error cause) => { legs := [], stop := .failed cause, final := left }
      | (after, .ok leg) =>
        let rest := follow market order steps after
        { rest with legs := leg :: rest.legs }

namespace Pool

def quote (pool : Pool) (market : Market) (stepLimit : Nat) (order : Order) : Quote :=
  Cursor.follow market order stepLimit (Cursor.start pool order)

def quotes (pool : Pool) (market : Market) (stepLimit : Nat) : List Order → List Quote
  | [] => []
  | order :: orders =>
    let quote := pool.quote market stepLimit order
    quote :: quote.final.toPool.quotes market stepLimit orders

end Pool

end ConcentratedLiquidity
