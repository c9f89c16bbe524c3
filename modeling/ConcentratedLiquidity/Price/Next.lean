import ConcentratedLiquidity.Direction
import ConcentratedLiquidity.Price.Amount

/-!
# Prices after a trade

The price that liquidity in range reaches when an amount of one token is paid in or taken out. Every rounding is against the trader: a price that falls because token 0 comes in is rounded up, a price that rises because token 1 comes in is rounded down, and a price that has to release an amount is moved far enough to release all of it.
-/

namespace ConcentratedLiquidity.SqrtPrice

/-! ### Token 0 -/

/-- The price after an amount of token 0 is paid in. When the precise denominator is not a word, the liquidity is divided by the price before the amount is added, which never gives a lower price. -/
def afterToken0In (price : SqrtPrice) (liquidity : Liquidity) (amount : Word) :
    Except Error SqrtPrice :=
  if amount = 0 then
    .ok price
  else
    let scaled := liquidity.scaled
    let product := amount * price
    if product / amount = price ∧ scaled ≤ scaled + product then do
      ofWord (← Word.mulDivUp scaled price (scaled + product))
    else do
      let total ← Word.addChecked (scaled / price) amount
      ofWord (← Word.divUp scaled total)

/-- The price after an amount of token 0 is taken out, which fails when the range above the price holds no more than the amount. -/
def afterToken0Out (price : SqrtPrice) (liquidity : Liquidity) (amount : Word) :
    Except Error SqrtPrice :=
  if amount = 0 then
    .ok price
  else
    let scaled := liquidity.scaled
    let product := amount * price
    if product / amount ≠ price ∨ scaled ≤ product then
      .error .insufficientReserves
    else do
      ofWord (← Word.mulDivUp scaled price (scaled - product))

/-! ### Token 1 -/

/-- The change of the price that an amount of token 1 stands for. Up to 160 bits the amount can be shifted into place; beyond that the full product is divided. -/
def shiftByToken1 (rounding : Rounding) (liquidity : Liquidity) (amount : Word) :
    Except Error Word :=
  if liquidity = 0 then
    .error .divisionByZero
  else if amount ≤ largest then
    match rounding with
    | .up => Word.divUp (amount <<< fractionBits) liquidity.toWord
    | .down => .ok ((amount <<< fractionBits) / liquidity.toWord)
  else
    match rounding with
    | .up => Word.mulDivUp amount one liquidity.toWord
    | .down => Word.mulDiv amount one liquidity.toWord

def afterToken1In (price : SqrtPrice) (liquidity : Liquidity) (amount : Word) :
    Except Error SqrtPrice := do
  let rise ← shiftByToken1 .down liquidity amount
  ofWord (← Word.addChecked price rise)

/-- The price after an amount of token 1 is taken out, which fails when the range below the price holds no more than the amount. -/
def afterToken1Out (price : SqrtPrice) (liquidity : Liquidity) (amount : Word) :
    Except Error SqrtPrice := do
  let fall ← shiftByToken1 .up liquidity amount
  if price ≤ fall then .error .insufficientReserves else ofWord (price - fall)

/-! ### Either token -/

def afterInput (direction : Direction) (price : SqrtPrice) (liquidity : Liquidity)
    (amount : Word) : Except Error SqrtPrice :=
  if price = 0 then
    .error .sqrtPriceZero
  else if liquidity = 0 then
    .error .liquidityZero
  else
    match direction with
    | .down => price.afterToken0In liquidity amount
    | .up => price.afterToken1In liquidity amount

def afterOutput (direction : Direction) (price : SqrtPrice) (liquidity : Liquidity)
    (amount : Word) : Except Error SqrtPrice :=
  if price = 0 then
    .error .sqrtPriceZero
  else if liquidity = 0 then
    .error .liquidityZero
  else
    match direction with
    | .down => price.afterToken1Out liquidity amount
    | .up => price.afterToken0Out liquidity amount

end ConcentratedLiquidity.SqrtPrice
