import ConcentratedLiquidity.Word.FullProduct

/-!
# Multiplying and dividing without losing bits

The quotient of a full product by a word, and the two divisions that round up. Each fails when the divisor is zero or when its result is not a word, and in no other case.
-/

namespace ConcentratedLiquidity.Word

def mulDiv (a b divisor : Word) : Except Error Word :=
  if divisor = 0 then
    .error .divisionByZero
  else
    let product := FullProduct.ofFactors a b
    if product.high = 0 then
      .ok (product.low / divisor)
    else if divisor ≤ product.high then
      .error .overflow
    else
      .ok ((product.subWord (mulMod a b divisor)).divideExact divisor)

def mulDivUp (a b divisor : Word) : Except Error Word := do
  let quotient ← mulDiv a b divisor
  if mulMod a b divisor = 0 then
    .ok quotient
  else if quotient = BitVec.allOnes 256 then
    .error .overflow
  else
    .ok (quotient + 1)

def divUp (a divisor : Word) : Except Error Word :=
  if divisor = 0 then
    .error .divisionByZero
  else if a % divisor = 0 then
    .ok (a / divisor)
  else
    .ok (a / divisor + 1)

end ConcentratedLiquidity.Word
