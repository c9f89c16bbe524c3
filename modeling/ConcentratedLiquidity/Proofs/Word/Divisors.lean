import ConcentratedLiquidity.Proofs.Error
import ConcentratedLiquidity.Proofs.Word.MulDiv

/-!
# No division by zero

The division of words is total, and nothing in a result tells whether it was ever asked to divide by zero. So the divisions are written out once more with a quotient that fails in a way of the caller's choice where its divisor is zero. That they still agree, whatever the failure chosen, says that no such quotient is ever formed.
-/

namespace ConcentratedLiquidity

namespace Word

/-- The quotient of two words, where a divisor of zero ends the computation with a given failure. -/
def divideOrFail (cause : Error) (a divisor : Word) : Except Error Word :=
  if divisor = 0 then .error cause else .ok (a / divisor)

theorem divideOrFail_eq_ok (cause : Error) (a : Word) {divisor : Word} (hdivisor : divisor ≠ 0) :
    divideOrFail cause a divisor = .ok (a / divisor) := if_neg hdivisor

theorem powerOfTwoPart_ne_zero {divisor : Word} (hdivisor : divisor ≠ 0) :
    divisor.powerOfTwoPart ≠ 0 := by
  obtain ⟨k, m, hk, hm, hvalue⟩ := exists_toNat_eq_two_pow_mul hdivisor
  rw [powerOfTwoPart_eq_twoPow hm hvalue]
  intro hzero
  have htoNat := congrArg BitVec.toNat hzero
  rw [BitVec.toNat_twoPow, Nat.mod_eq_of_lt (Nat.pow_lt_pow_right (by decide) hk)] at htoNat
  exact absurd htoNat (Nat.two_pow_pos k).ne'

end Word

namespace FullProduct

def divideExactOrFail (cause : Error) (product : FullProduct) (divisor : Word) :
    Except Error Word := do
  let twos := divisor.powerOfTwoPart
  let odd ← Word.divideOrFail cause divisor twos
  let low ← Word.divideOrFail cause product.low twos
  let scale ← Word.divideOrFail cause (-twos) twos
  .ok ((low ||| product.high * (scale + 1)) * odd.oddInverse)

theorem divideExactOrFail_eq (cause : Error) (product : FullProduct) {divisor : Word}
    (hdivisor : divisor ≠ 0) :
    product.divideExactOrFail cause divisor = .ok (product.divideExact divisor) := by
  have htwos := Word.powerOfTwoPart_ne_zero hdivisor
  simp only [divideExactOrFail, Word.divideOrFail_eq_ok cause _ htwos, ok_bind]
  rfl

end FullProduct

namespace Word

def mulDivOrFail (cause : Error) (a b divisor : Word) : Except Error Word :=
  if divisor = 0 then
    .error .divisionByZero
  else
    let product := FullProduct.ofFactors a b
    if product.high = 0 then
      divideOrFail cause product.low divisor
    else if divisor ≤ product.high then
      .error .overflow
    else
      (product.subWord (mulMod a b divisor)).divideExactOrFail cause divisor

def mulDivUpOrFail (cause : Error) (a b divisor : Word) : Except Error Word := do
  let quotient ← mulDivOrFail cause a b divisor
  if mulMod a b divisor = 0 then
    .ok quotient
  else if quotient = BitVec.allOnes 256 then
    .error .overflow
  else
    .ok (quotient + 1)

def divUpOrFail (cause : Error) (a divisor : Word) : Except Error Word :=
  if divisor = 0 then
    .error .divisionByZero
  else do
    let quotient ← divideOrFail cause a divisor
    .ok (if a % divisor = 0 then quotient else quotient + 1)

theorem mulDivOrFail_eq (cause : Error) (a b divisor : Word) :
    mulDivOrFail cause a b divisor = mulDiv a b divisor := by
  by_cases hdivisor : divisor = 0
  · rw [mulDivOrFail, mulDiv, if_pos hdivisor, if_pos hdivisor]
  · simp only [mulDivOrFail, mulDiv, divideOrFail_eq_ok cause _ hdivisor,
      FullProduct.divideExactOrFail_eq cause _ hdivisor]

theorem mulDivUpOrFail_eq (cause : Error) (a b divisor : Word) :
    mulDivUpOrFail cause a b divisor = mulDivUp a b divisor := by
  rw [mulDivUpOrFail, mulDivOrFail_eq, mulDivUp]

theorem divUpOrFail_eq (cause : Error) (a divisor : Word) :
    divUpOrFail cause a divisor = divUp a divisor := by
  by_cases hdivisor : divisor = 0
  · rw [divUpOrFail, divUp, if_pos hdivisor, if_pos hdivisor]
  · rw [divUpOrFail, divUp, if_neg hdivisor, if_neg hdivisor, divideOrFail_eq_ok cause a hdivisor,
      ok_bind, apply_ite Except.ok]

end Word

end ConcentratedLiquidity
