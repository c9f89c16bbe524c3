import ConcentratedLiquidity.Price.Amount
import ConcentratedLiquidity.Proofs.Error
import ConcentratedLiquidity.Proofs.Word.MulDiv

/-!
# Amounts as exact quotients

The amounts of a price range are quotients of unbounded numbers, rounded once. Token 0 is divided twice by the code, first by the higher price and then by the lower one, and rounding both times in one direction is the same as rounding once.
-/

namespace ConcentratedLiquidity

def Rounding.divide : Rounding → Nat → Nat → Nat
  | .down, value, divisor => value / divisor
  | .up, value, divisor => value ⌈/⌉ divisor

theorem ceilDiv_ceilDiv_eq (value : Nat) {first second : Nat} (hfirst : 0 < first)
    (hsecond : 0 < second) :
    (value ⌈/⌉ first) ⌈/⌉ second = value ⌈/⌉ (first * second) := by
  apply eq_of_forall_ge_iff
  intro bound
  rw [ceilDiv_le_iff_le_mul hsecond, ceilDiv_le_iff_le_mul hfirst,
    ceilDiv_le_iff_le_mul (Nat.mul_pos hfirst hsecond), mul_assoc]

theorem ceilDiv_le_of_le_mul {value divisor bound : Nat} (h : value ≤ divisor * bound) :
    value ⌈/⌉ divisor ≤ bound := by
  rcases Nat.eq_zero_or_pos divisor with rfl | hpos
  · rw [ceilDiv_zero]
    exact Nat.zero_le _
  · exact (ceilDiv_le_iff_le_mul hpos).2 h

theorem Rounding.divide_le_of_le_mul (rounding : Rounding) {value divisor bound : Nat}
    (h : value ≤ divisor * bound) : rounding.divide value divisor ≤ bound := by
  cases rounding with
  | down => exact Nat.div_le_of_le_mul h
  | up => exact ceilDiv_le_of_le_mul h

theorem Rounding.zero_divide (rounding : Rounding) (divisor : Nat) : rounding.divide 0 divisor = 0 := by
  cases rounding with
  | down => exact Nat.zero_div divisor
  | up => exact zero_ceilDiv divisor

theorem Rounding.divide_divide (rounding : Rounding) (value : Nat) {first second : Nat}
    (hfirst : 0 < first) (hsecond : 0 < second) :
    rounding.divide (rounding.divide value first) second =
      rounding.divide value (first * second) := by
  cases rounding with
  | down => exact Nat.div_div_eq_div_mul value first second
  | up => exact ceilDiv_ceilDiv_eq value hfirst hsecond

/-! ### Divisions of words, rounded as asked -/

namespace Rounding

def divWord : Rounding → Word → Word → Except Error Word
  | .down, a, divisor => .ok (a / divisor)
  | .up, a, divisor => Word.divUp a divisor

def mulDivWord : Rounding → Word → Word → Word → Except Error Word
  | .down, a, b, divisor => Word.mulDiv a b divisor
  | .up, a, b, divisor => Word.mulDivUp a b divisor

variable {a b divisor : Word}

theorem divWord_eq (rounding : Rounding) (hdivisor : divisor ≠ 0) :
    rounding.divWord a divisor = Word.ofNatChecked (rounding.divide a.toNat divisor.toNat) := by
  cases rounding with
  | down => exact (Word.ofNatChecked_eq_ok_iff.2 BitVec.toNat_udiv).symm
  | up => exact Word.divUp_eq hdivisor

theorem mulDivWord_eq (rounding : Rounding) (hdivisor : divisor ≠ 0) :
    rounding.mulDivWord a b divisor =
      Word.ofNatChecked (rounding.divide (a.toNat * b.toNat) divisor.toNat) := by
  cases rounding with
  | down => exact Word.mulDiv_eq hdivisor
  | up => exact Word.mulDivUp_eq hdivisor

theorem mulDivWord_zero (rounding : Rounding) (a b : Word) :
    rounding.mulDivWord a b 0 = .error .divisionByZero := by
  cases rounding with
  | down => exact Word.mulDiv_zero a b
  | up => exact Word.mulDivUp_zero a b

end Rounding

namespace SqrtPrice

theorem toNat_one : one.toNat = 2 ^ 96 := by decide

theorem toNat_largest : largest.toNat = 2 ^ 160 - 1 := by decide

theorem le_largest_iff {price : SqrtPrice} : price ≤ largest ↔ price.toNat ≤ 2 ^ 160 - 1 := by
  rw [BitVec.le_def, toNat_largest]

/-- The prices that a pool can hold. -/
structure Valid (price : SqrtPrice) : Prop where
  pos : 1 ≤ price.toNat
  le : price.toNat ≤ 2 ^ 160 - 1

theorem Valid.ne_zero {price : SqrtPrice} (hprice : price.Valid) : price ≠ 0 := by
  rintro rfl
  exact absurd hprice.pos (by decide)

end SqrtPrice

namespace Liquidity

variable {liquidity : Liquidity} {rounding : Rounding} {low high : SqrtPrice}

theorem toNat_scaled (liquidity : Liquidity) : liquidity.scaled.toNat = liquidity.toNat * 2 ^ 96 := by
  have hlt := liquidity.isLt
  rw [scaled, BitVec.toNat_shiftLeft, toNat_toWord, Nat.shiftLeft_eq,
    show SqrtPrice.fractionBits = 96 from rfl]
  exact Nat.mod_eq_of_lt (by omega)

theorem toWord_ne_zero {liquidity : Liquidity} (hliquidity : liquidity ≠ 0) :
    liquidity.toWord ≠ 0 := by
  intro hzero
  have htoNat := liquidity.toNat_toWord
  rw [hzero] at htoNat
  exact hliquidity (BitVec.eq_of_toNat_eq htoNat.symm)

theorem scaled_pos {liquidity : Liquidity} (hliquidity : liquidity ≠ 0) :
    0 < liquidity.scaled.toNat := by
  have hpos := BitVec.toNat_pos_of_ne_zero hliquidity
  rw [toNat_scaled]
  omega

/-- The quotient by the higher price is a word for every liquidity, and so no amount of token 0 is too large. -/
theorem divide_high_lt (liquidity : Liquidity) (rounding : Rounding) (low high : SqrtPrice) :
    rounding.divide (liquidity.scaled.toNat * (high.toNat - low.toNat)) high.toNat < 2 ^ 256 := by
  have hle : liquidity.scaled.toNat * (high.toNat - low.toNat) ≤ high.toNat * liquidity.scaled.toNat := by
    rw [mul_comm high.toNat]
    exact Nat.mul_le_mul_left _ (Nat.sub_le _ _)
  exact lt_of_le_of_lt (rounding.divide_le_of_le_mul hle) liquidity.scaled.isLt

theorem token0Over_eq_divisions (rounding : Rounding) (hlow : low ≠ 0) :
    liquidity.token0Over rounding low high =
      (rounding.mulDivWord liquidity.scaled (high - low) high >>= fun perLow =>
        rounding.divWord perLow low) := by
  cases rounding with
  | down => exact if_neg hlow
  | up => exact if_neg hlow

theorem token0Over_eq (hlow : low ≠ 0) (hle : low ≤ high) :
    liquidity.token0Over rounding low high =
      Word.ofNatChecked (rounding.divide (liquidity.scaled.toNat * (high.toNat - low.toNat))
        (high.toNat * low.toNat)) := by
  have hlowPos := BitVec.toNat_pos_of_ne_zero hlow
  have hhighPos : 0 < high.toNat := lt_of_lt_of_le hlowPos hle
  have hhigh : high ≠ 0 := by
    rintro rfl
    exact absurd hhighPos (lt_irrefl 0)
  obtain ⟨perLow, hperLow, hvalue⟩ := Word.exists_ofNatChecked_eq_ok
    (liquidity.divide_high_lt rounding low high)
  rw [token0Over_eq_divisions rounding hlow, rounding.mulDivWord_eq hhigh,
    BitVec.toNat_sub_of_le hle, hperLow, ok_bind, rounding.divWord_eq hlow, hvalue,
    rounding.divide_divide _ hhighPos hlowPos]

theorem token0Over_zero (liquidity : Liquidity) (rounding : Rounding) (high : SqrtPrice) :
    liquidity.token0Over rounding 0 high = .error .sqrtRatioZero := if_pos rfl

theorem token0Over_eq_ok_iff (hle : low ≤ high) {amount : Word} :
    liquidity.token0Over rounding low high = .ok amount ↔
      low ≠ 0 ∧ amount.toNat =
        rounding.divide (liquidity.scaled.toNat * (high.toNat - low.toNat))
          (high.toNat * low.toNat) := by
  by_cases hlow : low = 0
  · rw [hlow, token0Over_zero]
    constructor
    · intro h; cases h
    · intro h; exact absurd rfl h.1
  · rw [token0Over_eq hlow hle, Word.ofNatChecked_eq_ok_iff, and_iff_right hlow]

theorem token1Over_eq (hle : low ≤ high) :
    liquidity.token1Over rounding low high =
      Word.ofNatChecked (rounding.divide (liquidity.toNat * (high.toNat - low.toNat)) (2 ^ 96)) := by
  have hdivision : liquidity.token1Over rounding low high =
      rounding.mulDivWord liquidity.toWord (high - low) SqrtPrice.one := by
    cases rounding with
    | down => rfl
    | up => rfl
  rw [hdivision, rounding.mulDivWord_eq (by decide), toNat_toWord, BitVec.toNat_sub_of_le hle,
    SqrtPrice.toNat_one]

theorem token1Over_eq_ok_iff (hle : low ≤ high) {amount : Word} :
    liquidity.token1Over rounding low high = .ok amount ↔
      amount.toNat = rounding.divide (liquidity.toNat * (high.toNat - low.toNat)) (2 ^ 96) := by
  rw [token1Over_eq hle, Word.ofNatChecked_eq_ok_iff]

/-! ### Either order of the ends -/

theorem token0Between_of_le (hle : low ≤ high) :
    liquidity.token0Between rounding low high = liquidity.token0Over rounding low high :=
  if_neg (BitVec.not_lt.2 hle)

theorem token1Between_of_le (hle : low ≤ high) :
    liquidity.token1Between rounding low high = liquidity.token1Over rounding low high :=
  if_neg (BitVec.not_lt.2 hle)

theorem token0Between_of_ge (hle : low ≤ high) :
    liquidity.token0Between rounding high low = liquidity.token0Over rounding low high := by
  by_cases hlt : low < high
  · exact if_pos hlt
  · rw [BitVec.le_antisymm hle (BitVec.not_lt.1 hlt)]
    exact if_neg (BitVec.lt_irrefl high)

theorem token1Between_of_ge (hle : low ≤ high) :
    liquidity.token1Between rounding high low = liquidity.token1Over rounding low high := by
  by_cases hlt : low < high
  · exact if_pos hlt
  · rw [BitVec.le_antisymm hle (BitVec.not_lt.1 hlt)]
    exact if_neg (BitVec.lt_irrefl high)

/-! ### No way at all -/

theorem token0Between_self {price : SqrtPrice} (hprice : price ≠ 0) :
    liquidity.token0Between rounding price price = .ok 0 := by
  rw [token0Between_of_le (BitVec.le_refl price), token0Over_eq_ok_iff (BitVec.le_refl price),
    Nat.sub_self, mul_zero, rounding.zero_divide]
  exact ⟨hprice, rfl⟩

theorem token1Between_self (price : SqrtPrice) :
    liquidity.token1Between rounding price price = .ok 0 := by
  rw [token1Between_of_le (BitVec.le_refl price), token1Over_eq_ok_iff (BitVec.le_refl price),
    Nat.sub_self, mul_zero, rounding.zero_divide]
  rfl

/-! ### Amounts between valid prices -/

theorem scaled_lt (liquidity : Liquidity) : liquidity.scaled.toNat < 2 ^ 224 := by
  have hlt := liquidity.isLt
  rw [toNat_scaled]
  omega

theorem token0Over_ok (hlow : low ≠ 0) (hle : low ≤ high) :
    ∃ amount, liquidity.token0Over rounding low high = .ok amount ∧ amount.toNat < 2 ^ 224 := by
  have hbound : rounding.divide (liquidity.scaled.toNat * (high.toNat - low.toNat))
      (high.toNat * low.toNat) ≤ liquidity.scaled.toNat := by
    apply rounding.divide_le_of_le_mul
    rw [mul_comm _ liquidity.scaled.toNat]
    apply Nat.mul_le_mul_left
    exact (Nat.sub_le _ _).trans (Nat.le_mul_of_pos_right _ (BitVec.toNat_pos_of_ne_zero hlow))
  have hlt := liquidity.scaled_lt
  obtain ⟨amount, hamount, hvalue⟩ := Word.exists_ofNatChecked_eq_ok
    (lt_of_le_of_lt hbound liquidity.scaled.isLt)
  exact ⟨amount, (token0Over_eq hlow hle).trans hamount, by omega⟩

theorem token1Over_ok (hhigh : high.Valid) (hle : low ≤ high) :
    ∃ amount, liquidity.token1Over rounding low high = .ok amount ∧ amount.toNat < 2 ^ 224 := by
  have hbound : rounding.divide (liquidity.toNat * (high.toNat - low.toNat)) (2 ^ 96) ≤
      2 ^ 192 := by
    apply rounding.divide_le_of_le_mul
    calc
      liquidity.toNat * (high.toNat - low.toNat) ≤ 2 ^ 128 * 2 ^ 160 :=
        Nat.mul_le_mul liquidity.isLt.le ((Nat.sub_le _ _).trans (by have := hhigh.le; omega))
      _ = 2 ^ 96 * 2 ^ 192 := by rw [← pow_add, ← pow_add]
  obtain ⟨amount, -, hvalue⟩ := Word.exists_ofNatChecked_eq_ok
    (lt_of_le_of_lt hbound (by decide))
  exact ⟨amount, (token1Over_eq_ok_iff hle).2 hvalue, by omega⟩

theorem token0Between_ok {a b : SqrtPrice} (ha : a.Valid) (hb : b.Valid) :
    ∃ amount, liquidity.token0Between rounding a b = .ok amount ∧ amount.toNat < 2 ^ 224 := by
  rcases BitVec.le_total a b with hle | hle
  · rw [token0Between_of_le hle]
    exact token0Over_ok ha.ne_zero hle
  · rw [token0Between_of_ge hle]
    exact token0Over_ok hb.ne_zero hle

theorem token1Between_ok {a b : SqrtPrice} (ha : a.Valid) (hb : b.Valid) :
    ∃ amount, liquidity.token1Between rounding a b = .ok amount ∧ amount.toNat < 2 ^ 224 := by
  rcases BitVec.le_total a b with hle | hle
  · rw [token1Between_of_le hle]
    exact token1Over_ok hb hle
  · rw [token1Between_of_ge hle]
    exact token1Over_ok ha hle

end Liquidity

end ConcentratedLiquidity
