import ConcentratedLiquidity.Proofs.Price.Amount
import Mathlib.Algebra.Order.Field.Basic
import Mathlib.Data.Rat.Floor
import Mathlib.Tactic.FieldSimp
import Mathlib.Tactic.Ring

/-!
# Exact amounts

Between two prices liquidity is worth an exact amount of each token, a rational number. For a unit of liquidity it is the difference of a coordinate of the prices: the price itself for token 1, and its negative inverse for token 0, so that both rise with the price. Exact amounts add up along the price axis and with the liquidity.

The amounts that are computed are the exact ones rounded once, as asked. An amount of token 0 fails only where a price is zero, and one of token 1 only where it is not a word.
-/

namespace ConcentratedLiquidity

inductive Token where
  | zero
  | one

/-! ### Coordinates of a price -/

/-- What a unit of liquidity holds of a token, counted so that it rises with the price. -/
def SqrtPrice.coordinate : Token → SqrtPrice → ℚ
  | .zero, price => -(2 ^ 96 / price.toNat)
  | .one, price => price.toNat / 2 ^ 96

namespace SqrtPrice

variable {low high : SqrtPrice}

theorem coordinate_lt (token : Token) (hlow : 0 < low.toNat) (hlt : low < high) :
    low.coordinate token < high.coordinate token := by
  have hcast : (low.toNat : ℚ) < high.toNat := Nat.cast_lt.2 hlt
  have hpos : (0 : ℚ) < low.toNat := Nat.cast_pos.2 hlow
  cases token with
  | zero => exact neg_lt_neg (div_lt_div_of_pos_left (by norm_num) hpos hcast)
  | one => exact div_lt_div_of_pos_right hcast (by norm_num)

theorem coordinate_le (token : Token) (hlow : 0 < low.toNat) (hle : low ≤ high) :
    low.coordinate token ≤ high.coordinate token := by
  by_cases heq : low = high
  · rw [heq]
  · exact (coordinate_lt token hlow (BitVec.lt_of_le_ne hle heq)).le

end SqrtPrice

/-! ### Exact amounts of liquidity -/

namespace Token

variable {low middle high : SqrtPrice}

/-- The exact amount of a token for liquidity between a lower and a higher price. -/
def exactAmountOver (token : Token) (liquidity : ℤ) (low high : ℕ) : ℚ :=
  match token with
  | .zero => liquidity * 2 ^ 96 * (high - low) / (high * low)
  | .one => liquidity * (high - low) / 2 ^ 96

/-- The exact amount of a token for liquidity between two prices, negative where the liquidity is. -/
def exactAmount (token : Token) (liquidity : ℤ) (a b : SqrtPrice) : ℚ :=
  token.exactAmountOver liquidity (min a.toNat b.toNat) (max a.toNat b.toNat)

theorem exactAmount_comm (token : Token) (liquidity : ℤ) (a b : SqrtPrice) :
    token.exactAmount liquidity a b = token.exactAmount liquidity b a := by
  rw [exactAmount, exactAmount, min_comm, max_comm]

theorem exactAmount_of_le (token : Token) (liquidity : ℤ) (hle : low ≤ high) :
    token.exactAmount liquidity low high = token.exactAmountOver liquidity low.toNat high.toNat := by
  rw [exactAmount, min_eq_left (BitVec.le_def.1 hle), max_eq_right (BitVec.le_def.1 hle)]

theorem exactAmount_eq_mul (token : Token) (liquidity : ℤ) (a b : SqrtPrice) :
    token.exactAmount liquidity a b = liquidity * token.exactAmount 1 a b := by
  rw [exactAmount, exactAmount]
  cases token with
  | zero => rw [exactAmountOver, exactAmountOver, Int.cast_one, one_mul, mul_assoc, mul_div_assoc]
  | one => rw [exactAmountOver, exactAmountOver, Int.cast_one, one_mul, mul_div_assoc]

theorem exactAmount_add (token : Token) (first second : ℤ) (a b : SqrtPrice) :
    token.exactAmount (first + second) a b =
      token.exactAmount first a b + token.exactAmount second a b := by
  rw [exactAmount_eq_mul, exactAmount_eq_mul token first, exactAmount_eq_mul token second,
    Int.cast_add, add_mul]

theorem exactAmount_neg (token : Token) (liquidity : ℤ) (a b : SqrtPrice) :
    token.exactAmount (-liquidity) a b = -token.exactAmount liquidity a b := by
  rw [exactAmount_eq_mul, exactAmount_eq_mul token liquidity, Int.cast_neg, neg_mul]

theorem exactAmount_zero (token : Token) (a b : SqrtPrice) : token.exactAmount 0 a b = 0 := by
  rw [exactAmount_eq_mul, Int.cast_zero, zero_mul]

theorem exactAmount_zero_eq (liquidity : ℤ) (hlow : 0 < low.toNat) (hle : low ≤ high) :
    Token.zero.exactAmount liquidity low high =
      liquidity * (high.coordinate .zero - low.coordinate .zero) := by
  have hlowPos : (low.toNat : ℚ) ≠ 0 := Nat.cast_ne_zero.2 hlow.ne'
  have hhighPos : (high.toNat : ℚ) ≠ 0 := Nat.cast_ne_zero.2 (lt_of_lt_of_le hlow hle).ne'
  rw [exactAmount_of_le _ _ hle, exactAmountOver, SqrtPrice.coordinate, SqrtPrice.coordinate]
  field_simp
  ring

theorem exactAmount_one_eq (liquidity : ℤ) (hle : low ≤ high) :
    Token.one.exactAmount liquidity low high =
      liquidity * (high.coordinate .one - low.coordinate .one) := by
  rw [exactAmount_of_le _ _ hle, exactAmountOver, SqrtPrice.coordinate, SqrtPrice.coordinate]
  ring

theorem exactAmount_eq (token : Token) (liquidity : ℤ) (hlow : 0 < low.toNat) (hle : low ≤ high) :
    token.exactAmount liquidity low high =
      liquidity * (high.coordinate token - low.coordinate token) := by
  cases token with
  | zero => exact exactAmount_zero_eq liquidity hlow hle
  | one => exact exactAmount_one_eq liquidity hle

theorem exactAmount_add_exactAmount (token : Token) (liquidity : ℤ) (hlow : 0 < low.toNat)
    (hfirst : low ≤ middle) (hsecond : middle ≤ high) :
    token.exactAmount liquidity low middle + token.exactAmount liquidity middle high =
      token.exactAmount liquidity low high := by
  rw [exactAmount_eq token liquidity hlow hfirst,
    exactAmount_eq token liquidity (hlow.trans_le hfirst) hsecond,
    exactAmount_eq token liquidity hlow (BitVec.le_trans hfirst hsecond)]
  ring

end Token

/-! ### Rounding -/

namespace Rounding

def round : Rounding → ℚ → ℤ
  | .down, amount => ⌊amount⌋
  | .up, amount => ⌈amount⌉

theorem divide_up_le_iff {value divisor bound : Nat} (hdivisor : 0 < divisor) :
    Rounding.up.divide value divisor ≤ bound ↔ (value : ℚ) / divisor ≤ bound := by
  rw [divide, ceilDiv_le_iff_le_mul hdivisor, div_le_iff₀ (Nat.cast_pos.2 hdivisor), mul_comm]
  exact_mod_cast Iff.rfl

theorem le_divide_down_iff {value divisor bound : Nat} (hdivisor : 0 < divisor) :
    bound ≤ Rounding.down.divide value divisor ↔ (bound : ℚ) ≤ value / divisor := by
  rw [divide, Nat.le_div_iff_mul_le hdivisor, le_div_iff₀ (Nat.cast_pos.2 hdivisor)]
  exact_mod_cast Iff.rfl

theorem round_div (rounding : Rounding) (value : Nat) {divisor : Nat} (hdivisor : 0 < divisor) :
    rounding.round (value / divisor) = rounding.divide value divisor := by
  cases rounding with
  | down => exact Rat.floor_natCast_div_natCast value divisor
  | up =>
    have hceil : ⌈(value : ℚ) / divisor⌉₊ = Rounding.up.divide value divisor :=
      eq_of_forall_ge_iff fun bound => by rw [Nat.ceil_le, divide_up_le_iff hdivisor]
    rw [← hceil, round, Int.natCast_ceil_eq_ceil (by positivity)]

end Rounding

/-! ### Computed amounts -/

namespace Liquidity

variable {liquidity : Liquidity} {rounding : Rounding} {low high : SqrtPrice} {amount : Word}

theorem token0_quotient (liquidity : Liquidity) (hle : low ≤ high) :
    ((liquidity.scaled.toNat * (high.toNat - low.toNat) : ℕ) : ℚ) / (high.toNat * low.toNat : ℕ) =
      Token.zero.exactAmount liquidity.toNat low high := by
  rw [liquidity.toNat_scaled, Token.exactAmount_of_le _ _ hle, Token.exactAmountOver]
  push_cast [Nat.cast_sub (BitVec.le_def.1 hle)]
  rfl

theorem token1_quotient (liquidity : Liquidity) (hle : low ≤ high) :
    ((liquidity.toNat * (high.toNat - low.toNat) : ℕ) : ℚ) / (2 ^ 96 : ℕ) =
      Token.one.exactAmount liquidity.toNat low high := by
  rw [Token.exactAmount_of_le _ _ hle, Token.exactAmountOver]
  push_cast [Nat.cast_sub (BitVec.le_def.1 hle)]
  rfl

theorem token0_exact (hlow : 0 < low.toNat) (hle : low ≤ high) :
    ((liquidity.scaled.toNat * (high.toNat - low.toNat) : ℕ) : ℚ) / (high.toNat * low.toNat : ℕ) =
      liquidity.toNat * (high.coordinate .zero - low.coordinate .zero) :=
  (liquidity.token0_quotient hle).trans (Token.exactAmount_zero_eq _ hlow hle)

theorem token1_exact (hle : low ≤ high) :
    ((liquidity.toNat * (high.toNat - low.toNat) : ℕ) : ℚ) / (2 ^ 96 : ℕ) =
      liquidity.toNat * (high.coordinate .one - low.coordinate .one) :=
  (liquidity.token1_quotient hle).trans (Token.exactAmount_one_eq _ hle)

/-- An amount of token 0 is divided twice and yet rounded only once. -/
theorem token0Over_value (hle : low ≤ high) (h : liquidity.token0Over rounding low high = .ok amount) :
    (amount.toNat : ℤ) = rounding.round (Token.zero.exactAmount liquidity.toNat low high) := by
  obtain ⟨hlow, hvalue⟩ := (token0Over_eq_ok_iff hle).1 h
  have hpos := BitVec.toNat_pos_of_ne_zero hlow
  rw [hvalue, ← rounding.round_div _ (Nat.mul_pos (hpos.trans_le hle) hpos),
    liquidity.token0_quotient hle]

theorem token1Over_value (hle : low ≤ high) (h : liquidity.token1Over rounding low high = .ok amount) :
    (amount.toNat : ℤ) = rounding.round (Token.one.exactAmount liquidity.toNat low high) := by
  rw [(token1Over_eq_ok_iff hle).1 h, ← rounding.round_div _ (Nat.two_pow_pos 96),
    liquidity.token1_quotient hle]

theorem token1Over_of_lt (hle : low ≤ high)
    (hfits : rounding.round (Token.one.exactAmount liquidity.toNat low high) < 2 ^ 256) :
    ∃ amount, liquidity.token1Over rounding low high = .ok amount := by
  rw [← liquidity.token1_quotient hle, rounding.round_div _ (Nat.two_pow_pos 96)] at hfits
  obtain ⟨amount, hamount, -⟩ := Word.exists_ofNatChecked_eq_ok (Int.ofNat_lt.1 hfits)
  exact ⟨amount, (token1Over_eq hle).trans hamount⟩

theorem token1Over_of_not_lt (hle : low ≤ high)
    (hlarge : ¬rounding.round (Token.one.exactAmount liquidity.toNat low high) < 2 ^ 256) :
    liquidity.token1Over rounding low high = .error .overflow := by
  rw [← liquidity.token1_quotient hle, rounding.round_div _ (Nat.two_pow_pos 96)] at hlarge
  rw [token1Over_eq hle]
  exact if_neg fun hfits => hlarge (Int.ofNat_lt.2 hfits)

/-! ### Either order of the ends -/

variable {a b : SqrtPrice}

theorem token0Between_comm (liquidity : Liquidity) (rounding : Rounding) (a b : SqrtPrice) :
    liquidity.token0Between rounding a b = liquidity.token0Between rounding b a := by
  rcases BitVec.le_total a b with hle | hle
  · rw [token0Between_of_le hle, token0Between_of_ge hle]
  · rw [token0Between_of_le hle, token0Between_of_ge hle]

theorem token1Between_comm (liquidity : Liquidity) (rounding : Rounding) (a b : SqrtPrice) :
    liquidity.token1Between rounding a b = liquidity.token1Between rounding b a := by
  rcases BitVec.le_total a b with hle | hle
  · rw [token1Between_of_le hle, token1Between_of_ge hle]
  · rw [token1Between_of_le hle, token1Between_of_ge hle]

/-! ### Either token -/

def amountBetween (liquidity : Liquidity) (token : Token) (rounding : Rounding) (a b : SqrtPrice) :
    Except Error Word :=
  match token with
  | .zero => liquidity.token0Between rounding a b
  | .one => liquidity.token1Between rounding a b

theorem amountBetween_comm (liquidity : Liquidity) (token : Token) (rounding : Rounding)
    (a b : SqrtPrice) :
    liquidity.amountBetween token rounding a b = liquidity.amountBetween token rounding b a := by
  cases token with
  | zero => exact liquidity.token0Between_comm rounding a b
  | one => exact liquidity.token1Between_comm rounding a b

theorem amountBetween_value (token : Token) (h : liquidity.amountBetween token rounding a b = .ok amount) :
    (amount.toNat : ℤ) = rounding.round (token.exactAmount liquidity.toNat a b) := by
  wlog hle : a ≤ b generalizing a b
  · rw [amountBetween_comm] at h
    rw [Token.exactAmount_comm]
    exact this h ((BitVec.le_total a b).resolve_left hle)
  · cases token with
    | zero => exact token0Over_value hle ((token0Between_of_le hle).symm.trans h)
    | one => exact token1Over_value hle ((token1Between_of_le hle).symm.trans h)

theorem amountBetween_ok (liquidity : Liquidity) (token : Token) (rounding : Rounding) (ha : a.Valid)
    (hb : b.Valid) :
    ∃ amount, liquidity.amountBetween token rounding a b = .ok amount ∧ amount.toNat < 2 ^ 224 := by
  cases token with
  | zero => exact token0Between_ok ha hb
  | one => exact token1Between_ok ha hb

/-- Between two prices in either order an amount is the exact one, rounded once. That of token 0 is always a word, and is refused only where a price is zero. That of token 1 is refused where it is not a word, and nowhere else. -/
theorem amounts_are_exact_rounded (liquidity : Liquidity) (rounding : Rounding) (a b : SqrtPrice) :
    (if min a.toNat b.toNat = 0 then
      liquidity.token0Between rounding a b = .error .sqrtRatioZero
    else
      ∃ amount, liquidity.token0Between rounding a b = .ok amount ∧
        (amount.toNat : ℤ) = rounding.round (Token.zero.exactAmount liquidity.toNat a b)) ∧
    if rounding.round (Token.one.exactAmount liquidity.toNat a b) < 2 ^ 256 then
      ∃ amount, liquidity.token1Between rounding a b = .ok amount ∧
        (amount.toNat : ℤ) = rounding.round (Token.one.exactAmount liquidity.toNat a b)
    else
      liquidity.token1Between rounding a b = .error .overflow := by
  -- Nothing that is stated depends on the order of the ends.
  wlog hle : a ≤ b generalizing a b
  · rw [min_comm, token0Between_comm, token1Between_comm, Token.exactAmount_comm,
      Token.exactAmount_comm .one]
    exact this b a ((BitVec.le_total a b).resolve_left hle)
  · constructor
    · rw [min_eq_left (BitVec.le_def.1 hle)]
      split
      · rename_i hzero
        rw [token0Between_of_le hle, show a = 0 from BitVec.eq_of_toNat_eq hzero]
        exact liquidity.token0Over_zero rounding b
      · rename_i hpos
        have hlow : a ≠ 0 := fun hzero => hpos (by rw [hzero]; rfl)
        obtain ⟨amount, hamount, -⟩ := @token0Over_ok liquidity rounding a b hlow hle
        rw [← token0Between_of_le hle] at hamount
        exact ⟨amount, hamount, amountBetween_value .zero hamount⟩
    · split
      · rename_i hfits
        obtain ⟨amount, hamount⟩ := token1Over_of_lt hle hfits
        rw [← token1Between_of_le hle] at hamount
        exact ⟨amount, hamount, amountBetween_value .one hamount⟩
      · rename_i hlarge
        rw [token1Between_of_le hle]
        exact token1Over_of_not_lt hle hlarge

end Liquidity

end ConcentratedLiquidity
