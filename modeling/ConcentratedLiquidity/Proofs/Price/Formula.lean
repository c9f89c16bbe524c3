import ConcentratedLiquidity.Proofs.Price.Next
import ConcentratedLiquidity.Proofs.Word.Divisors

/-!
# Prices after a trade, by formula

What each of the four functions returns for every price, liquidity and amount, a price that no pool can hold included. The value is a formula over unbounded numbers, and each failure is tied to the first bound that the formula breaks: a divisor that is zero, a number that is not a word, reserves that do not suffice, a price of more than 160 bits.

Which of two ways a computation takes does not show in its result. For token 1 there is one formula, whether or not the amount can be shifted. For token 0 the two formulas are told apart by the unbounded denominator alone, although the tests for it are made on words that may have wrapped.
-/

namespace ConcentratedLiquidity.SqrtPrice

variable {price : SqrtPrice} {liquidity : Liquidity} {amount : Word}

/-- The price of a number, which must take at most 160 bits. -/
def ofNatChecked (value : Nat) : Except Error SqrtPrice :=
  if value < 2 ^ 160 then .ok (BitVec.ofNat 256 value) else .error .exceedsPriceWidth

theorem ofWord_eq (word : Word) : ofWord word = ofNatChecked word.toNat := by
  have hfits : word ≤ largest ↔ word.toNat < 2 ^ 160 := by
    rw [le_largest_iff]
    omega
  rw [ofWord, ofNatChecked, BitVec.ofNat_toNat, BitVec.setWidth_eq]
  simp only [hfits]

/-- Of the two checks on a number the one for a word comes first. -/
theorem checked_eq (value : Nat) :
    (Word.ofNatChecked value >>= ofWord) =
      if value < 2 ^ 256 then ofNatChecked value else .error .overflow := by
  by_cases hfits : value < 2 ^ 256
  · obtain ⟨word, hword, hvalue⟩ := Word.exists_ofNatChecked_eq_ok hfits
    rw [hword, ok_bind, ofWord_eq, hvalue, if_pos hfits]
  · rw [Word.ofNatChecked, if_neg hfits, if_neg hfits]
    rfl

theorem checked_eq_of_le_price {value : Nat} (h : value ≤ price.toNat) :
    (Word.ofNatChecked value >>= ofWord) = ofNatChecked value := by
  rw [checked_eq, if_pos (lt_of_le_of_lt h price.isLt)]

/-! ### Token 0 -/

/-- `afterToken0In` with quotients that may fail. -/
def afterToken0InOrFail (cause : Error) (price : SqrtPrice) (liquidity : Liquidity)
    (amount : Word) : Except Error SqrtPrice :=
  if amount = 0 then
    .ok price
  else do
    let scaled := liquidity.scaled
    let product := amount * price
    let factor ← Word.divideOrFail cause product amount
    if factor = price ∧ scaled ≤ scaled + product then do
      ofWord (← Word.mulDivUpOrFail cause scaled price (scaled + product))
    else do
      let perPrice ← Word.divideOrFail cause scaled price
      let total ← Word.addChecked perPrice amount
      ofWord (← Word.divUpOrFail cause scaled total)

def afterToken0OutOrFail (cause : Error) (price : SqrtPrice) (liquidity : Liquidity)
    (amount : Word) : Except Error SqrtPrice :=
  if amount = 0 then
    .ok price
  else do
    let scaled := liquidity.scaled
    let product := amount * price
    let factor ← Word.divideOrFail cause product amount
    if factor ≠ price ∨ scaled ≤ product then
      .error .insufficientReserves
    else do
      ofWord (← Word.mulDivUpOrFail cause scaled price (scaled - product))

theorem afterToken0InOrFail_eq (cause : Error) (price : SqrtPrice) (liquidity : Liquidity)
    (amount : Word) :
    price.afterToken0InOrFail cause liquidity amount = price.afterToken0In liquidity amount := by
  by_cases hamount : amount = 0
  · rw [afterToken0InOrFail, afterToken0In, if_pos hamount, if_pos hamount]
  · rw [afterToken0InOrFail, afterToken0In, if_neg hamount, if_neg hamount]
    simp only [Word.divideOrFail_eq_ok cause _ hamount, ok_bind, Word.mulDivUpOrFail_eq,
      Word.divUpOrFail_eq]
    by_cases hfits : liquidity.scaled.toNat + amount.toNat * price.toNat < 2 ^ 256
    · rw [if_pos ((fits_iff hamount).2 hfits), if_pos ((fits_iff hamount).2 hfits)]
    · -- a price of zero would leave the denominator at the liquidity, which is a word
      have hprice : price ≠ 0 := by
        rintro rfl
        exact absurd (pos_of_wraps (Nat.le_of_not_lt hfits)).2 (lt_irrefl 0)
      rw [if_neg (mt (fits_iff hamount).1 hfits), if_neg (mt (fits_iff hamount).1 hfits),
        Word.divideOrFail_eq_ok cause _ hprice, ok_bind]

theorem afterToken0OutOrFail_eq (cause : Error) (price : SqrtPrice) (liquidity : Liquidity)
    (amount : Word) :
    price.afterToken0OutOrFail cause liquidity amount = price.afterToken0Out liquidity amount := by
  by_cases hamount : amount = 0
  · rw [afterToken0OutOrFail, afterToken0Out, if_pos hamount, if_pos hamount]
  · rw [afterToken0OutOrFail, afterToken0Out, if_neg hamount, if_neg hamount]
    simp only [Word.divideOrFail_eq_ok cause _ hamount, ok_bind, Word.mulDivUpOrFail_eq]

/-- The formula is chosen by the unbounded denominator, and a rounded denominator that is no word either is a failure of its own. -/
theorem afterToken0In_eq_exact (price : SqrtPrice) (liquidity : Liquidity) (amount : Word) :
    price.afterToken0In liquidity amount =
      if amount = 0 then .ok price
      else if liquidity.scaled.toNat + amount.toNat * price.toNat = 0 then .error .divisionByZero
      else if liquidity.scaled.toNat + amount.toNat * price.toNat < 2 ^ 256 then
        ofNatChecked ((liquidity.scaled.toNat * price.toNat) ⌈/⌉
          (liquidity.scaled.toNat + amount.toNat * price.toNat))
      else if liquidity.scaled.toNat / price.toNat + amount.toNat < 2 ^ 256 then
        ofNatChecked (liquidity.scaled.toNat ⌈/⌉
          (liquidity.scaled.toNat / price.toNat + amount.toNat))
      else .error .overflow := by
  by_cases hamount : amount = 0
  · rw [if_pos hamount, hamount, afterToken0In_zero]
  rw [if_neg hamount]
  by_cases hzero : liquidity.scaled.toNat + amount.toNat * price.toNat = 0
  · rw [if_pos hzero, afterToken0In_eq_error_of_zero hamount hzero]
  rw [if_neg hzero]
  by_cases hfits : liquidity.scaled.toNat + amount.toNat * price.toNat < 2 ^ 256
  · rw [if_pos hfits, afterToken0In_eq_of_fits hamount hfits (Nat.pos_of_ne_zero hzero)]
    exact checked_eq_of_le_price (exact_le_price _ _ price)
  have hwraps := Nat.le_of_not_lt hfits
  rw [if_neg hfits, afterToken0In_eq_of_wraps hamount hwraps]
  by_cases htotal : liquidity.scaled.toNat / price.toNat + amount.toNat < 2 ^ 256
  · obtain ⟨total, hsum, hvalue⟩ := Word.exists_ofNatChecked_eq_ok htotal
    rw [if_pos htotal, hsum, ok_bind, hvalue]
    exact checked_eq_of_le_price (rounded_le_price _ (pos_of_wraps hwraps).2 hamount)
  · rw [if_neg htotal, Word.ofNatChecked, if_neg htotal]
    rfl

theorem afterToken0Out_eq_exact (price : SqrtPrice) (liquidity : Liquidity) (amount : Word) :
    price.afterToken0Out liquidity amount =
      if amount = 0 then .ok price
      else if liquidity.scaled.toNat ≤ amount.toNat * price.toNat then .error .insufficientReserves
      else if (liquidity.scaled.toNat * price.toNat) ⌈/⌉
          (liquidity.scaled.toNat - amount.toNat * price.toNat) < 2 ^ 256 then
        ofNatChecked ((liquidity.scaled.toNat * price.toNat) ⌈/⌉
          (liquidity.scaled.toNat - amount.toNat * price.toNat))
      else .error .overflow := by
  by_cases hamount : amount = 0
  · rw [if_pos hamount, hamount, afterToken0Out_zero]
  · rw [if_neg hamount, afterToken0Out_eq hamount, checked_eq]
    by_cases hheld : amount.toNat * price.toNat < liquidity.scaled.toNat
    · rw [if_pos hheld, if_neg (Nat.not_le.2 hheld)]
    · rw [if_neg hheld, if_pos (Nat.not_lt.1 hheld)]

/-- An amount of token 0 that comes in moves the price to the exact one, rounded up, as long as the denominator is a word, and otherwise to one that is rounded further up without rising above the price before. An amount that goes out moves it to the exact one, rounded up, if the reserves suffice. Nothing else can happen, and nothing is divided by zero on the way. -/
theorem afterToken0_follows_formula (price : SqrtPrice) (liquidity : Liquidity) (amount : Word) :
    let scaled := liquidity.toNat * 2 ^ 96
    let product := amount.toNat * price.toNat
    let exact := (scaled * price.toNat) ⌈/⌉ (scaled + product)
    let rounded := scaled ⌈/⌉ (scaled / price.toNat + amount.toNat)
    let risen := (scaled * price.toNat) ⌈/⌉ (scaled - product)
    (price.afterToken0In liquidity amount =
      if amount = 0 then .ok price
      else if scaled + product = 0 then .error .divisionByZero
      else if scaled + product < 2 ^ 256 then ofNatChecked exact
      else if scaled / price.toNat + amount.toNat < 2 ^ 256 then ofNatChecked rounded
      else .error .overflow) ∧
    (2 ^ 256 ≤ scaled + product → exact ≤ rounded ∧ rounded ≤ price.toNat) ∧
    (price.afterToken0Out liquidity amount =
      if amount = 0 then .ok price
      else if scaled ≤ product then .error .insufficientReserves
      else if risen < 2 ^ 256 then ofNatChecked risen
      else .error .overflow) ∧
    ∀ cause,
      price.afterToken0InOrFail cause liquidity amount = price.afterToken0In liquidity amount ∧
      price.afterToken0OutOrFail cause liquidity amount = price.afterToken0Out liquidity amount := by
  rw [← liquidity.toNat_scaled]
  refine ⟨afterToken0In_eq_exact price liquidity amount, fun hwraps => ?_,
    afterToken0Out_eq_exact price liquidity amount, fun cause =>
      ⟨afterToken0InOrFail_eq cause price liquidity amount,
        afterToken0OutOrFail_eq cause price liquidity amount⟩⟩
  obtain ⟨hamount, hprice⟩ := pos_of_wraps hwraps
  exact ⟨ceilDiv_le_of_le_mul (scaled_mul_price_le_rounded hamount),
    rounded_le_price _ hprice hamount⟩

/-- The exact price is a whole number here, and yet the price comes to rest above it. -/
theorem afterToken0_rests_above_exact :
    let price : SqrtPrice := 0x7ffffffffffffffe000000000000000000000000
    let liquidity : Liquidity := 0x3fffffffffffffff3fffffffffffffff
    let amount : Word := 0x1fffffffffffffff1fffffffffffffff
    let scaled := liquidity.toNat * 2 ^ 96
    let product := amount.toNat * price.toNat
    let exact := (scaled * price.toNat) ⌈/⌉ (scaled + product)
    let rounded := scaled ⌈/⌉ (scaled / price.toNat + amount.toNat)
    2 ^ 256 ≤ scaled + product ∧ exact ≤ rounded ∧ rounded ≤ price.toNat ∧
      exact = 2 ^ 97 ∧ price.afterToken0In liquidity amount = .ok 0x2000000000000000000000001 := by
  intro price liquidity amount scaled product exact rounded
  have hwraps : 2 ^ 256 ≤ scaled + product := by decide +kernel
  obtain ⟨hexact, hprice⟩ := (afterToken0_follows_formula price liquidity amount).2.1 hwraps
  exact ⟨hwraps, hexact, hprice, by decide +kernel, by decide +kernel⟩

/-! ### Token 1 -/

theorem shiftByToken1_zero (rounding : Rounding) (amount : Word) :
    shiftByToken1 rounding 0 amount = .error .divisionByZero := if_pos rfl

theorem toWord_zero : (0 : Liquidity).toWord = 0 := rfl

theorem shiftByToken1_eq_mulDivWord (rounding : Rounding) (liquidity : Liquidity) (amount : Word) :
    shiftByToken1 rounding liquidity amount = rounding.mulDivWord amount one liquidity.toWord := by
  by_cases hliquidity : liquidity = 0
  · rw [hliquidity, shiftByToken1_zero, toWord_zero, rounding.mulDivWord_zero]
  · rw [shiftByToken1_eq rounding hliquidity,
      rounding.mulDivWord_eq (liquidity.toWord_ne_zero hliquidity), toNat_one,
      liquidity.toNat_toWord]

theorem checkedRise_eq (price : SqrtPrice) (rise : Nat) :
    (Word.ofNatChecked rise >>= fun rise => Word.addChecked price rise >>= ofWord) =
      if price.toNat + rise < 2 ^ 256 then ofNatChecked (price.toNat + rise)
      else .error .overflow := by
  by_cases hrise : rise < 2 ^ 256
  · obtain ⟨word, hword, hvalue⟩ := Word.exists_ofNatChecked_eq_ok hrise
    rw [hword, ok_bind, Word.addChecked_eq, hvalue, checked_eq]
  · rw [Word.ofNatChecked, if_neg hrise, if_neg (by omega)]
    rfl

/-- A fall that is not a word is refused before it is compared with the price. -/
theorem checkedFall_eq (price : SqrtPrice) (fall : Nat) :
    (Word.ofNatChecked fall >>= fun fall =>
      if price ≤ fall then .error .insufficientReserves else ofWord (price - fall)) =
      if 2 ^ 256 ≤ fall then .error .overflow
      else if price.toNat ≤ fall then .error .insufficientReserves
      else ofNatChecked (price.toNat - fall) := by
  by_cases hfall : fall < 2 ^ 256
  · obtain ⟨word, hword, rfl⟩ := Word.exists_ofNatChecked_eq_ok hfall
    rw [hword, ok_bind, if_neg (Nat.not_le.2 hfall)]
    by_cases hlack : price ≤ word
    · rw [if_pos hlack, if_pos (BitVec.le_def.1 hlack)]
    · rw [if_neg hlack, if_neg (mt BitVec.le_def.2 hlack), ofWord_eq,
        BitVec.toNat_sub_of_le (BitVec.le_of_lt (BitVec.not_le.1 hlack))]
  · rw [Word.ofNatChecked, if_neg hfall, if_pos (Nat.le_of_not_lt hfall)]
    rfl

/-- An amount of token 1 moves the price by the exact change, rounded against the trader, whichever way the change is computed, and every number that is out of bounds is refused as such. -/
theorem afterToken1_follows_formula (price : SqrtPrice) (liquidity : Liquidity) (amount : Word) :
    let rise := amount.toNat * 2 ^ 96 / liquidity.toNat
    let fall := (amount.toNat * 2 ^ 96) ⌈/⌉ liquidity.toNat
    (price.afterToken1In liquidity amount =
      if liquidity = 0 then .error .divisionByZero
      else if price.toNat + rise < 2 ^ 256 then ofNatChecked (price.toNat + rise)
      else .error .overflow) ∧
    (price.afterToken1Out liquidity amount =
      if liquidity = 0 then .error .divisionByZero
      else if 2 ^ 256 ≤ fall then .error .overflow
      else if price.toNat ≤ fall then .error .insufficientReserves
      else ofNatChecked (price.toNat - fall)) ∧
    ∀ rounding : Rounding,
      shiftByToken1 rounding liquidity amount =
        rounding.mulDivWord amount one liquidity.toWord := by
  intro rise fall
  refine ⟨?_, ?_, fun rounding => shiftByToken1_eq_mulDivWord rounding liquidity amount⟩
  · split
    · rename_i hzero
      rw [hzero, afterToken1In, shiftByToken1_zero]
      rfl
    · rename_i hliquidity
      rw [afterToken1In, shiftByToken1_eq .down hliquidity]
      exact checkedRise_eq price rise
  · split
    · rename_i hzero
      rw [hzero, afterToken1Out, shiftByToken1_zero]
      rfl
    · rename_i hliquidity
      rw [afterToken1Out, shiftByToken1_eq .up hliquidity]
      exact checkedFall_eq price fall

end ConcentratedLiquidity.SqrtPrice
