import ConcentratedLiquidity.Proofs.Error
import ConcentratedLiquidity.Proofs.Price.Exact
import ConcentratedLiquidity.Proofs.Signed

/-!
# Amounts of liquidity changes

Added liquidity is paid for and removed liquidity is paid out, and both are rounded in favour of the pool. With its sign the amount is in either case the exact one rounded up. What is paid for the changes of a history is therefore never less than what their sum would cost, and a history whose changes cancel leaves nothing missing.
-/

namespace ConcentratedLiquidity.LiquidityChange

variable {a b : SqrtPrice}

def amountBetween (change : LiquidityChange) (token : Token) (a b : SqrtPrice) :
    Except Error SignedWord :=
  match token with
  | .zero => change.token0Between a b
  | .one => change.token1Between a b

theorem amountBetween_eq (change : LiquidityChange) (token : Token) (a b : SqrtPrice) :
    change.amountBetween token a b =
      Liquidity.amountBetween change.magnitude token change.rounding a b >>= change.signed := by
  cases token <;> rfl

/-! ### One change -/

theorem signed_ok (change : LiquidityChange) {amount : Word} (hamount : amount.toNat < 2 ^ 255) :
    ∃ result, change.signed amount = .ok result ∧
      result.toInt = if change.isNegative then -(amount.toNat : ℤ) else amount.toNat := by
  obtain ⟨plain, hvalue⟩ : ∃ plain : SignedWord, plain.toInt = amount.toNat :=
    ⟨Signed.ofInt 256 _, Signed.toInt_ofInt (by decide) (by omega) (by omega)⟩
  refine ⟨if change.isNegative then -plain else plain, ?_, ?_⟩
  · rw [signed, Word.toSigned_eq_ok_iff.2 hvalue, ok_bind]
  · split
    · rw [Signed.toInt_neg (by decide) (by omega), hvalue]
    · exact hvalue

/-- The magnitude is that of the integer also for the lowest change, which has no negative. -/
theorem exactAmount_magnitude (change : LiquidityChange) (token : Token) (a b : SqrtPrice) :
    token.exactAmount change.magnitude.toNat a b =
      if change.isNegative then -token.exactAmount change.toInt a b
      else token.exactAmount change.toInt a b := by
  have hsign := change.isNegative_iff
  rw [change.toNat_magnitude]
  split
  · rename_i hnegative
    rw [← Token.exactAmount_neg, Int.ofNat_natAbs_of_nonpos (hsign.1 hnegative).le]
  · rename_i hpositive
    rw [Int.natAbs_of_nonneg (Int.not_lt.1 (mt hsign.2 hpositive))]

theorem amountBetween_eq_ceil (change : LiquidityChange) (token : Token) (ha : a.Valid)
    (hb : b.Valid) :
    ∃ result, change.amountBetween token a b = .ok result ∧
      result.toInt = ⌈token.exactAmount change.toInt a b⌉ := by
  obtain ⟨amount, hamount, hlt⟩ :=
    Liquidity.amountBetween_ok change.magnitude token change.rounding ha hb
  obtain ⟨result, hresult, hvalue⟩ := change.signed_ok (hlt.trans (by decide))
  refine ⟨result, ?_, ?_⟩
  · rw [amountBetween_eq, hamount, ok_bind, hresult]
  · rw [hvalue, Liquidity.amountBetween_value token hamount, exactAmount_magnitude, rounding]
    split
    · rw [Rounding.round, Int.floor_neg, neg_neg]
    · rfl

/-! ### A history of changes -/

theorem ceil_exactAmount_sum_le (token : Token) (ha : a.Valid) (hb : b.Valid)
    (changes : List LiquidityChange) :
    ∃ amounts, changes.mapM (·.amountBetween token a b) = .ok amounts ∧
      ⌈token.exactAmount (changes.map Signed.toInt).sum a b⌉ ≤ (amounts.map Signed.toInt).sum := by
  induction changes with
  | nil => exact ⟨[], rfl, by simp [Token.exactAmount_zero]⟩
  | cons change changes ih =>
    obtain ⟨amounts, hamounts, hle⟩ := ih
    obtain ⟨amount, hamount, hvalue⟩ := change.amountBetween_eq_ceil token ha hb
    refine ⟨amount :: amounts, ?_, ?_⟩
    · rw [List.mapM_cons, hamount, ok_bind, hamounts]
      rfl
    · rw [List.map_cons, List.map_cons, List.sum_cons, List.sum_cons, Token.exactAmount_add, hvalue]
      exact (Int.ceil_add_le _ _).trans (Int.add_le_add_left hle _)

/-- A change of liquidity moves the exact amount rounded up, for both signs. So where the changes of a history cancel, no more is paid out than is paid in. -/
theorem amounts_favour_pool (token : Token) (ha : a.Valid) (hb : b.Valid) :
    (∀ change : LiquidityChange, ∃ amount, change.amountBetween token a b = .ok amount ∧
      amount.toInt = ⌈token.exactAmount change.toInt a b⌉) ∧
    ∀ changes : List LiquidityChange, (changes.map Signed.toInt).sum = 0 →
      ∃ amounts, changes.mapM (·.amountBetween token a b) = .ok amounts ∧
        0 ≤ (amounts.map Signed.toInt).sum := by
  refine ⟨fun change => change.amountBetween_eq_ceil token ha hb, fun changes hcancel => ?_⟩
  obtain ⟨amounts, hamounts, hle⟩ := ceil_exactAmount_sum_le token ha hb changes
  rw [hcancel, Token.exactAmount_zero, Int.ceil_zero] at hle
  exact ⟨amounts, hamounts, hle⟩

/-- The lowest change is undone in two, and one unit stays in the pool. -/
theorem amounts_favour_pool_over_lowest :
    let lowest : LiquidityChange := ⟨BitVec.intMin 128⟩
    let changes := [lowest, ⟨BitVec.intMax 128⟩, ⟨1⟩]
    (changes.map Signed.toInt).sum = 0 ∧
      (∃ amount, lowest.amountBetween .one SqrtPrice.one (SqrtPrice.one + 1) = .ok amount ∧
        amount.toInt = ⌈Token.one.exactAmount (-2 ^ 127) SqrtPrice.one (SqrtPrice.one + 1)⌉) ∧
      ∃ amounts, changes.mapM (·.amountBetween .one SqrtPrice.one (SqrtPrice.one + 1)) = .ok amounts ∧
        0 ≤ (amounts.map Signed.toInt).sum := by
  intro lowest changes
  have hcancel : (changes.map Signed.toInt).sum = 0 := by decide
  obtain ⟨hceil, hfavour⟩ := amounts_favour_pool .one (a := SqrtPrice.one) (b := SqrtPrice.one + 1)
    ⟨by decide, by decide⟩ ⟨by decide, by decide⟩
  exact ⟨hcancel, hceil lowest, hfavour changes hcancel⟩

end ConcentratedLiquidity.LiquidityChange
