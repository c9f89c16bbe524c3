import ConcentratedLiquidity.Price.Next
import ConcentratedLiquidity.Proofs.Error
import ConcentratedLiquidity.Proofs.Price.Amount
import Mathlib.Tactic.Linarith
import Mathlib.Tactic.Ring

/-!
# Prices after a trade, without wrapping

Each of the four functions is a formula over unbounded numbers, followed by the check that its result is a price. The tests on wrapped words that choose between formulas ask whether an unbounded number is a word. From the formulas follow the inequalities that the theory of trades uses: how far the price moves, and on which side of the exact price it comes to rest.
-/

namespace ConcentratedLiquidity

namespace Word

/-! ### Tests for wrapping -/

theorem mul_div_eq_iff {amount price : Word} (hamount : amount ≠ 0) :
    amount * price / amount = price ↔ amount.toNat * price.toNat < 2 ^ 256 := by
  have hpos := BitVec.toNat_pos_of_ne_zero hamount
  rw [← BitVec.toNat_inj, BitVec.toNat_udiv, BitVec.toNat_mul]
  constructor
  · intro heq
    have hle : amount.toNat * price.toNat ≤ amount.toNat * price.toNat % 2 ^ 256 := by
      rw [mul_comm, ← Nat.le_div_iff_mul_le hpos, mul_comm]
      exact heq.ge
    exact lt_of_le_of_lt hle (Nat.mod_lt _ (by decide))
  · intro hlt
    rw [Nat.mod_eq_of_lt hlt, Nat.mul_div_cancel_left _ hpos]

theorem le_add_right_iff {a b : Word} : a ≤ a + b ↔ a.toNat + b.toNat < 2 ^ 256 := by
  have ha := a.isLt
  have hb := b.isLt
  rw [BitVec.le_def, BitVec.toNat_add]
  omega

theorem addChecked_eq (a b : Word) : addChecked a b = ofNatChecked (a.toNat + b.toNat) := by
  unfold addChecked BitVec.uaddOverflow ofNatChecked
  by_cases hlarge : 2 ^ 256 ≤ a.toNat + b.toNat
  · rw [if_pos (decide_eq_true hlarge), if_neg (Nat.not_lt.2 hlarge)]
  · rw [if_neg (by simpa using hlarge), if_pos (Nat.not_le.1 hlarge)]
    exact congrArg Except.ok (BitVec.eq_of_toNat_eq (BitVec.toNat_add a b))

end Word

namespace SqrtPrice

variable {price next : SqrtPrice} {liquidity : Liquidity} {amount : Word}

theorem checked_eq_ok_iff {value : Nat} :
    (Word.ofNatChecked value >>= ofWord) = .ok next ↔ next.toNat = value ∧ next ≤ largest := by
  rw [bind_eq_ok_iff]
  constructor
  · rintro ⟨word, hword, hnext⟩
    rw [Word.ofNatChecked_eq_ok_iff] at hword
    obtain ⟨rfl, hle⟩ := ofWord_eq_ok_iff.1 hnext
    exact ⟨hword, hle⟩
  · rintro ⟨hvalue, hle⟩
    exact ⟨next, Word.ofNatChecked_eq_ok_iff.2 hvalue, ofWord_eq_ok_iff.2 ⟨rfl, hle⟩⟩

theorem exists_checked_eq_ok {value : Nat} (h : value ≤ 2 ^ 160 - 1) :
    ∃ next, (Word.ofNatChecked value >>= ofWord) = .ok next := by
  obtain ⟨next, -, hvalue⟩ := Word.exists_ofNatChecked_eq_ok (lt_of_le_of_lt h (by decide))
  refine ⟨next, checked_eq_ok_iff.2 ⟨hvalue, ?_⟩⟩
  rw [le_largest_iff, hvalue]
  exact h

/-! ### Token 0 paid in -/

theorem afterToken0In_zero (price : SqrtPrice) (liquidity : Liquidity) :
    price.afterToken0In liquidity 0 = .ok price := if_pos rfl

theorem afterToken0Out_zero (price : SqrtPrice) (liquidity : Liquidity) :
    price.afterToken0Out liquidity 0 = .ok price := if_pos rfl

theorem toNat_denominator
    (hfits : liquidity.scaled.toNat + amount.toNat * price.toNat < 2 ^ 256) :
    (liquidity.scaled + amount * price).toNat =
      liquidity.scaled.toNat + amount.toNat * price.toNat := by
  have hproduct : amount.toNat * price.toNat < 2 ^ 256 := by omega
  rw [BitVec.toNat_add, BitVec.toNat_mul, Nat.mod_eq_of_lt hproduct, Nat.mod_eq_of_lt hfits]

/-- The tests find that the denominator is a word exactly where it is one. -/
theorem fits_iff (hamount : amount ≠ 0) :
    (amount * price / amount = price ∧ liquidity.scaled ≤ liquidity.scaled + amount * price) ↔
      liquidity.scaled.toNat + amount.toNat * price.toNat < 2 ^ 256 := by
  rw [Word.mul_div_eq_iff hamount, Word.le_add_right_iff, BitVec.toNat_mul]
  constructor
  · rintro ⟨hproduct, hsum⟩
    rwa [Nat.mod_eq_of_lt hproduct] at hsum
  · intro hfits
    have hproduct : amount.toNat * price.toNat < 2 ^ 256 := by omega
    rw [Nat.mod_eq_of_lt hproduct]
    exact ⟨hproduct, hfits⟩

theorem afterToken0In_eq_mulDivUp (hamount : amount ≠ 0)
    (hfits : liquidity.scaled.toNat + amount.toNat * price.toNat < 2 ^ 256) :
    price.afterToken0In liquidity amount =
      (Word.mulDivUp liquidity.scaled price (liquidity.scaled + amount * price) >>= ofWord) := by
  rw [afterToken0In, if_neg hamount]
  exact if_pos ((fits_iff hamount).2 hfits)

theorem afterToken0In_eq_of_fits (hamount : amount ≠ 0)
    (hfits : liquidity.scaled.toNat + amount.toNat * price.toNat < 2 ^ 256)
    (hpos : 0 < liquidity.scaled.toNat + amount.toNat * price.toNat) :
    price.afterToken0In liquidity amount =
      (Word.ofNatChecked ((liquidity.scaled.toNat * price.toNat) ⌈/⌉
        (liquidity.scaled.toNat + amount.toNat * price.toNat)) >>= ofWord) := by
  have hsum := toNat_denominator hfits
  have hdivisor : liquidity.scaled + amount * price ≠ 0 := by
    intro hzero
    rw [hzero] at hsum
    exact absurd hsum.symm hpos.ne'
  rw [afterToken0In_eq_mulDivUp hamount hfits, Word.mulDivUp_eq hdivisor, hsum]

theorem afterToken0In_eq_error_of_zero (hamount : amount ≠ 0)
    (hzero : liquidity.scaled.toNat + amount.toNat * price.toNat = 0) :
    price.afterToken0In liquidity amount = .error .divisionByZero := by
  have hfits : liquidity.scaled.toNat + amount.toNat * price.toNat < 2 ^ 256 := by omega
  have hsum : liquidity.scaled + amount * price = 0 :=
    BitVec.eq_of_toNat_eq ((toNat_denominator hfits).trans hzero)
  rw [afterToken0In_eq_mulDivUp hamount hfits, hsum, Word.mulDivUp_zero]
  rfl

theorem afterToken0In_eq_of_wraps (hamount : amount ≠ 0)
    (hwraps : 2 ^ 256 ≤ liquidity.scaled.toNat + amount.toNat * price.toNat) :
    price.afterToken0In liquidity amount =
      (Word.ofNatChecked (liquidity.scaled.toNat / price.toNat + amount.toNat) >>= fun total =>
        Word.ofNatChecked (liquidity.scaled.toNat ⌈/⌉ total.toNat) >>= ofWord) := by
  rw [afterToken0In, if_neg hamount]
  simp only [if_neg (mt (fits_iff hamount).1 (Nat.not_lt.2 hwraps))]
  rw [Word.addChecked_eq, BitVec.toNat_udiv]
  cases htotal : Word.ofNatChecked (liquidity.scaled.toNat / price.toNat + amount.toNat) with
  | error cause => rfl
  | ok total =>
    have hvalue := Word.ofNatChecked_eq_ok_iff.1 htotal
    have hne : total ≠ 0 := by
      rintro rfl
      have hzero := (Nat.add_eq_zero_iff.1 hvalue.symm).2
      exact absurd hzero (BitVec.toNat_pos_of_ne_zero hamount).ne'
    rw [ok_bind, ok_bind, Word.divUp_eq hne]

/-- The rounding of the denominator weighs less than one unit of the amount. -/
theorem denominator_le_mul_roundedTotal (scaled : Nat) {price less more : Nat} (hprice : 0 < price)
    (hless : less < more) : scaled + less * price ≤ (scaled / price + more) * price := by
  calc
    scaled + less * price ≤ price * (scaled / price + 1) + less * price :=
      Nat.add_le_add_right (Nat.lt_mul_div_succ _ hprice).le _
    _ = (scaled / price + (less + 1)) * price := by ring
    _ ≤ _ := Nat.mul_le_mul_right _ (Nat.add_le_add_left hless _)

theorem exact_le_price (scaled product : Nat) (price : SqrtPrice) :
    (scaled * price.toNat) ⌈/⌉ (scaled + product) ≤ price.toNat :=
  ceilDiv_le_of_le_mul (Nat.mul_le_mul_right _ (Nat.le_add_right _ _))

theorem rounded_le_price (scaled : Nat) (hprice : 0 < price.toNat) (hamount : amount ≠ 0) :
    scaled ⌈/⌉ (scaled / price.toNat + amount.toNat) ≤ price.toNat := by
  apply ceilDiv_le_of_le_mul
  have hle := denominator_le_mul_roundedTotal scaled hprice (BitVec.toNat_pos_of_ne_zero hamount)
  rwa [zero_mul, Nat.add_zero] at hle

/-- The rounded denominator is no larger than the exact one, so that the price does not fall below the exact price. -/
theorem scaled_mul_price_le_rounded (hamount : amount ≠ 0) :
    liquidity.scaled.toNat * price.toNat ≤
      (liquidity.scaled.toNat + amount.toNat * price.toNat) *
        (liquidity.scaled.toNat ⌈/⌉ (liquidity.scaled.toNat / price.toNat + amount.toNat)) := by
  generalize htotal : liquidity.scaled.toNat / price.toNat + amount.toNat = total
  have htotalPos : 0 < total := htotal ▸ Nat.add_pos_right _ (BitVec.toNat_pos_of_ne_zero hamount)
  have hceil : liquidity.scaled.toNat ≤ total * (liquidity.scaled.toNat ⌈/⌉ total) :=
    le_smul_ceilDiv htotalPos
  have hfloor : total * price.toNat ≤ liquidity.scaled.toNat + amount.toNat * price.toNat := by
    rw [← htotal, add_mul]
    exact Nat.add_le_add_right (Nat.div_mul_le_self _ _) _
  calc
    liquidity.scaled.toNat * price.toNat ≤
        total * (liquidity.scaled.toNat ⌈/⌉ total) * price.toNat :=
      Nat.mul_le_mul_right _ hceil
    _ = total * price.toNat * (liquidity.scaled.toNat ⌈/⌉ total) := mul_right_comm _ _ _
    _ ≤ _ := Nat.mul_le_mul_right _ hfloor

theorem afterToken0In_value_of_fits (hliquidity : liquidity ≠ 0)
    (hfits : liquidity.scaled.toNat + amount.toNat * price.toNat < 2 ^ 256)
    (h : price.afterToken0In liquidity amount = .ok next) :
    next.toNat = (liquidity.scaled.toNat * price.toNat) ⌈/⌉
      (liquidity.scaled.toNat + amount.toNat * price.toNat) := by
  have hscaled := liquidity.scaled_pos hliquidity
  by_cases hamount : amount = 0
  · rw [hamount, afterToken0In_zero] at h
    cases h
    rw [hamount, show (0 : Word).toNat = 0 from rfl, zero_mul, Nat.add_zero]
    exact (smul_ceilDiv hscaled price.toNat).symm
  · rw [afterToken0In_eq_of_fits hamount hfits (by omega), checked_eq_ok_iff] at h
    exact h.1

/-- The liquidity alone is a word, so that a denominator beyond one needs an amount and a price. -/
theorem pos_of_wraps (hwraps : 2 ^ 256 ≤ liquidity.scaled.toNat + amount.toNat * price.toNat) :
    amount ≠ 0 ∧ 0 < price.toNat := by
  have hlt := liquidity.scaled.isLt
  have hproduct : 0 < amount.toNat * price.toNat := by omega
  refine ⟨?_, Nat.pos_of_mul_pos_left hproduct⟩
  rintro rfl
  exact absurd (Nat.pos_of_mul_pos_right hproduct) (by decide)

theorem afterToken0In_value_of_wraps
    (hwraps : 2 ^ 256 ≤ liquidity.scaled.toNat + amount.toNat * price.toNat)
    (h : price.afterToken0In liquidity amount = .ok next) :
    next.toNat = liquidity.scaled.toNat ⌈/⌉
      (liquidity.scaled.toNat / price.toNat + amount.toNat) := by
  rw [afterToken0In_eq_of_wraps (pos_of_wraps hwraps).1 hwraps, bind_eq_ok_iff] at h
  obtain ⟨total, htotal, hnext⟩ := h
  rw [checked_eq_ok_iff] at hnext
  rw [hnext.1, Word.ofNatChecked_eq_ok_iff.1 htotal]

theorem afterToken0In_bounds (hliquidity : liquidity ≠ 0)
    (h : price.afterToken0In liquidity amount = .ok next) :
    next.toNat ≤ price.toNat ∧
      liquidity.scaled.toNat * price.toNat ≤
        (liquidity.scaled.toNat + amount.toNat * price.toNat) * next.toNat := by
  have hscaled := liquidity.scaled_pos hliquidity
  by_cases hfits : liquidity.scaled.toNat + amount.toNat * price.toNat < 2 ^ 256
  · rw [afterToken0In_value_of_fits hliquidity hfits h]
    exact ⟨exact_le_price _ _ price, le_smul_ceilDiv (Nat.add_pos_left hscaled _)⟩
  · have hwraps := Nat.le_of_not_lt hfits
    obtain ⟨hamount, hprice⟩ := pos_of_wraps hwraps
    rw [afterToken0In_value_of_wraps hwraps h]
    exact ⟨rounded_le_price _ hprice hamount, scaled_mul_price_le_rounded hamount⟩

/-- More of token 0 never moves the price less far, also where only the larger amount takes the denominator beyond a word. -/
theorem afterToken0In_antitone {more : Word} {further : SqrtPrice} (hliquidity : liquidity ≠ 0)
    (hle : amount.toNat ≤ more.toNat) (h : price.afterToken0In liquidity amount = .ok next)
    (hmore : price.afterToken0In liquidity more = .ok further) : further.toNat ≤ next.toNat := by
  obtain ⟨-, hreach⟩ := afterToken0In_bounds hliquidity h
  have hproduct : amount.toNat * price.toNat ≤ more.toNat * price.toNat :=
    Nat.mul_le_mul_right _ hle
  by_cases hfits : liquidity.scaled.toNat + more.toNat * price.toNat < 2 ^ 256
  · rw [afterToken0In_value_of_fits hliquidity hfits hmore]
    apply ceilDiv_le_of_le_mul
    exact hreach.trans (Nat.mul_le_mul_right _ (Nat.add_le_add_left hproduct _))
  have hwraps := Nat.le_of_not_lt hfits
  obtain ⟨-, hprice⟩ := pos_of_wraps hwraps
  rw [afterToken0In_value_of_wraps hwraps hmore]
  apply ceilDiv_le_of_le_mul
  by_cases hboth : liquidity.scaled.toNat + amount.toNat * price.toNat < 2 ^ 256
  · have hless : amount.toNat < more.toNat := by
      refine lt_of_le_of_ne hle fun heq => hfits ?_
      rwa [← heq]
    refine Nat.le_of_mul_le_mul_right ?_ hprice
    rw [mul_right_comm]
    exact hreach.trans (Nat.mul_le_mul_right _ (denominator_le_mul_roundedTotal _ hprice hless))
  · have hvalue := afterToken0In_value_of_wraps (Nat.le_of_not_lt hboth) h
    have hamount := (pos_of_wraps (Nat.le_of_not_lt hboth)).1
    have hceil : liquidity.scaled.toNat ≤
        (liquidity.scaled.toNat / price.toNat + amount.toNat) * next.toNat := by
      rw [hvalue]
      exact le_smul_ceilDiv (Nat.add_pos_right _ (BitVec.toNat_pos_of_ne_zero hamount))
    exact hceil.trans (Nat.mul_le_mul_right _ (Nat.add_le_add_left hle _))

theorem afterToken0In_ok (hprice : price.Valid) (hliquidity : liquidity ≠ 0)
    (htotal : liquidity.scaled.toNat / price.toNat + amount.toNat < 2 ^ 256) :
    ∃ next, price.afterToken0In liquidity amount = .ok next := by
  have hscaled := liquidity.scaled_pos hliquidity
  by_cases hamount : amount = 0
  · exact ⟨price, by rw [hamount, afterToken0In_zero]⟩
  by_cases hfits : liquidity.scaled.toNat + amount.toNat * price.toNat < 2 ^ 256
  · rw [afterToken0In_eq_of_fits hamount hfits (by omega)]
    exact exists_checked_eq_ok ((exact_le_price _ _ price).trans hprice.le)
  · obtain ⟨total, hsum, hvalue⟩ := Word.exists_ofNatChecked_eq_ok htotal
    rw [afterToken0In_eq_of_wraps hamount (Nat.le_of_not_lt hfits), hsum, ok_bind, hvalue]
    exact exists_checked_eq_ok ((rounded_le_price _ hprice.pos hamount).trans hprice.le)

/-! ### Token 0 taken out -/

theorem afterToken0Out_eq (hamount : amount ≠ 0) :
    price.afterToken0Out liquidity amount =
      if amount.toNat * price.toNat < liquidity.scaled.toNat then
        (Word.ofNatChecked ((liquidity.scaled.toNat * price.toNat) ⌈/⌉
          (liquidity.scaled.toNat - amount.toNat * price.toNat)) >>= ofWord)
      else
        .error .insufficientReserves := by
  have hlt := liquidity.scaled.isLt
  rw [afterToken0Out, if_neg hamount]
  by_cases hfits : amount.toNat * price.toNat < 2 ^ 256
  · have htoNat : (amount * price).toNat = amount.toNat * price.toNat := by
      rw [BitVec.toNat_mul, Nat.mod_eq_of_lt hfits]
    have hwhole := (Word.mul_div_eq_iff hamount).2 hfits
    have hreserves : liquidity.scaled ≤ amount * price ↔
        ¬ amount.toNat * price.toNat < liquidity.scaled.toNat := by
      rw [BitVec.le_def, htoNat, Nat.not_lt]
    simp only [hwhole, ne_eq, not_true_eq_false, false_or, hreserves]
    by_cases hheld : amount.toNat * price.toNat < liquidity.scaled.toNat
    · have hsub : (liquidity.scaled - amount * price).toNat =
          liquidity.scaled.toNat - amount.toNat * price.toNat := by
        rw [BitVec.toNat_sub_of_le (BitVec.le_def.2 (htoNat.trans_le hheld.le)), htoNat]
      have hne : liquidity.scaled - amount * price ≠ 0 := by
        intro hzero
        rw [hzero, show (0 : Word).toNat = 0 from rfl] at hsub
        omega
      rw [if_neg (not_not.2 hheld), if_pos hheld, Word.mulDivUp_eq hne, hsub]
    · rw [if_pos hheld, if_neg hheld]
  · have hwrapped : amount * price / amount ≠ price := mt (Word.mul_div_eq_iff hamount).1 hfits
    rw [if_pos (Or.inl hwrapped), if_neg (by omega)]

theorem afterToken0Out_value (hliquidity : liquidity ≠ 0)
    (h : price.afterToken0Out liquidity amount = .ok next) :
    amount.toNat * price.toNat < liquidity.scaled.toNat ∧
      next.toNat = (liquidity.scaled.toNat * price.toNat) ⌈/⌉
        (liquidity.scaled.toNat - amount.toNat * price.toNat) := by
  have hscaled := liquidity.scaled_pos hliquidity
  by_cases hamount : amount = 0
  · rw [hamount, afterToken0Out_zero] at h
    cases h
    rw [hamount, show (0 : Word).toNat = 0 from rfl, zero_mul, Nat.sub_zero]
    exact ⟨hscaled, (smul_ceilDiv hscaled price.toNat).symm⟩
  · rw [afterToken0Out_eq hamount] at h
    split at h
    · rename_i hheld
      rw [checked_eq_ok_iff] at h
      exact ⟨hheld, h.1⟩
    · cases h

theorem afterToken0Out_bounds (hliquidity : liquidity ≠ 0)
    (h : price.afterToken0Out liquidity amount = .ok next) :
    price.toNat ≤ next.toNat ∧
      liquidity.scaled.toNat * price.toNat ≤
        (liquidity.scaled.toNat - amount.toNat * price.toNat) * next.toNat := by
  obtain ⟨hreserves, hvalue⟩ := afterToken0Out_value hliquidity h
  have hpos : 0 < liquidity.scaled.toNat - amount.toNat * price.toNat := Nat.sub_pos_of_lt hreserves
  have hceil : liquidity.scaled.toNat * price.toNat ≤
      (liquidity.scaled.toNat - amount.toNat * price.toNat) * next.toNat := by
    rw [hvalue]
    exact le_smul_ceilDiv hpos
  refine ⟨Nat.le_of_mul_le_mul_left (le_trans ?_ hceil) hpos, hceil⟩
  exact Nat.mul_le_mul_right _ (Nat.sub_le _ _)

theorem afterToken0Out_toNat_le (hprice : price.Valid)
    (h : price.afterToken0Out liquidity amount = .ok next) : next.toNat ≤ 2 ^ 160 - 1 := by
  by_cases hamount : amount = 0
  · rw [hamount, afterToken0Out_zero] at h
    cases h
    exact hprice.le
  · rw [afterToken0Out_eq hamount] at h
    split at h
    · exact le_largest_iff.1 (checked_eq_ok_iff.1 h).2
    · cases h

theorem afterToken0Out_ok
    (hheld : amount.toNat * price.toNat < liquidity.scaled.toNat)
    (hnext : (liquidity.scaled.toNat * price.toNat) ⌈/⌉
      (liquidity.scaled.toNat - amount.toNat * price.toNat) ≤ 2 ^ 160 - 1) :
    ∃ next, price.afterToken0Out liquidity amount = .ok next := by
  by_cases hamount : amount = 0
  · exact ⟨price, by rw [hamount, afterToken0Out_zero]⟩
  · rw [afterToken0Out_eq hamount, if_pos hheld]
    exact exists_checked_eq_ok hnext

/-! ### Token 1 -/

theorem shiftByToken1_eq_divisions (rounding : Rounding) (liquidity : Liquidity) (amount : Word) :
    shiftByToken1 rounding liquidity amount =
      if liquidity = 0 then .error .divisionByZero
      else if amount ≤ largest then
        rounding.divWord (amount <<< fractionBits) liquidity.toWord
      else rounding.mulDivWord amount one liquidity.toWord := by
  rw [shiftByToken1.eq_def]
  cases rounding with
  | down => rfl
  | up => rfl

theorem toNat_shiftLeft_fractionBits (hsmall : amount ≤ largest) :
    (amount <<< fractionBits).toNat = amount.toNat * 2 ^ 96 := by
  rw [le_largest_iff] at hsmall
  rw [BitVec.toNat_shiftLeft, Nat.shiftLeft_eq, show fractionBits = 96 from rfl]
  exact Nat.mod_eq_of_lt (by omega)

theorem shiftByToken1_eq (rounding : Rounding) (hliquidity : liquidity ≠ 0) :
    shiftByToken1 rounding liquidity amount =
      Word.ofNatChecked (rounding.divide (amount.toNat * 2 ^ 96) liquidity.toNat) := by
  have hdivisor := liquidity.toWord_ne_zero hliquidity
  rw [shiftByToken1_eq_divisions, if_neg hliquidity]
  by_cases hsmall : amount ≤ largest
  · rw [if_pos hsmall, rounding.divWord_eq hdivisor, toNat_shiftLeft_fractionBits hsmall,
      liquidity.toNat_toWord]
  · rw [if_neg hsmall, rounding.mulDivWord_eq hdivisor, toNat_one, liquidity.toNat_toWord]

theorem afterToken1In_value (hliquidity : liquidity ≠ 0)
    (h : price.afterToken1In liquidity amount = .ok next) :
    next.toNat = price.toNat + amount.toNat * 2 ^ 96 / liquidity.toNat := by
  rw [afterToken1In, shiftByToken1_eq .down hliquidity, bind_eq_ok_iff] at h
  obtain ⟨rise, hrise, hsum⟩ := h
  rw [Word.ofNatChecked_eq_ok_iff] at hrise
  rw [Word.addChecked_eq, checked_eq_ok_iff] at hsum
  rw [hsum.1, hrise]
  rfl

theorem afterToken1In_toNat_le (h : price.afterToken1In liquidity amount = .ok next) :
    next.toNat ≤ 2 ^ 160 - 1 := by
  rw [afterToken1In] at h
  obtain ⟨rise, -, hsum⟩ := bind_eq_ok_iff.1 h
  rw [Word.addChecked_eq, checked_eq_ok_iff] at hsum
  exact le_largest_iff.1 hsum.2

theorem afterToken1Out_value (hliquidity : liquidity ≠ 0)
    (h : price.afterToken1Out liquidity amount = .ok next) :
    next.toNat + (amount.toNat * 2 ^ 96) ⌈/⌉ liquidity.toNat = price.toNat := by
  rw [afterToken1Out, shiftByToken1_eq .up hliquidity, bind_eq_ok_iff] at h
  obtain ⟨fall, hfall, hnext⟩ := h
  rw [Word.ofNatChecked_eq_ok_iff] at hfall
  split at hnext
  · cases hnext
  · rename_i hheld
    rw [BitVec.not_le] at hheld
    obtain ⟨rfl, _⟩ := ofWord_eq_ok_iff.1 hnext
    have hle : fall.toNat ≤ price.toNat := (BitVec.lt_def.1 hheld).le
    change fall.toNat = (amount.toNat * 2 ^ 96) ⌈/⌉ liquidity.toNat at hfall
    rw [BitVec.toNat_sub_of_le hle, ← hfall]
    exact Nat.sub_add_cancel hle

theorem afterToken1Out_pos (h : price.afterToken1Out liquidity amount = .ok next) :
    0 < next.toNat := by
  rw [afterToken1Out] at h
  obtain ⟨fall, -, hnext⟩ := bind_eq_ok_iff.1 h
  rw [error_else_eq_ok_iff, BitVec.not_le, ofWord_eq_ok_iff] at hnext
  obtain ⟨hheld, rfl, -⟩ := hnext
  rw [BitVec.toNat_sub_of_le (BitVec.le_of_lt hheld)]
  exact Nat.sub_pos_of_lt hheld

theorem afterToken1In_ok (hliquidity : liquidity ≠ 0)
    (hnext : price.toNat + amount.toNat * 2 ^ 96 / liquidity.toNat ≤ 2 ^ 160 - 1) :
    ∃ next, price.afterToken1In liquidity amount = .ok next := by
  have hfits : Rounding.down.divide (amount.toNat * 2 ^ 96) liquidity.toNat < 2 ^ 256 :=
    lt_of_le_of_lt ((Nat.le_add_left _ _).trans hnext) (by decide)
  obtain ⟨rise, hrise, hvalue⟩ := Word.exists_ofNatChecked_eq_ok hfits
  rw [afterToken1In, shiftByToken1_eq .down hliquidity, hrise, ok_bind, Word.addChecked_eq]
  apply exists_checked_eq_ok
  rw [hvalue]
  exact hnext

theorem afterToken1Out_ok (hprice : price.Valid) (hliquidity : liquidity ≠ 0)
    (hheld : (amount.toNat * 2 ^ 96) ⌈/⌉ liquidity.toNat < price.toNat) :
    ∃ next, price.afterToken1Out liquidity amount = .ok next := by
  obtain ⟨fall, hfall, hvalue⟩ := Word.exists_ofNatChecked_eq_ok (hheld.trans price.isLt)
  have hlt : fall.toNat < price.toNat := hvalue.trans_lt hheld
  have hle : price - fall ≤ largest := by
    rw [le_largest_iff, BitVec.toNat_sub_of_le (BitVec.le_def.2 hlt.le)]
    exact (Nat.sub_le _ _).trans hprice.le
  refine ⟨price - fall, ?_⟩
  rw [afterToken1Out, shiftByToken1_eq .up hliquidity, Rounding.divide, hfall, ok_bind,
    if_neg (BitVec.not_le.2 (BitVec.lt_def.2 hlt))]
  exact ofWord_eq_ok_iff.2 ⟨rfl, hle⟩

end SqrtPrice

end ConcentratedLiquidity
