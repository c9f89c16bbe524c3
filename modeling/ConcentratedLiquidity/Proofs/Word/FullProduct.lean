import ConcentratedLiquidity.Word.FullProduct
import Mathlib.Data.BitVec
import Mathlib.Data.Nat.Factorization.Basic
import Mathlib.Tactic.Ring

/-!
# What a full product is worth

The two words of `FullProduct.ofFactors` make up the unbounded product, taking a word off a full product takes it off its value, and `FullProduct.divideExact` gives back the quotient of an exact division. The exact division rests on two facts about odd words: six Newton rounds invert them, and a word other than zero is an odd number times its largest power of two.
-/

namespace ConcentratedLiquidity

namespace Word

/-! ### Inverting odd words -/

theorem two_pow_dvd_sub_of_setWidth_eq {a b : Word} {n : Nat}
    (h : a.setWidth n = b.setWidth n) : (2 : Word) ^ n ∣ a - b := by
  have split (x : Word) :
      x = (2 : Word) ^ n * ((x.toNat / 2 ^ n : Nat) : Word) + ((x.toNat % 2 ^ n : Nat) : Word) := by
    have hself : ((x.toNat : Nat) : Word) = x :=
      (BitVec.ofNat_toNat 256 x).trans (BitVec.setWidth_eq x)
    have hcast := congrArg (fun value : Nat => (value : Word)) (Nat.div_add_mod x.toNat (2 ^ n))
    push_cast at hcast
    exact hself.symm.trans hcast.symm
  have hmod : a.toNat % 2 ^ n = b.toNat % 2 ^ n := by
    simpa only [BitVec.toNat_setWidth] using congrArg BitVec.toNat h
  refine ⟨((a.toNat / 2 ^ n : Nat) : Word) - ((b.toNat / 2 ^ n : Nat) : Word), ?_⟩
  rw [mul_sub]
  nth_rewrite 1 [split a, split b]
  rw [hmod, add_sub_add_right_eq_sub]

theorem two_pow_dvd_one_sub_seed {odd : Word} (hodd : odd.getLsbD 0 = true) :
    (2 : Word) ^ 4 ∣ 1 - odd * (3 * odd ^^^ 2) := by
  have hnibble : ∀ nibble : BitVec 4, nibble.getLsbD 0 = true → nibble * (3 * nibble ^^^ 2) = 1 := by
    decide
  apply two_pow_dvd_sub_of_setWidth_eq
  rw [BitVec.setWidth_mul _ _ (by decide), BitVec.setWidth_xor, BitVec.setWidth_mul _ _ (by decide)]
  refine (hnibble (odd.setWidth 4) ?_).symm
  rw [BitVec.getLsbD_setWidth, hodd]
  rfl

/-- A Newton round squares the error, and so doubles the number of right bits. -/
theorem two_pow_dvd_one_sub_inverseAfter {odd : Word} (hodd : odd.getLsbD 0 = true) (rounds : Nat) :
    (2 : Word) ^ (4 * 2 ^ rounds) ∣ 1 - odd * inverseAfter odd rounds := by
  induction rounds with
  | zero => exact two_pow_dvd_one_sub_seed hodd
  | succ rounds ih =>
    have herror : 1 - odd * inverseAfter odd (rounds + 1) =
        (1 - odd * inverseAfter odd rounds) * (1 - odd * inverseAfter odd rounds) := by
      rw [inverseAfter, show (2 : Word) = 1 + 1 by decide]
      ring
    rw [herror, show 4 * 2 ^ (rounds + 1) = 4 * 2 ^ rounds + 4 * 2 ^ rounds by ring, pow_add]
    exact mul_dvd_mul ih ih

theorem mul_oddInverse {odd : Word} (hodd : odd.getLsbD 0 = true) : odd * odd.oddInverse = 1 := by
  have hdvd := two_pow_dvd_one_sub_inverseAfter hodd 6
  have hzero : (2 : Word) ^ (4 * 2 ^ 6) = 0 := by
    have hcast : ((2 ^ 256 : Nat) : Word) = 0 := by decide
    exact_mod_cast hcast
  rw [hzero, zero_dvd_iff] at hdvd
  exact (sub_eq_zero.1 hdvd).symm

/-! ### The power of two in a word -/

theorem exists_toNat_eq_two_pow_mul {divisor : Word} (hdivisor : divisor ≠ 0) :
    ∃ k m, k < 256 ∧ m % 2 = 1 ∧ divisor.toNat = 2 ^ k * m := by
  have hne : divisor.toNat ≠ 0 := Nat.ne_of_gt (BitVec.toNat_pos_of_ne_zero hdivisor)
  obtain ⟨k, m, hm, heq⟩ := Nat.exists_eq_two_pow_mul_odd hne
  refine ⟨k, m, ?_, Nat.odd_iff.1 hm, heq⟩
  by_contra hk
  have hpow : 2 ^ 256 ≤ 2 ^ k := Nat.pow_le_pow_right (by decide) (Nat.le_of_not_lt hk)
  have hle : 2 ^ k ≤ 2 ^ k * m := Nat.le_mul_of_pos_right _ hm.pos
  have hlt := divisor.isLt
  omega

/-- The lowest set bit is the only one that a word shares with its negation. -/
theorem powerOfTwoPart_eq_twoPow {divisor : Word} {k m : Nat} (hm : m % 2 = 1)
    (hdivisor : divisor.toNat = 2 ^ k * m) : divisor.powerOfTwoPart = BitVec.twoPow 256 k := by
  have hbit (i : Nat) : divisor.getLsbD i = (decide (k ≤ i) && m.testBit (i - k)) := by
    rw [BitVec.getLsbD, hdivisor, Nat.testBit_two_pow_mul]
  have hlowest : divisor.getLsbD k = true := by
    rw [hbit, Nat.sub_self, Nat.testBit_zero, hm]
    simp
  have hbelow {i : Nat} (hi : i < k) : divisor.getLsbD i = false := by
    rw [hbit, decide_eq_false (Nat.not_le.2 hi), Bool.false_and]
  apply BitVec.eq_of_getLsbD_eq
  intro i hi
  rw [powerOfTwoPart, BitVec.getLsbD_and, BitVec.getLsbD_neg, BitVec.getLsbD_twoPow]
  rcases Nat.lt_trichotomy i k with hlt | rfl | hgt
  · rw [hbelow hlt]
    simp [Nat.ne_of_gt hlt]
  · have hnone : ¬ ∃ j < i, divisor.getLsbD j = true := by
      rintro ⟨j, hj, hset⟩
      rw [hbelow hj] at hset
      cases hset
    simp only [hlowest, hi, hnone]
    simp
  · have hsome : ∃ j < i, divisor.getLsbD j = true := ⟨k, hgt, hlowest⟩
    simp only [hsome, hi]
    simp [Nat.ne_of_lt hgt]

/-- The quotient of 2^256 by a power of two, found without a number of 257 bits. -/
theorem neg_twoPow_div_twoPow_add_one {k : Nat} (hk : k < 256) :
    -BitVec.twoPow 256 k / BitVec.twoPow 256 k + 1 = BitVec.ofNat 256 (2 ^ (256 - k)) := by
  have hlt : 2 ^ k < 2 ^ 256 := Nat.pow_lt_pow_right (by decide) hk
  have hpos : 0 < 2 ^ k := Nat.two_pow_pos k
  have hsplit : 2 ^ 256 = 2 ^ (256 - k) * 2 ^ k := by
    rw [← pow_add, Nat.sub_add_cancel hk.le]
  have hquotient : (2 ^ 256 - 2 ^ k) / 2 ^ k = 2 ^ (256 - k) - 1 := by
    rw [hsplit, ← Nat.sub_one_mul, Nat.mul_div_cancel _ hpos]
  have hone : 0 < 2 ^ (256 - k) := Nat.two_pow_pos (256 - k)
  apply BitVec.eq_of_toNat_eq
  rw [BitVec.toNat_add, BitVec.toNat_udiv, BitVec.toNat_neg, BitVec.toNat_twoPow,
    Nat.mod_eq_of_lt hlt, Nat.mod_eq_of_lt (Nat.sub_lt (Nat.two_pow_pos 256) hpos), hquotient,
    BitVec.toNat_ofNat]
  exact congrArg (· % 2 ^ 256) (Nat.sub_add_cancel hone)

end Word

namespace FullProduct

/-! ### Exact division -/

theorem toNat_div_twoPow_or (product : FullProduct) {k : Nat} (hk : k < 256) :
    (product.low / BitVec.twoPow 256 k ||| product.high * BitVec.ofNat 256 (2 ^ (256 - k))).toNat =
      product.toNat / 2 ^ k % 2 ^ 256 := by
  have hlt : 2 ^ k < 2 ^ 256 := Nat.pow_lt_pow_right (by decide) hk
  have hsplit : 2 ^ 256 = 2 ^ k * 2 ^ (256 - k) := by
    rw [← pow_add, Nat.add_sub_cancel' hk.le]
  have hlow : product.low.toNat / 2 ^ k < 2 ^ (256 - k) := by
    rw [Nat.div_lt_iff_lt_mul (Nat.two_pow_pos k), mul_comm, ← hsplit]
    exact product.low.isLt
  have hvalue : product.toNat / 2 ^ k =
      2 ^ (256 - k) * product.high.toNat + product.low.toNat / 2 ^ k := by
    rw [toNat, Nat.shiftLeft_eq, hsplit, mul_comm product.high.toNat, mul_assoc,
      Nat.mul_add_div (Nat.two_pow_pos k)]
  have hhigh : (product.high * BitVec.ofNat 256 (2 ^ (256 - k))).toNat =
      2 ^ (256 - k) * (product.high.toNat % 2 ^ k) := by
    rw [BitVec.toNat_mul, BitVec.toNat_ofNat, Nat.mul_mod_mod, mul_comm, hsplit,
      mul_comm (2 ^ k), Nat.mul_mod_mul_left]
  rw [BitVec.toNat_or, hhigh, BitVec.toNat_udiv, BitVec.toNat_twoPow, Nat.mod_eq_of_lt hlt, Nat.or_comm,
    ← Nat.two_pow_add_eq_or_of_lt hlow, hvalue, hsplit, mul_comm (2 ^ k), Nat.mod_mul,
    Nat.mul_add_mod, Nat.mod_eq_of_lt hlow, Nat.mul_add_div (Nat.two_pow_pos (256 - k)),
    Nat.div_eq_of_lt hlow, add_zero, add_comm]

theorem divideExact_eq {product : FullProduct} {divisor quotient : Word} (hdivisor : divisor ≠ 0)
    (hproduct : product.toNat = divisor.toNat * quotient.toNat) :
    product.divideExact divisor = quotient := by
  obtain ⟨k, m, hk, hm, hvalue⟩ := Word.exists_toNat_eq_two_pow_mul hdivisor
  have hlt : 2 ^ k < 2 ^ 256 := Nat.pow_lt_pow_right (by decide) hk
  have htwos := Word.powerOfTwoPart_eq_twoPow hm hvalue
  have hodd : (divisor / BitVec.twoPow 256 k).toNat = m := by
    rw [BitVec.toNat_udiv, BitVec.toNat_twoPow, Nat.mod_eq_of_lt hlt, hvalue,
      Nat.mul_div_cancel_left _ (Nat.two_pow_pos k)]
  have hbit : (divisor / BitVec.twoPow 256 k).getLsbD 0 = true := by
    rw [BitVec.getLsbD, hodd, Nat.testBit_zero, hm]
    rfl
  have hshifted : product.low / BitVec.twoPow 256 k |||
      product.high * BitVec.ofNat 256 (2 ^ (256 - k)) =
        divisor / BitVec.twoPow 256 k * quotient := by
    apply BitVec.eq_of_toNat_eq
    rw [product.toNat_div_twoPow_or hk, hproduct, hvalue, mul_assoc,
      Nat.mul_div_cancel_left _ (Nat.two_pow_pos k), BitVec.toNat_mul, hodd]
  rw [divideExact, htwos]
  simp only [Word.neg_twoPow_div_twoPow_add_one hk, hshifted]
  rw [mul_comm (divisor / BitVec.twoPow 256 k), mul_assoc, Word.mul_oddInverse hbit, mul_one]

/-! ### Forming a product and taking a word off -/

theorem toNat_subWord {product : FullProduct} {amount : Word}
    (hamount : amount.toNat ≤ product.toNat) :
    (product.subWord amount).toNat = product.toNat - amount.toNat := by
  have hhigh := product.high.isLt
  have hlow := product.low.isLt
  have hlt := amount.isLt
  simp only [toNat, subWord, Nat.shiftLeft_eq] at hamount ⊢
  by_cases hborrow : product.low < amount
  · rw [if_pos hborrow]
    rw [BitVec.lt_def] at hborrow
    have hone : (1 : Word) ≤ product.high := by
      rw [BitVec.le_def, show (1 : Word).toNat = 1 from rfl]
      omega
    rw [BitVec.toNat_sub_of_le hone, BitVec.toNat_sub, show (1 : Word).toNat = 1 from rfl]
    rw [BitVec.le_def, show (1 : Word).toNat = 1 from rfl] at hone
    omega
  · rw [if_neg hborrow]
    rw [BitVec.not_lt] at hborrow
    rw [BitVec.toNat_sub_of_le hborrow]
    rw [BitVec.le_def] at hborrow
    omega

/-- The residue modulo 2^256 - 1 is the sum of the two words of the product, less 2^256 - 1 where that sum is not smaller. Taking off the low word leaves the high one, with a borrow in the second case. -/
theorem toNat_high_ofFactors (a b : Word) :
    (ofFactors a b).high.toNat = a.toNat * b.toNat / 2 ^ 256 := by
  have ha := a.isLt
  have hb := b.isLt
  have hproduct : a.toNat * b.toNat ≤ (2 ^ 256 - 1) * (2 ^ 256 - 1) :=
    Nat.mul_le_mul (by omega) (by omega)
  have hones : (BitVec.allOnes 256).toNat = 2 ^ 256 - 1 := BitVec.toNat_allOnes
  have hresidue : (Word.mulMod a b (BitVec.allOnes 256)).toNat =
      a.toNat * b.toNat % (2 ^ 256 - 1) := by
    rw [Word.toNat_mulMod (by decide), hones]
  have hlow : (a * b).toNat = a.toNat * b.toNat % 2 ^ 256 := BitVec.toNat_mul a b
  simp only [ofFactors]
  generalize Word.mulMod a b (BitVec.allOnes 256) = residue at hresidue ⊢
  generalize a * b = low at hlow ⊢
  generalize a.toNat * b.toNat = value at hproduct hresidue hlow ⊢
  have hcases : value / 2 ^ 256 + low.toNat = residue.toNat ∨
      value / 2 ^ 256 + low.toNat = residue.toNat + (2 ^ 256 - 1) := by
    have hquotients : value / (2 ^ 256 - 1) = value / 2 ^ 256 ∨
        value / (2 ^ 256 - 1) = value / 2 ^ 256 + 1 := by
      omega
    omega
  have hhigh : value / 2 ^ 256 < 2 ^ 256 - 1 := by omega
  by_cases hborrow : residue < low
  · rw [if_pos hborrow, BitVec.toNat_sub, BitVec.toNat_sub, show (1 : Word).toNat = 1 from rfl]
    rw [BitVec.lt_def] at hborrow
    omega
  · rw [if_neg hborrow]
    rw [BitVec.not_lt] at hborrow
    rw [BitVec.toNat_sub_of_le hborrow]
    rw [BitVec.le_def] at hborrow
    omega

theorem toNat_ofFactors (a b : Word) : (ofFactors a b).toNat = a.toNat * b.toNat := by
  rw [toNat, toNat_high_ofFactors, Nat.shiftLeft_eq,
    show (ofFactors a b).low.toNat = a.toNat * b.toNat % 2 ^ 256 from BitVec.toNat_mul a b]
  exact Nat.div_add_mod' _ _

end FullProduct

end ConcentratedLiquidity
