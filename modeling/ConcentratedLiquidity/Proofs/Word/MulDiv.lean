import ConcentratedLiquidity.Word.MulDiv
import ConcentratedLiquidity.Proofs.Word.FullProduct
import Mathlib.Algebra.Order.Floor.Div

/-!
# Exact quotients of words

The three divisions of words are the exact quotients of unbounded numbers, rounded down or up, with a failure where the divisor is zero or the quotient is not a word. The rest of the theory knows them only through the equations here.
-/

namespace ConcentratedLiquidity.Word

def ofNatChecked (value : Nat) : Except Error Word :=
  if value < 2 ^ 256 then .ok (BitVec.ofNat 256 value) else .error .overflow

theorem ofNatChecked_eq_ok_iff {value : Nat} {word : Word} :
    ofNatChecked value = .ok word ↔ word.toNat = value := by
  have hword := word.isLt
  unfold ofNatChecked
  split
  · rename_i hlt
    rw [Except.ok.injEq, ← BitVec.toNat_inj, BitVec.toNat_ofNat, Nat.mod_eq_of_lt hlt]
    exact eq_comm
  · rename_i hge
    constructor
    · intro h; cases h
    · intro h; omega

theorem exists_ofNatChecked_eq_ok {value : Nat} (h : value < 2 ^ 256) :
    ∃ word, ofNatChecked value = .ok word ∧ word.toNat = value :=
  ⟨_, if_pos h, Nat.mod_eq_of_lt h⟩

theorem ceilDiv_eq_div_add (a : Nat) {b : Nat} (hb : 0 < b) :
    a ⌈/⌉ b = a / b + if a % b = 0 then 0 else 1 := by
  have hdiv := Nat.div_add_mod a b
  have hmod := Nat.mod_lt a hb
  apply le_antisymm
  · rw [ceilDiv_le_iff_le_mul hb, mul_add]
    split
    · omega
    · omega
  · split
    · rw [add_zero]
      exact Nat.div_le_of_le_mul (le_smul_ceilDiv hb)
    · rw [Nat.succ_le_iff, Nat.div_lt_iff_lt_mul hb, mul_comm]
      have hle : a ≤ b * (a ⌈/⌉ b) := le_smul_ceilDiv hb
      refine lt_of_le_of_ne hle fun heq => ?_
      rename_i hremainder
      rw [heq, Nat.mul_mod_right] at hremainder
      exact hremainder rfl

/-! ### Rounded down -/

theorem mulDiv_eq {a b divisor : Word} (hdivisor : divisor ≠ 0) :
    mulDiv a b divisor = ofNatChecked (a.toNat * b.toNat / divisor.toNat) := by
  have hpos := BitVec.toNat_pos_of_ne_zero hdivisor
  have hfactors := FullProduct.toNat_ofFactors a b
  have hhigh := FullProduct.toNat_high_ofFactors a b
  simp only [mulDiv, if_neg hdivisor]
  generalize FullProduct.ofFactors a b = product at hfactors hhigh ⊢
  by_cases hzero : product.high = 0
  · rw [if_pos hzero]
    rw [FullProduct.toNat, hzero, show (0 : Word).toNat = 0 from rfl, Nat.zero_shiftLeft,
      zero_add] at hfactors
    rw [← hfactors]
    symm
    rw [ofNatChecked_eq_ok_iff, BitVec.toNat_udiv]
  · rw [if_neg hzero]
    by_cases hlarge : divisor ≤ product.high
    · rw [if_pos hlarge, ofNatChecked, if_neg]
      rw [BitVec.le_def, hhigh, Nat.le_div_iff_mul_le (by decide)] at hlarge
      rw [not_lt, Nat.le_div_iff_mul_le hpos, mul_comm]
      exact hlarge
    · rw [if_neg hlarge]
      rw [BitVec.not_le, BitVec.lt_def, hhigh, Nat.div_lt_iff_lt_mul (by decide),
        mul_comm divisor.toNat, ← Nat.div_lt_iff_lt_mul hpos] at hlarge
      rw [ofNatChecked, if_pos hlarge]
      refine congrArg Except.ok (FullProduct.divideExact_eq hdivisor ?_)
      have hmod : (mulMod a b divisor).toNat = product.toNat % divisor.toNat := by
        rw [toNat_mulMod hdivisor, hfactors]
      rw [FullProduct.toNat_subWord (hmod ▸ Nat.mod_le _ _), hmod, BitVec.toNat_ofNat,
        Nat.mod_eq_of_lt hlarge, ← hfactors]
      have hdiv := Nat.div_add_mod product.toNat divisor.toNat
      omega

theorem mulDiv_zero (a b : Word) : mulDiv a b 0 = .error .divisionByZero := if_pos rfl

theorem mulDiv_eq_ok_iff {a b divisor quotient : Word} :
    mulDiv a b divisor = .ok quotient ↔
      divisor ≠ 0 ∧ quotient.toNat = a.toNat * b.toNat / divisor.toNat := by
  by_cases hdivisor : divisor = 0
  · rw [hdivisor, mulDiv_zero]
    constructor
    · intro h; cases h
    · intro h; exact absurd rfl h.1
  · rw [mulDiv_eq hdivisor, ofNatChecked_eq_ok_iff, and_iff_right hdivisor]

/-- Every quotient that is a word is found exactly, and every other one is refused. -/
theorem mulDiv_is_exact_floor (a b divisor : Word) :
    if divisor = 0 then
      mulDiv a b divisor = .error .divisionByZero
    else if a.toNat * b.toNat / divisor.toNat < 2 ^ 256 then
      ∃ quotient, mulDiv a b divisor = .ok quotient ∧
        quotient.toNat = a.toNat * b.toNat / divisor.toNat
    else
      mulDiv a b divisor = .error .overflow := by
  split
  · rename_i hzero
    rw [hzero, mulDiv_zero]
  · rename_i hdivisor
    rw [mulDiv_eq hdivisor]
    split
    · rename_i hfits
      exact exists_ofNatChecked_eq_ok hfits
    · rename_i hlarge
      exact if_neg hlarge

/-! ### Rounded up -/

theorem mulDivUp_eq {a b divisor : Word} (hdivisor : divisor ≠ 0) :
    mulDivUp a b divisor = ofNatChecked ((a.toNat * b.toNat) ⌈/⌉ divisor.toNat) := by
  have hmod : mulMod a b divisor = 0 ↔ a.toNat * b.toNat % divisor.toNat = 0 := by
    rw [← toNat_mulMod hdivisor, ← BitVec.toNat_inj]
    rfl
  rw [mulDivUp, mulDiv_eq hdivisor, ceilDiv_eq_div_add _ (BitVec.toNat_pos_of_ne_zero hdivisor)]
  generalize a.toNat * b.toNat / divisor.toNat = floor
  by_cases hfits : floor < 2 ^ 256
  · have hquotient : ofNatChecked floor = .ok (BitVec.ofNat 256 floor) := if_pos hfits
    have htoNat : (BitVec.ofNat 256 floor).toNat = floor := by
      rw [BitVec.toNat_ofNat, Nat.mod_eq_of_lt hfits]
    rw [hquotient]
    change (if mulMod a b divisor = 0 then _ else if _ then _ else _) = _
    by_cases hexact : mulMod a b divisor = 0
    · rw [if_pos hexact, if_pos (hmod.1 hexact), add_zero, hquotient]
    · rw [if_neg hexact, if_neg (mt hmod.2 hexact)]
      by_cases htop : BitVec.ofNat 256 floor = BitVec.allOnes 256
      · have hfloor : floor = 2 ^ 256 - 1 := by
          rw [← htoNat, htop, BitVec.toNat_allOnes]
        rw [if_pos htop, ofNatChecked, if_neg (by omega)]
      · have hfloor : floor ≠ 2 ^ 256 - 1 := by
          rintro rfl
          exact htop rfl
        rw [if_neg htop]
        symm
        rw [ofNatChecked_eq_ok_iff, BitVec.toNat_add, htoNat, show (1 : Word).toNat = 1 from rfl]
        exact Nat.mod_eq_of_lt (by omega)
  · have hnot : ¬ floor + (if a.toNat * b.toNat % divisor.toNat = 0 then 0 else 1) < 2 ^ 256 := by
      omega
    rw [ofNatChecked, ofNatChecked, if_neg hfits, if_neg hnot]
    rfl

theorem mulDivUp_zero (a b : Word) : mulDivUp a b 0 = .error .divisionByZero := rfl

theorem mulDivUp_eq_ok_iff {a b divisor quotient : Word} :
    mulDivUp a b divisor = .ok quotient ↔
      divisor ≠ 0 ∧ quotient.toNat = (a.toNat * b.toNat) ⌈/⌉ divisor.toNat := by
  by_cases hdivisor : divisor = 0
  · rw [hdivisor, mulDivUp_zero]
    constructor
    · intro h; cases h
    · intro h; exact absurd rfl h.1
  · rw [mulDivUp_eq hdivisor, ofNatChecked_eq_ok_iff, and_iff_right hdivisor]

theorem ceilDiv_toNat_lt (a : Word) {divisor : Word} (hdivisor : divisor ≠ 0) :
    a.toNat ⌈/⌉ divisor.toNat < 2 ^ 256 := by
  have hpos := BitVec.toNat_pos_of_ne_zero hdivisor
  have hle : a.toNat ⌈/⌉ divisor.toNat ≤ a.toNat := by
    rw [ceilDiv_le_iff_le_mul hpos]
    exact Nat.le_mul_of_pos_left a.toNat hpos
  exact hle.trans_lt a.isLt

/-- A remainder leaves room for one more than the quotient. -/
theorem succ_div_lt {a divisor : Word} (hdivisor : divisor ≠ 0) (hremainder : a % divisor ≠ 0) :
    (a / divisor).toNat + 1 < 2 ^ 256 := by
  have hceil := ceilDiv_toNat_lt a hdivisor
  have hmod : a.toNat % divisor.toNat ≠ 0 := by
    rw [← BitVec.toNat_umod]
    exact (BitVec.toNat_pos_of_ne_zero hremainder).ne'
  rw [ceilDiv_eq_div_add _ (BitVec.toNat_pos_of_ne_zero hdivisor), if_neg hmod] at hceil
  rwa [BitVec.toNat_udiv]

theorem divUp_eq {a divisor : Word} (hdivisor : divisor ≠ 0) :
    divUp a divisor = ofNatChecked (a.toNat ⌈/⌉ divisor.toNat) := by
  have hpos := BitVec.toNat_pos_of_ne_zero hdivisor
  have hmod : a % divisor = 0 ↔ a.toNat % divisor.toNat = 0 := by
    rw [← BitVec.toNat_umod, ← BitVec.toNat_inj]
    rfl
  rw [divUp, if_neg hdivisor, ceilDiv_eq_div_add _ hpos]
  symm
  by_cases hexact : a % divisor = 0
  · rw [if_pos hexact, if_pos (hmod.1 hexact), add_zero, ofNatChecked_eq_ok_iff, BitVec.toNat_udiv]
  · rw [if_neg hexact, if_neg (mt hmod.2 hexact), ofNatChecked_eq_ok_iff, BitVec.toNat_add,
      show (1 : Word).toNat = 1 from rfl, Nat.mod_eq_of_lt (succ_div_lt hdivisor hexact),
      BitVec.toNat_udiv]

theorem divUp_zero (a : Word) : divUp a 0 = .error .divisionByZero := if_pos rfl

/-- Both divisions that round up find the exact quotient, rounded up once. The division of a product is refused where that is not a word, and the division of a word never is: where it adds one, there is room. -/
theorem divisions_round_up_exactly (a b divisor : Word) :
    if divisor = 0 then
      mulDivUp a b divisor = .error .divisionByZero ∧ divUp a divisor = .error .divisionByZero
    else
      (if (a.toNat * b.toNat) ⌈/⌉ divisor.toNat < 2 ^ 256 then
        ∃ quotient, mulDivUp a b divisor = .ok quotient ∧
          quotient.toNat = (a.toNat * b.toNat) ⌈/⌉ divisor.toNat
      else
        mulDivUp a b divisor = .error .overflow) ∧
      (∃ quotient, divUp a divisor = .ok quotient ∧
        quotient.toNat = a.toNat ⌈/⌉ divisor.toNat) ∧
      (a % divisor = 0 ∨ (a / divisor).toNat + 1 < 2 ^ 256) := by
  split
  · rename_i hzero
    rw [hzero]
    exact ⟨mulDivUp_zero a b, divUp_zero a⟩
  · rename_i hdivisor
    refine ⟨?_, ?_, ?_⟩
    · rw [mulDivUp_eq hdivisor]
      split
      · rename_i hfits
        exact exists_ofNatChecked_eq_ok hfits
      · rename_i hlarge
        exact if_neg hlarge
    · rw [divUp_eq hdivisor]
      exact exists_ofNatChecked_eq_ok (ceilDiv_toNat_lt a hdivisor)
    · by_cases hremainder : a % divisor = 0
      · exact Or.inl hremainder
      · exact Or.inr (succ_div_lt hdivisor hremainder)

/-- The quotient of 2^257 - 1 by two is the largest word, and only rounding it up leaves the words. -/
example :
    mulDiv 535006138814359 432862656469423142931042426214547535783388063929571229938474969 2 =
      .ok (BitVec.allOnes 256) ∧
    mulDivUp 535006138814359 432862656469423142931042426214547535783388063929571229938474969 2 =
      .error .overflow := by
  decide +kernel

end ConcentratedLiquidity.Word
