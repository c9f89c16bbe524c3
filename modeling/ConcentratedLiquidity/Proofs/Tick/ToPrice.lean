import ConcentratedLiquidity.Proofs.Word.MulDiv
import ConcentratedLiquidity.Tick.ToPrice
import Mathlib.Analysis.Complex.ExponentialBounds
import Mathlib.Analysis.SpecialFunctions.Log.Deriv

/-!
# How good the price at a tick is

The logarithm of the exact price at a tick is the tick index times that of the root of 1.0001. The factors of the table are each close to the square of the one before, every product loses less than one unit of a number that stays above `2^63`, and so does the inversion. The ratio is right to `2^-57` in the logarithm, and the price, cut to fewer fractional bits, to `2^-30`.
-/

namespace ConcentratedLiquidity

noncomputable def tickLog : ℝ := Real.log (10001 / 10000) / 2

/-- The natural logarithm of a word read with some fractional bits. -/
noncomputable def Word.log (word : Word) (places : Nat) : ℝ := Real.log (word.toNat / 2 ^ places)

/-! ### Distances between logarithms -/

theorem abs_log_sub_log_le {x y error : ℝ} (hx : 0 < x) (hy : 0 < y) (hxy : x ≤ y * (1 + error))
    (hyx : y ≤ x * (1 + error)) : |Real.log x - Real.log y| ≤ error := by
  have hfactor : 0 < 1 + error := by
    by_contra hneg
    exact absurd (hx.trans_le hxy) (not_lt.2 (mul_nonpos_of_nonneg_of_nonpos hy.le (not_lt.1 hneg)))
  have hlog : Real.log (1 + error) ≤ error := by
    have := Real.log_le_sub_one_of_pos hfactor
    linarith
  have hx' := Real.log_le_log hx hxy
  have hy' := Real.log_le_log hy hyx
  rw [Real.log_mul hy.ne' hfactor.ne'] at hx'
  rw [Real.log_mul hx.ne' hfactor.ne'] at hy'
  rw [abs_le]
  exact ⟨by linarith, by linarith⟩

theorem abs_log_quotient_sub_le (value quotient : Nat) {divisor bound : Nat} (hdivisor : 0 < divisor)
    (hbound : 0 < bound) (hquotient : bound ≤ quotient) (hvalue : bound * divisor ≤ value)
    (hle : quotient * divisor ≤ value + divisor) (hge : value ≤ (quotient + 1) * divisor) :
    |Real.log quotient - (Real.log value - Real.log divisor)| ≤ 1 / bound := by
  have hdivisor' : (0 : ℝ) < divisor := by exact_mod_cast hdivisor
  have hbound' : (0 : ℝ) < bound := by exact_mod_cast hbound
  have hquotient' : (bound : ℝ) ≤ quotient := by exact_mod_cast hquotient
  have hvalue' : (bound : ℝ) ≤ value / divisor := by
    rw [le_div_iff₀ hdivisor']
    exact_mod_cast hvalue
  have hle' : (quotient : ℝ) ≤ value / divisor + 1 := by
    rw [div_add_one hdivisor'.ne', le_div_iff₀ hdivisor']
    exact_mod_cast hle
  have hge' : (value / divisor : ℝ) ≤ quotient + 1 := by
    rw [div_le_iff₀ hdivisor']
    exact_mod_cast hge
  -- one more is at most one part in the bound more
  have hstep : ∀ x : ℝ, bound ≤ x → x + 1 ≤ x * (1 + 1 / bound) := by
    intro x hx
    rw [mul_add, mul_one, mul_one_div]
    have hone := (one_le_div hbound').2 hx
    linarith
  have hvaluePos : (value : ℝ) ≠ 0 := by
    have hpos : 0 < value := lt_of_lt_of_le (Nat.mul_pos hbound hdivisor) hvalue
    exact_mod_cast hpos.ne'
  rw [← Real.log_div hvaluePos hdivisor'.ne']
  exact abs_log_sub_log_le (hbound'.trans_le hquotient') (hbound'.trans_le hvalue')
    (hle'.trans (hstep _ hvalue')) (hge'.trans (hstep _ hquotient'))

theorem two_pow_le_of_mul_log_two_le {exponent value : Nat} (hvalue : 0 < value)
    (h : exponent * Real.log 2 ≤ Real.log value) : 2 ^ exponent ≤ value := by
  have hpos : (0 : ℝ) < value := by exact_mod_cast hvalue
  rw [← Real.log_pow, Real.log_le_log_iff (by positivity) hpos] at h
  exact_mod_cast h

theorem tickLog_pos : 0 < tickLog := half_pos (Real.log_pos (by norm_num))

theorem tickLog_le : tickLog ≤ 1 / 20000 := by
  have := Real.log_le_sub_one_of_pos (show (0 : ℝ) < 10001 / 10000 by norm_num)
  rw [tickLog]
  linarith

namespace Word

theorem log_eq {word : Word} (hword : 0 < word.toNat) (places : Nat) :
    word.log places = Real.log word.toNat - places * Real.log 2 := by
  have hpos : (0 : ℝ) < word.toNat := by exact_mod_cast hword
  rw [log, Real.log_div hpos.ne' (by positivity), Real.log_pow]

end Word

/-! ### The table -/

/-- Two numbers that differ by one part in 2^85 at most. -/
def Near (a b : Nat) : Prop := a * 2 ^ 85 ≤ b * (2 ^ 85 + 1) ∧ b * 2 ^ 85 ≤ a * (2 ^ 85 + 1)

instance (a b : Nat) : Decidable (Near a b) := inferInstanceAs (Decidable (_ ∧ _))

theorem Near.abs_log_sub_log_le {a b : Nat} (h : Near a b) (ha : 0 < a) (hb : 0 < b) :
    |Real.log a - Real.log b| ≤ 1 / 2 ^ 85 := by
  have hab : (a : ℝ) * 2 ^ 85 ≤ b * (2 ^ 85 + 1) := by exact_mod_cast h.1
  have hba : (b : ℝ) * 2 ^ 85 ≤ a * (2 ^ 85 + 1) := by exact_mod_cast h.2
  apply ConcentratedLiquidity.abs_log_sub_log_le
  · exact_mod_cast ha
  · exact_mod_cast hb
  · rw [← mul_le_mul_iff_left₀ (show (0 : ℝ) < 2 ^ 85 by positivity)]
    linarith
  · rw [← mul_le_mul_iff_left₀ (show (0 : ℝ) < 2 ^ 85 by positivity)]
    linarith

/-- The factors are inverse powers of a number with a given logarithm, each the square of the one before, up to an error. -/
def Tabulates (unit error : ℝ) : List Word → Prop
  | [] => True
  | factor :: factors =>
    factor.toNat < 2 ^ 128 ∧ 0 < factor.toNat ∧ |factor.log 128 + unit| ≤ error ∧
      Tabulates (2 * unit) error factors

def SquareOf (factor square : Word) : Prop :=
  Near (factor.toNat * factor.toNat) (square.toNat * 2 ^ 128)

instance (factor square : Word) : Decidable (SquareOf factor square) :=
  inferInstanceAs (Decidable (Near _ _))

theorem log_of_squareOf {factor square : Word} (h : SquareOf factor square)
    (hfactor : 0 < factor.toNat) (hsquare : 0 < square.toNat) :
    |square.log 128 - 2 * factor.log 128| ≤ 1 / 2 ^ 85 := by
  have hfactor' : (factor.toNat : ℝ) ≠ 0 := by exact_mod_cast hfactor.ne'
  have hsquare' : (square.toNat : ℝ) ≠ 0 := by exact_mod_cast hsquare.ne'
  have hlog := Near.abs_log_sub_log_le h (Nat.mul_pos hfactor hfactor)
    (Nat.mul_pos hsquare (Nat.two_pow_pos 128))
  rw [Nat.cast_mul, Nat.cast_mul, Nat.cast_pow, Real.log_mul hfactor' hfactor',
    Real.log_mul hsquare' (by norm_num), Real.log_pow] at hlog
  rw [Word.log_eq hfactor, Word.log_eq hsquare, abs_sub_comm]
  refine le_of_eq_of_le ?_ hlog
  congr 1
  push_cast
  ring

/-- Squaring doubles the error, and so the last factor has the largest. -/
theorem tabulates_of_isChain {factor : Word} {factors : List Word}
    (hchain : (factor :: factors).IsChain SquareOf)
    (hrange : ∀ member ∈ factor :: factors, member.toNat < 2 ^ 128 ∧ 0 < member.toNat)
    {unit error : ℝ} (herror : 0 ≤ error) (hfactor : |factor.log 128 + unit| ≤ error) :
    Tabulates unit ((error + 1 / 2 ^ 85) * 2 ^ factors.length) (factor :: factors) := by
  induction factors generalizing factor unit error with
  | nil =>
    obtain ⟨hlt, hpos⟩ := hrange factor List.mem_cons_self
    refine ⟨hlt, hpos, ?_, trivial⟩
    rw [List.length_nil, pow_zero, mul_one]
    exact hfactor.trans (le_add_of_nonneg_right (by positivity))
  | cons square factors ih =>
    obtain ⟨hlt, hpos⟩ := hrange factor List.mem_cons_self
    obtain ⟨-, hsquarePos⟩ := hrange square (List.mem_cons_of_mem _ List.mem_cons_self)
    obtain ⟨hsquare, htail⟩ := List.isChain_cons_cons.1 hchain
    have hnext : |square.log 128 + 2 * unit| ≤ 2 * error + 1 / 2 ^ 85 := by
      have hclose := log_of_squareOf hsquare hpos hsquarePos
      rw [abs_le] at hclose hfactor ⊢
      exact ⟨by linarith [hclose.1, hfactor.1], by linarith [hclose.2, hfactor.2]⟩
    have hlength : (2 * error + 1 / 2 ^ 85 + 1 / 2 ^ 85) * 2 ^ factors.length =
        (error + 1 / 2 ^ 85) * 2 ^ (square :: factors).length := by
      rw [List.length_cons, pow_succ]
      ring
    have htabulates := ih htail (fun member hmem => hrange member (List.mem_cons_of_mem _ hmem))
      (by positivity) hnext
    rw [hlength] at htabulates
    refine ⟨hlt, hpos, hfactor.trans ?_, htabulates⟩
    have hone : (1 : ℝ) ≤ 2 ^ (square :: factors).length := one_le_pow₀ (by norm_num)
    have hsum : error ≤ error + 1 / 2 ^ 85 := le_add_of_nonneg_right (by positivity)
    exact hsum.trans (le_mul_of_one_le_right (by positivity) hone)

theorem log_firstFactor : |(0xfffcb933bd6fad37aa2d162d1a594001 : Word).log 128 + tickLog| ≤ 1 / 2 ^ 86 := by
  have hnear : Near (0xfffcb933bd6fad37aa2d162d1a594001 ^ 2 * 10001) (2 ^ 256 * 10000) := by
    decide +kernel
  have hlog := hnear.abs_log_sub_log_le (by decide +kernel) (by decide +kernel)
  rw [Nat.cast_mul, Nat.cast_mul, Nat.cast_pow, Nat.cast_pow, Real.log_mul (by norm_num) (by norm_num),
    Real.log_mul (by norm_num) (by norm_num), Real.log_pow, Real.log_pow] at hlog
  rw [tickLog, Real.log_div (by norm_num) (by norm_num), Word.log_eq (by decide +kernel),
    show (0xfffcb933bd6fad37aa2d162d1a594001 : Word).toNat = 0xfffcb933bd6fad37aa2d162d1a594001 from rfl]
  push_cast at hlog ⊢
  rw [abs_le] at hlog ⊢
  exact ⟨by linarith [hlog.1], by linarith [hlog.2]⟩

theorem inverseRootPowers_range {factor : Word} (hmem : factor ∈ inverseRootPowers) :
    factor.toNat < 2 ^ 128 ∧ 0 < factor.toNat := by
  have hrange : inverseRootPowers.all
      (fun factor => decide (factor.toNat < 2 ^ 128 ∧ 0 < factor.toNat)) = true := by
    decide +kernel
  rw [List.all_eq_true] at hrange
  exact of_decide_eq_true (hrange factor hmem)

theorem tabulates_inverseRootPowers : Tabulates tickLog (3 / 2 ^ 67) inverseRootPowers := by
  have hchain : inverseRootPowers.IsChain SquareOf := by decide +kernel
  have htabulates := tabulates_of_isChain hchain
    (fun _ hmem => inverseRootPowers_range hmem) (by positivity) log_firstFactor
  have herror : (1 / 2 ^ 86 + 1 / 2 ^ 85 : ℝ) * 2 ^ 19 = 3 / 2 ^ 67 := by norm_num
  exact herror ▸ htabulates

/-! ### Products of factors -/

/-- The error of one product: the truncation of a number that is at least 2^63, and the factor's own. -/
noncomputable def factorError : ℝ := 1 / 2 ^ 63 + 3 / 2 ^ 67

theorem product_fits {ratio factor : Word} (hratio : ratio.toNat ≤ 2 ^ 128)
    (hfactor : factor.toNat < 2 ^ 128) : ratio.toNat * factor.toNat < 2 ^ 256 := by
  have hfits := Nat.mul_lt_mul_of_le_of_lt hratio hfactor (by decide)
  rwa [← pow_add] at hfits

theorem toNat_truncatedProduct {ratio factor : Word} (hratio : ratio.toNat ≤ 2 ^ 128)
    (hfactor : factor.toNat < 2 ^ 128) :
    ((ratio * factor) >>> 128).toNat = ratio.toNat * factor.toNat / 2 ^ 128 := by
  rw [BitVec.toNat_ushiftRight, BitVec.toNat_mul, Nat.mod_eq_of_lt (product_fits hratio hfactor),
    Nat.shiftRight_eq_div_pow]

theorem truncatedProduct_le {ratio factor : Word} (hratio : ratio.toNat ≤ 2 ^ 128)
    (hfactor : factor.toNat < 2 ^ 128) : ((ratio * factor) >>> 128).toNat ≤ 2 ^ 128 := by
  rw [toNat_truncatedProduct hratio hfactor]
  exact Nat.div_le_of_le_mul (Nat.mul_le_mul hratio hfactor.le)

theorem truncatedProduct_bounds {ratio factor : Word} (hratio : ratio.toNat ≤ 2 ^ 128)
    (hratioPos : 0 < ratio.toNat) (hfactor : factor.toNat < 2 ^ 128) (hfactorPos : 0 < factor.toNat)
    (hroom : -(65 * Real.log 2) ≤ ratio.log 128 + factor.log 128) :
    let product : Word := (ratio * factor) >>> 128
    0 < product.toNat ∧ product.toNat ≤ 2 ^ 128 ∧
      |product.log 128 - (ratio.log 128 + factor.log 128)| ≤ 1 / 2 ^ 63 := by
  intro product
  have hproduct : product.toNat = ratio.toNat * factor.toNat / 2 ^ 128 :=
    toNat_truncatedProduct hratio hfactor
  have hratio' : (ratio.toNat : ℝ) ≠ 0 := by exact_mod_cast hratioPos.ne'
  have hfactor' : (factor.toNat : ℝ) ≠ 0 := by exact_mod_cast hfactorPos.ne'
  rw [Word.log_eq hratioPos, Word.log_eq hfactorPos] at hroom ⊢
  have hlarge : 2 ^ 191 ≤ ratio.toNat * factor.toNat := by
    apply two_pow_le_of_mul_log_two_le (Nat.mul_pos hratioPos hfactorPos)
    rw [Nat.cast_mul, Real.log_mul hratio' hfactor']
    push_cast at hroom ⊢
    linarith
  have hproductLarge : 2 ^ 63 ≤ product.toNat := by
    rw [hproduct]
    omega
  have hpos : 0 < product.toNat := lt_of_lt_of_le (by decide) hproductLarge
  have hlog := abs_log_quotient_sub_le (ratio.toNat * factor.toNat) product.toNat
    (Nat.two_pow_pos 128) (Nat.two_pow_pos 63) hproductLarge (by omega) (by omega) (by omega)
  refine ⟨hpos, truncatedProduct_le hratio hfactor, ?_⟩
  rw [Nat.cast_mul, Nat.cast_pow, Nat.cast_pow, Real.log_mul hratio' hfactor', Real.log_pow] at hlog
  rw [Word.log_eq hpos]
  push_cast at hlog ⊢
  rw [abs_le] at hlog ⊢
  exact ⟨by linarith [hlog.1], by linarith [hlog.2]⟩

theorem selectFactor_bounds {ratio factor : Word} (hratio : ratio.toNat ≤ 2 ^ 128)
    (hratioPos : 0 < ratio.toNat) (hfactor : factor.toNat < 2 ^ 128) (hfactorPos : 0 < factor.toNat)
    {unit : ℝ} (hlog : |factor.log 128 + unit| ≤ 3 / 2 ^ 67) (bits : Nat)
    (hroom : factorError - 65 * Real.log 2 ≤ ratio.log 128 - (bits % 2 : Nat) * unit) :
    let product : Word := if bits % 2 = 1 then (ratio * factor) >>> 128 else ratio
    0 < product.toNat ∧ product.toNat ≤ 2 ^ 128 ∧
      |product.log 128 - (ratio.log 128 - (bits % 2 : Nat) * unit)| ≤ factorError := by
  intro product
  rw [abs_le] at hlog
  by_cases hodd : bits % 2 = 1
  · rw [hodd] at hroom ⊢
    push_cast at hroom ⊢
    have hproduct : product = (ratio * factor) >>> 128 := if_pos hodd
    have hsum : -(65 * Real.log 2) ≤ ratio.log 128 + factor.log 128 := by
      rw [factorError] at hroom
      linarith [hlog.1]
    obtain ⟨hpos, hle, hclose⟩ := truncatedProduct_bounds hratio hratioPos hfactor hfactorPos hsum
    rw [hproduct]
    refine ⟨hpos, hle, ?_⟩
    rw [abs_le] at hclose ⊢
    rw [factorError]
    exact ⟨by linarith [hclose.1, hlog.1], by linarith [hclose.2, hlog.2]⟩
  · have hproduct : product = ratio := if_neg hodd
    have heven : bits % 2 = 0 := by omega
    rw [hproduct, heven]
    refine ⟨hratioPos, hratio, ?_⟩
    rw [Nat.cast_zero, zero_mul, sub_zero, sub_self, abs_zero, factorError]
    positivity

/-- The product of the selected factors has the selected multiple of the unit in its logarithm, as long as there is room for the errors above 2^-65. -/
theorem selectFactors_bounds {unit : ℝ} (hunit : 0 ≤ unit) {factors : List Word}
    (htabulates : Tabulates unit (3 / 2 ^ 67) factors) {bits : Nat}
    (hbits : bits < 2 ^ factors.length) {ratio : Word} (hratio : ratio.toNat ≤ 2 ^ 128)
    (hratioPos : 0 < ratio.toNat)
    (hroom : factors.length * factorError - 65 * Real.log 2 ≤ ratio.log 128 - bits * unit) :
    let product := selectFactors factors bits ratio
    0 < product.toNat ∧ product.toNat ≤ 2 ^ 128 ∧
      |product.log 128 - (ratio.log 128 - bits * unit)| ≤ factors.length * factorError := by
  induction factors generalizing unit bits ratio with
  | nil =>
    have hzero : bits = 0 := Nat.lt_one_iff.1 hbits
    refine ⟨hratioPos, hratio, ?_⟩
    rw [hzero]
    simp [selectFactors]
  | cons factor factors ih =>
    obtain ⟨hfactor, hfactorPos, hlog, htail⟩ := htabulates
    have hhalf : bits / 2 < 2 ^ factors.length := by
      rw [List.length_cons, pow_succ] at hbits
      omega
    have hsplit : (bits : ℝ) * unit = (bits / 2 : Nat) * (2 * unit) + (bits % 2 : Nat) * unit := by
      have hbits' : ((2 * (bits / 2) + bits % 2 : Nat) : ℝ) = bits := by rw [Nat.div_add_mod]
      rw [← hbits']
      push_cast
      ring
    have hrest : 0 ≤ ((bits / 2 : Nat) : ℝ) * (2 * unit) := by positivity
    have herror : 0 ≤ (factors.length : ℝ) * factorError := by
      rw [factorError]
      positivity
    rw [List.length_cons, Nat.cast_succ, add_one_mul, hsplit] at hroom ⊢
    rw [selectFactors]
    obtain ⟨hpos, hle, hnext⟩ := selectFactor_bounds hratio hratioPos hfactor hfactorPos hlog bits
      (by linarith)
    rw [abs_le] at hnext
    obtain ⟨hpos', hle', hclose⟩ := ih (by positivity) htail hhalf hle hpos (by linarith [hnext.1])
    refine ⟨hpos', hle', ?_⟩
    rw [abs_le] at hclose ⊢
    exact ⟨by linarith [hclose.1, hnext.1], by linarith [hclose.2, hnext.2]⟩

/-! ### The ratio -/

namespace TickIndex

theorem inverseRatio_bounds {distance : Nat} (hdistance : distance ≤ 887272) :
    2 ^ 63 ≤ (inverseRatio distance).toNat ∧ (inverseRatio distance).toNat ≤ 2 ^ 128 ∧
      |(inverseRatio distance).log 128 + distance * tickLog| ≤ 1 / 2 ^ 58 := by
  have hone : ((1 <<< 128 : Nat) : Word).toNat = 2 ^ 128 := by decide
  have hlogOne : Word.log ((1 <<< 128 : Nat) : Word) 128 = 0 := by
    rw [Word.log, hone]
    norm_num
  have hcast : (distance : ℝ) ≤ 887272 := by exact_mod_cast hdistance
  have hfar : distance * tickLog ≤ 887272 * (1 / 20000) :=
    mul_le_mul hcast tickLog_le tickLog_pos.le (by norm_num)
  have htwo := Real.log_two_gt_d9
  have hlength : (inverseRootPowers.length : ℝ) * factorError ≤ 1 / 2 ^ 58 := by
    rw [factorError, show inverseRootPowers.length = 20 from rfl]
    norm_num
  obtain ⟨hpos, hle, hclose⟩ := selectFactors_bounds tickLog_pos.le tabulates_inverseRootPowers
    (lt_of_le_of_lt hdistance (by decide)) hone.le (by decide) (by rw [hlogOne]; linarith)
  rw [hlogOne, zero_sub, sub_neg_eq_add] at hclose
  have hclose' := hclose.trans hlength
  refine ⟨?_, hle, hclose'⟩
  apply two_pow_le_of_mul_log_two_le hpos
  rw [Word.log_eq hpos, abs_le] at hclose'
  rw [Nat.cast_ofNat] at hclose' ⊢
  linarith [hclose'.1]

theorem invert_bounds {inverse : Word} (hge : 2 ^ 63 ≤ inverse.toNat) (hle : inverse.toNat ≤ 2 ^ 128) :
    let quotient : Word := BitVec.allOnes 256 / inverse
    2 ^ 127 ≤ quotient.toNat ∧ |quotient.log 128 + inverse.log 128| ≤ 1 / 2 ^ 127 := by
  intro quotient
  have hinverse : 0 < inverse.toNat := lt_of_lt_of_le (by decide) hge
  have hquotient : quotient.toNat = (2 ^ 256 - 1) / inverse.toNat := by
    rw [BitVec.toNat_udiv, BitVec.toNat_allOnes]
  have hlarge : 2 ^ 127 ≤ quotient.toNat := by
    rw [hquotient, Nat.le_div_iff_mul_le hinverse]
    exact (Nat.mul_le_mul_left _ hle).trans (by decide)
  have hpos : 0 < quotient.toNat := lt_of_lt_of_le (by decide) hlarge
  have hfloor : quotient.toNat * inverse.toNat ≤ 2 ^ 256 - 1 := by
    rw [hquotient]
    exact Nat.div_mul_le_self _ _
  have hceil : 2 ^ 256 - 1 < (quotient.toNat + 1) * inverse.toNat := by
    rw [hquotient, mul_comm]
    exact Nat.lt_mul_div_succ _ hinverse
  have hlog := abs_log_quotient_sub_le (2 ^ 256) quotient.toNat hinverse (Nat.two_pow_pos 127)
    hlarge (by omega) (by omega) (by omega)
  refine ⟨hlarge, ?_⟩
  rw [Word.log_eq hpos, Word.log_eq hinverse]
  rw [Nat.cast_pow, Nat.cast_pow, Real.log_pow] at hlog
  push_cast at hlog ⊢
  rw [abs_le] at hlog ⊢
  exact ⟨by linarith [hlog.1], by linarith [hlog.2]⟩

theorem ratio_bounds {tick : TickIndex} (htick : tick.InRange) :
    2 ^ 63 ≤ tick.ratio.toNat ∧ |tick.ratio.log 128 - tick.toInt * tickLog| ≤ 1 / 2 ^ 57 := by
  obtain ⟨hge, hle, hclose⟩ := inverseRatio_bounds (inRange_iff.1 htick)
  rw [ratio]
  by_cases hpos : 0 < tick
  · rw [if_pos hpos]
    have habs : (tick.toInt.natAbs : ℝ) = tick.toInt := by
      have hnonneg : 0 ≤ tick.toInt := le_of_lt (Int32.lt_iff_toInt_lt.1 hpos)
      rw [Nat.cast_natAbs, abs_of_nonneg hnonneg]
    rw [habs] at hclose
    obtain ⟨hlarge, hinverse⟩ := invert_bounds hge hle
    refine ⟨le_trans (by decide) hlarge, ?_⟩
    rw [abs_le] at hclose hinverse ⊢
    exact ⟨by linarith [hclose.2, hinverse.1], by linarith [hclose.1, hinverse.2]⟩
  · rw [if_neg hpos]
    have habs : (tick.toInt.natAbs : ℝ) = -tick.toInt := by
      have hneg : tick.toInt ≤ 0 := not_lt.1 fun h => hpos (Int32.lt_iff_toInt_lt.2 h)
      rw [Nat.cast_natAbs, abs_of_nonpos hneg, Int.cast_neg]
    rw [habs, neg_mul, ← sub_eq_add_neg] at hclose
    exact ⟨hge, hclose.trans (by norm_num)⟩

theorem toNat_roundedRatio (tick : TickIndex) :
    tick.roundedRatio.toNat = tick.ratio.toNat ⌈/⌉ 2 ^ 32 := by
  have hlt := tick.ratio.isLt
  have hlow : tick.ratio.setWidth 32 = 0 ↔ tick.ratio.toNat % 2 ^ 32 = 0 := by
    rw [← BitVec.toNat_inj, BitVec.toNat_setWidth]
    rfl
  rw [roundedRatio, BitVec.toNat_add, BitVec.toNat_ushiftRight, Nat.shiftRight_eq_div_pow,
    Word.ceilDiv_eq_div_add _ (Nat.two_pow_pos 32)]
  simp only [hlow]
  split
  · exact Nat.mod_eq_of_lt (by rw [show (0 : Word).toNat = 0 from rfl]; omega)
  · exact Nat.mod_eq_of_lt (by rw [show (1 : Word).toNat = 1 from rfl]; omega)

theorem roundedRatio_near_ratio (tick : TickIndex) :
    tick.ratio.toNat ≤ 2 ^ 32 * tick.roundedRatio.toNat ∧
      2 ^ 32 * tick.roundedRatio.toNat < tick.ratio.toNat + 2 ^ 32 := by
  rw [toNat_roundedRatio, Word.ceilDiv_eq_div_add _ (Nat.two_pow_pos 32)]
  split
  · omega
  · omega

theorem roundedRatio_log {tick : TickIndex} (htick : tick.InRange) :
    0 < tick.roundedRatio.toNat ∧ |tick.roundedRatio.log 96 - tick.toInt * tickLog| ≤ 1 / 2 ^ 30 := by
  obtain ⟨hlarge, hratio⟩ := ratio_bounds htick
  obtain ⟨hle, hlt⟩ := tick.roundedRatio_near_ratio
  have hpos : 0 < tick.roundedRatio.toNat := by omega
  have hratioPos : 0 < tick.ratio.toNat := by omega
  have hlog := abs_log_quotient_sub_le tick.ratio.toNat tick.roundedRatio.toNat
    (Nat.two_pow_pos 32) (Nat.two_pow_pos 31) (by omega) (by omega) (by omega) (by omega)
  rw [Nat.cast_pow, Nat.cast_pow, Real.log_pow] at hlog
  rw [Word.log_eq hratioPos] at hratio
  rw [Word.log_eq hpos]
  refine ⟨hpos, ?_⟩
  push_cast at hlog hratio ⊢
  rw [abs_le] at hlog hratio ⊢
  exact ⟨by linarith [hlog.1, hratio.1], by linarith [hlog.2, hratio.2]⟩

theorem sqrtPrice_eq_ok {tick : TickIndex} (htick : tick.InRange) :
    tick.sqrtPrice = .ok tick.roundedRatio := if_pos htick

end TickIndex

end ConcentratedLiquidity
