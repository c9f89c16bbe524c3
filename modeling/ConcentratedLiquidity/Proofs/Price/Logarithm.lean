import ConcentratedLiquidity.Price.Logarithm
import ConcentratedLiquidity.Proofs.Error
import ConcentratedLiquidity.Proofs.Word.BitScan
import Mathlib.Algebra.Order.Field.Power
import Mathlib.Data.Rat.Cast.Order
import Mathlib.Tactic.FieldSimp
import Mathlib.Tactic.Linarith
import Mathlib.Tactic.Positivity
import Mathlib.Tactic.Ring

/-!
# How good the binary logarithm is

After some places the bits found are a whole exponent at that many binary places, and the ratio raised to the power of two is two to that exponent times the mantissa, up to the truncations on the way. The mantissa stays from one to below two, and a truncation costs it a factor of at most `1 + 2^-127`; squaring doubles the number of such factors. After fourteen places they still come to less than `1 + 2^-100`. No square on the way is too large for a word, and every bit goes to a place that is still clear.
-/

namespace ConcentratedLiquidity

namespace LogarithmState

/-- The cost of one truncation of a mantissa. -/
def truncation : ℚ := 1 + 1 / 2 ^ 127

/-- What the state knows about the logarithm of a ratio after some fractional places. -/
structure Approximates (ratio : Word) (places : Nat) (exponent : Int) (state : LogarithmState) :
    Prop where
  log_eq : state.log = BitVec.ofInt 256 exponent <<< (64 - places)
  le_mantissa : 2 ^ 127 ≤ state.mantissa.toNat
  mantissa_lt : state.mantissa.toNat < 2 ^ 128
  neg_le_exponent : -(128 * 2 ^ places) ≤ exponent
  exponent_lt : exponent < 128 * 2 ^ places
  lower : (2 : ℚ) ^ exponent * (state.mantissa.toNat / 2 ^ 127) ≤
    (ratio.toNat / 2 ^ 128 : ℚ) ^ 2 ^ places
  upper : (ratio.toNat / 2 ^ 128 : ℚ) ^ 2 ^ places ≤
    (2 : ℚ) ^ exponent * (state.mantissa.toNat / 2 ^ 127) * truncation ^ (2 ^ (places + 1) - 1)

/-! ### Truncation -/

/-- A truncated quotient that is still at least 2^127 is short of the exact one by a factor of `truncation` at most. -/
theorem truncated_bounds {value divisor : Nat} (hdivisor : 0 < divisor)
    (hlarge : 2 ^ 127 ≤ value / divisor) :
    ((value / divisor : Nat) : ℚ) * divisor ≤ value ∧
      (value : ℚ) ≤ (value / divisor : Nat) * divisor * truncation := by
  have hfloor := Nat.div_mul_le_self value divisor
  have hceil : value ≤ value / divisor * divisor + divisor := by
    rw [← Nat.succ_mul, mul_comm]
    exact (Nat.lt_mul_div_succ value hdivisor).le
  have hone : (1 : ℚ) ≤ (value / divisor : Nat) * (1 / 2 ^ 127) := by
    rw [mul_one_div, le_div_iff₀ (by positivity), one_mul]
    exact_mod_cast hlarge
  refine ⟨by exact_mod_cast hfloor, ?_⟩
  calc
    (value : ℚ) ≤ (value / divisor : Nat) * divisor + divisor := by exact_mod_cast hceil
    _ ≤ (value / divisor : Nat) * divisor +
        (value / divisor : Nat) * (1 / 2 ^ 127) * divisor := by
      rw [add_le_add_iff_left]
      exact le_mul_of_one_le_left (Nat.cast_nonneg divisor) hone
    _ = (value / divisor : Nat) * divisor * truncation := by
      rw [truncation]
      ring

theorem one_le_truncation : 1 ≤ truncation := by
  rw [truncation]
  norm_num

theorem one_add_pow_le {x : ℚ} (hx : 0 ≤ x) {n : Nat} (hsmall : 2 * n * x ≤ 1) :
    (1 + x) ^ n ≤ 1 + 2 * n * x := by
  induction n with
  | zero => simp
  | succ n ih =>
    push_cast at hsmall ⊢
    have hprevious : 2 * n * x ≤ 1 := by nlinarith
    calc
      (1 + x) ^ (n + 1) = (1 + x) ^ n * (1 + x) := pow_succ _ _
      _ ≤ (1 + 2 * n * x) * (1 + x) := mul_le_mul_of_nonneg_right (ih hprevious) (by linarith)
      _ ≤ 1 + 2 * (n + 1) * x := by nlinarith

theorem truncation_pow_lt : truncation ^ (2 ^ 15 - 1) < 1 + 1 / 2 ^ 100 := by
  have hle : truncation ^ (2 ^ 15 - 1) ≤ 1 + 2 * ((2 ^ 15 - 1 : Nat) : ℚ) * (1 / 2 ^ 127) :=
    one_add_pow_le (by positivity) (by norm_num)
  refine lt_of_le_of_lt hle ?_
  norm_num

theorem truncation_pow_succ (places : Nat) :
    truncation ^ (2 ^ (places + 1) - 1) = truncation * (truncation ^ (2 ^ places - 1)) ^ 2 := by
  rw [← pow_mul, ← pow_succ']
  congr 1
  have hpos := Nat.two_pow_pos places
  rw [pow_succ]
  omega

/-! ### The first state -/

theorem start_log (ratio : Word) (highest : Nat) :
    (start ratio highest).log = BitVec.ofInt 256 (highest - 128) <<< 64 := by
  rw [Int.sub_eq_add_neg, BitVec.ofInt_add, BitVec.ofInt_neg, ← BitVec.sub_eq_add_neg,
    BitVec.ofInt_natCast]
  rfl

theorem toNat_start_mantissa_of_lt {ratio : Word} {highest : Nat} (hhighest : highest < 128)
    (hlt : ratio.toNat < 2 ^ (highest + 1)) :
    (start ratio highest).mantissa.toNat = ratio.toNat * 2 ^ (127 - highest) := by
  have hfits := Nat.mul_lt_mul_of_pos_right hlt (Nat.two_pow_pos (127 - highest))
  rw [← pow_add, show highest + 1 + (127 - highest) = 128 by omega] at hfits
  simp only [start, if_neg (Nat.not_le.2 hhighest)]
  rw [BitVec.toNat_shiftLeft, Nat.shiftLeft_eq]
  exact Nat.mod_eq_of_lt (hfits.trans (by norm_num))

theorem toNat_start_mantissa_of_le {ratio : Word} {highest : Nat} (hhighest : 128 ≤ highest) :
    (start ratio highest).mantissa.toNat = ratio.toNat / 2 ^ (highest - 127) := by
  simp only [start, if_pos hhighest]
  rw [BitVec.toNat_ushiftRight, Nat.shiftRight_eq_div_pow]

/-- A mantissa is that of a ratio with a given highest bit: from one to below two, and the exact one but for a truncation. -/
structure Normalizes (ratio : Word) (highest mantissa : Nat) : Prop where
  le_mantissa : 2 ^ 127 ≤ mantissa
  mantissa_lt : mantissa < 2 ^ 128
  lower : (mantissa : ℚ) * 2 ^ highest ≤ ratio.toNat * 2 ^ 127
  upper : (ratio.toNat : ℚ) * 2 ^ 127 ≤ mantissa * 2 ^ highest * truncation

section Normalization

variable {ratio : Word} {highest : Nat} (hle : 2 ^ highest ≤ ratio.toNat)
  (hlt : ratio.toNat < 2 ^ (highest + 1))

include hle hlt

theorem normalizes_start_of_lt (hhighest : highest < 128) :
    Normalizes ratio highest (start ratio highest).mantissa.toNat := by
  have hpow : 2 ^ highest * 2 ^ (127 - highest) = 2 ^ 127 := by
    rw [← pow_add, Nat.add_sub_cancel' (by omega)]
  have hlower := Nat.mul_le_mul_right (2 ^ (127 - highest)) hle
  have hupper := Nat.mul_lt_mul_of_pos_right hlt (Nat.two_pow_pos (127 - highest))
  rw [hpow] at hlower
  rw [pow_succ, mul_right_comm, hpow] at hupper
  have hexact : (ratio.toNat * 2 ^ (127 - highest) : Nat) * (2 : ℚ) ^ highest =
      ratio.toNat * 2 ^ 127 := by
    have hnat : ratio.toNat * 2 ^ (127 - highest) * 2 ^ highest = ratio.toNat * 2 ^ 127 := by
      rw [← hpow, mul_comm (2 ^ highest), mul_assoc]
    exact_mod_cast hnat
  rw [toNat_start_mantissa_of_lt hhighest hlt]
  refine ⟨hlower, hupper, hexact.le, ?_⟩
  rw [hexact]
  exact le_mul_of_one_le_right (by positivity) one_le_truncation

theorem normalizes_start_of_le (hhighest : 128 ≤ highest) :
    Normalizes ratio highest (start ratio highest).mantissa.toNat := by
  have hpow : 2 ^ highest = 2 ^ 127 * 2 ^ (highest - 127) := by
    rw [← pow_add, Nat.add_sub_cancel' (by omega)]
  have hpos : 0 < 2 ^ (highest - 127) := Nat.two_pow_pos _
  have hlarge : 2 ^ 127 ≤ ratio.toNat / 2 ^ (highest - 127) := by
    rw [Nat.le_div_iff_mul_le hpos, ← hpow]
    exact hle
  have hsmall : ratio.toNat / 2 ^ (highest - 127) < 2 ^ 128 := by
    rw [Nat.div_lt_iff_lt_mul hpos, pow_succ, mul_right_comm, ← hpow, ← pow_succ]
    exact hlt
  have hpowRat : (2 : ℚ) ^ highest = 2 ^ 127 * (2 ^ (highest - 127) : Nat) := by
    exact_mod_cast hpow
  obtain ⟨hfloor, hceil⟩ := truncated_bounds hpos hlarge
  rw [toNat_start_mantissa_of_le hhighest]
  refine ⟨hlarge, hsmall, ?_, ?_⟩
  · rw [hpowRat, mul_left_comm, mul_comm]
    exact mul_le_mul_of_nonneg_right hfloor (by positivity)
  · rw [hpowRat, mul_left_comm, mul_assoc, mul_comm]
    exact mul_le_mul_of_nonneg_left hceil (by positivity)

theorem normalizes_start : Normalizes ratio highest (start ratio highest).mantissa.toNat := by
  rcases Nat.lt_or_ge highest 128 with hlow | hhigh
  · exact normalizes_start_of_lt hle hlt hlow
  · exact normalizes_start_of_le hle hlt hhigh

end Normalization

theorem approximates_start {ratio : Word} {highest : Nat} (hle : 2 ^ highest ≤ ratio.toNat)
    (hlt : ratio.toNat < 2 ^ (highest + 1)) :
    Approximates ratio 0 (highest - 128) (start ratio highest) := by
  have hsmall : highest < 256 := (Nat.pow_lt_pow_iff_right (by decide)).1 (hle.trans_lt ratio.isLt)
  have hexponent : (2 : ℚ) ^ ((highest : Int) - 128) = 2 ^ highest / 2 ^ 128 := by
    rw [zpow_sub₀ (by norm_num), zpow_natCast]
    norm_num
  obtain ⟨hge, hlt', hlower, hupper⟩ := normalizes_start hle hlt
  refine ⟨start_log ratio highest, hge, hlt', by omega, by omega, ?_, ?_⟩
  · rw [hexponent, pow_zero, pow_one, div_mul_div_comm, div_le_div_iff₀ (by positivity) (by positivity)]
    linarith
  · rw [hexponent, pow_zero, pow_one, div_mul_div_comm, zero_add, pow_one, pow_one, div_mul_eq_mul_div,
      div_le_div_iff₀ (by positivity) (by positivity)]
    linarith

/-! ### One more place -/

/-- The place below an exponent is free for one more bit. -/
theorem ofInt_shiftLeft_or (exponent : Int) {bit place : Nat} (hbit : bit < 2) :
    BitVec.ofInt 256 exponent <<< (place + 1) ||| BitVec.ofNat 256 bit <<< place =
      BitVec.ofInt 256 (2 * exponent + bit) <<< place := by
  have hdouble : BitVec.ofInt 256 (2 * exponent) = BitVec.ofInt 256 exponent <<< 1 := by
    rw [BitVec.ofInt_mul, BitVec.shiftLeft_eq_mul_twoPow, BitVec.mul_comm]
    rfl
  have hdisjoint : BitVec.ofInt 256 exponent <<< 1 &&& BitVec.ofNat 256 bit = 0#256 := by
    apply BitVec.eq_of_getLsbD_eq
    intro i hi
    rw [BitVec.getLsbD_and, BitVec.getLsbD_shiftLeft, BitVec.getLsbD_ofNat, BitVec.getLsbD_zero]
    by_cases hlowest : i < 1
    · simp [hlowest]
    · have hclear : bit.testBit i = false := by
        apply Nat.testBit_lt_two_pow
        exact lt_of_lt_of_le hbit (Nat.le_self_pow (by omega) 2)
      rw [hclear, Bool.and_false, Bool.and_false]
  rw [add_comm place, BitVec.shiftLeft_add, ← BitVec.shiftLeft_or_distrib,
    ← BitVec.add_eq_or_of_and_eq_zero _ _ hdisjoint, ← hdouble, BitVec.ofInt_add, BitVec.ofInt_natCast]

/-- The square of the mantissa, cut to 127 fractional bits. -/
def square (state : LogarithmState) : Nat :=
  state.mantissa.toNat * state.mantissa.toNat / 2 ^ 127

/-- The next bit of the logarithm: the square of the mantissa is two or more. -/
def nextBit (state : LogarithmState) : Nat := state.square / 2 ^ 128

theorem mantissa_mul_mantissa_lt {state : LogarithmState} (hmantissa : state.mantissa.toNat < 2 ^ 128) :
    state.mantissa.toNat * state.mantissa.toNat < 2 ^ 256 := by
  have hproduct := Nat.mul_lt_mul'' hmantissa hmantissa
  rwa [← pow_add] at hproduct

theorem toNat_square {state : LogarithmState} (hmantissa : state.mantissa.toNat < 2 ^ 128) :
    ((state.mantissa * state.mantissa) >>> 127).toNat = state.square := by
  rw [BitVec.toNat_ushiftRight, BitVec.toNat_mul,
    Nat.mod_eq_of_lt (mantissa_mul_mantissa_lt hmantissa), Nat.shiftRight_eq_div_pow, square]

theorem toNat_nextBit {state : LogarithmState} (hmantissa : state.mantissa.toNat < 2 ^ 128) :
    ((state.mantissa * state.mantissa) >>> 127 >>> 128).toNat = state.nextBit := by
  rw [BitVec.toNat_ushiftRight, toNat_square hmantissa, Nat.shiftRight_eq_div_pow, nextBit]

theorem toNat_refine_mantissa {state : LogarithmState} (hmantissa : state.mantissa.toNat < 2 ^ 128)
    (place : Nat) : (state.refine place).mantissa.toNat = state.square / 2 ^ state.nextBit := by
  change ((state.mantissa * state.mantissa) >>> 127 >>>
    ((state.mantissa * state.mantissa) >>> 127 >>> 128).toNat).toNat = _
  rw [BitVec.toNat_ushiftRight, toNat_nextBit hmantissa, toNat_square hmantissa,
    Nat.shiftRight_eq_div_pow]

theorem refine_log {state : LogarithmState} (hmantissa : state.mantissa.toNat < 2 ^ 128)
    (place : Nat) :
    (state.refine place).log =
      state.log ||| BitVec.ofNat 256 state.nextBit <<< (63 - place) := by
  rw [← toNat_nextBit hmantissa, BitVec.ofNat_toNat, BitVec.setWidth_eq]
  rfl

/-- A square of a number from one to below two is from one to below four, and below two again once the carried bit is shifted out. -/
theorem refined_bounds {state : LogarithmState} (hle : 2 ^ 127 ≤ state.mantissa.toNat)
    (hlt : state.mantissa.toNat < 2 ^ 128) :
    state.nextBit < 2 ∧ 2 ^ 127 ≤ state.square / 2 ^ state.nextBit ∧
      state.square / 2 ^ state.nextBit < 2 ^ 128 := by
  have hlower : 2 ^ 127 ≤ state.square := by
    rw [square, Nat.le_div_iff_mul_le (Nat.two_pow_pos 127)]
    exact Nat.mul_le_mul hle hle
  have hupper : state.square < 2 ^ 129 := by
    rw [square, Nat.div_lt_iff_lt_mul (Nat.two_pow_pos 127), ← pow_add]
    exact mantissa_mul_mantissa_lt hlt
  have hbit : state.nextBit < 2 := by
    rw [nextBit]
    omega
  refine ⟨hbit, ?_⟩
  rcases Nat.lt_or_ge state.square (2 ^ 128) with hsmall | hlarge
  · have hzero : state.nextBit = 0 := Nat.div_eq_of_lt hsmall
    rw [hzero]
    omega
  · have hone : state.nextBit = 1 := by
      rw [nextBit]
      omega
    rw [hone]
    omega

theorem refine_mantissa_bounds {state : LogarithmState} (hle : 2 ^ 127 ≤ state.mantissa.toNat)
    (hlt : state.mantissa.toNat < 2 ^ 128) (place : Nat) :
    ((state.refine place).mantissa.toNat : ℚ) * (2 ^ 127 * 2 ^ state.nextBit) ≤
        state.mantissa.toNat * state.mantissa.toNat ∧
      (state.mantissa.toNat * state.mantissa.toNat : ℚ) ≤
        (state.refine place).mantissa.toNat * (2 ^ 127 * 2 ^ state.nextBit) * truncation := by
  obtain ⟨-, hlarge, -⟩ := refined_bounds hle hlt
  rw [square, Nat.div_div_eq_div_mul] at hlarge
  rw [toNat_refine_mantissa hlt, square, Nat.div_div_eq_div_mul]
  have hbounds := truncated_bounds (by positivity) hlarge
  exact_mod_cast hbounds

theorem two_zpow_double_add (exponent : Int) (bit : Nat) :
    (2 : ℚ) ^ (2 * exponent + bit) = ((2 : ℚ) ^ exponent) ^ 2 * 2 ^ bit := by
  rw [zpow_add₀ (by norm_num), zpow_natCast, mul_comm 2, zpow_mul]
  rfl

theorem approximates_refine {ratio : Word} {places : Nat} {exponent : Int} {state : LogarithmState}
    (h : Approximates ratio places exponent state) (hplaces : places < 64) :
    Approximates ratio (places + 1) (2 * exponent + state.nextBit) (state.refine places) := by
  obtain ⟨hlog, hle, hlt, hneg, hexponent, hlower, hupper⟩ := h
  obtain ⟨hbit, hle', hlt'⟩ := refined_bounds hle hlt
  obtain ⟨hfloor, hceil⟩ := refine_mantissa_bounds hle hlt places
  have hmantissa := toNat_refine_mantissa hlt places
  have hsquare : (ratio.toNat / 2 ^ 128 : ℚ) ^ 2 ^ (places + 1) =
      ((ratio.toNat / 2 ^ 128 : ℚ) ^ 2 ^ places) ^ 2 := by
    rw [pow_succ 2 places, pow_mul]
  refine ⟨?_, hmantissa ▸ hle', hmantissa ▸ hlt', ?_, ?_, ?_, ?_⟩
  · rw [refine_log hlt, hlog, show 64 - places = 63 - places + 1 by omega,
      ofInt_shiftLeft_or _ hbit, Nat.add_comm places, Nat.sub_add_eq]
  · rw [pow_succ]
    omega
  · rw [pow_succ]
    omega
  · rw [two_zpow_double_add, hsquare]
    calc
      _ = ((2 : ℚ) ^ exponent / 2 ^ 127) ^ 2 *
          ((state.refine places).mantissa.toNat * (2 ^ 127 * 2 ^ state.nextBit)) := by
        field_simp
      _ ≤ ((2 : ℚ) ^ exponent / 2 ^ 127) ^ 2 * (state.mantissa.toNat * state.mantissa.toNat) :=
        mul_le_mul_of_nonneg_left hfloor (by positivity)
      _ = ((2 : ℚ) ^ exponent * (state.mantissa.toNat / 2 ^ 127)) ^ 2 := by ring
      _ ≤ _ := pow_le_pow_left₀ (by positivity) hlower 2
  · rw [two_zpow_double_add, hsquare, truncation_pow_succ (places + 1)]
    calc
      _ ≤ ((2 : ℚ) ^ exponent * (state.mantissa.toNat / 2 ^ 127) *
          truncation ^ (2 ^ (places + 1) - 1)) ^ 2 := pow_le_pow_left₀ (by positivity) hupper 2
      _ = (truncation ^ (2 ^ (places + 1) - 1)) ^ 2 * (((2 : ℚ) ^ exponent / 2 ^ 127) ^ 2 *
          (state.mantissa.toNat * state.mantissa.toNat)) := by ring
      _ ≤ (truncation ^ (2 ^ (places + 1) - 1)) ^ 2 * (((2 : ℚ) ^ exponent / 2 ^ 127) ^ 2 *
          ((state.refine places).mantissa.toNat * (2 ^ 127 * 2 ^ state.nextBit) * truncation)) :=
        mul_le_mul_of_nonneg_left (mul_le_mul_of_nonneg_left hceil (by positivity)) (sq_nonneg _)
      _ = _ := by
        field_simp

theorem approximates_refineTimes {ratio : Word} {highest : Nat} (hle : 2 ^ highest ≤ ratio.toNat)
    (hlt : ratio.toNat < 2 ^ (highest + 1)) {places : Nat} (hplaces : places ≤ 64) :
    ∃ exponent, Approximates ratio places exponent ((start ratio highest).refineTimes places) := by
  induction places with
  | zero => exact ⟨_, approximates_start hle hlt⟩
  | succ places ih =>
    obtain ⟨exponent, h⟩ := ih (by omega)
    exact ⟨_, approximates_refine h (by omega)⟩

end LogarithmState

/-! ### Fourteen places -/

theorem binaryLogarithm_bounds {ratio : Word} (hratio : ratio ≠ 0) :
    ∃ exponent : Int, -2 ^ 21 ≤ exponent ∧ exponent < 2 ^ 21 ∧
      binaryLogarithm ratio = .ok (BitVec.ofInt 256 exponent <<< 50) ∧
      (2 : ℚ) ^ exponent ≤ (ratio.toNat / 2 ^ 128 : ℚ) ^ 2 ^ 14 ∧
      (ratio.toNat / 2 ^ 128 : ℚ) ^ 2 ^ 14 < (2 : ℚ) ^ (exponent + 1) * (1 + 1 / 2 ^ 100) := by
  have hne : ratio.toNat ≠ 0 := Nat.ne_of_gt (BitVec.toNat_pos_of_ne_zero hratio)
  obtain ⟨exponent, hlog, hle, hlt, hneg, hexponent, hlower, hupper⟩ :=
    LogarithmState.approximates_refineTimes (Nat.log2_self_le hne) Nat.lt_log2_self
      (show 14 ≤ 64 by norm_num)
  have hone : (1 : ℚ) ≤ ((LogarithmState.start ratio ratio.toNat.log2).refineTimes 14).mantissa.toNat /
      2 ^ 127 := by
    rw [le_div_iff₀ (by positivity), one_mul]
    exact_mod_cast hle
  have htwo : (((LogarithmState.start ratio ratio.toNat.log2).refineTimes 14).mantissa.toNat : ℚ) /
      2 ^ 127 < 2 := by
    rw [div_lt_iff₀ (by positivity), ← pow_succ']
    exact_mod_cast hlt
  have hpos : (0 : ℚ) < 2 ^ exponent := by positivity
  refine ⟨exponent, hneg, hexponent, ?_, ?_, ?_⟩
  · rw [binaryLogarithm, Word.highestBit_eq hratio, ok_bind, hlog]
  · exact (le_mul_of_one_le_right hpos.le hone).trans hlower
  · rw [zpow_add_one₀ (by norm_num)]
    refine hupper.trans_lt ?_
    exact mul_lt_mul'' (mul_lt_mul_of_pos_left htwo hpos) LogarithmState.truncation_pow_lt
      (by positivity) (pow_nonneg (zero_le_one.trans LogarithmState.one_le_truncation) _)

/-! ### The logarithm of a price -/

namespace LogarithmState

/-- The bit that the square of the mantissa carries past the mantissa. -/
def carriedBit (state : LogarithmState) : Word := (state.mantissa * state.mantissa) >>> 127 >>> 128

/-- The fractional bit at a place can be found: the mantissa is normalized, its square has room in a word, and the one bit that is carried goes to a clear place of the logarithm, which is the same as adding it there. -/
structure Ready (state : LogarithmState) (place : Nat) : Prop where
  le_mantissa : 2 ^ 127 ≤ state.mantissa.toNat
  mantissa_lt : state.mantissa.toNat < 2 ^ 128
  square_fits : state.mantissa.toNat * state.mantissa.toNat < 2 ^ 256
  carriedBit_eq : state.carriedBit = 0 ∨ state.carriedBit = 1
  clear : state.log.getLsbD (63 - place) = false
  log_add : (state.refine place).log = state.log + state.carriedBit <<< (63 - place)

theorem carriedBit_eq_zero_or_one {state : LogarithmState} (hle : 2 ^ 127 ≤ state.mantissa.toNat)
    (hlt : state.mantissa.toNat < 2 ^ 128) : state.carriedBit = 0 ∨ state.carriedBit = 1 := by
  obtain ⟨hbit, -⟩ := refined_bounds hle hlt
  have hcarried : state.carriedBit.toNat = state.nextBit := toNat_nextBit hlt
  rw [← BitVec.toNat_inj, ← BitVec.toNat_inj, hcarried]
  change state.nextBit = 0 ∨ state.nextBit = 1
  omega

theorem and_shiftLeft_eq_zero {word bit : Word} {place : Nat} (hbit : bit = 0 ∨ bit = 1)
    (hclear : word.getLsbD place = false) : word &&& bit <<< place = 0#256 := by
  rcases hbit with hzero | hone
  · rw [hzero, BitVec.ofNat_eq_ofNat, BitVec.zero_shiftLeft, BitVec.and_zero]
  · rw [hone, BitVec.ofNat_eq_ofNat, ← BitVec.twoPow_eq, BitVec.and_twoPow, hclear]
    rfl

theorem Approximates.ready {ratio : Word} {places : Nat} {exponent : Int} {state : LogarithmState}
    (h : Approximates ratio places exponent state) (hplaces : places < 64) : state.Ready places := by
  have hbit := carriedBit_eq_zero_or_one h.le_mantissa h.mantissa_lt
  have hclear : state.log.getLsbD (63 - places) = false := by
    have hbelow : 63 - places < 64 - places := by omega
    rw [h.log_eq, BitVec.getLsbD_shiftLeft, decide_eq_true hbelow, Bool.not_true, Bool.and_false,
      Bool.false_and]
  refine ⟨h.le_mantissa, h.mantissa_lt, mantissa_mul_mantissa_lt h.mantissa_lt, hbit, hclear, ?_⟩
  rw [BitVec.add_eq_or_of_and_eq_zero _ _ (and_shiftLeft_eq_zero hbit hclear)]
  rfl

end LogarithmState

theorem toInt_ofInt_shiftLeft {exponent : Int} (hlow : -2 ^ 21 ≤ exponent) (hhigh : exponent < 2 ^ 21) :
    (BitVec.ofInt 256 exponent <<< 50).toInt = exponent * 2 ^ 50 := by
  have hscaled : BitVec.ofInt 256 exponent <<< 50 = BitVec.ofInt 256 (exponent * 2 ^ 50) := by
    rw [BitVec.ofInt_mul, BitVec.shiftLeft_eq_mul_twoPow]
    rfl
  rw [hscaled]
  apply BitVec.toInt_ofInt_eq_self (by decide)
  · omega
  · omega

namespace SqrtPrice

variable {price : SqrtPrice}

theorem toNat_shiftLeft (hprice : price.toNat < 2 ^ 224) :
    (price <<< 32).toNat = price.toNat * 2 ^ 32 := by
  rw [BitVec.toNat_shiftLeft, Nat.shiftLeft_eq]
  exact Nat.mod_eq_of_lt (by omega)

/-- The fourteen bits of the logarithm of a price are found one by one, with no square wrapped and no bit written over. Together they are the exact logarithm, rounded down but for a part in 2^100, also where it is negative. -/
theorem binaryLogarithm_is_accurate (hlow : lowest ≤ price) (hhigh : price < highest) :
    ∃ bit, Word.highestBit (price <<< 32) = .ok bit ∧
      (∀ place < 14, ((LogarithmState.start (price <<< 32) bit).refineTimes place).Ready place) ∧
      ∃ (log : Word) (exponent : Int), binaryLogarithm (price <<< 32) = .ok log ∧
        log.toInt = exponent * 2 ^ 50 ∧
        (2 : ℚ) ^ exponent ≤ (price.toNat * 2 ^ 32 / 2 ^ 128 : ℚ) ^ 2 ^ 14 ∧
        (price.toNat * 2 ^ 32 / 2 ^ 128 : ℚ) ^ 2 ^ 14 <
          (2 : ℚ) ^ (exponent + 1) * (1 + 1 / 2 ^ 100) := by
  have hpos : 0 < price.toNat := lt_of_lt_of_le (by decide) (BitVec.le_def.1 hlow)
  have hshift := toNat_shiftLeft (lt_trans (BitVec.lt_def.1 hhigh) (by decide))
  have hne : (price <<< 32).toNat ≠ 0 := by omega
  have hratio : price <<< 32 ≠ 0 := fun hzero => hne (congrArg BitVec.toNat hzero)
  have hcast : ((price <<< 32).toNat : ℚ) = price.toNat * 2 ^ 32 := by
    rw [hshift]
    push_cast
    rfl
  obtain ⟨exponent, hge, hlt, hlog, hlower, hupper⟩ := binaryLogarithm_bounds hratio
  rw [hcast] at hlower hupper
  refine ⟨_, Word.highestBit_eq hratio, ?_, _, exponent, hlog, toInt_ofInt_shiftLeft hge hlt, hlower,
    hupper⟩
  intro place hplace
  obtain ⟨_, happroximates⟩ := LogarithmState.approximates_refineTimes (Nat.log2_self_le hne)
    Nat.lt_log2_self (show place ≤ 64 by omega)
  exact happroximates.ready (by omega)

/-- Right below one every fractional bit is set under an integer part of minus one. -/
theorem binaryLogarithm_below_one :
    lowest ≤ one - 1 ∧ one - 1 < highest ∧
      binaryLogarithm ((one - 1) <<< 32) = .ok (BitVec.ofInt 256 (-2 ^ 50)) ∧
      (2 : ℚ) ^ (-1 : Int) ≤ ((one - 1).toNat * 2 ^ 32 / 2 ^ 128 : ℚ) ^ 2 ^ 14 := by
  have hlow : lowest ≤ one - 1 := by decide
  have hhigh : one - 1 < highest := by decide
  have hbelow : binaryLogarithm ((one - 1) <<< 32) = .ok (BitVec.ofInt 256 (-2 ^ 50)) := by
    decide +kernel
  obtain ⟨_, -, -, log, exponent, hlog, htoInt, hlower, -⟩ := binaryLogarithm_is_accurate hlow hhigh
  have hexponent : exponent = -1 := by
    rw [hbelow, Except.ok.injEq] at hlog
    rw [← hlog, show (BitVec.ofInt 256 (-2 ^ 50)).toInt = -2 ^ 50 by decide] at htoInt
    omega
  rw [hexponent] at hlower
  exact ⟨hlow, hhigh, hbelow, hlower⟩

end SqrtPrice

end ConcentratedLiquidity
