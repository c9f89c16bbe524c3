import ConcentratedLiquidity.Proofs.Price.Logarithm
import ConcentratedLiquidity.Proofs.Tick.ToPrice
import ConcentratedLiquidity.Tick.OfPrice

/-!
# The tick of a price is the right one

The scaled logarithm is off by less than its two margins, so every tick up to the lower candidate has a price that is not above the given one, and every tick beyond the upper candidate has a price above it. The candidates are neighbours or the same. What is left to decide is the upper candidate itself, and its price is looked at.
-/

namespace ConcentratedLiquidity

/-! ### The constants -/

theorem abs_tickLog_sub_le : |tickLog - 299985001 / 6000000000000| ≤ 1 / 10 ^ 16 := by
  have hseries := Real.abs_log_sub_add_sum_range_le
    (show |(-(1 / 10000) : ℝ)| < 1 by rw [abs_lt]; norm_num) 3
  rw [Finset.sum_range_succ, Finset.sum_range_succ, Finset.sum_range_succ, Finset.sum_range_zero,
    abs_neg, abs_of_nonneg (by norm_num : (0 : ℝ) ≤ 1 / 10000),
    show (1 - -(1 / 10000) : ℝ) = 10001 / 10000 by norm_num] at hseries
  rw [tickLog]
  norm_num at hseries ⊢
  rw [abs_le] at hseries ⊢
  exact ⟨by linarith [hseries.1], by linarith [hseries.2]⟩

theorem abs_ticksPerDoubling_mul_tickLog_sub_le :
    |(ticksPerDoubling.toNat / 2 ^ 64 : ℝ) * tickLog - Real.log 2| ≤ 1 / 10 ^ 9 := by
  have hticks := abs_tickLog_sub_le
  have hlower := Real.log_two_gt_d9
  have hupper := Real.log_two_lt_d9
  rw [show ticksPerDoubling.toNat = 255738958999603826347141 from rfl]
  rw [abs_le] at hticks ⊢
  norm_num at hticks hlower hupper ⊢
  exact ⟨by linarith [hticks.1], by linarith [hticks.2]⟩

/-! ### Fixed-point numbers -/

theorem ofInt_exponent_mul_ticksPerDoubling (exponent : Int) :
    BitVec.ofInt 256 exponent <<< 50 * ticksPerDoubling =
      BitVec.ofInt 256 (exponent * 2 ^ 50 * ticksPerDoubling.toNat) := by
  rw [BitVec.ofInt_mul, BitVec.ofInt_mul, BitVec.shiftLeft_eq_mul_twoPow]
  rfl

theorem toInt_ofFixedPoint {number : Int} (hlow : -2 ^ 159 ≤ number) (hhigh : number < 2 ^ 159) :
    (TickIndex.ofFixedPoint (BitVec.ofInt 256 number)).toInt = number / 2 ^ 128 := by
  have htoInt : (BitVec.ofInt 256 number).toInt = number := by
    apply BitVec.toInt_ofInt_eq_self (by decide)
    · omega
    · omega
  rw [TickIndex.ofFixedPoint, BitVec.toInt_sshiftRight, htoInt, Int.shiftRight_eq_div_pow,
    Int32.toInt_ofInt]
  apply Int.bmod_eq_of_le
  · rw [show Int32.size = 2 ^ 32 from rfl]
    omega
  · rw [show Int32.size = 2 ^ 32 from rfl]
    omega

/-! ### The logarithm of a price -/

theorem binaryLogarithm_log {ratio : Word} (hratio : ratio ≠ 0) :
    ∃ exponent : Int, -2 ^ 21 ≤ exponent ∧ exponent < 2 ^ 21 ∧
      binaryLogarithm ratio = .ok (BitVec.ofInt 256 exponent <<< 50) ∧
      exponent * Real.log 2 ≤ 2 ^ 14 * ratio.log 128 ∧
      2 ^ 14 * ratio.log 128 < (exponent + 1) * Real.log 2 + 1 / 2 ^ 100 := by
  obtain ⟨exponent, hge, hlt, hok, hlower, hupper⟩ := binaryLogarithm_bounds hratio
  refine ⟨exponent, hge, hlt, hok, ?_⟩
  have hpos : (0 : ℝ) < ratio.toNat / 2 ^ 128 := by
    have := BitVec.toNat_pos_of_ne_zero hratio
    positivity
  rw [← Rat.cast_le (K := ℝ)] at hlower
  rw [← Rat.cast_lt (K := ℝ)] at hupper
  simp only [Rat.cast_zpow, Rat.cast_pow, Rat.cast_div, Rat.cast_mul, Rat.cast_add, Rat.cast_one,
    Rat.cast_natCast, Rat.cast_ofNat] at hlower hupper
  have hlogLower := Real.log_le_log (by positivity) hlower
  have hlogUpper := Real.log_lt_log (by positivity) hupper
  rw [Real.log_pow, Real.log_zpow] at hlogLower
  rw [Real.log_pow, Real.log_mul (by positivity) (by positivity), Real.log_zpow] at hlogUpper
  have hone := Real.log_le_sub_one_of_pos (show (0 : ℝ) < 1 + 1 / 2 ^ 100 by positivity)
  rw [Nat.cast_pow, Nat.cast_ofNat] at hlogLower hlogUpper
  rw [Int.cast_add, Int.cast_one] at hlogUpper
  exact ⟨hlogLower, by rw [Word.log]; linarith⟩

theorem SqrtPrice.log_shiftLeft {price : SqrtPrice} (hprice : price.toNat < 2 ^ 224) :
    Word.log (price <<< 32) 128 = price.log 96 := by
  rw [Word.log, Word.log, toNat_shiftLeft hprice, Nat.cast_mul, Nat.cast_pow, Nat.cast_ofNat,
    show (2 : ℝ) ^ 128 = 2 ^ 96 * 2 ^ 32 by norm_num, mul_div_mul_right _ _ (by positivity)]

/-! ### The candidates -/

/-- The logarithm of a price in ticks with 128 fractional bits, from the first fourteen fractional bits of the binary one. -/
def scaledLogarithm (exponent : Int) : Int := exponent * 2 ^ 50 * ticksPerDoubling.toNat

def lowCandidate (exponent : Int) : TickIndex :=
  TickIndex.ofFixedPoint (BitVec.ofInt 256 exponent <<< 50 * ticksPerDoubling - tickMarginBelow)

def highCandidate (exponent : Int) : TickIndex :=
  TickIndex.ofFixedPoint (BitVec.ofInt 256 exponent <<< 50 * ticksPerDoubling + tickMarginAbove)

section Candidates

variable {exponent : Int} (hge : -2 ^ 21 ≤ exponent) (hlt : exponent < 2 ^ 21)

include hge hlt

theorem scaledLogarithm_bounds :
    -2 ^ 150 ≤ scaledLogarithm exponent ∧ scaledLogarithm exponent ≤ 2 ^ 150 := by
  rw [scaledLogarithm, show ticksPerDoubling.toNat = 255738958999603826347141 from rfl]
  omega

theorem toInt_lowCandidate :
    (lowCandidate exponent).toInt =
      (scaledLogarithm exponent - tickMarginBelow.toNat) / 2 ^ 128 := by
  obtain ⟨hlow, hhigh⟩ := scaledLogarithm_bounds hge hlt
  have hmargin : (tickMarginBelow.toNat : Int) < 2 ^ 128 := by decide
  have hdifference : BitVec.ofInt 256 exponent <<< 50 * ticksPerDoubling - tickMarginBelow =
      BitVec.ofInt 256 (scaledLogarithm exponent - tickMarginBelow.toNat) := by
    rw [ofInt_exponent_mul_ticksPerDoubling, Int.sub_eq_add_neg, BitVec.ofInt_add, BitVec.ofInt_neg,
      BitVec.ofInt_natCast, BitVec.ofNat_toNat, BitVec.setWidth_eq, BitVec.sub_eq_add_neg]
    rfl
  rw [lowCandidate, hdifference]
  apply toInt_ofFixedPoint
  · omega
  · omega

theorem toInt_highCandidate :
    (highCandidate exponent).toInt =
      (scaledLogarithm exponent + tickMarginAbove.toNat) / 2 ^ 128 := by
  obtain ⟨hlow, hhigh⟩ := scaledLogarithm_bounds hge hlt
  have hmargin : (tickMarginAbove.toNat : Int) < 2 ^ 128 := by decide
  have hsum : BitVec.ofInt 256 exponent <<< 50 * ticksPerDoubling + tickMarginAbove =
      BitVec.ofInt 256 (scaledLogarithm exponent + tickMarginAbove.toNat) := by
    rw [ofInt_exponent_mul_ticksPerDoubling, BitVec.ofInt_add, BitVec.ofInt_natCast,
      BitVec.ofNat_toNat, BitVec.setWidth_eq]
    rfl
  rw [highCandidate, hsum]
  apply toInt_ofFixedPoint
  · omega
  · omega

theorem abs_scaledLogarithm_mul_tickLog_sub_le :
    |(scaledLogarithm exponent / 2 ^ 128 : ℝ) * tickLog - exponent / 2 ^ 14 * Real.log 2| ≤
      128 / 10 ^ 9 := by
  have hscale : (scaledLogarithm exponent / 2 ^ 128 : ℝ) * tickLog - exponent / 2 ^ 14 * Real.log 2 =
      exponent / 2 ^ 14 * (ticksPerDoubling.toNat / 2 ^ 64 * tickLog - Real.log 2) := by
    rw [scaledLogarithm]
    push_cast
    ring
  have hexponent : |(exponent / 2 ^ 14 : ℝ)| ≤ 128 := by
    have hge' : (-2 ^ 21 : ℝ) ≤ exponent := by exact_mod_cast hge
    have hlt' : (exponent : ℝ) < 2 ^ 21 := by exact_mod_cast hlt
    rw [abs_le, le_div_iff₀ (by positivity), div_le_iff₀ (by positivity)]
    exact ⟨by linarith, by linarith⟩
  rw [hscale, abs_mul]
  calc
    _ ≤ 128 * (1 / 10 ^ 9) :=
      mul_le_mul hexponent abs_ticksPerDoubling_mul_tickLog_sub_le (abs_nonneg _) (by norm_num)
    _ = 128 / 10 ^ 9 := by ring

theorem mul_tickLog_le_of_le_low {tick : Int}
    (htick : tick ≤ (scaledLogarithm exponent - tickMarginBelow.toNat) / 2 ^ 128) :
    tick * tickLog + 1 / 2 ^ 30 ≤ exponent / 2 ^ 14 * Real.log 2 := by
  have hscaled := abs_scaledLogarithm_mul_tickLog_sub_le hge hlt
  have htickLog := abs_tickLog_sub_le
  rw [Int.le_ediv_iff_mul_le (by norm_num),
    show tickMarginBelow.toNat = 3402992956809132418596140100660247210 from rfl] at htick
  have hreal : (tick * 2 ^ 128 : ℝ) ≤
      scaledLogarithm exponent - 3402992956809132418596140100660247210 := by exact_mod_cast htick
  have hticks : (tick : ℝ) ≤ scaledLogarithm exponent / 2 ^ 128 - 1 / 101 := by
    rw [le_sub_iff_add_le, le_div_iff₀ (by positivity)]
    linarith
  have hmul := mul_le_mul_of_nonneg_right hticks tickLog_pos.le
  rw [abs_le] at hscaled htickLog
  linarith [hscaled.2, htickLog.1]

theorem lt_mul_tickLog_of_high_lt {tick : Int}
    (htick : (scaledLogarithm exponent + tickMarginAbove.toNat) / 2 ^ 128 < tick) :
    (exponent + 1) / 2 ^ 14 * Real.log 2 + 1 / 2 ^ 100 < tick * tickLog - 1 / 2 ^ 30 := by
  have hscaled := abs_scaledLogarithm_mul_tickLog_sub_le hge hlt
  have htickLog := abs_tickLog_sub_le
  have htwo := Real.log_two_lt_d9
  rw [Int.ediv_lt_iff_lt_mul (by norm_num),
    show tickMarginAbove.toNat = 291339464771989622907027621153398088495 from rfl] at htick
  have hreal : (scaledLogarithm exponent + 291339464771989622907027621153398088495 : ℝ) <
      tick * 2 ^ 128 := by exact_mod_cast htick
  have hticks : (scaledLogarithm exponent / 2 ^ 128 + 8561 / 10000 : ℝ) ≤ tick := by
    rw [← le_sub_iff_add_le, div_le_iff₀ (by positivity)]
    linarith
  have hmul := mul_le_mul_of_nonneg_right hticks tickLog_pos.le
  rw [abs_le] at hscaled htickLog
  norm_num at htwo
  linarith [hscaled.1, htickLog.1]

end Candidates

/-! ### Comparing a price with that of a tick -/

theorem Word.log_le_log_iff {a b : Word} (places : Nat) (ha : 0 < a.toNat) (hb : 0 < b.toNat) :
    a.log places ≤ b.log places ↔ a ≤ b := by
  rw [Word.log, Word.log, Real.log_le_log_iff (by positivity) (by positivity),
    div_le_div_iff_of_pos_right (by positivity), Nat.cast_le]
  rfl

theorem TickIndex.roundedRatio_le_of_log_le {tick : TickIndex} (htick : tick.InRange)
    {price : SqrtPrice} (hprice : 0 < price.toNat)
    (h : tick.toInt * tickLog + 1 / 2 ^ 30 ≤ price.log 96) : tick.roundedRatio ≤ price := by
  obtain ⟨hpos, hclose⟩ := roundedRatio_log htick
  rw [abs_le] at hclose
  exact (Word.log_le_log_iff 96 hpos hprice).1 (by linarith [hclose.2])

theorem TickIndex.lt_roundedRatio_of_lt_log {tick : TickIndex} (htick : tick.InRange)
    {price : SqrtPrice} (hprice : 0 < price.toNat)
    (h : price.log 96 < tick.toInt * tickLog - 1 / 2 ^ 30) : price < tick.roundedRatio := by
  obtain ⟨hpos, hclose⟩ := roundedRatio_log htick
  rw [abs_le] at hclose
  rw [← BitVec.not_le, ← Word.log_le_log_iff 96 hpos hprice]
  linarith [hclose.1]

/-- One tick changes the logarithm of the price by more than both errors together. -/
theorem TickIndex.roundedRatio_lt_roundedRatio {first second : TickIndex} (hfirst : first.InRange)
    (hsecond : second.InRange) (hlt : first < second) :
    first.roundedRatio < second.roundedRatio := by
  obtain ⟨hpos, hclose⟩ := roundedRatio_log hfirst
  have htickLog := abs_tickLog_sub_le
  have hstep : (first.toInt + 1 : ℝ) ≤ second.toInt := by
    exact_mod_cast Int.add_one_le_iff.2 (Int32.lt_iff_toInt_lt.1 hlt)
  have hmul := mul_le_mul_of_nonneg_right hstep tickLog_pos.le
  rw [abs_le] at hclose htickLog
  apply lt_roundedRatio_of_lt_log hsecond hpos
  linarith [hclose.2, htickLog.1]

theorem TickIndex.roundedRatio_le_roundedRatio {first second : TickIndex} (hfirst : first.InRange)
    (hsecond : second.InRange) (hle : first ≤ second) :
    first.roundedRatio ≤ second.roundedRatio := by
  by_cases heq : first = second
  · rw [heq]
    exact BitVec.le_refl _
  · apply BitVec.le_of_lt
    exact roundedRatio_lt_roundedRatio hfirst hsecond (Int32.lt_of_le_of_ne hle heq)

theorem TickIndex.roundedRatio_bounds {tick : TickIndex} (htick : tick.InRange) :
    SqrtPrice.lowest ≤ tick.roundedRatio ∧ tick.roundedRatio ≤ SqrtPrice.highest := by
  have hlowest := (sqrtPrice_eq_ok_iff.1 sqrtPrice_lowest).2
  have hhighest := (sqrtPrice_eq_ok_iff.1 sqrtPrice_highest).2
  rw [← hlowest, ← hhighest]
  exact ⟨roundedRatio_le_roundedRatio (by decide) htick htick.1,
    roundedRatio_le_roundedRatio htick (by decide) htick.2⟩

theorem TickIndex.toInt_add_one {tick : TickIndex} (htick : tick.InRange) :
    (tick + 1).toInt = tick.toInt + 1 := by
  have habs := inRange_iff.1 htick
  rw [Int32.toInt_add, show (1 : TickIndex).toInt = 1 from rfl]
  apply Int.bmod_eq_of_le
  · omega
  · omega

namespace SqrtPrice

/-- Every tick up to the first has a price that is not above the given one, and every tick beyond the second has a price above it. -/
structure Brackets (price : SqrtPrice) (low high : TickIndex) : Prop where
  below : ∀ tick : TickIndex, tick.InRange → tick ≤ low → tick.roundedRatio ≤ price
  above : ∀ tick : TickIndex, tick.InRange → high < tick → price < tick.roundedRatio

variable {price : SqrtPrice} {low high : TickIndex}

namespace Brackets

theorem roundedRatio_le_iff {tick : TickIndex} (h : price.Brackets tick tick) {other : TickIndex}
    (hother : other.InRange) : other.roundedRatio ≤ price ↔ other ≤ tick := by
  refine ⟨fun hle => ?_, h.below other hother⟩
  by_contra hgt
  exact BitVec.not_lt.2 hle (h.above other hother (Int32.not_le.1 hgt))

theorem raise (h : price.Brackets low high) (hnear : high.toInt ≤ low.toInt + 1)
    (htest : high.roundedRatio ≤ price) : price.Brackets high high := by
  refine ⟨fun tick htick hle => ?_, h.above⟩
  by_cases heq : tick = high
  · rw [heq]
    exact htest
  · have hne : tick.toInt ≠ high.toInt := fun h => heq (Int32.toInt_inj.1 h)
    apply h.below tick htick
    rw [Int32.le_iff_toInt_le] at hle ⊢
    omega

theorem lower (h : price.Brackets low high) (hnear : high.toInt ≤ low.toInt + 1)
    (htest : price < high.roundedRatio) : price.Brackets low low := by
  refine ⟨h.below, fun tick htick hlt => ?_⟩
  by_cases heq : tick = high
  · rw [heq]
    exact htest
  · have hne : tick.toInt ≠ high.toInt := fun h => heq (Int32.toInt_inj.1 h)
    apply h.above tick htick
    rw [Int32.lt_iff_toInt_lt] at hlt ⊢
    omega

/-- Not all ticks lie beyond the second, since the lowest price is not above the given one. -/
theorem lowest_le_high (h : price.Brackets low high) (hprice : SqrtPrice.lowest ≤ price) :
    TickIndex.lowest ≤ high := by
  by_contra hlt
  have habove := h.above TickIndex.lowest (by decide) (Int32.not_le.1 hlt)
  rw [(TickIndex.sqrtPrice_eq_ok_iff.1 TickIndex.sqrtPrice_lowest).2] at habove
  exact BitVec.not_lt.2 hprice habove

theorem low_lt_highest (h : price.Brackets low high) (hprice : price < SqrtPrice.highest) :
    low < TickIndex.highest := by
  by_contra hge
  have hbelow := h.below TickIndex.highest (by decide) (Int32.not_lt.1 hge)
  rw [(TickIndex.sqrtPrice_eq_ok_iff.1 TickIndex.sqrtPrice_highest).2] at hbelow
  exact BitVec.not_lt.2 hbelow hprice

theorem high_inRange (h : price.Brackets low high) (hnear : high.toInt ≤ low.toInt + 1)
    (hlow : SqrtPrice.lowest ≤ price) (hhigh : price < SqrtPrice.highest) : high.InRange := by
  have hlt := h.low_lt_highest hhigh
  refine ⟨h.lowest_le_high hlow, ?_⟩
  rw [Int32.lt_iff_toInt_lt] at hlt
  rw [Int32.le_iff_toInt_le]
  omega

end Brackets

/-- What is left to decide once the candidates are known. -/
def chooseTick (price : SqrtPrice) (low high : TickIndex) : Except Error TickIndex :=
  if low = high then
    .ok low
  else do
    if (← high.sqrtPrice) ≤ price then .ok high else .ok low

theorem chooseTick_brackets (h : price.Brackets low high) (hnear : high.toInt ≤ low.toInt + 1)
    (hhigh : high.InRange) :
    ∃ tick, price.chooseTick low high = .ok tick ∧ price.Brackets tick tick := by
  by_cases hsame : low = high
  · refine ⟨low, if_pos hsame, ?_⟩
    rw [← hsame] at h
    exact h
  · rw [chooseTick, if_neg hsame, TickIndex.sqrtPrice_eq_ok hhigh, ok_bind]
    by_cases htest : high.roundedRatio ≤ price
    · exact ⟨high, if_pos htest, h.raise hnear htest⟩
    · exact ⟨low, if_neg htest, h.lower hnear (BitVec.not_le.1 htest)⟩

/-- The candidates are at most one tick apart, and the prices of the ticks on their two sides are known without looking. -/
theorem tick_eq_chooseTick (hlow : lowest ≤ price) (hhigh : price < highest) :
    ∃ low high : TickIndex, price.tick = price.chooseTick low high ∧
      high.toInt ≤ low.toInt + 1 ∧ price.Brackets low high := by
  have hlt : price.toNat < 2 ^ 224 := lt_trans hhigh (by decide)
  have hpos : 0 < price.toNat := lt_of_lt_of_le (by decide) hlow
  have hratio : price <<< 32 ≠ 0 := by
    intro h
    have htoNat := congrArg BitVec.toNat h
    rw [BitVec.toNat_shiftLeft, Nat.shiftLeft_eq, Nat.mod_eq_of_lt (by omega),
      show (0 : Word).toNat = 0 from rfl] at htoNat
    omega
  obtain ⟨exponent, hge, hexponent, hok, hlower, hupper⟩ := binaryLogarithm_log hratio
  rw [log_shiftLeft hlt] at hlower hupper
  have htoLow := toInt_lowCandidate hge hexponent
  have htoHigh := toInt_highCandidate hge hexponent
  refine ⟨lowCandidate exponent, highCandidate exponent, ?_, ?_, ?_, ?_⟩
  · rw [tick, if_pos ⟨hlow, hhigh⟩, hok, ok_bind, chooseTick, lowCandidate, highCandidate]
  · have hmargins : (tickMarginBelow.toNat + tickMarginAbove.toNat : Int) < 2 ^ 128 := by decide
    rw [htoLow, htoHigh, ← Int.add_mul_ediv_right _ _ (by decide)]
    apply Int.ediv_le_ediv (by decide)
    omega
  · intro tick htick hle
    rw [Int32.le_iff_toInt_le, htoLow] at hle
    have hticks := mul_tickLog_le_of_le_low hge hexponent hle
    exact TickIndex.roundedRatio_le_of_log_le htick hpos (by linarith)
  · intro tick htick hlt
    rw [Int32.lt_iff_toInt_lt, htoHigh] at hlt
    have hticks := lt_mul_tickLog_of_high_lt hge hexponent hlt
    exact TickIndex.lt_roundedRatio_of_lt_log htick hpos (by linarith)

theorem tick_brackets (hlow : lowest ≤ price) (hhigh : price < highest) :
    ∃ tick, price.tick = .ok tick ∧ price.Brackets tick tick := by
  obtain ⟨low, high, hchoose, hnear, hbrackets⟩ := tick_eq_chooseTick hlow hhigh
  rw [hchoose]
  exact chooseTick_brackets hbrackets hnear (hbrackets.high_inRange hnear hlow hhigh)

theorem tick_eq_error (hprice : ¬ (lowest ≤ price ∧ price < highest)) :
    price.tick = .error .sqrtPriceOutOfBounds := if_neg hprice

theorem eq_of_tick_eq_error {cause : Error} (h : price.tick = .error cause) :
    cause = .sqrtPriceOutOfBounds := by
  by_cases hprice : lowest ≤ price ∧ price < highest
  · obtain ⟨tick, htick, -⟩ := tick_brackets hprice.1 hprice.2
    cases h.symm.trans htick
  · rw [tick_eq_error hprice] at h
    exact (Except.error.inj h).symm

theorem brackets_of_tick {tick : TickIndex} (h : price.tick = .ok tick) :
    lowest ≤ price ∧ price < highest ∧ price.Brackets tick tick := by
  by_cases hprice : lowest ≤ price ∧ price < highest
  · obtain ⟨found, hok, hbrackets⟩ := tick_brackets hprice.1 hprice.2
    rw [h, Except.ok.injEq] at hok
    rw [← hok] at hbrackets
    exact ⟨hprice.1, hprice.2, hbrackets⟩
  · rw [tick_eq_error hprice] at h
    cases h

/-- The tick of a price is the highest one whose price is not above it, for every price that has a tick, and every other word is refused. -/
theorem tick_is_highest_not_above (price : SqrtPrice) :
    if lowest ≤ price ∧ price < highest then
      ∃ tick, price.tick = .ok tick ∧ TickIndex.lowest ≤ tick ∧ tick < TickIndex.highest ∧
        (∀ other : TickIndex, other.InRange →
          ∃ ratio, other.sqrtPrice = .ok ratio ∧ (ratio ≤ price ↔ other ≤ tick)) ∧
        ∃ ratio next, tick.sqrtPrice = .ok ratio ∧ (tick + 1).sqrtPrice = .ok next ∧
          ratio ≤ price ∧ price < next
    else
      price.tick = .error .sqrtPriceOutOfBounds := by
  split
  · rename_i hprice
    obtain ⟨tick, hok, hbrackets⟩ := tick_brackets hprice.1 hprice.2
    have hlow := hbrackets.lowest_le_high hprice.1
    have hhigh := hbrackets.low_lt_highest hprice.2
    have hrange : tick.InRange := ⟨hlow, Int32.le_of_lt hhigh⟩
    have hvalue := TickIndex.toInt_add_one hrange
    have hnext : (tick + 1).InRange := by
      rw [TickIndex.InRange, Int32.le_iff_toInt_le, Int32.le_iff_toInt_le, hvalue]
      rw [Int32.le_iff_toInt_le] at hlow
      rw [Int32.lt_iff_toInt_lt] at hhigh
      exact ⟨by omega, by omega⟩
    refine ⟨tick, hok, hlow, hhigh, fun other hother => ?_, ?_⟩
    · exact ⟨other.roundedRatio, TickIndex.sqrtPrice_eq_ok hother, hbrackets.roundedRatio_le_iff hother⟩
    · refine ⟨tick.roundedRatio, (tick + 1).roundedRatio, TickIndex.sqrtPrice_eq_ok hrange,
        TickIndex.sqrtPrice_eq_ok hnext, ?_, ?_⟩
      · exact hbrackets.below tick hrange (Int32.le_refl tick)
      · apply hbrackets.above _ hnext
        rw [Int32.lt_iff_toInt_lt, hvalue]
        omega
  · rename_i hprice
    exact tick_eq_error hprice

theorem tick_one_decides_seven :
    ∃ tick, one.tick = .ok tick ∧
      ∃ ratio, (7 : TickIndex).sqrtPrice = .ok ratio ∧ (ratio ≤ one ↔ 7 ≤ tick) := by
  have htick := tick_is_highest_not_above one
  rw [if_pos (by decide)] at htick
  obtain ⟨tick, hok, -, -, hother, -⟩ := htick
  exact ⟨tick, hok, hother 7 (by decide)⟩

end SqrtPrice

/-! ### Back from the price of a tick -/

namespace TickIndex

variable {tick first second : TickIndex}

theorem tick_roundedRatio (hrange : tick.InRange) (hlt : tick.roundedRatio < SqrtPrice.highest) :
    tick.roundedRatio.tick = .ok tick := by
  obtain ⟨found, hfound, hbrackets⟩ :=
    SqrtPrice.tick_brackets (roundedRatio_bounds hrange).1 hlt
  have hfoundRange : found.InRange :=
    ⟨hbrackets.lowest_le_high (roundedRatio_bounds hrange).1,
      Int32.le_of_lt (hbrackets.low_lt_highest hlt)⟩
  have hle : tick ≤ found := (hbrackets.roundedRatio_le_iff hrange).1 (BitVec.le_refl _)
  have hge : found ≤ tick := by
    by_contra hgt
    exact BitVec.not_lt.2 ((hbrackets.roundedRatio_le_iff hfoundRange).2 (Int32.le_refl found))
      (roundedRatio_lt_roundedRatio hrange hfoundRange (Int32.not_le.1 hgt))
  rw [hfound, Int32.le_antisymm hge hle]

theorem roundedRatio_lt_iff (hfirst : first.InRange) (hsecond : second.InRange) :
    first.roundedRatio < second.roundedRatio ↔ first < second := by
  refine ⟨fun hlt => ?_, roundedRatio_lt_roundedRatio hfirst hsecond⟩
  by_contra hge
  exact BitVec.not_le.2 hlt (roundedRatio_le_roundedRatio hsecond hfirst (Int32.not_lt.1 hge))

theorem sqrtPrice_eq_error (htick : ¬tick.InRange) : tick.sqrtPrice = .error .tickOutOfBounds :=
  if_neg htick

/-- The price at a tick lies between the lowest and the highest price, rises strictly with the tick, and below the highest tick leads back to it. No other index has a price. -/
theorem sqrtPrice_rises_with_tick (tick : TickIndex) :
    if tick.InRange then
      ∃ price, tick.sqrtPrice = .ok price ∧ SqrtPrice.lowest ≤ price ∧ price ≤ SqrtPrice.highest ∧
        (tick < highest → price.tick = .ok tick) ∧
        ∀ other : TickIndex, other.InRange →
          ∃ otherPrice, other.sqrtPrice = .ok otherPrice ∧ (price < otherPrice ↔ tick < other)
    else
      tick.sqrtPrice = .error .tickOutOfBounds := by
  split
  · rename_i htick
    obtain ⟨hlow, hhigh⟩ := roundedRatio_bounds htick
    refine ⟨tick.roundedRatio, sqrtPrice_eq_ok htick, hlow, hhigh, fun hlt => ?_,
      fun other hother => ⟨other.roundedRatio, sqrtPrice_eq_ok hother,
        roundedRatio_lt_iff htick hother⟩⟩
    have hhighest := (sqrtPrice_eq_ok_iff.1 sqrtPrice_highest).2
    apply tick_roundedRatio htick
    rw [← hhighest]
    exact roundedRatio_lt_roundedRatio htick (by decide) hlt
  · rename_i htick
    exact sqrtPrice_eq_error htick

/-- From one of these neighbours to the other every bit of the index changes, and with it every factor of the price. -/
theorem sqrtPrice_rises_where_all_bits_change :
    ∃ price next, sqrtPrice 524287 = .ok price ∧ sqrtPrice 524288 = .ok next ∧ price < next ∧
      price.tick = .ok 524287 := by
  have hrises := sqrtPrice_rises_with_tick 524287
  rw [if_pos (by decide)] at hrises
  obtain ⟨price, hprice, -, -, hback, hother⟩ := hrises
  obtain ⟨next, hnext, hlt⟩ := hother 524288 (by decide)
  exact ⟨price, next, hprice, hnext, hlt.2 (by decide), hback (by decide)⟩

end TickIndex

end ConcentratedLiquidity
