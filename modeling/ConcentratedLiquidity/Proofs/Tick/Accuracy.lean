import ConcentratedLiquidity.Proofs.Tick.ToPrice

/-!
# The price at a tick in exact terms

The square of the exact price at a tick is a power of 1.0001, a rational number. The bounds on logarithms are brought to it: the ratio, squared, is that power up to one part in 2^50, and the price is the ratio with fewer fractional bits, rounded up. No product on the way is too large for a word, and the number that is inverted is never zero.
-/

namespace ConcentratedLiquidity

/-! ### Products on the way -/

/-- No product of the selected factors is too large for a word before it is cut. -/
def ProductsFit : List Word → Nat → Word → Prop
  | [], _, _ => True
  | factor :: factors, bits, ratio =>
    (bits % 2 = 1 → ratio.toNat * factor.toNat < 2 ^ 256) ∧
      ProductsFit factors (bits / 2) (if bits % 2 = 1 then (ratio * factor) >>> 128 else ratio)

/-- A factor below one never takes the product above one again. -/
theorem productsFit_of_le {factors : List Word}
    (hfactors : ∀ factor ∈ factors, factor.toNat < 2 ^ 128) (bits : Nat) {ratio : Word}
    (hratio : ratio.toNat ≤ 2 ^ 128) : ProductsFit factors bits ratio := by
  induction factors generalizing bits ratio with
  | nil => trivial
  | cons factor factors ih =>
    have hfactor := hfactors factor List.mem_cons_self
    refine ⟨fun _ => product_fits hratio hfactor,
      ih (fun member hmem => hfactors member (List.mem_cons_of_mem _ hmem)) _ ?_⟩
    split
    · exact truncatedProduct_le hratio hfactor
    · exact hratio

/-! ### From logarithms to factors -/

theorem mul_one_sub_le_of_log_le (error : ℝ) {x y : ℝ} (hx : 0 < x) (hy : 0 < y)
    (h : Real.log y - error ≤ Real.log x) : y * (1 - error) ≤ x := by
  calc
    y * (1 - error) ≤ y * Real.exp (-error) :=
      mul_le_mul_of_nonneg_left (Real.one_sub_le_exp_neg error) hy.le
    _ = Real.exp (Real.log y - error) := by rw [sub_eq_add_neg, Real.exp_add, Real.exp_log hy]
    _ ≤ Real.exp (Real.log x) := Real.exp_le_exp.2 h
    _ = x := Real.exp_log hx

namespace TickIndex

variable {tick : TickIndex}

/-- The root of 1.0001 to the power of a tick index, squared. -/
def exactSquare (tick : TickIndex) : ℚ := (10001 / 10000) ^ tick.toInt

theorem exactSquare_pos (tick : TickIndex) : 0 < tick.exactSquare := zpow_pos (by norm_num) _

theorem log_exactSquare (tick : TickIndex) :
    Real.log tick.exactSquare = 2 * (tick.toInt * tickLog) := by
  rw [exactSquare, Rat.cast_zpow, Real.log_zpow, tickLog]
  push_cast
  ring

theorem log_ratio_sq (tick : TickIndex) :
    Real.log ((tick.ratio.toNat / 2 ^ 128) ^ 2) = 2 * tick.ratio.log 128 := by
  rw [Real.log_pow, Word.log]
  norm_num

theorem ratio_sq_bounds (htick : tick.InRange) :
    tick.exactSquare * (1 - 1 / 2 ^ 50) ≤ (tick.ratio.toNat / 2 ^ 128) ^ 2 ∧
      (tick.ratio.toNat / 2 ^ 128) ^ 2 ≤ tick.exactSquare * (1 + 1 / 2 ^ 50) := by
  obtain ⟨hlarge, hclose⟩ := ratio_bounds htick
  have hratio : 0 < tick.ratio.toNat := lt_of_lt_of_le (by decide) hlarge
  have hsquare : (0 : ℝ) < (tick.ratio.toNat / 2 ^ 128) ^ 2 := by positivity
  have hexact : (0 : ℝ) < tick.exactSquare := Rat.cast_pos.2 tick.exactSquare_pos
  rw [abs_le] at hclose
  have hlow := mul_one_sub_le_of_log_le (1 / 2 ^ 56) hsquare hexact
    (by rw [log_exactSquare, log_ratio_sq]; linarith [hclose.1])
  have hhigh := mul_one_sub_le_of_log_le (1 / 2 ^ 56) hexact hsquare
    (by rw [log_exactSquare, log_ratio_sq]; linarith [hclose.2])
  rw [← Rat.cast_le (K := ℝ), ← Rat.cast_le (K := ℝ)]
  push_cast
  exact ⟨by linarith, by linarith⟩

/-- The price at a tick is the exact one, rounded up, up to one part in 2^50 of its square. No product that leads to it wraps, and nothing is divided by zero to invert it. -/
theorem sqrtPrice_is_accurate (tick : TickIndex) (htick : tick.InRange) :
    ∃ price, tick.sqrtPrice = .ok price ∧
      2 ^ 192 * tick.exactSquare * (1 - 1 / 2 ^ 50) ≤ (price.toNat : ℚ) ^ 2 ∧
      (price.toNat - 1 : ℚ) ^ 2 ≤ 2 ^ 192 * tick.exactSquare * (1 + 1 / 2 ^ 50) ∧
      ProductsFit inverseRootPowers tick.toInt.natAbs (1 <<< 128) ∧
      inverseRatio tick.toInt.natAbs ≠ 0 := by
  obtain ⟨hlow, hhigh⟩ := ratio_sq_bounds htick
  obtain ⟨hge, hlt⟩ := tick.roundedRatio_near_ratio
  obtain ⟨hpos, -⟩ := roundedRatio_log htick
  obtain ⟨hinverse, -, -⟩ := inverseRatio_bounds (inRange_iff.1 htick)
  have hprice : (1 : ℚ) ≤ tick.roundedRatio.toNat := Nat.one_le_cast.2 hpos
  have hge' : (tick.ratio.toNat / 2 ^ 32 : ℚ) ≤ tick.roundedRatio.toNat := by
    rw [div_le_iff₀' (by norm_num)]
    exact_mod_cast hge
  have hle' : (tick.roundedRatio.toNat - 1 : ℚ) ≤ tick.ratio.toNat / 2 ^ 32 := by
    rw [le_div_iff₀' (by norm_num), mul_sub, mul_one, sub_le_iff_le_add]
    exact_mod_cast hlt.le
  refine ⟨tick.roundedRatio, sqrtPrice_eq_ok htick, ?_, ?_, ?_, ?_⟩
  · calc
      2 ^ 192 * tick.exactSquare * (1 - 1 / 2 ^ 50) ≤
          2 ^ 192 * (tick.ratio.toNat / 2 ^ 128 : ℚ) ^ 2 := by
        rw [mul_assoc]
        exact mul_le_mul_of_nonneg_left hlow (by norm_num)
      _ = (tick.ratio.toNat / 2 ^ 32 : ℚ) ^ 2 := by ring
      _ ≤ (tick.roundedRatio.toNat : ℚ) ^ 2 := pow_le_pow_left₀ (by positivity) hge' 2
  · calc
      (tick.roundedRatio.toNat - 1 : ℚ) ^ 2 ≤ (tick.ratio.toNat / 2 ^ 32 : ℚ) ^ 2 :=
        pow_le_pow_left₀ (sub_nonneg.2 hprice) hle' 2
      _ = 2 ^ 192 * (tick.ratio.toNat / 2 ^ 128 : ℚ) ^ 2 := by ring
      _ ≤ 2 ^ 192 * tick.exactSquare * (1 + 1 / 2 ^ 50) := by
        rw [mul_assoc]
        exact mul_le_mul_of_nonneg_left hhigh (by norm_num)
  · exact productsFit_of_le (fun _ hmem => (inverseRootPowers_range hmem).1) _ (by decide)
  · rintro hzero
    rw [hzero] at hinverse
    exact absurd hinverse (by decide)

/-- No index selects more than nineteen factors, as this one does before their product is inverted. -/
theorem sqrtPrice_is_accurate_after_nineteen_factors :
    ∃ price, sqrtPrice 524287 = .ok price ∧
      2 ^ 192 * exactSquare 524287 * (1 - 1 / 2 ^ 50) ≤ (price.toNat : ℚ) ^ 2 ∧
      (price.toNat - 1 : ℚ) ^ 2 ≤ 2 ^ 192 * exactSquare 524287 * (1 + 1 / 2 ^ 50) := by
  obtain ⟨price, hprice, hlow, hhigh, -, -⟩ := sqrtPrice_is_accurate 524287 (by decide)
  exact ⟨price, hprice, hlow, hhigh⟩

end TickIndex

end ConcentratedLiquidity
