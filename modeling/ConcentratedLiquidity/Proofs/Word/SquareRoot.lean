import ConcentratedLiquidity.Word.SquareRoot
import Mathlib.Algebra.Order.Ring.Nat
import Mathlib.Algebra.Order.Ring.Unbundled.Basic
import Mathlib.Data.Nat.Sqrt
import Mathlib.Tactic.Linarith

/-!
# The descent to a square root

Whatever the estimate, the mean of it and of the quotient by it is not below the root, rounded down. So the estimates fall, but never past the root, and the first one that does not fall any more is not above it either.

The start is a power of two of at most 257 bits, and by an estimate not below the root the quotient is at most two more than the estimate. So no sum on the way comes near 512 bits, and all of this is about unbounded numbers, where the square of the number after the root always has a place.
-/

namespace ConcentratedLiquidity

/-! ### Words of any width -/

section Width

variable {width : Nat} {a b : BitVec width}

theorem toNat_add_shiftRight_one (h : a.toNat + b.toNat < 2 ^ width) :
    ((a + b) >>> 1).toNat = (a.toNat + b.toNat) / 2 := by
  rw [BitVec.toNat_ushiftRight, BitVec.toNat_add_of_lt h, Nat.shiftRight_one]

theorem lt_two_iff_toNat_lt (hwidth : 2 ≤ width) : a < 2 ↔ a.toNat < 2 := by
  have hfits : 2 < 2 ^ width :=
    calc 2 < 2 ^ 2 := by decide
      _ ≤ 2 ^ width := Nat.pow_le_pow_right Nat.two_pos hwidth
  rw [BitVec.lt_def, BitVec.ofNat_eq_ofNat, BitVec.toNat_ofNat, Nat.mod_eq_of_lt hfits]

theorem natCast_one_shiftLeft (position : Nat) :
    ((1 <<< position : Nat) : BitVec width) = BitVec.twoPow width position := by
  apply BitVec.eq_of_toNat_eq
  rw [BitVec.natCast_eq_ofNat, BitVec.toNat_ofNat, BitVec.toNat_twoPow, Nat.one_shiftLeft]

theorem toNat_setWidth_shiftLeft {wider shift : Nat} (hwider : width + shift ≤ wider) :
    (a.setWidth wider <<< shift).toNat = a.toNat * 2 ^ shift := by
  have hfits : a.toNat * 2 ^ shift < 2 ^ wider :=
    calc a.toNat * 2 ^ shift < 2 ^ width * 2 ^ shift :=
          Nat.mul_lt_mul_of_pos_right a.isLt (Nat.two_pow_pos shift)
      _ = 2 ^ (width + shift) := (Nat.pow_add 2 width shift).symm
      _ ≤ 2 ^ wider := Nat.pow_le_pow_right Nat.two_pos hwider
  rw [BitVec.toNat_shiftLeft, BitVec.toNat_setWidth_of_le (Nat.le_of_add_right_le hwider),
    Nat.shiftLeft_eq, Nat.mod_eq_of_lt hfits]

theorem width_sub_clz_le_iff {bits : Nat} (hwidth : 0 < width) :
    width - a.clz.toNat ≤ bits ↔ a.toNat < 2 ^ bits := by
  constructor
  · intro hle
    calc a.toNat < 2 ^ (width - a.clz.toNat) := BitVec.toNat_lt_two_pow_sub_clz
      _ ≤ 2 ^ bits := Nat.pow_le_pow_right Nat.two_pos hle
  · intro hlt
    by_cases hzero : a = 0
    · rw [BitVec.clz_eq_iff_eq_zero.2 hzero, BitVec.natCast_eq_ofNat, BitVec.toNat_ofNat,
        Nat.mod_eq_of_lt Nat.lt_two_pow_self, Nat.sub_self]
      exact Nat.zero_le bits
    · have hhighest := BitVec.two_pow_sub_clz_le_toNat_of_ne_zero hwidth hzero
      have hbits := (Nat.pow_lt_pow_iff_right Nat.one_lt_two).1 (hhighest.trans_lt hlt)
      omega

end Width

/-! ### One step -/

/-- A number lies below the square of the number after the mean of an estimate and of the quotient by it. -/
theorem lt_sq_succ_mean {estimate : Nat} (value : Nat) (hestimate : 0 < estimate) :
    value < ((estimate + value / estimate) / 2 + 1) ^ 2 := by
  have hvalue : value < estimate * (value / estimate + 1) := Nat.lt_mul_div_succ value hestimate
  have hmean := four_mul_le_sq_add estimate (value / estimate + 1)
  have hhalf : estimate + (value / estimate + 1) ≤ 2 * ((estimate + value / estimate) / 2 + 1) := by
    omega
  have hsquare := Nat.pow_le_pow_left hhalf 2
  rw [Nat.mul_pow] at hsquare
  linarith

namespace DoubleWord

variable {value estimate root : DoubleWord}

/-- An estimate can be improved without dividing by zero and without losing a bit of the sum. -/
structure Improves (value estimate : DoubleWord) : Prop where
  pos : 0 < estimate.toNat
  sum_fits : estimate.toNat + value.toNat / estimate.toNat < 2 ^ 512

theorem Improves.toNat_improveRoot (h : Improves value estimate) :
    (improveRoot value estimate).toNat =
      (estimate.toNat + value.toNat / estimate.toNat) / 2 := by
  have hsum := h.sum_fits
  rw [← BitVec.toNat_udiv] at hsum ⊢
  exact toNat_add_shiftRight_one hsum

/-- The estimates of a descent are not below the root, rounded down, and have at most 257 bits. -/
structure Above (value estimate : DoubleWord) : Prop where
  lt_sq_succ : value.toNat < (estimate.toNat + 1) ^ 2
  le : estimate.toNat ≤ 2 ^ 256

theorem Above.improves (h : Above value estimate) (hvalue : 0 < value.toNat) :
    Improves value estimate := by
  have hlt := h.lt_sq_succ
  have hpos : 0 < estimate.toNat := by
    by_contra hzero
    simp only [Nat.eq_zero_of_not_pos hzero] at hlt
    omega
  have hquotient : value.toNat / estimate.toNat ≤ estimate.toNat + 2 := by
    rw [← Nat.lt_succ_iff, Nat.div_lt_iff_lt_mul hpos]
    linarith
  have hsum : estimate.toNat + value.toNat / estimate.toNat ≤ 2 * (2 ^ 256 + 1) := by
    linarith [h.le]
  exact ⟨hpos, hsum.trans_lt (by decide +kernel)⟩

theorem Above.improveRoot (h : Above value estimate) (hvalue : 0 < value.toNat)
    (hfalls : improveRoot value estimate < estimate) : Above value (improveRoot value estimate) := by
  have himproves := h.improves hvalue
  refine ⟨?_, (BitVec.lt_def.1 hfalls).le.trans h.le⟩
  rw [himproves.toNat_improveRoot]
  exact lt_sq_succ_mean value.toNat himproves.pos

/-! ### The descent -/

/-- The estimates fall from one to the next, down to one that would not, and every one of them can be improved. -/
inductive Descends (value : DoubleWord) : DoubleWord → DoubleWord → Prop
  | ends {estimate : DoubleWord} (himproves : Improves value estimate)
      (hstays : estimate ≤ improveRoot value estimate) : Descends value estimate estimate
  | goesOn {estimate root : DoubleWord} (himproves : Improves value estimate)
      (hfalls : improveRoot value estimate < estimate)
      (hrest : Descends value (improveRoot value estimate) root) : Descends value estimate root

theorem descends_descendToRoot (hvalue : 0 < value.toNat) (h : Above value estimate) :
    Descends value estimate (descendToRoot value estimate) := by
  fun_induction descendToRoot value estimate with
  | case1 estimate hfalls ih =>
    exact .goesOn (h.improves hvalue) hfalls (ih (h.improveRoot hvalue hfalls))
  | case2 estimate hstays => exact .ends (h.improves hvalue) (BitVec.not_lt.1 hstays)

theorem Descends.sq_le (h : Descends value estimate root) : root.toNat ^ 2 ≤ value.toNat := by
  induction h with
  | @ends estimate himproves hstays =>
    rw [BitVec.le_def, himproves.toNat_improveRoot] at hstays
    have hquotient : estimate.toNat ≤ value.toNat / estimate.toNat := by omega
    rw [Nat.pow_two]
    exact (Nat.le_div_iff_mul_le himproves.pos).1 hquotient
  | goesOn _ _ _ ih => exact ih

theorem Descends.lt_sq_succ (h : Descends value estimate root)
    (hestimate : value.toNat < (estimate.toNat + 1) ^ 2) : value.toNat < (root.toNat + 1) ^ 2 := by
  induction h with
  | ends => exact hestimate
  | goesOn himproves _ _ ih =>
    apply ih
    rw [himproves.toNat_improveRoot]
    exact lt_sq_succ_mean value.toNat himproves.pos

/-! ### The start -/

def firstEstimate (value : DoubleWord) : DoubleWord := BitVec.twoPow 512 ((value.bitLength + 1) / 2)

theorem bitLength_le (value : DoubleWord) : value.bitLength ≤ 512 := Nat.sub_le 512 _

theorem bitLength_le_iff {bits : Nat} : value.bitLength ≤ bits ↔ value.toNat < 2 ^ bits :=
  width_sub_clz_le_iff (by decide)

theorem toNat_firstEstimate (value : DoubleWord) :
    value.firstEstimate.toNat = 2 ^ ((value.bitLength + 1) / 2) := by
  have hbits := value.bitLength_le
  exact BitVec.toNat_twoPow_of_lt (by omega)

theorem above_firstEstimate (value : DoubleWord) : Above value value.firstEstimate := by
  have hbits := value.bitLength_le
  have hvalue : value.toNat < 2 ^ value.bitLength := BitVec.toNat_lt_two_pow_sub_clz
  constructor
  · rw [toNat_firstEstimate]
    calc value.toNat < 2 ^ value.bitLength := hvalue
      _ ≤ 2 ^ ((value.bitLength + 1) / 2 * 2) := Nat.pow_le_pow_right Nat.two_pos (by omega)
      _ = (2 ^ ((value.bitLength + 1) / 2)) ^ 2 := Nat.pow_mul 2 _ 2
      _ ≤ (2 ^ ((value.bitLength + 1) / 2) + 1) ^ 2 := Nat.pow_le_pow_left (Nat.le_succ _) 2
  · rw [toNat_firstEstimate]
    exact Nat.pow_le_pow_right Nat.two_pos (by omega)

/-! ### The root -/

theorem sqrt_of_lt (hvalue : value < 2) : value.sqrt = value := if_pos hvalue

theorem descends_sqrt (hvalue : 2 ≤ value) : Descends value value.firstEstimate value.sqrt := by
  rw [← BitVec.not_lt] at hvalue
  have hpos : 0 < value.toNat := by
    rw [lt_two_iff_toNat_lt (by decide)] at hvalue
    omega
  rw [sqrt, if_neg hvalue, natCast_one_shiftLeft]
  exact descends_descendToRoot hpos value.above_firstEstimate

theorem toNat_sqrt (value : DoubleWord) : value.sqrt.toNat = Nat.sqrt value.toNat := by
  by_cases hvalue : value < 2
  · have hsmall : value.toNat = 0 ∨ value.toNat = 1 := by
      rw [lt_two_iff_toNat_lt (by decide)] at hvalue
      omega
    rw [sqrt_of_lt hvalue]
    rcases hsmall with hzero | hone
    · rw [hzero, Nat.sqrt_zero]
    · rw [hone, Nat.sqrt_one]
  · have hdescends := descends_sqrt (BitVec.not_lt.1 hvalue)
    exact Nat.eq_sqrt'.2
      ⟨hdescends.sq_le, hdescends.lt_sq_succ value.above_firstEstimate.lt_sq_succ⟩

/-- The root of every number is rounded down. From two on it is found by a descent of finitely many steps, none of which divides by zero or loses a bit of a sum. -/
theorem sqrt_is_floor_of_root (value : DoubleWord) :
    value.sqrt.toNat ^ 2 ≤ value.toNat ∧ value.toNat < (value.sqrt.toNat + 1) ^ 2 ∧
    (2 ≤ value → value.firstEstimate.toNat = 2 ^ ((value.bitLength + 1) / 2) ∧
      Descends value value.firstEstimate value.sqrt) := by
  refine and_assoc.1 ⟨?_, fun hvalue => ⟨value.toNat_firstEstimate, descends_sqrt hvalue⟩⟩
  by_cases hvalue : value < 2
  · rw [sqrt_of_lt hvalue]
    rw [lt_two_iff_toNat_lt (by decide)] at hvalue
    constructor
    · nlinarith
    · nlinarith
  · have hdescends := descends_sqrt (BitVec.not_lt.1 hvalue)
    exact ⟨hdescends.sq_le, hdescends.lt_sq_succ value.above_firstEstimate.lt_sq_succ⟩

def largest : DoubleWord := BitVec.allOnes 512

theorem toNat_largest : largest.toNat + 1 = (2 ^ 256) ^ 2 := by decide +kernel

/-- The root of the largest number has 256 bits, all of them set, and the square of the number after it has 513. -/
theorem sqrt_of_largest :
    2 ≤ largest ∧ largest.sqrt.toNat = 2 ^ 256 - 1 ∧
      Descends largest largest.firstEstimate largest.sqrt := by
  have htwo : 2 ≤ largest := by decide +kernel
  obtain ⟨hle, hlt, hdescends⟩ := sqrt_is_floor_of_root largest
  refine ⟨htwo, ?_, (hdescends htwo).2⟩
  have hvalue := toNat_largest
  generalize largest.toNat = value at hle hlt hvalue
  generalize largest.sqrt.toNat = root at hle hlt ⊢
  have hbelow : root < 2 ^ 256 := by
    apply lt_of_pow_lt_pow_left₀ 2 (Nat.zero_le _)
    omega
  have habove : 2 ^ 256 ≤ root + 1 := by
    apply le_of_pow_le_pow_left₀ two_ne_zero (Nat.zero_le _)
    omega
  omega

end DoubleWord

end ConcentratedLiquidity
