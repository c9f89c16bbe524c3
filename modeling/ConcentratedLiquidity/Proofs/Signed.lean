import ConcentratedLiquidity.Signed
import Mathlib.Algebra.Ring.Int.Defs

/-!
# Signed numbers within their width

An integer that fits the width is the value of the number made from it. So nothing wraps around where a result fits: a word, which has no sign, is then added to a signed number, or taken off, as a whole number is.
-/

namespace ConcentratedLiquidity.Signed

variable {width : Nat} {number : Signed width} {word : BitVec width}

theorem toInt_bounds (number : Signed width) :
    -2 ^ (width - 1) ≤ number.toInt ∧ number.toInt < 2 ^ (width - 1) :=
  ⟨BitVec.le_toInt number.bits, BitVec.toInt_lt⟩

theorem toInt_ofInt {value : Int} (hwidth : 0 < width) (hlow : -2 ^ (width - 1) ≤ value)
    (hhigh : value < 2 ^ (width - 1)) : (ofInt width value).toInt = value :=
  BitVec.toInt_ofInt_eq_self hwidth hlow hhigh

theorem toInt_neg (hwidth : 0 < width) (hlowest : number.toInt ≠ -2 ^ (width - 1)) :
    (-number).toInt = -number.toInt := by
  have hbounds := number.toInt_bounds
  rw [neg_eq_ofInt]
  exact toInt_ofInt hwidth (by omega) (by omega)

/-- The bits of a word are those of a whole number also where the top one is set. -/
theorem ofInt_toNat (word : BitVec width) : ofInt width word.toNat = ⟨word⟩ :=
  congrArg mk (by rw [BitVec.ofInt_natCast, BitVec.ofNat_toNat, BitVec.setWidth_eq])

theorem toInt_add_word (hwidth : 0 < width) (hlow : -2 ^ (width - 1) ≤ number.toInt + word.toNat)
    (hhigh : number.toInt + word.toNat < 2 ^ (width - 1)) :
    (number + ⟨word⟩).toInt = number.toInt + word.toNat := by
  have hsum := toInt_ofInt hwidth hlow hhigh
  rw [ofInt_add, ofInt_toInt, ofInt_toNat] at hsum
  exact hsum

theorem toInt_sub_word (hwidth : 0 < width) (hlow : -2 ^ (width - 1) ≤ number.toInt - word.toNat)
    (hhigh : number.toInt - word.toNat < 2 ^ (width - 1)) :
    (number - ⟨word⟩).toInt = number.toInt - word.toNat := by
  have hdifference := toInt_ofInt hwidth hlow hhigh
  rw [ofInt_sub, ofInt_toInt, ofInt_toNat] at hdifference
  exact hdifference

end ConcentratedLiquidity.Signed
