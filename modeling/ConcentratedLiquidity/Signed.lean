import ConcentratedLiquidity.Word.Basic

/-!
# Signed numbers of fixed width

Signed amounts and liquidity changes are kept in two's complement. Sums, differences and negation wrap around; the view `toInt` says which integer is meant, and every operation is the one on integers, brought back by `ofInt`.
-/

namespace ConcentratedLiquidity

/-- A number of some width in two's complement. -/
structure Signed (width : Nat) where
  bits : BitVec width
  deriving DecidableEq, Repr

abbrev SignedWord := Signed 256

namespace Signed

variable {width : Nat}

def toInt (number : Signed width) : Int := number.bits.toInt

/-- The signed number congruent to an integer. -/
def ofInt (width : Nat) (value : Int) : Signed width := ⟨BitVec.ofInt width value⟩

/-- The sign of a number, which is its top bit. -/
def isNegative (number : Signed width) : Bool := number.bits.msb

/-- The distance from zero. It fits the width without a sign, also for the lowest number. -/
def magnitude (number : Signed width) : BitVec width := number.bits.abs

def extend (number : Signed width) (wider : Nat) : Signed wider := ⟨number.bits.signExtend wider⟩

instance : Add (Signed width) where
  add a b := ⟨a.bits + b.bits⟩

instance : Sub (Signed width) where
  sub a b := ⟨a.bits - b.bits⟩

instance : Neg (Signed width) where
  neg a := ⟨-a.bits⟩

instance : Zero (Signed width) where
  zero := ⟨0⟩

/-! ### The integer view -/

theorem toInt_injective {a b : Signed width} (h : a.toInt = b.toInt) : a = b := by
  cases a
  cases b
  exact congrArg mk (BitVec.eq_of_toInt_eq h)

@[simp] theorem toInt_zero : (0 : Signed width).toInt = 0 := BitVec.toInt_zero

theorem toInt_eq_zero_iff {a : Signed width} : a.toInt = 0 ↔ a = 0 :=
  ⟨fun h => toInt_injective (h.trans toInt_zero.symm), fun h => h ▸ toInt_zero⟩

@[simp] theorem ofInt_toInt (a : Signed width) : ofInt width a.toInt = a :=
  congrArg mk BitVec.ofInt_toInt

theorem ofInt_add (a b : Int) : ofInt width (a + b) = ofInt width a + ofInt width b :=
  congrArg mk (BitVec.ofInt_add a b)

theorem ofInt_sub (a b : Int) : ofInt width (a - b) = ofInt width a - ofInt width b :=
  congrArg mk (show BitVec.ofInt width (a - b) = BitVec.ofInt width a - BitVec.ofInt width b by
    rw [Int.sub_eq_add_neg, BitVec.ofInt_add, BitVec.ofInt_neg, BitVec.sub_eq_add_neg])

theorem neg_eq_ofInt (a : Signed width) : -a = ofInt width (-a.toInt) :=
  congrArg mk (by rw [BitVec.ofInt_neg, toInt, BitVec.ofInt_toInt])

theorem isNegative_iff {a : Signed width} : a.isNegative = true ↔ a.toInt < 0 :=
  show a.bits.msb = true ↔ a.bits.toInt < 0 by rw [BitVec.msb_eq_toInt, decide_eq_true_eq]

theorem toInt_extend {a : Signed width} {wider : Nat} (hwider : width ≤ wider) :
    (a.extend wider).toInt = a.toInt :=
  BitVec.toInt_signExtend_of_le hwider

theorem toNat_magnitude (a : Signed width) : a.magnitude.toNat = a.toInt.natAbs := by
  have hlt := a.bits.isLt
  rw [magnitude, toInt, BitVec.toNat_abs, BitVec.msb_eq_toInt]
  by_cases hneg : a.bits.toInt < 0
  · rw [if_pos (decide_eq_true hneg)]
    rw [BitVec.toInt_eq_toNat_cond] at hneg ⊢
    by_cases hhalf : 2 * a.bits.toNat < 2 ^ width
    · rw [if_pos hhalf] at hneg
      omega
    · rw [if_neg hhalf]
      omega
  · rw [if_neg (by simpa using hneg)]
    rw [BitVec.toInt_eq_toNat_cond] at hneg ⊢
    by_cases hhalf : 2 * a.bits.toNat < 2 ^ width
    · rw [if_pos hhalf]
      rfl
    · rw [if_neg hhalf] at hneg
      omega

end Signed

namespace Word

/-- Reads a word as a signed number of the same value, which needs its top bit to be clear. -/
def toSigned (word : Word) : Except Error SignedWord :=
  if word.msb then .error .exceedsSignedWord else .ok ⟨word⟩

theorem toSigned_eq_ok_iff {word : Word} {number : SignedWord} :
    word.toSigned = .ok number ↔ number.toInt = word.toNat := by
  unfold toSigned
  have hlt := number.bits.isLt
  by_cases h : word.msb = true
  · rw [if_pos h]
    rw [BitVec.msb_eq_decide, decide_eq_true_eq] at h
    constructor
    · intro heq; cases heq
    · intro heq
      rw [Signed.toInt, BitVec.toInt_eq_toNat_cond] at heq
      split at heq <;> omega
  · rw [if_neg h]
    rw [BitVec.msb_eq_decide, decide_eq_true_eq] at h
    constructor
    · intro heq
      cases heq
      exact BitVec.toInt_eq_toNat_of_lt (x := word) (by omega)
    · intro heq
      refine congrArg _ (Signed.toInt_injective ?_)
      rw [heq]
      exact BitVec.toInt_eq_toNat_of_lt (x := word) (by omega)

end Word

end ConcentratedLiquidity
