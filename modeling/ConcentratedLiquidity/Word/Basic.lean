import ConcentratedLiquidity.Error

/-!
# Words

Prices and token amounts are kept in 256-bit words, whose arithmetic wraps around. The operations that must not wrap are here under names of their own: they fail instead, and on success agree with the unbounded operation on `toNat`.
-/

namespace ConcentratedLiquidity

/-- An unsigned number of 256 bits. -/
abbrev Word := BitVec 256

namespace Word

def addChecked (a b : Word) : Except Error Word :=
  if a.uaddOverflow b then .error .overflow else .ok (a + b)

def subChecked (a b : Word) : Except Error Word :=
  if b ≤ a then .ok (a - b) else .error .underflow

/-- The product of two words modulo a third, formed without wrapping. -/
def mulMod (a b modulus : Word) : Word :=
  BitVec.ofNat 256 (a.toNat * b.toNat % modulus.toNat)

theorem subChecked_eq_ok_iff {a b difference : Word} :
    subChecked a b = .ok difference ↔ difference.toNat + b.toNat = a.toNat := by
  have ha := a.isLt
  have hd := difference.isLt
  unfold subChecked
  split
  · rename_i hle
    rw [BitVec.le_def] at hle
    rw [Except.ok.injEq, ← BitVec.toNat_inj, BitVec.toNat_sub_of_le hle]
    omega
  · rename_i hlt
    rw [BitVec.le_def] at hlt
    constructor
    · intro h; cases h
    · intro h; omega

theorem toNat_mulMod {a b modulus : Word} (hmodulus : modulus ≠ 0) :
    (mulMod a b modulus).toNat = a.toNat * b.toNat % modulus.toNat := by
  have hpos : 0 < modulus.toNat := BitVec.toNat_pos_of_ne_zero hmodulus
  rw [mulMod, BitVec.toNat_ofNat, Nat.mod_eq_of_lt]
  exact Nat.lt_trans (Nat.mod_lt _ hpos) modulus.isLt

end Word

end ConcentratedLiquidity
