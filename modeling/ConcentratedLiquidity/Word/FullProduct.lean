import ConcentratedLiquidity.Word.Basic

/-!
# Products of two words

The product of two words takes up to 512 bits. It is held as a high and a low word, recovered from two residues: the low word is the product modulo 2^256, and the residue modulo 2^256 - 1 differs from the low word by the high one.

A full product is divided by a word in one of two ways. When its high word is zero the division is an ordinary one. Otherwise the remainder is taken off first, which leaves an exact multiple of the divisor; the power of two in the divisor is shifted out, and the odd part that is left is inverted modulo 2^256.
-/

namespace ConcentratedLiquidity

/-- A number of up to 512 bits, worth `high * 2^256 + low`. -/
structure FullProduct where
  high : Word
  low : Word
  deriving DecidableEq, Repr

namespace FullProduct

def toNat (product : FullProduct) : Nat := product.high.toNat <<< 256 + product.low.toNat

def ofFactors (a b : Word) : FullProduct :=
  let residue := Word.mulMod a b (BitVec.allOnes 256)
  let low := a * b
  let difference := residue - low
  { high := if residue < low then difference - 1 else difference, low }

/-- Takes a word off a full product, borrowing from the high word. -/
def subWord (product : FullProduct) (amount : Word) : FullProduct where
  high := if product.low < amount then product.high - 1 else product.high
  low := product.low - amount

end FullProduct

namespace Word

/-- The largest power of two that divides a word other than zero. -/
def powerOfTwoPart (divisor : Word) : Word := divisor &&& -divisor

/-- The inverse of an odd word modulo 2^256 after some Newton rounds. The start is right in the four lowest bits, and every round doubles the number of right bits. -/
def inverseAfter (odd : Word) : Nat → Word
  | 0 => 3 * odd ^^^ 2
  | rounds + 1 =>
    let inverse := inverseAfter odd rounds
    inverse * (2 - odd * inverse)

/-- The inverse of an odd word modulo 2^256. Six rounds take four right bits to all 256. -/
def oddInverse (odd : Word) : Word := inverseAfter odd 6

end Word

namespace FullProduct

/-- Divides a full product by a word that divides it, when the quotient is a word. -/
def divideExact (product : FullProduct) (divisor : Word) : Word :=
  let twos := divisor.powerOfTwoPart
  let scale := -twos / twos + 1
  (product.low / twos ||| product.high * scale) * (divisor / twos).oddInverse

end FullProduct

end ConcentratedLiquidity
