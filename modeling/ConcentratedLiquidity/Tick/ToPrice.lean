import ConcentratedLiquidity.Price.Basic
import ConcentratedLiquidity.Tick.Index

/-!
# The price at a tick

The square root of 1.0001 to the power of a tick index. The powers of two in the distance of the index from zero select factors from a table, whose product is the inverse root with 128 fractional bits; above zero the product is inverted. The result is rounded up to the fractional bits of a price. As the products before it are cut, it can still lie below the exact price: the square of the exact price is met to one part in 2^50, and rounding adds less than one unit to the price.
-/

namespace ConcentratedLiquidity

/-- The square root of 1.0001 to the power of -1, -2, -4 and so on, with 128 fractional bits. -/
def inverseRootPowers : List Word := [
  0xfffcb933bd6fad37aa2d162d1a594001,
  0xfff97272373d413259a46990580e213a,
  0xfff2e50f5f656932ef12357cf3c7fdcc,
  0xffe5caca7e10e4e61c3624eaa0941cd0,
  0xffcb9843d60f6159c9db58835c926644,
  0xff973b41fa98c081472e6896dfb254c0,
  0xff2ea16466c96a3843ec78b326b52861,
  0xfe5dee046a99a2a811c461f1969c3053,
  0xfcbe86c7900a88aedcffc83b479aa3a4,
  0xf987a7253ac413176f2b074cf7815e54,
  0xf3392b0822b70005940c7a398e4b70f3,
  0xe7159475a2c29b7443b29c7fa6e889d9,
  0xd097f3bdfd2022b8845ad8f792aa5825,
  0xa9f746462d870fdf8a65dc1f90e061e5,
  0x70d869a156d2a1b890bb3df62baf32f7,
  0x31be135f97d08fd981231505542fcfa6,
  0x9aa508b5b7a84e1c677de54f3e99bc9,
  0x5d6af8dedb81196699c329225ee604,
  0x2216e584f5fa1ea926041bedfe98,
  0x48a170391f7dc42444e8fa2]

/-- Multiplies a ratio by the factors that the bits of a number select, lowest bit first. Every product is cut to 128 fractional bits. -/
def selectFactors : List Word → Nat → Word → Word
  | [], _, ratio => ratio
  | factor :: factors, bits, ratio =>
    selectFactors factors (bits / 2) (if bits % 2 = 1 then (ratio * factor) >>> 128 else ratio)

namespace TickIndex

def inverseRatio (distance : Nat) : Word := selectFactors inverseRootPowers distance (1 <<< 128)

/-- The root of 1.0001 to the power of a tick index, with 128 fractional bits. -/
def ratio (tick : TickIndex) : Word :=
  if 0 < tick then
    BitVec.allOnes 256 / inverseRatio tick.toInt.natAbs
  else
    inverseRatio tick.toInt.natAbs

/-- The root of 1.0001 to the power of a tick index, cut to the fractional bits of a price and rounded up. -/
def roundedRatio (tick : TickIndex) : SqrtPrice :=
  (tick.ratio >>> 32) + (if tick.ratio.setWidth 32 = 0 then 0 else 1)

def sqrtPrice (tick : TickIndex) : Except Error SqrtPrice :=
  if tick.InRange then .ok tick.roundedRatio else .error .tickOutOfBounds

theorem sqrtPrice_eq_ok_iff {tick : TickIndex} {price : SqrtPrice} :
    tick.sqrtPrice = .ok price ↔ tick.InRange ∧ tick.roundedRatio = price := by
  unfold sqrtPrice
  split <;> simp [*]

theorem sqrtPrice_lowest : lowest.sqrtPrice = .ok SqrtPrice.lowest :=
  sqrtPrice_eq_ok_iff.2 ⟨by decide, by decide +kernel⟩

theorem sqrtPrice_highest : highest.sqrtPrice = .ok SqrtPrice.highest :=
  sqrtPrice_eq_ok_iff.2 ⟨by decide, by decide +kernel⟩

end TickIndex

end ConcentratedLiquidity
