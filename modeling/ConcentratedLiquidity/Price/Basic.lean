import ConcentratedLiquidity.Word.Basic

/-!
# Square-root prices

A price is the number of units of token 1 that one unit of token 0 is worth. It is kept as its square root, in a word with 96 fractional bits. Prices that a pool can hold take at most 160 bits; words beyond that are refused by `SqrtPrice.ofWord`.
-/

namespace ConcentratedLiquidity

/-- The square root of a price, with 96 fractional bits. -/
abbrev SqrtPrice := Word

namespace SqrtPrice

def fractionBits : Nat := 96

/-- The price at which both tokens are worth the same. -/
def one : SqrtPrice := 1 <<< fractionBits

/-- The largest word of 160 bits. -/
def largest : SqrtPrice := (1 <<< 160) - 1

def lowest : SqrtPrice := 4295128739

def highest : SqrtPrice := 1461446703485210103287273052203988822378723970342

/-- Accepts a word as a price if it takes at most 160 bits. -/
def ofWord (word : Word) : Except Error SqrtPrice :=
  if word ≤ largest then .ok word else .error .exceedsPriceWidth

theorem ofWord_eq_ok_iff {word price : Word} :
    ofWord word = .ok price ↔ price = word ∧ word ≤ largest := by
  unfold ofWord
  split
  · rename_i hle
    rw [Except.ok.injEq]
    exact ⟨fun h => ⟨h.symm, hle⟩, fun h => h.1.symm⟩
  · rename_i hgt
    exact ⟨(fun h => nomatch h), fun h => absurd h.2 hgt⟩

end SqrtPrice

end ConcentratedLiquidity
