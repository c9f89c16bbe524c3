import ConcentratedLiquidity.Proofs.Error
import ConcentratedLiquidity.Proofs.Price.Exact

/-!
# Ranges cut into parts

A way from price to price exchanges as much as its ends do, but every part of it is rounded on its own. A cut therefore never favours the trader, who pays no less and is paid no more for two parts than for both at once, and it costs at most one unit. With many cuts these units add up.
-/

namespace ConcentratedLiquidity

/-- What a range may come to in parts: no better for the trader than the whole, and worse by at most a unit for each cut. -/
def Rounding.AllowsCuts (rounding : Rounding) (cuts whole parts : Nat) : Prop :=
  match rounding with
  | .up => whole ≤ parts ∧ parts ≤ whole + cuts
  | .down => parts ≤ whole ∧ whole ≤ parts + cuts

namespace Rounding

variable {rounding : Rounding} {cuts whole first rest parts : Nat}

theorem allowsCuts_zero (rounding : Rounding) (whole : Nat) : rounding.AllowsCuts 0 whole whole := by
  cases rounding with
  | down => exact ⟨le_rfl, le_rfl⟩
  | up => exact ⟨le_rfl, le_rfl⟩

theorem AllowsCuts.cut_rest (h : rounding.AllowsCuts 1 whole (first + rest))
    (hrest : rounding.AllowsCuts cuts rest parts) :
    rounding.AllowsCuts (cuts + 1) whole (first + parts) := by
  cases rounding with
  | down =>
    obtain ⟨hle, hge⟩ := h
    obtain ⟨hrestLe, hrestGe⟩ := hrest
    exact ⟨by omega, by omega⟩
  | up =>
    obtain ⟨hle, hge⟩ := h
    obtain ⟨hrestLe, hrestGe⟩ := hrest
    exact ⟨by omega, by omega⟩

theorem allowsCuts_of_round_add {x y : ℚ} (hwhole : (whole : ℤ) = rounding.round (x + y))
    (hfirst : (first : ℤ) = rounding.round x) (hrest : (rest : ℤ) = rounding.round y) :
    rounding.AllowsCuts 1 whole (first + rest) := by
  cases rounding with
  | down =>
    have hle := Int.le_floor_add x y
    have hge := Int.le_floor_add_floor x y
    rw [round] at hwhole hfirst hrest
    exact ⟨by omega, by omega⟩
  | up =>
    have hle := Int.ceil_add_le x y
    have hge := Int.ceil_add_ceil_le x y
    rw [round] at hwhole hfirst hrest
    exact ⟨by omega, by omega⟩

end Rounding

namespace Liquidity

variable {liquidity : Liquidity} {token : Token} {rounding : Rounding} {start middle finish : SqrtPrice}
  {cuts : List SqrtPrice} {first rest whole : Word}

/-- The sum of the amounts of a token on the way through some prices, each part of which is rounded on its own. -/
def amountAlong (liquidity : Liquidity) (token : Token) (rounding : Rounding) :
    SqrtPrice → List SqrtPrice → Except Error Nat
  | _, [] => .ok 0
  | start, next :: rest => do
    let first ← liquidity.amountBetween token rounding start next
    let others ← liquidity.amountAlong token rounding next rest
    .ok (first.toNat + others)

theorem allowsCuts_amountBetween (hstart : start.Valid) (hbefore : start ≤ middle)
    (hafter : middle ≤ finish)
    (hfirst : liquidity.amountBetween token rounding start middle = .ok first)
    (hrest : liquidity.amountBetween token rounding middle finish = .ok rest)
    (hwhole : liquidity.amountBetween token rounding start finish = .ok whole) :
    rounding.AllowsCuts 1 whole.toNat (first.toNat + rest.toNat) := by
  have hvalue := amountBetween_value token hwhole
  rw [← token.exactAmount_add_exactAmount _ hstart.pos hbefore hafter] at hvalue
  exact Rounding.allowsCuts_of_round_add hvalue (amountBetween_value token hfirst)
    (amountBetween_value token hrest)

/-- Any number of cuts, by induction on those after the first. -/
theorem allowsCuts_amountAlong (hvalid : ∀ price ∈ start :: (cuts ++ [finish]), price.Valid)
    (hsorted : (start :: (cuts ++ [finish])).Pairwise (· ≤ ·))
    (hwhole : liquidity.amountBetween token rounding start finish = .ok whole) :
    ∃ parts, liquidity.amountAlong token rounding start (cuts ++ [finish]) = .ok parts ∧
      rounding.AllowsCuts cuts.length whole.toNat parts := by
  induction cuts generalizing start whole with
  | nil =>
    refine ⟨whole.toNat, ?_, rounding.allowsCuts_zero _⟩
    rw [List.nil_append, amountAlong, hwhole]
    rfl
  | cons cut cuts ih =>
    -- The rest of the way begins at the first cut, and has one cut fewer.
    obtain ⟨hbefore, hrestSorted⟩ := List.pairwise_cons.1 hsorted
    have hstart := hvalid start List.mem_cons_self
    have hcut := hvalid cut (by simp)
    have hafter : cut ≤ finish := (List.pairwise_cons.1 hrestSorted).1 finish (by simp)
    obtain ⟨first, hfirst, -⟩ := liquidity.amountBetween_ok token rounding hstart hcut
    obtain ⟨rest, hrest, -⟩ :=
      liquidity.amountBetween_ok token rounding hcut (hvalid finish (by simp))
    obtain ⟨parts, hparts, hallows⟩ :=
      ih (fun price hmem => hvalid price (List.mem_cons_of_mem start hmem)) hrestSorted hrest
    refine ⟨first.toNat + parts, ?_, ?_⟩
    · rw [List.cons_append, amountAlong, hfirst, ok_bind, hparts]
      rfl
    · exact (allowsCuts_amountBetween hstart (hbefore cut (by simp)) hafter hfirst hrest
        hwhole).cut_rest hallows

/-- A trader pays no less for the parts of a range than for the whole, and is paid no more, and the difference is at most one unit for each cut. -/
theorem cuts_cost_at_most_a_unit_each (liquidity : Liquidity) (token : Token)
    (start finish : SqrtPrice) (cuts : List SqrtPrice)
    (hvalid : ∀ price ∈ start :: (cuts ++ [finish]), price.Valid)
    (hsorted : (start :: (cuts ++ [finish])).IsChain (· ≤ ·)) :
    (∃ whole parts, liquidity.amountBetween token .up start finish = .ok whole ∧
      liquidity.amountAlong token .up start (cuts ++ [finish]) = .ok parts ∧
      whole.toNat ≤ parts ∧ parts ≤ whole.toNat + cuts.length) ∧
    ∃ whole parts, liquidity.amountBetween token .down start finish = .ok whole ∧
      liquidity.amountAlong token .down start (cuts ++ [finish]) = .ok parts ∧
      parts ≤ whole.toNat ∧ whole.toNat ≤ parts + cuts.length := by
  have htrans : IsTrans SqrtPrice (· ≤ ·) := ⟨fun _ _ _ => BitVec.le_trans⟩
  have hends : ∀ rounding, ∃ whole parts,
      liquidity.amountBetween token rounding start finish = .ok whole ∧
      liquidity.amountAlong token rounding start (cuts ++ [finish]) = .ok parts ∧
      rounding.AllowsCuts cuts.length whole.toNat parts := by
    intro rounding
    obtain ⟨whole, hwhole, -⟩ := liquidity.amountBetween_ok token rounding
      (hvalid start List.mem_cons_self) (hvalid finish (by simp))
    obtain ⟨parts, hparts, hallows⟩ := allowsCuts_amountAlong hvalid hsorted.pairwise hwhole
    exact ⟨whole, parts, hwhole, hparts, hallows⟩
  exact ⟨hends .up, hends .down⟩

/-- Each of three tiny parts costs a unit, and so does the whole. -/
theorem cuts_cost_two_units :
    let cuts : List SqrtPrice := [SqrtPrice.one + 1, SqrtPrice.one + 2]
    ∃ whole parts,
      Liquidity.amountBetween 1 .one .up SqrtPrice.one (SqrtPrice.one + 3) = .ok whole ∧
      Liquidity.amountAlong 1 .one .up SqrtPrice.one (cuts ++ [SqrtPrice.one + 3]) = .ok parts ∧
      whole.toNat ≤ parts ∧ parts = whole.toNat + cuts.length := by
  intro cuts
  have hvalid : ∀ price ∈ SqrtPrice.one :: (cuts ++ [SqrtPrice.one + 3]), price.Valid := by
    simp only [cuts, List.cons_append, List.nil_append, List.forall_mem_cons, List.not_mem_nil,
      false_imp_iff, implies_true, and_true]
    exact ⟨⟨by decide, by decide⟩, ⟨by decide, by decide⟩, ⟨by decide, by decide⟩,
      ⟨by decide, by decide⟩⟩
  have hsorted : (SqrtPrice.one :: (cuts ++ [SqrtPrice.one + 3])).IsChain (· ≤ ·) :=
    .cons_cons (by decide) (.cons_cons (by decide) (.cons_cons (by decide) (.singleton _)))
  obtain ⟨⟨whole, parts, hwhole, hparts, hle, -⟩, -⟩ :=
    cuts_cost_at_most_a_unit_each 1 .one SqrtPrice.one (SqrtPrice.one + 3) cuts hvalid hsorted
  have hone : Liquidity.amountBetween 1 .one .up SqrtPrice.one (SqrtPrice.one + 3) = .ok 1 := by
    decide +kernel
  have hthree : Liquidity.amountAlong 1 .one .up SqrtPrice.one (cuts ++ [SqrtPrice.one + 3]) =
      .ok 3 := by
    decide +kernel
  refine ⟨whole, parts, hwhole, hparts, hle, ?_⟩
  cases hone.symm.trans hwhole
  cases hthree.symm.trans hparts
  rfl

end Liquidity

end ConcentratedLiquidity
