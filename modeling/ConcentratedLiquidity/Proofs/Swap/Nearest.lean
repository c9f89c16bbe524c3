import ConcentratedLiquidity.Proofs.Swap.Exchange
import ConcentratedLiquidity.Proofs.Swap.Failure

/-!
# The furthest and the nearest price

Prices after a trade and amounts over a range undo each other, for all that both are rounded. An input moves the price as far as it pays for, and an output moves it to the nearest price that releases it; where no price does, and only there, the output is refused. Each price is a quotient rounded so that comparing it with another price and comparing the amount up to that price are one inequality between products.

The formula for an input of token 0 that is too large for the precise one still pays for its way, but may stop before the furthest price.
-/

namespace ConcentratedLiquidity.SqrtPrice

variable {direction : Direction} {price next other : SqrtPrice} {liquidity : Liquidity}
  {amount paid released : Word}

/-! ### Inputs -/

theorem afterInput_down_bounds (hprice : price.Valid)
    (h : afterInput .down price liquidity amount = .ok next) :
    next.Valid ∧ next ≤ price ∧
      ∀ paid, Direction.down.amountIn liquidity price next = .ok paid → paid ≤ amount := by
  obtain ⟨-, hliquidity, hafter⟩ := afterInput_eq_ok_iff.1 h
  obtain ⟨hfall, hreach⟩ := afterToken0In_bounds hliquidity hafter
  have hpos : 0 < liquidity.scaled.toNat * price.toNat :=
    Nat.mul_pos (liquidity.scaled_pos hliquidity) hprice.pos
  refine ⟨⟨Nat.pos_of_mul_pos_left (hpos.trans_le hreach), hfall.trans hprice.le⟩,
    BitVec.le_def.2 hfall, fun paid hpaid => ?_⟩
  exact BitVec.le_def.2 ((Direction.amountIn_down_le_iff (BitVec.le_def.2 hfall) hpaid).2 hreach)

theorem afterInput_up_bounds (hprice : price.Valid)
    (h : afterInput .up price liquidity amount = .ok next) :
    next.Valid ∧ price ≤ next ∧
      ∀ paid, Direction.up.amountIn liquidity price next = .ok paid → paid ≤ amount := by
  obtain ⟨-, hliquidity, hafter⟩ := afterInput_eq_ok_iff.1 h
  have hvalue := afterToken1In_value hliquidity hafter
  have hrise : price ≤ next := BitVec.le_def.2 (hvalue ▸ Nat.le_add_right _ _)
  refine ⟨⟨hprice.pos.trans hrise, afterToken1In_toNat_le hafter⟩, hrise, fun paid hpaid => ?_⟩
  apply BitVec.le_def.2
  rw [Direction.amountIn_up_le_iff hrise hpaid, hvalue, Nat.add_sub_cancel_left]
  exact Nat.mul_div_le _ _

theorem amountIn_down_le_iff_le (hfits : liquidity.toNat * 2 ^ 96 + amount.toNat * price.toNat < 2 ^ 256)
    (h : afterInput .down price liquidity amount = .ok next) (hle : other ≤ price)
    (hpaid : Direction.down.amountIn liquidity price other = .ok paid) :
    paid ≤ amount ↔ next ≤ other := by
  obtain ⟨-, hliquidity, hafter⟩ := afterInput_eq_ok_iff.1 h
  have hscaled := liquidity.scaled_pos hliquidity
  rw [← liquidity.toNat_scaled] at hfits
  rw [BitVec.le_def, Direction.amountIn_down_le_iff hle hpaid, BitVec.le_def,
    afterToken0In_value_of_fits hliquidity hfits hafter,
    ceilDiv_le_iff_le_mul (Nat.add_pos_left hscaled _)]

theorem amountIn_up_le_iff_le (h : afterInput .up price liquidity amount = .ok next)
    (hle : price ≤ other) (hpaid : Direction.up.amountIn liquidity price other = .ok paid) :
    paid ≤ amount ↔ other ≤ next := by
  obtain ⟨-, hliquidity, hafter⟩ := afterInput_eq_ok_iff.1 h
  have hpos := BitVec.toNat_pos_of_ne_zero hliquidity
  rw [BitVec.le_def, Direction.amountIn_up_le_iff hle hpaid, BitVec.le_def,
    afterToken1In_value hliquidity hafter, ← Nat.sub_le_iff_le_add', Nat.le_div_iff_mul_le hpos,
    mul_comm liquidity.toNat]

theorem afterInput_bounds (hprice : price.Valid)
    (h : afterInput direction price liquidity amount = .ok next) :
    next.Valid ∧ direction.Leads price next ∧
      ∀ paid, direction.amountIn liquidity price next = .ok paid → paid ≤ amount := by
  cases direction with
  | down => exact afterInput_down_bounds hprice h
  | up => exact afterInput_up_bounds hprice h

/-- An amount pays for the way to a price exactly if that price is not beyond the one after the input. -/
theorem amountIn_le_iff_leads
    (hfits : direction = .down →
      liquidity.toNat * 2 ^ 96 + amount.toNat * price.toNat < 2 ^ 256)
    (h : afterInput direction price liquidity amount = .ok next) (hleads : direction.Leads price other)
    (hpaid : direction.amountIn liquidity price other = .ok paid) :
    paid ≤ amount ↔ direction.Leads other next := by
  cases direction with
  | down => exact amountIn_down_le_iff_le (hfits rfl) h hleads hpaid
  | up => exact amountIn_up_le_iff_le h hleads hpaid

/-- The price after an input is the furthest one that the input pays for: the amount up to it is covered, and any price beyond it costs more. For token 0 the second part needs a denominator that is a word. -/
theorem afterInput_stops_where_input_ends (hprice : price.Valid)
    (h : afterInput direction price liquidity amount = .ok next) :
    next.Valid ∧ direction.Leads price next ∧
      (∃ paid, direction.amountIn liquidity price next = .ok paid ∧ paid ≤ amount) ∧
      ((direction = .down →
          liquidity.toNat * 2 ^ 96 + amount.toNat * price.toNat < 2 ^ 256) →
        ∀ other : SqrtPrice, other.Valid → direction.Leads next other → other ≠ next →
          ∃ paid, direction.amountIn liquidity price other = .ok paid ∧ amount < paid) := by
  obtain ⟨hvalid, hleads, hcovered⟩ := afterInput_bounds hprice h
  obtain ⟨paid, hpaid, -⟩ := direction.amountIn_ok liquidity hprice hvalid
  refine ⟨hvalid, hleads, ⟨paid, hpaid, hcovered paid hpaid⟩, ?_⟩
  intro hfits other hother hbeyond hne
  obtain ⟨cost, hcost, -⟩ := direction.amountIn_ok liquidity hprice hother
  refine ⟨cost, hcost, BitVec.not_le.1 fun hle => hne ?_⟩
  have hreached := (amountIn_le_iff_leads hfits h (hleads.trans hbeyond) hcost).1 hle
  exact hreached.antisymm hbeyond

/-- A tenth of the token 0 that a pool at price one holds, added to it. The next price down costs more. -/
theorem afterInput_spends_a_tenth :
    ∃ next cost, afterInput .down .one (10 ^ 18) (10 ^ 17) = .ok next ∧
      Direction.down.amountIn (10 ^ 18) .one next = .ok (10 ^ 17) ∧
      Direction.down.amountIn (10 ^ 18) .one (next - 1) = .ok cost ∧ 10 ^ 17 < cost := by
  have h : afterInput .down .one (10 ^ 18) (10 ^ 17) = .ok 72025602285694852357767227579 := by
    decide +kernel
  obtain ⟨-, -, -, hbeyond⟩ :=
    afterInput_stops_where_input_ends ⟨by decide +kernel, by decide +kernel⟩ h
  obtain ⟨cost, hcost, hmore⟩ := hbeyond (fun _ => by decide +kernel)
    (72025602285694852357767227579 - 1) ⟨by decide +kernel, by decide +kernel⟩
    (show (_ : Word) ≤ _ by decide +kernel) (by decide +kernel)
  exact ⟨_, cost, h, by decide +kernel, hcost, hmore⟩

/-! ### Outputs -/

/-- A price in a direction, up to which an amount is released. -/
structure Sufficient (direction : Direction) (price : SqrtPrice) (liquidity : Liquidity)
    (amount : Word) (next : SqrtPrice) : Prop where
  valid : next.Valid
  leads : direction.Leads price next
  releases : ∃ released, direction.amountOut liquidity price next = .ok released ∧ amount ≤ released

theorem le_amountOut_down_iff_le (h : afterOutput .down price liquidity amount = .ok next)
    (hle : other ≤ price)
    (hreleased : Direction.down.amountOut liquidity price other = .ok released) :
    amount ≤ released ↔ other ≤ next := by
  obtain ⟨-, hliquidity, hafter⟩ := afterOutput_eq_ok_iff.1 h
  have hpos := BitVec.toNat_pos_of_ne_zero hliquidity
  have hvalue := afterToken1Out_value hliquidity hafter
  have hother := BitVec.le_def.1 hle
  rw [BitVec.le_def, Direction.le_amountOut_down_iff hle hreleased,
    ← ceilDiv_le_iff_le_mul hpos, BitVec.le_def]
  omega

theorem le_amountOut_up_iff_le (h : afterOutput .up price liquidity amount = .ok next)
    (hle : price ≤ other)
    (hreleased : Direction.up.amountOut liquidity price other = .ok released) :
    amount ≤ released ↔ next ≤ other := by
  obtain ⟨-, hliquidity, hafter⟩ := afterOutput_eq_ok_iff.1 h
  obtain ⟨hreserves, hvalue⟩ := afterToken0Out_value hliquidity hafter
  have hless : amount.toNat * price.toNat * other.toNat ≤ liquidity.scaled.toNat * other.toNat :=
    Nat.mul_le_mul_right _ hreserves.le
  have hmore : liquidity.scaled.toNat * price.toNat ≤ liquidity.scaled.toNat * other.toNat :=
    Nat.mul_le_mul_left _ (BitVec.le_def.1 hle)
  rw [BitVec.le_def, Direction.le_amountOut_up_iff hle hreleased, BitVec.le_def, hvalue,
    ceilDiv_le_iff_le_mul (Nat.sub_pos_of_lt hreserves), Nat.sub_mul, Nat.mul_sub,
    mul_comm other.toNat, ← mul_assoc]
  omega

theorem le_amountOut_iff_leads (h : afterOutput direction price liquidity amount = .ok next)
    (hleads : direction.Leads price other)
    (hreleased : direction.amountOut liquidity price other = .ok released) :
    amount ≤ released ↔ direction.Leads next other := by
  cases direction with
  | down => exact le_amountOut_down_iff_le h hleads hreleased
  | up => exact le_amountOut_up_iff_le h hleads hreleased

theorem afterOutput_bounds (hprice : price.Valid)
    (h : afterOutput direction price liquidity amount = .ok next) :
    next.Valid ∧ direction.Leads price next := by
  obtain ⟨-, hliquidity, hafter⟩ := afterOutput_eq_ok_iff.1 h
  cases direction with
  | down =>
    have hfall : next ≤ price := BitVec.le_def.2 (Nat.le.intro (afterToken1Out_value hliquidity hafter))
    exact ⟨⟨afterToken1Out_pos hafter, le_trans hfall hprice.le⟩, hfall⟩
  | up =>
    have hrise : price ≤ next := BitVec.le_def.2 (afterToken0Out_bounds hliquidity hafter).1
    exact ⟨⟨hprice.pos.trans hrise, afterToken0Out_toNat_le hprice hafter⟩, hrise⟩

theorem sufficient_of_afterOutput (hprice : price.Valid)
    (h : afterOutput direction price liquidity amount = .ok next) :
    Sufficient direction price liquidity amount next ∧
      ∀ other, Sufficient direction price liquidity amount other → direction.Leads next other := by
  obtain ⟨hvalid, hleads⟩ := afterOutput_bounds hprice h
  obtain ⟨released, hreleased, -⟩ := direction.amountOut_ok liquidity hprice hvalid
  have hreaches := (le_amountOut_iff_leads h hleads hreleased).2 (.refl direction next)
  refine ⟨⟨hvalid, hleads, released, hreleased, hreaches⟩, fun other hother => ?_⟩
  obtain ⟨most, hmost, hle⟩ := hother.releases
  exact (le_amountOut_iff_leads h hother.leads hmost).1 hle

theorem Sufficient.exists_afterOutput (hprice : price.Valid) (hliquidity : liquidity ≠ 0)
    (h : Sufficient direction price liquidity amount next) :
    ∃ found, afterOutput direction price liquidity amount = .ok found := by
  obtain ⟨hvalid, hleads, released, hreleased, hle⟩ := h
  cases direction with
  | down => exact afterOutput_down_ok_of_le hprice hvalid hliquidity hleads hreleased hle
  | up => exact afterOutput_up_ok_of_le hprice hvalid hliquidity hleads hreleased hle

/-- The price after an output is the nearest one up to which the output is released, and there is a failure exactly if no price releases it. -/
theorem afterOutput_is_nearest_sufficient (hprice : price.Valid) (hliquidity : liquidity ≠ 0)
    (direction : Direction) (amount : Word) :
    (∀ next, afterOutput direction price liquidity amount = .ok next ↔
      Sufficient direction price liquidity amount next ∧
        ∀ other, Sufficient direction price liquidity amount other → direction.Leads next other) ∧
    ((∃ cause, afterOutput direction price liquidity amount = .error cause) ↔
      ¬∃ next, Sufficient direction price liquidity amount next) := by
  refine ⟨fun next => ⟨sufficient_of_afterOutput hprice, ?_⟩, ?_⟩
  · rintro ⟨hnext, hnearest⟩
    obtain ⟨found, hfound⟩ := hnext.exists_afterOutput hprice hliquidity
    obtain ⟨hsufficient, hfirst⟩ := sufficient_of_afterOutput hprice hfound
    rw [hfound, (hfirst next hnext).antisymm (hnearest found hsufficient)]
  · constructor
    · rintro ⟨cause, hcause⟩ ⟨next, hnext⟩
      obtain ⟨found, hfound⟩ := hnext.exists_afterOutput hprice hliquidity
      rw [hfound] at hcause
      cases hcause
    · intro hnone
      cases houtcome : afterOutput direction price liquidity amount with
      | error cause => exact ⟨cause, rfl⟩
      | ok next => exact absurd ⟨next, (sufficient_of_afterOutput hprice houtcome).1⟩ hnone

/-- Up to price zero the pool holds 262144 units of token 1. All but one of them can be released. -/
theorem afterOutput_at_the_reserves :
    Sufficient .down 20282409603651670423947251286016 1024 262143 77371252455336267181195264 ∧
      ¬∃ next, Sufficient .down 20282409603651670423947251286016 1024 262144 next := by
  have hprice : Valid 20282409603651670423947251286016 := ⟨by decide +kernel, by decide +kernel⟩
  have hrange : (1024 : Liquidity) ≠ 0 := by decide
  constructor
  · obtain ⟨hnearest, -⟩ := afterOutput_is_nearest_sufficient hprice hrange .down 262143
    exact ((hnearest _).1 (by decide +kernel)).1
  · obtain ⟨-, hnone⟩ := afterOutput_is_nearest_sufficient hprice hrange .down 262144
    exact hnone.1 ⟨.insufficientReserves, by decide +kernel⟩

end ConcentratedLiquidity.SqrtPrice
