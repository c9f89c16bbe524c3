import ConcentratedLiquidity.Proofs.Price.Exact
import ConcentratedLiquidity.Proofs.Swap.Advance

/-!
# Exact exchanges

A trade from one price to another exchanges an exact amount of each token for every unit of liquidity, the difference of the prices' coordinates. The amounts of a step are those of the liquidity in range, rounded against the trader: it is paid the least whole amount that is not below the exact one, and releases the greatest that is not above it. So a longer way costs and releases no less, and a way in two parts costs no less than the whole way and releases no more.
-/

namespace ConcentratedLiquidity

namespace Direction

variable {direction : Direction} {start middle finish : SqrtPrice}

/-! ### There and back -/

def reverse : Direction → Direction
  | .down => .up
  | .up => .down

def tokenIn : Direction → Token
  | .down => .zero
  | .up => .one

def tokenOut (direction : Direction) : Token := direction.reverse.tokenIn

theorem tokenOut_reverse (direction : Direction) : direction.reverse.tokenOut = direction.tokenIn := by
  cases direction <;> rfl

theorem leads_reverse_iff : direction.reverse.Leads start finish ↔ direction.Leads finish start := by
  cases direction <;> exact Iff.rfl

theorem Leads.of_not (h : ¬direction.Leads start finish) :
    direction.Leads finish start ∧ finish ≠ start := by
  refine ⟨?_, fun heq => h (heq ▸ Leads.refl direction finish)⟩
  cases direction with
  | down => exact BitVec.le_of_lt (BitVec.not_le.1 h)
  | up => exact BitVec.le_of_lt (BitVec.not_le.1 h)

theorem Leads.antisymm (hthere : direction.Leads start finish)
    (hback : direction.Leads finish start) : start = finish := by
  cases direction with
  | down => exact BitVec.le_antisymm hback hthere
  | up => exact BitVec.le_antisymm hthere hback

theorem Leads.middle_pos (hfirst : direction.Leads start middle)
    (hsecond : direction.Leads middle finish) (hstart : 0 < start.toNat) (hfinish : 0 < finish.toNat) :
    0 < middle.toNat := by
  cases direction with
  | down => exact lt_of_lt_of_le hfinish hsecond
  | up => exact lt_of_lt_of_le hstart hfirst

theorem leads_toward (current target : SqrtPrice) :
    (toward current target).Leads current target := by
  by_cases hle : target ≤ current
  · rw [toward_of_le hle]
    exact hle
  · rw [toward_of_lt (BitVec.not_le.1 hle)]
    exact BitVec.le_of_lt (BitVec.not_le.1 hle)

theorem toward_eq_or (h : direction.Leads start finish) :
    toward start finish = direction ∨ finish = start := by
  cases direction with
  | down => exact Or.inl (toward_of_le h)
  | up =>
    by_cases hle : finish ≤ start
    · exact Or.inr (BitVec.le_antisymm hle h)
    · exact Or.inl (toward_of_lt (BitVec.not_le.1 hle))

/-! ### Gains -/

/-- What a value that rises with the price gains, or loses, by a move in a direction, counted as positive. -/
def gain : Direction → (SqrtPrice → ℚ) → SqrtPrice → SqrtPrice → ℚ
  | .down, value, start, finish => value start - value finish
  | .up, value, start, finish => value finish - value start

@[simp] theorem gain_self (direction : Direction) (value : SqrtPrice → ℚ) (price : SqrtPrice) :
    direction.gain value price price = 0 := by
  cases direction <;> exact sub_self _

theorem gain_add_gain (direction : Direction) (value : SqrtPrice → ℚ)
    (start middle finish : SqrtPrice) :
    direction.gain value start middle + direction.gain value middle finish =
      direction.gain value start finish := by
  cases direction with
  | down => exact sub_add_sub_cancel _ _ _
  | up => exact sub_add_sub_cancel' _ _ _

theorem gain_reverse (direction : Direction) (value : SqrtPrice → ℚ) (start finish : SqrtPrice) :
    direction.reverse.gain value start finish = direction.gain value finish start := by
  cases direction <;> rfl

theorem gain_coordinate_pos (token : Token) (hstart : 0 < start.toNat) (hfinish : 0 < finish.toNat)
    (hleads : direction.Leads start finish) (hne : start ≠ finish) :
    0 < direction.gain (SqrtPrice.coordinate token) start finish := by
  cases direction with
  | down => exact sub_pos.2 (SqrtPrice.coordinate_lt token hfinish (BitVec.lt_of_le_ne hleads hne.symm))
  | up => exact sub_pos.2 (SqrtPrice.coordinate_lt token hstart (BitVec.lt_of_le_ne hleads hne))

theorem gain_coordinate_nonneg (token : Token) (hstart : 0 < start.toNat)
    (hfinish : 0 < finish.toNat) (hleads : direction.Leads start finish) :
    0 ≤ direction.gain (SqrtPrice.coordinate token) start finish := by
  by_cases heq : start = finish
  · rw [heq, gain_self]
  · exact (gain_coordinate_pos token hstart hfinish hleads heq).le

end Direction

/-! ### Rounding against the trader -/

namespace Direction

variable {direction : Direction} {current next : SqrtPrice} {liquidity : Liquidity} {amount : Word}

/-- What a trade pays in is the least whole amount that covers what its liquidity takes for the move. -/
theorem amountIn_le_iff_gain_le {bound : Nat} (hleads : direction.Leads current next)
    (h : direction.amountIn liquidity current next = .ok amount) :
    amount.toNat ≤ bound ↔
      liquidity.toNat * direction.gain (SqrtPrice.coordinate direction.tokenIn) current next ≤
        bound := by
  cases direction with
  | down =>
    have hle : next ≤ current := hleads
    change liquidity.token0Between .up current next = .ok amount at h
    rw [Liquidity.token0Between_of_ge hle, Liquidity.token0Over_eq_ok_iff hle] at h
    have hnext := BitVec.toNat_pos_of_ne_zero h.1
    rw [h.2, Rounding.divide_up_le_iff (Nat.mul_pos (hnext.trans_le hle) hnext),
      Liquidity.token0_exact hnext hle]
    exact Iff.rfl
  | up =>
    have hle : current ≤ next := hleads
    change liquidity.token1Between .up current next = .ok amount at h
    rw [Liquidity.token1Between_of_le hle, Liquidity.token1Over_eq_ok_iff hle] at h
    rw [h, Rounding.divide_up_le_iff (Nat.two_pow_pos 96), Liquidity.token1_exact hle]
    exact Iff.rfl

theorem le_amountOut_iff_le_gain {bound : Nat} (hleads : direction.Leads current next)
    (h : direction.amountOut liquidity current next = .ok amount) :
    bound ≤ amount.toNat ↔
      bound ≤
        liquidity.toNat * direction.gain (SqrtPrice.coordinate direction.tokenOut) current next := by
  cases direction with
  | down =>
    have hle : next ≤ current := hleads
    change liquidity.token1Between .down current next = .ok amount at h
    rw [Liquidity.token1Between_of_ge hle, Liquidity.token1Over_eq_ok_iff hle] at h
    rw [h, Rounding.le_divide_down_iff (Nat.two_pow_pos 96), Liquidity.token1_exact hle]
    exact Iff.rfl
  | up =>
    have hle : current ≤ next := hleads
    change liquidity.token0Between .down current next = .ok amount at h
    rw [Liquidity.token0Between_of_le hle, Liquidity.token0Over_eq_ok_iff hle] at h
    have hcurrent := BitVec.toNat_pos_of_ne_zero h.1
    rw [h.2, Rounding.le_divide_down_iff (Nat.mul_pos (hcurrent.trans_le hle) hcurrent),
      Liquidity.token0_exact hcurrent hle]
    exact Iff.rfl

theorem gain_le_amountIn (hleads : direction.Leads current next)
    (h : direction.amountIn liquidity current next = .ok amount) :
    liquidity.toNat * direction.gain (SqrtPrice.coordinate direction.tokenIn) current next ≤
      amount.toNat :=
  (amountIn_le_iff_gain_le hleads h).1 le_rfl

theorem amountOut_le_gain (hleads : direction.Leads current next)
    (h : direction.amountOut liquidity current next = .ok amount) :
    (amount.toNat : ℚ) ≤
      liquidity.toNat * direction.gain (SqrtPrice.coordinate direction.tokenOut) current next :=
  (le_amountOut_iff_le_gain hleads h).1 le_rfl

theorem amounts_self (direction : Direction) (liquidity : Liquidity) (hcurrent : current ≠ 0) :
    direction.amountIn liquidity current current = .ok 0 ∧
      direction.amountOut liquidity current current = .ok 0 := by
  cases direction with
  | down => exact ⟨Liquidity.token0Between_self hcurrent, Liquidity.token1Between_self current⟩
  | up => exact ⟨Liquidity.token1Between_self current, Liquidity.token0Between_self hcurrent⟩

theorem pos_of_amounts {released : Word} (hleads : direction.Leads current next)
    (hin : direction.amountIn liquidity current next = .ok amount)
    (hout : direction.amountOut liquidity current next = .ok released) :
    0 < current.toNat ∧ 0 < next.toNat := by
  cases direction with
  | down =>
    have hle : next ≤ current := hleads
    change liquidity.token0Between .up current next = .ok amount at hin
    rw [Liquidity.token0Between_of_ge hle, Liquidity.token0Over_eq_ok_iff hle] at hin
    exact ⟨(BitVec.toNat_pos_of_ne_zero hin.1).trans_le hle, BitVec.toNat_pos_of_ne_zero hin.1⟩
  | up =>
    have hle : current ≤ next := hleads
    change liquidity.token0Between .down current next = .ok released at hout
    rw [Liquidity.token0Between_of_le hle, Liquidity.token0Over_eq_ok_iff hle] at hout
    exact ⟨BitVec.toNat_pos_of_ne_zero hout.1, (BitVec.toNat_pos_of_ne_zero hout.1).trans_le hle⟩

/-! ### Longer ways and ways in two parts -/

variable {start middle finish : SqrtPrice} {first second whole : Word}

theorem gain_le_gain (token : Token) (hmiddle : 0 < middle.toNat) (hfinish : 0 < finish.toNat)
    (hbeyond : direction.Leads middle finish) :
    direction.gain (SqrtPrice.coordinate token) start middle ≤
      direction.gain (SqrtPrice.coordinate token) start finish := by
  rw [← direction.gain_add_gain _ start middle finish]
  exact le_add_of_nonneg_right (gain_coordinate_nonneg token hmiddle hfinish hbeyond)

theorem amountIn_mono (hmiddle : 0 < middle.toNat) (hfinish : 0 < finish.toNat)
    (hleads : direction.Leads start middle) (hbeyond : direction.Leads middle finish)
    (hfirst : direction.amountIn liquidity start middle = .ok first)
    (hwhole : direction.amountIn liquidity start finish = .ok whole) : first ≤ whole := by
  rw [BitVec.le_def, amountIn_le_iff_gain_le hleads hfirst]
  exact (mul_le_mul_of_nonneg_left (gain_le_gain _ hmiddle hfinish hbeyond) (Nat.cast_nonneg _)).trans
    (gain_le_amountIn (hleads.trans hbeyond) hwhole)

theorem amountOut_mono (hmiddle : 0 < middle.toNat) (hfinish : 0 < finish.toNat)
    (hleads : direction.Leads start middle) (hbeyond : direction.Leads middle finish)
    (hfirst : direction.amountOut liquidity start middle = .ok first)
    (hwhole : direction.amountOut liquidity start finish = .ok whole) : first ≤ whole := by
  rw [BitVec.le_def, le_amountOut_iff_le_gain (hleads.trans hbeyond) hwhole]
  exact (amountOut_le_gain hleads hfirst).trans
    (mul_le_mul_of_nonneg_left (gain_le_gain _ hmiddle hfinish hbeyond) (Nat.cast_nonneg _))

theorem amounts_mono {released releasedWhole : Word} (hleads : direction.Leads start middle)
    (hbeyond : direction.Leads middle finish)
    (hfirst : direction.amountIn liquidity start middle = .ok first)
    (hreleased : direction.amountOut liquidity start middle = .ok released)
    (hwhole : direction.amountIn liquidity start finish = .ok whole)
    (hreleasedWhole : direction.amountOut liquidity start finish = .ok releasedWhole) :
    first ≤ whole ∧ released ≤ releasedWhole := by
  obtain ⟨-, hmiddle⟩ := pos_of_amounts hleads hfirst hreleased
  obtain ⟨-, hfinish⟩ := pos_of_amounts (hleads.trans hbeyond) hwhole hreleasedWhole
  exact ⟨amountIn_mono hmiddle hfinish hleads hbeyond hfirst hwhole,
    amountOut_mono hmiddle hfinish hleads hbeyond hreleased hreleasedWhole⟩

theorem amountIn_le_add (hstart : direction.Leads start middle)
    (hfinish : direction.Leads middle finish)
    (hfirst : direction.amountIn liquidity start middle = .ok first)
    (hsecond : direction.amountIn liquidity middle finish = .ok second)
    (hwhole : direction.amountIn liquidity start finish = .ok whole) :
    whole.toNat ≤ first.toNat + second.toNat := by
  rw [amountIn_le_iff_gain_le (hstart.trans hfinish) hwhole,
    ← direction.gain_add_gain _ start middle finish, mul_add, Nat.cast_add]
  exact add_le_add (gain_le_amountIn hstart hfirst) (gain_le_amountIn hfinish hsecond)

theorem add_le_amountOut (hstart : direction.Leads start middle)
    (hfinish : direction.Leads middle finish)
    (hfirst : direction.amountOut liquidity start middle = .ok first)
    (hsecond : direction.amountOut liquidity middle finish = .ok second)
    (hwhole : direction.amountOut liquidity start finish = .ok whole) :
    first.toNat + second.toNat ≤ whole.toNat := by
  rw [le_amountOut_iff_le_gain (hstart.trans hfinish) hwhole,
    ← direction.gain_add_gain _ start middle finish, mul_add, Nat.cast_add]
  exact add_le_add (amountOut_le_gain hstart hfirst) (amountOut_le_gain hfinish hsecond)

end Direction

/-! ### What a step trades -/

/-- What a step trades in a direction. It goes from its current price towards its target and not past it, and its amounts are those of the way it goes, of which an output may be kept in part. -/
structure SwapStep.Trades (direction : Direction) (current target : SqrtPrice)
    (liquidity : Liquidity) (step : SwapStep) : Prop where
  leads : direction.Leads current step.price
  within : direction.Leads step.price target
  amountIn : direction.amountIn liquidity current step.price = .ok step.amountIn
  amountOut : ∃ released, direction.amountOut liquidity current step.price = .ok released ∧
    step.amountOut ≤ released

section

variable {direction : Direction} {current target : SqrtPrice} {liquidity : Liquidity}
  {remaining : SignedWord} {fee : FeePips} {step : SwapStep}

theorem SwapStep.Trades.pos (h : step.Trades direction current target liquidity) :
    0 < current.toNat ∧ 0 < step.price.toNat := by
  obtain ⟨released, hreleased, -⟩ := h.amountOut
  exact Direction.pos_of_amounts h.leads h.amountIn hreleased

theorem trades_toward_of_swapStep
    (h : swapStep current target liquidity remaining fee = .ok step) :
    step.Trades (Direction.toward current target) current target liquidity := by
  obtain ⟨hstart, hfinish⟩ := (Direction.leads_toward current target).of_onPath (swapStep_onPath h)
  by_cases hremaining : 0 ≤ remaining.toInt
  · obtain ⟨-, -, -, -, -, hin, hout, -⟩ := SwapStep.exactInput_parts (swapStep_of_nonneg hremaining h)
    exact ⟨hstart, hfinish, hin, step.amountOut, hout, BitVec.le_refl _⟩
  · obtain ⟨-, released, -, -, hin, hreleased, hout, -⟩ :=
      SwapStep.exactOutput_parts (swapStep_of_neg (Int.not_le.1 hremaining) h)
    refine ⟨hstart, hfinish, hin, released, hreleased, ?_⟩
    rw [hout]
    split
    · rename_i hcapped
      exact BitVec.le_of_lt hcapped
    · exact BitVec.le_refl released

/-- Without a range a step counts as one down, but it trades as well in the other direction. -/
theorem trades_of_swapStep (hleads : direction.Leads current target)
    (h : swapStep current target liquidity remaining fee = .ok step) :
    step.Trades direction current target liquidity := by
  have htrades := trades_toward_of_swapStep h
  rcases Direction.toward_eq_or hleads with htoward | rfl
  · rwa [htoward] at htrades
  · have hprice : step.price = target := htrades.within.antisymm htrades.leads
    have hne : target ≠ 0 := fun hzero => by simpa [hzero] using htrades.pos.1
    obtain ⟨hcounted, hcountedOut⟩ := (Direction.toward target target).amounts_self liquidity hne
    obtain ⟨hnothing, hnone⟩ := direction.amounts_self liquidity hne
    obtain ⟨-, -, hin, hout⟩ := htrades
    rw [hprice, hcounted] at hin
    rw [hprice, hcountedOut] at hout
    constructor
    · rw [hprice]
      exact .refl direction target
    · rw [hprice]
      exact .refl direction target
    · rw [hprice, hnothing, hin]
    · rw [hprice, hnone]
      exact hout

/-- Two steps one after the other are paid no less than one for the whole way, and release no more. -/
theorem SwapStep.Trades.amounts_append {rest : SwapStep} {cost between : Word}
    (h : step.Trades direction current target liquidity)
    (hrest : rest.Trades direction step.price target liquidity)
    (hcost : direction.amountIn liquidity current rest.price = .ok cost)
    (hbetween : direction.amountOut liquidity current rest.price = .ok between) :
    cost.toNat ≤ step.amountIn.toNat + rest.amountIn.toNat ∧
      step.amountOut.toNat + rest.amountOut.toNat ≤ between.toNat := by
  obtain ⟨released, hreleased, hkept⟩ := h.amountOut
  obtain ⟨releasedRest, hreleasedRest, hkeptRest⟩ := hrest.amountOut
  exact ⟨Direction.amountIn_le_add h.leads hrest.leads h.amountIn hrest.amountIn hcost,
    (Nat.add_le_add hkept hkeptRest).trans
      (Direction.add_le_amountOut h.leads hrest.leads hreleased hreleasedRest hbetween)⟩

theorem SwapStep.Trades.exchanges (h : step.Trades direction current target liquidity) :
    liquidity.toNat * direction.gain (SqrtPrice.coordinate direction.tokenIn) current step.price ≤
        step.amountIn.toNat ∧
      (step.amountOut.toNat : ℚ) ≤
        liquidity.toNat *
          direction.gain (SqrtPrice.coordinate direction.tokenOut) current step.price := by
  obtain ⟨released, hreleased, hkept⟩ := h.amountOut
  have hcast : (step.amountOut.toNat : ℚ) ≤ released.toNat := Nat.cast_le.2 hkept
  exact ⟨Direction.gain_le_amountIn h.leads h.amountIn,
    hcast.trans (Direction.amountOut_le_gain h.leads hreleased)⟩

end

end ConcentratedLiquidity
