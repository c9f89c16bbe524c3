import ConcentratedLiquidity.Proofs.Signed
import ConcentratedLiquidity.Proofs.Swap.Monotone

/-!
# The same trade made in another way

Instead of asking for an output, a trader can pay what that output was quoted to cost; instead of paying an input, ask for what it would release; instead of paying at once, pay in two parts. Rounding decides between these ways. Paying the quote buys at least the output, asking for an output costs at most the input that releases it, and two parts of an input release at most what the whole does.

All of this rests on three facts. The fee on top and the part left after the fee are adjoint. Costs of a way add up to no less than the cost of the whole way, and outputs to no more. And a step with exact input ends at the furthest price that is paid for, up to the rounded formula for large inputs of token 0, which may stop short of it.
-/

namespace ConcentratedLiquidity

namespace FeePips

variable {fee : FeePips} {amount taken : Word} {given : Nat}

/-! ### Fees -/

def net (fee : FeePips) (amount : Nat) : Nat := amount * (10 ^ 6 - fee.toNat) / 10 ^ 6

theorem net_add_net_le (fee : FeePips) (first second : Nat) :
    fee.net first + fee.net second ≤ fee.net (first + second) := by
  rw [net, net, net, add_mul]
  exact Nat.div_add_div_le_add_div

/-- An amount and the fee on top of it can be paid exactly if the amount is left after the fee. -/
theorem add_onTop_le_iff (hfee : fee ≤ whole) (h : fee.onTop amount = .ok taken) :
    amount.toNat + taken.toNat ≤ given ↔ amount.toNat ≤ fee.net given := by
  obtain ⟨hrate, hvalue⟩ := (onTop_eq_ok_iff hfee).1 h
  rw [hvalue]
  refine ⟨fun hpaid => ?_, add_ceilDiv_le hrate⟩
  have hceil : amount.toNat * fee.toNat ≤
      (10 ^ 6 - fee.toNat) * ((amount.toNat * fee.toNat) ⌈/⌉ (10 ^ 6 - fee.toNat)) :=
    le_smul_ceilDiv (Nat.sub_pos_of_lt hrate)
  rw [net, Nat.le_div_iff_mul_le (by decide)]
  calc
    amount.toNat * 10 ^ 6 = amount.toNat * fee.toNat + amount.toNat * (10 ^ 6 - fee.toNat) := by
      rw [← mul_add, Nat.add_sub_cancel' hrate.le]
    _ ≤ (10 ^ 6 - fee.toNat) * ((amount.toNat * fee.toNat) ⌈/⌉ (10 ^ 6 - fee.toNat)) +
        amount.toNat * (10 ^ 6 - fee.toNat) := Nat.add_le_add_right hceil _
    _ = (amount.toNat + (amount.toNat * fee.toNat) ⌈/⌉ (10 ^ 6 - fee.toNat)) *
        (10 ^ 6 - fee.toNat) := by ring
    _ ≤ _ := Nat.mul_le_mul_right _ hpaid

theorem add_onTop_lt (hfee : fee ≤ whole) (hamount : amount.toNat < 2 ^ 224)
    (h : fee.onTop amount = .ok taken) : amount.toNat + taken.toNat < 2 ^ 255 := by
  obtain ⟨hrate, -⟩ := (onTop_eq_ok_iff hfee).1 h
  refine Nat.lt_of_le_pred (by decide) ((add_onTop_le_iff hfee h).2 ?_)
  rw [net, Nat.le_div_iff_mul_le (by decide)]
  calc
    amount.toNat * 10 ^ 6 ≤ (2 ^ 255 - 1) * 1 := by omega
    _ ≤ _ := Nat.mul_le_mul_left _ (Nat.sub_pos_of_lt hrate)

end FeePips

theorem Direction.not_lt_of_toward_down {current target : SqrtPrice}
    (h : toward current target = .down) : ¬current < target := by
  intro hlt
  rw [toward_of_lt hlt] at h
  cases h

section

variable {current target : SqrtPrice} {liquidity : Liquidity} {remaining : SignedWord}
  {fee : FeePips} {step : SwapStep}

/-! ### Steps with exact input -/

/-- What a step with exact input does with the budget that the fee leaves it. The budget covers what the step takes, and no price on the way to the target that it covers lies beyond the one where the step ends. On a way down the second part needs a denominator that is a word. -/
structure SwapStep.Spends (current target : SqrtPrice) (liquidity : Liquidity) (budget : Nat)
    (step : SwapStep) : Prop where
  trades : step.Trades (Direction.toward current target) current target liquidity
  released : (Direction.toward current target).amountOut liquidity current step.price =
    .ok step.amountOut
  covered : step.amountIn.toNat ≤ budget
  furthest : (current < target ∨ liquidity.toNat * 2 ^ 96 + budget * current.toNat < 2 ^ 256) →
    ∀ {other paid}, SqrtPrice.OnPath current target other →
      (Direction.toward current target).amountIn liquidity current other = .ok paid →
      paid.toNat ≤ budget → (Direction.toward current target).Leads other step.price

theorem spends_of_swapStep (hremaining : 0 ≤ remaining.toInt)
    (h : swapStep current target liquidity remaining fee = .ok step) :
    step.Spends current target liquidity (fee.net remaining.toInt.toNat) := by
  have htrades := trades_toward_of_swapStep h
  obtain ⟨budget, toTarget, hbudget, htarget, hprice, -, hout, -⟩ :=
    SwapStep.exactInput_parts (swapStep_of_nonneg hremaining h)
  obtain ⟨-, hreached, hpaid⟩ := SwapStep.inputPrice_inside htarget hprice
  have hnet : budget.toNat = fee.net remaining.toInt.toNat := by
    rw [(FeePips.deduct_eq_ok_iff (fee_le_whole_of_swapStep h)).1 hbudget, remaining.toNat_magnitude,
      FeePips.net, show remaining.toInt.natAbs = remaining.toInt.toNat by omega]
  rw [← hnet]
  refine ⟨htrades, hout, hpaid _ htrades.amountIn, fun hprecise other paid hother hcost hle => ?_⟩
  obtain ⟨hleads, hwithin⟩ := (Direction.leads_toward current target).of_onPath hother
  by_cases hcovered : toTarget ≤ budget
  · rw [hreached.2 hcovered]
    exact hwithin
  · rw [if_neg hcovered] at hprice
    have hfits := fun hdown => hprecise.resolve_left (Direction.not_lt_of_toward_down hdown)
    exact (SqrtPrice.amountIn_le_iff_leads hfits hprice hleads hcost).1 hle

/-! ### Steps with exact output -/

theorem SwapStep.exactOutput_nearest {amount toTarget : Word}
    (h : exactOutput current target liquidity amount fee = .ok step)
    (htarget : (Direction.toward current target).amountOut liquidity current target = .ok toTarget)
    (hshort : amount < toTarget) :
    step.amountOut = amount ∧
      ∀ {other released}, (Direction.toward current target).Leads current other →
        (Direction.toward current target).amountOut liquidity current other = .ok released →
        amount ≤ released → (Direction.toward current target).Leads step.price other := by
  obtain ⟨hstart, -⟩ := (Direction.leads_toward current target).of_onPath (exactOutput_inside h)
  obtain ⟨toTargetAgain, released, htargetAgain, hprice, -, hreleased, hout, -⟩ :=
    exactOutput_parts h
  rw [htarget, Except.ok.injEq] at htargetAgain
  rw [← htargetAgain, if_neg (BitVec.not_le.2 hshort)] at hprice
  refine ⟨?_, fun hleads hother hle => (SqrtPrice.le_amountOut_iff_leads hprice hleads hother).1 hle⟩
  have hreaches := (SqrtPrice.le_amountOut_iff_leads hprice hstart hreleased).2 (.refl _ _)
  rw [hout]
  split
  · rfl
  · rename_i hcapped
    exact BitVec.le_antisymm (BitVec.not_lt.1 hcapped) hreaches

theorem onTop_of_swapStep (hremaining : remaining.toInt < 0)
    (h : swapStep current target liquidity remaining fee = .ok step) :
    fee.onTop step.amountIn = .ok step.fee := by
  obtain ⟨-, -, -, -, -, -, -, htaken⟩ := SwapStep.exactOutput_parts (swapStep_of_neg hremaining h)
  exact htaken

theorem exists_cost_of_swapStep (hcurrent : current.Valid) (htarget : target.Valid)
    (hremaining : remaining.toInt < 0)
    (h : swapStep current target liquidity remaining fee = .ok step) :
    ∃ cost : SignedWord, cost.toInt = (step.amountIn.toNat + step.fee.toNat : ℕ) := by
  have htrades := trades_toward_of_swapStep h
  have hvalid := (htrades.leads.onPath htrades.within).valid hcurrent htarget
  obtain ⟨amountIn, hamountIn, hsmall⟩ :=
    (Direction.toward current target).amountIn_ok liquidity hcurrent hvalid
  rw [htrades.amountIn, Except.ok.injEq] at hamountIn
  rw [← hamountIn] at hsmall
  have hlt := FeePips.add_onTop_lt (fee_le_whole_of_swapStep h) hsmall
    (onTop_of_swapStep hremaining h)
  exact ⟨Signed.ofInt 256 _, Signed.toInt_ofInt (by decide) (by omega) (by omega)⟩

/-- An output that a step releases on its way is released as well where it is asked for, by a step that does not go further. -/
theorem SwapStep.Spends.quote {spent quoted : SwapStep} {budget : Nat} {toTarget : Word}
    (hspent : spent.Spends current target liquidity budget)
    (hquoted : exactOutput current target liquidity spent.amountOut fee = .ok quoted)
    (htrades : quoted.Trades (Direction.toward current target) current target liquidity)
    (htarget : (Direction.toward current target).amountOut liquidity current target = .ok toTarget)
    (hshort : spent.amountOut < toTarget) :
    quoted.amountOut = spent.amountOut ∧ quoted.amountIn ≤ spent.amountIn ∧
      SqrtPrice.OnPath current spent.price quoted.price := by
  obtain ⟨hout, hnearest⟩ := exactOutput_nearest hquoted htarget hshort
  have hleads := hnearest hspent.trades.leads hspent.released (BitVec.le_refl _)
  obtain ⟨hstart, -, hin, released, hreleased, -⟩ := htrades
  obtain ⟨hless, -⟩ := Direction.amounts_mono hstart hleads hin hreleased hspent.trades.amountIn
    hspent.released
  exact ⟨hout, hless, hstart.onPath hleads⟩

theorem SwapStep.Spends.price_ne {spent : SwapStep} {budget : Nat} {toTarget : Word}
    (hspent : spent.Spends current target liquidity budget)
    (htarget : (Direction.toward current target).amountOut liquidity current target = .ok toTarget)
    (hshort : spent.amountOut < toTarget) : spent.price ≠ target := by
  intro hreached
  have hreleased := hspent.released
  rw [hreached, htarget, Except.ok.injEq] at hreleased
  exact absurd (hreleased ▸ hshort) (BitVec.lt_irrefl _)

/-! ### One way and the other -/

/-- Paying what an output was quoted to cost buys at least that output, and moves the price at least as far. On a way down this needs a denominator that is a word. -/
theorem swapStep_quoted_cost_buys_output (hcurrent : current.Valid) (htarget : target.Valid)
    (liquidity : Liquidity) (hfee : fee.toNat < 10 ^ 6) {asked : SignedWord}
    (hasked : asked.toInt < 0) :
    ∃ quoted, swapStep current target liquidity asked fee = .ok quoted ∧
      ∃ cost : SignedWord, cost.toInt = quoted.amountIn.toNat + quoted.fee.toNat ∧
        ∃ bought, swapStep current target liquidity cost fee = .ok bought ∧
          (current < target ∨ liquidity.toNat * 2 ^ 96 +
              fee.net (quoted.amountIn.toNat + quoted.fee.toNat) * current.toNat < 2 ^ 256 →
            quoted.amountOut ≤ bought.amountOut ∧
              SqrtPrice.OnPath quoted.price target bought.price) := by
  obtain ⟨quoted, hquoted⟩ := swapStep_ok hcurrent htarget liquidity asked hfee
  obtain ⟨cost, hcost⟩ := exists_cost_of_swapStep hcurrent htarget hasked hquoted
  obtain ⟨bought, hbought⟩ := swapStep_ok hcurrent htarget liquidity cost hfee
  refine ⟨quoted, hquoted, cost, by omega, bought, hbought, fun hprecise => ?_⟩
  have hspends := spends_of_swapStep (by omega) hbought
  rw [hcost, Int.toNat_natCast] at hspends
  obtain ⟨hstart, hwithin, hin, released, hreleased, hkept⟩ := trades_toward_of_swapStep hquoted
  -- The cost leaves at least the amount paid in, which covers the way of the quoted step.
  have hcovered := (FeePips.add_onTop_le_iff (fee_le_whole_of_swapStep hquoted)
    (onTop_of_swapStep hasked hquoted)).1 le_rfl
  have hleads := hspends.furthest hprecise (hstart.onPath hwithin) hin hcovered
  obtain ⟨-, hmore⟩ := Direction.amounts_mono hstart hleads hin hreleased hspends.trades.amountIn
    hspends.released
  exact ⟨BitVec.le_trans hkept hmore, hleads.onPath hspends.trades.within⟩

/-- A tenth of the token 1 that a pool at price one holds. -/
theorem swapStep_quoted_cost_buys_a_tenth :
    ∃ quoted bought : SwapStep, ∃ cost : SignedWord,
      swapStep SqrtPrice.one SqrtPrice.lowest (10 ^ 18) (Signed.ofInt 256 (-100000000000000000))
        3000 = .ok quoted ∧
      quoted.amountOut = 100000000000000000 ∧ cost.toInt = 111445447453471527 ∧
      swapStep SqrtPrice.one SqrtPrice.lowest (10 ^ 18) cost 3000 = .ok bought ∧
      quoted.amountOut ≤ bought.amountOut ∧
      SqrtPrice.OnPath quoted.price SqrtPrice.lowest bought.price := by
  have hcurrent : SqrtPrice.one.Valid := ⟨by decide, by decide⟩
  have htarget : SqrtPrice.lowest.Valid := ⟨by decide, by decide⟩
  have hfee : (3000 : FeePips).toNat < 10 ^ 6 := by decide
  have hasked : (Signed.ofInt 256 (-100000000000000000)).toInt < 0 := by decide
  have hstep : swapStep SqrtPrice.one SqrtPrice.lowest (10 ^ 18)
      (Signed.ofInt 256 (-100000000000000000)) 3000 = .ok
        { price := 71305346262837903834189555302, amountIn := 111111111111111112,
          amountOut := 100000000000000000, fee := 334336342360415 } := by decide +kernel
  obtain ⟨quoted, hquoted, cost, hcost, bought, hbought, hmore⟩ :=
    swapStep_quoted_cost_buys_output hcurrent htarget (10 ^ 18) hfee hasked
  obtain rfl := Except.ok.inj (hstep.symm.trans hquoted)
  obtain ⟨hout, hpath⟩ := hmore (Or.inr (by decide +kernel))
  exact ⟨_, bought, cost, hstep, rfl, hcost, hbought, hout, hpath⟩

/-- Asking for an output costs at most what an input that releases it does, as long as the range holds more, and moves the price at most as far. -/
theorem swapStep_quote_costs_no_more (hcurrent : current.Valid) (htarget : target.Valid)
    (liquidity : Liquidity) (hfee : fee.toNat < 10 ^ 6) {given : SignedWord}
    (hgiven : 0 ≤ given.toInt) :
    ∃ spent, swapStep current target liquidity given fee = .ok spent ∧
      ∃ toTarget,
        (Direction.toward current target).amountOut liquidity current target = .ok toTarget ∧
        (1 ≤ spent.amountOut.toNat → spent.amountOut < toTarget →
          ∃ asked : SignedWord, asked.toInt = -spent.amountOut.toNat ∧
            ∃ quoted, swapStep current target liquidity asked fee = .ok quoted ∧
              quoted.amountOut = spent.amountOut ∧
              quoted.amountIn.toNat + quoted.fee.toNat ≤
                spent.amountIn.toNat + spent.fee.toNat ∧
              (spent.amountIn.toNat + spent.fee.toNat : Int) ≤ given.toInt ∧
              SqrtPrice.OnPath current spent.price quoted.price) := by
  obtain ⟨spent, hspent⟩ := swapStep_ok hcurrent htarget liquidity given hfee
  have hspends := spends_of_swapStep hgiven hspent
  obtain ⟨toTarget, htoTarget, hsmall⟩ :=
    (Direction.toward current target).amountOut_ok liquidity hcurrent htarget
  refine ⟨spent, hspent, toTarget, htoTarget, fun hsome hshort => ?_⟩
  have hshortNat := BitVec.lt_def.1 hshort
  obtain ⟨asked, hasked⟩ : ∃ asked : SignedWord, asked.toInt = -spent.amountOut.toNat :=
    ⟨Signed.ofInt 256 _, Signed.toInt_ofInt (by decide) (by omega) (by omega)⟩
  obtain ⟨quoted, hquoted⟩ := swapStep_ok hcurrent htarget liquidity asked hfee
  refine ⟨asked, hasked, quoted, hquoted, ?_⟩
  have hmagnitude : asked.magnitude = spent.amountOut := by
    apply BitVec.eq_of_toNat_eq
    rw [asked.toNat_magnitude]
    omega
  have houtput := swapStep_of_neg (by omega) hquoted
  rw [hmagnitude] at houtput
  obtain ⟨hout, hless, hpath⟩ :=
    hspends.quote houtput (trades_toward_of_swapStep hquoted) htoTarget hshort
  -- The input is used up, and leaves room for what the quoted step takes.
  have hpaid := SwapStep.exactInput_paid_eq (swapStep_of_nonneg hgiven hspent)
    (hspends.price_ne htoTarget hshort)
  rw [given.toNat_magnitude] at hpaid
  have hcost := (FeePips.add_onTop_le_iff (fee_le_whole_of_swapStep hquoted)
    (onTop_of_swapStep (by omega) hquoted)).2 ((BitVec.le_def.1 hless).trans hspends.covered)
  exact ⟨hout, by omega, by omega, hpath⟩

/-- An input of token 0 that is too large for the precise formula, and stops short of the furthest price that it pays for. Its output is cheaper where it is asked for. -/
theorem swapStep_quote_costs_less_than_rounded :
    let current : SqrtPrice := 1096126227998177188652763624537212264741949407237
    let spent : SwapStep :=
      { price := 592072026438019710845, amountIn := 157980956053443089161402188866,
        amountOut := 16333553612205046246241981147902313445567,
        fee := 475368975085586025685724151 }
    swapStep current SqrtPrice.lowest 1180591620717411303424
        (Signed.ofInt 256 158456325028528675187087913017) 3000 = .ok spent ∧
      ∃ asked : SignedWord, asked.toInt = -spent.amountOut.toNat ∧
        ∃ quoted, swapStep current SqrtPrice.lowest 1180591620717411303424 asked 3000 = .ok quoted ∧
          quoted.amountOut = spent.amountOut ∧
          quoted.amountIn.toNat + quoted.fee.toNat ≤ spent.amountIn.toNat + spent.fee.toNat ∧
          SqrtPrice.OnPath current spent.price quoted.price := by
  intro current spent
  have hcurrent : current.Valid := ⟨by decide, by decide⟩
  have htarget : SqrtPrice.lowest.Valid := ⟨by decide, by decide⟩
  have hfee : (3000 : FeePips).toNat < 10 ^ 6 := by decide
  have hgiven : 0 ≤ (Signed.ofInt 256 158456325028528675187087913017).toInt := by decide
  have hstep : swapStep current SqrtPrice.lowest 1180591620717411303424
      (Signed.ofInt 256 158456325028528675187087913017) 3000 = .ok spent := by decide +kernel
  have hrange : (Direction.toward current SqrtPrice.lowest).amountOut 1180591620717411303424
      current SqrtPrice.lowest = .ok 16333553612205046246241981156724874149823 := by decide +kernel
  obtain ⟨found, hfound, toTarget, htoTarget, hquote⟩ :=
    swapStep_quote_costs_no_more hcurrent htarget 1180591620717411303424 hfee hgiven
  obtain rfl := Except.ok.inj (hstep.symm.trans hfound)
  obtain rfl := Except.ok.inj (hrange.symm.trans htoTarget)
  obtain ⟨asked, hasked, quoted, hquoted, hout, hcost, -, hpath⟩ :=
    hquote (by decide) (by decide)
  exact ⟨hstep, asked, hasked, quoted, hquoted, hout, hcost, hpath⟩

/-- An input paid in two parts releases at most what the whole does at once, and moves the price at most as far. On a way down this needs a denominator that is a word. -/
theorem swapStep_split_releases_no_more (hcurrent : current.Valid) (htarget : target.Valid)
    (liquidity : Liquidity) (hfee : fee.toNat < 10 ^ 6) {first second both : SignedWord}
    (hfirst : 0 ≤ first.toInt) (hsecond : 0 ≤ second.toInt)
    (hsum : both.toInt = first.toInt + second.toInt) :
    ∃ part, swapStep current target liquidity first fee = .ok part ∧
      ∃ rest, swapStep part.price target liquidity second fee = .ok rest ∧
        ∃ whole, swapStep current target liquidity both fee = .ok whole ∧
          (current < target ∨
              liquidity.toNat * 2 ^ 96 + fee.net both.toInt.toNat * current.toNat < 2 ^ 256 →
            part.amountOut.toNat + rest.amountOut.toNat ≤ whole.amountOut.toNat ∧
              SqrtPrice.OnPath current whole.price rest.price) := by
  obtain ⟨part, hpart⟩ := swapStep_ok hcurrent htarget liquidity first hfee
  have hpartSpends := spends_of_swapStep hfirst hpart
  obtain ⟨hleads, hwithin, -, -⟩ := hpartSpends.trades
  obtain ⟨rest, hrest⟩ := swapStep_ok ((hleads.onPath hwithin).valid hcurrent htarget) htarget
    liquidity second hfee
  -- The second part goes on in the direction of the first, also from a price that is the target.
  have hrestTrades := trades_of_swapStep hwithin hrest
  obtain ⟨whole, hwhole⟩ := swapStep_ok hcurrent htarget liquidity both hfee
  have hspends := spends_of_swapStep (by omega) hwhole
  refine ⟨part, hpart, rest, hrest, whole, hwhole, fun hprecise => ?_⟩
  have hboth := hleads.trans hrestTrades.leads
  have hpath := hboth.onPath hrestTrades.within
  have hvalid := hpath.valid hcurrent htarget
  obtain ⟨cost, hcost, -⟩ :=
    (Direction.toward current target).amountIn_ok liquidity hcurrent hvalid
  obtain ⟨between, hbetween, -⟩ :=
    (Direction.toward current target).amountOut_ok liquidity hcurrent hvalid
  obtain ⟨hpaid, hreleases⟩ := hpartSpends.trades.amounts_append hrestTrades hcost hbetween
  have hcovered : cost.toNat ≤ fee.net both.toInt.toNat := by
    calc
      cost.toNat ≤ part.amountIn.toNat + rest.amountIn.toNat := hpaid
      _ ≤ fee.net first.toInt.toNat + fee.net second.toInt.toNat :=
        Nat.add_le_add hpartSpends.covered (spends_of_swapStep hsecond hrest).covered
      _ ≤ fee.net (first.toInt.toNat + second.toInt.toNat) := fee.net_add_net_le _ _
      _ = fee.net both.toInt.toNat := by rw [hsum, Int.toNat_add hfirst hsecond]
  have hbeyond := hspends.furthest hprecise hpath hcost hcovered
  obtain ⟨-, hmore⟩ :=
    Direction.amounts_mono hboth hbeyond hcost hbetween hspends.trades.amountIn hspends.released
  exact ⟨hreleases.trans hmore, hboth.onPath hbeyond⟩

/-- An input in two parts, which releases two units less than the whole. -/
theorem swapStep_split_releases_two_less :
    let part : SwapStep :=
      { price := 74756243998286820019950510782, amountIn := 59820, amountOut := 56443, fee := 181 }
    let rest : SwapStep :=
      { price := 72045316504120070668013656771, amountIn := 39879, amountOut := 34216, fee := 120 }
    let whole : SwapStep :=
      { price := 72045250990510446115798809072, amountIn := 99700, amountOut := 90661, fee := 300 }
    swapStep SqrtPrice.one SqrtPrice.lowest 1000000 (Signed.ofInt 256 60001) 3000 = .ok part ∧
      swapStep part.price SqrtPrice.lowest 1000000 (Signed.ofInt 256 39999) 3000 = .ok rest ∧
      swapStep SqrtPrice.one SqrtPrice.lowest 1000000 (Signed.ofInt 256 100000) 3000 = .ok whole ∧
      part.amountOut.toNat + rest.amountOut.toNat ≤ whole.amountOut.toNat ∧
      SqrtPrice.OnPath SqrtPrice.one whole.price rest.price := by
  intro part rest whole
  have hcurrent : SqrtPrice.one.Valid := ⟨by decide, by decide⟩
  have htarget : SqrtPrice.lowest.Valid := ⟨by decide, by decide⟩
  have hfee : (3000 : FeePips).toNat < 10 ^ 6 := by decide
  have hfirst : 0 ≤ (Signed.ofInt 256 60001).toInt := by decide
  have hsecond : 0 ≤ (Signed.ofInt 256 39999).toInt := by decide
  have hboth : (Signed.ofInt 256 100000).toInt =
      (Signed.ofInt 256 60001).toInt + (Signed.ofInt 256 39999).toInt := by decide
  have hpart : swapStep SqrtPrice.one SqrtPrice.lowest 1000000 (Signed.ofInt 256 60001) 3000 =
      .ok part := by decide +kernel
  have hrest : swapStep part.price SqrtPrice.lowest 1000000 (Signed.ofInt 256 39999) 3000 =
      .ok rest := by decide +kernel
  have hwhole : swapStep SqrtPrice.one SqrtPrice.lowest 1000000 (Signed.ofInt 256 100000) 3000 =
      .ok whole := by decide +kernel
  obtain ⟨part', hpart', rest', hrest', whole', hwhole', hless⟩ :=
    swapStep_split_releases_no_more hcurrent htarget 1000000 hfee hfirst hsecond hboth
  obtain rfl := Except.ok.inj (hpart.symm.trans hpart')
  obtain rfl := Except.ok.inj (hrest.symm.trans hrest')
  obtain rfl := Except.ok.inj (hwhole.symm.trans hwhole')
  exact ⟨hpart, hrest, hwhole, hless (Or.inr (by decide +kernel))⟩

end

end ConcentratedLiquidity
