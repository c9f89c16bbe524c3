import ConcentratedLiquidity.Proofs.Swap.Reach

/-!
# What a step takes and gives

A step stays between its two prices, and its amounts are those of the range it moved over, whether or not they were found for the whole range first. A step with exact input never spends more than it was given, and one with exact output never releases more than it was asked for; where the step falls short of its target, it spends or releases all of it.
-/

namespace ConcentratedLiquidity

namespace FeePips

variable {fee : FeePips} {amount result : Word}

/-! ### Fees -/

theorem toNat_whole_sub (hfee : fee ≤ whole) :
    (whole.toWord - fee.toWord).toNat = 10 ^ 6 - fee.toNat := by
  rw [UInt32.le_iff_toNat_le, show whole.toNat = 10 ^ 6 from rfl] at hfee
  have hwhole : whole.toWord.toNat = 10 ^ 6 := by decide
  have htoNat : fee.toWord.toNat = fee.toNat := Nat.mod_eq_of_lt (by omega)
  rw [BitVec.toNat_sub_of_le (BitVec.le_def.2 (by omega)), hwhole, htoNat]

theorem deduct_eq_ok_iff (hfee : fee ≤ whole) :
    fee.deduct amount = .ok result ↔
      result.toNat = amount.toNat * (10 ^ 6 - fee.toNat) / 10 ^ 6 := by
  have hne : whole.toWord ≠ 0 := by decide
  rw [deduct, Word.mulDiv_eq_ok_iff, toNat_whole_sub hfee, and_iff_right hne,
    show whole.toWord.toNat = 10 ^ 6 from by decide]

theorem onTop_eq_ok_iff (hfee : fee ≤ whole) :
    fee.onTop amount = .ok result ↔
      fee.toNat < 10 ^ 6 ∧
        result.toNat = (amount.toNat * fee.toNat) ⌈/⌉ (10 ^ 6 - fee.toNat) := by
  have hlt := hfee
  rw [UInt32.le_iff_toNat_le, show whole.toNat = 10 ^ 6 from rfl] at hlt
  have htoNat : fee.toWord.toNat = fee.toNat := Nat.mod_eq_of_lt (by omega)
  have hne : whole.toWord - fee.toWord ≠ 0 ↔ fee.toNat < 10 ^ 6 := by
    rw [ne_eq, ← BitVec.toNat_inj, toNat_whole_sub hfee, show (0 : Word).toNat = 0 from rfl]
    omega
  rw [onTop, Word.mulDivUp_eq_ok_iff, hne, toNat_whole_sub hfee, htoNat]

theorem add_ceilDiv_le {spent given rate : Nat} (hrate : rate < 10 ^ 6)
    (hspent : spent ≤ given * (10 ^ 6 - rate) / 10 ^ 6) :
    spent + (spent * rate) ⌈/⌉ (10 ^ 6 - rate) ≤ given := by
  have hpos : 0 < 10 ^ 6 - rate := by omega
  rw [Nat.le_div_iff_mul_le (by decide)] at hspent
  have hsplit : spent * 10 ^ 6 = spent * rate + spent * (10 ^ 6 - rate) := by
    rw [← mul_add, Nat.add_sub_cancel' hrate.le]
  have hle : spent ≤ given := by
    refine Nat.le_of_mul_le_mul_right ?_ hpos
    omega
  have hfee : (spent * rate) ⌈/⌉ (10 ^ 6 - rate) ≤ given - spent := by
    rw [ceilDiv_le_iff_le_mul hpos, Nat.mul_sub, mul_comm _ given, mul_comm _ spent]
    omega
  omega

end FeePips

namespace SwapStep

variable {current target : SqrtPrice} {liquidity : Liquidity} {amount : Word} {fee : FeePips}
  {step : SwapStep}

/-! ### Finding every amount again -/

/-- A step with exact input in which no amount found for the whole range is used again. -/
def exactInputRecomputing (current target : SqrtPrice) (liquidity : Liquidity) (amount : Word)
    (fee : FeePips) : Except Error SwapStep := do
  let direction := Direction.toward current target
  let budget ← fee.deduct amount
  let inToTarget ← direction.amountIn liquidity current target
  let price ←
    if inToTarget ≤ budget then .ok target
    else SqrtPrice.afterInput direction current liquidity budget
  let amountIn ← direction.amountIn liquidity current price
  let amountOut ← direction.amountOut liquidity current price
  let feeTaken ← if price = target then fee.onTop amountIn else Word.subChecked amount amountIn
  .ok { price, amountIn, amountOut, fee := feeTaken }

def exactOutputRecomputing (current target : SqrtPrice) (liquidity : Liquidity) (amount : Word)
    (fee : FeePips) : Except Error SwapStep := do
  let direction := Direction.toward current target
  let outToTarget ← direction.amountOut liquidity current target
  let price ←
    if outToTarget ≤ amount then .ok target
    else SqrtPrice.afterOutput direction current liquidity amount
  let amountIn ← direction.amountIn liquidity current price
  let released ← direction.amountOut liquidity current price
  let feeTaken ← fee.onTop amountIn
  .ok { price, amountIn, amountOut := if amount < released then amount else released,
        fee := feeTaken }

/-- Where the step ends at the target, the amount for the whole range is the one that would be found again. -/
theorem reused_eq {price : SqrtPrice} {toTarget : Word} {find : SqrtPrice → Except Error Word}
    (htarget : find target = .ok toTarget) :
    (if price = target then .ok toTarget else find price) = find price := by
  by_cases hreached : price = target
  · rw [if_pos hreached, hreached, htarget]
  · rw [if_neg hreached]

theorem exactInputRecomputing_eq :
    exactInputRecomputing current target liquidity amount fee =
      exactInput current target liquidity amount fee := by
  rw [exactInputRecomputing, exactInput]
  refine bind_congr fun budget => ?_
  rcases htarget : (Direction.toward current target).amountIn liquidity current target with
    cause | inToTarget
  · rfl
  · rw [ok_bind, ok_bind]
    simp only [ite_bind, reused_eq htarget]

theorem exactOutputRecomputing_eq :
    exactOutputRecomputing current target liquidity amount fee =
      exactOutput current target liquidity amount fee := by
  rw [exactOutputRecomputing, exactOutput]
  rcases htarget : (Direction.toward current target).amountOut liquidity current target with
    cause | outToTarget
  · rfl
  · rw [ok_bind, ok_bind]
    simp only [ite_bind, reused_eq htarget]

/-! ### The parts of a step -/

theorem exactInput_parts (h : exactInput current target liquidity amount fee = .ok step) :
    ∃ budget inToTarget,
      fee.deduct amount = .ok budget ∧
      (Direction.toward current target).amountIn liquidity current target = .ok inToTarget ∧
      (if inToTarget ≤ budget then Except.ok target
        else SqrtPrice.afterInput (Direction.toward current target) current liquidity budget) =
          .ok step.price ∧
      (Direction.toward current target).amountIn liquidity current step.price = .ok step.amountIn ∧
      (Direction.toward current target).amountOut liquidity current step.price =
        .ok step.amountOut ∧
      (if step.price = target then fee.onTop step.amountIn
        else Word.subChecked amount step.amountIn) = .ok step.fee := by
  rw [← exactInputRecomputing_eq] at h
  simp only [exactInputRecomputing, ite_bind, bind_eq_ok_iff] at h
  obtain ⟨budget, hbudget, inToTarget, htarget, price, hprice, amountIn, hin, amountOut, hout,
    taken, htaken, hstep⟩ := h
  cases hstep
  exact ⟨budget, inToTarget, hbudget, htarget, hprice, hin, hout, htaken⟩

theorem exactOutput_parts (h : exactOutput current target liquidity amount fee = .ok step) :
    ∃ outToTarget released,
      (Direction.toward current target).amountOut liquidity current target = .ok outToTarget ∧
      (if outToTarget ≤ amount then Except.ok target
        else SqrtPrice.afterOutput (Direction.toward current target) current liquidity amount) =
          .ok step.price ∧
      (Direction.toward current target).amountIn liquidity current step.price = .ok step.amountIn ∧
      (Direction.toward current target).amountOut liquidity current step.price = .ok released ∧
      step.amountOut = (if amount < released then amount else released) ∧
      fee.onTop step.amountIn = .ok step.fee := by
  rw [← exactOutputRecomputing_eq] at h
  simp only [exactOutputRecomputing, ite_bind, bind_eq_ok_iff] at h
  obtain ⟨outToTarget, htarget, price, hprice, amountIn, hin, released, hreleased, taken, htaken,
    hstep⟩ := h
  cases hstep
  exact ⟨outToTarget, released, htarget, hprice, hin, hreleased, rfl, htaken⟩

/-! ### Where a step ends -/

/-- The price that an amount moves to lies on the way to the target, and is the target exactly if the amount covers the whole range. The amount covers the range up to that price. -/
theorem inputPrice_inside {amount toTarget : Word} {price : SqrtPrice}
    (htarget : (Direction.toward current target).amountIn liquidity current target = .ok toTarget)
    (hprice : (if toTarget ≤ amount then Except.ok target
      else SqrtPrice.afterInput (Direction.toward current target) current liquidity amount) =
        .ok price) :
    SqrtPrice.OnPath current target price ∧ (price = target ↔ toTarget ≤ amount) ∧
      ∀ spent, (Direction.toward current target).amountIn liquidity current price = .ok spent →
        spent ≤ amount := by
  by_cases hreached : toTarget ≤ amount
  · rw [if_pos hreached, Except.ok.injEq] at hprice
    rw [← hprice]
    refine ⟨SqrtPrice.onPath_target current target, iff_of_true rfl hreached, fun spent hspent => ?_⟩
    rw [htarget, Except.ok.injEq] at hspent
    rw [← hspent]
    exact hreached
  rw [if_neg hreached] at hprice
  have hshort := BitVec.not_le.1 hreached
  by_cases hle : target ≤ current
  · rw [Direction.toward_of_le hle] at htarget hprice ⊢
    obtain ⟨habove, hbelow, hpaid⟩ := SqrtPrice.afterInput_down_inside hle htarget hshort hprice
    refine ⟨?_, iff_of_false ?_ hreached, hpaid⟩
    · rw [SqrtPrice.OnPath, if_pos hle]
      exact ⟨BitVec.le_of_lt habove, hbelow⟩
    · rintro rfl
      exact BitVec.lt_irrefl price habove
  · have hlt := BitVec.not_le.1 hle
    rw [Direction.toward_of_lt hlt] at htarget hprice ⊢
    obtain ⟨habove, hbelow, hpaid⟩ :=
      SqrtPrice.afterInput_up_inside (BitVec.le_of_lt hlt) htarget hshort hprice
    refine ⟨?_, iff_of_false ?_ hreached, hpaid⟩
    · rw [SqrtPrice.OnPath, if_neg hle]
      exact ⟨habove, BitVec.le_of_lt hbelow⟩
    · rintro rfl
      exact BitVec.lt_irrefl price hbelow

theorem outputPrice_inside {amount toTarget : Word} {price : SqrtPrice}
    (htarget : (Direction.toward current target).amountOut liquidity current target = .ok toTarget)
    (hprice : (if toTarget ≤ amount then Except.ok target
      else SqrtPrice.afterOutput (Direction.toward current target) current liquidity amount) =
        .ok price) :
    SqrtPrice.OnPath current target price := by
  by_cases hreached : toTarget ≤ amount
  · rw [if_pos hreached, Except.ok.injEq] at hprice
    rw [← hprice]
    exact SqrtPrice.onPath_target current target
  rw [if_neg hreached] at hprice
  have hshort := BitVec.not_le.1 hreached
  by_cases hle : target ≤ current
  · rw [Direction.toward_of_le hle] at htarget hprice
    rw [SqrtPrice.OnPath, if_pos hle]
    exact SqrtPrice.afterOutput_down_inside hle htarget hshort hprice
  · have hlt := BitVec.not_le.1 hle
    rw [Direction.toward_of_lt hlt] at htarget hprice
    rw [SqrtPrice.OnPath, if_neg hle]
    exact SqrtPrice.afterOutput_up_inside (BitVec.le_of_lt hlt) htarget hshort hprice

theorem exactInput_inside (h : exactInput current target liquidity amount fee = .ok step) :
    SqrtPrice.OnPath current target step.price ∧
      ∃ budget, fee.deduct amount = .ok budget ∧ step.amountIn ≤ budget := by
  obtain ⟨budget, inToTarget, hbudget, htarget, hprice, hin, _, _⟩ := exactInput_parts h
  obtain ⟨hpath, _, hpaid⟩ := inputPrice_inside htarget hprice
  exact ⟨hpath, budget, hbudget, hpaid _ hin⟩

theorem exactOutput_inside (h : exactOutput current target liquidity amount fee = .ok step) :
    SqrtPrice.OnPath current target step.price := by
  obtain ⟨_, _, htarget, hprice, _⟩ := exactOutput_parts h
  exact outputPrice_inside htarget hprice

/-! ### What exact input takes -/

theorem exactInput_paid_le (hfee : fee ≤ FeePips.whole)
    (h : exactInput current target liquidity amount fee = .ok step) :
    step.amountIn.toNat + step.fee.toNat ≤ amount.toNat := by
  obtain ⟨-, budget, hbudget, hcovered⟩ := exactInput_inside h
  obtain ⟨-, -, -, -, -, -, -, htaken⟩ := exactInput_parts h
  split at htaken
  · obtain ⟨hrate, hvalue⟩ := (FeePips.onTop_eq_ok_iff hfee).1 htaken
    rw [BitVec.le_def, (FeePips.deduct_eq_ok_iff hfee).1 hbudget] at hcovered
    rw [hvalue]
    exact FeePips.add_ceilDiv_le hrate hcovered
  · rw [Word.subChecked_eq_ok_iff] at htaken
    omega

theorem exactInput_paid_eq (h : exactInput current target liquidity amount fee = .ok step)
    (hshort : step.price ≠ target) : step.amountIn.toNat + step.fee.toNat = amount.toNat := by
  obtain ⟨-, -, -, -, -, -, -, htaken⟩ := exactInput_parts h
  rw [if_neg hshort, Word.subChecked_eq_ok_iff] at htaken
  omega

/-! ### What exact output releases -/

theorem exactOutput_amountOut_le (h : exactOutput current target liquidity amount fee = .ok step) :
    step.amountOut ≤ amount := by
  obtain ⟨_, released, _, _, _, _, hout, _⟩ := exactOutput_parts h
  rw [hout]
  split
  · exact BitVec.le_refl amount
  · rename_i hcapped
    exact BitVec.not_lt.1 hcapped

theorem exactOutput_amountOut_eq (h : exactOutput current target liquidity amount fee = .ok step)
    (hshort : step.price ≠ target) : step.amountOut = amount := by
  obtain ⟨outToTarget, released, _, hprice, _, hreleased, hout, _⟩ := exactOutput_parts h
  have hpartial : ¬ outToTarget ≤ amount := by
    intro hreached
    rw [if_pos hreached, Except.ok.injEq] at hprice
    exact hshort hprice.symm
  rw [if_neg hpartial] at hprice
  have hle : amount ≤ released := by
    cases hdirection : Direction.toward current target with
    | down =>
      rw [hdirection] at hprice hreleased
      exact SqrtPrice.afterOutput_down_releases hprice hreleased
    | up =>
      rw [hdirection] at hprice hreleased
      exact SqrtPrice.afterOutput_up_releases hprice hreleased
  rw [hout]
  split
  · rfl
  · rename_i hcapped
    exact BitVec.le_antisymm (BitVec.not_lt.1 hcapped) hle

end SwapStep

/-! ### Steps for a signed amount -/

section

variable {current target : SqrtPrice} {liquidity : Liquidity} {remaining : SignedWord}
  {fee : FeePips} {step : SwapStep}

theorem fee_le_whole_of_swapStep (h : swapStep current target liquidity remaining fee = .ok step) :
    fee ≤ FeePips.whole := by
  rw [swapStep, error_else_eq_ok_iff] at h
  exact UInt32.not_lt.1 h.1

theorem swapStep_of_nonneg (hremaining : 0 ≤ remaining.toInt)
    (h : swapStep current target liquidity remaining fee = .ok step) :
    SwapStep.exactInput current target liquidity remaining.magnitude fee = .ok step := by
  rw [swapStep, error_else_eq_ok_iff, if_neg (by rw [Signed.isNegative_iff]; omega)] at h
  exact h.2

theorem swapStep_of_neg (hremaining : remaining.toInt < 0)
    (h : swapStep current target liquidity remaining fee = .ok step) :
    SwapStep.exactOutput current target liquidity remaining.magnitude fee = .ok step := by
  rw [swapStep, error_else_eq_ok_iff, if_pos (Signed.isNegative_iff.2 hremaining)] at h
  exact h.2

theorem swapStep_onPath (h : swapStep current target liquidity remaining fee = .ok step) :
    SqrtPrice.OnPath current target step.price := by
  by_cases hremaining : 0 ≤ remaining.toInt
  · exact (SwapStep.exactInput_inside (swapStep_of_nonneg hremaining h)).1
  · exact SwapStep.exactOutput_inside (swapStep_of_neg (Int.not_le.1 hremaining) h)

def swapStepRecomputing (current target : SqrtPrice) (liquidity : Liquidity) (remaining : SignedWord)
    (fee : FeePips) : Except Error SwapStep :=
  if FeePips.whole < fee then
    .error .feeOutOfBounds
  else if remaining.isNegative then
    SwapStep.exactOutputRecomputing current target liquidity remaining.magnitude fee
  else
    SwapStep.exactInputRecomputing current target liquidity remaining.magnitude fee

theorem swapStepRecomputing_eq :
    swapStepRecomputing current target liquidity remaining fee =
      swapStep current target liquidity remaining fee := by
  rw [swapStepRecomputing, swapStep, SwapStep.exactOutputRecomputing_eq,
    SwapStep.exactInputRecomputing_eq]

/-- A step with exact input takes no more than the amount given, and all of it where it ends short of its target. The fee is at least the rounded-up fee on top of the amount paid in, and exactly that where the target is reached. -/
theorem swapStep_exactInput_budget (hremaining : 0 ≤ remaining.toInt)
    (h : swapStep current target liquidity remaining fee = .ok step) :
    (step.amountIn.toNat + step.fee.toNat : Int) ≤ remaining.toInt ∧
      (step.price ≠ target → (step.amountIn.toNat + step.fee.toNat : Int) = remaining.toInt) ∧
      (fee.toNat < 10 ^ 6 →
        (step.amountIn.toNat * fee.toNat) ⌈/⌉ (10 ^ 6 - fee.toNat) ≤ step.fee.toNat ∧
        (step.price = target →
          step.fee.toNat = (step.amountIn.toNat * fee.toNat) ⌈/⌉ (10 ^ 6 - fee.toNat))) := by
  have hfee := fee_le_whole_of_swapStep h
  have hgiven : (remaining.magnitude.toNat : Int) = remaining.toInt := by
    rw [remaining.toNat_magnitude, Int.natAbs_of_nonneg hremaining]
  replace h := swapStep_of_nonneg hremaining h
  obtain ⟨_, budget, hbudget, hcovered⟩ := SwapStep.exactInput_inside h
  obtain ⟨_, _, _, _, _, _, _, htaken⟩ := SwapStep.exactInput_parts h
  rw [BitVec.le_def, (FeePips.deduct_eq_ok_iff hfee).1 hbudget] at hcovered
  rw [← hgiven]
  by_cases hreached : step.price = target
  · rw [if_pos hreached, FeePips.onTop_eq_ok_iff hfee] at htaken
    obtain ⟨hrate, htaken⟩ := htaken
    have hsum := FeePips.add_ceilDiv_le hrate hcovered
    rw [← htaken] at hsum
    exact ⟨by omega, fun hshort => absurd hreached hshort, fun _ => ⟨htaken.ge, fun _ => htaken⟩⟩
  · rw [if_neg hreached, Word.subChecked_eq_ok_iff] at htaken
    refine ⟨by omega, fun _ => by omega, fun hrate => ⟨?_, fun htarget => absurd htarget hreached⟩⟩
    have hsum := FeePips.add_ceilDiv_le hrate hcovered
    omega

/-- An input that is used up before the target, with a fee that is the rest of it. -/
theorem swapStep_spends_all_before_target :
    let given : SignedWord := Signed.ofInt 256 1000000000000000000
    let step : SwapStep :=
      { price := 0x17fec56d5cfaacd9e83e425ae, amountIn := 999400000000000000,
        amountOut := 666399946655997866, fee := 600000000000000 }
    0 ≤ given.toInt ∧
      swapStep SqrtPrice.one 250541448375047931186413801569 2000000000000000000 given 600 =
        .ok step ∧
      (step.amountIn.toNat + step.fee.toNat : Int) = given.toInt ∧
      (step.amountIn.toNat * 600) ⌈/⌉ (10 ^ 6 - 600) ≤ step.fee.toNat := by
  intro given step
  have hgiven : 0 ≤ given.toInt := by decide
  have hstep : swapStep SqrtPrice.one 250541448375047931186413801569 2000000000000000000 given 600 =
      .ok step := by decide +kernel
  obtain ⟨_, hspent, hfee⟩ := swapStep_exactInput_budget hgiven hstep
  exact ⟨hgiven, hstep, hspent (by decide), (hfee (by decide)).1⟩

/-- A step stays between its two prices, and its amounts are those over the range from the first price to the one it ends at. The amount in is rounded up; the amount out is rounded down, and with exact output is not above the amount asked for. Finding them all again gives the same step. -/
theorem swapStep_consistent (h : swapStep current target liquidity remaining fee = .ok step) :
    SqrtPrice.OnPath current target step.price ∧
      swapStepRecomputing current target liquidity remaining fee = .ok step ∧
      (Direction.toward current target).amountIn liquidity current step.price =
        .ok step.amountIn ∧
      ∃ released,
        (Direction.toward current target).amountOut liquidity current step.price = .ok released ∧
        (step.amountOut.toNat : Int) =
          if 0 ≤ remaining.toInt then (released.toNat : Int)
          else min (released.toNat : Int) |remaining.toInt| := by
  have hagain := swapStepRecomputing_eq.trans h
  by_cases hremaining : 0 ≤ remaining.toInt
  · replace h := swapStep_of_nonneg hremaining h
    obtain ⟨_, _, _, _, _, hin, hout, _⟩ := SwapStep.exactInput_parts h
    refine ⟨(SwapStep.exactInput_inside h).1, hagain, hin, _, hout, ?_⟩
    rw [if_pos hremaining]
  · have hmagnitude := remaining.toNat_magnitude
    replace h := swapStep_of_neg (Int.not_le.1 hremaining) h
    obtain ⟨_, released, _, _, hin, hreleased, hout, _⟩ := SwapStep.exactOutput_parts h
    refine ⟨SwapStep.exactOutput_inside h, hagain, hin, released, hreleased, ?_⟩
    rw [if_neg hremaining, hout, Int.abs_eq_natAbs, ← hmagnitude]
    split
    · rename_i hcapped
      rw [BitVec.lt_def] at hcapped
      omega
    · rename_i hcapped
      rw [BitVec.not_lt, BitVec.le_def] at hcapped
      omega

/-- A step down by one unit of the price, which would release more than the one unit of token 1 asked for. -/
theorem swapStep_keeps_what_rounding_releases :
    let step : SwapStep :=
      { price := 417332158212080721273783715441581, amountIn := 1, amountOut := 1, fee := 1 }
    swapStep 417332158212080721273783715441582 1452870262520218020823638996
        159344665391607089467575320103 (Signed.ofInt 256 (-1)) 1 = .ok step ∧
      SqrtPrice.OnPath 417332158212080721273783715441582 1452870262520218020823638996 step.price ∧
      ∃ released,
        Direction.down.amountOut 159344665391607089467575320103 417332158212080721273783715441582
          step.price = .ok released ∧
        (step.amountOut.toNat : Int) = min (released.toNat : Int) 1 := by
  intro step
  have hstep : swapStep 417332158212080721273783715441582 1452870262520218020823638996
      159344665391607089467575320103 (Signed.ofInt 256 (-1)) 1 = .ok step := by decide +kernel
  obtain ⟨hpath, _, _, released, hreleased, hout⟩ := swapStep_consistent hstep
  exact ⟨hstep, hpath, released, hreleased, hout⟩

/-- A step with exact output releases no more than the amount asked for, and all of it where it ends short of its target. The fee is the rounded-up fee on top of the amount paid in, whose rate is then below the whole. -/
theorem swapStep_exactOutput_releases (hremaining : remaining.toInt < 0)
    (h : swapStep current target liquidity remaining fee = .ok step) :
    (step.amountOut.toNat : Int) ≤ |remaining.toInt| ∧
      (step.price ≠ target → (step.amountOut.toNat : Int) = |remaining.toInt|) ∧
      fee.toNat < 10 ^ 6 ∧
      step.fee.toNat = (step.amountIn.toNat * fee.toNat) ⌈/⌉ (10 ^ 6 - fee.toNat) := by
  have hfee := fee_le_whole_of_swapStep h
  have hasked : (remaining.magnitude.toNat : Int) = |remaining.toInt| := by
    rw [remaining.toNat_magnitude, Int.abs_eq_natAbs]
  replace h := swapStep_of_neg hremaining h
  obtain ⟨_, _, _, _, _, _, _, htaken⟩ := SwapStep.exactOutput_parts h
  rw [← hasked]
  refine ⟨?_, fun hshort => ?_, (FeePips.onTop_eq_ok_iff hfee).1 htaken⟩
  · exact Int.ofNat_le.2 (SwapStep.exactOutput_amountOut_le h)
  · rw [SwapStep.exactOutput_amountOut_eq h hshort]

/-- An output that is released before the target, at twice the square-root price. -/
theorem swapStep_releases_all_before_target :
    let asked : SignedWord := Signed.ofInt 256 (-1000000000000000000)
    let step : SwapStep :=
      { price := 158456325028528675187087900672, amountIn := 2000000000000000000,
        amountOut := 1000000000000000000, fee := 1200720432259356 }
    asked.toInt < 0 ∧
      swapStep SqrtPrice.one 792281625142643375935439503360 2000000000000000000 asked 600 =
        .ok step ∧
      (step.amountOut.toNat : Int) = |asked.toInt| ∧
      step.fee.toNat = (step.amountIn.toNat * 600) ⌈/⌉ (10 ^ 6 - 600) := by
  intro asked step
  have hasked : asked.toInt < 0 := by decide
  have hstep : swapStep SqrtPrice.one 792281625142643375935439503360 2000000000000000000 asked 600 =
      .ok step := by decide +kernel
  obtain ⟨_, hreleased, _, hfee⟩ := swapStep_exactOutput_releases hasked hstep
  exact ⟨hasked, hstep, hreleased (by decide), hfee⟩

end

end ConcentratedLiquidity
