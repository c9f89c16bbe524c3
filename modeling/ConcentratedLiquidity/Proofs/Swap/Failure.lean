import ConcentratedLiquidity.Proofs.Swap.Step

/-!
# When a step fails

Between two prices that a pool can hold, nothing that a step computes is too large, too small or divided by zero, up to the fee. Every call is safe because of the test that led to it: an input is turned into a price only where it falls short of the whole range, and an output only where the range holds more than it. What is left are a fee rate above the whole, and a fee on top of an amount at a rate that leaves nothing of it.
-/

namespace ConcentratedLiquidity

variable {liquidity : Liquidity} {current target : SqrtPrice} {fee : FeePips}

theorem SqrtPrice.OnPath.valid {price : SqrtPrice} (h : SqrtPrice.OnPath current target price)
    (hcurrent : current.Valid) (htarget : target.Valid) : price.Valid := by
  rw [OnPath] at h
  split at h
  · exact ⟨htarget.pos.trans h.1, le_trans h.2 hcurrent.le⟩
  · exact ⟨hcurrent.pos.trans h.1, le_trans h.2 htarget.le⟩

namespace Direction

/-! ### Amounts over a range -/

theorem amountIn_ok (direction : Direction) (liquidity : Liquidity) (hcurrent : current.Valid)
    (htarget : target.Valid) :
    ∃ amount, direction.amountIn liquidity current target = .ok amount ∧ amount.toNat < 2 ^ 224 := by
  cases direction with
  | down => exact Liquidity.token0Between_ok hcurrent htarget
  | up => exact Liquidity.token1Between_ok hcurrent htarget

theorem amountOut_ok (direction : Direction) (liquidity : Liquidity) (hcurrent : current.Valid)
    (htarget : target.Valid) :
    ∃ amount, direction.amountOut liquidity current target = .ok amount ∧
      amount.toNat < 2 ^ 224 := by
  cases direction with
  | down => exact Liquidity.token1Between_ok hcurrent htarget
  | up => exact Liquidity.token0Between_ok hcurrent htarget

theorem amountIn_eq_zero_iff {amount : Word}
    (h : (toward current target).amountIn liquidity current target = .ok amount) :
    amount.toNat = 0 ↔ liquidity = 0 ∨ current = target := by
  have hscaled := liquidity.toNat_scaled
  rw [← Nat.le_zero, ← BitVec.toNat_inj, ← BitVec.toNat_inj, show (0 : Liquidity).toNat = 0 from rfl]
  by_cases hle : target ≤ current
  · rw [toward_of_le hle] at h
    rw [amountIn_down_le_iff hle h, zero_mul, add_zero, hscaled]
    rcases Nat.eq_zero_or_pos liquidity.toNat with hzero | hpos
    · simp [hzero]
    · have hle' := BitVec.le_def.1 hle
      rw [Nat.mul_le_mul_left_iff (by omega)]
      omega
  · have hlt := BitVec.lt_def.1 (BitVec.not_le.1 hle)
    rw [toward_of_lt (BitVec.not_le.1 hle)] at h
    rw [amountIn_up_le_iff (BitVec.le_of_lt (BitVec.not_le.1 hle)) h, zero_mul, Nat.le_zero,
      Nat.mul_eq_zero]
    omega

end Direction

namespace SqrtPrice

variable {amount toTarget : Word}

/-! ### Prices short of the target -/

theorem afterInput_down_ok (hcurrent : current.Valid) (hliquidity : liquidity ≠ 0)
    (hamount : amount.toNat < 2 ^ 224) :
    ∃ price, afterInput .down current liquidity amount = .ok price := by
  have hquotient := Nat.div_le_self liquidity.scaled.toNat current.toNat
  have hscaled := liquidity.scaled_lt
  simp only [afterInput_eq_ok_iff, exists_and_left]
  exact ⟨hcurrent.ne_zero, hliquidity, afterToken0In_ok hcurrent hliquidity (by omega)⟩

theorem afterInput_up_ok (hcurrent : current.Valid) (htarget : target.Valid)
    (hliquidity : liquidity ≠ 0) (hle : current ≤ target)
    (hin : Direction.up.amountIn liquidity current target = .ok toTarget)
    (hshort : amount < toTarget) :
    ∃ price, afterInput .up current liquidity amount = .ok price := by
  have hrange : amount.toNat * 2 ^ 96 ≤ liquidity.toNat * (target.toNat - current.toNat) := by
    refine (lt_of_not_ge fun hpaid => ?_).le
    exact Nat.not_le.2 hshort ((Direction.amountIn_up_le_iff hle hin).2 hpaid)
  have hrise : amount.toNat * 2 ^ 96 / liquidity.toNat ≤ target.toNat - current.toNat :=
    Nat.div_le_of_le_mul hrange
  have hlargest := htarget.le
  rw [BitVec.le_def] at hle
  simp only [afterInput_eq_ok_iff, exists_and_left]
  exact ⟨hcurrent.ne_zero, hliquidity, afterToken1In_ok hliquidity (by omega)⟩

theorem afterInput_ok (hcurrent : current.Valid) (htarget : target.Valid)
    (hin : (Direction.toward current target).amountIn liquidity current target = .ok toTarget)
    (hshort : amount < toTarget) :
    ∃ price, afterInput (Direction.toward current target) current liquidity amount = .ok price := by
  have hlt := BitVec.lt_def.1 hshort
  have hliquidity : liquidity ≠ 0 := by
    intro hzero
    have htoTarget := (Direction.amountIn_eq_zero_iff hin).2 (Or.inl hzero)
    omega
  by_cases hle : target ≤ current
  · obtain ⟨word, hword, hsmall⟩ :=
      (Direction.toward current target).amountIn_ok liquidity hcurrent htarget
    rw [hin, Except.ok.injEq] at hword
    rw [← hword] at hsmall
    rw [Direction.toward_of_le hle]
    exact afterInput_down_ok hcurrent hliquidity (hlt.trans hsmall)
  · have hup := BitVec.not_le.1 hle
    rw [Direction.toward_of_lt hup] at hin ⊢
    exact afterInput_up_ok hcurrent htarget hliquidity (BitVec.le_of_lt hup) hin hshort

theorem afterOutput_down_ok_of_le (hcurrent : current.Valid) (htarget : target.Valid)
    (hliquidity : liquidity ≠ 0) (hle : target ≤ current)
    (hout : Direction.down.amountOut liquidity current target = .ok toTarget)
    (hreleased : amount ≤ toTarget) :
    ∃ price, afterOutput .down current liquidity amount = .ok price := by
  have hpositive := htarget.pos
  have hheld := (Direction.le_amountOut_down_iff hle hout).1 (BitVec.le_def.1 hreleased)
  have hfall := ceilDiv_le_of_le_mul hheld
  rw [BitVec.le_def] at hle
  simp only [afterOutput_eq_ok_iff, exists_and_left]
  exact ⟨hcurrent.ne_zero, hliquidity, afterToken1Out_ok hcurrent hliquidity (by omega)⟩

theorem afterOutput_up_ok_of_le (hcurrent : current.Valid) (htarget : target.Valid)
    (hliquidity : liquidity ≠ 0) (hle : current ≤ target)
    (hout : Direction.up.amountOut liquidity current target = .ok toTarget)
    (hreleased : amount ≤ toTarget) :
    ∃ price, afterOutput .up current liquidity amount = .ok price := by
  have hheld := (Direction.le_amountOut_up_iff hle hout).1 (BitVec.le_def.1 hreleased)
  -- The range is shorter than its upper price, so what it holds is less than the reserves.
  have hreserves : amount.toNat * current.toNat < liquidity.scaled.toNat := by
    refine Nat.lt_of_mul_lt_mul_right (a := target.toNat) (lt_of_le_of_lt ?_
      (Nat.mul_lt_mul_of_pos_left (Nat.sub_lt htarget.pos hcurrent.pos)
        (liquidity.scaled_pos hliquidity)))
    rw [mul_assoc, mul_comm current.toNat]
    exact hheld
  rw [BitVec.le_def] at hle
  simp only [afterOutput_eq_ok_iff, exists_and_left]
  exact ⟨hcurrent.ne_zero, hliquidity,
    afterToken0Out_ok hreserves ((rise_le_of_held hle hheld).trans htarget.le)⟩

theorem ne_zero_of_lt_amountOut (hcurrent : current.Valid) (htarget : target.Valid)
    (hout : (Direction.toward current target).amountOut liquidity current target = .ok toTarget)
    (hsome : amount < toTarget) : liquidity ≠ 0 := by
  have hone : 1 ≤ toTarget.toNat := Nat.one_le_of_lt (BitVec.lt_def.1 hsome)
  rintro rfl
  by_cases hle : target ≤ current
  · rw [Direction.toward_of_le hle] at hout
    simpa using (Direction.le_amountOut_down_iff hle hout).1 hone
  · have hup := BitVec.not_le.1 hle
    rw [Direction.toward_of_lt hup] at hout
    have hheld := (Direction.le_amountOut_up_iff (BitVec.le_of_lt hup) hout).1 hone
    have hproduct := Nat.mul_pos htarget.pos hcurrent.pos
    rw [Liquidity.toNat_scaled, show (0 : Liquidity).toNat = 0 from rfl] at hheld
    omega

theorem afterOutput_ok (hcurrent : current.Valid) (htarget : target.Valid)
    (hout : (Direction.toward current target).amountOut liquidity current target = .ok toTarget)
    (hshort : amount < toTarget) :
    ∃ price, afterOutput (Direction.toward current target) current liquidity amount = .ok price := by
  have hliquidity := ne_zero_of_lt_amountOut hcurrent htarget hout hshort
  by_cases hle : target ≤ current
  · rw [Direction.toward_of_le hle] at hout ⊢
    exact afterOutput_down_ok_of_le hcurrent htarget hliquidity hle hout (BitVec.le_of_lt hshort)
  · have hup := BitVec.not_le.1 hle
    rw [Direction.toward_of_lt hup] at hout ⊢
    exact afterOutput_up_ok_of_le hcurrent htarget hliquidity (BitVec.le_of_lt hup) hout
      (BitVec.le_of_lt hshort)

end SqrtPrice

namespace FeePips

variable {amount budget spent : Word}

/-! ### Fees -/

theorem mul_rest_div_le (amount rate : Nat) : amount * (10 ^ 6 - rate) / 10 ^ 6 ≤ amount := by
  apply Nat.div_le_of_le_mul
  rw [mul_comm]
  exact Nat.mul_le_mul_right _ (Nat.sub_le _ _)

theorem deduct_ok (amount : Word) (hfee : fee ≤ whole) : ∃ budget, fee.deduct amount = .ok budget := by
  obtain ⟨budget, -, hvalue⟩ :=
    Word.exists_ofNatChecked_eq_ok (lt_of_le_of_lt (mul_rest_div_le _ fee.toNat) amount.isLt)
  exact ⟨budget, (deduct_eq_ok_iff hfee).2 hvalue⟩

theorem deduct_le (hfee : fee ≤ whole) (hbudget : fee.deduct amount = .ok budget) :
    budget ≤ amount := by
  rw [BitVec.le_def, (deduct_eq_ok_iff hfee).1 hbudget]
  exact mul_rest_div_le _ _

theorem deduct_whole (hfee : fee.toNat = 10 ^ 6) (hbudget : fee.deduct amount = .ok budget) :
    budget.toNat = 0 := by
  rw [(deduct_eq_ok_iff (UInt32.le_iff_toNat_le.2 hfee.le)).1 hbudget, hfee, Nat.sub_self, mul_zero,
    Nat.zero_div]

theorem onTop_ok {amount : Word} (hfee : fee.toNat < 10 ^ 6)
    (htaken : (amount.toNat * fee.toNat) ⌈/⌉ (10 ^ 6 - fee.toNat) < 2 ^ 256) :
    ∃ taken, fee.onTop amount = .ok taken := by
  have hle : fee ≤ whole := UInt32.le_iff_toNat_le.2 hfee.le
  obtain ⟨taken, -, hvalue⟩ := Word.exists_ofNatChecked_eq_ok htaken
  exact ⟨taken, (onTop_eq_ok_iff hle).2 ⟨hfee, hvalue⟩⟩

theorem onTop_ok_of_le_deduct (hfee : fee.toNat < 10 ^ 6) (hbudget : fee.deduct amount = .ok budget)
    (hspent : spent ≤ budget) : ∃ taken, fee.onTop spent = .ok taken := by
  rw [BitVec.le_def, (deduct_eq_ok_iff (UInt32.le_iff_toNat_le.2 hfee.le)).1 hbudget] at hspent
  have hsum := add_ceilDiv_le hfee hspent
  exact onTop_ok hfee (lt_of_le_of_lt ((Nat.le_add_left _ _).trans hsum) amount.isLt)

theorem onTop_whole (amount : Word) (hfee : fee.toNat = 10 ^ 6) :
    fee.onTop amount = .error .divisionByZero := by
  obtain rfl : fee = whole := UInt32.toNat_inj.1 hfee
  rfl

end FeePips

namespace SwapStep

variable {toTarget : Word}

/-! ### Steps -/

theorem inputPrice_ok (amount : Word) (hcurrent : current.Valid) (htarget : target.Valid)
    (hin : (Direction.toward current target).amountIn liquidity current target = .ok toTarget) :
    ∃ price, (if toTarget ≤ amount then Except.ok target
      else SqrtPrice.afterInput (Direction.toward current target) current liquidity amount) =
        .ok price := by
  split
  · exact ⟨target, rfl⟩
  · rename_i hshort
    exact SqrtPrice.afterInput_ok hcurrent htarget hin (BitVec.not_le.1 hshort)

theorem outputPrice_ok (amount : Word) (hcurrent : current.Valid) (htarget : target.Valid)
    (hout : (Direction.toward current target).amountOut liquidity current target = .ok toTarget) :
    ∃ price, (if toTarget ≤ amount then Except.ok target
      else SqrtPrice.afterOutput (Direction.toward current target) current liquidity amount) =
        .ok price := by
  split
  · exact ⟨target, rfl⟩
  · rename_i hshort
    exact SqrtPrice.afterOutput_ok hcurrent htarget hout (BitVec.not_le.1 hshort)

/-- With exact input only the fee on top can fail, and there is one exactly where the target is reached. -/
theorem exactInput_fails_only_for_fee (liquidity : Liquidity) (amount : Word)
    (hcurrent : current.Valid) (htarget : target.Valid) (hfee : fee.toNat ≤ 10 ^ 6) :
    if fee.toNat = 10 ^ 6 ∧ (liquidity = 0 ∨ current = target) then
      exactInput current target liquidity amount fee = .error .divisionByZero
    else
      ∃ step, exactInput current target liquidity amount fee = .ok step := by
  have hwhole : fee ≤ FeePips.whole := UInt32.le_iff_toNat_le.2 hfee
  obtain ⟨budget, hbudget⟩ := FeePips.deduct_ok amount hwhole
  obtain ⟨inToTarget, hin, -⟩ :=
    (Direction.toward current target).amountIn_ok liquidity hcurrent htarget
  obtain ⟨price, hprice⟩ := inputPrice_ok budget hcurrent htarget hin
  obtain ⟨hpath, hreached, hpaid⟩ := inputPrice_inside hin hprice
  have hvalid := hpath.valid hcurrent htarget
  obtain ⟨amountIn, hamountIn, -⟩ :=
    (Direction.toward current target).amountIn_ok liquidity hcurrent hvalid
  obtain ⟨amountOut, hamountOut, -⟩ :=
    (Direction.toward current target).amountOut_ok liquidity hcurrent hvalid
  have hstep : exactInput current target liquidity amount fee =
      ((if price = target then fee.onTop amountIn else Word.subChecked amount amountIn) >>=
        fun taken => .ok { price, amountIn, amountOut, fee := taken }) := by
    rw [← exactInputRecomputing_eq, exactInputRecomputing]
    simp only [ite_bind]
    rw [hbudget, ok_bind, hin, ok_bind, hprice, ok_bind, hamountIn, ok_bind, hamountOut, ok_bind]
  have hcovered := hpaid amountIn hamountIn
  have hnothing := Direction.amountIn_eq_zero_iff hin
  rw [hstep]
  by_cases hend : price = target
  · rw [if_pos hend]
    by_cases hrate : fee.toNat = 10 ^ 6
    · have hzero : inToTarget.toNat = 0 :=
        Nat.le_zero.1 (FeePips.deduct_whole hrate hbudget ▸ BitVec.le_def.1 (hreached.1 hend))
      rw [if_pos ⟨hrate, hnothing.1 hzero⟩, FeePips.onTop_whole _ hrate]
      rfl
    · obtain ⟨taken, htaken⟩ :=
        FeePips.onTop_ok_of_le_deduct (lt_of_le_of_ne hfee hrate) hbudget hcovered
      rw [if_neg (fun h => hrate h.1), htaken]
      exact ⟨_, rfl⟩
  · have hsome : ¬ inToTarget.toNat = 0 := fun hzero =>
      hend (hreached.2 (BitVec.le_def.2 (hzero ▸ Nat.zero_le _)))
    have hgiven := BitVec.le_trans hcovered (FeePips.deduct_le hwhole hbudget)
    rw [if_neg (fun h => hsome (hnothing.2 h.2)), if_neg hend, Word.subChecked, if_pos hgiven]
    exact ⟨_, rfl⟩

/-- With exact output there always is a fee on top, which needs a rate below the whole. -/
theorem exactOutput_fails_only_for_fee (liquidity : Liquidity) (amount : Word)
    (hcurrent : current.Valid) (htarget : target.Valid) (hfee : fee.toNat ≤ 10 ^ 6) :
    if fee.toNat = 10 ^ 6 then
      exactOutput current target liquidity amount fee = .error .divisionByZero
    else
      ∃ step, exactOutput current target liquidity amount fee = .ok step := by
  obtain ⟨outToTarget, hout, -⟩ :=
    (Direction.toward current target).amountOut_ok liquidity hcurrent htarget
  obtain ⟨price, hprice⟩ := outputPrice_ok amount hcurrent htarget hout
  have hvalid := (outputPrice_inside hout hprice).valid hcurrent htarget
  obtain ⟨amountIn, hamountIn, hsmall⟩ :=
    (Direction.toward current target).amountIn_ok liquidity hcurrent hvalid
  obtain ⟨released, hreleased, -⟩ :=
    (Direction.toward current target).amountOut_ok liquidity hcurrent hvalid
  have hstep : exactOutput current target liquidity amount fee =
      (fee.onTop amountIn >>= fun taken => .ok
        { price, amountIn, amountOut := if amount < released then amount else released,
          fee := taken }) := by
    rw [← exactOutputRecomputing_eq, exactOutputRecomputing]
    simp only [ite_bind]
    rw [hout, ok_bind, hprice, ok_bind, hamountIn, ok_bind, hreleased, ok_bind]
  rw [hstep]
  split
  · rename_i hrate
    rw [FeePips.onTop_whole _ hrate]
    rfl
  · rename_i hrate
    have hlt : fee.toNat < 10 ^ 6 := lt_of_le_of_ne hfee hrate
    have hbound : (amountIn.toNat * fee.toNat) ⌈/⌉ (10 ^ 6 - fee.toNat) ≤ 2 ^ 224 * 10 ^ 6 := by
      apply ceilDiv_le_of_le_mul
      refine (Nat.mul_le_mul hsmall.le hfee).trans ?_
      exact Nat.le_mul_of_pos_left _ (by omega)
    obtain ⟨taken, htaken⟩ := FeePips.onTop_ok hlt (lt_of_le_of_lt hbound (by decide))
    rw [htaken]
    exact ⟨_, rfl⟩

end SwapStep

theorem swapStep_ok (hcurrent : current.Valid) (htarget : target.Valid) (liquidity : Liquidity)
    (remaining : SignedWord) (hfee : fee.toNat < 10 ^ 6) :
    ∃ step, swapStep current target liquidity remaining fee = .ok step := by
  have hwhole : ¬FeePips.whole < fee := by
    rw [UInt32.lt_iff_toNat_lt]
    exact Nat.not_lt.2 hfee.le
  rw [swapStep, if_neg hwhole]
  split
  · have houtput := SwapStep.exactOutput_fails_only_for_fee liquidity remaining.magnitude hcurrent
      htarget hfee.le
    rwa [if_neg hfee.ne] at houtput
  · have hinput := SwapStep.exactInput_fails_only_for_fee liquidity remaining.magnitude hcurrent
      htarget hfee.le
    rwa [if_neg fun h => hfee.ne h.1] at hinput

/-- Between two prices that a pool can hold, a step fails only for its fee: for a rate above the whole, and for a fee on top of an amount at a rate that is the whole. -/
theorem swapStep_fails_only_for_fee (hcurrent : current.Valid) (htarget : target.Valid)
    (liquidity : Liquidity) (remaining : SignedWord) (fee : FeePips) :
    if 10 ^ 6 < fee.toNat then
      swapStep current target liquidity remaining fee = .error .feeOutOfBounds
    else if fee.toNat = 10 ^ 6 ∧ (remaining.toInt < 0 ∨ liquidity = 0 ∨ current = target) then
      swapStep current target liquidity remaining fee = .error .divisionByZero
    else
      ∃ step, swapStep current target liquidity remaining fee = .ok step := by
  have hwhole : FeePips.whole < fee ↔ 10 ^ 6 < fee.toNat := UInt32.lt_iff_toNat_lt
  rw [swapStep]
  by_cases hlarge : 10 ^ 6 < fee.toNat
  · rw [if_pos hlarge, if_pos (hwhole.2 hlarge)]
  · have hfee : fee.toNat ≤ 10 ^ 6 := Nat.le_of_not_lt hlarge
    rw [if_neg hlarge, if_neg (mt hwhole.1 hlarge)]
    by_cases hremaining : remaining.toInt < 0
    · have houtput := SwapStep.exactOutput_fails_only_for_fee liquidity
        remaining.magnitude hcurrent htarget hfee
      rw [if_pos (Signed.isNegative_iff.2 hremaining)]
      simpa only [hremaining, true_or, and_true] using houtput
    · have hinput := SwapStep.exactInput_fails_only_for_fee liquidity
        remaining.magnitude hcurrent htarget hfee
      rw [if_neg (mt Signed.isNegative_iff.1 hremaining)]
      simpa only [hremaining, false_or] using hinput

/-- At the rate that takes the whole input, nothing can be charged on top where no liquidity lets the price pass. -/
theorem swapStep_whole_fee_without_liquidity :
    SqrtPrice.one.Valid ∧ SqrtPrice.lowest.Valid ∧
      swapStep SqrtPrice.one SqrtPrice.lowest 0 (Signed.ofInt 256 5) FeePips.whole =
        .error .divisionByZero := by
  have hone : SqrtPrice.one.Valid := ⟨by decide, by decide⟩
  have hlowest : SqrtPrice.lowest.Valid := ⟨by decide, by decide⟩
  have houtcome := swapStep_fails_only_for_fee hone hlowest 0 (Signed.ofInt 256 5) FeePips.whole
  rw [if_neg (by decide), if_pos (by decide)] at houtcome
  exact ⟨hone, hlowest, houtcome⟩

end ConcentratedLiquidity
