import ConcentratedLiquidity.Proofs.Signed
import ConcentratedLiquidity.Proofs.Swap.Course
import ConcentratedLiquidity.Proofs.Tick.Net

/-!
# Liquidity along a course

A step crosses a listed tick exactly where its index moves from one side of that tick to the other, and then it changes the liquidity by the tick's net change. The liquidity in range without the net changes of the ticks at or below the pool's tick therefore never changes, however often trades turn around.
-/

namespace ConcentratedLiquidity

/-- The liquidity in range without the net changes of the ticks at or below the pool's. -/
def Pool.baseLiquidity (pool : Pool) (ticks : Ticks) : Int :=
  pool.liquidity.toNat - ticks.netThrough pool.tick

/-- A step ends at the price of an initialized tick, and changes the liquidity there. -/
def Leg.Crosses (leg : Leg) (tick : Tick) : Prop :=
  leg.next.initialized = true ∧ leg.next.index = tick.index ∧
    leg.after.price = tick.index.roundedRatio

namespace Leg

variable {leg : Leg} {tick : Tick}

theorem Crosses.price_eq (h : leg.Crosses tick) : leg.after.price = leg.next.index.roundedRatio := by
  rw [h.2.2, h.2.1]

theorem crosses_iff (hinitialized : leg.next.initialized = true)
    (hprice : leg.after.price = leg.next.index.roundedRatio) :
    leg.Crosses tick ↔ tick.index = leg.next.index := by
  constructor
  · intro h
    exact h.2.1.symm
  · intro hindex
    exact ⟨hinitialized, hindex.symm, hindex ▸ hprice⟩

end Leg

namespace Cursor

variable {cursor after : Cursor} {market : Market} {order : Order} {source : TickSource}
  {direction : Direction} {next : NextTick} {nextPrice began : SqrtPrice} {leg : Leg}
  {liquidity : Liquidity} {tick : TickIndex} {ticks : Ticks}

theorem liquidityPast_eq_ok_iff (hinitialized : next.initialized = true) :
    cursor.liquidityPast source direction next = .ok liquidity ↔
      ∃ tick, source.find next.index = .ok tick ∧
        cursor.liquidity.applyChange
          (match direction with | .down => -tick.net | .up => tick.net) = .ok liquidity := by
  rw [liquidityPast, if_pos hinitialized]
  exact bind_eq_ok_iff

theorem eq_of_liquidityPast (hinitialized : next.initialized ≠ true)
    (h : cursor.liquidityPast source direction next = .ok liquidity) :
    liquidity = cursor.liquidity := by
  rw [liquidityPast, if_neg hinitialized, Except.ok.injEq] at h
  exact h.symm

/-- What a step passes: no listed tick, or one from above, or one from below. -/
inductive Passes (ticks : Ticks) (cursor : Cursor) (leg : Leg) : Prop
  | none (hcrosses : ∀ tick ∈ ticks, ¬leg.Crosses tick)
      (hsides : ∀ tick ∈ ticks, tick.index ≤ cursor.tick ↔ tick.index ≤ leg.after.tick)
      (hliquidity : leg.after.liquidity = cursor.liquidity)
  | down (tick : Tick) (hmem : tick ∈ ticks)
      (hcrosses : ∀ other, leg.Crosses other ↔ other.index = tick.index)
      (hfrom : ∀ other ∈ ticks, other.index ≤ cursor.tick ↔ other.index ≤ tick.index)
      (hto : ∀ other ∈ ticks, other.index ≤ leg.after.tick ↔ other.index < tick.index)
      (hliquidity : (leg.after.liquidity.toNat : Int) = cursor.liquidity.toNat + (-tick.net).toInt)
  | up (tick : Tick) (hmem : tick ∈ ticks)
      (hcrosses : ∀ other, leg.Crosses other ↔ other.index = tick.index)
      (hfrom : ∀ other ∈ ticks, other.index ≤ cursor.tick ↔ other.index < tick.index)
      (hto : ∀ other ∈ ticks, other.index ≤ leg.after.tick ↔ other.index ≤ tick.index)
      (hliquidity : (leg.after.liquidity.toNat : Int) = cursor.liquidity.toNat + tick.net.toInt)

theorem le_tickPast_iff {spacing : TickSpacing}
    (hsearch : source.nextWithinWord spacing direction tick = .ok next)
    (hrange : next.index.InRange) (hedge : next.initialized ≠ true) {other : Tick}
    (hmem : other ∈ source.tickList.ticks) :
    other.index ≤ tick ↔ other.index ≤ next.tickPast direction := by
  have hne : other.index ≠ next.index := fun heq =>
    hedge ((TickSource.initialized_iff hsearch).2 ⟨other, hmem, heq⟩)
  cases direction with
  | down =>
    rw [(TickSource.stopsBelow hsearch).le_iff hmem, NextTick.le_tickPast_down_iff hrange.1]
    exact ⟨fun hle => Int32.lt_of_le_of_ne hle hne, Int32.le_of_lt⟩
  | up =>
    rw [(TickSource.stopsAbove hsearch).le_iff hmem]
    exact ⟨Int32.le_of_lt, fun hle => Int32.lt_of_le_of_ne hle hne⟩

/-- A finished step passes a listed tick where it crosses it, and no other. -/
theorem Advances.passes (h : cursor.Advances market order leg)
    (hconsistent : cursor.toPool.Consistent) (hlimit : order.LimitAhead cursor.price)
    (hlisted : ∀ tick ∈ market.source.tickList.ticks, tick.index.InRange) :
    cursor.Passes market.source.tickList.ticks leg := by
  obtain ⟨step, next, after⟩ := leg
  obtain ⟨hsearch, hrange, hstep, hsettles⟩ := h
  dsimp only at hsearch hrange hstep hsettles
  cases hsettles with
  | crosses liquidity hprice hliquidity =>
    -- A tick is listed at an initialized stop, and none at the edge of a word.
    by_cases hinitialized : next.initialized = true
    · obtain ⟨tick, hfind, hchange⟩ := (liquidityPast_eq_ok_iff hinitialized).1 hliquidity
      obtain ⟨position, hget, hindex, -⟩ :=
        (Ticks.find_eq_ok_iff market.source.tickList.sorted).1 hfind
      have hmem := Array.mem_of_getElem? hget
      cases hdirection : order.direction with
      | down =>
        rw [hdirection] at hsearch hchange
        refine .down tick hmem (fun other => ?_) (fun other hother => ?_) (fun other hother => ?_)
          (Liquidity.applyChange_eq_ok_iff.1 hchange)
        · rw [hindex]
          exact Leg.crosses_iff hinitialized hprice
        · rw [hindex]
          exact (TickSource.stopsBelow hsearch).le_iff hother
        · rw [hindex]
          exact NextTick.le_tickPast_down_iff hrange.1
      | up =>
        rw [hdirection] at hsearch hchange
        refine .up tick hmem (fun other => ?_) (fun other hother => ?_) (fun other hother => ?_)
          (Liquidity.applyChange_eq_ok_iff.1 hchange)
        · rw [hindex]
          exact Leg.crosses_iff hinitialized hprice
        · rw [hindex]
          exact (TickSource.stopsAbove hsearch).le_iff hother
        · rw [hindex]
          rfl
    · exact .none (fun tick _ hcrosses => hinitialized hcrosses.1)
        (fun other hmem => le_tickPast_iff hsearch hrange hinitialized hmem)
        (eq_of_liquidityPast hinitialized hliquidity)
  | rests hprice hbegan =>
    exact .none (fun tick _ hcrosses => hprice hcrosses.price_eq) (fun _ _ => Iff.rfl) rfl
  | pauses tick hprice hbegan htick =>
    exact .none (fun tick _ hcrosses => hprice hcrosses.price_eq) (fun other hmem =>
      le_tick_iff_of_pause hconsistent hlimit hsearch hrange hstep hprice hbegan htick hmem
        (hlisted other hmem)) rfl

namespace Passes

variable (h : cursor.Passes ticks leg)

include h

theorem crosses_iff {other : Tick} (hmem : other ∈ ticks) :
    leg.Crosses other ↔ ¬(other.index ≤ cursor.tick ↔ other.index ≤ leg.after.tick) := by
  cases h with
  | none hcrosses hsides hliquidity => simp [hcrosses other hmem, hsides other hmem]
  | down tick _ hcrosses hfrom hto hliquidity =>
    rw [hcrosses, hfrom other hmem, hto other hmem, Int32.le_iff_toInt_le, Int32.lt_iff_toInt_lt,
      ← Int32.toInt_inj]
    omega
  | up tick _ hcrosses hfrom hto hliquidity =>
    rw [hcrosses, hfrom other hmem, hto other hmem, Int32.le_iff_toInt_le, Int32.lt_iff_toInt_lt,
      ← Int32.toInt_inj]
    omega

theorem baseLiquidity_eq (hstrict : ticks.StrictlySorted)
    (hnet : ∀ tick ∈ ticks, tick.net.toInt ≠ -2 ^ 127) :
    leg.after.toPool.baseLiquidity ticks = cursor.toPool.baseLiquidity ticks := by
  rw [Pool.baseLiquidity, Pool.baseLiquidity]
  cases h with
  | none hcrosses hsides hliquidity =>
    rw [hliquidity, Ticks.netThrough_eq_of_none_between hsides]
  | down tick hmem hcrosses hfrom hto hliquidity =>
    have hsum := Ticks.netThrough_eq_add_net hstrict hmem hto hfrom
    rw [Signed.toInt_neg (by decide) (hnet tick hmem)] at hliquidity
    omega
  | up tick hmem hcrosses hfrom hto hliquidity =>
    have hsum := Ticks.netThrough_eq_add_net hstrict hmem hfrom hto
    omega

end Passes

end Cursor

/-- Steps taken one after the other, from an index on, cross the listed ticks that they pass and no others. Between two crossings of a tick in one direction there is then one in the other. -/
def Ticks.CrossedBy (ticks : Ticks) : TickIndex → List Leg → Prop
  | _, [] => True
  | index, leg :: legs =>
    (∀ tick ∈ ticks, leg.Crosses tick ↔ ¬(tick.index ≤ index ↔ tick.index ≤ leg.after.tick)) ∧
      ticks.CrossedBy leg.after.tick legs

namespace Pool

variable {market : Market} {pool last : Pool} {legs : List Leg}

namespace Course

theorem crossedBy (hcourse : Course market pool legs last) (hconsistent : pool.Consistent)
    (hlisted : ∀ tick ∈ market.source.tickList.ticks, tick.index.InRange) :
    market.source.tickList.ticks.CrossedBy pool.tick legs := by
  induction hcourse with
  | stay pool => trivial
  | step hlimit hadvances _ ih =>
    have hpasses := hadvances.passes hconsistent hlimit hlisted
    exact ⟨fun tick hmem => hpasses.crosses_iff hmem, ih (hadvances.consistent hconsistent)⟩

theorem baseLiquidity_eq (hcourse : Course market pool legs last) (hconsistent : pool.Consistent)
    (hstrict : market.source.tickList.ticks.StrictlySorted)
    (hlisted : ∀ tick ∈ market.source.tickList.ticks, tick.index.InRange)
    (hnet : ∀ tick ∈ market.source.tickList.ticks, tick.net.toInt ≠ -2 ^ 127) :
    ∀ leg ∈ legs, leg.after.toPool.baseLiquidity market.source.tickList.ticks =
      pool.baseLiquidity market.source.tickList.ticks := by
  induction hcourse with
  | stay pool => exact fun leg hmem => nomatch hmem
  | step hlimit hadvances _ ih =>
    have hstep := (hadvances.passes hconsistent hlimit hlisted).baseLiquidity_eq hstrict hnet
    intro leg hmem
    rcases List.mem_cons.1 hmem with rfl | hmem
    · exact hstep
    · exact (ih (hadvances.consistent hconsistent) leg hmem).trans hstep

end Course

/-- In every run of quotes, as long as no change of liquidity has failed, each recorded step keeps the liquidity in range without the net changes at or below the tick, and no listed tick is skipped or crossed twice. -/
theorem quotes_keep_baseLiquidity {market : Market} {price : SqrtPrice} {liquidity : Liquidity}
    {pool : Pool} {stepLimit : Nat} {orders : List Order} {earlier later : List Quote} {quote : Quote}
    (hstrict : market.source.tickList.ticks.StrictlySorted)
    (hlisted : ∀ tick ∈ market.source.tickList.ticks, tick.index.InRange)
    (hnet : ∀ tick ∈ market.source.tickList.ticks, tick.net.toInt ≠ -2 ^ 127)
    (hpool : atPrice price liquidity = .ok pool)
    (hlimits : LimitsAhead market stepLimit pool orders)
    (hquotes : pool.quotes market stepLimit orders = earlier ++ quote :: later)
    (hearlier : ∀ other ∈ earlier, ¬other.LiquidityFailed) :
    (∀ leg ∈ (earlier ++ [quote]).flatMap Quote.legs,
      leg.after.toPool.baseLiquidity market.source.tickList.ticks =
        pool.baseLiquidity market.source.tickList.ticks) ∧
      market.source.tickList.ticks.CrossedBy pool.tick
        ((earlier ++ [quote]).flatMap Quote.legs) := by
  have hconsistent := consistent_atPrice hpool
  obtain ⟨last, hcourse⟩ := course_quotes hconsistent hlimits hquotes hearlier
  exact ⟨hcourse.baseLiquidity_eq hconsistent hstrict hlisted hnet,
    hcourse.crossedBy hconsistent hlisted⟩

/-- A trade over the tick at 120 and one back. -/
theorem quotes_keep_baseLiquidity_there_and_back :
    ∃ list pool,
      TickList.ofTicks #[⟨-120, 10 ^ 18, ⟨10 ^ 18⟩⟩, ⟨120, 2 * 10 ^ 18, ⟨10 ^ 18⟩⟩,
        ⟨240, 10 ^ 18, ⟨-2 * 10 ^ 18⟩⟩] 60 = .ok list ∧
      atPrice (2 ^ 96) (10 ^ 18) = .ok pool ∧
      (let quotes := pool.quotes ⟨.list list, 3000⟩ 40
        [⟨⟨10 ^ 16⟩, .up, none⟩, ⟨⟨10 ^ 16⟩, .down, some SqrtPrice.lowest⟩]
      (quotes.flatMap Quote.legs).map (·.after.tick) = [120, 159, 119, -1, -2] ∧
        ∀ leg ∈ quotes.flatMap Quote.legs, leg.after.toPool.baseLiquidity list.ticks = 0) := by
  let list : TickList :=
    ⟨#[⟨-120, 10 ^ 18, ⟨10 ^ 18⟩⟩, ⟨120, 2 * 10 ^ 18, ⟨10 ^ 18⟩⟩,
      ⟨240, 10 ^ 18, ⟨-2 * 10 ^ 18⟩⟩], 60, by decide +kernel⟩
  let market : Market := ⟨.list list, 3000⟩
  let pool : Pool := ⟨2 ^ 96, 0, 10 ^ 18⟩
  let up : Order := ⟨⟨10 ^ 16⟩, .up, none⟩
  let down : Order := ⟨⟨10 ^ 16⟩, .down, some SqrtPrice.lowest⟩
  have hpool : atPrice (2 ^ 96) (10 ^ 18) = .ok pool := by decide +kernel
  have hlimits : LimitsAhead market 40 pool [up, down] := by
    refine ⟨fun limit h => (nomatch h), fun limit h => ?_, trivial⟩
    cases h
    show SqrtPrice.lowest ≤ (pool.quote market 40 up).final.price
    decide +kernel
  have hquotes : pool.quotes market 40 [up, down] =
      [pool.quote market 40 up] ++ (pool.quote market 40 up).final.toPool.quote market 40 down :: [] :=
    rfl
  have hkeep := (quotes_keep_baseLiquidity (by decide +kernel) (by decide +kernel)
    (by decide +kernel) hpool hlimits hquotes (by decide +kernel)).1
  refine ⟨list, pool, TickList.ofTicks_eq_ok_iff.2 ⟨rfl, rfl⟩, hpool, by decide +kernel, ?_⟩
  intro leg hleg
  exact (hkeep leg hleg).trans (by decide +kernel)

end Pool

end ConcentratedLiquidity
