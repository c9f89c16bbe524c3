import ConcentratedLiquidity.Tick.Search

/-!
# Tick lists

A tick list is a snapshot of ticks that has passed `Ticks.validate` for its spacing: the spacing is positive, every index is a multiple of it, the net changes cancel, and the indices do not decrease.
-/

namespace ConcentratedLiquidity

namespace Ticks

/-- The sum of all net changes. It does not wrap with fewer than 2^128 ticks. -/
def netSum (ticks : Ticks) : SignedWord :=
  ticks.foldl (fun sum tick => sum + tick.net.extend 256) 0

def isNonDecreasing : List TickIndex → Bool
  | first :: second :: rest => first ≤ second && isNonDecreasing (second :: rest)
  | _ => true

/-- Checks that a snapshot can be searched, and reports the first condition that fails. -/
def validate (ticks : Ticks) (spacing : TickSpacing) : Except Error Unit :=
  if spacing ≤ 0 then
    .error .nonPositiveSpacing
  else if ticks.any (fun tick => tick.index.toInt % spacing.toInt ≠ 0) then
    .error .spacingMismatch
  else if ticks.netSum ≠ 0 then
    .error .nonZeroNetSum
  else if isNonDecreasing (ticks.toList.map (·.index)) then
    .ok ()
  else
    .error .notSorted

theorem any_emod_ne_zero_eq_false_iff {ticks : Ticks} {spacing : TickSpacing} :
    ticks.any (fun tick => tick.index.toInt % spacing.toInt ≠ 0) = false ↔
      ∀ tick ∈ ticks, spacing.toInt ∣ tick.index.toInt := by
  rw [Array.any_eq_false']
  constructor
  · intro h tick htick
    have hzero := h tick htick
    rw [decide_eq_true_eq, Decidable.not_not] at hzero
    exact Int.dvd_of_emod_eq_zero hzero
  · intro h tick htick
    rw [decide_eq_true_eq, Decidable.not_not]
    exact Int.emod_eq_zero_of_dvd (h tick htick)

theorem validate_eq_ok_iff {ticks : Ticks} {spacing : TickSpacing} :
    ticks.validate spacing = .ok () ↔
      0 < spacing ∧ (∀ tick ∈ ticks, spacing.toInt ∣ tick.index.toInt) ∧ ticks.netSum = 0 ∧
        isNonDecreasing (ticks.toList.map (·.index)) = true := by
  unfold validate
  by_cases hpos : spacing ≤ 0
  · simp [hpos, Int32.not_lt.2 hpos]
  · rw [if_neg hpos, ← any_emod_ne_zero_eq_false_iff]
    generalize ticks.any (fun tick => tick.index.toInt % spacing.toInt ≠ 0) = misaligned
    cases misaligned
    · by_cases hsum : ticks.netSum = 0 <;> simp [hsum, Int32.not_le.1 hpos]
    · simp

end Ticks

structure TickList where
  ticks : Ticks
  spacing : TickSpacing
  valid : ticks.validate spacing = .ok ()

namespace TickList

def ofTicks (ticks : Ticks) (spacing : TickSpacing) : Except Error TickList :=
  match hvalid : ticks.validate spacing with
  | .ok () => .ok ⟨ticks, spacing, hvalid⟩
  | .error cause => .error cause

theorem ofTicks_eq_ok_iff {ticks : Ticks} {spacing : TickSpacing} {list : TickList} :
    ofTicks ticks spacing = .ok list ↔ list.ticks = ticks ∧ list.spacing = spacing := by
  unfold ofTicks
  split
  · rw [Except.ok.injEq]
    constructor
    · rintro rfl
      exact ⟨rfl, rfl⟩
    · rintro ⟨rfl, rfl⟩
      rfl
  · rename_i hcause
    constructor
    · intro h; cases h
    · rintro ⟨rfl, rfl⟩
      rw [list.valid] at hcause
      cases hcause

theorem spacing_pos (list : TickList) : 0 < list.spacing :=
  (Ticks.validate_eq_ok_iff.1 list.valid).1

def requireSpacing (list : TickList) (spacing : TickSpacing) : Except Error Unit :=
  if spacing ≤ 0 then
    .error .nonPositiveSpacing
  else if spacing ≠ list.spacing then
    .error .spacingMismatch
  else
    .ok ()

theorem requireSpacing_eq_ok_iff {list : TickList} {spacing : TickSpacing} :
    list.requireSpacing spacing = .ok () ↔ spacing = list.spacing := by
  have hpos := list.spacing_pos
  unfold requireSpacing
  constructor
  · intro h
    split at h
    · cases h
    · split at h
      · cases h
      · rename_i heq
        exact Decidable.not_not.1 heq
  · rintro rfl
    rw [if_neg (Int32.not_le.2 hpos), if_neg (fun h => h rfl)]

end TickList

end ConcentratedLiquidity
