import ConcentratedLiquidity.Proofs.Tick.Search
import ConcentratedLiquidity.Proofs.Word.BitScan
import ConcentratedLiquidity.Tick.Bitmap

/-!
# What the bitmap of a list holds and finds

A step is marked if its bit is set, and the marked steps of a bitmap are those of the listed ticks. A masked scan finds the marked step next to a given one within its word; where it finds none, the search goes on in the word before or after. The number of words on the way is finite, since a marked step lies ahead.
-/

namespace ConcentratedLiquidity

namespace Grid

theorem wordOf_eq_iff {step other : Int} :
    wordOf step = wordOf other ↔ wordStart other ≤ step ∧ step ≤ wordEnd other := by
  rw [wordStart_eq, wordEnd_eq, wordOf, wordOf]
  omega

theorem wordOf_eq_of_between {low step high : Int} (hword : wordOf low = wordOf high) (hlow : low ≤ step)
    (hhigh : step ≤ high) : wordOf step = wordOf high := by
  rw [wordOf, wordOf] at hword ⊢
  omega

theorem eq_of_wordOf_eq_of_bitOf_eq {step other : Int} (hword : wordOf step = wordOf other)
    (hbit : bitOf step = bitOf other) : step = other := by
  rw [← wordOf_mul_add_bitOf step, ← wordOf_mul_add_bitOf other, hword, hbit]

theorem exists_bitOf_eq (step : Int) {bit : Nat} (hbit : bit < 256) :
    ∃ other, wordOf other = wordOf step ∧ bitOf other = bit := by
  refine ⟨wordOf step * 256 + bit, ?_, ?_⟩
  · rw [wordOf]
    omega
  · rw [bitOf]
    omega

theorem bitOf_le_bitOf_iff {step other : Int} (hword : wordOf step = wordOf other) :
    bitOf step ≤ bitOf other ↔ step ≤ other := by
  have hstep := wordOf_mul_add_bitOf step
  have hother := wordOf_mul_add_bitOf other
  omega

section Spacing

variable {spacing : TickSpacing} (hspacing : 0 < spacing.toInt)

include hspacing

theorem le_stepBelow_iff {step : Int} {tick : TickIndex} :
    step ≤ stepBelow spacing tick ↔ step * spacing.toInt ≤ tick.toInt :=
  Int.le_ediv_iff_mul_le hspacing

theorem stepBelow_lt_iff {step : Int} {tick : TickIndex} :
    stepBelow spacing tick < step ↔ tick.toInt < step * spacing.toInt :=
  Int.ediv_lt_iff_lt_mul hspacing

end Spacing

end Grid

theorem TickIndex.toInt_ofInt_of_between {low high : TickIndex} {value : Int} (hlow : low.toInt ≤ value)
    (hhigh : value ≤ high.toInt) : (Int32.ofInt value).toInt = value := by
  apply Int32.toInt_ofInt_of_le
  · exact low.le_toInt.trans hlow
  · exact lt_of_le_of_lt hhigh high.toInt_lt

namespace WordMap

variable {words : WordMap} {step found : Int}

def Marked (words : WordMap) (step : Int) : Prop :=
  (words.word (Grid.wordOf step)).getLsbD (Grid.bitOf step) = true

/-! ### The marked steps -/

theorem getLsbD_ofNat_one_shiftLeft {place bit : Nat} (hbit : bit < 256) :
    (BitVec.ofNat 256 (1 <<< place)).getLsbD bit = decide (bit = place) := by
  rw [BitVec.getLsbD_ofNat, decide_eq_true hbit, Bool.true_and, Nat.one_shiftLeft, Nat.testBit_two_pow]
  exact decide_eq_decide.2 eq_comm

theorem marked_mark {other : Int} : (words.mark step).Marked other ↔ words.Marked other ∨ other = step := by
  rw [Marked, mark, word, Std.HashMap.getD_insert]
  by_cases hword : Grid.wordOf step = Grid.wordOf other
  · rw [if_pos (beq_iff_eq.2 hword), BitVec.natCast_eq_ofNat, BitVec.getLsbD_or,
      getLsbD_ofNat_one_shiftLeft (Grid.bitOf_lt other), Bool.or_eq_true, decide_eq_true_eq, hword]
    refine or_congr Iff.rfl ⟨fun hbit => ?_, fun heq => heq ▸ rfl⟩
    exact Grid.eq_of_wordOf_eq_of_bitOf_eq hword.symm hbit
  · have hne : other ≠ step := fun heq => hword (heq ▸ rfl)
    rw [if_neg (by rwa [beq_iff_eq]), or_iff_left hne]
    rfl

theorem not_marked_empty : ¬ (∅ : WordMap).Marked step := by
  rw [Marked, word, Std.HashMap.getD_empty]
  simp

theorem marked_foldl {ticks : List Tick} {spacing : TickSpacing} :
    (ticks.foldl (fun words tick => words.mark (Grid.stepBelow spacing tick.index)) words).Marked step ↔
      words.Marked step ∨ ∃ tick ∈ ticks, step = Grid.stepBelow spacing tick.index := by
  induction ticks generalizing words with
  | nil => simp
  | cons tick ticks ih =>
    rw [List.foldl_cons, ih, marked_mark, or_assoc]
    simp only [List.mem_cons, exists_eq_or_imp]

theorem marked_ofTicks {ticks : Ticks} {spacing : TickSpacing} :
    (ofTicks ticks spacing).Marked step ↔
      ∃ tick ∈ ticks, step = Grid.stepBelow spacing tick.index := by
  rw [ofTicks, ← Array.foldl_toList, marked_foldl, or_iff_right not_marked_empty]
  simp only [Array.mem_toList_iff]

/-! ### The nearest marked step in a word -/

structure NearestBelow (words : WordMap) (step found : Int) : Prop where
  marked : words.Marked found
  le : found ≤ step
  gap : ∀ other, found < other → other ≤ step → ¬ words.Marked other

structure NearestAbove (words : WordMap) (step found : Int) : Prop where
  marked : words.Marked found
  ge : step ≤ found
  gap : ∀ other, step ≤ other → other < found → ¬ words.Marked other

theorem NearestBelow.unique {other : Int} (h : words.NearestBelow step found)
    (hother : words.NearestBelow step other) : found = other := by
  rcases lt_trichotomy found other with hlt | heq | hgt
  · exact absurd hother.marked (h.gap other hlt hother.le)
  · exact heq
  · exact absurd h.marked (hother.gap found hgt h.le)

theorem NearestAbove.unique {other : Int} (h : words.NearestAbove step found)
    (hother : words.NearestAbove step other) : found = other := by
  rcases lt_trichotomy found other with hlt | heq | hgt
  · exact absurd h.marked (hother.gap found h.ge hlt)
  · exact heq
  · exact absurd hother.marked (h.gap other hother.ge hgt)

/-- A start between the two makes no difference. -/
theorem NearestBelow.of_le {start : Int} (h : words.NearestBelow step found) (hfound : found ≤ start)
    (hstart : start ≤ step) : words.NearestBelow start found :=
  ⟨h.marked, hfound, fun other hlt hle => h.gap other hlt (hle.trans hstart)⟩

theorem NearestAbove.of_le {start : Int} (h : words.NearestAbove step found) (hstart : step ≤ start)
    (hfound : start ≤ found) : words.NearestAbove start found :=
  ⟨h.marked, hfound, fun other hle hlt => h.gap other (hstart.trans hle) hlt⟩

theorem getLsbD_and_maskThrough (word : Word) {other : Int} (hword : Grid.wordOf other = Grid.wordOf step) :
    (word &&& Word.maskThrough (Grid.bitOf step)).getLsbD (Grid.bitOf other) = true ↔
      word.getLsbD (Grid.bitOf other) = true ∧ other ≤ step := by
  rw [Word.getLsbD_and_maskThrough (Grid.bitOf_lt step), Grid.bitOf_le_bitOf_iff hword]

theorem getLsbD_and_maskFrom (word : Word) {other : Int} (hword : Grid.wordOf other = Grid.wordOf step) :
    (word &&& Word.maskFrom (Grid.bitOf step)).getLsbD (Grid.bitOf other) = true ↔
      word.getLsbD (Grid.bitOf other) = true ∧ step ≤ other := by
  rw [Word.getLsbD_and_maskFrom (Grid.bitOf_lt step), Grid.bitOf_le_bitOf_iff hword.symm]

theorem highestBit_masked_eq_ok_iff (hword : Grid.wordOf found = Grid.wordOf step) :
    (words.word (Grid.wordOf step) &&& Word.maskThrough (Grid.bitOf step)).highestBit =
      .ok (Grid.bitOf found) ↔ words.NearestBelow step found := by
  rw [Word.highestBit_eq_ok_iff, getLsbD_and_maskThrough _ hword]
  constructor
  · rintro ⟨⟨hset, hle⟩, habove⟩
    refine ⟨by rwa [Marked, hword], hle, fun other hlt hother hmarked => ?_⟩
    have hsame := Grid.wordOf_eq_of_between hword hlt.le hother
    have hbit : Grid.bitOf found < Grid.bitOf other := by
      rw [← Nat.not_le, Grid.bitOf_le_bitOf_iff (hsame.trans hword.symm)]
      exact not_le.2 hlt
    rw [Marked, hsame] at hmarked
    have hclear := habove _ hbit
    rw [(getLsbD_and_maskThrough _ hsame).2 ⟨hmarked, hother⟩] at hclear
    cases hclear
  · rintro ⟨hmarked, hle, hgap⟩
    refine ⟨⟨by rwa [Marked, hword] at hmarked, hle⟩, fun bit hlt => ?_⟩
    by_contra hset
    rw [Bool.not_eq_false] at hset
    obtain ⟨other, hsame, rfl⟩ := Grid.exists_bitOf_eq step (BitVec.lt_of_getLsbD hset)
    obtain ⟨hset', hother⟩ := (getLsbD_and_maskThrough _ hsame).1 hset
    refine hgap other ?_ hother (by rwa [Marked, hsame])
    rw [← not_le, ← Grid.bitOf_le_bitOf_iff (hsame.trans hword.symm)]
    exact Nat.not_le.2 hlt

theorem lowestBit_masked_eq_ok_iff (hword : Grid.wordOf found = Grid.wordOf step) :
    (words.word (Grid.wordOf step) &&& Word.maskFrom (Grid.bitOf step)).lowestBit =
      .ok (Grid.bitOf found) ↔ words.NearestAbove step found := by
  rw [Word.lowestBit_eq_ok_iff, getLsbD_and_maskFrom _ hword]
  constructor
  · rintro ⟨⟨hset, hge⟩, hbelow⟩
    refine ⟨by rwa [Marked, hword], hge, fun other hother hlt hmarked => ?_⟩
    have hsame := (Grid.wordOf_eq_of_between hword.symm hother hlt.le).trans hword
    have hbit : Grid.bitOf other < Grid.bitOf found := by
      rw [← Nat.not_le, Grid.bitOf_le_bitOf_iff (hword.trans hsame.symm)]
      exact not_le.2 hlt
    rw [Marked, hsame] at hmarked
    have hclear := hbelow _ hbit
    rw [(getLsbD_and_maskFrom _ hsame).2 ⟨hmarked, hother⟩] at hclear
    cases hclear
  · rintro ⟨hmarked, hge, hgap⟩
    refine ⟨⟨by rwa [Marked, hword] at hmarked, hge⟩, fun bit hlt => ?_⟩
    by_contra hset
    rw [Bool.not_eq_false] at hset
    obtain ⟨other, hsame, rfl⟩ := Grid.exists_bitOf_eq step (BitVec.lt_of_getLsbD hset)
    obtain ⟨hset', hother⟩ := (getLsbD_and_maskFrom _ hsame).1 hset
    refine hgap other hother ?_ (by rwa [Marked, hsame])
    rw [← not_le, ← Grid.bitOf_le_bitOf_iff (hword.trans hsame.symm)]
    exact Nat.not_le.2 hlt

theorem lastInWord?_eq_some_iff :
    words.lastInWord? step = some found ↔
      words.NearestBelow step found ∧ Grid.wordOf found = Grid.wordOf step := by
  have hstep := Grid.wordOf_mul_add_bitOf step
  constructor
  · intro h
    rw [lastInWord?] at h
    split at h
    · rename_i bit hbit
      cases h
      obtain ⟨other, hsame, rfl⟩ := Grid.exists_bitOf_eq step
        (BitVec.lt_of_getLsbD (Word.highestBit_eq_ok_iff.1 hbit).1)
      have hother := Grid.wordOf_mul_add_bitOf other
      rw [show step - (Grid.bitOf step - Grid.bitOf other) = other by omega]
      exact ⟨(highestBit_masked_eq_ok_iff hsame).1 hbit, hsame⟩
    · cases h
  · rintro ⟨hnearest, hword⟩
    have hfound := Grid.wordOf_mul_add_bitOf found
    rw [lastInWord?, (highestBit_masked_eq_ok_iff hword).2 hnearest]
    refine congrArg some ?_
    omega

theorem firstInWord?_eq_some_iff :
    words.firstInWord? step = some found ↔
      words.NearestAbove step found ∧ Grid.wordOf found = Grid.wordOf step := by
  have hstep := Grid.wordOf_mul_add_bitOf step
  constructor
  · intro h
    rw [firstInWord?] at h
    split at h
    · rename_i bit hbit
      cases h
      obtain ⟨other, hsame, rfl⟩ := Grid.exists_bitOf_eq step
        (BitVec.lt_of_getLsbD (Word.lowestBit_eq_ok_iff.1 hbit).1)
      have hother := Grid.wordOf_mul_add_bitOf other
      rw [show step + (Grid.bitOf other - Grid.bitOf step) = other by omega]
      exact ⟨(lowestBit_masked_eq_ok_iff hsame).1 hbit, hsame⟩
    · cases h
  · rintro ⟨hnearest, hword⟩
    have hfound := Grid.wordOf_mul_add_bitOf found
    rw [firstInWord?, (lowestBit_masked_eq_ok_iff hword).2 hnearest]
    refine congrArg some ?_
    omega

theorem lastInWord?_eq_none_iff (h : words.NearestBelow step found) :
    words.lastInWord? step = none ↔ Grid.wordOf found ≠ Grid.wordOf step := by
  constructor
  · intro hnone hword
    rw [lastInWord?_eq_some_iff.2 ⟨h, hword⟩] at hnone
    cases hnone
  · intro hword
    rcases hresult : words.lastInWord? step with - | other
    · rfl
    · obtain ⟨hother, hsame⟩ := lastInWord?_eq_some_iff.1 hresult
      rw [h.unique hother] at hword
      exact absurd hsame hword

theorem firstInWord?_eq_none_iff (h : words.NearestAbove step found) :
    words.firstInWord? step = none ↔ Grid.wordOf found ≠ Grid.wordOf step := by
  constructor
  · intro hnone hword
    rw [firstInWord?_eq_some_iff.2 ⟨h, hword⟩] at hnone
    cases hnone
  · intro hword
    rcases hresult : words.firstInWord? step with - | other
    · rfl
    · obtain ⟨hother, hsame⟩ := firstInWord?_eq_some_iff.1 hresult
      rw [h.unique hother] at hword
      exact absurd hsame hword

/-! ### Walking on from word to word -/

def inWord? (words : WordMap) : Direction → Int → Option Int
  | .down, step => words.lastInWord? step
  | .up, step => words.firstInWord? step

def pastWord : Direction → Int → Int
  | .down, step => Grid.wordStart step - 1
  | .up, step => Grid.wordEnd step + 1

/-- The walk from a step goes from word to word, with no bound on their number, and ends at a marked step. -/
inductive Walks (words : WordMap) (direction : Direction) : Int → Int → Prop
  | ends {step found : Int} : words.inWord? direction step = some found → Walks words direction step found
  | goesOn {step found : Int} : words.inWord? direction step = none →
    Walks words direction (pastWord direction step) found → Walks words direction step found

theorem NearestBelow.pastWord (h : words.NearestBelow step found)
    (hword : Grid.wordOf found ≠ Grid.wordOf step) :
    words.NearestBelow (Grid.wordStart step - 1) found := by
  have hle := h.le
  apply h.of_le
  · rw [Grid.wordOf, Grid.wordOf] at hword
    rw [Grid.wordStart_eq, Grid.wordOf]
    omega
  · have hstart := Grid.wordStart_le step
    omega

theorem NearestAbove.pastWord (h : words.NearestAbove step found)
    (hword : Grid.wordOf found ≠ Grid.wordOf step) :
    words.NearestAbove (Grid.wordEnd step + 1) found := by
  have hge := h.ge
  apply h.of_le
  · have hend := Grid.le_wordEnd step
    omega
  · rw [Grid.wordOf, Grid.wordOf] at hword
    rw [Grid.wordEnd_eq, Grid.wordOf]
    omega

theorem walks_down {step found : Int} (h : words.NearestBelow step found) : words.Walks .down step found := by
  by_cases hword : Grid.wordOf found = Grid.wordOf step
  · exact .ends (lastInWord?_eq_some_iff.2 ⟨h, hword⟩)
  · exact .goesOn ((lastInWord?_eq_none_iff h).2 hword) (walks_down (h.pastWord hword))
termination_by (step - found).toNat
decreasing_by
  have hstart := Grid.wordStart_le step
  have hle := (h.pastWord hword).le
  rw [pastWord]
  omega

theorem walks_up {step found : Int} (h : words.NearestAbove step found) : words.Walks .up step found := by
  by_cases hword : Grid.wordOf found = Grid.wordOf step
  · exact .ends (firstInWord?_eq_some_iff.2 ⟨h, hword⟩)
  · exact .goesOn ((firstInWord?_eq_none_iff h).2 hword) (walks_up (h.pastWord hword))
termination_by (found - step).toNat
decreasing_by
  have hend := Grid.le_wordEnd step
  have hge := (h.pastWord hword).ge
  rw [pastWord]
  omega

/-- A walk that stops at the word of a bound still gets to a marked step on this side of it. -/
theorem lastAtOrBelow?_eq {lowest : Int} (h : words.NearestBelow step found) (hlowest : lowest ≤ found) :
    words.lastAtOrBelow? lowest step = some found := by
  fun_induction lastAtOrBelow? words lowest step with
  | case1 step other hother =>
    rw [(lastInWord?_eq_some_iff.1 hother).1.unique h]
  | case2 step hnone hlt ih =>
    exact ih (h.pastWord ((lastInWord?_eq_none_iff h).1 hnone))
  | case3 step hnone hge =>
    have hle := (h.pastWord ((lastInWord?_eq_none_iff h).1 hnone)).le
    omega

theorem firstAtOrAbove?_eq {highest : Int} (h : words.NearestAbove step found)
    (hhighest : found ≤ highest) : words.firstAtOrAbove? highest step = some found := by
  fun_induction firstAtOrAbove? words highest step with
  | case1 step other hother =>
    rw [(firstInWord?_eq_some_iff.1 hother).1.unique h]
  | case2 step hnone hlt ih =>
    exact ih (h.pastWord ((firstInWord?_eq_none_iff h).1 hnone))
  | case3 step hnone hge =>
    have hge' := (h.pastWord ((firstInWord?_eq_none_iff h).1 hnone)).ge
    omega

end WordMap

namespace TickBitmap

variable {bitmap : TickBitmap} {index : TickIndex} {tick : Tick}

theorem spacing_toInt_pos (bitmap : TickBitmap) : 0 < bitmap.list.spacing.toInt :=
  Int32.lt_iff_toInt_lt.1 bitmap.list.spacing_pos

theorem stepBelow_mul_of_mem (hmem : tick ∈ bitmap.list.ticks) :
    Grid.stepBelow bitmap.list.spacing tick.index * bitmap.list.spacing.toInt = tick.index.toInt :=
  Int.ediv_mul_cancel ((Ticks.validate_eq_ok_iff.1 bitmap.list.valid).2.1 tick hmem)

theorem tickAt_stepBelow_of_mem (hmem : tick ∈ bitmap.list.ticks) :
    Grid.tickAt bitmap.list.spacing (Grid.stepBelow bitmap.list.spacing tick.index) = tick.index := by
  rw [Grid.tickAt, stepBelow_mul_of_mem hmem, Int32.ofInt_toInt]

theorem nearestBelow_of_lastAtOrBelow? (h : bitmap.list.ticks.lastAtOrBelow? index = some tick) :
    bitmap.words.NearestBelow (Grid.stepBelow bitmap.list.spacing index)
      (Grid.stepBelow bitmap.list.spacing tick.index) := by
  have hpos := bitmap.spacing_toInt_pos
  obtain ⟨position, hget, hle, -⟩ := (Ticks.lastAtOrBelow?_eq_some_iff bitmap.list.sorted).1 h
  have hmem := Array.mem_of_getElem? hget
  rw [bitmap.words_eq]
  refine ⟨WordMap.marked_ofTicks.2 ⟨tick, hmem, rfl⟩, ?_, fun step hlt hstep hmarked => ?_⟩
  · rw [Grid.le_stepBelow_iff hpos, stepBelow_mul_of_mem hmem]
    exact Int32.le_iff_toInt_le.1 hle
  · obtain ⟨other, hother, rfl⟩ := WordMap.marked_ofTicks.1 hmarked
    rw [Grid.le_stepBelow_iff hpos, stepBelow_mul_of_mem hother, ← Int32.le_iff_toInt_le] at hstep
    have hnear := Ticks.le_of_lastAtOrBelow? bitmap.list.sorted h hother hstep
    rw [Grid.stepBelow_lt_iff hpos, stepBelow_mul_of_mem hother] at hlt
    exact absurd (Int32.le_iff_toInt_le.1 hnear) (not_le.2 hlt)

theorem nearestAbove_of_firstAbove? (h : bitmap.list.ticks.firstAbove? index = some tick) :
    bitmap.words.NearestAbove (Grid.stepBelow bitmap.list.spacing index + 1)
      (Grid.stepBelow bitmap.list.spacing tick.index) := by
  have hpos := bitmap.spacing_toInt_pos
  obtain ⟨position, hget, hlt, -⟩ := (Ticks.firstAbove?_eq_some_iff bitmap.list.sorted).1 h
  have hmem := Array.mem_of_getElem? hget
  rw [bitmap.words_eq]
  refine ⟨WordMap.marked_ofTicks.2 ⟨tick, hmem, rfl⟩, ?_, fun step hstep hbefore hmarked => ?_⟩
  · rw [Int.add_one_le_iff, Grid.stepBelow_lt_iff hpos, stepBelow_mul_of_mem hmem]
    exact Int32.lt_iff_toInt_lt.1 hlt
  · obtain ⟨other, hother, rfl⟩ := WordMap.marked_ofTicks.1 hmarked
    rw [Int.add_one_le_iff, Grid.stepBelow_lt_iff hpos, stepBelow_mul_of_mem hother,
      ← Int32.lt_iff_toInt_lt] at hstep
    have hnear := Ticks.le_of_firstAbove? bitmap.list.sorted h hother hstep
    rw [Grid.stepBelow_lt_iff hpos, stepBelow_mul_of_mem hmem] at hbefore
    exact absurd (Int32.le_iff_toInt_le.1 hnear) (not_le.2 hbefore)

end TickBitmap

end ConcentratedLiquidity
