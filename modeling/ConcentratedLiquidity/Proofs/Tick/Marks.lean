import ConcentratedLiquidity.Proofs.Error
import ConcentratedLiquidity.Proofs.Tick.Bitmap

/-!
# What the bits of a bitmap say

A bit is set if the index at its step is listed, and no other bit is. The steps of two indices share a bit only if they are one step, and every listed index is that of its step, so no bit stands for two of them.

Words are kept by positions that are integers. For the indices that have a price 16 bits are enough: the same ticks can be marked one after another in words that are kept by positions of 16 bits, none of these positions is refused, and the words hold the same bits. At a position beyond the 16 bits the word is zero.
-/

namespace ConcentratedLiquidity

namespace Grid

theorem wordOf_mul_add (position : Int) {bit : Nat} (hbit : bit < 256) :
    wordOf (256 * position + bit) = position := by
  rw [wordOf]
  omega

theorem bitOf_mul_add (position : Int) {bit : Nat} (hbit : bit < 256) :
    bitOf (256 * position + bit) = bit := by
  rw [bitOf]
  omega

theorem stepBelow_bounds {spacing : TickSpacing} {tick : TickIndex} (hspacing : 0 < spacing.toInt)
    (htick : tick.InRange) : -887272 ≤ stepBelow spacing tick ∧ stepBelow spacing tick ≤ 887272 := by
  rw [TickIndex.inRange_iff] at htick
  refine ⟨(le_stepBelow_iff hspacing).2 ?_, Int.lt_add_one_iff.1 ((stepBelow_lt_iff hspacing).2 ?_)⟩
  · omega
  · omega

/-- The position of a word in 16 bits, which it must fit. -/
def narrow (position : Int) : Except Error Int16 :=
  if Int16.minValue.toInt ≤ position ∧ position ≤ Int16.maxValue.toInt then
    .ok (Int16.ofInt position)
  else
    .error .tickOutOfRange

theorem narrow_wordOf_stepBelow {spacing : TickSpacing} {tick : TickIndex}
    (hspacing : 0 < spacing.toInt) (htick : tick.InRange) :
    ∃ position, narrow (wordOf (stepBelow spacing tick)) = .ok position ∧
      position.toInt = wordOf (stepBelow spacing tick) := by
  obtain ⟨hbelow, habove⟩ := stepBelow_bounds hspacing htick
  have hfits : -3466 ≤ wordOf (stepBelow spacing tick) ∧ wordOf (stepBelow spacing tick) ≤ 3465 := by
    rw [wordOf]
    omega
  generalize wordOf (stepBelow spacing tick) = position at hfits
  refine ⟨Int16.ofInt position, if_pos ?_, ?_⟩
  · rw [Int16.toInt_minValue, Int16.toInt_maxValue]
    omega
  · apply Int16.toInt_ofInt_of_le
    · omega
    · omega

end Grid

/-! ### Words by positions of 16 bits -/

/-- Words of the grid by position in 16 bits. A word that is not stored is zero. -/
abbrev NarrowWordMap := Std.HashMap Int16 Word

namespace NarrowWordMap

variable {narrow : NarrowWordMap} {words : WordMap} {spacing : TickSpacing}

def word (narrow : NarrowWordMap) (position : Int16) : Word := narrow.getD position 0

/-- The word at a position that need not fit 16 bits. Where it does not, no word is stored. -/
def wordAt (narrow : NarrowWordMap) (position : Int) : Word :=
  match Grid.narrow position with
  | .ok position => narrow.word position
  | .error _ => 0

def markTick (spacing : TickSpacing) (narrow : NarrowWordMap) (tick : Tick) :
    Except Error NarrowWordMap :=
  if tick.index.InRange then do
    let step := Grid.stepBelow spacing tick.index
    let position ← Grid.narrow (Grid.wordOf step)
    .ok (narrow.insert position (narrow.word position ||| 1 <<< Grid.bitOf step))
  else
    .error .tickOutOfRange

def ofTicks (ticks : Ticks) (spacing : TickSpacing) : Except Error NarrowWordMap :=
  ticks.foldlM (markTick spacing) ∅

def Agrees (narrow : NarrowWordMap) (words : WordMap) : Prop :=
  ∀ position : Int16, narrow.word position = words.word position.toInt

theorem agrees_empty : Agrees ∅ ∅ := by
  intro position
  rw [word, WordMap.word, Std.HashMap.getD_empty, Std.HashMap.getD_empty]

theorem Agrees.insert (h : Agrees narrow words) (position : Int16) (value : Word) :
    Agrees (narrow.insert position value) (Std.HashMap.insert words position.toInt value) := by
  intro other
  rw [word, WordMap.word, Std.HashMap.getD_insert, Std.HashMap.getD_insert]
  by_cases hsame : position = other
  · rw [if_pos (beq_iff_eq.2 hsame), if_pos (beq_iff_eq.2 (congrArg Int16.toInt hsame))]
  · have hne : position.toInt ≠ other.toInt := fun heq => hsame (Int16.toInt_inj.1 heq)
    rw [if_neg (by rwa [beq_iff_eq]), if_neg (by rwa [beq_iff_eq])]
    exact h other

theorem Agrees.markTick (h : Agrees narrow words) (hspacing : 0 < spacing.toInt) {tick : Tick}
    (htick : tick.index.InRange) :
    ∃ marked, markTick spacing narrow tick = .ok marked ∧
      Agrees marked (words.mark (Grid.stepBelow spacing tick.index)) := by
  obtain ⟨position, hposition, htoInt⟩ := Grid.narrow_wordOf_stepBelow hspacing htick
  refine ⟨narrow.insert position
    (narrow.word position ||| 1 <<< Grid.bitOf (Grid.stepBelow spacing tick.index)), ?_, ?_⟩
  · simp only [NarrowWordMap.markTick, if_pos htick, hposition, ok_bind]
  · rw [WordMap.mark, ← htoInt, ← h position]
    exact h.insert position _

theorem markTick_of_not_inRange {tick : Tick} (htick : ¬tick.index.InRange) :
    markTick spacing narrow tick = .error .tickOutOfRange := if_neg htick

theorem Agrees.foldlM {ticks : List Tick} (h : Agrees narrow words) (hspacing : 0 < spacing.toInt)
    (hticks : ∀ tick ∈ ticks, tick.index.InRange) :
    ∃ marked, ticks.foldlM (NarrowWordMap.markTick spacing) narrow = .ok marked ∧
      Agrees marked
        (ticks.foldl (fun words tick => words.mark (Grid.stepBelow spacing tick.index)) words) := by
  induction ticks generalizing narrow words with
  | nil => exact ⟨narrow, rfl, h⟩
  | cons tick ticks ih =>
    obtain ⟨htick, hrest⟩ := List.forall_mem_cons.1 hticks
    obtain ⟨marked, hmarked, hagrees⟩ := h.markTick hspacing htick
    rw [List.foldlM_cons, hmarked, ok_bind, List.foldl_cons]
    exact ih hagrees hrest

theorem foldlM_eq_error {ticks : List Tick} (h : Agrees narrow words) (hspacing : 0 < spacing.toInt)
    (hticks : ¬∀ tick ∈ ticks, tick.index.InRange) :
    ticks.foldlM (NarrowWordMap.markTick spacing) narrow = .error .tickOutOfRange := by
  induction ticks generalizing narrow words with
  | nil => exact absurd (fun tick htick => nomatch htick) hticks
  | cons tick ticks ih =>
    rw [List.foldlM_cons]
    by_cases htick : tick.index.InRange
    · obtain ⟨marked, hmarked, hagrees⟩ := h.markTick hspacing htick
      rw [hmarked, ok_bind]
      exact ih hagrees fun hrest => hticks (List.forall_mem_cons.2 ⟨htick, hrest⟩)
    · rw [markTick_of_not_inRange htick]
      rfl

end NarrowWordMap

/-! ### The bits -/

namespace WordMap

variable {words : WordMap}

theorem getLsbD_word_iff_marked (position : Int) {bit : Nat} (hbit : bit < 256) :
    (words.word position).getLsbD bit = true ↔ words.Marked (256 * position + bit) := by
  rw [Marked, Grid.wordOf_mul_add position hbit, Grid.bitOf_mul_add position hbit]

end WordMap

namespace TickBitmap

variable {bitmap : TickBitmap}

theorem eq_stepBelow_iff_of_mem {step : Int} {tick : Tick} (hmem : tick ∈ bitmap.list.ticks) :
    step = Grid.stepBelow bitmap.list.spacing tick.index ↔
      tick.index.toInt = step * bitmap.list.spacing.toInt := by
  rw [← stepBelow_mul_of_mem hmem, Int.mul_eq_mul_right_iff bitmap.spacing_toInt_pos.ne']
  exact eq_comm

theorem getLsbD_word_iff (position : Int) {bit : Nat} (hbit : bit < 256) :
    (bitmap.word position).getLsbD bit = true ↔ ∃ tick ∈ bitmap.list.ticks,
      tick.index.toInt = (256 * position + bit) * bitmap.list.spacing.toInt := by
  rw [word, WordMap.getLsbD_word_iff_marked position hbit, bitmap.words_eq, WordMap.marked_ofTicks]
  constructor
  · intro h
    obtain ⟨tick, hmem, hstep⟩ := h
    exact ⟨tick, hmem, (eq_stepBelow_iff_of_mem hmem).1 hstep⟩
  · intro h
    obtain ⟨tick, hmem, hindex⟩ := h
    exact ⟨tick, hmem, (eq_stepBelow_iff_of_mem hmem).2 hindex⟩

/-- No tick with a price is marked in a word whose position takes more than 16 bits. -/
theorem word_eq_zero {position : Int}
    (hposition : ¬(Int16.minValue.toInt ≤ position ∧ position ≤ Int16.maxValue.toInt)) :
    bitmap.word position = 0 := by
  apply BitVec.eq_of_getLsbD_eq
  intro bit hbit
  rw [BitVec.ofNat_eq_ofNat, BitVec.getLsbD_zero, Bool.eq_false_iff, Ne,
    getLsbD_word_iff position hbit]
  rintro ⟨tick, hmem, hindex⟩
  obtain ⟨hlow, hhigh⟩ := Grid.stepBelow_bounds bitmap.spacing_toInt_pos (bitmap.inRange tick hmem)
  rw [← (eq_stepBelow_iff_of_mem hmem).2 hindex] at hlow hhigh
  rw [Int16.toInt_minValue, Int16.toInt_maxValue] at hposition
  omega

/-- A search may read the words by positions of 16 bits, and take a word whose position does not fit for zero. -/
theorem wordAt_eq_word {narrow : NarrowWordMap}
    (h : NarrowWordMap.ofTicks bitmap.list.ticks bitmap.list.spacing = .ok narrow) (position : Int) :
    narrow.wordAt position = bitmap.word position := by
  obtain ⟨marked, hmarked, hagrees⟩ :=
    NarrowWordMap.agrees_empty.foldlM bitmap.spacing_toInt_pos fun tick hmem =>
      bitmap.inRange tick (Array.mem_toList_iff.1 hmem)
  rw [NarrowWordMap.ofTicks, ← Array.foldlM_toList, hmarked] at h
  cases h
  rw [Array.foldl_toList, ← WordMap.ofTicks, ← bitmap.words_eq] at hagrees
  rw [NarrowWordMap.wordAt, Grid.narrow]
  by_cases hposition : Int16.minValue.toInt ≤ position ∧ position ≤ Int16.maxValue.toInt
  · have hkept : (Int16.ofInt position).toInt = position :=
      Int16.toInt_ofInt_of_le hposition.1 (Int.lt_add_one_of_le hposition.2)
    rw [if_pos hposition]
    dsimp only
    rw [hagrees, hkept, word]
  · rw [if_neg hposition, word_eq_zero hposition]

/-- A list is refused a bitmap only for an index without a price. The bits of its bitmap are those of the listed indices, however often an index is listed, and marking the ticks in words by positions of 16 bits comes to the same in every case. -/
theorem bits_are_listed_indices (list : TickList) :
    if ∀ tick ∈ list.ticks, tick.index.InRange then
      ∃ bitmap narrow, ofList list = .ok bitmap ∧
        NarrowWordMap.ofTicks list.ticks list.spacing = .ok narrow ∧
        (∀ position : Int16, narrow.word position = bitmap.word position.toInt) ∧
        ∀ (position : Int) (bit : Nat), bit < 256 →
          ((bitmap.word position).getLsbD bit = true ↔ ∃ tick ∈ list.ticks,
            tick.index.toInt = (256 * position + bit) * list.spacing.toInt)
    else
      ofList list = .error .tickOutOfRange ∧
        NarrowWordMap.ofTicks list.ticks list.spacing = .error .tickOutOfRange := by
  have hspacing : 0 < list.spacing.toInt := Int32.lt_iff_toInt_lt.1 list.spacing_pos
  have htoList : (∀ tick ∈ list.ticks.toList, tick.index.InRange) ↔
      ∀ tick ∈ list.ticks, tick.index.InRange := by
    simp only [Array.mem_toList_iff]
  rw [NarrowWordMap.ofTicks, ← Array.foldlM_toList]
  split
  · rename_i hrange
    obtain ⟨narrow, hnarrow, hagrees⟩ :=
      NarrowWordMap.agrees_empty.foldlM hspacing (htoList.2 hrange)
    let bitmap : TickBitmap := ⟨list, _, hrange, rfl⟩
    refine ⟨bitmap, narrow, ofList_eq_ok_iff.2 rfl, hnarrow, ?_, ?_⟩
    · intro position
      rw [hagrees position, Array.foldl_toList]
      rfl
    · intro position bit hbit
      exact getLsbD_word_iff position hbit
  · rename_i hrange
    exact ⟨dif_neg hrange,
      NarrowWordMap.foldlM_eq_error NarrowWordMap.agrees_empty hspacing (mt htoList.1 hrange)⟩

/-- The lowest and the highest index that have a price, and between them one that is listed twice. -/
def widestList : TickList where
  ticks := #[⟨-887272, 3, ⟨3⟩⟩, ⟨-1, 1, ⟨-1⟩⟩, ⟨-1, 1, ⟨-1⟩⟩, ⟨887272, 1, ⟨-1⟩⟩]
  spacing := 1
  valid := by decide +kernel

/-- No bitmap takes words further from zero than this one, and 16 bits are enough for them. Below zero the last bit of a word is that of the nearest index. -/
theorem bits_of_widest_list :
    ∃ bitmap narrow, ofList widestList = .ok bitmap ∧
      NarrowWordMap.ofTicks widestList.ticks widestList.spacing = .ok narrow ∧
      (narrow.word (-3466)).getLsbD 24 = true ∧ (narrow.word 3465).getLsbD 232 = true ∧
      (bitmap.word (-1)).getLsbD 255 = true ∧ (bitmap.word (-1)).getLsbD 254 = false := by
  have hrange : ∀ tick ∈ widestList.ticks, tick.index.InRange := by
    simp [widestList, TickIndex.inRange_iff]
  have hbits := bits_are_listed_indices widestList
  rw [if_pos hrange] at hbits
  obtain ⟨bitmap, narrow, hbitmap, hnarrow, hagrees, hbits⟩ := hbits
  have hlisted (place : Int) :
      (∃ tick ∈ widestList.ticks, tick.index.toInt = place * widestList.spacing.toInt) ↔
        place = -887272 ∨ place = -1 ∨ place = 887272 := by
    simp [widestList, eq_comm]
  refine ⟨bitmap, narrow, hbitmap, hnarrow, ?_, ?_, ?_, ?_⟩
  · rw [hagrees, hbits _ 24 (by decide), hlisted]
    decide
  · rw [hagrees, hbits _ 232 (by decide), hlisted]
    decide
  · rw [hbits _ 255 (by decide), hlisted]
    decide
  · rw [Bool.eq_false_iff, Ne, hbits _ 254 (by decide), hlisted]
    decide

end TickBitmap

end ConcentratedLiquidity
