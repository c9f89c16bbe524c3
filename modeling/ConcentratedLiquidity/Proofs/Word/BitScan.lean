import ConcentratedLiquidity.Word.BitScan
import Mathlib.Algebra.Order.Ring.Nat
import Mathlib.Data.Nat.Log
import Mathlib.Order.Bounds.Basic

/-!
# The outermost set bits

The scan for the highest bit halves the width that is left and finds the binary logarithm. The widths sum up to 255, so eight bits are enough for every position on the way. Behind a mask both scans find the nearest set bit on one side of a position, and fail exactly when there is none.
-/

namespace ConcentratedLiquidity.Word

/-! ### Halving the width -/

/-- Widths of which each is at most one more than the sum of those after it, so that a scan over them leaves no bit out. -/
def CoversScan : List Nat → Prop
  | [] => True
  | width :: widths => width ≤ widths.sum + 1 ∧ CoversScan widths

theorem toNat_ofNat_one_shiftLeft {position : Nat} (hposition : position < 256) :
    (BitVec.ofNat 256 (1 <<< position)).toNat = 2 ^ position := by
  rw [BitVec.toNat_ofNat, Nat.one_shiftLeft]
  exact Nat.mod_eq_of_lt (Nat.pow_lt_pow_right (by decide) hposition)

theorem log2_shiftRight {value width : Nat} (hle : 2 ^ width ≤ value) :
    width + (value >>> width).log2 = value.log2 := by
  have hpos : 0 < 2 ^ width := Nat.two_pow_pos width
  have hvalue : value ≠ 0 := by omega
  have hshifted : value >>> width ≠ 0 := by
    rw [Nat.shiftRight_eq_div_pow]
    exact (Nat.div_pos hle hpos).ne'
  symm
  rw [Nat.log2_eq_iff hvalue, add_assoc, pow_add, pow_add]
  constructor
  · rw [mul_comm, ← Nat.le_div_iff_mul_le hpos, ← Nat.shiftRight_eq_div_pow]
    exact Nat.log2_self_le hshifted
  · rw [mul_comm, ← Nat.div_lt_iff_lt_mul hpos, ← Nat.shiftRight_eq_div_pow]
    exact Nat.lt_log2_self

theorem scanHighest_eq {widths : List Nat} (hcovers : CoversScan widths)
    (hwidths : ∀ width ∈ widths, width < 256) (word : Word) (passed : Nat) (hword : word ≠ 0)
    (hlt : word.toNat < 2 ^ (widths.sum + 1)) :
    scanHighest word passed widths = passed + word.toNat.log2 := by
  induction widths generalizing word passed with
  | nil =>
    have hone : word.toNat = 1 := by
      have hpos := BitVec.toNat_pos_of_ne_zero hword
      simp only [List.sum_nil] at hlt
      omega
    rw [scanHighest, hone]
    rfl
  | cons width widths ih =>
    obtain ⟨hwidth, hrest⟩ := hcovers
    have hsmall : width < 256 := hwidths width List.mem_cons_self
    have hwidths' : ∀ other ∈ widths, other < 256 := fun other hother =>
      hwidths other (List.mem_cons_of_mem _ hother)
    rw [List.sum_cons] at hlt
    simp only [scanHighest, BitVec.natCast_eq_ofNat, BitVec.le_def, toNat_ofNat_one_shiftLeft hsmall]
    by_cases hupper : 2 ^ width ≤ word.toNat
    · have hshift : (word >>> width).toNat = word.toNat >>> width := BitVec.toNat_ushiftRight word width
      have hne : word >>> width ≠ 0 := by
        intro hzero
        rw [hzero, Nat.shiftRight_eq_div_pow] at hshift
        exact absurd hshift.symm (Nat.div_pos hupper (Nat.two_pow_pos width)).ne'
      have hbound : (word >>> width).toNat < 2 ^ (widths.sum + 1) := by
        rw [hshift, Nat.shiftRight_eq_div_pow, Nat.div_lt_iff_lt_mul (Nat.two_pow_pos width),
          ← pow_add]
        rwa [show widths.sum + 1 + width = width + widths.sum + 1 by omega]
      rw [if_pos hupper, ih hrest hwidths' _ _ hne hbound, hshift, add_assoc, log2_shiftRight hupper]
    · have hbound : word.toNat < 2 ^ (widths.sum + 1) :=
        lt_of_lt_of_le (Nat.lt_of_not_le hupper) (Nat.pow_le_pow_right (by decide) hwidth)
      rw [if_neg hupper, ih hrest hwidths' _ _ hword hbound]

theorem highestBit_eq {word : Word} (hword : word ≠ 0) :
    word.highestBit = .ok word.toNat.log2 := by
  have hcovers : CoversScan scanWidths := by
    simp [scanWidths, CoversScan]
  rw [highestBit, if_neg hword, scanHighest_eq hcovers (by decide) word 0 hword word.isLt, zero_add]

/-! ### Outermost bits -/

theorem getLsbD_log2 {word : Word} (hword : word ≠ 0) : word.getLsbD word.toNat.log2 = true := by
  exact Nat.testBit_log2 (Nat.ne_of_gt (BitVec.toNat_pos_of_ne_zero hword))

theorem getLsbD_eq_false_of_log2_lt {word : Word} {bit : Nat} (hbit : word.toNat.log2 < bit) :
    word.getLsbD bit = false := by
  refine Nat.testBit_lt_two_pow (lt_of_lt_of_le Nat.lt_log2_self ?_)
  exact Nat.pow_le_pow_right (by decide) hbit

theorem ne_zero_of_getLsbD {word : Word} {bit : Nat} (hbit : word.getLsbD bit = true) : word ≠ 0 := by
  rintro rfl
  simp at hbit

theorem highestBit_eq_ok_iff {word : Word} {bit : Nat} :
    word.highestBit = .ok bit ↔
      word.getLsbD bit = true ∧ ∀ other, bit < other → word.getLsbD other = false := by
  constructor
  · intro h
    have hword : word ≠ 0 := by
      rintro rfl
      cases h
    rw [highestBit_eq hword] at h
    cases h
    exact ⟨getLsbD_log2 hword, fun _ => getLsbD_eq_false_of_log2_lt⟩
  · rintro ⟨hset, habove⟩
    have hword := ne_zero_of_getLsbD hset
    rw [highestBit_eq hword, Except.ok.injEq]
    apply le_antisymm
    · by_contra hlt
      have hhighest := getLsbD_log2 hword
      rw [habove _ (Nat.lt_of_not_le hlt)] at hhighest
      cases hhighest
    · by_contra hlt
      rw [getLsbD_eq_false_of_log2_lt (Nat.lt_of_not_le hlt)] at hset
      cases hset

theorem lowestBit_eq_ok_iff {word : Word} {bit : Nat} :
    word.lowestBit = .ok bit ↔
      word.getLsbD bit = true ∧ ∀ other, other < bit → word.getLsbD other = false := by
  constructor
  · intro h
    have hword : word ≠ 0 := by
      rintro rfl
      cases h
    rw [lowestBit, if_neg hword] at h
    cases h
    exact ⟨BitVec.getLsbD_true_ctz_of_ne_zero hword, fun _ => BitVec.getLsbD_false_of_lt_ctz⟩
  · rintro ⟨hset, hbelow⟩
    have hword := ne_zero_of_getLsbD hset
    rw [lowestBit, if_neg hword, Except.ok.injEq]
    apply le_antisymm
    · by_contra hlt
      rw [BitVec.getLsbD_false_of_lt_ctz (Nat.lt_of_not_le hlt)] at hset
      cases hset
    · by_contra hlt
      have hlowest := BitVec.getLsbD_true_ctz_of_ne_zero hword
      rw [hbelow _ (Nat.lt_of_not_le hlt)] at hlowest
      cases hlowest

/-! ### Masks -/

theorem getLsbD_maskThrough {position bit : Nat} (hposition : position < 256) :
    (maskThrough position).getLsbD bit = decide (bit ≤ position) := by
  have hle : 2 ^ position ≤ 2 ^ 255 := Nat.pow_le_pow_right (by decide) (by omega)
  have hpos : 0 < 2 ^ position := Nat.two_pow_pos position
  have hvalue : (maskThrough position).toNat = 2 ^ (position + 1) - 1 := by
    rw [maskThrough, BitVec.natCast_eq_ofNat, BitVec.natCast_eq_ofNat, BitVec.toNat_add,
      BitVec.toNat_sub, toNat_ofNat_one_shiftLeft hposition, pow_succ,
      show (BitVec.ofNat 256 1).toNat = 1 from rfl]
    omega
  rw [BitVec.getLsbD, hvalue, Nat.testBit_two_pow_sub_one]
  exact decide_eq_decide.2 Nat.lt_succ_iff

theorem getLsbD_maskFrom {position bit : Nat} (hposition : position < 256) (hbit : bit < 256) :
    (maskFrom position).getLsbD bit = decide (position ≤ bit) := by
  have hlt : 2 ^ position < 2 ^ 256 := Nat.pow_lt_pow_right (by decide) hposition
  have hpos : 0 < 2 ^ position := Nat.two_pow_pos position
  have hvalue : (BitVec.ofNat 256 (1 <<< position) - 1).toNat = 2 ^ position - 1 := by
    rw [BitVec.toNat_sub, toNat_ofNat_one_shiftLeft hposition, show (1 : Word).toNat = 1 from rfl]
    omega
  rw [maskFrom, BitVec.natCast_eq_ofNat, BitVec.getLsbD_not, BitVec.getLsbD, hvalue,
    Nat.testBit_two_pow_sub_one, decide_eq_true hbit, Bool.true_and, ← decide_not]
  exact decide_eq_decide.2 Nat.not_lt

theorem getLsbD_and_maskThrough {word : Word} {position bit : Nat} (hposition : position < 256) :
    (word &&& maskThrough position).getLsbD bit = true ↔
      word.getLsbD bit = true ∧ bit ≤ position := by
  rw [BitVec.getLsbD_and, getLsbD_maskThrough hposition, Bool.and_eq_true, decide_eq_true_eq]

theorem getLsbD_and_maskFrom {word : Word} {position bit : Nat} (hposition : position < 256) :
    (word &&& maskFrom position).getLsbD bit = true ↔
      word.getLsbD bit = true ∧ position ≤ bit := by
  rw [BitVec.getLsbD_and, Bool.and_eq_true]
  refine and_congr_right fun hset => ?_
  rw [getLsbD_maskFrom hposition (BitVec.lt_of_getLsbD hset), decide_eq_true_eq]

/-! ### Positions of eight bits -/

/-- `scanHighest` with positions of eight bits. A width that would take the position out of them ends the scan with a given failure. -/
def scanHighestOrFail (cause : Error) (word : Word) (passed : UInt8) : List Nat → Except Error UInt8
  | [] => .ok passed
  | width :: widths =>
    if 1 <<< width ≤ word then
      if passed.toNat + width < 256 then
        scanHighestOrFail cause (word >>> width) (passed + UInt8.ofNat width) widths
      else
        .error cause
    else
      scanHighestOrFail cause word passed widths

def highestBitOrFail (cause : Error) (word : Word) : Except Error UInt8 :=
  if word = 0 then .error .zeroValue else scanHighestOrFail cause word 0 scanWidths

theorem toNat_add_ofNat {passed : UInt8} {width : Nat} (hfits : passed.toNat + width < 256) :
    (passed + UInt8.ofNat width).toNat = passed.toNat + width := by
  have hwidth : width < 256 := by omega
  rw [UInt8.toNat_add, UInt8.toNat_ofNat_of_lt' hwidth]
  exact Nat.mod_eq_of_lt hfits

/-- Where the width passed and all widths that are left fit eight bits together, so does every position on the way. -/
theorem scanHighestOrFail_eq (cause : Error) {widths : List Nat} (word : Word) {passed : UInt8}
    (hfits : passed.toNat + widths.sum < 256) :
    (scanHighestOrFail cause word passed widths).map UInt8.toNat =
      .ok (scanHighest word passed.toNat widths) := by
  induction widths generalizing word passed with
  | nil => rfl
  | cons width widths ih =>
    rw [List.sum_cons] at hfits
    rw [scanHighestOrFail, scanHighest]
    by_cases hupper : 1 <<< width ≤ word
    · have hwidth : passed.toNat + width < 256 := by omega
      have hpassed := toNat_add_ofNat hwidth
      rw [if_pos hupper, if_pos hupper, if_pos hwidth, ih, hpassed]
      omega
    · rw [if_neg hupper, if_neg hupper, ih]
      omega

theorem highestBitOrFail_eq (cause : Error) (word : Word) :
    (word.highestBitOrFail cause).map UInt8.toNat = word.highestBit := by
  rw [highestBitOrFail, highestBit]
  by_cases hword : word = 0
  · rw [if_pos hword, if_pos hword]
    rfl
  · rw [if_neg hword, if_neg hword]
    exact scanHighestOrFail_eq cause word (by decide)

/-! ### What a scan finds -/

def setBits (word : Word) : Set Nat := {bit | word.getLsbD bit = true}

/-- What a scan answers with: the outermost of some positions, or the failure of a zero word if there is none. -/
def Finds (answer : Except Error Nat) (outermost : Set Nat → Nat → Prop) (positions : Set Nat) : Prop :=
  (∃ bit, answer = .ok bit ∧ outermost positions bit) ∨
    (answer = .error .zeroValue ∧ positions = ∅)

theorem mem_setBits {word : Word} {bit : Nat} : bit ∈ word.setBits ↔ word.getLsbD bit = true := Iff.rfl

theorem setBits_zero : setBits 0 = ∅ := by
  rw [Set.eq_empty_iff_forall_notMem]
  intro bit hbit
  exact ne_zero_of_getLsbD hbit rfl

theorem finds_highestBit (word : Word) : Finds word.highestBit IsGreatest word.setBits := by
  by_cases hword : word = 0
  · rw [hword]
    exact Or.inr ⟨rfl, setBits_zero⟩
  · have hhighest := highestBit_eq hword
    obtain ⟨hset, habove⟩ := highestBit_eq_ok_iff.1 hhighest
    refine Or.inl ⟨word.toNat.log2, hhighest, hset, fun other hother => ?_⟩
    by_contra hlt
    exact Bool.eq_false_iff.1 (habove other (Nat.lt_of_not_le hlt)) hother

theorem finds_lowestBit (word : Word) : Finds word.lowestBit IsLeast word.setBits := by
  by_cases hword : word = 0
  · rw [hword]
    exact Or.inr ⟨rfl, setBits_zero⟩
  · have hlowest : word.lowestBit = .ok word.ctz.toNat := if_neg hword
    obtain ⟨hset, hbelow⟩ := lowestBit_eq_ok_iff.1 hlowest
    refine Or.inl ⟨word.ctz.toNat, hlowest, hset, fun other hother => ?_⟩
    by_contra hlt
    exact Bool.eq_false_iff.1 (hbelow other (Nat.lt_of_not_le hlt)) hother

theorem setBits_and_maskThrough (word : Word) {position : Nat} (hposition : position < 256) :
    (word &&& maskThrough position).setBits = word.setBits ∩ Set.Iic position := by
  ext bit
  exact getLsbD_and_maskThrough hposition

theorem setBits_and_maskFrom (word : Word) {position : Nat} (hposition : position < 256) :
    (word &&& maskFrom position).setBits = word.setBits ∩ Set.Ici position := by
  ext bit
  exact getLsbD_and_maskFrom hposition

/-- The scan for the highest bit finds the power of two at or below a word, with positions that never leave eight bits. Behind the masks of a position the two scans find the nearest set bits on its sides, the position included, and fail if there are none. -/
theorem scans_find_nearest_set_bits (word : Word) :
    (word ≠ 0 → ∃ bit, word.highestBit = .ok bit ∧
      2 ^ bit ≤ word.toNat ∧ word.toNat < 2 ^ (bit + 1)) ∧
    (∀ cause, (word.highestBitOrFail cause).map UInt8.toNat = word.highestBit) ∧
    ∀ position, position < 256 →
      Finds (word &&& maskThrough position).highestBit IsGreatest
        (word.setBits ∩ Set.Iic position) ∧
      Finds (word &&& maskFrom position).lowestBit IsLeast (word.setBits ∩ Set.Ici position) := by
  refine ⟨fun hword => ?_, fun cause => highestBitOrFail_eq cause word,
    fun position hposition => ⟨?_, ?_⟩⟩
  · have hne : word.toNat ≠ 0 := Nat.ne_of_gt (BitVec.toNat_pos_of_ne_zero hword)
    exact ⟨_, highestBit_eq hword, Nat.log2_self_le hne, Nat.lt_log2_self⟩
  · rw [← setBits_and_maskThrough word hposition]
    exact finds_highestBit _
  · rw [← setBits_and_maskFrom word hposition]
    exact finds_lowestBit _

def sparseWord : Word := BitVec.twoPow 256 255 ||| BitVec.twoPow 256 7

/-- At the last position neither mask wraps to nothing, and what is found is the largest position of eight bits. At the first position nothing is left of a word whose first bit is clear. -/
theorem scans_find_last_bit_and_none :
    sparseWord ≠ 0 ∧ (sparseWord.highestBitOrFail .overflow).map UInt8.toNat = .ok 255 ∧
      (sparseWord &&& maskThrough 255).highestBit = .ok 255 ∧
      (sparseWord &&& maskFrom 255).lowestBit = .ok 255 ∧
      (sparseWord &&& maskThrough 0).highestBit = .error .zeroValue := by
  have hbits (bit : Nat) : bit ∈ sparseWord.setBits ↔ 255 = bit ∨ 7 = bit := by
    simp [mem_setBits, sparseWord, BitVec.getLsbD_twoPow]
  have hlast : 255 ∈ sparseWord.setBits := (hbits 255).2 (Or.inl rfl)
  have hword : sparseWord ≠ 0 := ne_zero_of_getLsbD hlast
  obtain ⟨hlog, hnarrow, hmasked⟩ := scans_find_nearest_set_bits sparseWord
  refine ⟨hword, ?_, ?_, ?_, ?_⟩
  · obtain ⟨bit, hhighest, hle, hlt⟩ := hlog hword
    have hbelow : bit < 256 := (Nat.pow_lt_pow_iff_right Nat.one_lt_two).1 (hle.trans_lt sparseWord.isLt)
    have habove : 255 < bit + 1 :=
      (Nat.pow_lt_pow_iff_right Nat.one_lt_two).1 (lt_of_le_of_lt (by decide +kernel) hlt)
    rw [hnarrow, hhighest, show bit = 255 by omega]
  · obtain ⟨bit, hanswer, ⟨-, hle⟩, hgreatest⟩ | ⟨-, hempty⟩ := (hmasked 255 (by decide)).1
    · rw [hanswer, le_antisymm hle (hgreatest ⟨hlast, Set.self_mem_Iic⟩)]
    · exact absurd hempty (Set.Nonempty.ne_empty ⟨255, hlast, Set.self_mem_Iic⟩)
  · obtain ⟨bit, hanswer, ⟨-, hge⟩, hleast⟩ | ⟨-, hempty⟩ := (hmasked 255 (by decide)).2
    · rw [hanswer, le_antisymm (hleast ⟨hlast, Set.self_mem_Ici⟩) hge]
    · exact absurd hempty (Set.Nonempty.ne_empty ⟨255, hlast, Set.self_mem_Ici⟩)
  · obtain ⟨bit, -, ⟨hset, hle⟩, -⟩ | ⟨hanswer, -⟩ := (hmasked 0 (by decide)).1
    · rw [hbits] at hset
      rw [Set.mem_Iic] at hle
      omega
    · exact hanswer

end ConcentratedLiquidity.Word
