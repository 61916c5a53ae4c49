import TinyOs.Kernel.Bitmap
import Mathlib.Data.List.Find

/-!
The storage of `lib/kernel/bitmap.c`. A `struct bitmap` keeps its `bit_cnt` bits in
`elem_cnt (bit_cnt)` elements of `elem_type`, `unsigned long`, 32 bits on the 80x86: bit `idx`
is bit `idx % ELEM_BITS` of element `idx / ELEM_BITS` (`elem_idx`, `bit_mask`). Only
`bitmap_test`, `bitmap_mark` and `bitmap_reset` touch the elements; the loops above them
(`bitmap_set_multiple`, `bitmap_contains`, `bitmap_scan`, `bitmap_scan_and_flip`) are those of
`Bitmap`, over these.

* `ElemBitmap`: the elements, as many as `elem_cnt` says;
* `test_mark`, `test_reset`: marking or resetting a bit of the map changes that bit only, also
  when the other bit shares its element;
* `toBitmap`: the bits the elements hold, in order; `toBitmap_setMultiple`, `contains_eq`,
  `scan_eq` and `toBitmap_scanAndFlip` say that each function of the map refines the one of
  `Bitmap`, and `fits_iff` that a run of bits fits in one exactly when it fits in the other.
-/

namespace TinyOs

/-- `ELEM_BITS`: `elem_type` is `unsigned long`, 32 bits on the 80x86. -/
def elemBits : ℕ := 32

/-- `elem_idx (bit_idx)`. -/
def elemIdx (bitIdx : ℕ) : ℕ := bitIdx / elemBits

/-- `bit_mask (bit_idx)`. -/
def bitMask (bitIdx : ℕ) : BitVec 32 := 1#32 <<< (bitIdx % elemBits)

/-- `elem_cnt (bit_cnt)`: `DIV_ROUND_UP (bit_cnt, ELEM_BITS)`. -/
def elemCnt (bitCnt : ℕ) : ℕ := (bitCnt + elemBits - 1) / elemBits

/-- `struct bitmap` as `bitmap.c` lays it out: `bit_cnt` and the array `bits` of
`elem_cnt (bit_cnt)` elements. -/
structure ElemBitmap where
  bitCnt : ℕ
  bits : List (BitVec 32)
  length_bits : bits.length = elemCnt bitCnt

namespace ElemBitmap

variable (b : ElemBitmap)

/-- `b->bits[i]`. -/
def elem (i : ℕ) : BitVec 32 := b.bits.getD i 0

/-- `b->bits[i] = e`. -/
def setElem (i : ℕ) (e : BitVec 32) : ElemBitmap :=
  ⟨b.bitCnt, b.bits.set i e, by rw [List.length_set, b.length_bits]⟩

/-- `bitmap_mark`: `b->bits[idx] |= mask`. -/
def mark (bitIdx : ℕ) : ElemBitmap :=
  b.setElem (elemIdx bitIdx) (b.elem (elemIdx bitIdx) ||| bitMask bitIdx)

/-- `bitmap_reset`: `b->bits[idx] &= ~mask`. -/
def reset (bitIdx : ℕ) : ElemBitmap :=
  b.setElem (elemIdx bitIdx) (b.elem (elemIdx bitIdx) &&& ~~~bitMask bitIdx)

/-- `bitmap_set`. -/
def set (idx : ℕ) (value : Bool) : ElemBitmap := if value then b.mark idx else b.reset idx

/-- `bitmap_test`. -/
def test (idx : ℕ) : Bool := (b.elem (elemIdx idx) &&& bitMask idx) != 0

/-- `bitmap_set_multiple`: bits `start`, `start + 1`, ..., `start + cnt - 1`, in that order. -/
def setMultiple : ElemBitmap → ℕ → ℕ → Bool → ElemBitmap
  | b, _, 0, _ => b
  | b, start, cnt + 1, value => (b.set start value).setMultiple (start + 1) cnt value

/-- `bitmap_contains`. -/
def contains (start cnt : ℕ) (value : Bool) : Bool :=
  (List.range cnt).any fun i => b.test (start + i) == value

/-- `bitmap_scan`. -/
def scan (start cnt : ℕ) (value : Bool) : Option ℕ :=
  if cnt ≤ b.bitCnt then
    (List.range' start (b.bitCnt - cnt + 1 - start)).find? fun i => !b.contains i cnt (!value)
  else none

/-- `bitmap_scan_and_flip`. -/
def scanAndFlip (start cnt : ℕ) (value : Bool) : Option ℕ × ElemBitmap :=
  match b.scan start cnt value with
  | some idx => (some idx, b.setMultiple idx cnt (!value))
  | none => (none, b)

/-- The `cnt` bits from `i` lie in the map and are all `value`. -/
def Fits (cnt : ℕ) (value : Bool) (i : ℕ) : Prop :=
  i + cnt ≤ b.bitCnt ∧ ∀ k < cnt, b.test (i + k) = value

/-- The bits the elements hold, in order. -/
def toBitmap : Bitmap := ⟨(List.range b.bitCnt).map b.test⟩

/-! ### One bit -/

variable {b}

/-- The mask of a bit tests that bit of an element. -/
lemma and_bitMask_ne_zero (e : BitVec 32) (idx : ℕ) :
    ((e &&& bitMask idx) != 0) = e.getLsbD (idx % 32) := by
  have hlt : idx % 32 < 32 := Nat.mod_lt _ (by decide)
  unfold bitMask elemBits
  rw [← BitVec.twoPow_eq, BitVec.and_twoPow]
  have hne : BitVec.twoPow 32 (idx % 32) ≠ 0#32 := fun h => by
    have := congrArg (fun x => x.getLsbD (idx % 32)) h
    simp [hlt] at this
  cases e.getLsbD (idx % 32) <;> simp [hne]

lemma test_eq (idx : ℕ) : b.test idx = (b.elem (elemIdx idx)).getLsbD (idx % 32) :=
  and_bitMask_ne_zero _ idx

lemma elemIdx_lt {idx : ℕ} (h : idx < b.bitCnt) : elemIdx idx < b.bits.length := by
  rw [b.length_bits]
  unfold elemIdx elemCnt elemBits
  omega

@[simp] lemma setElem_bitCnt (i : ℕ) (e : BitVec 32) : (b.setElem i e).bitCnt = b.bitCnt := rfl

@[simp] lemma set_bitCnt (idx : ℕ) (value : Bool) : (b.set idx value).bitCnt = b.bitCnt := by
  unfold set mark reset
  split_ifs <;> rfl

lemma elem_setElem {i : ℕ} (hi : i < b.bits.length) (e : BitVec 32) (k : ℕ) :
    (b.setElem i e).elem k = if k = i then e else b.elem k := by
  by_cases h : k = i
  · subst h
    simp [elem, setElem, hi]
  · simp [elem, setElem, Ne.symm h, h]

/-- Bits `i` and `j` share an element and a position in it only when they are the same bit. -/
lemma eq_of_elemIdx_eq {i j : ℕ} (he : elemIdx j = elemIdx i) (hm : j % 32 = i % 32) : j = i := by
  unfold elemIdx elemBits at he
  omega

/-- `bitmap_mark` of a bit of the map sets that bit and keeps every other one. -/
lemma test_mark {i : ℕ} (hi : i < b.bitCnt) (j : ℕ) : (b.mark i).test j = (b.test j || j == i) := by
  rw [test_eq, mark, elem_setElem (elemIdx_lt hi), test_eq]
  by_cases he : elemIdx j = elemIdx i
  · -- the same element: only the masked position changes
    rw [if_pos he, he, BitVec.getLsbD_or]
    unfold bitMask elemBits
    rw [← BitVec.twoPow_eq, BitVec.getLsbD_twoPow]
    have hlt : i % 32 < 32 := Nat.mod_lt _ (by decide)
    by_cases hm : j % 32 = i % 32
    · simp [hlt, eq_of_elemIdx_eq he hm]
    · have hji : j ≠ i := fun h => hm (h ▸ rfl)
      simp [hlt, Ne.symm hm, hji]
  · have hji : j ≠ i := fun h => he (h ▸ rfl)
    rw [if_neg he]
    simp [hji]

/-- `bitmap_reset` of a bit of the map clears that bit and keeps every other one. -/
lemma test_reset {i : ℕ} (hi : i < b.bitCnt) (j : ℕ) :
    (b.reset i).test j = (b.test j && j != i) := by
  rw [test_eq, reset, elem_setElem (elemIdx_lt hi), test_eq]
  by_cases he : elemIdx j = elemIdx i
  · rw [if_pos he, he, BitVec.getLsbD_and, BitVec.getLsbD_not]
    unfold bitMask elemBits
    rw [← BitVec.twoPow_eq, BitVec.getLsbD_twoPow]
    have hlt : i % 32 < 32 := Nat.mod_lt _ (by decide)
    have hlt' : j % 32 < 32 := Nat.mod_lt _ (by decide)
    by_cases hm : j % 32 = i % 32
    · simp [hlt, eq_of_elemIdx_eq he hm]
    · have hji : j ≠ i := fun h => hm (h ▸ rfl)
      simp [hlt, hlt', Ne.symm hm, hji]
  · have hji : j ≠ i := fun h => he (h ▸ rfl)
    rw [if_neg he]
    simp [hji]

/-! ### Refinement of `Bitmap` -/

@[simp] lemma toBitmap_size : b.toBitmap.size = b.bitCnt := by
  simp [toBitmap, Bitmap.size]

lemma test_toBitmap (j : ℕ) : b.toBitmap.test j = (decide (j < b.bitCnt) && b.test j) := by
  unfold toBitmap Bitmap.test
  simp only [List.getD_eq_getElem?_getD, List.getElem?_map]
  by_cases hj : j < b.bitCnt <;> simp [hj]

lemma toBitmap_set {idx : ℕ} (h : idx < b.bitCnt) (value : Bool) :
    (b.set idx value).toBitmap = b.toBitmap.set idx value := by
  refine Bitmap.eq_of_test (by simp) fun j => ?_
  rw [test_toBitmap, Bitmap.test_set, test_toBitmap, toBitmap_size, set_bitCnt]
  by_cases hj : j = idx
  · subst hj
    cases value <;> simp [set, test_mark h, test_reset h, h]
  · have hne : (j != idx) = true := bne_iff_ne.mpr hj
    have hbeq : (j == idx) = false := beq_eq_false_iff_ne.mpr hj
    cases value <;> simp [set, test_mark h, test_reset h, hj, hne, hbeq]

lemma toBitmap_setMultiple {start cnt : ℕ} (h : start + cnt ≤ b.bitCnt) (value : Bool) :
    (b.setMultiple start cnt value).toBitmap = b.toBitmap.setMultiple start cnt value := by
  induction cnt generalizing b start with
  | zero => rfl
  | succ cnt ih =>
    rw [setMultiple, Bitmap.setMultiple, ih (by rw [set_bitCnt]; omega),
      toBitmap_set (by omega)]

lemma contains_eq {start cnt : ℕ} (h : start + cnt ≤ b.bitCnt) (value : Bool) :
    b.contains start cnt value = b.toBitmap.contains start cnt value := by
  apply Bool.eq_iff_iff.mpr
  rw [Bitmap.contains_eq_true_iff]
  simp only [contains, List.any_eq_true, List.mem_range, beq_iff_eq]
  refine exists_congr fun i => and_congr_right fun hi => ?_
  rw [test_toBitmap, decide_eq_true (by omega : start + i < b.bitCnt), Bool.true_and]

/-- The loop of `bitmap_scan` over the elements finds what it finds over the bits. -/
theorem scan_eq (start cnt : ℕ) (value : Bool) :
    b.scan start cnt value = b.toBitmap.scan start cnt value := by
  unfold scan Bitmap.scan
  rw [toBitmap_size]
  split_ifs with hcnt
  · -- every index the loop reaches leaves room for the run
    refine List.find?_congr fun i hi => ?_
    rw [List.mem_range'_1] at hi
    rw [contains_eq (by omega)]
  · rfl

theorem toBitmap_scanAndFlip (start cnt : ℕ) (value : Bool) :
    (b.scanAndFlip start cnt value).1 = (b.toBitmap.scanAndFlip start cnt value).1 ∧
      (b.scanAndFlip start cnt value).2.toBitmap = (b.toBitmap.scanAndFlip start cnt value).2 := by
  unfold scanAndFlip Bitmap.scanAndFlip
  rw [scan_eq]
  cases hs : b.toBitmap.scan start cnt value with
  | none => exact ⟨rfl, rfl⟩
  | some idx =>
    have hfit := (Bitmap.scan_eq_some hs).2.1
    rw [toBitmap_size] at hfit
    exact ⟨rfl, toBitmap_setMultiple hfit _⟩

lemma fits_iff {cnt i : ℕ} {value : Bool} : b.Fits cnt value i ↔ b.toBitmap.Fits cnt value i := by
  unfold Fits Bitmap.Fits
  rw [toBitmap_size]
  refine and_congr_right fun h => forall₂_congr fun k hk => ?_
  rw [test_toBitmap, decide_eq_true (by omega : i + k < b.bitCnt), Bool.true_and]

/-! ### First fit over the elements -/

@[simp] lemma setMultiple_bitCnt (start cnt : ℕ) (value : Bool) :
    (b.setMultiple start cnt value).bitCnt = b.bitCnt := by
  induction cnt generalizing b start with
  | zero => rfl
  | succ cnt ih => rw [setMultiple, ih, set_bitCnt]

/-- `bitmap_scan` is first fit: the least `i` from `start` on whose `cnt` bits lie in the map
and are all `value`. -/
theorem scan_eq_some_iff {start cnt i : ℕ} {value : Bool} :
    b.scan start cnt value = some i ↔
      start ≤ i ∧ b.Fits cnt value i ∧ ∀ k, start ≤ k → k < i → ¬ b.Fits cnt value k := by
  simp only [scan_eq, Bitmap.scan_eq_some_iff, fits_iff]

theorem scan_eq_none_iff {start cnt : ℕ} {value : Bool} :
    b.scan start cnt value = none ↔ ∀ k, start ≤ k → ¬ b.Fits cnt value k := by
  simp only [scan_eq, Bitmap.scan_eq_none_iff, fits_iff]

lemma scanAndFlip_of_none {start cnt : ℕ} {value : Bool} (h : b.scan start cnt value = none) :
    b.scanAndFlip start cnt value = (none, b) := by
  unfold scanAndFlip
  rw [h]

/-- `bitmap_scan_and_flip` turns exactly the run `bitmap_scan` finds to `!value`. -/
theorem test_scanAndFlip {start cnt i j : ℕ} {value : Bool} (h : b.scan start cnt value = some i)
    (hj : j < b.bitCnt) :
    (b.scanAndFlip start cnt value).2.test j = if i ≤ j ∧ j < i + cnt then !value else b.test j := by
  have hflip : b.scanAndFlip start cnt value = (some i, b.setMultiple i cnt (!value)) := by
    unfold scanAndFlip
    rw [h]
  have hfit := (Bitmap.scan_eq_some (h ▸ scan_eq start cnt value).symm).2.1
  rw [toBitmap_size] at hfit
  have ht := congrArg (fun m => m.test j) (toBitmap_setMultiple hfit (!value))
  simp only [test_toBitmap, setMultiple_bitCnt, Bitmap.test_setMultiple, toBitmap_size,
    decide_eq_true hj, Bool.true_and] at ht
  rw [hflip, ht]
  by_cases hin : i ≤ j ∧ j < i + cnt
  · rw [if_pos ⟨hin.1, hin.2, hj⟩, if_pos hin]
  · rw [if_neg fun h' => hin ⟨h'.1, h'.2.1⟩, if_neg hin]

end ElemBitmap

end TinyOs
