import Mathlib.Order.Interval.Finset.Nat
import Mathlib.Algebra.Group.Nat.Defs

/-!
The bitmaps of `lib/kernel/bitmap.c`, as the list of their bits. The free map of the file
system is one, a bit per disk sector, set when the sector is in use.

* `test`, `set`, `setMultiple`, `contains`, `scan`, `scanAndFlip`: the functions the free map
  calls, loop by loop; `BITMAP_ERROR` is `none`;
* `ones`: the set bits, as a finite set of indices;
* `test_setMultiple`, `contains_eq_true_iff`: what a run of writes and a run of tests do to one
  bit;
* `scan_eq_some`: the run `scan` finds lies in the map and holds `value` throughout;
* `ones_setMultiple_true`, `ones_setMultiple_false`: setting a run adds it to the set bits,
  clearing it takes it away.
-/

namespace TinyOs

/-- `struct bitmap`: its `bit_cnt` bits, in order. -/
structure Bitmap where
  bits : List Bool
  deriving DecidableEq, Repr

namespace Bitmap

variable (b : Bitmap)

/-- `bitmap_size`. -/
def size : ℕ := b.bits.length

/-- `bitmap_test`. -/
def test (idx : ℕ) : Bool := b.bits.getD idx false

/-- `bitmap_set`. -/
def set (idx : ℕ) (value : Bool) : Bitmap := ⟨b.bits.set idx value⟩

/-- `bitmap_set_multiple`: bits `start`, `start + 1`, ..., `start + cnt - 1`, in that order. -/
def setMultiple : Bitmap → ℕ → ℕ → Bool → Bitmap
  | b, _, 0, _ => b
  | b, start, cnt + 1, value => (b.set start value).setMultiple (start + 1) cnt value

/-- `bitmap_contains`: some bit of `start` .. `start + cnt - 1` is `value`. -/
def contains (start cnt : ℕ) (value : Bool) : Bool :=
  (List.range cnt).any fun i => b.test (start + i) == value

/-- `bitmap_all`. -/
def all (start cnt : ℕ) : Bool := !b.contains start cnt false

/-- `bitmap_scan`: the first `i` from `start` to `bit_cnt - cnt` whose `cnt` bits are all
`value`. -/
def scan (start cnt : ℕ) (value : Bool) : Option ℕ :=
  if cnt ≤ b.size then
    (List.range' start (b.size - cnt + 1 - start)).find? fun i => !b.contains i cnt (!value)
  else none

/-- `bitmap_scan_and_flip`: `scan`, then the run found is set to `!value`. -/
def scanAndFlip (start cnt : ℕ) (value : Bool) : Option ℕ × Bitmap :=
  match b.scan start cnt value with
  | some idx => (some idx, b.setMultiple idx cnt (!value))
  | none => (none, b)

/-- The indices of the set bits. -/
def ones : Finset ℕ := (Finset.range b.size).filter fun i => b.test i

/-! ### One bit at a time -/

variable {b}

lemma lt_size_of_test {i : ℕ} (h : b.test i = true) : i < b.size := by
  by_contra hge
  simp [test, List.getD_eq_getElem?_getD, List.getElem?_eq_none (not_lt.mp hge)] at h

@[simp] lemma mem_ones {i : ℕ} : i ∈ b.ones ↔ b.test i = true := by
  simp only [ones, Finset.mem_filter, Finset.mem_range]
  exact ⟨fun h => h.2, fun h => ⟨lt_size_of_test h, h⟩⟩

@[simp] lemma size_set (idx : ℕ) (value : Bool) : (b.set idx value).size = b.size := by
  simp [set, size]

lemma test_set (idx i : ℕ) (value : Bool) :
    (b.set idx value).test i = if i = idx ∧ idx < b.size then value else b.test i := by
  simp only [test, set, size, List.getD_eq_getElem?_getD, List.getElem?_set]
  by_cases hi : i = idx
  · subst hi
    by_cases hlt : i < b.bits.length <;> simp [hlt]
  · simp [Ne.symm hi, hi]

@[simp] lemma size_setMultiple (start cnt : ℕ) (value : Bool) :
    (b.setMultiple start cnt value).size = b.size := by
  induction cnt generalizing b start with
  | zero => rfl
  | succ cnt ih => rw [setMultiple, ih, size_set]

/-- A bit inside the run is `value` once it is in the map; every other bit is as it was. -/
lemma test_setMultiple (start cnt i : ℕ) (value : Bool) :
    (b.setMultiple start cnt value).test i =
      if start ≤ i ∧ i < start + cnt ∧ i < b.size then value else b.test i := by
  induction cnt generalizing b start with
  | zero =>
    rw [setMultiple, if_neg (by omega)]
  | succ cnt ih =>
    rw [setMultiple, ih, size_set, test_set]
    -- the run is `start` followed by the run from `start + 1`
    by_cases hi : i = start
    · subst hi
      by_cases hlt : i < b.size <;> simp [hlt]
    · by_cases hin : start + 1 ≤ i ∧ i < start + 1 + cnt ∧ i < b.size
      · rw [if_pos hin, if_pos (by omega)]
      · rw [if_neg hin, if_neg (by omega), if_neg (by omega)]

lemma contains_eq_true_iff (start cnt : ℕ) (value : Bool) :
    b.contains start cnt value = true ↔ ∃ i < cnt, b.test (start + i) = value := by
  simp [contains]

/-- The run `scan` finds lies in the map, after `start`, with every bit `value`. -/
lemma scan_eq_some {start cnt idx : ℕ} {value : Bool} (h : b.scan start cnt value = some idx) :
    start ≤ idx ∧ idx + cnt ≤ b.size ∧
      ∀ i, idx ≤ i → i < idx + cnt → b.test i = value := by
  unfold scan at h
  split_ifs at h with hcnt
  obtain ⟨hfree, -⟩ := List.find?_eq_some_iff_append.mp h
  have hidx : idx ∈ List.range' start (b.size - cnt + 1 - start) :=
    List.mem_of_find?_eq_some h
  rw [List.mem_range'_1] at hidx
  refine ⟨hidx.1, by omega, fun i hi hi' => ?_⟩
  have hnot : b.contains idx cnt (!value) = false := by simpa using hfree
  have hbit : ¬ b.test (idx + (i - idx)) = !value := fun hb =>
    Bool.false_ne_true
      (hnot.symm.trans ((contains_eq_true_iff _ _ _).mpr ⟨i - idx, by omega, hb⟩))
  rw [Nat.add_sub_cancel' hi] at hbit
  cases hv : value <;> simp_all

/-! ### Runs and the set bits -/

/-- Setting a run that lies in the map adds it to the set bits. -/
lemma ones_setMultiple_true {start cnt : ℕ} (h : start + cnt ≤ b.size) :
    (b.setMultiple start cnt true).ones = b.ones ∪ Finset.Ico start (start + cnt) := by
  ext i
  simp only [mem_ones, test_setMultiple, Finset.mem_union, Finset.mem_Ico]
  by_cases hin : start ≤ i ∧ i < start + cnt
  · rw [if_pos ⟨hin.1, hin.2, by omega⟩]
    simp [hin]
  · rw [if_neg (fun h => hin ⟨h.1, h.2.1⟩)]
    simp [hin]

/-- Clearing a run takes it away from the set bits. -/
lemma ones_setMultiple_false (start cnt : ℕ) :
    (b.setMultiple start cnt false).ones = b.ones \ Finset.Ico start (start + cnt) := by
  ext i
  simp only [mem_ones, test_setMultiple, Finset.mem_sdiff, Finset.mem_Ico]
  by_cases hin : start ≤ i ∧ i < start + cnt
  · by_cases hlt : i < b.size
    · simp [hin, hlt]
    · have hclear : b.test i = false := by
        by_contra hb
        exact hlt (lt_size_of_test (by simpa using hb))
      simp [hin, hclear]
  · rw [if_neg (fun h => hin ⟨h.1, h.2.1⟩)]
    simp [hin]

/-- A run of clear bits shares nothing with the set bits. -/
lemma disjoint_ones_of_clear {start cnt : ℕ}
    (h : ∀ i, start ≤ i → i < start + cnt → b.test i = false) :
    Disjoint b.ones (Finset.Ico start (start + cnt)) := by
  rw [Finset.disjoint_right]
  intro i hi hmem
  rw [Finset.mem_Ico] at hi
  rw [mem_ones, h i hi.1 hi.2] at hmem
  exact Bool.false_ne_true hmem

/-- The run a scan for clear bits finds is free, and setting it adds exactly it to the set
bits. -/
lemma ones_of_scan_false {start cnt idx : ℕ} (h : b.scan start cnt false = some idx) :
    (b.setMultiple idx cnt true).ones = b.ones ∪ Finset.Ico idx (idx + cnt) ∧
      Disjoint b.ones (Finset.Ico idx (idx + cnt)) := by
  obtain ⟨-, hsize, hclear⟩ := scan_eq_some h
  exact ⟨ones_setMultiple_true hsize, disjoint_ones_of_clear hclear⟩

/-- `bitmap_scan_and_flip` is a scan followed by flipping the run it finds. -/
lemma scanAndFlip_eq (start cnt : ℕ) (value : Bool) :
    b.scanAndFlip start cnt value =
      ((b.scan start cnt value), ((b.scan start cnt value).elim b
        fun idx => b.setMultiple idx cnt (!value))) := by
  unfold scanAndFlip
  cases b.scan start cnt value <;> rfl

/-! ### First fit -/

/-- The `cnt` bits from `i` lie in the map and are all `value`. -/
def Fits (b : Bitmap) (cnt : ℕ) (value : Bool) (i : ℕ) : Prop :=
  i + cnt ≤ b.size ∧ ∀ k < cnt, b.test (i + k) = value

instance (b : Bitmap) (cnt : ℕ) (value : Bool) : DecidablePred (b.Fits cnt value) := fun _ =>
  inferInstanceAs (Decidable (_ ∧ _))

lemma fits_iff_contains {cnt i : ℕ} {value : Bool} :
    b.Fits cnt value i ↔ i + cnt ≤ b.size ∧ b.contains i cnt (!value) = false := by
  rw [Fits, Bool.eq_false_iff, ne_eq, contains_eq_true_iff]
  cases value <;> simp

/-- `bitmap_scan` is first fit: it returns the least `i` from `start` on whose `cnt` bits lie in
the map and are all `value`. -/
theorem scan_eq_some_iff {start cnt i : ℕ} {value : Bool} :
    b.scan start cnt value = some i ↔
      start ≤ i ∧ b.Fits cnt value i ∧ ∀ k, start ≤ k → k < i → ¬ b.Fits cnt value k := by
  unfold scan
  split_ifs with hcnt
  · -- the loop's test is `Fits` for every index it reaches
    have hp : ∀ k, k + cnt ≤ b.size → ((!b.contains k cnt (!value)) = true ↔ b.Fits cnt value k) :=
      fun k hk => by rw [fits_iff_contains]; simp [hk]
    rw [List.find?_range'_eq_some, List.mem_range'_1]
    constructor
    · rintro ⟨hi, ⟨hs, hlt⟩, hmin⟩
      refine ⟨hs, (hp i (by omega)).mp hi, fun k hk hki hfit => ?_⟩
      have hk' := hmin k hk hki
      rw [(hp k (by omega)).mpr hfit] at hk'
      exact absurd hk' (by decide)
    · rintro ⟨hs, hfit, hmin⟩
      have hi := hfit.1
      refine ⟨(hp i hi).mpr hfit, ⟨hs, by omega⟩, fun k hk hki => ?_⟩
      have hk' := hmin k hk hki
      rw [← hp k (by omega)] at hk'
      simpa using hk'
  · simp only [false_iff, not_and]
    exact fun _ hfit => absurd (le_trans (Nat.le_add_left _ _) hfit.1) hcnt

/-- `bitmap_scan` finds nothing exactly when no run of `cnt` bits from `start` on fits. -/
theorem scan_eq_none_iff {start cnt : ℕ} {value : Bool} :
    b.scan start cnt value = none ↔ ∀ k, start ≤ k → ¬ b.Fits cnt value k := by
  unfold scan
  split_ifs with hcnt
  · rw [List.find?_range'_eq_none]
    have hp : ∀ k, k + cnt ≤ b.size → ((!b.contains k cnt (!value)) = true ↔ b.Fits cnt value k) :=
      fun k hk => by rw [fits_iff_contains]; simp [hk]
    constructor
    · intro h k hk hfit
      have hk' := h k hk (by have := hfit.1; omega)
      rw [(hp k hfit.1).mpr hfit] at hk'
      exact absurd hk' (by decide)
    · intro h k hk hlt
      have hk' := h k hk
      rw [← hp k (by omega)] at hk'
      simpa using hk'
  · simp only [true_iff]
    exact fun k _ hfit => hcnt (le_trans (Nat.le_add_left _ _) hfit.1)

/-- Two maps with the same size and the same bits are equal. -/
lemma eq_of_test {b' : Bitmap} (hs : b.size = b'.size) (ht : ∀ i, b.test i = b'.test i) :
    b = b' := by
  obtain ⟨l⟩ := b
  obtain ⟨l'⟩ := b'
  congr 1
  refine List.ext_getElem hs fun i h h' => ?_
  have := ht i
  simp only [test, List.getD_eq_getElem?_getD, List.getElem?_eq_getElem h,
    List.getElem?_eq_getElem h', Option.getD_some] at this
  exact this

/-- Setting a run of clear bits and clearing it again gives the map back: the undo of
`free_map_allocate` when writing the map fails. -/
lemma setMultiple_true_false {start cnt : ℕ}
    (hclear : ∀ i, start ≤ i → i < start + cnt → b.test i = false) :
    (b.setMultiple start cnt true).setMultiple start cnt false = b := by
  refine eq_of_test (by simp) fun i => ?_
  rw [test_setMultiple, test_setMultiple, size_setMultiple]
  split_ifs with h
  · exact (hclear i h.1 h.2.1).symm
  · rfl

end Bitmap

end TinyOs
