import TinyOs.Kernel.BitmapElems
import TinyOs.Lib.HeldExtents
import TinyOs.Threads.Malloc
import TinyOs.Filesys.Create

/-!
The two allocators over bitmaps: `palloc_get_multiple` and `palloc_free_multiple` over a pool's
`used_map`, and `free_map_allocate` and `free_map_release` over the free map. Each hands out the
first run of clear bits that `bitmap_scan_and_flip` finds and clears a run when it is given
back. Over every run of calls in which a caller gives back only a run it holds, the runs the
callers hold cover exactly the set bits (`Extent.Holds`), so a run an allocator hands out meets
no run that is still held.

* `Pool.toBitmap`: a pool's `used_map`; `Pool.scan_eq`: the pool's scan is
  `bitmap_scan (used_map, 0, cnt, false)`;
* `PoolReach`, `FreeMapReach`: the runs of calls, with the runs the callers hold;
* `PoolReach.holds`, `FreeMapReach.holds`: the invariant, kept by every call;
* `bitmap_first_fit_allocators`: `bitmap_scan` over the elements is first fit, the flip changes
  exactly the run it finds, and neither allocator hands out a run that is still held.
-/

namespace TinyOs

namespace Pool

variable (p : Pool)

/-- The pool's `used_map`. -/
def toBitmap : Bitmap := ⟨(List.range p.size).map p.used⟩

variable {p}

@[simp] lemma toBitmap_size : p.toBitmap.size = p.size := by
  simp [toBitmap, Bitmap.size]

lemma test_toBitmap (j : ℕ) : p.toBitmap.test j = (decide (j < p.size) && p.used j) := by
  unfold toBitmap Bitmap.test
  simp only [List.getD_eq_getElem?_getD, List.getElem?_map]
  by_cases hj : j < p.size <;> simp [hj]

/-- The pool's scan is `bitmap_scan (used_map, 0, cnt, false)`. -/
lemma scan_eq (cnt : ℕ) : p.scan cnt = p.toBitmap.scan 0 cnt false := by
  unfold scan Bitmap.scan
  rw [toBitmap_size]
  split_ifs with hcnt
  · rw [show p.size + 1 - cnt = p.size - cnt + 1 - 0 by omega,
      List.range_eq_range' (n := p.size - cnt + 1 - 0)]
    refine List.find?_congr fun i hi => ?_
    rw [List.mem_range'_1] at hi
    -- every page of a run the loop tries lies in the pool
    have ht : ∀ j < cnt, p.toBitmap.test (i + j) = p.used (i + j) := fun j hj => by
      rw [test_toBitmap, decide_eq_true (by omega), Bool.true_and]
    apply Bool.eq_iff_iff.mpr
    simp only [List.all_eq_true, List.mem_range, Bitmap.contains,
      Bool.not_true, Bool.not_eq_eq_eq_not, List.any_eq_false, beq_iff_eq]
    exact forall₂_congr fun j hj => by rw [ht j hj]; simp
  · rw [show p.size + 1 - cnt = 0 by omega]
    rfl

lemma toBitmap_setRun (i cnt : ℕ) (flag : Bool) :
    (p.setRun i cnt flag).toBitmap = p.toBitmap.setMultiple i cnt flag := by
  refine Bitmap.eq_of_test (by simp [setRun]) fun j => ?_
  rw [test_toBitmap, Bitmap.test_setMultiple, test_toBitmap, toBitmap_size]
  simp only [setRun]
  by_cases hj : i ≤ j ∧ j < i + cnt <;> by_cases hs : j < p.size <;> simp [hj, hs]

end Pool

/-! ### Pages -/

variable {p p' : Pool}

/-- `palloc_get_multiple` takes the run the pool's scan finds. -/
lemma pallocGetMultiple_eq_some {cnt addr : ℕ} (h : pallocGetMultiple p cnt = some (addr, p')) :
    ∃ i, p.toBitmap.scan 0 cnt false = some i ∧ addr = p.base + pgSize * i ∧
      p' = p.setRun i cnt true := by
  unfold pallocGetMultiple at h
  split_ifs at h
  cases hs : p.scan cnt with
  | none => rw [hs] at h; cases h
  | some i =>
    rw [hs, Option.map_some, Option.some_inj, Prod.mk.injEq] at h
    exact ⟨i, (Pool.scan_eq cnt) ▸ hs, h.1.symm, h.2.symm⟩

/-- A run `palloc_get_multiple` hands out was clear, and is set after. -/
lemma pallocGetMultiple_ones {cnt addr : ℕ} (h : pallocGetMultiple p cnt = some (addr, p')) :
    p'.base = p.base ∧
      p'.toBitmap.ones = p.toBitmap.ones ∪ Finset.Ico ((addr - p.base) / pgSize)
        ((addr - p.base) / pgSize + cnt) ∧
      Disjoint p.toBitmap.ones
        (Finset.Ico ((addr - p.base) / pgSize) ((addr - p.base) / pgSize + cnt)) := by
  obtain ⟨i, hs, rfl, rfl⟩ := pallocGetMultiple_eq_some h
  have hi : (p.base + pgSize * i - p.base) / pgSize = i := by
    rw [Nat.add_sub_cancel_left, Nat.mul_div_cancel_left _ (by decide)]
  rw [hi, Pool.toBitmap_setRun]
  exact ⟨rfl, Bitmap.ones_of_scan_false hs⟩

/-- `palloc_free_multiple` of the run at page `start` clears it. -/
lemma pallocFreeMultiple_ones {start cnt : ℕ}
    (h : pallocFreeMultiple p (p.base + pgSize * start) cnt = some p') :
    p'.base = p.base ∧ p'.toBitmap.ones = p.toBitmap.ones \ Finset.Ico start (start + cnt) := by
  unfold pallocFreeMultiple at h
  have hi : (p.base + pgSize * start - p.base) / pgSize = start := by
    rw [Nat.add_sub_cancel_left, Nat.mul_div_cancel_left _ (by decide)]
  simp only [hi] at h
  split_ifs at h
  cases h
  rw [Pool.toBitmap_setRun, Bitmap.ones_setMultiple_false]
  exact ⟨rfl, rfl⟩

/-- The pools a run of `palloc_get_multiple` and `palloc_free_multiple` calls reaches from a
pool with no page in use, with the runs of pages the callers hold, by page index; a caller
frees only a run it holds. -/
inductive PoolReach : Pool → List Extent → Prop
  | init {p : Pool} (h : ∀ j, p.used j = false) : PoolReach p []
  | get {p p' : Pool} {held : List Extent} {cnt addr : ℕ} : PoolReach p held →
      pallocGetMultiple p cnt = some (addr, p') →
      PoolReach p' (⟨(addr - p.base) / pgSize, cnt⟩ :: held)
  | free {p p' : Pool} {held : List Extent} {e : Extent} : PoolReach p held → e ∈ held →
      pallocFreeMultiple p (p.base + pgSize * e.start) e.size = some p' →
      PoolReach p' (held.erase e)

/-- Along every run the held runs of pages cover exactly the pages in use. -/
theorem PoolReach.holds {held : List Extent} (h : PoolReach p held) :
    Extent.Holds p.toBitmap.ones held := by
  induction h with
  | init h =>
    have hempty : _ = (∅ : Finset ℕ) := Finset.eq_empty_of_forall_notMem fun j hj => by
      rw [Bitmap.mem_ones, Pool.test_toBitmap, h] at hj
      simp at hj
    rw [hempty]
    exact Extent.holds_nil
  | get _ hget ih =>
    obtain ⟨-, hones, hdisj⟩ := pallocGetMultiple_ones hget
    rw [hones]
    exact ih.take (e := ⟨_, _⟩) hdisj
  | free _ he hfree ih =>
    obtain ⟨-, hones⟩ := pallocFreeMultiple_ones hfree
    rw [hones]
    exact ih.release he

/-! ### Sectors -/

variable {heapOk : ℕ → Bool} {s s' : FsState}

lemma freeMapRelease_ones (sector cnt : ℕ) :
    (s.freeMapRelease sector cnt).freeMap.ones = s.freeMap.ones \ Finset.Ico sector (sector + cnt) :=
  Bitmap.ones_setMultiple_false sector cnt

/-- The free maps a run of `free_map_allocate` and `free_map_release` calls reaches, with the
runs of sectors their owners hold: from a map whose set bits the held runs cover, as
`free_map_open` reads it from the disk; an owner releases only a run it holds. -/
inductive FreeMapReach (heapOk : ℕ → Bool) : FsState → List Extent → Prop
  | init {s : FsState} {held : List Extent} (h : Extent.Holds s.freeMap.ones held) :
      FreeMapReach heapOk s held
  | allocate {s s' : FsState} {held : List Extent} {cnt sector : ℕ} : FreeMapReach heapOk s held →
      s.freeMapAllocate heapOk cnt = (some sector, s') →
      FreeMapReach heapOk s' (⟨sector, cnt⟩ :: held)
  | allocateFail {s s' : FsState} {held : List Extent} {cnt : ℕ} : FreeMapReach heapOk s held →
      s.freeMapAllocate heapOk cnt = (none, s') → FreeMapReach heapOk s' held
  | release {s : FsState} {held : List Extent} {e : Extent} : FreeMapReach heapOk s held →
      e ∈ held → FreeMapReach heapOk (s.freeMapRelease e.start e.size) (held.erase e)

/-- Along every run the held runs of sectors cover exactly the sectors in use. -/
theorem FreeMapReach.holds {held : List Extent} (h : FreeMapReach heapOk s held) :
    Extent.Holds s.freeMap.ones held := by
  induction h with
  | init h => exact h
  | allocate _ halloc ih =>
    obtain ⟨hones, hdisj⟩ := FsState.freeMapAllocate_some halloc
    rw [hones]
    exact ih.take (e := ⟨_, _⟩) hdisj
  | allocateFail _ halloc ih =>
    rw [FsState.freeMapAllocate_none halloc]
    exact ih
  | release _ he ih =>
    rw [freeMapRelease_ones]
    exact ih.release he

/-! ### First fit, and no run handed out twice -/

/-- `bitmap_scan` over the 32-bit elements returns the least index from `start` whose `cnt`
bits lie in the map and all equal `value`, or `BITMAP_ERROR` when there is none;
`bitmap_scan_and_flip` turns exactly that run to `!value`. Along every run of calls in which
only held runs are given back, `palloc_get_multiple` and `free_map_allocate` hand out a run
that meets no run still held. -/
theorem bitmap_first_fit_allocators :
    (∀ (b : ElemBitmap) (start cnt : ℕ) (value : Bool),
      (∀ i, b.scan start cnt value = some i ↔
        start ≤ i ∧ b.Fits cnt value i ∧ ∀ k, start ≤ k → k < i → ¬ b.Fits cnt value k) ∧
      (b.scan start cnt value = none ↔ ∀ k, start ≤ k → ¬ b.Fits cnt value k) ∧
      (∀ i j, b.scan start cnt value = some i → j < b.bitCnt →
        (b.scanAndFlip start cnt value).2.test j =
          if i ≤ j ∧ j < i + cnt then !value else b.test j) ∧
      (b.scan start cnt value = none → b.scanAndFlip start cnt value = (none, b))) ∧
    (∀ (p p' : Pool) (held : List Extent) (cnt addr : ℕ), PoolReach p held →
      pallocGetMultiple p cnt = some (addr, p') → ∀ e ∈ held,
        Disjoint (Finset.Ico ((addr - p.base) / pgSize) ((addr - p.base) / pgSize + cnt))
          e.cells) ∧
    (∀ (heapOk : ℕ → Bool) (s s' : FsState) (held : List Extent) (cnt sector : ℕ),
      FreeMapReach heapOk s held → s.freeMapAllocate heapOk cnt = (some sector, s') →
      ∀ e ∈ held, Disjoint (Finset.Ico sector (sector + cnt)) e.cells) := by
  refine ⟨fun b start cnt value => ⟨fun i => ElemBitmap.scan_eq_some_iff,
    ElemBitmap.scan_eq_none_iff, fun i j h hj => ElemBitmap.test_scanAndFlip h hj,
    ElemBitmap.scanAndFlip_of_none⟩, ?_, ?_⟩
  · intro p p' held cnt addr hp hget e he
    exact hp.holds.disjoint_of_free (e := ⟨_, cnt⟩) (pallocGetMultiple_ones hget).2.2 he
  · intro heapOk s s' held cnt sector hs halloc e he
    exact hs.holds.disjoint_of_free (e := ⟨sector, cnt⟩)
      (FsState.freeMapAllocate_some halloc).2 he

end TinyOs
