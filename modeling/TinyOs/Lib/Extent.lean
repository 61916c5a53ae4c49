import Mathlib.Order.Interval.Finset.Nat

/-!
Free lists of extents: a finite set of cells kept as the list of its maximal runs
`[start, start + size)`, in increasing order and with a gap between neighbours, the way a
first-fit allocator of contiguous runs keeps its free space.

* `Extent.Gapped`: the canonical form: positive sizes, increasing starts, and no two
  neighbours touching; `gapped_cons_iff` reads it one extent at a time through `cover`;
* `Extent.cover`: the cells a list of extents covers;
* `carveFirst`: first-fit allocation of `k` cells from the front of the first extent that
  holds them, dropping the extent when it is used up; `carveFirst_eq_none_iff` says when it
  fails, `carveFirst_subset` and `carveFirst_cover` what it takes, and `carveFirst_gapped`
  that the canonical form survives;
* `insertCoalesce`: ordered insertion of a freed extent, merged first with its right and then
  with its left neighbour; `insertCoalesce_cover` and `insertCoalesce_gapped`.
-/

/-- A run `[start, start + size)` of consecutive cells. -/
structure Extent where
  start : ℕ
  size : ℕ
  deriving DecidableEq, Repr

namespace Extent

/-- One past the last cell of the extent. -/
def stop (e : Extent) : ℕ := e.start + e.size

/-- The cells of an extent. -/
def cells (e : Extent) : Finset ℕ := Finset.Ico e.start e.stop

@[simp] lemma mem_cells {e : Extent} {n : ℕ} :
    n ∈ e.cells ↔ e.start ≤ n ∧ n < e.start + e.size := by
  simp [cells, stop]

/-- The cells a list of extents covers. -/
def cover : List Extent → Finset ℕ
  | [] => ∅
  | e :: l => e.cells ∪ cover l

@[simp] lemma cover_nil : cover [] = ∅ := rfl

@[simp] lemma cover_cons (e : Extent) (l : List Extent) :
    cover (e :: l) = e.cells ∪ cover l := rfl

lemma mem_cover {l : List Extent} {n : ℕ} : n ∈ cover l ↔ ∃ e ∈ l, n ∈ e.cells := by
  induction l with
  | nil => simp
  | cons e l ih => simp [ih]

lemma cells_subset_cover {e : Extent} {l : List Extent} (he : e ∈ l) : e.cells ⊆ cover l :=
  fun _ hn => mem_cover.mpr ⟨e, he, hn⟩

/-! ### The canonical form -/

/-- A free list in canonical form: every extent is nonempty and ends strictly before the next
one starts, so the extents are sorted, disjoint and never touch. -/
inductive Gapped : List Extent → Prop
  | nil : Gapped []
  | single {e : Extent} : 0 < e.size → Gapped [e]
  | cons {e f : Extent} {l : List Extent} :
      0 < e.size → e.stop < f.start → Gapped (f :: l) → Gapped (e :: f :: l)

lemma Gapped.tail {e : Extent} {l : List Extent} (h : Gapped (e :: l)) : Gapped l := by
  cases h with
  | single _ => exact .nil
  | cons _ _ hl => exact hl

lemma Gapped.size_pos {e : Extent} {l : List Extent} (h : Gapped (e :: l)) : 0 < e.size := by
  cases h with
  | single he => exact he
  | cons he _ _ => exact he

lemma Gapped.size_pos_of_mem {l : List Extent} (h : Gapped l) {e : Extent} (he : e ∈ l) :
    0 < e.size := by
  induction h with
  | nil => simp at he
  | single hpos =>
      rw [List.mem_singleton.mp he]
      exact hpos
  | cons hpos _ _ ih =>
      rcases List.mem_cons.mp he with rfl | he
      · exact hpos
      · exact ih he

/-- Every cell behind the first extent lies beyond its end. -/
lemma Gapped.stop_lt {e : Extent} {l : List Extent} (h : Gapped (e :: l)) :
    ∀ n ∈ cover l, e.stop < n := by
  induction l generalizing e with
  | nil => simp
  | cons f l ih =>
      cases h with
      | cons _ hef hfl =>
          intro n hn
          rcases Finset.mem_union.mp hn with hn | hn
          · have := mem_cells.mp hn
            omega
          · have hf := ih hfl n hn
            have := hfl.size_pos
            unfold stop at hef hf ⊢
            omega

/-- The canonical form, one extent at a time: a nonempty extent in front of a canonical list
all of whose cells lie beyond its end. -/
lemma gapped_cons_iff {e : Extent} {l : List Extent} :
    Gapped (e :: l) ↔ 0 < e.size ∧ Gapped l ∧ ∀ n ∈ cover l, e.stop < n := by
  refine ⟨fun h => ⟨h.size_pos, h.tail, h.stop_lt⟩, ?_⟩
  rintro ⟨he, hl, hlt⟩
  cases l with
  | nil => exact .single he
  | cons f l =>
      refine .cons he (hlt f.start ?_) hl
      have := hl.size_pos
      simp
      omega

lemma Gapped.disjoint {e : Extent} {l : List Extent} (h : Gapped (e :: l)) :
    Disjoint e.cells (cover l) := by
  rw [Finset.disjoint_left]
  intro n hn hn'
  have := h.stop_lt n hn'
  have := mem_cells.mp hn
  unfold stop at *
  omega

/-- A canonical list whose cells lie below `d` has every extent ending by `d`. -/
lemma Gapped.stop_le {l : List Extent} {d : ℕ} (hl : Gapped l)
    (hsub : cover l ⊆ Finset.range d) : ∀ e ∈ l, e.stop ≤ d := by
  intro e he
  have hpos := hl.size_pos_of_mem he
  have := hsub (cells_subset_cover he (show e.stop - 1 ∈ e.cells by
    simp only [mem_cells, stop]
    omega))
  simp only [Finset.mem_range, stop] at this ⊢
  omega

/-! ### First-fit allocation -/

/-- First-fit allocation of `k` cells: the front `k` cells of the first extent of size at least
`k`, which is dropped when exactly used up and shortened from the front otherwise. -/
def carveFirst (k : ℕ) : List Extent → Option (ℕ × List Extent)
  | [] => none
  | e :: l =>
      if k ≤ e.size then
        some (e.start, if e.size = k then l else ⟨e.start + k, e.size - k⟩ :: l)
      else (carveFirst k l).map fun r => (r.1, e :: r.2)

lemma carveFirst_cons_of_le {k : ℕ} {e : Extent} (l : List Extent) (h : k ≤ e.size) :
    carveFirst k (e :: l) =
      some (e.start, if e.size = k then l else ⟨e.start + k, e.size - k⟩ :: l) := by
  simp [carveFirst, h]

lemma carveFirst_cons_of_lt {k : ℕ} {e : Extent} (l : List Extent) (h : e.size < k) :
    carveFirst k (e :: l) = (carveFirst k l).map fun r => (r.1, e :: r.2) := by
  simp [carveFirst, Nat.not_le.mpr h]

/-- First fit fails exactly when no extent holds `k` cells. -/
theorem carveFirst_eq_none_iff {k : ℕ} {l : List Extent} :
    carveFirst k l = none ↔ ∀ e ∈ l, e.size < k := by
  induction l with
  | nil => simp [carveFirst]
  | cons e l ih =>
      by_cases h : k ≤ e.size
      · simp [carveFirst_cons_of_le l h, Nat.not_lt.mpr h]
      · simp [carveFirst_cons_of_lt l (Nat.lt_of_not_le h), ih, Nat.lt_of_not_le h]

/-- The cells first fit hands out are the front of an extent that holds them. -/
lemma carveFirst_mem {k s : ℕ} {l l' : List Extent} (h : carveFirst k l = some (s, l')) :
    ∃ e ∈ l, e.start = s ∧ k ≤ e.size := by
  induction l generalizing l' with
  | nil => simp [carveFirst] at h
  | cons e l ih =>
      by_cases hk : k ≤ e.size
      · rw [carveFirst_cons_of_le l hk] at h
        obtain ⟨rfl, -⟩ := Prod.mk.inj (Option.some.inj h)
        exact ⟨e, by simp, rfl, hk⟩
      · rw [carveFirst_cons_of_lt l (Nat.lt_of_not_le hk)] at h
        obtain ⟨⟨s₀, l₀⟩, hr, hrs⟩ := Option.map_eq_some_iff.mp h
        obtain ⟨rfl, -⟩ := Prod.mk.inj hrs
        obtain ⟨f, hf, hfs, hfk⟩ := ih hr
        exact ⟨f, List.mem_cons_of_mem e hf, hfs, hfk⟩

/-- The cells first fit hands out were free. -/
theorem carveFirst_subset {k s : ℕ} {l l' : List Extent} (h : carveFirst k l = some (s, l')) :
    Finset.Ico s (s + k) ⊆ cover l := by
  obtain ⟨e, he, rfl, hk⟩ := carveFirst_mem h
  refine Finset.Subset.trans ?_ (cells_subset_cover he)
  intro n hn
  simp only [Finset.mem_Ico] at hn
  simp only [mem_cells]
  omega

/-- First fit removes exactly the cells it hands out. -/
theorem carveFirst_cover {k s : ℕ} {l l' : List Extent} (hl : Gapped l)
    (h : carveFirst k l = some (s, l')) : cover l' = cover l \ Finset.Ico s (s + k) := by
  induction l generalizing l' with
  | nil => simp [carveFirst] at h
  | cons e l ih =>
      have hlt := hl.stop_lt
      by_cases hk : k ≤ e.size
      · rw [carveFirst_cons_of_le l hk] at h
        obtain ⟨rfl, rfl⟩ := Prod.mk.inj (Option.some.inj h)
        -- the carved cells come from `e`, and everything behind `e` lies beyond its end
        ext n
        by_cases hn : n ∈ cover l
        · have := hlt n hn
          unfold stop at this
          split_ifs <;> simp [hn] <;> omega
        · split_ifs <;> simp [hn] <;> omega
      · rw [carveFirst_cons_of_lt l (Nat.lt_of_not_le hk)] at h
        obtain ⟨⟨s₀, l₀⟩, hr, hrs⟩ := Option.map_eq_some_iff.mp h
        obtain ⟨rfl, rfl⟩ := Prod.mk.inj hrs
        -- the carved cells lie behind `e`, so `e` keeps all of its cells
        have hdis : Disjoint e.cells (Finset.Ico s₀ (s₀ + k)) :=
          Finset.disjoint_of_subset_right (carveFirst_subset hr) hl.disjoint
        rw [cover_cons, cover_cons, ih hl.tail hr, Finset.union_sdiff_distrib,
          Finset.sdiff_eq_self_of_disjoint hdis]

/-- First fit keeps the free list canonical. -/
theorem carveFirst_gapped {k s : ℕ} {l l' : List Extent} (hl : Gapped l)
    (h : carveFirst k l = some (s, l')) : Gapped l' := by
  induction l generalizing l' with
  | nil => simp [carveFirst] at h
  | cons e l ih =>
      by_cases hk : k ≤ e.size
      · rw [carveFirst_cons_of_le l hk] at h
        obtain ⟨rfl, rfl⟩ := Prod.mk.inj (Option.some.inj h)
        split_ifs with he
        · exact hl.tail
        · -- the shortened extent keeps its end, so the gap behind it stays
          obtain ⟨-, htail, hlt⟩ := gapped_cons_iff.mp hl
          refine gapped_cons_iff.mpr ⟨by simp; omega, htail, fun n hn => ?_⟩
          have := hlt n hn
          simp only [stop] at this ⊢
          omega
      · rw [carveFirst_cons_of_lt l (Nat.lt_of_not_le hk)] at h
        obtain ⟨⟨s₀, l₀⟩, hr, hrs⟩ := Option.map_eq_some_iff.mp h
        obtain ⟨rfl, rfl⟩ := Prod.mk.inj hrs
        have hcov := carveFirst_cover hl.tail hr
        obtain ⟨hpos, -, hlt⟩ := gapped_cons_iff.mp hl
        refine gapped_cons_iff.mpr ⟨hpos, ih hl.tail hr, fun n hn => ?_⟩
        rw [hcov] at hn
        exact hlt n (Finset.mem_sdiff.mp hn).1

/-! ### Ordered insertion with coalescing -/

/-- Put `x` in front of `l`, merged with the first extent of `l` when the two touch. -/
def glue (x : Extent) : List Extent → List Extent
  | [] => [x]
  | e :: l => if x.stop = e.start then ⟨x.start, x.size + e.size⟩ :: l else x :: e :: l

/-- Ordered insertion of `x` into `p :: l`, where `p` does not start after `x`: `x` goes in
front of the first extent that starts after it, is merged with that extent when they touch,
and the result is merged into the extent in front of it when they touch. -/
def insertAfter (x p : Extent) : List Extent → List Extent
  | [] => glue p [x]
  | e :: l => if x.start < e.start then glue p (glue x (e :: l)) else p :: insertAfter x e l

/-- Ordered insertion of a freed extent `x`, merged first with its right and then with its left
neighbour. -/
def insertCoalesce (x : Extent) : List Extent → List Extent
  | [] => [x]
  | e :: l => if x.start < e.start then glue x (e :: l) else insertAfter x e l

@[simp] lemma cover_glue (x : Extent) (l : List Extent) :
    cover (glue x l) = x.cells ∪ cover l := by
  cases l with
  | nil => simp [glue]
  | cons e l =>
      simp only [glue]
      split_ifs with h
      · ext n
        simp only [cover_cons, Finset.mem_union, mem_cells]
        unfold stop at h
        by_cases hn : n ∈ cover l
        · simp [hn]
        · simp only [hn, or_false]
          omega
      · rfl

lemma glue_gapped {x : Extent} {l : List Extent} (hx : 0 < x.size) (hl : Gapped l)
    (hle : ∀ n ∈ cover l, x.stop ≤ n) : Gapped (glue x l) := by
  cases l with
  | nil => exact .single hx
  | cons e l =>
      obtain ⟨he, htail, hlt⟩ := gapped_cons_iff.mp hl
      have hes : x.stop ≤ e.start := hle e.start (by simp; omega)
      simp only [glue]
      split_ifs with h
      · -- the merged extent ends where `e` ended
        refine gapped_cons_iff.mpr ⟨by simp; omega, htail, fun n hn => ?_⟩
        have := hlt n hn
        simp only [stop] at this h ⊢
        omega
      · exact .cons hx (by omega) hl

@[simp] lemma cover_insertAfter (x p : Extent) (l : List Extent) :
    cover (insertAfter x p l) = x.cells ∪ cover (p :: l) := by
  induction l generalizing p with
  | nil =>
      simp only [insertAfter, cover_glue, cover_cons, cover_nil]
      ext n
      simp only [Finset.mem_union, Finset.notMem_empty]
      tauto
  | cons e l ih =>
      simp only [insertAfter]
      split_ifs
      · simp only [cover_glue, cover_cons]
        ext n
        simp only [Finset.mem_union]
        tauto
      · simp only [cover_cons, ih]
        ext n
        simp only [Finset.mem_union]
        tauto

lemma insertAfter_gapped {x p : Extent} {l : List Extent} (hx : 0 < x.size)
    (hpl : Gapped (p :: l)) (hpx : p.start ≤ x.start) (hdis : Disjoint x.cells (cover (p :: l))) :
    Gapped (insertAfter x p l) := by
  -- `p` ends before `x` starts: `x.start` is a cell of `x` and so not a cell of `p`
  have hpx' : p.stop ≤ x.start := by
    have := Finset.disjoint_left.mp hdis (show x.start ∈ x.cells by simp; omega)
    simp only [cover_cons, Finset.mem_union, mem_cells, not_or] at this
    unfold stop
    omega
  obtain ⟨hp, hl, hlt⟩ := gapped_cons_iff.mp hpl
  induction l generalizing p with
  | nil =>
      refine glue_gapped hp (.single hx) fun n hn => ?_
      simp only [cover_cons, cover_nil, Finset.union_empty, mem_cells] at hn
      omega
  | cons e l ih =>
      obtain ⟨he, htail, helt⟩ := gapped_cons_iff.mp hl
      simp only [insertAfter]
      split_ifs with hxe
      · -- `x` sits between `p` and `e`; every cell of `e :: l` lies beyond `x`
        have hxl : ∀ n ∈ cover (e :: l), x.stop ≤ n := by
          intro n hn
          have hn' : x.start < n := by
            rcases Finset.mem_union.mp hn with hn | hn
            · have := mem_cells.mp hn
              omega
            · have := helt n hn
              unfold stop at this
              omega
          have := Finset.disjoint_right.mp hdis (Finset.mem_union_right _ hn)
          simp only [mem_cells, not_and, not_lt] at this
          unfold stop
          omega
        refine glue_gapped hp (glue_gapped hx hl hxl) fun n hn => ?_
        rw [cover_glue] at hn
        rcases Finset.mem_union.mp hn with hn | hn
        · have := mem_cells.mp hn
          omega
        · exact (hlt n hn).le
      · have hdis' : Disjoint x.cells (cover (e :: l)) :=
          Finset.disjoint_of_subset_right Finset.subset_union_right hdis
        have hex : e.start ≤ x.start := Nat.le_of_not_lt hxe
        have hpe : p.stop < e.start := hlt e.start (by simp; omega)
        -- `e` ends before `x` for the same reason as `p`
        have hex' : e.stop ≤ x.start := by
          have := Finset.disjoint_left.mp hdis' (show x.start ∈ x.cells by simp; omega)
          simp only [cover_cons, Finset.mem_union, mem_cells, not_or] at this
          unfold stop
          omega
        refine gapped_cons_iff.mpr ⟨hp, ih hl hex hdis' hex' he htail helt, fun n hn => ?_⟩
        rw [cover_insertAfter] at hn
        rcases Finset.mem_union.mp hn with hn | hn
        · have := mem_cells.mp hn
          omega
        · exact hlt n hn

/-- Inserting a freed extent adds exactly its cells. -/
@[simp] theorem insertCoalesce_cover (x : Extent) (l : List Extent) :
    cover (insertCoalesce x l) = x.cells ∪ cover l := by
  cases l with
  | nil => simp [insertCoalesce]
  | cons e l =>
      simp only [insertCoalesce]
      split_ifs
      · exact cover_glue x _
      · exact cover_insertAfter x e l

/-- Inserting a nonempty extent disjoint from the free cells keeps the free list canonical. -/
theorem insertCoalesce_gapped {x : Extent} {l : List Extent} (hx : 0 < x.size) (hl : Gapped l)
    (hdis : Disjoint x.cells (cover l)) : Gapped (insertCoalesce x l) := by
  cases l with
  | nil => exact .single hx
  | cons e l =>
      simp only [insertCoalesce]
      split_ifs with hxe
      · refine glue_gapped hx hl fun n hn => ?_
        have hn' : x.start < n := by
          rcases Finset.mem_union.mp hn with hn | hn
          · have := mem_cells.mp hn
            omega
          · have := hl.stop_lt n hn
            unfold stop at this
            omega
        have := Finset.disjoint_right.mp hdis hn
        simp only [mem_cells, not_and, not_lt] at this
        unfold stop
        omega
      · exact insertAfter_gapped hx hl (Nat.le_of_not_lt hxe) hdis

end Extent
