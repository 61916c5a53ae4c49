import TinyOs.Lib.Extent
import Mathlib.Data.List.Pairwise

/-!
Extents an allocator has handed out and not yet taken back. Where an allocator keeps one bit
per cell, set while the cell is in use, its owners hold extents that are pairwise disjoint
and together cover exactly the cells in use (`Holds`). Handing out an extent of free cells and
taking back one that is held keep this, and an extent of free cells meets no held one.

* `Holds.take`, `Holds.release`: the two operations;
* `Holds.disjoint_of_free`: free cells are held by nobody;
* `cover_erase`: taking one extent out of a pairwise disjoint list takes its cells out of the
  cover.
-/

namespace Extent

/-- The held extents are pairwise disjoint and cover exactly the cells `used`. -/
structure Holds (used : Finset ℕ) (held : List Extent) : Prop where
  cover_eq : cover held = used
  pairwise : held.Pairwise fun e f => Disjoint e.cells f.cells

lemma holds_nil : Holds ∅ [] := ⟨rfl, List.Pairwise.nil⟩

lemma cover_erase {e : Extent} {l : List Extent} (he : e ∈ l)
    (hl : l.Pairwise fun e f => Disjoint e.cells f.cells) : cover (l.erase e) = cover l \ e.cells := by
  induction l with
  | nil => simp at he
  | cons f l ih =>
    rw [List.pairwise_cons] at hl
    by_cases hfe : f = e
    · -- the first extent goes, and the others never met it
      subst hfe
      rw [List.erase_cons_head, cover_cons, Finset.union_sdiff_left,
        Finset.sdiff_eq_self_of_disjoint]
      refine Finset.disjoint_left.mpr fun n hn hf => ?_
      obtain ⟨g, hg, hng⟩ := mem_cover.mp hn
      exact Finset.disjoint_left.mp (hl.1 g hg) hf hng
    · have he' : e ∈ l := (List.mem_cons.mp he).resolve_left (Ne.symm hfe)
      rw [List.erase_cons_tail (by simpa using hfe), cover_cons, cover_cons, ih he' hl.2,
        Finset.union_sdiff_distrib, Finset.sdiff_eq_self_of_disjoint (hl.1 e he')]

namespace Holds

variable {used : Finset ℕ} {held : List Extent}

/-- An extent of free cells meets no held extent. -/
lemma disjoint_of_free (h : Holds used held) {e : Extent} (hfree : Disjoint used e.cells)
    {f : Extent} (hf : f ∈ held) : Disjoint e.cells f.cells := by
  rw [← h.cover_eq] at hfree
  exact (Finset.disjoint_of_subset_left (cells_subset_cover hf) hfree).symm

/-- Handing out an extent of free cells. -/
lemma take (h : Holds used held) {e : Extent} (hfree : Disjoint used e.cells) :
    Holds (used ∪ e.cells) (e :: held) where
  cover_eq := by rw [cover_cons, h.cover_eq, Finset.union_comm]
  pairwise := List.pairwise_cons.mpr ⟨fun _ hf => h.disjoint_of_free hfree hf, h.pairwise⟩

/-- Taking back a held extent. -/
lemma release (h : Holds used held) {e : Extent} (he : e ∈ held) :
    Holds (used \ e.cells) (held.erase e) where
  cover_eq := by rw [cover_erase he h.pairwise, h.cover_eq]
  pairwise := h.pairwise.sublist (List.erase_sublist)

end Holds

end Extent
