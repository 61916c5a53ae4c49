import Mathlib.Data.List.SplitBy
import Mathlib.Data.List.Sort
import Mathlib.Order.Defs.Unbundled

/-!
Runs of a list under a strict weak order given as a Boolean function `less`, as a natural merge
sort and a removal of adjacent duplicates see them. Two elements are in order when the second is
not less than the first (`InOrder`), and equivalent when neither is less than the other
(`Equiv`); under a strict weak order the first is a total preorder and the second an
equivalence.

* `inOrder_trans`, `inOrder_total`, `equiv_trans`: the order facts the sorts need;
* `filter_equiv_merge`: merging two sorted lists, the left one first on ties, keeps each
  equivalence class in the order of the left list followed by the right one, so a merge is
  stable; `sublist_pair_of_filter_equiv`: what that says of two equivalent elements;
* `splitBy_cons_of_false`, `splitBy_cons_cons_of_true`: the runs of `a :: l` from those of `l`;
  `splitBy_flatten_tail`: the runs after the first are those of the rest;
* `mergePairs`: one pass of a natural merge sort over a list of runs, with its permutation,
  stability and length; `length_splitBy_flatten_le`: sorted pieces joined have at most as many
  runs as pieces;
* `sweepDups`: an element is kept when it is not equivalent to the last one kept, and set apart
  otherwise; `sweepDups_eq_splitBy`: that keeps the first element of each maximal run of
  adjacent equivalent elements and sets the others apart, in order.
-/

namespace Runs

variable {α : Type}

/-- `b` may follow `a`: it is not less than `a`. -/
def InOrder (less : α → α → Bool) (a b : α) : Bool := !less b a

/-- Neither of `a` and `b` is less than the other. -/
def Equiv (less : α → α → Bool) (a b : α) : Bool := !less a b && !less b a

lemma equiv_symm {less : α → α → Bool} {a b : α} (h : Equiv less a b = true) :
    Equiv less b a = true := by
  simp only [Equiv, Bool.and_eq_true] at h ⊢
  exact ⟨h.2, h.1⟩

section StrictWeakOrder

variable {less : α → α → Bool} (hso : IsStrictWeakOrder α fun a b => less a b = true)
include hso

/-- Not being less is transitive. -/
lemma not_less_trans {a b c : α} (hba : less b a = false) (hcb : less c b = false) :
    less c a = false := by
  by_contra hca
  rw [Bool.not_eq_false] at hca
  -- `a < b` would give `c < b`, and `b < c` would give `b < a`: so `a`, `b`, `c` are equivalent
  have hab : less a b = false := by
    by_contra h
    rw [Bool.not_eq_false] at h
    exact absurd (hso.trans c a b hca h) (by simp [hcb])
  have hbc : less b c = false := by
    by_contra h
    rw [Bool.not_eq_false] at h
    exact absurd (hso.trans b c a h hca) (by simp [hba])
  have hac := hso.incomp_trans a b c ⟨by simp [hab], by simp [hba]⟩ ⟨by simp [hbc], by simp [hcb]⟩
  exact hac.2 hca

lemma inOrder_trans {a b c : α} (hab : InOrder less a b = true) (hbc : InOrder less b c = true) :
    InOrder less a c = true := by
  simp only [InOrder, Bool.not_eq_true'] at hab hbc ⊢
  exact not_less_trans hso hab hbc

lemma inOrder_total (a b : α) : (InOrder less a b || InOrder less b a) = true := by
  cases hab : less a b
  · simp [InOrder, hab]
  · have hba : less b a = false := by
      by_contra h
      exact hso.irrefl a (hso.trans a b a hab (by simpa using h))
    simp [InOrder, hba]

/-- `a < b` and `c` not before `b` give `a < c`. -/
lemma less_of_less_of_inOrder {a b c : α} (hab : less a b = true)
    (hbc : InOrder less b c = true) : less a c = true := by
  by_contra hac
  rw [Bool.not_eq_true] at hac
  simp only [InOrder, Bool.not_eq_true'] at hbc
  exact absurd hab (by simp [not_less_trans hso hbc hac])

lemma equiv_refl (a : α) : Equiv less a a = true := by
  have h : less a a = false := by simpa using hso.irrefl a
  simp [Equiv, h]

lemma equiv_trans {a b c : α} (hab : Equiv less a b = true) (hbc : Equiv less b c = true) :
    Equiv less a c = true := by
  simp only [Equiv, Bool.and_eq_true, Bool.not_eq_true'] at hab hbc ⊢
  exact ⟨not_less_trans hso hbc.1 hab.1, not_less_trans hso hab.2 hbc.2⟩

lemma equivalence_equiv : Equivalence fun a b => Equiv less a b = true :=
  ⟨equiv_refl hso, equiv_symm, equiv_trans hso⟩

/-- A run is sorted: being in order is transitive. -/
lemma pairwise_of_isChain {l : List α} (hl : l.IsChain fun a b => InOrder less a b) :
    l.Pairwise fun a b => InOrder less a b := by
  have : IsTrans α fun a b => InOrder less a b = true := ⟨fun _ _ _ => inOrder_trans hso⟩
  exact List.isChain_iff_pairwise.mp hl

/-! ### Merging is stable -/

/-- **A merge is stable**: of the elements equivalent to `x`, those of `A` come first and each
side keeps its order. When the right element is taken first it is less than every element left
in `A`, so none of those is equivalent to it. -/
theorem filter_equiv_merge (x : α) :
    ∀ (A B : List α), A.Pairwise (fun a b => InOrder less a b) →
      B.Pairwise (fun a b => InOrder less a b) →
      (A.merge B (InOrder less)).filter (Equiv less x) =
        A.filter (Equiv less x) ++ B.filter (Equiv less x)
  | [], B, _, _ => by simp
  | a :: A, [], _, _ => by simp
  | a :: A, b :: B, hA, hB => by
    rw [List.cons_merge_cons]
    by_cases hab : InOrder less a b = true
    · rw [if_pos hab, List.filter_cons, List.filter_cons,
        filter_equiv_merge x A (b :: B) hA.of_cons hB]
      split <;> rfl
    · rw [if_neg hab, List.filter_cons, filter_equiv_merge x (a :: A) B hA hB.of_cons,
        List.filter_cons (x := b)]
      have hba : less b a = true := by simpa [InOrder] using hab
      by_cases hxb : Equiv less x b = true
      · -- nothing in `a :: A` is equivalent to `b`, which is less than all of it
        have hnone : (a :: A).filter (Equiv less x) = [] := by
          rw [List.filter_eq_nil_iff]
          intro y hy hxy
          have hay : InOrder less a y = true := by
            rcases List.mem_cons.mp hy with rfl | hy
            · simp [InOrder, show less y y = false by simpa using hso.irrefl y]
            · exact List.rel_of_pairwise_cons hA hy
          have hby := less_of_less_of_inOrder hso hba hay
          have hyb := equiv_trans hso (equiv_symm hxy) hxb
          simp [Equiv, hby] at hyb
        rw [if_pos hxb, if_pos hxb, hnone]
        rfl
      · rw [if_neg hxb, if_neg hxb]
termination_by A B => A.length + B.length

end StrictWeakOrder

/-- Two elements in one equivalence class keep their order when every class does. -/
lemma sublist_pair_of_filter_equiv {less : α → α → Bool} {l l' : List α}
    (hl : ∀ x, l'.filter (Equiv less x) = l.filter (Equiv less x)) {a b : α}
    (ha : Equiv less a a = true) (hab : Equiv less a b = true) (hsub : [a, b].Sublist l) :
    [a, b].Sublist l' := by
  have h : [a, b].Sublist (l.filter (Equiv less a)) := by
    simpa [ha, hab] using hsub.filter (Equiv less a)
  rw [← hl a] at h
  exact h.trans List.filter_sublist

/-! ### The runs of `a :: l` -/

section SplitBy

variable {r : α → α → Bool}

@[simp] lemma splitBy_singleton (a : α) : [a].splitBy r = [[a]] := rfl

/-- An element unrelated to the next one is a run of its own. -/
lemma splitBy_cons_of_false {a : α} {l : List α} (h : ∀ b ∈ l.head?, r a b = false) :
    (a :: l).splitBy r = [a] :: l.splitBy r := by
  cases l with
  | nil => rfl
  | cons b l =>
    rw [show a :: b :: l = [a] ++ b :: l from rfl, List.splitBy_append_cons _ (by simpa using h)]
    rfl

/-- An element related to the next one starts that one's run. -/
lemma splitBy_cons_cons_of_true {a b : α} {l g : List α} {gs : List (List α)}
    (h : r a b = true) (hg : (b :: l).splitBy r = g :: gs) :
    (a :: b :: l).splitBy r = (a :: g) :: gs := by
  have hspec := List.splitBy_eq_iff.mp hg
  obtain ⟨hflat, hnil, hchain, hbound⟩ := hspec
  have hg₀ : g ≠ [] := fun h₀ => hnil (h₀ ▸ List.mem_cons_self)
  -- the run of `b` begins with `b`
  have hgb : g.head? = some b := by
    have := congrArg List.head? hflat
    rw [List.flatten_cons, List.head?_append_of_ne_nil _ hg₀] at this
    exact this.symm
  obtain ⟨g', rfl⟩ := List.head?_eq_some_iff.mp hgb
  rw [List.splitBy_eq_iff]
  refine ⟨by simp [hflat], ?_, ?_, ?_⟩
  · simp only [List.mem_cons, reduceCtorEq, false_or]
    exact fun h₀ => hnil (List.mem_cons_of_mem _ h₀)
  · intro m hm
    rcases List.mem_cons.mp hm with rfl | hm
    · exact List.isChain_cons_cons.mpr ⟨h, hchain _ List.mem_cons_self⟩
    · exact hchain m (List.mem_cons_of_mem _ hm)
  · cases gs with
    | nil => simp
    | cons g₂ gs =>
      rw [List.isChain_cons_cons] at hbound ⊢
      refine ⟨?_, hbound.2⟩
      obtain ⟨hb₁, hb₂, hb⟩ := hbound.1
      exact ⟨List.cons_ne_nil _ _, hb₂, by simpa [List.getLast_cons] using hb⟩

/-- The runs after the first are the runs of what follows it. -/
lemma splitBy_flatten_tail {l g : List α} {gs : List (List α)} (h : l.splitBy r = g :: gs) :
    gs.flatten.splitBy r = gs := by
  obtain ⟨-, hnil, hchain, hbound⟩ := List.splitBy_eq_iff.mp h
  exact List.splitBy_eq_iff.mpr ⟨rfl, fun h₀ => hnil (List.mem_cons_of_mem _ h₀),
    fun m hm => hchain m (List.mem_cons_of_mem _ hm), hbound.tail⟩

/-- Where one run ends, the next starts with an element out of relation to the last one. -/
lemma splitBy_boundary {l g : List α} {gs : List (List α)} (h : l.splitBy r = g :: gs) :
    ∀ w ∈ g.getLast?, ∀ z ∈ gs.flatten.head?, r w z = false := by
  intro w hw z hz
  cases gs with
  | nil => simp at hz
  | cons g' gs =>
    have hchain := List.isChain_getLast_head_splitBy r l
    rw [h] at hchain
    obtain ⟨ha, hb, hr⟩ := (List.isChain_cons_cons.mp hchain).1
    rw [List.getLast?_eq_some_getLast ha, Option.mem_some_iff] at hw
    rw [List.flatten_cons, List.head?_append_of_ne_nil _ hb, List.head?_eq_some_head hb,
      Option.mem_some_iff] at hz
    rw [← hw, ← hz]
    exact hr

lemma length_le_length_flatten : ∀ {gs : List (List α)}, [] ∉ gs → gs.length ≤ gs.flatten.length
  | [], _ => le_rfl
  | g :: gs, h => by
    have hg : 0 < g.length := List.length_pos_of_ne_nil fun hg => h (hg ▸ List.mem_cons_self)
    have hgs := length_le_length_flatten fun h' => h (List.mem_cons_of_mem _ h')
    rw [List.flatten_cons, List.length_append, List.length_cons]
    omega

/-- A list has at most as many runs as elements. -/
lemma length_splitBy_le (l : List α) : (l.splitBy r).length ≤ l.length := by
  have h := length_le_length_flatten (List.nil_notMem_splitBy r l)
  rwa [List.flatten_splitBy] at h

end SplitBy

/-! ### One pass of a natural merge sort -/

section MergePairs

variable (less : α → α → Bool)

/-- Each run merged with the run after it; a last run without a partner stays. -/
def mergePairs : List (List α) → List (List α)
  | [] => []
  | [r] => [r]
  | r₁ :: r₂ :: rs => r₁.merge r₂ (InOrder less) :: mergePairs rs

lemma length_mergePairs : ∀ rs : List (List α), (mergePairs less rs).length = (rs.length + 1) / 2
  | [] => by simp [mergePairs]
  | [_] => by simp [mergePairs]
  | _ :: _ :: rs => by
    rw [mergePairs, List.length_cons, length_mergePairs rs]
    simp only [List.length_cons]
    omega

lemma flatten_mergePairs_perm : ∀ rs : List (List α), (mergePairs less rs).flatten.Perm rs.flatten
  | [] => .refl _
  | [_] => .refl _
  | r₁ :: r₂ :: rs => by
    rw [mergePairs, List.flatten_cons, List.flatten_cons, List.flatten_cons, ← List.append_assoc]
    exact (List.merge_perm_append _).append (flatten_mergePairs_perm rs)

lemma nil_not_mem_mergePairs : ∀ {rs : List (List α)}, [] ∉ rs → [] ∉ mergePairs less rs
  | [], _ => by simp [mergePairs]
  | [_], h => h
  | r₁ :: r₂ :: rs, h => by
    rw [mergePairs, List.mem_cons, not_or]
    refine ⟨fun h₀ => ?_, nil_not_mem_mergePairs (fun h' => h (by simp [h']))⟩
    have := congrArg List.length h₀
    rw [List.length_merge, List.length_nil] at this
    exact h (List.mem_cons.mpr (.inl (List.eq_nil_of_length_eq_zero (by omega)).symm))

variable {less} (hso : IsStrictWeakOrder α fun a b => less a b = true)
include hso

/-- Merged runs are sorted. -/
lemma pairwise_of_mem_mergePairs :
    ∀ {rs : List (List α)}, (∀ r ∈ rs, r.Pairwise fun a b => InOrder less a b) →
      ∀ r ∈ mergePairs less rs, r.Pairwise fun a b => InOrder less a b
  | [], _ => by simp [mergePairs]
  | [r], h => h
  | r₁ :: r₂ :: rs, h => by
    intro r hr
    rcases List.mem_cons.mp hr with rfl | hr
    · exact @List.pairwise_merge _ (InOrder less) (fun _ _ _ => inOrder_trans hso)
        (inOrder_total hso) _ _ (h r₁ (by simp)) (h r₂ (by simp))
    · exact pairwise_of_mem_mergePairs (fun r' hr' => h r' (by simp [hr'])) r hr

/-- A pass keeps each equivalence class in order. -/
lemma filter_equiv_flatten_mergePairs (x : α) :
    ∀ {rs : List (List α)}, (∀ r ∈ rs, r.Pairwise fun a b => InOrder less a b) →
      (mergePairs less rs).flatten.filter (Equiv less x) = rs.flatten.filter (Equiv less x)
  | [], _ => rfl
  | [_], _ => rfl
  | r₁ :: r₂ :: rs, h => by
    rw [mergePairs, List.flatten_cons, List.flatten_cons, List.flatten_cons, List.filter_append,
      List.filter_append, List.filter_append,
      filter_equiv_merge hso x r₁ r₂ (h r₁ (by simp)) (h r₂ (by simp)),
      filter_equiv_flatten_mergePairs x (fun r' hr' => h r' (by simp [hr'])),
      List.append_assoc]

/-! A pass over a list: its runs, merged two by two. -/

variable (less) in
/-- One pass of a natural merge sort over `l`. -/
def mergePass (l : List α) : List (List α) := mergePairs less (l.splitBy (InOrder less))

omit hso in
lemma flatten_mergePass_perm (l : List α) : (mergePass less l).flatten.Perm l := by
  have h := flatten_mergePairs_perm less (l.splitBy (InOrder less))
  rwa [List.flatten_splitBy] at h

lemma pairwise_of_mem_splitBy {l r : List α} (hr : r ∈ l.splitBy (InOrder less)) :
    r.Pairwise fun a b => InOrder less a b :=
  pairwise_of_isChain hso (List.isChain_of_mem_splitBy hr)

lemma pairwise_of_mem_mergePass {l r : List α} (hr : r ∈ mergePass less l) :
    r.Pairwise fun a b => InOrder less a b :=
  pairwise_of_mem_mergePairs hso (fun _ => pairwise_of_mem_splitBy hso) r hr

lemma filter_equiv_mergePass (l : List α) (x : α) :
    (mergePass less l).flatten.filter (Equiv less x) = l.filter (Equiv less x) := by
  rw [mergePass, filter_equiv_flatten_mergePairs hso x (fun _ => pairwise_of_mem_splitBy hso),
    List.flatten_splitBy]

/-- A pass that outputs at most one run leaves the list sorted. -/
lemma pairwise_flatten_mergePass {l : List α} (h : (mergePass less l).length ≤ 1) :
    (mergePass less l).flatten.Pairwise fun a b => InOrder less a b := by
  match hp : mergePass less l, h with
  | [], _ => exact List.Pairwise.nil
  | [r], _ => simpa using pairwise_of_mem_mergePass hso (hp ▸ List.mem_singleton_self r)

end MergePairs

/-! ### Counting runs -/

section Count

variable {r : α → α → Bool}

/-- A run followed by a list: the runs of the list, the first one perhaps joined to it. -/
lemma length_splitBy_append_le {c : List α} (hc : c.IsChain fun a b => r a b) (l : List α) :
    ((c ++ l).splitBy r).length ≤ (l.splitBy r).length + 1 := by
  induction c with
  | nil => simp
  | cons a c ih =>
    cases c with
    | nil =>
      cases l with
      | nil => simp [splitBy_singleton]
      | cons b l =>
        by_cases hab : r a b = true
        · obtain ⟨g, gs, hg⟩ : ∃ g gs, (b :: l).splitBy r = g :: gs :=
            List.exists_cons_of_ne_nil (List.splitBy_ne_nil.mpr (List.cons_ne_nil b l))
          rw [List.singleton_append, splitBy_cons_cons_of_true hab hg, hg]
          simp
        · rw [List.singleton_append, splitBy_cons_of_false (by simpa using hab)]
          simp
    | cons b c =>
      have hab : r a b = true := (List.isChain_cons_cons.mp hc).1
      obtain ⟨g, gs, hg⟩ : ∃ g gs, (b :: (c ++ l)).splitBy r = g :: gs :=
        List.exists_cons_of_ne_nil (List.splitBy_ne_nil.mpr (List.cons_ne_nil _ _))
      have ih' := ih (List.isChain_cons_cons.mp hc).2
      rw [List.cons_append, List.cons_append, splitBy_cons_cons_of_true hab hg]
      rw [List.cons_append, hg] at ih'
      simpa using ih'

/-- Joined pieces that are each a run make at most as many runs. -/
lemma length_splitBy_flatten_le :
    ∀ {cs : List (List α)}, (∀ c ∈ cs, c.IsChain fun a b => r a b) →
      (cs.flatten.splitBy r).length ≤ cs.length
  | [], _ => by simp
  | c :: cs, h => by
    rw [List.flatten_cons, List.length_cons]
    exact (length_splitBy_append_le (h c (by simp)) _).trans
      (Nat.add_le_add_right (length_splitBy_flatten_le fun c' hc' => h c' (by simp [hc'])) 1)

/-- After a pass there are at most as many runs as the pass output. -/
lemma length_splitBy_mergePass_le {less : α → α → Bool}
    (hso : IsStrictWeakOrder α fun a b => less a b = true) (l : List α) :
    ((mergePass less l).flatten.splitBy (InOrder less)).length ≤ (mergePass less l).length :=
  length_splitBy_flatten_le fun _ hc => (pairwise_of_mem_mergePass hso hc).isChain

end Count

/-! ### Removing adjacent duplicates -/

section Sweep

variable (r : α → α → Bool)

/-- Sweeping `l` after the kept element `a`: each element related to the last kept one is set
apart, any other is kept. The elements kept and the ones set apart, in order. -/
def sweepDups : α → List α → List α × List α
  | _, [] => ([], [])
  | a, x :: l =>
    if r a x then ((sweepDups a l).1, x :: (sweepDups a l).2)
    else (x :: (sweepDups x l).1, (sweepDups x l).2)

variable {r} (hr : Equivalence fun a b => r a b = true)
include hr

/-- **The sweep keeps the heads of the runs** of adjacent related elements, and sets their other
elements apart in order, when the relation is an equivalence: comparing with the head of the run
is then comparing with the element before. -/
theorem sweepDups_eq_splitBy (a : α) (l : List α) :
    ((a :: l).splitBy r).filterMap List.head? = a :: (sweepDups r a l).1 ∧
      ((a :: l).splitBy r).flatMap List.tail = (sweepDups r a l).2 := by
  induction l generalizing a with
  | nil => simp [sweepDups]
  | cons x l ih =>
    by_cases hax : r a x = true
    · -- `x` joins the run of `a`; the rest splits as it would after `a`
      rw [sweepDups, if_pos hax]
      have hsame : ∀ y, r x y = r a y := by
        intro y
        cases hxy : r x y <;> cases hay : r a y <;> try rfl
        · exact absurd (hr.trans (hr.symm hax) hay) (by simp [hxy])
        · exact absurd (hr.trans hax hxy) (by simp [hay])
      cases l with
      | nil =>
        rw [splitBy_cons_cons_of_true hax (splitBy_singleton x)]
        simp [sweepDups]
      | cons y l =>
        obtain ⟨g, gs, hg⟩ : ∃ g gs, (y :: l).splitBy r = g :: gs :=
          List.exists_cons_of_ne_nil (List.splitBy_ne_nil.mpr (List.cons_ne_nil y l))
        by_cases hay : r a y = true
        · have hxy : r x y = true := (hsame y).trans hay
          have hx := splitBy_cons_cons_of_true hxy hg
          rw [splitBy_cons_cons_of_true hax hx]
          have ih' := ih a
          rw [splitBy_cons_cons_of_true hay hg] at ih'
          simpa using ih'
        · have hxy : r x y = false := by simpa [hsame y] using hay
          rw [splitBy_cons_cons_of_true hax
            (splitBy_cons_of_false (by simpa using hxy))]
          have ih' := ih a
          rw [splitBy_cons_of_false (by simpa using hay)] at ih'
          simpa using ih'
    · -- `a` is a run of its own and `x` is kept
      rw [sweepDups, if_neg hax, splitBy_cons_of_false (by simpa using hax)]
      obtain ⟨ih₁, ih₂⟩ := ih x
      simp [ih₁, ih₂]

end Sweep

end Runs
