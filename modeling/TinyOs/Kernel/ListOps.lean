import TinyOs.Kernel.ListRefine
import TinyOs.Lib.Runs

/-!
`list_reverse` and `list_unique` of `lib/kernel/list.c` on the pointer lists of
`Kernel/ListPtr.lean`, and what they leave of the sequences of `Kernel/ListRefine.lean`.

`list_reverse` turns every element around (`swap (&e->prev, &e->next)`) and walks on through the
new `prev`; it then exchanges the head's `next` with the tail's `prev`, and the outer links of
the two end elements. `list_unique` walks the list with the last element it keeps and removes
each following element equivalent to it, pushing it on `duplicates` when that list is given. Both
loops run with a fuel, and the lemmas say how much is enough.

* `ListsRep.update_of_frame`: a heap that changes only the cells of list `i`, linking them in a
  new order of its elements, is still a family of well-formed lists;
* `reverseLoop_eq`, `swapCells_of_mem`: the loop turns exactly the elements around;
* `list_reverse_reverses`: `list_reverse` leaves list `i` holding its elements in reverse order
  and every other list as it was;
* `uniqueLoop_keep`, `uniqueLoop_drop`, `uniqueLoop_push`: a round of the loop of `list_unique`
  keeps the next element, or removes it and pushes it on `duplicates` when that list is given;
  `uniqueLoop_eq`: the loop computes `Runs.sweepDups`;
* `list_unique_keeps_run_heads`: `list_unique` keeps the first element of each maximal run of
  adjacent equivalent elements, and appends the others, in order, to `duplicates`.
-/

namespace TinyOs

open DLink Runs

variable {ν : Type} [DecidableEq ν]

namespace Ptr

variable (m : ν → Link ν) (L : ListHdr ν)

/-- The elements `R` turned around one after the other. -/
def swapCells (R : List ν) : ν → Link ν := R.foldl (fun m e => swap m (e, .prev) (e, .next)) m

/-- The loop of `list_reverse` from `e` until the tail: `swap (&e->prev, &e->next)`, then on to
`e->prev`, which was `e->next`. `none` for a null pointer, or when the fuel runs out. -/
def reverseLoop : ℕ → (ν → Link ν) → ν → Option (ν → Link ν)
  | 0, _, _ => none
  | fuel + 1, m, e =>
    if e = listEnd L then some m
    else
      let m := swap m (e, .prev) (e, .next)
      match (m e).prev with
      | some p => reverseLoop fuel m p
      | none => none

/-- `list_reverse`, its loop run with `fuel`. -/
def listReverse (fuel : ℕ) : Option (ν → Link ν) :=
  if listEmpty m L then some m
  else do
    let e ← listBegin m L
    let m ← reverseLoop L fuel m e
    let m := swap m (L.head, .next) (L.tail, .prev)
    let x ← (m L.head).next
    let y ← (m L.tail).prev
    pure (swap m (x, .prev) (y, .next))

/-- The loop of `list_unique` with `elem` the element kept last: a following element equivalent
to it is removed, and pushed on `duplicates` when that list is given; another one is kept and
becomes `elem`. -/
def uniqueLoop (dup : Option (ListHdr ν)) (less : ν → ν → Bool) :
    ℕ → (ν → Link ν) → ν → Option (ν → Link ν)
  | 0, _, _ => none
  | fuel + 1, m, elem => do
    let next ← listNext m elem
    if next = listEnd L then pure m
    else if !less elem next && !less next elem then do
      let r ← listRemove m next
      match dup with
      | some D => do
        let m ← listPushBack r.1 D next
        uniqueLoop dup less fuel m elem
      | none => uniqueLoop dup less fuel r.1 elem
    else uniqueLoop dup less fuel m next

/-- `list_unique`, its loop run with `fuel`. -/
def listUnique (dup : Option (ListHdr ν)) (less : ν → ν → Bool) (fuel : ℕ) :
    Option (ν → Link ν) :=
  if listEmpty m L then some m
  else do
    let elem ← listBegin m L
    uniqueLoop L dup less fuel m elem

section UniqueRound

variable {m L} {less : ν → ν → Bool} {elem x : ν} (hnext : (m elem).next = some x)
  (hx : x ≠ L.tail)
include hnext hx

/-- A round of the loop of `list_unique` that keeps `x`, the element after `elem`. -/
lemma uniqueLoop_keep {dup : Option (ListHdr ν)} (hkeep : (!less elem x && !less x elem) = false)
    (fuel : ℕ) : uniqueLoop L dup less (fuel + 1) m elem = uniqueLoop L dup less fuel m x := by
  simp only [uniqueLoop, listNext_eq, hnext, Option.bind_eq_bind, Option.bind_some, listEnd, hx,
    hkeep, Bool.false_eq_true, ↓reduceIte]

/-- A round that removes `x`, equivalent to `elem`, when no `duplicates` list is given. -/
lemma uniqueLoop_drop {r : (ν → Link ν) × Option ν} (hdrop : (!less elem x && !less x elem) = true)
    (hrem : listRemove m x = some r) (fuel : ℕ) :
    uniqueLoop L none less (fuel + 1) m elem = uniqueLoop L none less fuel r.1 elem := by
  simp only [uniqueLoop, listNext_eq, hnext, Option.bind_eq_bind, Option.bind_some, listEnd, hx,
    hdrop, ↓reduceIte, hrem]

/-- A round that removes `x`, equivalent to `elem`, and pushes it on `duplicates`. -/
lemma uniqueLoop_push {r : (ν → Link ν) × Option ν} {D : ListHdr ν} {m' : ν → Link ν}
    (hdrop : (!less elem x && !less x elem) = true) (hrem : listRemove m x = some r)
    (hpush : listPushBack r.1 D x = some m') (fuel : ℕ) :
    uniqueLoop L (some D) less (fuel + 1) m elem = uniqueLoop L (some D) less fuel m' elem := by
  simp only [uniqueLoop, listNext_eq, hnext, Option.bind_eq_bind, Option.bind_some, listEnd, hx,
    hdrop, ↓reduceIte, hrem, hpush]

end UniqueRound

/-! ### The loop of `list_reverse` -/

lemma swapCells_cons (e : ν) (R : List ν) :
    swapCells m (e :: R) = swapCells (swap m (e, .prev) (e, .next)) R := rfl

variable {m}

lemma swapCells_of_not_mem : ∀ {R : List ν} {m : ν → Link ν} {c : ν}, c ∉ R →
    swapCells m R c = m c
  | [], _, _, _ => rfl
  | e :: R, m, c, hc => by
    have hce : c ≠ e := fun h => hc (h ▸ List.mem_cons_self)
    rw [swapCells_cons, swapCells_of_not_mem (fun h => hc (List.mem_cons_of_mem e h)),
      swap_prev_next_self, Function.update_of_ne hce]

/-- Each element, met once, is turned around. -/
lemma swapCells_of_mem : ∀ {R : List ν} {m : ν → Link ν} {c : ν}, R.Nodup → c ∈ R →
    swapCells m R c = flipLinks m c
  | e :: R, m, c, hnd, hc => by
    rw [swapCells_cons]
    rcases List.mem_cons.mp hc with rfl | hc'
    · rw [swapCells_of_not_mem (List.nodup_cons.mp hnd).1, swap_prev_next_self,
        Function.update_self]
      rfl
    · have hce : c ≠ e := fun h => (List.nodup_cons.mp hnd).1 (h ▸ hc')
      rw [swapCells_of_mem (List.nodup_cons.mp hnd).2 hc']
      simp only [flipLinks, swap_prev_next_self, Function.update_of_ne hce]

/-- From the first of the elements `R`, the loop turns them all around and stops at the tail. -/
lemma reverseLoop_eq {R : List ν} :
    ∀ {m : ν → Link ν} {fuel : ℕ} {e : ν}, (R ++ [L.tail]).head? = some e → L.tail ∉ R →
      R.Nodup → Linked m (R ++ [L.tail]) → R.length < fuel →
        reverseLoop L fuel m e = some (swapCells m R) := by
  induction R with
  | nil =>
    intro m fuel e he _ _ _ hfuel
    obtain ⟨f, rfl⟩ : ∃ f, fuel = f + 1 := ⟨fuel - 1, by simp at hfuel; omega⟩
    obtain rfl : L.tail = e := by simpa using he
    simp [reverseLoop, listEnd, swapCells]
  | cons c R ih =>
    intro m fuel e he htl hnd hl hfuel
    obtain ⟨f, rfl⟩ : ∃ f, fuel = f + 1 := ⟨fuel - 1, by simp at hfuel; omega⟩
    obtain rfl : c = e := by simpa using he
    have hct : c ≠ L.tail := fun h => htl (h ▸ List.mem_cons_self)
    obtain ⟨n, hn⟩ : ∃ n, (R ++ [L.tail]).head? = some n :=
      Option.isSome_iff_exists.mp (by simp)
    obtain ⟨n', R', hR'⟩ := List.exists_cons_of_ne_nil (by simp : R ++ [L.tail] ≠ [])
    obtain rfl : n' = n := by simpa [hR'] using hn
    -- the element goes on to its old successor, which the turned cell holds as `prev`
    have hadj : Adj m c n' := by
      rw [List.cons_append, hR'] at hl
      exact (linked_cons_cons.mp hl).1
    have hrest : Linked (swap m (c, .prev) (c, .next)) (R ++ [L.tail]) := by
      refine (linked_congr_of_eq fun a ha => ?_).mpr (hl.segment ⟨[c], [], by simp⟩)
      have hac : a ≠ c := by
        rintro rfl
        rcases List.mem_append.mp ha with ha | ha
        · exact (List.nodup_cons.mp hnd).1 ha
        · exact hct (List.mem_singleton.mp ha)
      rw [swap_prev_next_self, Function.update_of_ne hac]
    have hprev : (swap m (c, .prev) (c, .next) c).prev = some n' := by
      rw [swap_prev_next_self, Function.update_self]
      exact hadj.1
    rw [reverseLoop, listEnd, if_neg hct]
    simp only [hprev]
    exact ih hn (fun h => htl (List.mem_cons_of_mem c h)) (List.nodup_cons.mp hnd).2 hrest
      (by simp at hfuel; omega)

end Ptr

/-! ### Lists changed on their own cells only -/

namespace ListsRep

variable {ι : Type} [DecidableEq ι] {m m' : ν → Link ν} {hdr : ι → ListHdr ν}
  {xs : ι → List ν}

omit [DecidableEq ν] in
lemma nodes_update_perm {i : ι} {l : List ν} (hperm : l.Perm (xs i)) (k : ι) :
    (nodes hdr (Function.update xs i l) k).Perm (nodes hdr xs k) := by
  by_cases hk : k = i
  · subst hk
    rw [nodes_update_self, nodes]
    exact (hperm.append_right _).cons _
  · rw [nodes_update_of_ne _ _ hk]

omit [DecidableEq ν] in
/-- A heap that differs from a well-formed one only on the cells of list `i`, and links them
in a new order of its elements, is well formed with list `i` in that order. -/
theorem update_of_frame (h : ListsRep m hdr xs) {i : ι} {l : List ν} (hperm : l.Perm (xs i))
    (hframe : ∀ c, c ∉ nodes hdr xs i → m' c = m c) (hhead : (m' (hdr i).head).prev = none)
    (htail : (m' (hdr i).tail).next = none)
    (hlinked : Linked m' ((hdr i).head :: (l ++ [(hdr i).tail]))) :
    ListsRep m' hdr (Function.update xs i l) where
  head_prev k := by
    by_cases hk : k = i
    · subst hk
      exact hhead
    · rw [hframe _ fun hc => hk (h.disjoint k i _ List.mem_cons_self hc)]
      exact h.head_prev k
  tail_next k := by
    by_cases hk : k = i
    · subst hk
      exact htail
    · have hmem : (hdr k).tail ∈ nodes hdr xs k := mem_nodes_of_mem (by simp)
      rw [hframe _ fun hc => hk (h.disjoint k i _ hmem hc)]
      exact h.tail_next k
  linked k := by
    by_cases hk : k = i
    · subst hk
      rw [nodes_update_self]
      exact hlinked
    · rw [nodes_update_of_ne _ _ hk]
      exact (linked_congr_of_eq fun c hc => hframe c fun hc' => hk (h.disjoint k i c hc hc')).mpr
        (h.linked k)
  nodup k := (nodes_update_perm hperm k).nodup_iff.mpr (h.nodup k)
  disjoint k j a hk hj :=
    h.disjoint k j a ((nodes_update_perm hperm k).subset hk) ((nodes_update_perm hperm j).subset hj)

omit [DecidableEq ι] [DecidableEq ν] in
lemma nodup_xs (h : ListsRep m hdr xs) (i : ι) : (xs i).Nodup :=
  ((List.nodup_cons.mp (h.nodup i)).2.sublist (List.sublist_append_left _ _))

omit [DecidableEq ι] [DecidableEq ν] in
lemma head_not_mem (h : ListsRep m hdr xs) (i : ι) : (hdr i).head ∉ xs i ++ [(hdr i).tail] :=
  (List.nodup_cons.mp (h.nodup i)).1

omit [DecidableEq ι] [DecidableEq ν] in
lemma linked_xs (h : ListsRep m hdr xs) (i : ι) : Linked m (xs i ++ [(hdr i).tail]) :=
  (h.linked i).segment ⟨[(hdr i).head], [], by simp [nodes]⟩

omit [DecidableEq ν] in
/-- An element taken off its list is on no list. -/
lemma not_mem_nodes_of_remove (h : ListsRep m hdr xs) {i : ι} {A B : List ν} {x : ν}
    (hxs : xs i = A ++ x :: B) (k : ι) : x ∉ nodes hdr (Function.update xs i (A ++ B)) k := by
  have hx : x ∈ nodes hdr xs i := mem_nodes_of_mem (by simp [hxs])
  by_cases hk : k = i
  · subst hk
    have hnd := h.nodup k
    rw [nodes, hxs, List.append_assoc, List.cons_append, ← List.cons_append,
      List.nodup_middle] at hnd
    rw [nodes_update_self]
    simpa using (List.nodup_cons.mp hnd).1
  · rw [nodes_update_of_ne _ _ hk]
    exact fun hx' => hk (h.disjoint k i x hx' hx)

omit [DecidableEq ι] [DecidableEq ν] in
/-- Where `x` stands in list `i` before the cell `y`: `list_next (x)` is `y` and
`list_prev (y)` is `x`. -/
lemma listNext_listPrev (h : ListsRep m hdr xs) {i : ι} {P R : List ν} {x y : ν}
    (hxs : xs i = P ++ x :: R) (hy : (R ++ [(hdr i).tail]).head? = some y) :
    Ptr.listNext m x = some y ∧ Ptr.listPrev m y = some x := by
  obtain ⟨t, ht⟩ := List.head?_eq_some_iff.mp hy
  have hadj := h.adj_of_split (C := (hdr i).head :: P) (D := t)
    (by rw [nodes, hxs, List.append_assoc, List.cons_append, ht]; rfl)
  exact ⟨(Ptr.listNext_eq m x).trans hadj.1, (Ptr.listPrev_eq m y).trans hadj.2⟩

omit [DecidableEq ι] [DecidableEq ν] in
/-- A cell of a stretch `R` of list `i` is none of the cells after the stretch. -/
lemma ne_of_mem_of_mem_after (h : ListsRep m hdr xs) {i : ι} {P R S : List ν}
    (hxs : xs i = P ++ R ++ S) {x y : ν} (hx : x ∈ R) (hy : y ∈ S ++ [(hdr i).tail]) :
    x ≠ y := by
  have hnd := (List.nodup_cons.mp (h.nodup i)).2
  rw [hxs, List.append_assoc (P ++ R)] at hnd
  exact (List.nodup_append.mp hnd).2.2 x (List.mem_append_right P hx) y hy

end ListsRep

/-! ### `list_reverse` -/

section Reverse

variable {ι : Type} [DecidableEq ι] {m : ν → Link ν} {hdr : ι → ListHdr ν} {xs : ι → List ν}

omit [DecidableEq ι] in
/-- The heap after `list_reverse` of a nonempty list from `a` to `z`: every element turned
around, the head linked to `z` and the tail to `a`, and the turned ends pointing out at them. -/
lemma listReverse_eq (h : ListsRep m hdr xs) {i : ι} {a z : ν} {l : List ν}
    (hxs : xs i = a :: l) (hz : (a :: l).getLast? = some z) {fuel : ℕ}
    (hfuel : (xs i).length < fuel) :
    Ptr.listReverse m (hdr i) fuel = some
      (setNext (setPrev (setPrev (setNext (Ptr.swapCells m (a :: l)) (hdr i).head (some z))
        (hdr i).tail (some a)) z (some (hdr i).head)) a (some (hdr i).tail)) := by
  have hnd := h.nodup_xs i
  have htl := h.tail_not_mem i
  have hhd : (hdr i).head ∉ xs i := fun hh => h.head_not_mem i (List.mem_append_left _ hh)
  rw [hxs] at hnd htl hhd hfuel
  have hat : a ≠ (hdr i).tail := fun ha => htl (ha ▸ List.mem_cons_self)
  have hza : z ∈ a :: l := List.mem_of_getLast? hz
  -- the links `list_reverse` reads: the head's `next`, the tail's `prev`, and the ends' outer ones
  have hHa : (m (hdr i).head).next = some a := h.head_next (by simp [hxs])
  have hN : nodes hdr xs i = ((hdr i).head :: (a :: l).dropLast) ++ z :: (hdr i).tail :: [] := by
    obtain ⟨l', hl'⟩ := List.getLast?_eq_some_iff.mp hz
    rw [nodes, hxs, hl', List.dropLast_concat]
    simp
  have hTz : (m (hdr i).tail).prev = some z := (h.adj_of_split hN).2
  have hloop : Ptr.reverseLoop (hdr i) fuel m a = some (Ptr.swapCells m (a :: l)) :=
    Ptr.reverseLoop_eq (hdr i) (by simp) htl hnd (by simpa [hxs] using h.linked_xs i) hfuel
  have hHs : Ptr.swapCells m (a :: l) (hdr i).head = m (hdr i).head :=
    Ptr.swapCells_of_not_mem hhd
  have hTs : Ptr.swapCells m (a :: l) (hdr i).tail = m (hdr i).tail :=
    Ptr.swapCells_of_not_mem htl
  have haH : (m a).prev = some (hdr i).head :=
    (h.adj_of_split (C := []) (D := l ++ [(hdr i).tail]) (by rw [nodes, hxs]; rfl)).2
  have hzT : (m z).next = some (hdr i).tail := (h.adj_of_split hN).1
  have hzt : z ≠ (hdr i).tail := fun hh => htl (hh ▸ hza)
  have haH' : a ≠ (hdr i).head := fun hh => hhd (hh ▸ List.mem_cons_self)
  have hempty : Ptr.listEmpty m (hdr i) = false := by
    simp [Ptr.listEmpty, Ptr.listBegin, Ptr.listEnd, hHa, hat]
  simp only [Ptr.listReverse, hempty, Bool.false_eq_true, ↓reduceIte, Ptr.listBegin, hHa,
    Option.bind_eq_bind, Option.bind_some, hloop, Ptr.swap_next_prev, Ptr.swap_prev_next,
    setPrev_next, setNext_next, setPrev_prev, setNext_prev, hHs, hTs, hTz, haH', hzt,
    Ptr.swapCells_of_mem hnd List.mem_cons_self, Ptr.swapCells_of_mem hnd hza,
    flipLinks, haH, hzT]
  rfl

/-- The heap `listReverse_eq` computes links list `i` backwards, from `z` to `a`, and leaves
the other lists alone. -/
lemma listsRep_reversed (h : ListsRep m hdr xs) {i : ι} {a z : ν} {l : List ν}
    (hxs : xs i = a :: l) (hz : (a :: l).getLast? = some z) :
    ListsRep (setNext (setPrev (setPrev (setNext (Ptr.swapCells m (a :: l)) (hdr i).head (some z))
      (hdr i).tail (some a)) z (some (hdr i).head)) a (some (hdr i).tail)) hdr
      (Function.update xs i (a :: l).reverse) := by
  have hnd := h.nodup_xs i
  have htl := h.tail_not_mem i
  have hhd : (hdr i).head ∉ xs i := fun hh => h.head_not_mem i (List.mem_append_left _ hh)
  rw [hxs] at hnd htl hhd
  have hHT : (hdr i).head ≠ (hdr i).tail := fun hh => h.head_not_mem i (by simp [hh])
  have hza : z ∈ a :: l := List.mem_of_getLast? hz
  have hzH : z ≠ (hdr i).head := fun hh => hhd (hh ▸ hza)
  have hzT : z ≠ (hdr i).tail := fun hh => htl (hh ▸ hza)
  have haH : a ≠ (hdr i).head := fun hh => hhd (hh ▸ List.mem_cons_self)
  have haT : a ≠ (hdr i).tail := fun hh => htl (hh ▸ List.mem_cons_self)
  have hR : (a :: l).reverse.Nodup := List.nodup_reverse.mpr hnd
  have hRz : (a :: l).reverse.head? = some z := by rw [List.head?_reverse]; exact hz
  have hRa : (a :: l).reverse.getLast? = some a := by rw [List.getLast?_reverse]; rfl
  have hHs := Ptr.swapCells_of_not_mem (m := m) hhd
  have hTs := Ptr.swapCells_of_not_mem (m := m) htl
  refine h.update_of_frame (by rw [hxs]; exact List.reverse_perm _) ?_ ?_ ?_ ?_
  · -- a cell of no element of list `i` is not written
    intro c hc
    have hcl : c ∉ a :: l := fun hcl =>
      hc (ListsRep.mem_nodes_of_mem (List.mem_append_left _ (hxs ▸ hcl)))
    have hcH : c ≠ (hdr i).head := fun hh => hc (hh ▸ List.mem_cons_self)
    have hcT : c ≠ (hdr i).tail := fun hh => hc (hh ▸ ListsRep.mem_nodes_of_mem (by simp))
    have hca : c ≠ a := fun hh => hcl (hh ▸ List.mem_cons_self)
    have hcz : c ≠ z := fun hh => hcl (hh ▸ hza)
    rw [setNext_of_ne _ _ hca, setPrev_of_ne _ _ hcz, setPrev_of_ne _ _ hcT,
      setNext_of_ne _ _ hcH, Ptr.swapCells_of_not_mem hcl]
  · simp [hHT, hzH.symm, hHs, h.head_prev i]
  · simp [haT.symm, hHT.symm, hTs, h.tail_next i]
  · -- the elements are linked through their turned cells, the ends to the sentinels
    have hmid : Linked (setNext (setPrev (setPrev (setNext (Ptr.swapCells m (a :: l))
        (hdr i).head (some z)) (hdr i).tail (some a)) z (some (hdr i).head)) a
        (some (hdr i).tail)) (a :: l).reverse := by
      have hl : Linked m (a :: l) :=
        (h.linked_xs i).segment ⟨[], [(hdr i).tail], by simp [hxs]⟩
      refine (linked_congr (m := flipLinks m) (fun c hc => ?_) (fun c hc => ?_)).mpr
        (linked_reverse_flipLinks.mpr hl)
      · have hca : c ≠ a := ne_of_mem_of_not_mem hc (getLast_not_mem_dropLast hR hRa)
        have hcl : c ∈ a :: l := List.mem_reverse.mp (List.dropLast_subset _ hc)
        have hcH : c ≠ (hdr i).head := fun hh => hhd (hh ▸ hcl)
        simp [hca, hcH, Ptr.swapCells_of_mem hnd hcl]
      · have hcz : c ≠ z := ne_of_mem_of_not_mem hc (head_not_mem_tail hR hRz)
        have hcl : c ∈ a :: l := List.mem_reverse.mp (List.mem_of_mem_tail hc)
        have hcT : c ≠ (hdr i).tail := fun hh => htl (hh ▸ hcl)
        simp [hcz, hcT, Ptr.swapCells_of_mem hnd hcl]
    rw [show ∀ t, (hdr i).head :: t = [(hdr i).head] ++ t from fun _ => rfl, linked_append,
      linked_append]
    refine ⟨linked_singleton _, ⟨hmid, linked_singleton _, ?_⟩, ?_⟩
    · intro x hx y hy
      obtain rfl : x = a := Option.some.inj (hx.symm.trans hRa)
      obtain rfl : (hdr i).tail = y := by simpa using hy
      simp [Adj, hzT.symm]
    · intro x hx y hy
      obtain rfl : (hdr i).head = x := by simpa using hx
      obtain rfl : y = z := by
        rw [List.head?_append_of_ne_nil _ (by simp)] at hy
        exact Option.some.inj (hy.symm.trans hRz)
      simp [Adj, haH.symm]

/-- **`list_reverse` reverses a list**: with enough fuel for its loop it leaves list `i` holding
its elements in reverse order and the family well formed, every other list as it was; an empty
list is left alone. -/
theorem list_reverse_reverses (h : ListsRep m hdr xs) (i : ι) {fuel : ℕ}
    (hfuel : (xs i).length < fuel) :
    ∃ m', Ptr.listReverse m (hdr i) fuel = some m' ∧
      ListsRep m' hdr (Function.update xs i (xs i).reverse) ∧ (xs i = [] → m' = m) := by
  rcases hxs : xs i with _ | ⟨a, l⟩
  · -- `list_empty` holds and nothing is written
    have hHT : (m (hdr i).head).next = some (hdr i).tail := h.head_next (by simp [hxs])
    refine ⟨m, ?_, ?_, fun _ => rfl⟩
    · simp [Ptr.listReverse, Ptr.listEmpty, Ptr.listBegin, Ptr.listEnd, hHT]
    · rw [List.reverse_nil, ← hxs, Function.update_eq_self]
      exact h
  obtain ⟨z, hz⟩ : ∃ z, (a :: l).getLast? = some z := Option.isSome_iff_exists.mp (by simp)
  exact ⟨_, listReverse_eq h hxs hz hfuel, hxs ▸ listsRep_reversed h hxs hz,
    fun hnil => absurd hnil (by simp)⟩

end Reverse

/-- A list with sentinels `0` and `1` holding the elements `2` and `3`. -/
def pairHeap : ℕ → Link ℕ
  | 0 => ⟨none, some 2⟩
  | 1 => ⟨some 3, none⟩
  | 2 => ⟨some 0, some 3⟩
  | 3 => ⟨some 2, some 1⟩
  | _ => ⟨none, none⟩

lemma pairHeap_rep : ListsRep pairHeap (fun _ : Unit => ⟨0, 1⟩) (fun _ => [2, 3]) where
  head_prev _ := rfl
  tail_next _ := rfl
  linked _ := by simp [nodes, Linked, Adj, pairHeap]
  nodup u := by
    cases u
    decide
  disjoint _ _ _ _ _ := rfl

theorem list_reverse_reverses_pair :
    ∃ m', Ptr.listReverse pairHeap ⟨0, 1⟩ 3 = some m' ∧
      ListsRep m' (fun _ : Unit => ⟨0, 1⟩) (Function.update (fun _ => [2, 3]) () [3, 2]) ∧
      ([2, 3] = [] → m' = pairHeap) :=
  list_reverse_reverses pairHeap_rep () (by decide)

/-! ### `list_unique` -/

section Unique

variable {ι : Type} [DecidableEq ι] {hdr : ι → ListHdr ν}

/-- The lists after `list_unique` of list `i`: `kept` in its place, and `removed` appended to
list `j` when the duplicates go to `j`. -/
def afterUnique (xs : ι → List ν) (i : ι) (kept removed : List ν) : Option ι → ι → List ν
  | some j => Function.update (Function.update xs i kept) j (xs j ++ removed)
  | none => Function.update xs i kept

omit [DecidableEq ν] in
lemma afterUnique_self (xs : ι → List ν) (i : ι) (dup : Option ι) :
    afterUnique xs i (xs i) [] dup = xs := by
  cases dup <;> simp [afterUnique]

omit [DecidableEq ν] in
/-- What list `i` held before does not matter. -/
lemma afterUnique_update_self (xs : ι → List ν) {i : ι} {dup : Option ι} (hdup : dup ≠ some i)
    (l kept removed : List ν) :
    afterUnique (Function.update xs i l) i kept removed dup = afterUnique xs i kept removed dup := by
  cases dup with
  | none => simp [afterUnique]
  | some j =>
    have hji : j ≠ i := fun h => hdup (h ▸ rfl)
    simp [afterUnique, Function.update_of_ne hji]

omit [DecidableEq ν] in
/-- An element pushed on the duplicates is the first one removed. -/
lemma afterUnique_push (xs : ι → List ν) {i j : ι} (hji : j ≠ i) (x : ν)
    (kept removed : List ν) :
    afterUnique (Function.update xs j (xs j ++ [x])) i kept removed (some j) =
      afterUnique xs i kept (x :: removed) (some j) := by
  simp [afterUnique, Function.update_comm hji.symm]

variable (less : ν → ν → Bool)

/-- The loop of `list_unique` from the kept element `e`, with `R` the elements after it, sweeps
`R` as `sweepDups` does: the elements it keeps stay in list `i` and the others go, in order, to
the duplicates. The induction is on `R`. -/
lemma uniqueLoop_eq {i : ι} {dup : Option ι} (hdup : dup ≠ some i) {R : List ν} :
    ∀ {m : ν → Link ν} {xs : ι → List ν} {K : List ν} {e : ν} {fuel : ℕ},
      ListsRep m hdr xs → xs i = K ++ e :: R → R.length < fuel →
      ∃ m', Ptr.uniqueLoop (hdr i) (dup.map hdr) less fuel m e = some m' ∧
        ListsRep m' hdr (afterUnique xs i (K ++ e :: (sweepDups (Equiv less) e R).1)
          (sweepDups (Equiv less) e R).2 dup) := by
  induction R with
  | nil =>
    intro m xs K e fuel h hxs hfuel
    obtain ⟨f, rfl⟩ : ∃ f, fuel = f + 1 := ⟨fuel - 1, by simp at hfuel; omega⟩
    -- the tail follows `e`
    have hnext : (m e).next = some (hdr i).tail :=
      (h.adj_of_split (C := (hdr i).head :: K) (D := []) (by rw [nodes, hxs]; simp)).1
    refine ⟨m, by simp [Ptr.uniqueLoop, Ptr.listNext_eq, hnext, Ptr.listEnd], ?_⟩
    rw [show sweepDups (Equiv less) e [] = ([], []) from rfl, ← hxs, afterUnique_self]
    exact h
  | cons x R ih =>
    intro m xs K e fuel h hxs hfuel
    obtain ⟨f, rfl⟩ : ∃ f, fuel = f + 1 := ⟨fuel - 1, by simp at hfuel; omega⟩
    have hnext : (m e).next = some x :=
      (h.adj_of_split (C := (hdr i).head :: K) (D := R ++ [(hdr i).tail])
        (by rw [nodes, hxs]; simp)).1
    have hxT : x ≠ (hdr i).tail :=
      ne_of_mem_of_not_mem (by simp [hxs]) (h.tail_not_mem i)
    have hxs' : xs i = (K ++ [e]) ++ x :: R := by simp [hxs]
    by_cases hex : Equiv less e x = true
    · -- `x` is a duplicate of `e`: it is removed, and `e` stays the element kept last
      have hex' : (!less e x && !less x e) = true := hex
      obtain ⟨m₁, hrem, h₁⟩ := h.listRemove hxs'
      have hxs₁ : Function.update xs i (K ++ [e] ++ R) i = K ++ e :: R := by simp
      rw [sweepDups, if_pos hex]
      dsimp only
      cases dup with
      | none =>
        obtain ⟨m', hloop, h'⟩ := ih h₁ hxs₁ (by simp at hfuel; omega)
        refine ⟨m', ?_, ?_⟩
        · rw [Option.map_none, Ptr.uniqueLoop_drop hnext hxT hex' hrem]
          exact hloop
        · rw [afterUnique_update_self _ hdup] at h'
          exact h'
      | some j =>
        have hji : j ≠ i := fun hj => hdup (hj ▸ rfl)
        obtain ⟨m₂, hpush, h₂⟩ := h₁.listPushBack j (h.not_mem_nodes_of_remove hxs')
        have hxs₂ : Function.update (Function.update xs i (K ++ [e] ++ R)) j
            (Function.update xs i (K ++ [e] ++ R) j ++ [x]) i = K ++ e :: R := by
          simp [Function.update_of_ne hji.symm]
        obtain ⟨m', hloop, h'⟩ := ih h₂ hxs₂ (by simp at hfuel; omega)
        refine ⟨m', ?_, ?_⟩
        · rw [Option.map_some, Ptr.uniqueLoop_push hnext hxT hex' hrem hpush]
          exact hloop
        · rw [afterUnique_push _ hji, afterUnique_update_self _ hdup] at h'
          exact h'
    · -- `x` is kept, and becomes the element kept last
      have hex' : (!less e x && !less x e) = false := Bool.of_not_eq_true hex
      obtain ⟨m', hloop, h'⟩ := ih (K := K ++ [e]) h hxs' (by simp at hfuel; omega)
      refine ⟨m', ?_, ?_⟩
      · rw [Ptr.uniqueLoop_keep hnext hxT hex']
        exact hloop
      · rw [sweepDups, if_neg hex]
        simpa using h'

/-- **`list_unique` keeps the first element of each run**: for a strict weak order `less` and
enough fuel, `list_unique` of list `i` leaves in it the first element of each maximal run of
adjacent equivalent elements, in their order, and appends the other elements of the runs, in
their order, to the duplicates list when one is given (another list of the family); every
other list is left as it was. -/
theorem list_unique_keeps_run_heads {m : ν → Link ν} {xs : ι → List ν} (h : ListsRep m hdr xs)
    (hso : IsStrictWeakOrder ν fun a b => less a b = true) (i : ι) (dup : Option ι)
    (hdup : dup ≠ some i) {fuel : ℕ} (hfuel : (xs i).length < fuel) :
    ∃ m', Ptr.listUnique m (hdr i) (dup.map hdr) less fuel = some m' ∧
      ListsRep m' hdr (afterUnique xs i (((xs i).splitBy (Equiv less)).filterMap List.head?)
        (((xs i).splitBy (Equiv less)).flatMap List.tail) dup) := by
  rcases hxs : xs i with _ | ⟨a, R⟩
  · -- `list_empty` holds and nothing changes
    have hHT : (m (hdr i).head).next = some (hdr i).tail := h.head_next (by simp [hxs])
    refine ⟨m, by simp [Ptr.listUnique, Ptr.listEmpty, Ptr.listBegin, Ptr.listEnd, hHT], ?_⟩
    simp only [List.splitBy_nil, List.filterMap_nil, List.flatMap_nil]
    have hself := afterUnique_self xs i dup
    rw [hxs] at hself
    rw [hself]
    exact h
  · have hHa : (m (hdr i).head).next = some a := h.head_next (by simp [hxs])
    have haT : a ≠ (hdr i).tail := ne_of_mem_of_not_mem (by simp [hxs]) (h.tail_not_mem i)
    have hR : R.length < fuel := by
      rw [hxs] at hfuel
      simp at hfuel
      omega
    obtain ⟨m', hloop, h'⟩ := uniqueLoop_eq less hdup (K := []) h (by simpa using hxs) hR
    obtain ⟨hkept, hremoved⟩ := sweepDups_eq_splitBy (equivalence_equiv hso) a R
    refine ⟨m', ?_, ?_⟩
    · simp [Ptr.listUnique, Ptr.listEmpty, Ptr.listBegin, Ptr.listEnd, hHa, haT, hloop]
    · rw [hkept, hremoved]
      simpa using h'

end Unique

/-- Cells compared by half their address: `2` and `3` are equivalent. -/
lemma halfLess_isStrictWeakOrder : IsStrictWeakOrder ℕ fun a b => decide (a / 2 < b / 2) = true where
  irrefl a := by simp
  trans a b c := by
    simp only [decide_eq_true_eq]
    exact Nat.lt_trans
  incomp_trans a b c := by
    simp only [decide_eq_true_eq]
    omega

theorem list_unique_keeps_run_heads_pair :
    ∃ m', Ptr.listUnique pairHeap ⟨0, 1⟩ none (fun a b => decide (a / 2 < b / 2)) 3 = some m' ∧
      ListsRep m' (fun _ : Unit => ⟨0, 1⟩) (afterUnique (fun _ => [2, 3]) () [2] [3] none) :=
  list_unique_keeps_run_heads _ pairHeap_rep halfLess_isStrictWeakOrder () none (by decide)
    (by decide)

end TinyOs
