import TinyOs.Kernel.ListPtr

/-!
The pointer lists of `list.c` refine sequences. A family of `struct list`s, list `i` with
sentinels `hdr i` and elements `xs i`, is well formed (`ListsRep`) when each head's `prev` and
each tail's `next` is null, the cells from head to tail are linked both ways, and no cell is twice
in one list or in two lists.

* `ListsRep.exists_pred`: an element or a tail of a list has a predecessor in it;
* `ListsRep.linkRun`: linking a detached, linked run before a cell of a list inserts the run in
  that list's sequence and keeps the family well formed;
* `ListsRep.unlinkRun`: joining the cells around a run of a list takes the run out of its
  sequence, keeps the family well formed and leaves the run linked and detached;
* `ListsRep.listInsert`, `ListsRep.listRemove`, `ListsRep.listSplice`, and the pushes and pops:
  each function of `list.c` as one of these two steps or both.
-/

namespace TinyOs

open DLink

variable {ι ν : Type}

/-- The cells of list `i`, from its head through its elements to its tail. -/
def nodes (hdr : ι → ListHdr ν) (xs : ι → List ν) (i : ι) : List ν :=
  (hdr i).head :: (xs i ++ [(hdr i).tail])

/-- A family of well-formed lists, list `i` holding the elements `xs i` in order. -/
structure ListsRep (m : ν → Link ν) (hdr : ι → ListHdr ν) (xs : ι → List ν) : Prop where
  head_prev : ∀ i, (m (hdr i).head).prev = none
  tail_next : ∀ i, (m (hdr i).tail).next = none
  /-- Following `next` from the head reaches the tail, and `prev` walks back the same way. -/
  linked : ∀ i, Linked m (nodes hdr xs i)
  nodup : ∀ i, (nodes hdr xs i).Nodup
  /-- Distinct lists share no cell. -/
  disjoint : ∀ i j a, a ∈ nodes hdr xs i → a ∈ nodes hdr xs j → i = j

section Nodes

variable [DecidableEq ι] (hdr : ι → ListHdr ν) (xs : ι → List ν)

@[simp] lemma nodes_update_self (i : ι) (l : List ν) :
    nodes hdr (Function.update xs i l) i = (hdr i).head :: (l ++ [(hdr i).tail]) := by
  simp [nodes]

@[simp] lemma nodes_update_of_ne {i k : ι} (h : k ≠ i) (l : List ν) :
    nodes hdr (Function.update xs i l) k = nodes hdr xs k := by
  simp [nodes, h]

end Nodes

/-- Where a cell stands in a list: after the head, before the tail, at neither end twice. -/
lemma sentinels_of_split {hd tl bp b : ν} {l C D : List ν}
    (hN : hd :: (l ++ [tl]) = C ++ bp :: b :: D) (hnd : (hd :: (l ++ [tl])).Nodup) :
    hd ≠ b ∧ bp ≠ tl ∧ b ∉ C ++ [bp] := by
  rw [hN] at hnd
  have hnd' : ((C ++ [bp]) ++ b :: D).Nodup := by
    rw [List.append_assoc, List.singleton_append]
    exact hnd
  have hb : b ∉ C ++ [bp] := fun h =>
    (List.nodup_append.mp hnd').2.2 b h b List.mem_cons_self rfl
  have hhd : hd ∈ C ++ [bp] := by
    cases C with
    | nil => simp_all
    | cons c C => simp_all
  have htl : tl ∈ b :: D := by
    have hlast := congrArg List.getLast? hN
    rw [show C ++ bp :: b :: D = (C ++ [bp]) ++ b :: D by simp, List.getLast?_append_of_ne_nil _
      (List.cons_ne_nil b D)] at hlast
    have hget : (hd :: (l ++ [tl])).getLast? = some tl :=
      List.getLast?_eq_some_iff.mpr ⟨hd :: l, rfl⟩
    exact List.mem_of_getLast? (hlast ▸ hget)
  refine ⟨fun h => hb (h ▸ hhd), fun h => ?_, hb⟩
  exact (List.nodup_append.mp hnd').2.2 bp (by simp) tl htl h

namespace ListsRep

variable {m : ν → Link ν} {hdr : ι → ListHdr ν} {xs : ι → List ν}

lemma mem_nodes_of_mem {i : ι} {b : ν} (hb : b ∈ xs i ++ [(hdr i).tail]) :
    b ∈ nodes hdr xs i :=
  List.mem_cons_of_mem _ hb

/-- An element or the tail of a list has a predecessor there. -/
lemma exists_pred (h : ListsRep m hdr xs) {i : ι} {b : ν} (hb : b ∈ xs i ++ [(hdr i).tail]) :
    ∃ C bp D, nodes hdr xs i = C ++ bp :: b :: D := by
  obtain ⟨s, t, hst⟩ := List.append_of_mem (mem_nodes_of_mem hb)
  rcases List.eq_nil_or_concat s with rfl | ⟨C, bp, rfl⟩
  · -- `b` would be the head, which is not among the elements and the tail
    have hhd : (hdr i).head = b := (List.cons_eq_cons.mp hst).1
    exact absurd (hhd ▸ hb) (List.nodup_cons.mp (h.nodup i)).1
  · exact ⟨C, bp, t, by simpa using hst⟩

lemma adj_of_split (h : ListsRep m hdr xs) {i : ι} {C D : List ν} {a b : ν}
    (hN : nodes hdr xs i = C ++ a :: b :: D) : Adj m a b := by
  have hl := h.linked i
  rw [hN] at hl
  exact (linked_append_cons_cons.mp hl).2.1

/-- The first cell after the head. -/
lemma head_next (h : ListsRep m hdr xs) {i : ι} {x : ν}
    (hx : (xs i ++ [(hdr i).tail]).head? = some x) : (m (hdr i).head).next = some x := by
  obtain ⟨t, ht⟩ := List.head?_eq_some_iff.mp hx
  have hN : nodes hdr xs i = [] ++ (hdr i).head :: x :: t := by
    rw [nodes, ht]
    rfl
  exact (h.adj_of_split hN).1

lemma tail_not_mem (h : ListsRep m hdr xs) (i : ι) : (hdr i).tail ∉ xs i := fun ht =>
  (List.nodup_append.mp (List.nodup_cons.mp (h.nodup i)).2).2.2 _ ht _
    (List.mem_singleton_self _) rfl

/-! ### Putting a run in, taking a run out -/

variable [DecidableEq ι] [DecidableEq ν]

/-- After a run goes in before `b`, list `i` holds the run and its old cells. -/
lemma nodes_insert_perm (i : ι) (b : ν) (R : List ν) :
    (nodes hdr (Function.update xs i (insertBefore b R (xs i))) i).Perm (R ++ nodes hdr xs i) := by
  rw [nodes_update_self, nodes]
  have hp := ((insertBefore_perm (b := b) (R := R) (xs i)).append_right [(hdr i).tail]).cons
    (hdr i).head
  rw [List.append_assoc] at hp
  exact hp.trans List.perm_middle.symm

lemma mem_nodes_insert {i k : ι} {b a : ν} {R : List ν} :
    a ∈ nodes hdr (Function.update xs i (insertBefore b R (xs i))) k ↔
      (k = i ∧ a ∈ R) ∨ a ∈ nodes hdr xs k := by
  by_cases hk : k = i
  · subst hk
    rw [(nodes_insert_perm k b R).mem_iff, List.mem_append]
    simp
  · rw [nodes_update_of_ne _ _ hk]
    simp [hk]

/-- Linking a linked run, on no list, before an element or the tail of list `i` inserts the run
in `i`'s sequence just before that cell. -/
theorem linkRun (h : ListsRep m hdr xs) {i : ι} {before bp first last : ν} {R : List ν}
    (hb : before ∈ xs i ++ [(hdr i).tail]) (hbp : (m before).prev = some bp)
    (hfirst : R.head? = some first) (hlast : R.getLast? = some last)
    (hR : Linked m R) (hRnd : R.Nodup) (hRfree : ∀ k, ∀ a ∈ R, a ∉ nodes hdr xs k) :
    ListsRep (DLink.linkRun m bp before first last) hdr
      (Function.update xs i (insertBefore before R (xs i))) := by
  obtain ⟨C, bp', D, hN⟩ := h.exists_pred hb
  -- the predecessor the heap gives is the one in the list
  obtain rfl : bp' = bp := Option.some.inj ((h.adj_of_split hN).2.symm.trans hbp)
  obtain ⟨hhd, hbptl, hbC⟩ := sentinels_of_split hN (h.nodup i)
  have hfR : first ∈ R := List.mem_of_mem_head? hfirst
  have hlR : last ∈ R := List.mem_of_getLast? hlast
  have hbN : before ∈ nodes hdr xs i := mem_nodes_of_mem hb
  have hbpN : bp' ∈ nodes hdr xs i := by
    rw [hN]
    simp
  have hN' : nodes hdr (Function.update xs i (insertBefore before R (xs i))) i =
      C ++ bp' :: (R ++ before :: D) := by
    rw [nodes_update_self, ← insertBefore_concat hb]
    calc (hdr i).head :: insertBefore before R (xs i ++ [(hdr i).tail])
        = insertBefore before R (nodes hdr xs i) := by rw [nodes, insertBefore, if_neg hhd]
      _ = insertBefore before R ((C ++ [bp']) ++ before :: D) := by rw [hN]; simp
      _ = C ++ bp' :: (R ++ before :: D) := by rw [insertBefore_append_cons hbC]; simp
  have hnd' : (nodes hdr (Function.update xs i (insertBefore before R (xs i))) i).Nodup :=
    (nodes_insert_perm i before R).nodup_iff.mpr (List.nodup_append.mpr
      ⟨hRnd, h.nodup i, fun a ha c hc hac => hRfree i a ha (hac ▸ hc)⟩)
  -- a cell of another list is none of the four cells written
  have hother : ∀ k, k ≠ i → ∀ a ∈ nodes hdr xs k,
      DLink.linkRun m bp' before first last a = m a := fun k hk a ha =>
    linkRun_of_ne m (fun he => hk (h.disjoint k i a ha (he ▸ hbpN)))
      (fun he => hk (h.disjoint k i a ha (he ▸ hbN)))
      (fun he => hRfree k first hfR (he ▸ ha)) (fun he => hRfree k last hlR (he ▸ ha))
  refine ⟨fun k => ?_, fun k => ?_, fun k => ?_, fun k => ?_, fun k k' a ha ha' => ?_⟩
  · have hne₁ : (hdr k).head ≠ first := fun he => hRfree k first hfR (he ▸ List.mem_cons_self)
    have hne₂ : (hdr k).head ≠ before := by
      intro he
      obtain rfl : k = i := h.disjoint k i before (he ▸ List.mem_cons_self) hbN
      exact hhd he
    simp [DLink.linkRun, hne₁, hne₂, h.head_prev k]
  · have htl : (hdr k).tail ∈ nodes hdr xs k := by simp [nodes]
    have hne₁ : (hdr k).tail ≠ last := fun he => hRfree k last hlR (he ▸ htl)
    have hne₂ : (hdr k).tail ≠ bp' := by
      intro he
      obtain rfl : k = i := h.disjoint k i bp' (he ▸ htl) hbpN
      exact hbptl he.symm
    simp [DLink.linkRun, hne₁, hne₂, h.tail_next k]
  · by_cases hk : k = i
    · subst hk
      have hl := h.linked k
      rw [hN] at hl
      rw [hN'] at hnd' ⊢
      exact linked_linkRun hfirst hlast hl hR hnd'
    · rw [nodes_update_of_ne _ _ hk]
      exact (linked_congr_of_eq (hother k hk)).mpr (h.linked k)
  · by_cases hk : k = i
    · subst hk
      exact hnd'
    · rw [nodes_update_of_ne _ _ hk]
      exact h.nodup k
  · rw [mem_nodes_insert] at ha ha'
    rcases ha with ⟨rfl, haR⟩ | ha <;> rcases ha' with ⟨rfl, haR'⟩ | ha'
    · rfl
    · exact absurd ha' (hRfree k' a haR)
    · exact absurd ha (hRfree k a haR')
    · exact h.disjoint k k' a ha ha'

omit [DecidableEq ν] in
/-- The cells of list `j` around a run `R` of its elements, before and after `R` goes. -/
lemma nodes_eq_run {j : ι} {A R B : List ν} (hxs : xs j = A ++ R ++ B) {fp ln : ν}
    (hfp : ((hdr j).head :: A).getLast? = some fp)
    (hln : (B ++ [(hdr j).tail]).head? = some ln) :
    ∃ A' B', (hdr j).head :: A = A' ++ [fp] ∧ B ++ [(hdr j).tail] = ln :: B' ∧
      nodes hdr xs j = A' ++ fp :: (R ++ ln :: B') ∧
      nodes hdr (Function.update xs j (A ++ B)) j = A' ++ fp :: ln :: B' := by
  obtain ⟨A', hA'⟩ := List.getLast?_eq_some_iff.mp hfp
  obtain ⟨B', hB'⟩ := List.head?_eq_some_iff.mp hln
  refine ⟨A', B', hA', hB', ?_, ?_⟩
  · calc nodes hdr xs j = ((hdr j).head :: A) ++ R ++ (B ++ [(hdr j).tail]) := by
          rw [nodes, hxs]
          simp
      _ = A' ++ fp :: (R ++ ln :: B') := by
          rw [hA', hB']
          simp
  · calc nodes hdr (Function.update xs j (A ++ B)) j
        = ((hdr j).head :: A) ++ (B ++ [(hdr j).tail]) := by simp
      _ = A' ++ fp :: ln :: B' := by
          rw [hA', hB']
          simp

/-- Joining the cells around the run `R` of list `j` takes `R` out of `j`'s sequence, and leaves
`R` linked and on no list. -/
theorem unlinkRun (h : ListsRep m hdr xs) {j : ι} {A R B : List ν} (hxs : xs j = A ++ R ++ B)
    {fp ln : ν} (hfp : ((hdr j).head :: A).getLast? = some fp)
    (hln : (B ++ [(hdr j).tail]).head? = some ln) :
    ListsRep (DLink.unlinkRun m fp ln) hdr (Function.update xs j (A ++ B)) ∧
      Linked (DLink.unlinkRun m fp ln) R ∧ R.Nodup ∧
      ∀ k, ∀ a ∈ R, a ∉ nodes hdr (Function.update xs j (A ++ B)) k := by
  obtain ⟨A', B', hA', hB', hN, hN'⟩ := nodes_eq_run hxs hfp hln
  have hnd := h.nodup j
  rw [hN] at hnd
  have hl := h.linked j
  rw [hN] at hl
  obtain ⟨hlinked, hRlinked⟩ := linked_unlinkRun hl hnd
  -- the new cells of `j` are the old ones but `R`, and `R` shares no cell with them
  have hsub : (A' ++ fp :: ln :: B').Sublist (A' ++ fp :: (R ++ ln :: B')) :=
    ((List.sublist_append_right R (ln :: B')).cons_cons fp).append_left A'
  have hRfree : ∀ a ∈ R, a ∉ A' ++ fp :: ln :: B' := by
    intro a ha ha'
    have hnd'' : ((A' ++ [fp]) ++ R ++ ln :: B').Nodup := by simpa using hnd
    rw [List.nodup_append, List.nodup_append] at hnd''
    simp only [List.mem_append, List.mem_cons] at ha'
    rcases ha' with ha' | rfl | rfl | ha'
    · exact hnd''.1.2.2 a (by simp [ha']) a ha rfl
    · exact hnd''.1.2.2 a (by simp) a ha rfl
    · exact hnd''.2.2 a (by simp [ha]) a List.mem_cons_self rfl
    · exact hnd''.2.2 a (by simp [ha]) a (List.mem_cons_of_mem _ ha') rfl
  have hmem : ∀ k a, a ∈ nodes hdr (Function.update xs j (A ++ B)) k → a ∈ nodes hdr xs k := by
    intro k a ha
    by_cases hk : k = j
    · subst hk
      rw [hN'] at ha
      rw [hN]
      exact hsub.subset ha
    · rwa [nodes_update_of_ne _ _ hk] at ha
  have hfpN : fp ∈ nodes hdr xs j := by
    rw [hN]
    simp
  have hlnN : ln ∈ nodes hdr xs j := by
    rw [hN]
    simp
  have hother : ∀ k, k ≠ j → ∀ a ∈ nodes hdr xs k, DLink.unlinkRun m fp ln a = m a :=
    fun k hk a ha => unlinkRun_of_ne m (fun he => hk (h.disjoint k j a ha (he ▸ hfpN)))
      (fun he => hk (h.disjoint k j a ha (he ▸ hlnN)))
  refine ⟨⟨fun k => ?_, fun k => ?_, fun k => ?_, fun k => ?_, fun k k' a ha ha' => ?_⟩,
    hRlinked, (hnd.sublist ?_), fun k a ha ha' => ?_⟩
  · by_cases hk : k = j
    · subst hk
      -- the head is at the front, before `fp`; `ln` comes after
      have hhd : (hdr k).head ≠ ln := by
        intro he
        have hnd'' : ((A' ++ [fp]) ++ (R ++ ln :: B')).Nodup := by simpa using hnd
        exact (List.nodup_append.mp hnd'').2.2 (hdr k).head (by rw [← hA']; simp) ln
          (by simp) he
      simp [DLink.unlinkRun, hhd, h.head_prev k]
    · rw [hother k hk _ List.mem_cons_self, h.head_prev k]
  · by_cases hk : k = j
    · subst hk
      have htl : (hdr k).tail ∈ ln :: B' := by
        rw [← hB']
        simp
      have htlfp : (hdr k).tail ≠ fp := by
        intro he
        have hnd'' : ((A' ++ [fp]) ++ (R ++ ln :: B')).Nodup := by simpa using hnd
        exact (List.nodup_append.mp hnd'').2.2 fp (by simp) (hdr k).tail
          (List.mem_append_right R htl) he.symm
      simp [DLink.unlinkRun, htlfp, h.tail_next k]
    · rw [hother k hk _ (by simp [nodes]), h.tail_next k]
  · by_cases hk : k = j
    · subst hk
      rw [hN']
      exact hlinked
    · rw [nodes_update_of_ne _ _ hk]
      exact (linked_congr_of_eq (hother k hk)).mpr (h.linked k)
  · by_cases hk : k = j
    · subst hk
      rw [hN']
      exact hnd.sublist hsub
    · rw [nodes_update_of_ne _ _ hk]
      exact h.nodup k
  · exact h.disjoint k k' a (hmem k a ha) (hmem k' a ha')
  · exact (List.infix_append' (A' ++ [fp]) R (ln :: B')).sublist.trans (by simp)
  · by_cases hk : k = j
    · subst hk
      rw [hN'] at ha'
      exact hRfree a ha ha'
    · rw [nodes_update_of_ne _ _ hk] at ha'
      have haj : a ∈ nodes hdr xs j := by
        rw [hN]
        simp [ha]
      exact hk (h.disjoint k j a ha' haj)

/-! ### The functions of `list.c` -/

/-- `list_insert` of an element on no list, before an element or the tail of list `i`. -/
theorem listInsert (h : ListsRep m hdr xs) {i : ι} {before elem : ν}
    (hb : before ∈ xs i ++ [(hdr i).tail]) (he : ∀ k, elem ∉ nodes hdr xs k) :
    ∃ m', Ptr.listInsert m before elem = some m' ∧
      ListsRep m' hdr (Function.update xs i (insertBefore before [elem] (xs i))) := by
  obtain ⟨C, bp, D, hN⟩ := h.exists_pred hb
  have hbp : (m before).prev = some bp := (h.adj_of_split hN).2
  have hne : before ≠ elem := fun hbe => he i (hbe ▸ mem_nodes_of_mem hb)
  have hfree : ∀ k, ∀ a ∈ [elem], a ∉ nodes hdr xs k := by
    intro k a ha
    rw [List.mem_singleton.mp ha]
    exact he k
  exact ⟨_, Ptr.listInsert_eq hbp hne,
    h.linkRun hb hbp rfl rfl (linked_singleton elem) (List.nodup_singleton elem) hfree⟩

/-- `list_push_front` of an element on no list. -/
theorem listPushFront (h : ListsRep m hdr xs) (i : ι) {elem : ν}
    (he : ∀ k, elem ∉ nodes hdr xs k) :
    ∃ m', Ptr.listPushFront m (hdr i) elem = some m' ∧
      ListsRep m' hdr (Function.update xs i (elem :: xs i)) := by
  obtain ⟨x, hx⟩ : ∃ x, (xs i ++ [(hdr i).tail]).head? = some x :=
    Option.isSome_iff_exists.mp (by simp)
  obtain ⟨m', hins, hrep⟩ := h.listInsert (List.mem_of_mem_head? hx) he
  rw [insertBefore_of_head? hx] at hrep
  refine ⟨m', ?_, hrep⟩
  simp [Ptr.listPushFront, Ptr.listBegin, h.head_next hx, hins]

/-- `list_push_back` of an element on no list. -/
theorem listPushBack (h : ListsRep m hdr xs) (i : ι) {elem : ν}
    (he : ∀ k, elem ∉ nodes hdr xs k) :
    ∃ m', Ptr.listPushBack m (hdr i) elem = some m' ∧
      ListsRep m' hdr (Function.update xs i (xs i ++ [elem])) := by
  obtain ⟨m', hins, hrep⟩ := h.listInsert (List.mem_append_right _ (List.mem_singleton_self _)) he
  rw [insertBefore_of_not_mem (h.tail_not_mem i)] at hrep
  exact ⟨m', hins, hrep⟩

/-- `list_remove` of an element of list `i`: it goes from `i`'s sequence, and the element after
it, or the tail, is returned. -/
theorem listRemove (h : ListsRep m hdr xs) {i : ι} {A B : List ν} {elem : ν}
    (hxs : xs i = A ++ elem :: B) :
    ∃ m', Ptr.listRemove m elem = some (m', (B ++ [(hdr i).tail]).head?) ∧
      ListsRep m' hdr (Function.update xs i (A ++ B)) := by
  obtain ⟨fp, hfp⟩ : ∃ fp, ((hdr i).head :: A).getLast? = some fp :=
    Option.isSome_iff_exists.mp (by simp)
  obtain ⟨ln, hln⟩ : ∃ ln, (B ++ [(hdr i).tail]).head? = some ln :=
    Option.isSome_iff_exists.mp (by simp)
  have hxs' : xs i = A ++ [elem] ++ B := by simp [hxs]
  obtain ⟨A', B', -, -, hN, -⟩ := nodes_eq_run hxs' hfp hln
  have hprev : (m elem).prev = some fp := (h.adj_of_split (C := A') (D := ln :: B') hN).2
  have hnext : (m elem).next = some ln :=
    (h.adj_of_split (C := A' ++ [fp]) (D := B') (by rw [hN]; simp)).1
  refine ⟨_, ?_, (h.unlinkRun hxs' hfp hln).1⟩
  rw [Ptr.listRemove_eq hprev hnext, hln]

/-- `list_pop_front` of a nonempty list. -/
theorem listPopFront (h : ListsRep m hdr xs) {i : ι} {x : ν} {rest : List ν}
    (hxs : xs i = x :: rest) :
    ∃ m', Ptr.listPopFront m (hdr i) = some (m', x) ∧
      ListsRep m' hdr (Function.update xs i rest) := by
  have hx : (xs i ++ [(hdr i).tail]).head? = some x := by simp [hxs]
  have hxt : x ≠ (hdr i).tail := by
    intro he
    have hnd := h.nodup i
    rw [nodes, hxs] at hnd
    simp [he] at hnd
  obtain ⟨m', hrem, hrep⟩ := h.listRemove (A := []) hxs
  refine ⟨m', ?_, by simpa using hrep⟩
  simp [Ptr.listPopFront, Ptr.listFront_eq (h.head_next hx) hxt, hrem]

/-- `list_pop_back` of a nonempty list. -/
theorem listPopBack (h : ListsRep m hdr xs) {i : ι} {x : ν} {rest : List ν}
    (hxs : xs i = rest ++ [x]) :
    ∃ m', Ptr.listPopBack m (hdr i) = some (m', x) ∧
      ListsRep m' hdr (Function.update xs i rest) := by
  obtain ⟨y, hy⟩ : ∃ y, (xs i ++ [(hdr i).tail]).head? = some y :=
    Option.isSome_iff_exists.mp (by simp)
  have hyt : y ≠ (hdr i).tail := by
    have hy' : (xs i).head? = some y := by
      rwa [List.head?_append_of_ne_nil _ (by simp [hxs])] at hy
    exact ne_of_mem_of_not_mem (List.mem_of_mem_head? hy') (h.tail_not_mem i)
  have hback : (m (hdr i).tail).prev = some x := by
    have hN : nodes hdr xs i = ((hdr i).head :: rest) ++ x :: (hdr i).tail :: [] := by
      rw [nodes, hxs]
      simp
    exact (h.adj_of_split hN).2
  have hne : (m (hdr i).head).next ≠ some (hdr i).tail := by
    rw [h.head_next hy]
    exact fun he => hyt (Option.some.inj he)
  obtain ⟨m', hrem, hrep⟩ := h.listRemove hxs
  refine ⟨m', ?_, by simpa using hrep⟩
  simp [Ptr.listPopBack, Ptr.listBack_eq hne hback, hrem]

omit [DecidableEq ι] in
/-- `list_pop_front` and `list_pop_back` of an empty list stop at their `ASSERT`. -/
theorem listPop_empty (h : ListsRep m hdr xs) {i : ι} (hxs : xs i = []) :
    Ptr.listPopFront m (hdr i) = none ∧ Ptr.listPopBack m (hdr i) = none := by
  have hx : (m (hdr i).head).next = some (hdr i).tail := h.head_next (by simp [hxs])
  simp [Ptr.listPopFront, Ptr.listPopBack, Ptr.listFront_eq_none hx, Ptr.listBack_eq_none hx]

omit [DecidableEq ν] in
/-- An element of a list has a predecessor and a successor: `is_interior` holds of it. -/
lemma isInterior_of_mem (h : ListsRep m hdr xs) {i : ι} {x : ν} (hx : x ∈ xs i) :
    Ptr.isInterior m x = true := by
  obtain ⟨s₁, t₁, hst⟩ := List.append_of_mem hx
  obtain ⟨p, hp⟩ : ∃ p, ((hdr i).head :: s₁).getLast? = some p :=
    Option.isSome_iff_exists.mp (by simp)
  obtain ⟨n, hn⟩ : ∃ n, (t₁ ++ [(hdr i).tail]).head? = some n :=
    Option.isSome_iff_exists.mp (by simp)
  have hxs : xs i = s₁ ++ [x] ++ t₁ := by simp [hst]
  obtain ⟨A', B', -, -, hN, -⟩ := nodes_eq_run hxs hp hn
  exact Ptr.isInterior_of m (h.adj_of_split (C := A') hN).2
    (h.adj_of_split (C := A' ++ [p]) (a := x) (b := n) (D := B') (by rw [hN]; simp)).1

/-- `list_splice (before, first, last)`: the run `R` of list `j`, from `first` up to `last`,
leaves `j` and goes in just before `before`, an element or the tail of list `i` outside the
run; `i` and `j` may be one list. -/
theorem listSplice (h : ListsRep m hdr xs) {i j : ι} {A R B : List ν} {before first last : ν}
    (hxs : xs j = A ++ R ++ B) (hfirst : (R ++ B ++ [(hdr j).tail]).head? = some first)
    (hlast : (B ++ [(hdr j).tail]).head? = some last)
    (hb : before ∈ xs i ++ [(hdr i).tail]) (hbR : before ∉ R) :
    ∃ m', Ptr.listSplice m before first last = some m' ∧
      ListsRep m' hdr (Function.update (Function.update xs j (A ++ B)) i
        (insertBefore before R (Function.update xs j (A ++ B) i))) := by
  obtain ⟨C, bp, D, hN⟩ := h.exists_pred hb
  have hbprev : (m before).prev.isSome := by
    rw [(h.adj_of_split hN).2]
    rfl
  rcases List.eq_nil_or_concat R with rfl | ⟨R₀, last₀, rfl⟩
  · -- an empty run: `first` is `last`, and nothing moves
    obtain rfl : first = last := by
      rw [List.nil_append] at hfirst
      exact Option.some.inj (hfirst.symm.trans hlast)
    have hys : Function.update xs j (A ++ B) = xs := by
      rw [← show xs j = A ++ B by simpa using hxs]
      exact Function.update_eq_self j xs
    refine ⟨m, Ptr.listSplice_self hbprev, ?_⟩
    rw [hys, insertBefore_nil_run, Function.update_eq_self]
    exact h
  · -- the run `first` .. `last₀` leaves `j` between `fp` and `last`, then goes in before `before`
    simp only [List.concat_eq_append] at hxs hfirst hbR ⊢
    have hRne : R₀ ++ [last₀] ≠ [] := by simp
    have hfirstR : (R₀ ++ [last₀]).head? = some first := by
      rwa [List.append_assoc, List.head?_append_of_ne_nil _ hRne] at hfirst
    obtain ⟨fp, hfp⟩ : ∃ fp, ((hdr j).head :: A).getLast? = some fp :=
      Option.isSome_iff_exists.mp (by simp)
    obtain ⟨A', B', -, -, hNj, -⟩ := nodes_eq_run hxs hfp hlast
    obtain ⟨R₁, hR₁⟩ := List.head?_eq_some_iff.mp hfirstR
    have hprev_first : (m first).prev = some fp :=
      (h.adj_of_split (C := A') (D := R₁ ++ last :: B') (by rw [hNj, hR₁]; simp)).2
    have hl₀ : Adj m last₀ last :=
      h.adj_of_split (C := A' ++ fp :: R₀) (D := B') (by rw [hNj]; simp)
    have hnd := h.nodup j
    rw [hNj] at hnd
    have hfR : first ∈ R₀ ++ [last₀] := List.mem_of_mem_head? hfirstR
    have hlast_notR : last ∉ R₀ ++ [last₀] := by
      intro hl
      have hnd' : (R₀ ++ [last₀] ++ last :: B').Nodup := (List.nodup_cons.mp
        (List.nodup_append.mp hnd).2.1).2
      exact (List.nodup_append.mp hnd').2.2 last hl last List.mem_cons_self rfl
    have hxj : ∀ x ∈ R₀ ++ [last₀], x ∈ xs j := fun x hx => by
      rw [hxs]
      simp only [List.mem_append] at hx ⊢
      tauto
    -- the run taken out
    obtain ⟨hys, hRlinked, hRnd, hRfree⟩ := h.unlinkRun hxs hfp hlast
    have hb' : before ∈ Function.update xs j (A ++ B) i ++ [(hdr i).tail] := by
      by_cases hij : i = j
      · subst hij
        rw [Function.update_self]
        rw [hxs] at hb
        simp only [List.mem_append] at hb hbR ⊢
        tauto
      · rwa [Function.update_of_ne hij]
    obtain ⟨C', bp', D', hN'⟩ := hys.exists_pred hb'
    have hbp' := (hys.adj_of_split hN').2
    have hsplice := Ptr.listSplice_eq hbprev (ne_of_mem_of_not_mem hfR hlast_notR) hl₀.2
      (h.isInterior_of_mem (hxj first hfR)) (h.isInterior_of_mem (hxj last₀ (by simp)))
      hprev_first hl₀.1 hbp' (fun he => hbR (he ▸ hfR))
    exact ⟨_, hsplice, hys.linkRun hb' hbp' hfirstR (by simp) hRlinked hRnd hRfree⟩

end ListsRep

/-- `list_init` makes an empty well-formed list. -/
lemma listsRep_listInit [DecidableEq ν] (m : ν → Link ν) {L : ListHdr ν} (hL : L.head ≠ L.tail) :
    ListsRep (Ptr.listInit m L) (fun _ : Unit => L) (fun _ => []) where
  head_prev _ := by simp [Ptr.listInit, hL]
  tail_next _ := by simp [Ptr.listInit]
  linked _ := by simp [nodes, Ptr.listInit, linked_cons_cons, Adj, hL]
  nodup _ := by simp [nodes, hL]
  disjoint _ _ _ _ _ := rfl

theorem intrusive_lists_refine_sequences [DecidableEq ι] [DecidableEq ν] {m : ν → Link ν}
    {hdr : ι → ListHdr ν} {xs : ι → List ν} (h : ListsRep m hdr xs) :
    (∀ i before elem, before ∈ xs i ++ [(hdr i).tail] → (∀ k, elem ∉ nodes hdr xs k) →
      ∃ m', Ptr.listInsert m before elem = some m' ∧
        ListsRep m' hdr (Function.update xs i (insertBefore before [elem] (xs i)))) ∧
    (∀ i elem, (∀ k, elem ∉ nodes hdr xs k) →
      ∃ m', Ptr.listPushFront m (hdr i) elem = some m' ∧
        ListsRep m' hdr (Function.update xs i (elem :: xs i))) ∧
    (∀ i elem, (∀ k, elem ∉ nodes hdr xs k) →
      ∃ m', Ptr.listPushBack m (hdr i) elem = some m' ∧
        ListsRep m' hdr (Function.update xs i (xs i ++ [elem]))) ∧
    (∀ i A elem B, xs i = A ++ elem :: B →
      ∃ m', Ptr.listRemove m elem = some (m', (B ++ [(hdr i).tail]).head?) ∧
        ListsRep m' hdr (Function.update xs i (A ++ B))) ∧
    (∀ i x rest, xs i = x :: rest →
      ∃ m', Ptr.listPopFront m (hdr i) = some (m', x) ∧
        ListsRep m' hdr (Function.update xs i rest)) ∧
    (∀ i rest x, xs i = rest ++ [x] →
      ∃ m', Ptr.listPopBack m (hdr i) = some (m', x) ∧
        ListsRep m' hdr (Function.update xs i rest)) ∧
    (∀ i j A R B before first last, xs j = A ++ R ++ B →
      (R ++ B ++ [(hdr j).tail]).head? = some first → (B ++ [(hdr j).tail]).head? = some last →
      before ∈ xs i ++ [(hdr i).tail] → before ∉ R →
      ∃ m', Ptr.listSplice m before first last = some m' ∧
        ListsRep m' hdr (Function.update (Function.update xs j (A ++ B)) i
          (insertBefore before R (Function.update xs j (A ++ B) i)))) :=
  ⟨fun _ _ _ hb he => h.listInsert hb he, fun i _ he => h.listPushFront i he,
    fun i _ he => h.listPushBack i he, fun _ _ _ _ hxs => h.listRemove hxs,
    fun _ _ _ hxs => h.listPopFront hxs, fun _ _ _ hxs => h.listPopBack hxs,
    fun _ _ _ _ _ _ _ _ hxs hf hl hb hbR => h.listSplice hxs hf hl hb hbR⟩

/-- From `list_init` on sentinels `0` and `1`: `list_push_back` of `2` and of `3`, then
`list_splice` of the run from `2` up to `3` before the tail, which leaves the list `3, 2`, then
`list_remove` of `3`, which returns `2`. Each step completes and leaves a well-formed list. -/
theorem intrusive_lists_refine_sequences_push_splice_remove :
    ∃ m₁ m₂ m₃ m₄ : ℕ → Link ℕ,
      Ptr.listPushBack (Ptr.listInit (fun _ => ⟨none, none⟩) ⟨0, 1⟩) ⟨0, 1⟩ 2 = some m₁ ∧
      Ptr.listPushBack m₁ ⟨0, 1⟩ 3 = some m₂ ∧
      Ptr.listSplice m₂ 1 2 3 = some m₃ ∧
      ListsRep m₃ (fun _ : Unit => (⟨0, 1⟩ : ListHdr ℕ)) (fun _ => [3, 2]) ∧
      Ptr.listRemove m₃ 3 = some (m₄, some 2) ∧
      ListsRep m₄ (fun _ : Unit => (⟨0, 1⟩ : ListHdr ℕ)) (fun _ => [2]) := by
  have h₀ := listsRep_listInit (fun _ => (⟨none, none⟩ : Link ℕ)) (L := ⟨0, 1⟩) (by decide)
  -- each step's sequences, on the one list
  have hxs₁ : Function.update (fun _ : Unit => ([] : List ℕ)) () ([] ++ [2]) = fun _ => [2] := by
    funext u
    simp
  have hxs₂ : Function.update (fun _ : Unit => [2]) () ([2] ++ [3]) = fun _ => [2, 3] := by
    funext u
    simp
  have hxs₃ : Function.update (Function.update (fun _ : Unit => [2, 3]) () ([] ++ [3])) ()
      (insertBefore 1 [2] (Function.update (fun _ : Unit => [2, 3]) () ([] ++ [3]) ())) =
      fun _ => [3, 2] := by
    funext u
    simp [insertBefore]
  have hxs₄ : Function.update (fun _ : Unit => [3, 2]) () ([] ++ [2]) = fun _ => [2] := by
    funext u
    simp
  obtain ⟨m₁, hm₁, h₁⟩ := (intrusive_lists_refine_sequences h₀).2.2.1 () 2 (by simp [nodes])
  rw [hxs₁] at h₁
  obtain ⟨m₂, hm₂, h₂⟩ := (intrusive_lists_refine_sequences h₁).2.2.1 () 3 (by simp [nodes])
  rw [hxs₂] at h₂
  obtain ⟨m₃, hm₃, h₃⟩ := (intrusive_lists_refine_sequences h₂).2.2.2.2.2.2 () () [] [2] [3] 1 2 3
    rfl rfl rfl (by simp) (by simp)
  rw [hxs₃] at h₃
  obtain ⟨m₄, hm₄, h₄⟩ := (intrusive_lists_refine_sequences h₃).2.2.2.1 () [] 3 [2] rfl
  rw [hxs₄] at h₄
  exact ⟨m₁, m₂, m₃, m₄, hm₁, hm₂, hm₃, h₃, hm₄, h₄⟩

/-- Pushing an element that is already on the list breaks the list: after `list_push_back`
of `2` onto an empty list, a second `list_push_back` of `2` makes `2` its own successor, so
following `next` from the head never reaches the tail. -/
theorem list_push_back_twice_breaks_list :
    ∃ m₁ m₂ : ℕ → Link ℕ,
      Ptr.listPushBack (Ptr.listInit (fun _ => ⟨none, none⟩) ⟨0, 1⟩) ⟨0, 1⟩ 2 = some m₁ ∧
      ListsRep m₁ (fun _ : Unit => (⟨0, 1⟩ : ListHdr ℕ)) (fun _ => [2]) ∧
      Ptr.listPushBack m₁ ⟨0, 1⟩ 2 = some m₂ ∧
      ∀ xs : Unit → List ℕ, ¬ListsRep m₂ (fun _ : Unit => (⟨0, 1⟩ : ListHdr ℕ)) xs := by
  have hrep₀ := listsRep_listInit (fun _ => (⟨none, none⟩ : Link ℕ)) (L := ⟨0, 1⟩) (by decide)
  have hpush₁ : Ptr.listPushBack (Ptr.listInit (fun _ => ⟨none, none⟩) ⟨0, 1⟩) ⟨0, 1⟩ 2 = some (DLink.linkRun (Ptr.listInit (fun _ => ⟨none, none⟩) ⟨0, 1⟩) 0 1 2 2) :=
    Ptr.listInsert_eq (by decide) (by decide)
  have hfresh : ∀ k, (2 : ℕ) ∉ nodes (fun _ : Unit => (⟨0, 1⟩ : ListHdr ℕ)) (fun _ => []) k := by
    simp [nodes]
  obtain ⟨m₁, hpush₁', hrep₁⟩ := hrep₀.listPushBack () hfresh
  obtain rfl := Option.some.inj (hpush₁.symm.trans hpush₁')
  have hpush₂ : Ptr.listPushBack (DLink.linkRun (Ptr.listInit (fun _ => ⟨none, none⟩) ⟨0, 1⟩) 0 1 2 2) ⟨0, 1⟩ 2 =
      some (DLink.linkRun (DLink.linkRun (Ptr.listInit (fun _ => ⟨none, none⟩) ⟨0, 1⟩) 0 1 2 2) 2 1 2 2) :=
    Ptr.listInsert_eq (by decide) (by decide)
  refine ⟨_, _, hpush₁, ?_, hpush₂, fun xs hrep => ?_⟩
  · convert hrep₁ using 1
    funext u
    simp
  · -- the head's `next` is `2`, and `2`'s `next` is `2` again
    have hl := hrep.linked ()
    have hnd := hrep.nodup ()
    have h0 : (DLink.linkRun (DLink.linkRun (Ptr.listInit (fun _ => ⟨none, none⟩) ⟨0, 1⟩) 0 1 2 2) 2 1 2 2 0).next = some 2 := by decide
    have h2 : (DLink.linkRun (DLink.linkRun (Ptr.listInit (fun _ => ⟨none, none⟩) ⟨0, 1⟩) 0 1 2 2) 2 1 2 2 2).next = some 2 := by decide
    simp only [nodes] at hl hnd
    rcases hx : xs () with _ | ⟨x, _ | ⟨y, rest⟩⟩ <;> rw [hx] at hl hnd
    · have := (linked_cons_cons.mp hl).1.1
      rw [h0] at this
      exact absurd (Option.some.inj this) (by decide)
    · obtain ⟨⟨hx0, -⟩, hl'⟩ := linked_cons_cons.mp hl
      obtain rfl : x = 2 := Option.some.inj (hx0.symm.trans h0)
      have := (linked_cons_cons.mp hl').1.1
      rw [h2] at this
      exact absurd (Option.some.inj this) (by decide)
    · obtain ⟨⟨hx0, -⟩, hl'⟩ := linked_cons_cons.mp hl
      obtain rfl : x = 2 := Option.some.inj (hx0.symm.trans h0)
      obtain ⟨⟨hy, -⟩, -⟩ := linked_cons_cons.mp hl'
      obtain rfl : y = 2 := Option.some.inj (hy.symm.trans h2)
      simp at hnd

end TinyOs
