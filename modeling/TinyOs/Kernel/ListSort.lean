import TinyOs.Kernel.ListOps

/-!
`list_sort` of `list.c`, a natural merge sort in place: each pass merges the maximal
nondecreasing runs of the list two by two, splicing single cells, until a pass outputs one run.

* `isSortedLoop_eq`, `runEndLoop_eq`: `is_sorted` and `find_end_of_run` walk a run;
* `mergeLoop_eq`: the loop of `inplace_merge` leaves the stable merge `List.merge` of its two
  runs, the left one first on ties;
* `sortPassLoop_eq`: a pass leaves `Runs.mergePass` of the list and counts its output runs;
* `sortPasses_eq`: each pass that outputs more than one run leaves fewer runs than it found, so
  the passes end, on a sorted permutation that keeps each equivalence class in order;
* `list_sort_sorts`: `list_sort` terminates with the list sorted, permuted and stable.
-/

namespace TinyOs

open DLink Runs

variable {ν : Type} [DecidableEq ν]

namespace Ptr

variable (less : ν → ν → Bool)

section Walk

variable (m : ν → Link ν)

/-- The loop of `is_sorted`: `a` steps on until it is `b`, and a step down answers `false`. -/
def isSortedLoop (b : ν) : ℕ → ν → Option Bool
  | 0, _ => none
  | fuel + 1, a => do
    let a ← listNext m a
    if a = b then pure true
    else do
      let p ← listPrev m a
      if less a p then pure false else isSortedLoop b fuel a

/-- `is_sorted (a, b, less)`. -/
def isSorted (a b : ν) (fuel : ℕ) : Option Bool :=
  if a ≠ b then isSortedLoop less m b fuel a else some true

/-- The `do ... while` of `find_end_of_run`: `a` steps on while it is not `b` and is not less
than the element before it. -/
def runEndLoop (b : ν) : ℕ → ν → Option ν
  | 0, _ => none
  | fuel + 1, a => do
    let a ← listNext m a
    if a = b then pure a
    else do
      let p ← listPrev m a
      if !less a p then runEndLoop b fuel a else pure a

/-- `find_end_of_run (a, b, less)`, whose `ASSERT` wants a non-empty range. -/
def findEndOfRun (a b : ν) (fuel : ℕ) : Option ν :=
  if a = b then none else runEndLoop less m b fuel a

end Walk

/-- The loop of `inplace_merge`: while neither run is used up, `a0` steps past an element of
the first run that the head `a1b0` of the second is not less than; otherwise `a1b0` steps on and
the cell it leaves is spliced in just before `a0`. -/
def mergeLoop (b1 : ν) : ℕ → (ν → Link ν) → ν → ν → Option (ν → Link ν)
  | 0, _, _, _ => none
  | fuel + 1, m, a0, a1b0 =>
    if a0 ≠ a1b0 ∧ a1b0 ≠ b1 then
      if !less a1b0 a0 then do
        let a0 ← listNext m a0
        mergeLoop b1 fuel m a0 a1b0
      else do
        let a1b0 ← listNext m a1b0
        let p ← listPrev m a1b0
        let m ← listSplice m a0 p a1b0
        mergeLoop b1 fuel m a0 a1b0
    else some m

/-- `inplace_merge (a0, a1b0, b1, less)`, whose `ASSERT`s want both runs sorted. -/
def inplaceMerge (m : ν → Link ν) (a0 a1b0 b1 : ν) (fuel : ℕ) : Option (ν → Link ν) :=
  if isSorted less m a0 a1b0 fuel = some true ∧ isSorted less m a1b0 b1 fuel = some true then
    mergeLoop less b1 fuel m a0 a1b0
  else none

/-- The `for` loop of a pass of `list_sort` from `a0`, with `cnt` runs output so far: `k` bounds
its iterations and `fuel` each loop inside. It ends with the heap and `output_run_cnt`. -/
def sortPassLoop (L : ListHdr ν) (fuel : ℕ) :
    ℕ → (ν → Link ν) → ν → ℕ → Option ((ν → Link ν) × ℕ)
  | 0, _, _, _ => none
  | k + 1, m, a0, cnt =>
    if a0 = listEnd L then some (m, cnt)
    else do
      let a1b0 ← findEndOfRun less m a0 (listEnd L) fuel
      if a1b0 = listEnd L then some (m, cnt + 1)
      else do
        let b1 ← findEndOfRun less m a1b0 (listEnd L) fuel
        let m ← inplaceMerge less m a0 a1b0 b1 fuel
        sortPassLoop L fuel k m b1 (cnt + 1)

/-- The `do ... while (output_run_cnt > 1)` of `list_sort`, at most `k` passes. -/
def sortPasses (L : ListHdr ν) (fuel : ℕ) : ℕ → (ν → Link ν) → Option (ν → Link ν)
  | 0, _ => none
  | k + 1, m => do
    let a0 ← listBegin m L
    let r ← sortPassLoop less L fuel fuel m a0 0
    if r.2 > 1 then sortPasses L fuel k r.1 else some r.1

end Ptr

/-- `list_sort (list, less)`, each loop given `fuel`, with its closing `ASSERT` that the list is
sorted. -/
def Ptr.listSort (m : ν → Link ν) (L : ListHdr ν) (less : ν → ν → Bool) (fuel : ℕ) :
    Option (ν → Link ν) := do
  let m ← sortPasses less L fuel fuel m
  let a ← listBegin m L
  if isSorted less m a (listEnd L) fuel = some true then some m else none

/-! ### The walks of `is_sorted` and `find_end_of_run` -/

omit [DecidableEq ν] in
/-- A list ending in `t` whose first cell is not `t` begins with its own first element. -/
lemma head?_of_head?_append_ne {S : List ν} {t y : ν} (hy : (S ++ [t]).head? = some y)
    (hyt : y ≠ t) : S.head? = some y := by
  cases S with
  | nil => exact absurd (Option.some.inj hy).symm hyt
  | cons s S => simpa using hy

section Refine

variable {ι : Type} {hdr : ι → ListHdr ν} (less : ν → ν → Bool)

section Walk

variable {m : ν → Link ν} {xs : ι → List ν}

/-- `is_sorted`'s loop walks a sorted stretch `a :: r` of list `i` to the cell `b` after it and
answers `true`. The recursion is on `r`. -/
lemma isSortedLoop_eq (h : ListsRep m hdr xs) {i : ι} {S : List ν} {b : ν}
    (hb : (S ++ [(hdr i).tail]).head? = some b) :
    ∀ (fuel : ℕ) {r P : List ν} {a : ν}, xs i = P ++ a :: r ++ S →
      (a :: r).IsChain (fun x y => InOrder less x y) → r.length < fuel →
      Ptr.isSortedLoop less m b fuel a = some true
  | 0, _, _, _, _, _, hfuel => absurd hfuel (Nat.not_lt_zero _)
  | fuel + 1, [], P, a, hxs, _, _ => by
    have hnext := (h.listNext_listPrev (R := S) (by simpa using hxs) hb).1
    simp [Ptr.isSortedLoop, hnext]
  | fuel + 1, x :: r, P, a, hxs, hr, hfuel => by
    obtain ⟨hnext, hprev⟩ := h.listNext_listPrev (P := P) (R := x :: r ++ S) (y := x)
      (by simpa using hxs) (by simp)
    have hxb : x ≠ b := h.ne_of_mem_of_mem_after (P := P ++ [a]) (R := x :: r)
      (by simpa using hxs) List.mem_cons_self (List.mem_of_mem_head? hb)
    have hxa : less x a = false := by simpa [InOrder] using (List.isChain_cons_cons.mp hr).1
    have ih := isSortedLoop_eq h hb fuel (P := P ++ [a]) (by simpa using hxs)
      (List.isChain_cons_cons.mp hr).2 (by simpa using hfuel)
    simp [Ptr.isSortedLoop, hnext, hxb, hprev, hxa, ih]

/-- `find_end_of_run`'s loop walks the run `a :: r` of list `i` to the cell `y` after it, where
the list ends or steps down. The recursion is on `r`. -/
lemma runEndLoop_eq (h : ListsRep m hdr xs) {i : ι} {S : List ν} {y : ν}
    (hy : (S ++ [(hdr i).tail]).head? = some y) :
    ∀ (fuel : ℕ) {r P : List ν} {a : ν}, xs i = P ++ a :: r ++ S →
      (a :: r).IsChain (fun x y => InOrder less x y) →
      (∀ w ∈ (a :: r).getLast?, ∀ z ∈ S.head?, InOrder less w z = false) → r.length < fuel →
      Ptr.runEndLoop less m (hdr i).tail fuel a = some y
  | 0, _, _, _, _, _, _, hfuel => absurd hfuel (Nat.not_lt_zero _)
  | fuel + 1, [], P, a, hxs, _, hstop, _ => by
    obtain ⟨hnext, hprev⟩ := h.listNext_listPrev (R := S) (by simpa using hxs) hy
    by_cases hyT : y = (hdr i).tail
    · simp [Ptr.runEndLoop, hnext, hyT]
    · -- `y` is the first element of `S`, and the run steps down to it
      have hdown : less y a = true := by
        simpa [InOrder] using hstop a (by simp) y (head?_of_head?_append_ne hy hyT)
      simp [Ptr.runEndLoop, hnext, hyT, hprev, hdown]
  | fuel + 1, x :: r, P, a, hxs, hr, hstop, hfuel => by
    obtain ⟨hnext, hprev⟩ := h.listNext_listPrev (P := P) (R := x :: r ++ S) (y := x)
      (by simpa using hxs) (by simp)
    have hxT : x ≠ (hdr i).tail := h.ne_of_mem_of_mem_after (P := P ++ [a]) (R := x :: r)
      (by simpa using hxs) List.mem_cons_self (by simp)
    have hxa : less x a = false := by simpa [InOrder] using (List.isChain_cons_cons.mp hr).1
    have ih := runEndLoop_eq h hy fuel (P := P ++ [a]) (by simpa using hxs)
      (List.isChain_cons_cons.mp hr).2 (by simpa using hstop) (by simpa using hfuel)
    simp [Ptr.runEndLoop, hnext, hxT, hprev, hxa, ih]

end Walk

/-! ### `inplace_merge` -/

variable [DecidableEq ι]

/-- The loop of `inplace_merge` over adjacent stretches `A` and `B` of list `i`, with `a0` the
first cell of `A ++ B ++ S` and `a1b0` of `B ++ S`, leaves their merge `List.merge` in their
place: `a0` passes an element of `A` that is in order before the first of `B`, and otherwise
that one is spliced in before `a0`. The recursion is on `A` and `B`, as `List.merge`'s. -/
lemma mergeLoop_eq {i : ι} {S : List ν} {b1 : ν} (hb1 : (S ++ [(hdr i).tail]).head? = some b1) :
    ∀ (A B : List ν) (fuel : ℕ) {m : ν → Link ν} {xs : ι → List ν} {P : List ν} {a0 a1b0 : ν},
      ListsRep m hdr xs → xs i = P ++ A ++ B ++ S →
      (A ++ B ++ S ++ [(hdr i).tail]).head? = some a0 →
      (B ++ S ++ [(hdr i).tail]).head? = some a1b0 → A.length + B.length < fuel →
      ∃ m', Ptr.mergeLoop less b1 fuel m a0 a1b0 = some m' ∧
        ListsRep m' hdr (Function.update xs i (P ++ A.merge B (InOrder less) ++ S))
  | _, _, 0, _, _, _, _, _, _, _, _, _, hfuel => absurd hfuel (Nat.not_lt_zero _)
  | [], B, fuel + 1, m, xs, P, a0, a1b0, h, hxs, ha0, ha1b0, _ => by
    -- the first run is used up: `a0` is `a1b0`
    obtain rfl : a0 = a1b0 := Option.some.inj (ha0.symm.trans (by simpa using ha1b0))
    refine ⟨m, by simp [Ptr.mergeLoop], ?_⟩
    rw [List.nil_merge, show P ++ B ++ S = xs i by simp [hxs], Function.update_eq_self]
    exact h
  | a :: A, [], fuel + 1, m, xs, P, a0, a1b0, h, hxs, _, ha1b0, _ => by
    -- the second run is used up: `a1b0` is `b1`
    obtain rfl : a1b0 = b1 := Option.some.inj (ha1b0.symm.trans (by simpa using hb1))
    refine ⟨m, by simp [Ptr.mergeLoop], ?_⟩
    rw [List.merge_right, show P ++ a :: A ++ S = xs i by simp [hxs], Function.update_eq_self]
    exact h
  | a :: A, b :: B, fuel + 1, m, xs, P, a0, a1b0, h, hxs, ha0, ha1b0, hfuel => by
    obtain rfl : a0 = a := by simpa using ha0.symm
    obtain rfl : a1b0 = b := by simpa using ha1b0.symm
    have hab : a0 ≠ a1b0 := h.ne_of_mem_of_mem_after (i := i) (P := P) (R := [a0])
      (S := A ++ a1b0 :: B ++ S) (by simp [hxs]) List.mem_cons_self (by simp)
    have hbb1 : a1b0 ≠ b1 := h.ne_of_mem_of_mem_after (i := i)
      (P := P ++ a0 :: A) (R := a1b0 :: B) (S := S)
      (by simp [hxs]) List.mem_cons_self (List.mem_of_mem_head? hb1)
    by_cases hord : InOrder less a0 a1b0 = true
    · -- `a0` is in order before `a1b0`: it stays, and `a0` steps on
      obtain ⟨a0', ha0'⟩ : ∃ a0', (A ++ a1b0 :: B ++ S ++ [(hdr i).tail]).head? = some a0' :=
        Option.isSome_iff_exists.mp (by simp)
      have hnext := (h.listNext_listPrev (i := i) (P := P) (x := a0) (R := A ++ a1b0 :: B ++ S)
        (by simp [hxs]) (by simpa using ha0')).1
      obtain ⟨m', hloop, h'⟩ := mergeLoop_eq hb1 A (a1b0 :: B) fuel h (P := P ++ [a0])
        (by simp [hxs]) (by simpa using ha0') ha1b0 (by simp at hfuel ⊢; omega)
      refine ⟨m', ?_, ?_⟩
      · have hle : (!less a1b0 a0) = true := hord
        simp [Ptr.mergeLoop, hab, hbb1, hle, hnext, hloop]
      · rw [List.cons_merge_cons, if_pos hord]
        simpa using h'
    · -- `a1b0` is less than `a0`: it steps on, and its old cell is spliced in before `a0`
      obtain ⟨c, hc⟩ : ∃ c, (B ++ S ++ [(hdr i).tail]).head? = some c :=
        Option.isSome_iff_exists.mp (by simp)
      obtain ⟨hnext, hprev⟩ := h.listNext_listPrev (i := i) (P := P ++ a0 :: A) (x := a1b0)
        (R := B ++ S) (by simp [hxs]) (by simpa using hc)
      have hxs₁ : xs i = (P ++ a0 :: A) ++ [a1b0] ++ (B ++ S) := by simp [hxs]
      have haP : a0 ∉ P := by
        have hnd := h.nodup_xs i
        rw [show xs i = P ++ a0 :: (A ++ a1b0 :: B ++ S) by simp [hxs]] at hnd
        exact fun ha => (List.nodup_append.mp hnd).2.2 a0 ha a0 List.mem_cons_self rfl
      obtain ⟨m₁, hsplice, h₁⟩ := h.listSplice (i := i) hxs₁
        (show ([a1b0] ++ (B ++ S) ++ [(hdr i).tail]).head? = some a1b0 by simp)
        (show (B ++ S ++ [(hdr i).tail]).head? = some c by simpa using hc)
        (show a0 ∈ xs i ++ [(hdr i).tail] by simp [hxs]) (by simpa using hab)
      rw [Function.update_self, Function.update_idem, List.append_assoc P, List.cons_append,
        insertBefore_append_cons haP] at h₁
      obtain ⟨m', hloop, h'⟩ := mergeLoop_eq hb1 (a0 :: A) B fuel h₁ (P := P ++ [a1b0]) (by simp)
        (show (a0 :: A ++ B ++ S ++ [(hdr i).tail]).head? = some a0 by simp) hc
        (by simp at hfuel ⊢; omega)
      refine ⟨m', ?_, ?_⟩
      · have hle : (!less a1b0 a0) = false := Bool.of_not_eq_true hord
        simp [Ptr.mergeLoop, hab, hbb1, hle, hnext, hprev, hsplice, hloop]
      · rw [List.cons_merge_cons, if_neg hord]
        rw [Function.update_idem] at h'
        simpa using h'

/-- `inplace_merge` of two adjacent runs `A` and `B` of list `i`, each non-empty and sorted:
both `ASSERT`s hold, and the loop leaves their merge. -/
lemma inplaceMerge_eq {m : ν → Link ν} {xs : ι → List ν} (h : ListsRep m hdr xs) {i : ι}
    {P A B S : List ν} {a0 a1b0 b1 : ν} {fuel : ℕ} (hxs : xs i = P ++ A ++ B ++ S)
    (ha0 : A.head? = some a0) (ha1b0 : B.head? = some a1b0)
    (hb1 : (S ++ [(hdr i).tail]).head? = some b1) (hA : A.IsChain fun x y => InOrder less x y)
    (hB : B.IsChain fun x y => InOrder less x y) (hfuel : A.length + B.length < fuel) :
    ∃ m', Ptr.inplaceMerge less m a0 a1b0 b1 fuel = some m' ∧
      ListsRep m' hdr (Function.update xs i (P ++ A.merge B (InOrder less) ++ S)) := by
  obtain ⟨A, rfl⟩ := List.head?_eq_some_iff.mp ha0
  obtain ⟨B, rfl⟩ := List.head?_eq_some_iff.mp ha1b0
  have hab : a0 ≠ a1b0 := h.ne_of_mem_of_mem_after (i := i) (P := P) (R := a0 :: A)
    (S := a1b0 :: B ++ S) (by simp [hxs]) List.mem_cons_self (by simp)
  have hbb1 : a1b0 ≠ b1 := h.ne_of_mem_of_mem_after (i := i) (P := P ++ a0 :: A)
    (R := a1b0 :: B) (S := S) (by simp [hxs]) List.mem_cons_self (List.mem_of_mem_head? hb1)
  -- the two `ASSERT`s: each run is walked to the cell after it
  have hsA := isSortedLoop_eq less h (i := i) (S := a1b0 :: B ++ S) (b := a1b0) (by simp) fuel
    (P := P) (a := a0) (r := A) (by simp [hxs]) hA (by simp at hfuel; omega)
  have hsB := isSortedLoop_eq less h (i := i) (S := S) hb1 fuel (P := P ++ a0 :: A) (a := a1b0)
    (r := B) (by simp [hxs]) hB (by simp at hfuel; omega)
  obtain ⟨m', hloop, h'⟩ := mergeLoop_eq less hb1 (a0 :: A) (a1b0 :: B) fuel h (P := P)
    (by simp [hxs]) (show (a0 :: A ++ a1b0 :: B ++ S ++ [(hdr i).tail]).head? = some a0 by simp)
    (show (a1b0 :: B ++ S ++ [(hdr i).tail]).head? = some a1b0 by simp) hfuel
  exact ⟨m', by simp [Ptr.inplaceMerge, Ptr.isSorted, hab, hbb1, hsA, hsB, hloop], h'⟩

/-! ### The passes -/

/-- A pass of `list_sort` from `a0`, the first cell of the runs `rs` that follow `D` in list
`i`, merges the runs two by two and counts one output run for each merge and one for a last run
without a partner. The recursion is on the runs, as `mergePairs`'s. -/
lemma sortPassLoop_eq {i : ι} (fuel : ℕ) :
    ∀ (rs : List (List ν)) (k cnt : ℕ) {m : ν → Link ν} {xs : ι → List ν} {D : List ν} {a0 : ν},
      ListsRep m hdr xs → xs i = D ++ rs.flatten → rs.flatten.splitBy (InOrder less) = rs →
      (rs.flatten ++ [(hdr i).tail]).head? = some a0 → rs.length < k →
      rs.flatten.length < fuel →
      ∃ m', Ptr.sortPassLoop less (hdr i) fuel k m a0 cnt =
          some (m', cnt + (mergePairs less rs).length) ∧
        ListsRep m' hdr (Function.update xs i (D ++ (mergePairs less rs).flatten))
  | _, 0, _, _, _, _, _, _, _, _, _, hk, _ => absurd hk (Nat.not_lt_zero _)
  | [], k + 1, cnt, m, xs, D, a0, h, hxs, _, ha0, _, _ => by
    -- nothing left: `a0` is the tail
    obtain rfl : a0 = (hdr i).tail := by simpa using ha0.symm
    refine ⟨m, by simp [Ptr.sortPassLoop, Ptr.listEnd, mergePairs], ?_⟩
    rw [show D ++ (mergePairs less []).flatten = xs i by simp [hxs, mergePairs],
      Function.update_eq_self]
    exact h
  | [r], k + 1, cnt, m, xs, D, a0, h, hxs, hsplit, ha0, _, hfuel => by
    -- one run left: its end is the tail, and it is output as it is
    obtain ⟨r, rfl⟩ : ∃ r', r = a0 :: r' := List.head?_eq_some_iff.mp (by
      have hr : r ≠ [] := List.ne_nil_of_mem_splitBy (hsplit ▸ List.mem_singleton_self r)
      simpa [List.head?_append_of_ne_nil _ hr] using ha0)
    have haT : a0 ≠ (hdr i).tail := h.ne_of_mem_of_mem_after (i := i) (P := D) (R := a0 :: r)
      (S := []) (by simp [hxs]) List.mem_cons_self (by simp)
    have hend := runEndLoop_eq less h (i := i) (S := []) (y := (hdr i).tail) (by simp) fuel
      (P := D) (r := r) (a := a0) (by simp [hxs])
      (List.isChain_of_mem_splitBy (hsplit ▸ List.mem_singleton_self _)) (by simp)
      (by simp at hfuel; omega)
    refine ⟨m, by simp [Ptr.sortPassLoop, Ptr.listEnd, Ptr.findEndOfRun, haT, hend, mergePairs],
      ?_⟩
    rw [show D ++ (mergePairs less [a0 :: r]).flatten = xs i by simp [hxs, mergePairs],
      Function.update_eq_self]
    exact h
  | r₁ :: r₂ :: rs, k + 1, cnt, m, xs, D, a0, h, hxs, hsplit, ha0, hk, hfuel => by
    -- two runs: find where each ends, merge them, and go on after the second
    have hmem : ∀ g ∈ r₁ :: r₂ :: rs, g ∈ (r₁ :: r₂ :: rs).flatten.splitBy (InOrder less) := by
      rw [hsplit]
      exact fun _ hg => hg
    have hr₁ : r₁ ≠ [] := List.ne_nil_of_mem_splitBy (hmem r₁ (by simp))
    have hr₂ : r₂ ≠ [] := List.ne_nil_of_mem_splitBy (hmem r₂ (by simp))
    have hsplit₂ := splitBy_flatten_tail hsplit
    have hsplit₃ := splitBy_flatten_tail hsplit₂
    obtain ⟨r₁, rfl⟩ : ∃ r', r₁ = a0 :: r' := List.head?_eq_some_iff.mp (by
      simpa [List.head?_append_of_ne_nil _ hr₁] using ha0)
    obtain ⟨b, r₂, rfl⟩ := List.exists_cons_of_ne_nil hr₂
    obtain ⟨b1, hb1⟩ : ∃ b1, (rs.flatten ++ [(hdr i).tail]).head? = some b1 :=
      Option.isSome_iff_exists.mp (by simp)
    have haT : a0 ≠ (hdr i).tail := h.ne_of_mem_of_mem_after (i := i) (P := D)
      (R := a0 :: r₁) (S := b :: r₂ ++ rs.flatten) (by simp [hxs]) List.mem_cons_self (by simp)
    have hbT : b ≠ (hdr i).tail := h.ne_of_mem_of_mem_after (i := i) (P := D ++ a0 :: r₁)
      (R := b :: r₂) (S := rs.flatten) (by simp [hxs]) List.mem_cons_self (by simp)
    have hlen : r₁.length + r₂.length + rs.flatten.length + 2 < fuel := by
      simp only [List.flatten_cons, List.length_append, List.length_cons] at hfuel
      omega
    have hend₁ := runEndLoop_eq less h (i := i) (S := b :: r₂ ++ rs.flatten) (y := b) (by simp)
      fuel (P := D) (r := r₁) (a := a0) (by simp [hxs])
      (List.isChain_of_mem_splitBy (hmem _ (by simp)))
      (by simpa using splitBy_boundary hsplit) (by omega)
    have hend₂ := runEndLoop_eq less h (i := i) (S := rs.flatten) hb1 fuel (P := D ++ a0 :: r₁)
      (r := r₂) (a := b) (by simp [hxs])
      (List.isChain_of_mem_splitBy (hmem _ (by simp)))
      (splitBy_boundary hsplit₂) (by omega)
    obtain ⟨m₁, hmerge, h₁⟩ := inplaceMerge_eq less h (i := i) (P := D) (A := a0 :: r₁)
      (B := b :: r₂) (S := rs.flatten) (by simp [hxs]) rfl rfl hb1
      (List.isChain_of_mem_splitBy (hmem _ (by simp)))
      (List.isChain_of_mem_splitBy (hmem _ (by simp)))
      (show (a0 :: r₁).length + (b :: r₂).length < fuel by simp; omega)
    obtain ⟨m', hpass, h'⟩ := sortPassLoop_eq fuel rs k (cnt + 1) h₁
      (D := D ++ (a0 :: r₁).merge (b :: r₂) (InOrder less)) (by simp) hsplit₃ hb1
      (by simp at hk; omega) (by omega)
    refine ⟨m', ?_, ?_⟩
    · have hcnt : cnt + 1 + (mergePairs less rs).length =
          cnt + (mergePairs less ((a0 :: r₁) :: (b :: r₂) :: rs)).length := by
        simp [mergePairs]
        omega
      simp [Ptr.sortPassLoop, Ptr.listEnd, Ptr.findEndOfRun, haT, hbT, hend₁, hend₂, hmerge,
        hpass, hcnt]
    · rw [Function.update_idem] at h'
      simpa [mergePairs] using h'

variable {less}

/-- The passes of `list_sort` over list `i`, while it has fewer than `K` runs, end: each pass
that outputs more than one run leaves fewer runs than it found. The last pass leaves the list
sorted, and every pass a permutation that keeps each equivalence class in order. The induction
is on `K`. -/
lemma sortPasses_eq (hso : IsStrictWeakOrder ν fun a b => less a b = true) {i : ι} (fuel : ℕ) :
    ∀ (K : ℕ) {m : ν → Link ν} {xs : ι → List ν}, ListsRep m hdr xs →
      ((xs i).splitBy (InOrder less)).length < K → (xs i).length < fuel →
      ∃ m' ys, Ptr.sortPasses less (hdr i) fuel K m = some m' ∧
        ListsRep m' hdr (Function.update xs i ys) ∧ ys.Perm (xs i) ∧
        ys.Pairwise (fun a b => InOrder less a b) ∧
        ∀ x, ys.filter (Equiv less x) = (xs i).filter (Equiv less x)
  | 0, _, _, _, hK, _ => absurd hK (Nat.not_lt_zero _)
  | K + 1, m, xs, h, hK, hfuel => by
    obtain ⟨a0, ha0⟩ : ∃ a0, (xs i ++ [(hdr i).tail]).head? = some a0 :=
      Option.isSome_iff_exists.mp (by simp)
    have hbegin : Ptr.listBegin m (hdr i) = some a0 := h.head_next ha0
    have hruns := length_splitBy_le (r := InOrder less) (xs i)
    obtain ⟨m₁, hpass, h₁⟩ := sortPassLoop_eq less (i := i) fuel ((xs i).splitBy (InOrder less))
      fuel 0 h (D := []) (by simp) (by rw [List.flatten_splitBy])
      (by rwa [List.flatten_splitBy]) (by omega) (by rwa [List.flatten_splitBy])
    rw [List.nil_append] at h₁
    -- what one pass leaves: `mergePass` of the list
    change ListsRep m₁ hdr (Function.update xs i (mergePass less (xs i)).flatten) at h₁
    change Ptr.sortPassLoop less (hdr i) fuel fuel m a0 0 =
      some (m₁, 0 + (mergePass less (xs i)).length) at hpass
    have hperm : (mergePass less (xs i)).flatten.Perm (xs i) := flatten_mergePass_perm (xs i)
    have hstable := filter_equiv_mergePass hso (xs i)
    by_cases hmore : (mergePass less (xs i)).length > 1
    · -- another pass, over fewer runs
      have hfewer : ((mergePass less (xs i)).flatten.splitBy (InOrder less)).length < K := by
        have hle := length_splitBy_mergePass_le hso (xs i)
        have hhalf : (mergePass less (xs i)).length =
            (((xs i).splitBy (InOrder less)).length + 1) / 2 := length_mergePairs less _
        omega
      obtain ⟨m', ys, hrun, h', hperm', hsorted, hstable'⟩ := sortPasses_eq hso (i := i) fuel K h₁
        (by simpa using hfewer) (by simpa [hperm.length_eq] using hfuel)
      simp only [Function.update_self, Function.update_idem] at h' hperm' hstable'
      refine ⟨m', ys, ?_, h', hperm'.trans hperm, hsorted, fun x => (hstable' x).trans
        (hstable x)⟩
      simp [Ptr.sortPasses, hbegin, hpass, hmore, hrun]
    · -- the last pass: at most one run is left
      refine ⟨m₁, _, ?_, h₁, hperm, pairwise_flatten_mergePass hso (by omega), hstable⟩
      simp [Ptr.sortPasses, hbegin, hpass, hmore]

end Refine

section ListSort

variable {ι : Type} [DecidableEq ι] {hdr : ι → ListHdr ν}

/-- **`list_sort` is a stable sort**: for a strict weak order `less` and enough fuel, `list_sort`
of list `i` terminates and leaves in it a permutation of its elements in which no element is
less than the one before it and any two equivalent elements keep their order; every other list
is left as it was. -/
theorem list_sort_sorts {m : ν → Link ν} {xs : ι → List ν} (h : ListsRep m hdr xs)
    {less : ν → ν → Bool} (hso : IsStrictWeakOrder ν fun a b => less a b = true) (i : ι)
    {fuel : ℕ} (hfuel : (xs i).length < fuel) :
    ∃ m' ys, Ptr.listSort m (hdr i) less fuel = some m' ∧
      ListsRep m' hdr (Function.update xs i ys) ∧ ys.Perm (xs i) ∧
      ys.IsChain (fun a b => less b a = false) ∧
      ∀ a b, Equiv less a b = true → [a, b].Sublist (xs i) → [a, b].Sublist ys := by
  obtain ⟨m', ys, hrun, h', hperm, hsorted, hstable⟩ :=
    sortPasses_eq hso (i := i) fuel fuel h ((length_splitBy_le (xs i)).trans_lt hfuel) hfuel
  have hchain : ys.IsChain fun a b => InOrder less a b = true := hsorted.isChain
  -- the closing `ASSERT`: the list is walked from its first cell to the tail
  obtain ⟨a, hbegin, hassert⟩ : ∃ a, Ptr.listBegin m' (hdr i) = some a ∧
      Ptr.isSorted less m' a (hdr i).tail fuel = some true := by
    cases ys with
    | nil => exact ⟨(hdr i).tail, h'.head_next (by simp), by simp [Ptr.isSorted]⟩
    | cons y ys =>
      have hyT : y ≠ (hdr i).tail := h'.ne_of_mem_of_mem_after (i := i) (P := []) (R := [y])
        (S := ys) (by simp) List.mem_cons_self (by simp)
      have hlen : ys.length < fuel := by
        have := hperm.length_eq
        simp only [List.length_cons] at this
        omega
      have hloop := isSortedLoop_eq less h' (i := i) (S := []) (b := (hdr i).tail) (by simp) fuel
        (P := []) (a := y) (r := ys) (by simp) hchain hlen
      exact ⟨y, h'.head_next (by simp), by simp [Ptr.isSorted, hyT, hloop]⟩
  refine ⟨m', ys, by simp [Ptr.listSort, hrun, hbegin, Ptr.listEnd, hassert], h', hperm,
    hchain.imp fun a b hab => by simpa [InOrder] using hab, fun a b hab hsub => ?_⟩
  exact sublist_pair_of_filter_equiv hstable (equiv_refl hso a) hab hsub

theorem list_sort_sorts_pair :
    ∃ m' ys, Ptr.listSort pairHeap ⟨0, 1⟩ (fun a b => decide (a / 2 < b / 2)) 3 = some m' ∧
      ListsRep m' (fun _ : Unit => ⟨0, 1⟩) (Function.update (fun _ => [2, 3]) () ys) ∧
      ys.Perm [2, 3] ∧ ys.IsChain (fun a b => decide (b / 2 < a / 2) = false) ∧
      ∀ a b, Equiv (fun a b => decide (a / 2 < b / 2)) a b = true → [a, b].Sublist [2, 3] →
        [a, b].Sublist ys :=
  list_sort_sorts pairHeap_rep halfLess_isStrictWeakOrder () (by decide)

end ListSort

end TinyOs
