import TinyOs.Kernel.ListSort
import Mathlib.Data.List.TakeWhile

/-!
The functions of `list.c` that walk a list under an order `less`: `list_insert_ordered`, which
inserts an element before the first element it is less than, and `list_max` and `list_min`,
which return the first greatest and the first least element. On a list that `ListsRep` relates
to a sequence, each walk is a walk over the sequence.

* `insertPosLoop_eq`: the loop of `list_insert_ordered` stops at the first element `elem` is
  less than, or at the tail;
* `list_insert_ordered_sorts`: on a sorted list, `list_insert_ordered` puts `elem` after every
  element it is not less than and before the others, and the list stays sorted and well formed;
* `maxLoop_eq`: the loop of `list_max` keeps the first greatest element of the part walked;
* `list_max_min_first`: `list_max` returns the tail of an empty list, and otherwise an element
  that every earlier element is less than and that is less than no later one; `list_min` the
  same with the order turned around.
-/

namespace TinyOs

open DLink Runs

variable {ν : Type} [DecidableEq ν]

namespace Ptr

variable (less : ν → ν → Bool) (m : ν → Link ν)

/-- The loop of `list_insert_ordered`: `e` steps on from the first element while it is not the
tail and `elem` is not less than it. -/
def insertPosLoop (L : ListHdr ν) (elem : ν) : ℕ → ν → Option ν
  | 0, _ => none
  | fuel + 1, e =>
    if e = listEnd L then some e
    else if less elem e then some e
    else (listNext m e).bind (insertPosLoop L elem fuel)

/-- `list_insert_ordered (list, elem, less)`, its loop given `fuel`: `list_insert` before the
cell the loop stops at. -/
def listInsertOrdered (L : ListHdr ν) (elem : ν) (fuel : ℕ) : Option (ν → Link ν) := do
  let e ← listBegin m L
  let e ← insertPosLoop less m L elem fuel e
  listInsert m e elem

/-- The loop of `list_max` from `e`, with `max` the greatest so far: `max = e` when
`less (max, e)`. -/
def maxLoop (L : ListHdr ν) : ℕ → ν → ν → Option ν
  | 0, _, _ => none
  | fuel + 1, e, max =>
    if e = listEnd L then some max
    else (listNext m e).bind fun e' => maxLoop L fuel e' (if less max e then e else max)

/-- `list_max (list, less)`, its loop given `fuel`: the tail of an empty list. -/
def listMax (L : ListHdr ν) (fuel : ℕ) : Option ν := do
  let max ← listBegin m L
  if max ≠ listEnd L then do
    let e ← listNext m max
    maxLoop less m L fuel e max
  else some max

/-- The loop of `list_min` from `e`, with `min` the least so far: `min = e` when
`less (e, min)`. -/
def minLoop (L : ListHdr ν) : ℕ → ν → ν → Option ν
  | 0, _, _ => none
  | fuel + 1, e, min =>
    if e = listEnd L then some min
    else (listNext m e).bind fun e' => minLoop L fuel e' (if less e min then e else min)

/-- `list_min (list, less)`, its loop given `fuel`: the tail of an empty list. -/
def listMin (L : ListHdr ν) (fuel : ℕ) : Option ν := do
  let min ← listBegin m L
  if min ≠ listEnd L then do
    let e ← listNext m min
    minLoop less m L fuel e min
  else some min

/-- `list_min` is `list_max` with the order turned around: the one difference of their bodies
is the order of the arguments of `less`. -/
lemma minLoop_eq_maxLoop (L : ListHdr ν) :
    ∀ fuel e min, minLoop less m L fuel e min = maxLoop (fun a b => less b a) m L fuel e min
  | 0, _, _ => rfl
  | fuel + 1, e, min => by
    simp only [minLoop, maxLoop, minLoop_eq_maxLoop L fuel]

lemma listMin_eq_listMax (L : ListHdr ν) (fuel : ℕ) :
    listMin less m L fuel = listMax (fun a b => less b a) m L fuel := by
  simp only [listMin, listMax, minLoop_eq_maxLoop]

end Ptr

/-! ### Sorted lists -/

section Sorted

variable {less : ν → ν → Bool} (hso : IsStrictWeakOrder ν fun a b => less a b = true)
include hso

omit [DecidableEq ν] in
/-- In a sorted list the elements `elem` is not less than come first: once `elem` is less than
an element it is less than every later one. -/
lemma takeWhile_dropWhile_of_sorted (elem : ν) :
    ∀ {l : List ν}, l.IsChain (fun a b => InOrder less a b) →
      l.takeWhile (fun x => !less elem x) = l.filter (fun x => !less elem x) ∧
        l.dropWhile (fun x => !less elem x) = l.filter (fun x => less elem x)
  | [], _ => ⟨rfl, rfl⟩
  | x :: l, hl => by
    have ih := takeWhile_dropWhile_of_sorted (l := l) elem hl.tail
    cases hx : less elem x
    · simp [hx, ih.1, ih.2]
    · -- every later element is in order after `x`, so `elem` is less than it too
      have hall : ∀ y ∈ l, less elem y = true := fun y hy =>
        less_of_less_of_inOrder hso hx (List.rel_of_pairwise_cons (pairwise_of_isChain hso hl) hy)
      have hfilter : l.filter (fun x => !less elem x) = [] :=
        List.filter_eq_nil_iff.mpr fun y hy => by simp [hall y hy]
      have hfilter' : l.filter (fun x => less elem x) = l := List.filter_eq_self.mpr hall
      simp [hx, hfilter, hfilter']

omit [DecidableEq ν] in
/-- Putting `elem` between the elements it is not less than and the others keeps a sorted list
sorted. -/
lemma isChain_insert_of_sorted (elem : ν) {l : List ν}
    (hl : l.IsChain (fun a b => InOrder less a b)) :
    (l.takeWhile (fun x => !less elem x) ++ elem :: l.dropWhile (fun x => !less elem x)).IsChain
      (fun a b => InOrder less a b) := by
  have hsplit := List.takeWhile_append_dropWhile (p := fun x => !less elem x) (l := l)
  rw [← hsplit] at hl
  obtain ⟨hT, hD, -⟩ := List.isChain_append.mp hl
  refine List.isChain_append.mpr ⟨hT, List.isChain_cons.mpr ⟨?_, hD⟩, ?_⟩
  · -- `elem` is less than the first element after it, which is then not less than `elem`
    intro d hd
    obtain ⟨D, hD⟩ : ∃ D, l.dropWhile (fun x => !less elem x) = d :: D := by
      cases hdw : l.dropWhile (fun x => !less elem x) with
      | nil => simp [hdw] at hd
      | cons d' D =>
        obtain rfl : d' = d := by simpa [hdw] using hd
        exact ⟨D, rfl⟩
    have hless : less elem d = true := by
      have hnot := List.head_dropWhile_not (fun x => !less elem x) (l := l) (by simp [hD])
      simpa [hD] using hnot
    have hnot : less d elem = false := by
      by_contra hde
      exact hso.irrefl elem (hso.trans elem d elem hless (by simpa using hde))
    simp [InOrder, hnot]
  · intro t ht y hy
    have hye : elem = y := by simpa using hy
    have hmem : t ∈ l.takeWhile (fun x => !less elem x) := List.mem_of_getLast? ht
    rw [← hye]
    simpa [InOrder] using List.mem_takeWhile_imp hmem

end Sorted

/-! ### The walks -/

section Refine

variable {ι : Type} {hdr : ι → ListHdr ν} (less : ν → ν → Bool) {m : ν → Link ν}
  {xs : ι → List ν}

/-- The loop of `list_insert_ordered` over the stretch `S` of list `i` that is left: it passes
the elements `elem` is not less than and stops at the first other one, or at the tail. The
recursion is on `S`. -/
lemma insertPosLoop_eq (h : ListsRep m hdr xs) {i : ι} (elem : ν) :
    ∀ (fuel : ℕ) {P S : List ν} {e : ν}, xs i = P ++ S → (S ++ [(hdr i).tail]).head? = some e →
      S.length < fuel →
      ∃ y, Ptr.insertPosLoop less m (hdr i) elem fuel e = some y ∧
        (S.dropWhile (fun x => !less elem x) ++ [(hdr i).tail]).head? = some y
  | 0, _, _, _, _, _, hfuel => absurd hfuel (Nat.not_lt_zero _)
  | fuel + 1, P, [], e, _, he, _ => by
    obtain rfl : (hdr i).tail = e := by simpa using he
    exact ⟨(hdr i).tail, by simp [Ptr.insertPosLoop, Ptr.listEnd], by simp⟩
  | fuel + 1, P, x :: S, e, hxs, he, hfuel => by
    obtain rfl : x = e := by simpa using he
    have hxT : x ≠ (hdr i).tail := h.ne_of_mem_of_mem_after (P := P) (R := [x]) (S := S)
      (by simpa using hxs) List.mem_cons_self (by simp)
    by_cases hless : less elem x = true
    · exact ⟨x, by simp [Ptr.insertPosLoop, Ptr.listEnd, hxT, hless], by simp [hless]⟩
    · -- `elem` is not less than `x`: the loop goes on to the cell after `x`
      obtain ⟨e', he'⟩ : ∃ e', (S ++ [(hdr i).tail]).head? = some e' := by
        cases S <;> simp
      have hnext := (h.listNext_listPrev (P := P) (R := S) hxs he').1
      obtain ⟨y, hy, hyd⟩ := insertPosLoop_eq h elem fuel (P := P ++ [x]) (S := S)
        (by simpa using hxs) he' (by simpa using hfuel)
      refine ⟨y, ?_, by simpa [List.dropWhile_cons, hless] using hyd⟩
      simp [Ptr.insertPosLoop, Ptr.listEnd, hxT, hless, hnext, hy]

/-- Where the loop stops, `list_insert` puts `elem` after the elements it is not less than. -/
lemma insertBefore_dropWhile (h : ListsRep m hdr xs) {i : ι} (elem : ν) {y : ν}
    (hy : ((xs i).dropWhile (fun x => !less elem x) ++ [(hdr i).tail]).head? = some y) :
    insertBefore y [elem] (xs i) =
      (xs i).takeWhile (fun x => !less elem x) ++ elem :: (xs i).dropWhile (fun x => !less elem x) := by
  have hsplit := List.takeWhile_append_dropWhile (p := fun x => !less elem x) (l := xs i)
  cases hD : (xs i).dropWhile (fun x => !less elem x) with
  | nil =>
    -- the loop reached the tail, which is on no list's sequence
    obtain rfl : (hdr i).tail = y := by simpa [hD] using hy
    rw [hD, List.append_nil] at hsplit
    rw [insertBefore_of_not_mem (h.tail_not_mem i)]
    nth_rewrite 1 [← hsplit]
    simp
  | cons d D =>
    obtain rfl : d = y := by simpa [hD] using hy
    rw [hD] at hsplit
    have hnd := h.nodup_xs i
    rw [← hsplit] at hnd
    have hd : d ∉ (xs i).takeWhile (fun x => !less elem x) := fun hd =>
      (List.nodup_append.mp hnd).2.2 d hd d List.mem_cons_self rfl
    calc insertBefore d [elem] (xs i)
        = insertBefore d [elem] ((xs i).takeWhile (fun x => !less elem x) ++ d :: D) := by
          rw [hsplit]
      _ = (xs i).takeWhile (fun x => !less elem x) ++ [elem] ++ d :: D :=
          insertBefore_append_cons hd
      _ = _ := by simp

/-- **`list_insert_ordered` inserts in order.** On a well-formed list `i` sorted by a strict weak
order `less`, with enough fuel, `list_insert_ordered` of an element on no list succeeds; the list
then holds the elements `elem` is not less than, in their order, then `elem`, then the others,
and it is still sorted. Every list stays well formed, and the others are unchanged. -/
theorem list_insert_ordered_sorts [DecidableEq ι] (h : ListsRep m hdr xs)
    (hso : IsStrictWeakOrder ν fun a b => less a b = true) {i : ι} {elem : ν}
    (he : ∀ k, elem ∉ nodes hdr xs k) (hsorted : (xs i).IsChain (fun a b => less b a = false))
    {fuel : ℕ} (hfuel : (xs i).length < fuel) :
    ∃ m', Ptr.listInsertOrdered less m (hdr i) elem fuel = some m' ∧
      ListsRep m' hdr (Function.update xs i
        ((xs i).filter (fun x => !less elem x) ++ elem :: (xs i).filter (fun x => less elem x))) ∧
      ((xs i).filter (fun x => !less elem x) ++ elem :: (xs i).filter (fun x => less elem x)).IsChain
        (fun a b => less b a = false) := by
  have hchain : (xs i).IsChain (fun a b => InOrder less a b) := hsorted.imp fun a b hab => by
    simp [InOrder, hab]
  obtain ⟨e0, he0⟩ : ∃ e0, (xs i ++ [(hdr i).tail]).head? = some e0 := by
    cases xs i <;> simp
  obtain ⟨y, hloop, hy⟩ := insertPosLoop_eq less h elem fuel (P := []) (S := xs i) rfl he0 hfuel
  have hyMem : y ∈ xs i ++ [(hdr i).tail] := by
    have := List.mem_of_mem_head? hy
    simp only [List.mem_append, List.mem_singleton] at this ⊢
    exact this.imp_left fun hx => (List.dropWhile_sublist _).subset hx
  obtain ⟨m', hins, h'⟩ := h.listInsert hyMem he
  obtain ⟨htake, hdrop⟩ := takeWhile_dropWhile_of_sorted hso elem hchain
  rw [insertBefore_dropWhile less h elem hy, htake, hdrop] at h'
  refine ⟨m', ?_, h', ?_⟩
  · simp [Ptr.listInsertOrdered, Ptr.listBegin, h.head_next he0, hloop, hins]
  · have hins' := isChain_insert_of_sorted hso elem hchain
    rw [htake, hdrop] at hins'
    exact hins'.imp fun a b hab => by simpa [InOrder] using hab

/-- Cell `4`, of key `2`, inserted into the list of cells `2` and `3`, both of key `1`: it goes
after both. -/
theorem list_insert_ordered_sorts_pair :
    ∃ m', Ptr.listInsertOrdered (fun a b => decide (a / 2 < b / 2)) pairHeap ⟨0, 1⟩ 4 3 = some m' ∧
      ListsRep m' (fun _ : Unit => ⟨0, 1⟩) (Function.update (fun _ => [2, 3]) ()
        (([2, 3] : List ℕ).filter (fun x => !decide (4 / 2 < x / 2)) ++
          4 :: ([2, 3] : List ℕ).filter (fun x => decide (4 / 2 < x / 2)))) ∧
      (([2, 3] : List ℕ).filter (fun x => !decide (4 / 2 < x / 2)) ++
          4 :: ([2, 3] : List ℕ).filter (fun x => decide (4 / 2 < x / 2))).IsChain
        (fun a b => decide (b / 2 < a / 2) = false) :=
  list_insert_ordered_sorts _ pairHeap_rep halfLess_isStrictWeakOrder (i := ())
    (fun k => by cases k; decide) (by decide) (by decide)

/-- The loop of `list_max` over the stretch `S` of list `i` that is left, with `max` the greatest
of the part `P` walked: every element of `P` before `max` is less than it, and it is less than
none after it. A new element replaces `max` only when `max` is less than it, so `max` stays the
first of the greatest. The recursion is on `S`. -/
lemma maxLoop_eq (h : ListsRep m hdr xs) (hso : IsStrictWeakOrder ν fun a b => less a b = true)
    {i : ι} :
    ∀ (fuel : ℕ) {P S Q R : List ν} {e max : ν}, xs i = P ++ S →
      (S ++ [(hdr i).tail]).head? = some e → S.length < fuel → P = Q ++ max :: R →
      (∀ x ∈ Q, less x max = true) → (∀ x ∈ R, less max x = false) →
      ∃ Q' max' R', Ptr.maxLoop less m (hdr i) fuel e max = some max' ∧
        xs i = Q' ++ max' :: R' ∧ (∀ x ∈ Q', less x max' = true) ∧ ∀ x ∈ R', less max' x = false
  | 0, _, _, _, _, _, _, _, _, hfuel, _, _, _ => absurd hfuel (Nat.not_lt_zero _)
  | fuel + 1, P, [], Q, R, e, max, hxs, he, _, hP, hQ, hR => by
    obtain rfl : (hdr i).tail = e := by simpa using he
    exact ⟨Q, max, R, by simp [Ptr.maxLoop, Ptr.listEnd], by simpa [hP] using hxs, hQ, hR⟩
  | fuel + 1, P, x :: S, Q, R, e, max, hxs, he, hfuel, hP, hQ, hR => by
    obtain rfl : x = e := by simpa using he
    have hxT : x ≠ (hdr i).tail := h.ne_of_mem_of_mem_after (P := P) (R := [x]) (S := S)
      (by simpa using hxs) List.mem_cons_self (by simp)
    obtain ⟨e', he'⟩ : ∃ e', (S ++ [(hdr i).tail]).head? = some e' := by
      cases S <;> simp
    have hnext := (h.listNext_listPrev (P := P) (R := S) hxs he').1
    have hxs' : xs i = (P ++ [x]) ++ S := by simpa using hxs
    by_cases hless : less max x = true
    · -- `x` is the new greatest: everything walked is less than it
      have hbefore : ∀ y ∈ P, less y x = true := by
        intro y hy
        rw [hP] at hy
        simp only [List.mem_append, List.mem_cons] at hy
        rcases hy with hy | rfl | hy
        · exact hso.trans y max x (hQ y hy) hless
        · exact hless
        · -- `y` is not greater than `max`, which is less than `x`
          by_contra hyx
          have hmy : less max y = true :=
            less_of_less_of_inOrder hso hless (by simpa [InOrder] using hyx)
          simp [hR y hy] at hmy
      obtain ⟨Q', max', R', hrun, hsplit, hQ', hR'⟩ :=
        maxLoop_eq h hso fuel (P := P ++ [x]) (Q := P) (R := []) hxs' he' (by simpa using hfuel)
          rfl hbefore (by simp)
      exact ⟨Q', max', R', by simp [Ptr.maxLoop, Ptr.listEnd, hxT, hnext, hless, hrun],
        hsplit, hQ', hR'⟩
    · -- `max` stays: it is not less than `x`
      have hx : less max x = false := by simpa using hless
      obtain ⟨Q', max', R', hrun, hsplit, hQ', hR'⟩ :=
        maxLoop_eq h hso fuel (P := P ++ [x]) (Q := Q) (R := R ++ [x]) hxs' he'
          (by simpa using hfuel) (by simp [hP]) hQ fun y hy => by
            rcases List.mem_append.mp hy with hy | hy
            · exact hR y hy
            · rw [List.mem_singleton.mp hy]
              exact hx
      exact ⟨Q', max', R', by simp [Ptr.maxLoop, Ptr.listEnd, hxT, hnext, hx, hrun],
        hsplit, hQ', hR'⟩

/-- `list_max` of list `i`: the tail when the list is empty, and otherwise, by `maxLoop_eq` from
its first element, an element every earlier one is less than and that is less than no later
one. -/
lemma listMax_eq (h : ListsRep m hdr xs) (hso : IsStrictWeakOrder ν fun a b => less a b = true)
    (i : ι) {fuel : ℕ} (hfuel : (xs i).length < fuel) :
    (xs i = [] ∧ Ptr.listMax less m (hdr i) fuel = some (hdr i).tail) ∨
      ∃ P max S, Ptr.listMax less m (hdr i) fuel = some max ∧ xs i = P ++ max :: S ∧
        (∀ x ∈ P, less x max = true) ∧ ∀ x ∈ S, less max x = false := by
  cases hxs : xs i with
  | nil =>
    have hbegin : Ptr.listBegin m (hdr i) = some (hdr i).tail := h.head_next (by simp [hxs])
    exact .inl ⟨rfl, by simp [Ptr.listMax, hbegin, Ptr.listEnd]⟩
  | cons x rest =>
    right
    have hbegin : Ptr.listBegin m (hdr i) = some x := h.head_next (by simp [hxs])
    have hxT : x ≠ (hdr i).tail := h.ne_of_mem_of_mem_after (P := []) (R := [x]) (S := rest)
      (by simpa using hxs) List.mem_cons_self (by simp)
    obtain ⟨e, he⟩ : ∃ e, (rest ++ [(hdr i).tail]).head? = some e := by
      cases rest <;> simp
    have hnext := (h.listNext_listPrev (P := []) (R := rest) hxs he).1
    -- the walk starts after `x`, with `x` the greatest so far
    obtain ⟨P, max, S, hrun, hsplit, hP, hS⟩ := maxLoop_eq less h hso fuel (P := [x]) (S := rest)
      (Q := []) (R := []) (by simpa using hxs) he (by rw [hxs] at hfuel; simp at hfuel; omega) rfl (by simp)
      (by simp)
    exact ⟨P, max, S, by simp [Ptr.listMax, hbegin, Ptr.listEnd, hxT, hnext, hrun],
      hxs ▸ hsplit, hP, hS⟩

/-- **`list_max` and `list_min` return the first greatest and least elements.** For a strict weak
order `less` and enough fuel, on an empty list both return its tail; otherwise `list_max`
returns an element that every element before it is less than and that is less than no element
after it, the first of the greatest, and `list_min` one that is less than every element before
it and that no element after it is less than, the first of the least. -/
theorem list_max_min_first (h : ListsRep m hdr xs)
    (hso : IsStrictWeakOrder ν fun a b => less a b = true) (i : ι) {fuel : ℕ}
    (hfuel : (xs i).length < fuel) :
    (xs i = [] ∧ Ptr.listMax less m (hdr i) fuel = some (hdr i).tail ∧
        Ptr.listMin less m (hdr i) fuel = some (hdr i).tail) ∨
      ((∃ P max S, Ptr.listMax less m (hdr i) fuel = some max ∧ xs i = P ++ max :: S ∧
          (∀ x ∈ P, less x max = true) ∧ ∀ x ∈ S, less max x = false) ∧
        ∃ P min S, Ptr.listMin less m (hdr i) fuel = some min ∧ xs i = P ++ min :: S ∧
          (∀ x ∈ P, less min x = true) ∧ ∀ x ∈ S, less x min = false) := by
  -- `list_min` is `list_max` of the order turned around, itself a strict weak order
  have hso' : IsStrictWeakOrder ν fun a b => less b a = true := by
    have := hso
    exact inferInstanceAs (IsStrictWeakOrder ν (Function.swap fun a b => less a b = true))
  rw [Ptr.listMin_eq_listMax]
  rcases listMax_eq less h hso i hfuel with ⟨hnil, hmax⟩ | hmax
  · rcases listMax_eq (fun a b => less b a) h hso' i hfuel with ⟨-, hmin⟩ | ⟨P, _, _, -, hsplit, -, -⟩
    · exact .inl ⟨hnil, hmax, hmin⟩
    · simp [hnil] at hsplit
  · rcases listMax_eq (fun a b => less b a) h hso' i hfuel with ⟨hnil, -⟩ | hmin
    · obtain ⟨P, _, _, -, hsplit, -, -⟩ := hmax
      simp [hnil] at hsplit
    · exact .inr ⟨hmax, hmin⟩


/-- The list of cells `2` and `3`, equivalent under the order of half their address: the first
is both the greatest and the least. -/
theorem list_max_min_first_pair :
    (([2, 3] : List ℕ) = [] ∧
        Ptr.listMax (fun a b => decide (a / 2 < b / 2)) pairHeap ⟨0, 1⟩ 3 = some 1 ∧
        Ptr.listMin (fun a b => decide (a / 2 < b / 2)) pairHeap ⟨0, 1⟩ 3 = some 1) ∨
      ((∃ P max S, Ptr.listMax (fun a b => decide (a / 2 < b / 2)) pairHeap ⟨0, 1⟩ 3 = some max ∧
          ([2, 3] : List ℕ) = P ++ max :: S ∧ (∀ x ∈ P, decide (x / 2 < max / 2) = true) ∧
          ∀ x ∈ S, decide (max / 2 < x / 2) = false) ∧
        ∃ P min S, Ptr.listMin (fun a b => decide (a / 2 < b / 2)) pairHeap ⟨0, 1⟩ 3 = some min ∧
          ([2, 3] : List ℕ) = P ++ min :: S ∧ (∀ x ∈ P, decide (min / 2 < x / 2) = true) ∧
          ∀ x ∈ S, decide (x / 2 < min / 2) = false) :=
  list_max_min_first _ pairHeap_rep halfLess_isStrictWeakOrder () (by decide)

end Refine

end TinyOs
