import TinyOs.Lib.DLink

/-!
The pointer level of `lib/kernel/list.c`. Every `struct list_elem` is a cell of a heap of
links, named by its address; a `struct list` is the addresses of its two sentinel cells, the
head and the tail. Each function is written statement by statement, reading the heap as it
stands at that statement. A failed `ASSERT` and a dereference of a null pointer are `none`.

`list_init`, `list_begin`, `list_next`, `list_end`, `list_prev`, `list_empty`, `list_front`,
`list_back` are the helpers the modifying functions need, and `swap` the one `list_reverse`
calls; `list_reverse`, `list_unique` and `list_sort` are in `Kernel/ListOps.lean` and
`Kernel/ListSort.lean`, and `list_size`, `list_max` and `list_min` are not modelled (the cursor
view of `list_next` is in `Kernel/List.lean`).

What the lists are for is sequences: `insertBefore b R l` puts the run `R` just before `b`, or
at the end of `l` when `b` is not in it, as `list_insert` does with a list's tail.
-/

namespace TinyOs

open DLink

/-- `struct list`: the addresses of its head and tail sentinels. -/
structure ListHdr (ν : Type) where
  head : ν
  tail : ν
  deriving DecidableEq, Repr

variable {ν : Type} [DecidableEq ν]

/-! ### The sequences -/

/-- The sequence with the run `R` just before the first `b`, or at its end when `b` is not in
it. -/
def insertBefore (b : ν) (R : List ν) : List ν → List ν
  | [] => R
  | x :: l => if x = b then R ++ x :: l else x :: insertBefore b R l

section InsertBefore

variable {b : ν} {R : List ν}

lemma insertBefore_append_cons {A B : List ν} (hb : b ∉ A) :
    insertBefore b R (A ++ b :: B) = A ++ R ++ b :: B := by
  induction A with
  | nil => simp [insertBefore]
  | cons x A ih =>
    have hx : x ≠ b := fun h => hb (h ▸ List.mem_cons_self)
    rw [List.cons_append, insertBefore, if_neg hx, ih (fun h => hb (List.mem_cons_of_mem x h))]
    rfl

lemma insertBefore_of_not_mem {l : List ν} (hb : b ∉ l) : insertBefore b R l = l ++ R := by
  induction l with
  | nil => rfl
  | cons x l ih =>
    have hx : x ≠ b := fun h => hb (h ▸ List.mem_cons_self)
    rw [insertBefore, if_neg hx, ih (fun h => hb (List.mem_cons_of_mem x h))]
    rfl

/-- Inserting before a cell of `l` or before the cell `t` after it. -/
lemma insertBefore_concat {l : List ν} {t : ν} (hb : b ∈ l ++ [t]) :
    insertBefore b R (l ++ [t]) = insertBefore b R l ++ [t] := by
  induction l with
  | nil =>
    obtain rfl : b = t := by simpa using hb
    simp [insertBefore]
  | cons x l ih =>
    rw [List.cons_append, insertBefore, insertBefore]
    by_cases hx : x = b
    · rw [if_pos hx, if_pos hx]
      simp
    · rw [if_neg hx, if_neg hx, ih]
      · rfl
      · rcases List.mem_cons.mp hb with h | h
        · exact absurd h.symm hx
        · exact h

/-- Inserting before the first cell of `l ++ [t]` puts the run in front. -/
lemma insertBefore_of_head? {l : List ν} {t x : ν} (hx : (l ++ [t]).head? = some x) :
    insertBefore x R l = R ++ l := by
  cases l with
  | nil =>
    obtain rfl : t = x := by simpa using hx
    simp [insertBefore]
  | cons y l =>
    obtain rfl : y = x := by simpa using hx
    simp [insertBefore]

@[simp] lemma insertBefore_nil_run (l : List ν) : insertBefore b [] l = l := by
  induction l with
  | nil => rfl
  | cons x l ih =>
    rw [insertBefore]
    split_ifs
    · rfl
    · rw [ih]

lemma insertBefore_perm (l : List ν) : (insertBefore b R l).Perm (R ++ l) := by
  induction l with
  | nil => simp [insertBefore]
  | cons x l ih =>
    rw [insertBefore]
    split_ifs
    · exact List.Perm.refl _
    · exact (ih.cons x).trans List.perm_middle.symm

end InsertBefore

/-! ### `list.c` -/

namespace Ptr

variable (m : ν → Link ν)

/-- `is_interior`. -/
def isInterior (e : ν) : Bool := (m e).prev.isSome && (m e).next.isSome

/-- `is_head`. -/
def isHead (e : ν) : Bool := (m e).prev.isNone && (m e).next.isSome

/-- `is_tail`. -/
def isTail (e : ν) : Bool := (m e).prev.isSome && (m e).next.isNone

/-- `list_init`. -/
def listInit (L : ListHdr ν) : ν → Link ν :=
  let m := setPrev m L.head none
  let m := setNext m L.head (some L.tail)
  let m := setPrev m L.tail (some L.head)
  setNext m L.tail none

/-- `list_begin`. -/
def listBegin (L : ListHdr ν) : Option ν := (m L.head).next

/-- `list_next`, whose `ASSERT` wants a head or an interior element. -/
def listNext (e : ν) : Option ν := if isHead m e || isInterior m e then (m e).next else none

/-- `list_end`. -/
def listEnd (L : ListHdr ν) : ν := L.tail

/-- `list_prev`, whose `ASSERT` wants an interior element or a tail. -/
def listPrev (e : ν) : Option ν := if isInterior m e || isTail m e then (m e).prev else none

/-- `list_empty`. -/
def listEmpty (L : ListHdr ν) : Bool := listBegin m L == some (listEnd L)

/-- `list_insert`. -/
def listInsert (before elem : ν) : Option (ν → Link ν) :=
  if isInterior m before || isTail m before then do
    let m := setPrev m elem (m before).prev
    let m := setNext m elem (some before)
    let p ← (m before).prev
    let m := setNext m p (some elem)
    pure (setPrev m before (some elem))
  else none

/-- `list_splice`: the run from `first` up to `last` moves to just before `before`. -/
def listSplice (before first last : ν) : Option (ν → Link ν) :=
  if isInterior m before || isTail m before then
    if first = last then some m
    else do
      let last ← listPrev m last
      if isInterior m first && isInterior m last then do
        -- cleanly remove `first` .. `last` from its current list
        let fp ← (m first).prev
        let m := setNext m fp (m last).next
        let ln ← (m last).next
        let m := setPrev m ln (m first).prev
        -- splice `first` .. `last` into the new list
        let m := setPrev m first (m before).prev
        let m := setNext m last (some before)
        let bp ← (m before).prev
        let m := setNext m bp (some first)
        pure (setPrev m before (some last))
      else none
  else none

/-- `list_push_front`. -/
def listPushFront (L : ListHdr ν) (elem : ν) : Option (ν → Link ν) := do
  let b ← listBegin m L
  listInsert m b elem

/-- `list_push_back`. -/
def listPushBack (L : ListHdr ν) (elem : ν) : Option (ν → Link ν) :=
  listInsert m (listEnd L) elem

/-- `list_remove`, with the element it returns (`none` for a null pointer). -/
def listRemove (elem : ν) : Option ((ν → Link ν) × Option ν) :=
  if isInterior m elem then do
    let p ← (m elem).prev
    let m := setNext m p (m elem).next
    let n ← (m elem).next
    let m := setPrev m n (m elem).prev
    pure (m, (m elem).next)
  else none

/-- `list_front`; a null front is `none`, which `list_remove` then rejects. -/
def listFront (L : ListHdr ν) : Option ν :=
  if listEmpty m L then none else (m L.head).next

/-- `list_back`; a null back is `none`, which `list_remove` then rejects. -/
def listBack (L : ListHdr ν) : Option ν :=
  if listEmpty m L then none else (m L.tail).prev

/-- `list_pop_front`. -/
def listPopFront (L : ListHdr ν) : Option ((ν → Link ν) × ν) := do
  let front ← listFront m L
  let (m, _) ← listRemove m front
  pure (m, front)

/-- `list_pop_back`. -/
def listPopBack (L : ListHdr ν) : Option ((ν → Link ν) × ν) := do
  let back ← listBack m L
  let (m, _) ← listRemove m back
  pure (m, back)

/-- The two `struct list_elem *` fields of a cell. -/
inductive Slot where
  | prev
  | next
  deriving DecidableEq, Repr

/-- The pointer in the field `f` of the cell `e`. -/
def readSlot (e : ν) : Slot → Option ν
  | .prev => (m e).prev
  | .next => (m e).next

/-- `v` stored in the field `f` of the cell `e`. -/
def writeSlot (e : ν) : Slot → Option ν → ν → Link ν
  | .prev, v => setPrev m e v
  | .next, v => setNext m e v

/-- `swap (a, b)`: the pointers in the fields `a` and `b` exchanged. -/
def swap (a b : ν × Slot) : ν → Link ν :=
  writeSlot (writeSlot m a.1 a.2 (readSlot m b.1 b.2)) b.1 b.2 (readSlot m a.1 a.2)

/-! Each function's effect once its reads are known: the writes it makes, as `linkRun` and
`unlinkRun` of the library name them. -/

omit [DecidableEq ν] in
/-- `is_interior (e) || is_tail (e)` asks only for a predecessor. -/
lemma isInterior_or_isTail (e : ν) : (isInterior m e || isTail m e) = (m e).prev.isSome := by
  cases hp : (m e).prev <;> cases hn : (m e).next <;> simp [isInterior, isTail, hp, hn]

omit [DecidableEq ν] in
/-- A head or an interior element is one with a successor: `list_next` reads `next`. -/
lemma listNext_eq (e : ν) : listNext m e = (m e).next := by
  cases hp : (m e).prev <;> cases hn : (m e).next <;> simp [listNext, isHead, isInterior, hp, hn]

omit [DecidableEq ν] in
/-- An interior element or a tail is one with a predecessor: `list_prev` reads `prev`. -/
lemma listPrev_eq (e : ν) : listPrev m e = (m e).prev := by
  cases hp : (m e).prev <;> simp [listPrev, isInterior_or_isTail, hp]

/-- `swap (&a->next, &b->prev)`. -/
lemma swap_next_prev (a b : ν) :
    swap m (a, .next) (b, .prev) = setPrev (setNext m a (m b).prev) b (m a).next := rfl

/-- `swap (&a->prev, &b->next)`. -/
lemma swap_prev_next (a b : ν) :
    swap m (a, .prev) (b, .next) = setNext (setPrev m a (m b).next) b (m a).prev := rfl

/-- `swap (&e->prev, &e->next)` turns the cell `e` around. -/
lemma swap_prev_next_self (e : ν) :
    swap m (e, .prev) (e, .next) = Function.update m e ⟨(m e).next, (m e).prev⟩ := by
  funext c
  by_cases hc : c = e
  · subst hc
    simp [swap, readSlot, writeSlot, setNext, setPrev]
  · simp [swap, readSlot, writeSlot, setNext_of_ne _ _ hc, setPrev_of_ne _ _ hc, hc]

omit [DecidableEq ν] in
lemma isInterior_of {e p n : ν} (hp : (m e).prev = some p) (hn : (m e).next = some n) :
    isInterior m e = true := by
  simp [isInterior, hp, hn]

variable {m}

/-- `list_insert` links `elem` between `before` and its predecessor. -/
lemma listInsert_eq {before elem bp : ν} (hbp : (m before).prev = some bp) (hne : before ≠ elem) :
    listInsert m before elem = some (linkRun m bp before elem elem) := by
  simp [listInsert, isInterior_or_isTail, hbp, hne, linkRun]

lemma listSplice_self {before x : ν} (hb : (m before).prev.isSome) :
    listSplice m before x x = some m := by
  simp [listSplice, isInterior_or_isTail, hb]

/-- `list_splice` of a nonempty run: the run from `first` to `last₀`, the cell before `last`,
leaves the cells `fp` and `last` around it joined, and is linked in before `before`. -/
lemma listSplice_eq {before first last last₀ fp bp : ν} (hb : (m before).prev.isSome)
    (hne : first ≠ last) (hlast : (m last).prev = some last₀)
    (hfirst : isInterior m first = true) (hlast₀ : isInterior m last₀ = true)
    (hfp : (m first).prev = some fp) (hl₀ : (m last₀).next = some last)
    (hbp : (unlinkRun m fp last before).prev = some bp) (hbf : before ≠ first) :
    listSplice m before first last =
      some (linkRun (unlinkRun m fp last) bp before first last₀) := by
  have hprev : listPrev m last = some last₀ := by
    simp [listPrev, isInterior_or_isTail, hlast]
  simp only [unlinkRun, setPrev_prev, setNext_prev] at hbp
  simp [listSplice, isInterior_or_isTail, hb, hne, hprev, hfirst, hlast₀, hfp, hl₀, hbf, hbp,
    unlinkRun, linkRun]

/-- `list_remove` joins the neighbours of `elem` and returns the one after it. -/
lemma listRemove_eq {elem fp ln : ν} (hp : (m elem).prev = some fp)
    (hn : (m elem).next = some ln) :
    listRemove m elem = some (unlinkRun m fp ln, some ln) := by
  simp [listRemove, isInterior_of m hp hn, hp, hn, unlinkRun]

lemma listFront_eq {L : ListHdr ν} {x : ν} (hx : (m L.head).next = some x) (hxt : x ≠ L.tail) :
    listFront m L = some x := by
  simp [listFront, listEmpty, listBegin, listEnd, hx, hxt]

lemma listFront_eq_none {L : ListHdr ν} (hx : (m L.head).next = some L.tail) :
    listFront m L = none := by
  simp [listFront, listEmpty, listBegin, listEnd, hx]

lemma listBack_eq {L : ListHdr ν} {x : ν} (hne : (m L.head).next ≠ some L.tail)
    (hx : (m L.tail).prev = some x) : listBack m L = some x := by
  simp [listBack, listEmpty, listBegin, listEnd, hne, hx]

lemma listBack_eq_none {L : ListHdr ν} (hx : (m L.head).next = some L.tail) :
    listBack m L = none := by
  simp [listBack, listEmpty, listBegin, listEnd, hx]

end Ptr

end TinyOs
