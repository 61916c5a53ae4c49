import Mathlib.Data.Fintype.Basic
import Mathlib.Tactic.FinCases
import TinyOs.Kernel.HashInv
import TinyOs.Kernel.ListOps

/-!
Iterating over a hash table of `hash.c` through its `struct list` buckets: bucket `b < cnt` is
the list with sentinels `bk b` holding the elements `xs b`.

* `hashFirst`, `hashNext`: `hash_first` sets the iterator on the head sentinel of bucket `0`;
  `hash_next` steps to the next cell and, at a bucket's tail, on to the first element of the
  next non-empty bucket, or sets a null pointer after the last bucket;
* `hashNextLoop_tail`, `hashNext_advance`: from a cell of bucket `b`, `hash_next` returns the
  first of the elements still to come (the rest of bucket `b`, then the later buckets) and
  stands at it, or returns a null pointer when none is left;
* `hashApply`: `hash_apply` reads each element's successor before it calls `action` on the
  element; `hashApply_eq`: an action that changes no other cell, one that frees its element
  for instance, is called once for each element, bucket by bucket;
* `hash_iteration_visits_each_once`: over a table whose buckets are well-formed lists, the
  iteration returns the table's elements, each once, and then a null pointer, and `hash_apply`
  calls the action once on each of them, in the same order.
-/

namespace TinyOs

open DLink

variable {ν : Type} [DecidableEq ν]

/-- `struct hash_iterator`: the index of its bucket and its element, `none` for a null
pointer. -/
structure HashIterator (ν : Type) where
  bucket : ℕ
  elem : Option ν
  deriving DecidableEq, Repr

namespace Ptr

section Iterator

variable (m : ν → Link ν) (bk : ℕ → ListHdr ν) (cnt : ℕ)

/-- `hash_first`: the head sentinel of bucket `0`, read as a `struct hash_elem`. -/
def hashFirst : HashIterator ν := ⟨0, some (bk 0).head⟩

/-- The `while` loop of `hash_next` at the cell `e` of bucket `b`: at the bucket's tail it
moves to the first cell of the next bucket, and past the last bucket it sets a null pointer. -/
def hashNextLoop : ℕ → ℕ → ν → Option (HashIterator ν)
  | 0, _, _ => none
  | fuel + 1, b, e =>
    if e = listEnd (bk b) then
      if cnt ≤ b + 1 then some ⟨b + 1, none⟩
      else do
        let e ← listBegin m (bk (b + 1))
        hashNextLoop fuel (b + 1) e
    else some ⟨b, some e⟩

/-- `hash_next`, its loop given `fuel`: the new iterator, whose element it returns. A null
element is dereferenced: `none`. -/
def hashNext (fuel : ℕ) (it : HashIterator ν) : Option (HashIterator ν) := do
  let e ← it.elem
  let e ← listNext m e
  hashNextLoop m bk cnt fuel it.bucket e

/-- The iteration idiom `hash_first (&i, h); while (hash_next (&i)) ...`: the elements
`hash_next` returns before it returns a null pointer, in at most `k` calls. -/
def hashIterate (fuel : ℕ) : ℕ → HashIterator ν → Option (List ν)
  | 0, _ => none
  | k + 1, it => do
    let it ← hashNext m bk cnt fuel it
    match it.elem with
    | none => some []
    | some e => (e :: ·) <$> hashIterate fuel k it

end Iterator

section Apply

variable {σ : Type} (heap : σ → ν → Link ν) (action : ν → σ → σ)

/-- The inner loop of `hash_apply` over the bucket with sentinels `L`: `next` is read before
`action` runs on `elem`, which may free it. -/
def applyLoop (L : ListHdr ν) : ℕ → σ → ν → Option σ
  | 0, _, _ => none
  | fuel + 1, s, e =>
    if e = listEnd L then some s
    else do
      let next ← listNext (heap s) e
      applyLoop L fuel (action e s) next

/-- `hash_apply (h, action)`, each inner loop given `fuel`; the state `s` holds the heap,
which `action` may change. -/
def hashApply (bk : ℕ → ListHdr ν) (cnt fuel : ℕ) (s : σ) : Option σ :=
  (List.range cnt).foldlM (fun s b => do
    let e ← listBegin (heap s) (bk b)
    applyLoop heap action (bk b) fuel s e) s

end Apply

end Ptr

/-! ### The elements still to come -/

/-- The elements of the buckets `b` to `cnt - 1`, in order. -/
def bucketsFrom (xs : ℕ → List ν) (cnt b : ℕ) : List ν := (List.range' b (cnt - b)).flatMap xs

section BucketsFrom

variable (xs : ℕ → List ν) {cnt b : ℕ}

omit [DecidableEq ν] in
lemma bucketsFrom_of_le (h : cnt ≤ b) : bucketsFrom xs cnt b = [] := by
  simp [bucketsFrom, Nat.sub_eq_zero_of_le h]

omit [DecidableEq ν] in
lemma bucketsFrom_of_lt (h : b < cnt) :
    bucketsFrom xs cnt b = xs b ++ bucketsFrom xs cnt (b + 1) := by
  rw [bucketsFrom, show cnt - b = cnt - (b + 1) + 1 by omega, List.range'_succ,
    List.flatMap_cons]
  rfl

omit [DecidableEq ν] in
lemma bucketsFrom_zero : bucketsFrom xs cnt 0 = (List.range cnt).flatMap xs := by
  rw [bucketsFrom, Nat.sub_zero, List.range_eq_range']

end BucketsFrom

omit [DecidableEq ν] in
/-- The buckets of a table, read by index, are its elements. -/
lemma flatMap_range_getD :
    ∀ l : List (List ν), (List.range l.length).flatMap (fun b => l.getD b []) = l.flatten
  | [] => rfl
  | a :: l => by
    rw [List.length_cons, List.range_succ_eq_map, List.flatMap_cons, List.flatMap_map]
    simpa using flatMap_range_getD l

/-- The iterator stands at the cell `e` of bucket `b < cnt`, its head sentinel or one of its
elements, with the elements `R` after it in that bucket. -/
def IterAt (bk : ℕ → ListHdr ν) (xs : ℕ → List ν) (cnt : ℕ) (it : HashIterator ν)
    (R : List ν) : Prop :=
  it.bucket < cnt ∧ ∃ e C, it.elem = some e ∧
    (bk it.bucket).head :: (xs it.bucket ++ [(bk it.bucket).tail]) =
      C ++ e :: (R ++ [(bk it.bucket).tail])

/-- What `hash_next` leaves when `S` are the elements still to come: a null pointer when there
are none, and otherwise an iterator at the first of them. -/
def Advanced (bk : ℕ → ListHdr ν) (xs : ℕ → List ν) (cnt : ℕ) (it : HashIterator ν)
    (S : List ν) : Prop :=
  (S = [] ∧ it.elem = none) ∨
    ∃ x R, it.elem = some x ∧ IterAt bk xs cnt it R ∧
      S = x :: (R ++ bucketsFrom xs cnt (it.bucket + 1))

/-! ### `hash_next` over well-formed buckets -/

section Buckets

variable {m : ν → Link ν} {bk : ℕ → ListHdr ν} {xs : ℕ → List ν} {cnt : ℕ}
  (hrep : ListsRep m (fun b : Fin cnt => bk b) (fun b : Fin cnt => xs b))
include hrep

omit [DecidableEq ν] in
/-- At the cell `e` of bucket `b`, with the elements `R` after it, `list_next (e)` is the first of
`R`, or the tail when `R` is empty; the tail is not among `R`. -/
lemma next_of_split {b : ℕ} (hb : b < cnt) {e : ν} {C R : List ν}
    (hN : (bk b).head :: (xs b ++ [(bk b).tail]) = C ++ e :: (R ++ [(bk b).tail])) :
    Ptr.listNext m e = (R ++ [(bk b).tail]).head? ∧ (bk b).tail ∉ R := by
  obtain ⟨y, t, ht⟩ := List.exists_cons_of_ne_nil (List.concat_ne_nil (bk b).tail R)
  have hadj := hrep.adj_of_split (i := ⟨b, hb⟩) (C := C) (a := e) (b := y) (D := t)
    (show (bk b).head :: (xs b ++ [(bk b).tail]) = _ by rw [hN, ht])
  have hnd : (C ++ e :: (R ++ [(bk b).tail])).Nodup := by
    rw [← hN]
    exact hrep.nodup ⟨b, hb⟩
  have hnd' := (List.nodup_cons.mp (List.nodup_append.mp hnd).2.1).2
  refine ⟨by rw [Ptr.listNext_eq, hadj.1, ht]; rfl, fun hT => ?_⟩
  exact (List.nodup_append.mp hnd').2.2 _ hT _ (List.mem_singleton_self _) rfl

/-- The loop of `hash_next` at the tail of bucket `b` crosses the empty buckets after it and
stands at the first element of the next non-empty one, or sets a null pointer after the last
bucket. The induction is on the fuel, which bounds the buckets left. -/
lemma hashNextLoop_tail : ∀ (fuel : ℕ) {b : ℕ}, b < cnt → cnt - b ≤ fuel →
    ∃ it, Ptr.hashNextLoop m bk cnt fuel b (bk b).tail = some it ∧
      Advanced bk xs cnt it (bucketsFrom xs cnt (b + 1))
  | 0, _, hb, hfuel => absurd hfuel (by omega)
  | fuel + 1, b, hb, hfuel => by
    by_cases hlast : cnt ≤ b + 1
    · -- past the last bucket: a null pointer
      exact ⟨⟨b + 1, none⟩, by simp [Ptr.hashNextLoop, Ptr.listEnd, hlast],
        .inl ⟨bucketsFrom_of_le xs hlast, rfl⟩⟩
    have hb' : b + 1 < cnt := by omega
    have hfrom := bucketsFrom_of_lt xs hb'
    cases hx : xs (b + 1) with
    | nil =>
      -- an empty bucket: its first cell is its tail, and the loop goes on from there
      have hbegin : Ptr.listBegin m (bk (b + 1)) = some (bk (b + 1)).tail :=
        hrep.head_next (i := ⟨b + 1, hb'⟩) (by simp [hx])
      obtain ⟨it, hloop, hadv⟩ := hashNextLoop_tail fuel hb' (by omega)
      refine ⟨it, by simp [Ptr.hashNextLoop, Ptr.listEnd, hlast, hbegin, hloop], ?_⟩
      rwa [hfrom, hx, List.nil_append]
    | cons x R =>
      -- a non-empty bucket: the iterator stops at its first element
      have hbegin : Ptr.listBegin m (bk (b + 1)) = some x :=
        hrep.head_next (i := ⟨b + 1, hb'⟩) (by simp [hx])
      have hxT : x ≠ (bk (b + 1)).tail :=
        ne_of_mem_of_not_mem (show x ∈ xs (b + 1) by simp [hx]) (hrep.tail_not_mem ⟨b + 1, hb'⟩)
      obtain ⟨f, rfl⟩ : ∃ f, fuel = f + 1 := ⟨fuel - 1, by omega⟩
      refine ⟨⟨b + 1, some x⟩, by simp [Ptr.hashNextLoop, Ptr.listEnd, hlast, hbegin, hxT],
        .inr ⟨x, R, rfl, ⟨hb', x, [(bk (b + 1)).head], rfl, by simp [hx]⟩, ?_⟩⟩
      rw [hfrom, hx]
      rfl

/-- One `hash_next` from an iterator at a cell of bucket `b`, with the elements `R` after it
there: it returns the first of `R` and then of the later buckets, and stands at it. -/
lemma hashNext_advance {it : HashIterator ν} {R : List ν} (hit : IterAt bk xs cnt it R)
    {fuel : ℕ} (hfuel : cnt < fuel) :
    ∃ it', Ptr.hashNext m bk cnt fuel it = some it' ∧
      Advanced bk xs cnt it' (R ++ bucketsFrom xs cnt (it.bucket + 1)) := by
  obtain ⟨b, elem⟩ := it
  obtain ⟨hb, e, C, he, hN⟩ := hit
  dsimp only at hb he hN ⊢
  subst he
  obtain ⟨hnext, hTR⟩ := next_of_split hrep hb hN
  cases R with
  | nil =>
    -- the last element of its bucket: the loop crosses to the later buckets
    obtain ⟨it', hloop, hadv⟩ := hashNextLoop_tail hrep fuel hb (by omega)
    exact ⟨it', by simp [Ptr.hashNext, hnext, hloop], by simpa using hadv⟩
  | cons x R =>
    -- the next element of the same bucket
    have hxT : x ≠ (bk b).tail := fun hx => hTR (hx ▸ List.mem_cons_self)
    obtain ⟨f, rfl⟩ : ∃ f, fuel = f + 1 := ⟨fuel - 1, by omega⟩
    refine ⟨⟨b, some x⟩, by simp [Ptr.hashNext, hnext, Ptr.hashNextLoop, Ptr.listEnd, hxT],
      .inr ⟨x, R, rfl, ⟨hb, x, C ++ [e], rfl, by simp [hN]⟩, rfl⟩⟩

/-- From an iterator at a cell of bucket `b`, the iteration returns the elements after it in that
bucket and then those of the later buckets, and then stops at a null pointer. The induction is
on the calls left, one for each element still to come. -/
lemma hashIterate_eq {fuel : ℕ} (hfuel : cnt < fuel) : ∀ (k : ℕ) {it : HashIterator ν}
    {R : List ν}, IterAt bk xs cnt it R → (R ++ bucketsFrom xs cnt (it.bucket + 1)).length < k →
    Ptr.hashIterate m bk cnt fuel k it = some (R ++ bucketsFrom xs cnt (it.bucket + 1))
  | 0, _, _, _, hk => absurd hk (Nat.not_lt_zero _)
  | k + 1, it, R, hit, hk => by
    obtain ⟨it', hnext, hadv⟩ := hashNext_advance hrep hit hfuel
    rcases hadv with ⟨hnil, hnull⟩ | ⟨x, R', hx, hit', hS⟩
    · -- nothing is left: the null pointer ends the iteration
      simp [Ptr.hashIterate, hnext, hnull, hnil]
    · -- the first element still to come, then the rest from the new iterator
      rw [hS] at hk ⊢
      have ih := hashIterate_eq hfuel k hit' (by simp at hk ⊢; omega)
      simp [Ptr.hashIterate, hnext, hx, ih]

/-- `hash_first` and then `hash_next` until it returns a null pointer: every element of every
bucket, bucket by bucket. -/
lemma hashIterate_hashFirst (hcnt : 0 < cnt) {fuel k : ℕ} (hfuel : cnt < fuel)
    (hk : ((List.range cnt).flatMap xs).length < k) :
    Ptr.hashIterate m bk cnt fuel k (Ptr.hashFirst bk) = some ((List.range cnt).flatMap xs) := by
  have hfirst : IterAt bk xs cnt (Ptr.hashFirst bk) (xs 0) := ⟨hcnt, (bk 0).head, [], rfl, rfl⟩
  have hall : xs 0 ++ bucketsFrom xs cnt 1 = (List.range cnt).flatMap xs := by
    rw [← bucketsFrom_of_lt xs hcnt, bucketsFrom_zero]
  rw [← hall] at hk ⊢
  exact hashIterate_eq hrep hfuel k hfirst hk

omit [DecidableEq ν] in
/-- No element is in two buckets, nor twice in one. -/
lemma nodup_flatMap_range : ((List.range cnt).flatMap xs).Nodup := by
  refine List.nodup_flatMap.mpr ⟨fun b hb => hrep.nodup_xs ⟨b, List.mem_range.mp hb⟩,
    List.nodup_range.imp_of_mem fun {a b} ha hb hab => List.disjoint_left.mpr fun c hca hcb => ?_⟩
  have heq := hrep.disjoint ⟨a, List.mem_range.mp ha⟩ ⟨b, List.mem_range.mp hb⟩ c
    (ListsRep.mem_nodes_of_mem (List.mem_append_left _ hca))
    (ListsRep.mem_nodes_of_mem (List.mem_append_left _ hcb))
  exact hab (congrArg Fin.val heq)

/-! ### `hash_apply` -/

section Apply

variable {σ : Type} {heap : σ → ν → Link ν} {action : ν → σ → σ}
  (hframe : ∀ e s c, c ≠ e → heap (action e s) c = heap s c)
include hframe

omit hrep [DecidableEq ν] in
/-- Calls of `action` on the elements `R`, one after the other, leave every other cell as it
was. -/
lemma heap_foldl_of_not_mem : ∀ {R : List ν} {s : σ} {c : ν}, c ∉ R →
    heap (R.foldl (fun s e => action e s) s) c = heap s c
  | [], _, _, _ => rfl
  | e :: R, s, c, hc => by
    rw [List.foldl_cons, heap_foldl_of_not_mem (fun h => hc (List.mem_cons_of_mem e h))]
    exact hframe e s c fun h => hc (h ▸ List.mem_cons_self)

/-- The inner loop of `hash_apply` from the first of the elements `R` that end bucket `b`, while
their cells are as the buckets were built: `action` is called on each of them once, in order.
The induction is on `R`. -/
lemma applyLoop_eq {b : ℕ} (hb : b < cnt) : ∀ (R : List ν) {P : List ν} {s : σ} {e : ν}
    {fuel : ℕ}, xs b = P ++ R → (R ++ [(bk b).tail]).head? = some e →
    (∀ c ∈ R, heap s c = m c) → R.length < fuel →
    Ptr.applyLoop heap action (bk b) fuel s e = some (R.foldl (fun s e => action e s) s)
  | _, _, _, _, 0, _, _, _, hfuel => absurd hfuel (Nat.not_lt_zero _)
  | [], _, s, e, fuel + 1, _, he, _, _ => by
    obtain rfl : e = (bk b).tail := by simpa using he.symm
    simp [Ptr.applyLoop, Ptr.listEnd]
  | x :: R, P, s, e, fuel + 1, hxs, he, hagree, hfuel => by
    obtain rfl : x = e := by simpa using he
    have hxT : x ≠ (bk b).tail :=
      ne_of_mem_of_not_mem (show x ∈ xs b by simp [hxs]) (hrep.tail_not_mem ⟨b, hb⟩)
    obtain ⟨e', he'⟩ : ∃ e', (R ++ [(bk b).tail]).head? = some e' :=
      Option.isSome_iff_exists.mp (by simp)
    -- `next` is read from the cell of `x` before `action` runs on it
    have hnext : Ptr.listNext (heap s) x = some e' := by
      rw [Ptr.listNext_eq, hagree x List.mem_cons_self, ← Ptr.listNext_eq]
      exact (hrep.listNext_listPrev (i := ⟨b, hb⟩) (P := P) (R := R) hxs he').1
    have hxR : x ∉ R := by
      have hnd := hrep.nodup_xs ⟨b, hb⟩
      rw [show xs b = P ++ x :: R from hxs] at hnd
      exact (List.nodup_cons.mp (List.nodup_append.mp hnd).2.1).1
    have hagree' : ∀ c ∈ R, heap (action x s) c = m c := fun c hc => by
      rw [hframe x s c (ne_of_mem_of_not_mem hc hxR), hagree c (List.mem_cons_of_mem x hc)]
    have ih := applyLoop_eq hb R (P := P ++ [x]) (by simp [hxs]) he' hagree'
      (by simpa using hfuel)
    simp [Ptr.applyLoop, Ptr.listEnd, hxT, hnext, ih]

/-- The loop of `hash_apply` over the buckets `bs`, while their cells are as the buckets were
built: `action` is called on each of their elements once, bucket by bucket. The induction is
on `bs`. -/
lemma foldlM_applyLoop_eq {fuel : ℕ} : ∀ (bs : List ℕ) {s : σ}, bs.Nodup → (∀ b ∈ bs, b < cnt) →
    (∀ b ∈ bs, ∀ c ∈ (bk b).head :: xs b, heap s c = m c) →
    (∀ b ∈ bs, (xs b).length < fuel) →
    bs.foldlM (fun s b => do
        let e ← Ptr.listBegin (heap s) (bk b)
        Ptr.applyLoop heap action (bk b) fuel s e) s =
      some ((bs.flatMap xs).foldl (fun s e => action e s) s)
  | [], _, _, _, _, _ => rfl
  | b :: bs, s, hnd, hlt, hagree, hfuel => by
    have hb := hlt b List.mem_cons_self
    have hbegin : Ptr.listBegin (heap s) (bk b) = (xs b ++ [(bk b).tail]).head? := by
      obtain ⟨e, he⟩ : ∃ e, (xs b ++ [(bk b).tail]).head? = some e :=
        Option.isSome_iff_exists.mp (by simp)
      rw [he, Ptr.listBegin, hagree b List.mem_cons_self _ List.mem_cons_self]
      exact hrep.head_next (i := ⟨b, hb⟩) he
    obtain ⟨e, he⟩ : ∃ e, (xs b ++ [(bk b).tail]).head? = some e :=
      Option.isSome_iff_exists.mp (by simp)
    have hloop := applyLoop_eq hrep hframe hb (xs b) (P := []) (s := s) rfl he
      (fun c hc => hagree b List.mem_cons_self c (List.mem_cons_of_mem _ hc))
      (hfuel b List.mem_cons_self)
    -- the cells of the later buckets are none of bucket `b`'s elements
    have hagree' : ∀ b' ∈ bs, ∀ c ∈ (bk b').head :: xs b',
        heap ((xs b).foldl (fun s e => action e s) s) c = m c := by
      intro b' hb' c hc
      have hne : b' ≠ b := fun h => (List.nodup_cons.mp hnd).1 (h ▸ hb')
      have hcb : c ∉ xs b := fun hcb => hne (congrArg Fin.val (hrep.disjoint
        ⟨b', hlt b' (List.mem_cons_of_mem _ hb')⟩ ⟨b, hb⟩ c
        (by
          rcases List.mem_cons.mp hc with rfl | hc
          · exact List.mem_cons_self
          · exact List.mem_cons_of_mem _ (List.mem_append_left _ hc))
        (ListsRep.mem_nodes_of_mem (List.mem_append_left _ hcb))))
      rw [heap_foldl_of_not_mem hframe hcb]
      exact hagree b' (List.mem_cons_of_mem _ hb') c hc
    have ih := foldlM_applyLoop_eq bs (List.nodup_cons.mp hnd).2
      (fun b' hb' => hlt b' (List.mem_cons_of_mem _ hb')) hagree'
      (fun b' hb' => hfuel b' (List.mem_cons_of_mem _ hb'))
    simp only [List.foldlM_cons, List.flatMap_cons, List.foldl_append, hbegin, he, hloop,
      Option.bind_eq_bind, Option.bind_some]
    exact ih

/-- `hash_apply` from a state whose heap holds the buckets: `action` is called once on every
element of every bucket, bucket by bucket. -/
lemma hashApply_eq {s : σ} (hs : heap s = m) {fuel : ℕ}
    (hfuel : ∀ b < cnt, (xs b).length < fuel) :
    Ptr.hashApply heap action bk cnt fuel s =
      some (((List.range cnt).flatMap xs).foldl (fun s e => action e s) s) :=
  foldlM_applyLoop_eq hrep hframe (List.range cnt) List.nodup_range
    (fun _ hb => List.mem_range.mp hb) (fun _ _ c _ => by rw [hs])
    (fun b hb => hfuel b (List.mem_range.mp hb))

end Apply

end Buckets

/-! ### Iterating over a table -/

/-- **Iteration visits every element once**: over a table that satisfies its representation
invariant and whose buckets are well-formed lists in the heap, `hash_first` and then
`hash_next` return the table's elements, none twice, and then a null pointer; and `hash_apply`
with an action that changes no cell but its element's, freeing it for instance, calls the
action once on each element, in the same order. -/
theorem hash_iteration_visits_each_once {hash : ν → ℕ} {less : ν → ν → Bool} {h : HashTable ν}
    (hinv : h.HashInv hash less) {m : ν → Link ν} {bk : ℕ → ListHdr ν}
    (hrep : ListsRep m (fun b : Fin h.bucketCnt => bk b)
      (fun b : Fin h.bucketCnt => h.buckets.getD b []))
    {fuel : ℕ} (hfuel : h.bucketCnt + h.elems.length < fuel) :
    Ptr.hashIterate m bk h.bucketCnt fuel fuel (Ptr.hashFirst bk) = some h.elems ∧
      h.elems.Nodup ∧
      ∀ {σ : Type} (heap : σ → ν → Link ν) (action : ν → σ → σ),
        (∀ e s c, c ≠ e → heap (action e s) c = heap s c) → ∀ s, heap s = m →
        Ptr.hashApply heap action bk h.bucketCnt fuel s =
          some (h.elems.foldl (fun s e => action e s) s) := by
  have helems : (List.range h.bucketCnt).flatMap (fun b => h.buckets.getD b []) = h.elems := by
    rw [← hinv.length_buckets]
    exact flatMap_range_getD h.buckets
  have h4 := hinv.four_le
  refine ⟨?_, helems ▸ nodup_flatMap_range hrep, fun heap action hframe s hs => ?_⟩
  · rw [← helems] at hfuel ⊢
    exact hashIterate_hashFirst hrep (by omega) (by omega) (by omega)
  · rw [← helems]
    refine hashApply_eq hrep hframe hs fun b hb => ?_
    -- a bucket holds at most all the elements
    have hb' : b < h.buckets.length := hinv.length_buckets ▸ hb
    have hle : (h.buckets.getD b []).length ≤ h.elems.length := by
      rw [List.getD_eq_getElem _ _ hb']
      exact (List.sublist_flatten_of_mem (List.getElem_mem hb')).length_le
    omega

/-- A table of four buckets holding `9` in bucket `1`, each number its own hash. -/
def nineTable : HashTable ℕ := ⟨1, 4, [[], [9], [], []]⟩

/-- The sentinels of bucket `b`. -/
def nineBucket (b : ℕ) : ListHdr ℕ := ⟨2 * b, 2 * b + 1⟩

/-- The heap of `nineTable`: its four buckets, `9` between the sentinels `2` and `3`. -/
def nineHeap : ℕ → Link ℕ
  | 0 => ⟨none, some 1⟩
  | 1 => ⟨some 0, none⟩
  | 2 => ⟨none, some 9⟩
  | 3 => ⟨some 9, none⟩
  | 4 => ⟨none, some 5⟩
  | 5 => ⟨some 4, none⟩
  | 6 => ⟨none, some 7⟩
  | 7 => ⟨some 6, none⟩
  | 9 => ⟨some 2, some 3⟩
  | _ => ⟨none, none⟩

lemma nineTable_hashInv : nineTable.HashInv (fun n => n) (fun a b => decide (a < b)) where
  pow2 := ⟨2, rfl⟩
  four_le := le_rfl
  length_buckets := rfl
  mem_bucket i e he := by
    match i, he with
    | 1, he =>
      obtain rfl : e = 9 := by simpa [nineTable] using he
      rfl
    | 0, he | 2, he | 3, he => simp [nineTable] at he
    | n + 4, he => simp [nineTable] at he
  elemCnt_eq := rfl
  pairwise := by simp [nineTable, HashTable.elems]

lemma nineHeap_rep : ListsRep nineHeap (fun b : Fin 4 => nineBucket b)
    (fun b : Fin 4 => nineTable.buckets.getD b []) where
  head_prev := by decide
  tail_next := by decide
  linked i := by
    fin_cases i <;> simp [nodes, Linked, Adj, nineHeap, nineBucket, nineTable]
  nodup := by decide
  disjoint i j a hi hj := by
    fin_cases i <;> fin_cases j <;> simp_all [nodes, nineBucket, nineTable] <;> omega

theorem hash_iteration_visits_each_once_nine :
    Ptr.hashIterate nineHeap nineBucket nineTable.bucketCnt 6 6 (Ptr.hashFirst nineBucket) =
        some nineTable.elems ∧
      nineTable.elems.Nodup ∧
      ∀ {σ : Type} (heap : σ → ℕ → Link ℕ) (action : ℕ → σ → σ),
        (∀ e s c, c ≠ e → heap (action e s) c = heap s c) → ∀ s, heap s = nineHeap →
        Ptr.hashApply heap action nineBucket nineTable.bucketCnt 6 s =
          some (nineTable.elems.foldl (fun s e => action e s) s) :=
  hash_iteration_visits_each_once nineTable_hashInv nineHeap_rep (by decide)

end TinyOs
