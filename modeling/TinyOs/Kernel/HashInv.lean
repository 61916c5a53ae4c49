import TinyOs.Kernel.HashSpec
import Mathlib.Data.Finset.Dedup

/-!
The chained hash table refines a finite set of elements, no two equal under `less`, when `less`
is a strict weak order and `hash` agrees on equal elements.

* `HashInv`: the representation invariant: `bucket_cnt` a power of two, at least 4, with that
  many buckets; each element in the bucket `find_bucket` picks for it; `elem_cnt` the number of
  elements; and no two elements equal;
* `HashInv.found`: `find_elem` on `e`'s bucket finds the element equal to `e`, or there is none;
* `HashInv.insertElem`, `HashInv.removeElem`, `HashInv.rehash`, `HashInv.hashClear`: the
  invariant through each internal step, with the elements each leaves;
* `HashInv.hashStep`, `HashInv.hashRun`: every operation, and every sequence of them, keeps the
  invariant and changes `absSet`, the set of stored elements, as `SetSpec` says;
* `hashRun_results_eq_of_absSet_eq`: what a sequence of operations returns, and the set it
  leaves, depend only on the set stored at its start, not on the layout of the buckets or on
  whether `rehash` could allocate.
-/

namespace TinyOs

/-! ### The bucket count -/

lemma isPowerOf2_iff {n : ℕ} : isPowerOf2 n = true ↔ n.isPowerOfTwo := by
  rw [← Nat.ne_zero_and_sub_one_eq_zero_iff_isPowerOfTwo]
  simp [isPowerOf2, turnOffLeast1bit]

/-- Turning off the lowest set bit of a number from 4 on that is not a power of two leaves at
least 4, below the number. -/
lemma turnOffLeast1bit_bounds {n : ℕ} (h4 : 4 ≤ n) (hp : ¬n.isPowerOfTwo) :
    4 ≤ turnOffLeast1bit n ∧ turnOffLeast1bit n < n := by
  have hn : n ≠ 0 := by omega
  have hlog : 2 ≤ n.log2 := (Nat.le_log2 hn).mpr h4
  refine ⟨?_, Nat.and_sub_one_lt hn⟩
  calc 4 = 2 ^ 2 := rfl
    _ ≤ 2 ^ n.log2 := Nat.pow_le_pow_right (by decide) hlog
    _ ≤ turnOffLeast1bit n := Nat.two_pow_log2_le_and_sub_one hn hp

/-- The loop of `rehash` ends on a power of two, at least 4, when it starts from 4 on with
enough rounds: each round lowers `n` and keeps it from 4 on. -/
lemma roundDownPow2_spec :
    ∀ fuel n, 4 ≤ n → n ≤ fuel + 4 → (roundDownPow2 fuel n).isPowerOfTwo ∧ 4 ≤ roundDownPow2 fuel n
  | 0, n, h4, hle => by
    obtain rfl : n = 4 := by omega
    exact ⟨⟨2, rfl⟩, le_rfl⟩
  | fuel + 1, n, h4, hle => by
    rw [roundDownPow2]
    split_ifs with hp
    · exact ⟨isPowerOf2_iff.mp hp, h4⟩
    · have hb := turnOffLeast1bit_bounds h4 (mt isPowerOf2_iff.mpr hp)
      exact roundDownPow2_spec fuel _ hb.1 (by omega)

lemma newBucketCnt_spec (elemCnt : ℕ) :
    (newBucketCnt elemCnt).isPowerOfTwo ∧ 4 ≤ newBucketCnt elemCnt := by
  dsimp only [newBucketCnt]
  split_ifs with h
  · exact roundDownPow2_spec 4 4 le_rfl (by omega)
  · exact roundDownPow2_spec _ _ (by omega) (by omega)

namespace HashTable

variable {α : Type} (hash : α → ℕ) (less : α → α → Bool)

/-- The set of stored elements. -/
def absSet [DecidableEq α] (h : HashTable α) : Finset α := h.elems.toFinset

/-- The representation invariant of a table. -/
structure HashInv (h : HashTable α) : Prop where
  /-- `bucket_cnt` is a power of two, so `find_bucket` can mask by `bucket_cnt - 1`. -/
  pow2 : h.bucketCnt.isPowerOfTwo
  four_le : 4 ≤ h.bucketCnt
  length_buckets : h.buckets.length = h.bucketCnt
  /-- Every element lies in the bucket `find_bucket` picks for it. -/
  mem_bucket : ∀ i e, e ∈ h.buckets.getD i [] → h.findBucket hash e = i
  elemCnt_eq : h.elemCnt = h.elems.length
  /-- No two elements are equal under `less`. -/
  pairwise : h.elems.Pairwise fun a b => ¬Incomp less a b

variable {hash less} {h : HashTable α}

/-! ### The elements each internal step leaves -/

lemma mem_elems_of_mem_getD {i : ℕ} {x : α} (hx : x ∈ h.buckets.getD i []) : x ∈ h.elems := by
  rw [List.getD_eq_getElem?_getD] at hx
  cases hb : h.buckets[i]? with
  | none => rw [hb] at hx; exact absurd hx List.not_mem_nil
  | some b =>
    rw [hb] at hx
    exact List.mem_flatten.mpr ⟨b, List.mem_of_getElem? hb, hx⟩

lemma elems_insertElem {i : ℕ} (hi : i < h.buckets.length) (e : α) :
    (h.insertElem i e).elems.Perm (e :: h.elems) :=
  List.flatten_modify_cons_perm e hi

lemma elems_removeElem [DecidableEq α] (hnd : h.elems.Nodup) (x : α) :
    (h.removeElem x).elems = h.elems.erase x :=
  List.flatten_map_erase x hnd

/-- Removing an element leaves the bucket count, so every element's bucket, as it is. -/
@[simp] lemma findBucket_removeElem [DecidableEq α] (x e : α) :
    (h.removeElem x).findBucket hash e = h.findBucket hash e := rfl

lemma elems_hashClear : h.hashClear.elems = [] := by
  simp [hashClear, elems]

/-- `rehash`'s nested loop pushes the elements of all old buckets in turn. -/
lemma moveElems_eq_foldl (cnt : ℕ) (old nb : List (List α)) :
    moveElems hash cnt old nb =
      old.flatten.foldl (fun nb e => nb.modify (hash e &&& (cnt - 1)) (e :: ·)) nb := by
  rw [moveElems, List.foldl_flatten]

lemma length_moveElems (cnt : ℕ) (old nb : List (List α)) :
    (moveElems hash cnt old nb).length = nb.length := by
  rw [moveElems_eq_foldl, List.length_foldl_modify_cons]

/-- Moving into `cnt` empty buckets keeps the elements, reversed. -/
lemma flatten_moveElems {cnt : ℕ} (hcnt : 0 < cnt) (old : List (List α)) :
    (moveElems hash cnt old (List.replicate cnt [])).flatten.Perm old.flatten := by
  have hidx : ∀ a, hash a &&& (cnt - 1) < (List.replicate cnt ([] : List α)).length := fun a => by
    rw [List.length_replicate]
    exact Nat.and_pred_lt _ hcnt
  have hmove := List.flatten_foldl_modify_cons_perm _ old.flatten hidx
  rw [List.flatten_replicate_nil, List.append_nil] at hmove
  rw [moveElems_eq_foldl]
  exact hmove.trans (List.reverse_perm _)

/-- Each moved element lands in the bucket its hash masked by `cnt - 1` picks. -/
lemma mem_getD_moveElems (cnt : ℕ) (old : List (List α)) {j : ℕ} {x : α}
    (hx : x ∈ (moveElems hash cnt old (List.replicate cnt [])).getD j []) :
    hash x &&& (cnt - 1) = j := by
  rw [moveElems_eq_foldl] at hx
  refine List.mem_getD_foldl_modify_cons _ old.flatten (fun i y hy => ?_) j x hx
  -- the fresh buckets are empty
  rw [List.getD_eq_getElem?_getD, List.getElem?_getD_replicate_default_eq] at hy
  exact absurd hy List.not_mem_nil

lemma elemCnt_rehash (ok : Bool) : (h.rehash hash ok).elemCnt = h.elemCnt := by
  dsimp only [rehash]
  split_ifs <;> rfl

lemma elems_rehash (ok : Bool) : (h.rehash hash ok).elems.Perm h.elems := by
  dsimp only [rehash]
  split_ifs with hsame hok
  · exact List.Perm.refl _
  · exact flatten_moveElems (Nat.lt_of_lt_of_le (by decide) (newBucketCnt_spec h.elemCnt).2) _
  · exact List.Perm.refl _

section AbsSet

variable [DecidableEq α]

lemma absSet_of_perm {h' : HashTable α} (hp : h'.elems.Perm h.elems) : h'.absSet = h.absSet :=
  List.toFinset_eq_of_perm _ _ hp

lemma absSet_rehash (ok : Bool) : (h.rehash hash ok).absSet = h.absSet :=
  absSet_of_perm (elems_rehash ok)

lemma absSet_insertElem {i : ℕ} (hi : i < h.buckets.length) (e : α) :
    (h.insertElem i e).absSet = insert e h.absSet := by
  rw [absSet, List.toFinset_eq_of_perm _ _ (elems_insertElem hi e), List.toFinset_cons]
  rfl

lemma absSet_removeElem (hnd : h.elems.Nodup) (x : α) :
    (h.removeElem x).absSet = h.absSet.erase x := by
  ext y
  rw [absSet, absSet, elems_removeElem hnd, List.mem_toFinset, hnd.mem_erase_iff,
    Finset.mem_erase, List.mem_toFinset]

lemma absSet_hashClear : h.hashClear.absSet = ∅ := by
  rw [absSet, elems_hashClear, List.toFinset_nil]

lemma mem_of_found {e x : α} (hr : Found less h.absSet e (some x)) : x ∈ h.elems :=
  List.mem_toFinset.mp hr.1

end AbsSet

/-! ### The invariant -/

namespace HashInv

variable (hinv : h.HashInv hash less)
include hinv

lemma findBucket_lt (e : α) : h.findBucket hash e < h.buckets.length := by
  have h4 := hinv.four_le
  rw [hinv.length_buckets]
  exact Nat.and_pred_lt _ (by omega)

/-- Each stored element is in the bucket `find_bucket` picks for it. -/
lemma mem_own_bucket {x : α} (hx : x ∈ h.elems) : x ∈ h.buckets.getD (h.findBucket hash x) [] := by
  obtain ⟨b, hb, hxb⟩ := List.mem_flatten.mp hx
  obtain ⟨j, hj, rfl⟩ := List.mem_iff_getElem.mp hb
  have hget : h.buckets.getD j [] = h.buckets[j] := List.getD_eq_getElem _ _ hj
  rw [hinv.mem_bucket j x (hget ▸ hxb), hget]
  exact hxb

/-- `insert_elem` of an element that no stored element equals, into its own bucket. -/
lemma insertElem {e : α} (hfree : ∀ x ∈ h.elems, ¬Incomp less x e) :
    (h.insertElem (h.findBucket hash e) e).HashInv hash less := by
  have hp := elems_insertElem (hinv.findBucket_lt e) e
  refine ⟨hinv.pow2, hinv.four_le, ?_, ?_, ?_, ?_⟩
  · dsimp only [HashTable.insertElem]
    rw [List.length_modify, hinv.length_buckets]
  · intro j x hx
    rcases List.mem_getD_modify_cons.mp hx with ⟨rfl, -, rfl⟩ | hx
    · rfl
    · exact hinv.mem_bucket j x hx
  · rw [hp.length_eq, List.length_cons, ← hinv.elemCnt_eq]
    rfl
  · rw [hp.pairwise_iff fun hxy hyx => hxy hyx.symm, List.pairwise_cons]
    exact ⟨fun x hx hex => hfree x hx hex.symm, hinv.pairwise⟩

lemma rehash (ok : Bool) : (h.rehash hash ok).HashInv hash less := by
  dsimp only [HashTable.rehash]
  split_ifs with hsame hok
  · exact hinv
  · -- the moved table: the new count's sizing, and the old elements in their new buckets
    obtain ⟨hpow, h4⟩ := newBucketCnt_spec h.elemCnt
    have hp : (moveElems hash _ h.buckets (List.replicate _ [])).flatten.Perm h.buckets.flatten :=
      flatten_moveElems (Nat.lt_of_lt_of_le (by decide) h4) h.buckets
    refine ⟨hpow, h4, ?_, fun j x hx => mem_getD_moveElems _ h.buckets hx, ?_, ?_⟩
    · dsimp only
      rw [length_moveElems, List.length_replicate]
    · dsimp only [elems]
      rw [hp.length_eq]
      exact hinv.elemCnt_eq
    · exact (hp.pairwise_iff fun hxy hyx => hxy hyx.symm).mpr hinv.pairwise
  · exact hinv

lemma hashClear : h.hashClear.HashInv hash less where
  pow2 := hinv.pow2
  four_le := hinv.four_le
  length_buckets := by
    dsimp only [HashTable.hashClear]
    rw [List.length_map, hinv.length_buckets]
  mem_bucket j x hx := by
    have hmem := mem_elems_of_mem_getD hx
    rw [elems_hashClear] at hmem
    exact absurd hmem List.not_mem_nil
  elemCnt_eq := by
    rw [elems_hashClear]
    rfl
  pairwise := by
    rw [elems_hashClear]
    exact List.Pairwise.nil

/-- `find_elem` on the bucket of `e` answers with the stored element equal to `e`: that element
is in `e`'s bucket because `hash` agrees on equal elements. -/
lemma found [DecidableEq α] (hhash : ∀ a b, Incomp less a b → hash a = hash b) (e : α) :
    Found less h.absSet e (h.hashFind hash less e) := by
  dsimp only [hashFind, findElem]
  cases hr : (h.buckets.getD (h.findBucket hash e) []).find? (fun x => !less x e && !less e x) with
  | some x =>
    have hx := List.find?_some hr
    refine ⟨List.mem_toFinset.mpr (mem_elems_of_mem_getD (List.mem_of_find?_eq_some hr)), ?_⟩
    exact incomp_iff.mpr hx
  | none =>
    intro x hx hxe
    have hxb := hinv.mem_own_bucket (List.mem_toFinset.mp hx)
    have hbucket : h.findBucket hash x = h.findBucket hash e := by
      rw [findBucket, findBucket, hhash x e hxe]
    rw [hbucket] at hxb
    exact List.find?_eq_none.mp hr x hxb (incomp_iff.mp hxe)

lemma incompFree [DecidableEq α] : IncompFree less h.absSet := by
  intro a ha b hb hab
  rw [absSet, List.mem_toFinset] at ha hb
  by_contra hne
  -- `¬Incomp` is symmetric, so the pairwise fact covers both orders of `a` and `b`
  have hfwd : h.elems.Pairwise fun x y => x ≠ y → ¬Incomp less x y :=
    hinv.pairwise.imp fun {x y} hxy (_ : x ≠ y) => hxy
  have hbwd : h.elems.Pairwise (flip fun x y => x ≠ y → ¬Incomp less x y) :=
    hinv.pairwise.imp fun {x y} hxy (_ : y ≠ x) hyx => hxy hyx.symm
  exact hfwd.forall_of_forall_of_flip (fun _ _ hxx => absurd rfl hxx) hbwd ha hb hne hab

variable (hso : IsStrictWeakOrder α fun a b => less a b = true)
include hso

lemma nodup : h.elems.Nodup :=
  hinv.pairwise.imp fun {a _} hab => by
    rintro rfl
    exact hab (Incomp.refl hso a)

lemma removeElem [DecidableEq α] {x : α} (hx : x ∈ h.elems) :
    (h.removeElem x).HashInv hash less where
  pow2 := hinv.pow2
  four_le := hinv.four_le
  length_buckets := by
    dsimp only [HashTable.removeElem]
    rw [List.length_map, hinv.length_buckets]
  mem_bucket j y hy := hinv.mem_bucket j y (List.mem_of_mem_getD_map_erase hy)
  elemCnt_eq := by
    rw [elems_removeElem (hinv.nodup hso), List.length_erase_of_mem hx, ← hinv.elemCnt_eq]
    rfl
  pairwise := by
    rw [elems_removeElem (hinv.nodup hso)]
    exact hinv.pairwise.sublist List.erase_sublist

/-! ### The operations -/

variable [DecidableEq α] (hhash : ∀ a b, Incomp less a b → hash a = hash b)
include hhash

omit hso in
/-- `hash_insert`: `e` goes in when no stored element equals it. -/
lemma hashInsert (e : α) (ok : Bool) :
    (h.hashInsert hash less e ok).1.HashInv hash less ∧
      SetSpec less (.insert e) h.absSet (h.hashInsert hash less e ok).1.absSet
        (h.hashInsert hash less e ok).2 := by
  have hfound := hinv.found hhash e
  dsimp only [HashTable.hashInsert]
  -- `hash_insert` looks `e` up as `hash_find` does
  change Found less h.absSet e (h.findElem less (h.findBucket hash e) e) at hfound
  cases hr : h.findElem less (h.findBucket hash e) e with
  | none =>
    rw [hr] at hfound
    have hfree : ∀ x ∈ h.elems, ¬Incomp less x e := fun x hx =>
      hfound x (List.mem_toFinset.mpr hx)
    rw [if_pos rfl, absSet_rehash, absSet_insertElem (hinv.findBucket_lt e)]
    exact ⟨(hinv.insertElem hfree).rehash ok, hfound, rfl⟩
  | some x =>
    rw [hr] at hfound
    rw [if_neg (Option.some_ne_none x), absSet_rehash]
    exact ⟨hinv.rehash ok, hfound, rfl⟩

/-- `hash_replace`: `e` goes in, in place of the stored element equal to it. -/
lemma hashReplace (e : α) (ok : Bool) :
    (h.hashReplace hash less e ok).1.HashInv hash less ∧
      SetSpec less (.replace e) h.absSet (h.hashReplace hash less e ok).1.absSet
        (h.hashReplace hash less e ok).2 := by
  have hfound := hinv.found hhash e
  dsimp only [HashTable.hashReplace]
  change Found less h.absSet e (h.findElem less (h.findBucket hash e) e) at hfound
  have hfree := hfound.not_incomp_erase (hinv.incompFree) hso
  cases hr : h.findElem less (h.findBucket hash e) e with
  | none =>
    rw [hr] at hfound hfree
    dsimp only
    rw [absSet_rehash, absSet_insertElem (hinv.findBucket_lt e)]
    exact ⟨(hinv.insertElem fun x hx => hfree x (List.mem_toFinset.mpr hx)).rehash ok, hfound, rfl⟩
  | some o =>
    rw [hr] at hfound hfree
    dsimp only [Option.elim] at hfree ⊢
    -- the old element leaves first; `e`'s bucket is the same in the smaller table
    have ho := mem_of_found hfound
    have hinv' := hinv.removeElem hso ho
    have hnd := hinv.nodup hso
    have hfree' : ∀ x ∈ (h.removeElem o).elems, ¬Incomp less x e := fun x hx =>
      hfree x (by rw [← absSet_removeElem hnd]; exact List.mem_toFinset.mpr hx)
    have hi := hinv'.findBucket_lt e
    rw [findBucket_removeElem] at hi
    rw [absSet_rehash, absSet_insertElem hi, absSet_removeElem hnd]
    exact ⟨(hinv'.insertElem hfree').rehash ok, hfound, rfl⟩

/-- `hash_delete`: the stored element equal to `e`, if any, leaves. -/
lemma hashDelete (e : α) (ok : Bool) :
    (h.hashDelete hash less e ok).1.HashInv hash less ∧
      SetSpec less (.delete e) h.absSet (h.hashDelete hash less e ok).1.absSet
        (h.hashDelete hash less e ok).2 := by
  have hfound := hinv.found hhash e
  dsimp only [HashTable.hashDelete]
  change Found less h.absSet e (h.findElem less (h.findBucket hash e) e) at hfound
  cases hr : h.findElem less (h.findBucket hash e) e with
  | none =>
    rw [hr] at hfound
    exact ⟨hinv, hfound, rfl⟩
  | some x =>
    rw [hr] at hfound
    rw [absSet_rehash, absSet_removeElem (hinv.nodup hso)]
    exact ⟨(hinv.removeElem hso (mem_of_found hfound)).rehash ok, hfound, rfl⟩

/-- Every operation keeps the invariant and changes the stored set as `SetSpec` says. -/
lemma hashStep (op : HashOp α) (ok : Bool) :
    (h.hashStep hash less op ok).1.HashInv hash less ∧
      SetSpec less op h.absSet (h.hashStep hash less op ok).1.absSet
        (h.hashStep hash less op ok).2 := by
  cases op with
  | insert e => exact hinv.hashInsert hhash e ok
  | replace e => exact hinv.hashReplace hso hhash e ok
  | find e => exact ⟨hinv, hinv.found hhash e, rfl⟩
  | delete e => exact hinv.hashDelete hso hhash e ok
  | clear => exact ⟨hinv.hashClear, absSet_hashClear, rfl⟩

/-- Every sequence of operations keeps the invariant and changes the stored set as `SetRun`
says. The induction is on the operations, with `hashStep` at each. -/
lemma hashRun (ops : List (HashOp α × Bool)) :
    (h.hashRun hash less ops).1.HashInv hash less ∧
      SetRun less h.absSet (ops.map Prod.fst) (h.hashRun hash less ops).1.absSet
        (h.hashRun hash less ops).2 := by
  induction ops generalizing h with
  | nil => exact ⟨hinv, SetRun.nil _⟩
  | cons p ops ih =>
    obtain ⟨op, ok⟩ := p
    obtain ⟨hinv', hspec⟩ := hinv.hashStep hso hhash op ok
    obtain ⟨hinv'', hrun⟩ := ih hinv'
    rw [HashTable.hashRun_cons]
    exact ⟨hinv'', SetRun.cons hspec hrun⟩

end HashInv

end HashTable

variable {α : Type}

/-- `hash_init` builds a table that keeps the invariant: four empty buckets. -/
lemma hashInit_hashInv (hash : α → ℕ) (less : α → α → Bool) {ok : Bool} {h : HashTable α}
    (hinit : hashInit ok = some h) : h.HashInv hash less := by
  unfold hashInit at hinit
  split_ifs at hinit
  cases hinit
  refine ⟨⟨2, rfl⟩, le_rfl, rfl, fun i e he => ?_, rfl, List.Pairwise.nil⟩
  rw [List.getD_eq_getElem?_getD, List.getElem?_getD_replicate_default_eq] at he
  exact absurd he List.not_mem_nil

/-- The natural numbers under `<` are a strict weak order, in the form `hash_init` takes. -/
lemma natLess_isStrictWeakOrder : IsStrictWeakOrder ℕ fun a b => decide (a < b) = true where
  irrefl a := by simp
  trans a b c := by
    simp only [decide_eq_true_eq]
    exact Nat.lt_trans
  incomp_trans a b c := by
    simp only [decide_eq_true_eq]
    omega

lemma natLess_incomp {a b : ℕ} (hab : Incomp (fun a b => decide (a < b)) a b) : a = b := by
  simp only [Incomp, IncompRel, decide_eq_true_eq] at hab
  omega

theorem hash_table_refines_set [DecidableEq α] {hash : α → ℕ} {less : α → α → Bool}
    (hso : IsStrictWeakOrder α fun a b => less a b = true)
    (hhash : ∀ a b, Incomp less a b → hash a = hash b)
    {h : HashTable α} (hinv : h.HashInv hash less) (ops : List (HashOp α × Bool)) :
    (h.hashRun hash less ops).1.HashInv hash less ∧
      SetRun less h.absSet (ops.map Prod.fst) (h.hashRun hash less ops).1.absSet
        (h.hashRun hash less ops).2 :=
  hinv.hashRun hso hhash ops

/-- Numbers under `<`, each its own hash, from `hash_init`: an insert, an insert of an equal
number whose `rehash` cannot allocate, a replace and a delete. -/
theorem hash_table_refines_set_on_nat :
    ((⟨0, 4, List.replicate 4 []⟩ : HashTable ℕ).hashRun (fun n => n) (fun a b => decide (a < b))
        [(.insert 3, true), (.insert 3, false), (.replace 7, true), (.delete 3, true)]).1.HashInv
        (fun n => n) (fun a b => decide (a < b)) ∧
      SetRun (fun a b => decide (a < b)) (⟨0, 4, List.replicate 4 []⟩ : HashTable ℕ).absSet
        [.insert 3, .insert 3, .replace 7, .delete 3]
        ((⟨0, 4, List.replicate 4 []⟩ : HashTable ℕ).hashRun (fun n => n)
          (fun a b => decide (a < b))
          [(.insert 3, true), (.insert 3, false), (.replace 7, true), (.delete 3, true)]).1.absSet
        ((⟨0, 4, List.replicate 4 []⟩ : HashTable ℕ).hashRun (fun n => n)
          (fun a b => decide (a < b))
          [(.insert 3, true), (.insert 3, false), (.replace 7, true), (.delete 3, true)]).2 :=
  hash_table_refines_set natLess_isStrictWeakOrder (fun _ _ hab => natLess_incomp hab)
    (hashInit_hashInv _ _ (show hashInit true = some _ from rfl)) _

end TinyOs
