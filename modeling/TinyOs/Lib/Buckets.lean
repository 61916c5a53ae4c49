import Mathlib.Data.List.Perm.Basic
import Mathlib.Data.List.GetD
import Mathlib.Data.List.Pairwise
import Mathlib.Algebra.Group.Nat.Defs

/-!
Bucket arrays as a chained hash table keeps them: a list of buckets, each a list; the bucket
of an element is its hash masked by the bucket count less one; an element goes on the front of
its bucket, and leaves by being erased from the bucket it is in.

* `Nat.and_pred_lt`: a mask by `n - 1` gives an index below `n`;
* `Nat.and_sub_one_lt`, `Nat.two_pow_log2_le_and_sub_one`: turning off the lowest set bit of
  `n` makes it smaller, and keeps its highest bit unless `n` is a power of two;
* `List.flatten_modify_cons_perm`, `List.mem_getD_modify_cons`: pushing `a` on one bucket adds
  `a` to the elements of all buckets, in that bucket only;
* `List.flatten_foldl_modify_cons_perm`, `List.mem_getD_foldl_modify_cons`: pushing a sequence
  of elements, each on the bucket an index function picks;
* `List.mem_of_mem_getD_map_erase`, `List.flatten_map_erase`: erasing an element from every
  bucket leaves each bucket within the old one, and erases the element's one occurrence.
-/

namespace Nat

theorem and_pred_lt (x : ℕ) {n : ℕ} (hn : 0 < n) : x &&& (n - 1) < n :=
  Nat.lt_of_le_of_lt Nat.and_le_right (Nat.sub_lt hn Nat.one_pos)

theorem and_sub_one_lt {n : ℕ} (hn : n ≠ 0) : n &&& (n - 1) < n :=
  and_pred_lt n (Nat.pos_of_ne_zero hn)

theorem two_pow_log2_le_and_sub_one {n : ℕ} (hn : n ≠ 0) (hp : ¬n.isPowerOfTwo) :
    2 ^ n.log2 ≤ n &&& (n - 1) :=
  Nat.ge_two_pow_of_testBit (and_sub_one_testBit_log2 hn hp)

end Nat

namespace List

variable {α : Type*}

theorem flatten_modify_cons_perm (a : α) :
    ∀ {l : List (List α)} {i : ℕ}, i < l.length →
      (l.modify i (a :: ·)).flatten.Perm (a :: l.flatten)
  | _ :: _, 0, _ => by simp
  | b :: l, i + 1, hi => by
    simp only [modify_succ_cons, flatten_cons]
    have hrest := flatten_modify_cons_perm a (l := l) (i := i) (by simpa using hi)
    exact (Perm.append_left b hrest).trans perm_middle

theorem mem_getD_modify_cons {a x : α} {l : List (List α)} {i j : ℕ} :
    x ∈ (l.modify i (a :: ·)).getD j [] ↔ (i = j ∧ j < l.length ∧ x = a) ∨ x ∈ l.getD j [] := by
  rw [getD_eq_getElem?_getD, getD_eq_getElem?_getD, getElem?_modify]
  by_cases hj : j < l.length
  · rw [getElem?_eq_getElem hj]
    by_cases hij : i = j
    · simp [hij, hj]
    · simp [hij]
  · simp [hj]

section Foldl

variable (idx : α → ℕ)

/-- Pushing each element of `xs` in turn on the front of bucket `idx a`. -/
theorem flatten_foldl_modify_cons_perm :
    ∀ (xs : List α) {l : List (List α)}, (∀ a, idx a < l.length) →
      (xs.foldl (fun l a => l.modify (idx a) (a :: ·)) l).flatten.Perm (xs.reverse ++ l.flatten)
  | [], _, _ => by simp
  | a :: xs, l, hidx => by
    rw [foldl_cons, reverse_cons, append_assoc, singleton_append]
    have hlen : ∀ b, idx b < (l.modify (idx a) (a :: ·)).length := fun b => by
      simpa using hidx b
    exact (flatten_foldl_modify_cons_perm xs hlen).trans
      (Perm.append_left _ (flatten_modify_cons_perm a (hidx a)))

theorem length_foldl_modify_cons (xs : List α) (l : List (List α)) :
    (xs.foldl (fun l a => l.modify (idx a) (a :: ·)) l).length = l.length := by
  induction xs generalizing l with
  | nil => rfl
  | cons a xs ih => rw [foldl_cons, ih, length_modify]

/-- Every element ends in the bucket `idx` picks, when every element already there does. -/
theorem mem_getD_foldl_modify_cons (xs : List α) {l : List (List α)}
    (hl : ∀ j x, x ∈ l.getD j [] → idx x = j) :
    ∀ j x, x ∈ (xs.foldl (fun l a => l.modify (idx a) (a :: ·)) l).getD j [] → idx x = j := by
  induction xs generalizing l with
  | nil => exact hl
  | cons a xs ih =>
    refine ih fun j x hx => ?_
    rcases mem_getD_modify_cons.mp hx with ⟨rfl, -, rfl⟩ | hx
    · rfl
    · exact hl j x hx

end Foldl

theorem mem_of_mem_getD_map_erase [DecidableEq α] {x y : α} {l : List (List α)} {j : ℕ}
    (hy : y ∈ (l.map (·.erase x)).getD j []) : y ∈ l.getD j [] := by
  have hget : (l.map (·.erase x)).getD j [] = (l.getD j []).erase x :=
    getD_map l [] (·.erase x)
  rw [hget] at hy
  exact mem_of_mem_erase hy

/-- Erasing `x` from every bucket erases its one occurrence among all elements. -/
theorem flatten_map_erase [DecidableEq α] (x : α) :
    ∀ {l : List (List α)}, l.flatten.Nodup → (l.map (·.erase x)).flatten = l.flatten.erase x
  | [], _ => rfl
  | b :: l, hnd => by
    rw [flatten_cons, nodup_append] at hnd
    rw [map_cons, flatten_cons, flatten_cons, erase_append, flatten_map_erase x hnd.2.1]
    by_cases hb : x ∈ b
    · -- `x` is in `b`, so in no later bucket
      have hx : x ∉ l.flatten := fun hx => hnd.2.2 x hb x hx rfl
      rw [if_pos hb, erase_of_not_mem hx]
    · rw [if_neg hb, erase_of_not_mem hb]

end List
