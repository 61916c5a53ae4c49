import Mathlib.Data.Nat.Count

/-!
Counting below a bound with `Nat.count` when the predicate changes at one point: the counts of
two predicates that agree below `n` are equal, and when they differ at one `t < n` only, they
differ by what each says of `t`. This is how a count of the threads at some program point moves
when one thread moves.

* `Nat.count_eq_of_agree`: predicates that agree below `n` count the same;
* `Nat.count_add_ite_of_agree`: predicates that agree below `n` except at `t` count the same
  once each is given the other's value at `t`;
* `Nat.count_pos_of_lt`: a witness below `n` makes the count positive.
-/

namespace Nat

variable {p q : ℕ → Prop} [DecidablePred p] [DecidablePred q]

theorem count_eq_of_agree {n : ℕ} (h : ∀ u < n, (p u ↔ q u)) : count p n = count q n :=
  le_antisymm (count_mono_left fun u hu => (h u hu).mp) (count_mono_left fun u hu => (h u hu).mpr)

theorem count_add_ite_of_agree {n t : ℕ} (ht : t < n) (h : ∀ u < n, u ≠ t → (p u ↔ q u)) :
    count p n + (if q t then 1 else 0) = count q n + (if p t then 1 else 0) := by
  induction n with
  | zero => exact absurd ht (Nat.not_lt_zero t)
  | succ n ih =>
    rw [count_succ, count_succ]
    by_cases htn : t = n
    · -- `t` is the last point counted: below it the two counts agree
      subst htn
      have hbelow : count p t = count q t :=
        count_eq_of_agree fun u hu => h u (Nat.lt_succ_of_lt hu) (Nat.ne_of_lt hu)
      rw [hbelow]
      omega
    · -- `t` is below `n`, where the two predicates agree
      have hrest := ih (by omega) fun u hu hut => h u (Nat.lt_succ_of_lt hu) hut
      have hn : p n ↔ q n := h n (Nat.lt_succ_self n) (Ne.symm htn)
      by_cases hpn : p n
      · rw [if_pos hpn, if_pos (hn.mp hpn)]
        omega
      · rw [if_neg hpn, if_neg (mt hn.mpr hpn)]
        omega

theorem count_pos_of_lt {n t : ℕ} (ht : t < n) (hp : p t) : 0 < count p n :=
  Nat.pos_of_ne_zero (count_ne_iff_exists.mpr ⟨t, ht, hp⟩)

end Nat
