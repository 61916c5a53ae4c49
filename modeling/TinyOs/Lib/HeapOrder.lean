import Mathlib.Logic.Equiv.Basic
import Mathlib.Algebra.Group.End
import Mathlib.Data.Nat.Init
import Mathlib.Data.List.Nodup

/-!
Heaps and sorted runs over the positions `1, 2, …` of an array, under a `strcmp`-style
comparison: `cmp a b` is negative, zero or positive as `a` comes before, level with or after `b`.
An array is a function from positions to entries; the children of position `p` are `2p` and
`2p + 1`, and its parent is `p / 2`.

* `CmpOrder cmp`: `cmp` compares by a total preorder. `CmpOrder.le_refl`, `le_of_pos`,
  `pos_trans`, `neg_of_neg_of_le` and `neg_of_le_of_neg` are the order facts a sort and a search
  use; `natCmp_order`: natural numbers compared by their difference.
* `HeapFrom cmp b lo hi`: every parent from `lo` on is at or after its children up to `hi`.
  `HeapFrom.le_root`: the root of a heap from `1` is at or after every entry.
* `SiftOrder cmp b lo hi j`: a heap from `lo` but at the hole `j`, whose children are at or
  before the hole's parent: what each step of a sift-down keeps. `SiftOrder.start` is its
  start, `SiftOrder.swap` a step and `SiftOrder.finish` its end.
* `SortedOn cmp b lo hi`: `b` is nondecreasing on `[lo, hi]`; `SortedOn.le` for two positions in
  order. `PartedAt cmp b i hi`: the entries up to `i` are at or before those after it.
  `PartedAt.extract`: a round of the second phase of a heap sort, the root of the heap swapped
  behind it, makes the sorted part one longer.
* `PermOn lo hi b b'`: `b'` holds the entries of `b` at `[lo, hi]` in another order and the
  others in place. `PermOn.swap`, `PermOn.trans`, `PermOn.eq_of_out` (the frame),
  `PermOn.exists_eq` and `PermOn.perm` (the entries at `[lo, hi]` as a list are permuted).
* `AgreeOn lo hi b₁ b₂`: the arrays have the same entries at `[lo, hi]`; what is kept when two
  arrays are run through the same swaps (`AgreeOn.swap`).
-/

namespace HeapOrder

variable {α : Type}

/-- `cmp` is a `strcmp`-style comparison by a total preorder: `a` is after `b` exactly when `b`
is before `a`, and "at or before" is transitive. -/
structure CmpOrder (cmp : α → α → ℤ) : Prop where
  pos_iff_neg : ∀ a b, 0 < cmp a b ↔ cmp b a < 0
  le_trans : ∀ a b c, cmp a b ≤ 0 → cmp b c ≤ 0 → cmp a c ≤ 0

namespace CmpOrder

variable {cmp : α → α → ℤ} (h : CmpOrder cmp)
include h

lemma le_refl (a : α) : cmp a a ≤ 0 := by
  have := h.pos_iff_neg a a
  omega

/-- An entry after another is not before it. -/
lemma le_of_pos {a b : α} (hab : 0 < cmp a b) : cmp b a ≤ 0 :=
  Int.le_of_lt ((h.pos_iff_neg a b).mp hab)

/-- An entry that is not before another is at or after it. -/
lemma le_of_not_neg {a b : α} (hab : ¬ cmp a b < 0) : cmp b a ≤ 0 := by
  have := h.pos_iff_neg b a
  omega

lemma neg_of_neg_of_le {a b c : α} (hab : cmp a b < 0) (hbc : cmp b c ≤ 0) : cmp a c < 0 := by
  by_contra hac
  have hba : cmp b a ≤ 0 := h.le_trans _ _ _ hbc (h.le_of_not_neg hac)
  have := h.pos_iff_neg b a
  omega

lemma neg_of_le_of_neg {a b c : α} (hab : cmp a b ≤ 0) (hbc : cmp b c < 0) : cmp a c < 0 := by
  by_contra hac
  have hcb : cmp c b ≤ 0 := h.le_trans _ _ _ (h.le_of_not_neg hac) hab
  have := h.pos_iff_neg c b
  omega

lemma pos_trans {a b c : α} (hab : 0 < cmp a b) (hbc : 0 < cmp b c) : 0 < cmp a c := by
  have hcb : cmp c b < 0 := (h.pos_iff_neg b c).mp hbc
  exact (h.pos_iff_neg a c).mpr (h.neg_of_neg_of_le hcb (h.le_of_pos hab))

end CmpOrder

/-- Natural numbers compared by their difference. -/
def natCmp (a b : ℕ) : ℤ := (a : ℤ) - b

lemma natCmp_order : CmpOrder natCmp where
  pos_iff_neg a b := by
    unfold natCmp
    omega
  le_trans a b c := by
    unfold natCmp
    omega

variable (cmp : α → α → ℤ)

/-! ### Heaps -/

/-- Every parent from `lo` on is at or after its children up to `hi`. -/
def HeapFrom (b : ℕ → α) (lo hi : ℕ) : Prop :=
  ∀ c, 2 ≤ c → c ≤ hi → lo ≤ c / 2 → cmp (b c) (b (c / 2)) ≤ 0

/-- A heap from `lo` to `hi` but at the hole `j`: the pairs whose parent is not `j` are in order,
and, when `j` has a parent from `lo` on, the children of `j` are at or before that parent. -/
structure SiftOrder (b : ℕ → α) (lo hi j : ℕ) : Prop where
  except : ∀ c, 2 ≤ c → c ≤ hi → lo ≤ c / 2 → c / 2 ≠ j → cmp (b c) (b (c / 2)) ≤ 0
  grand : lo < j → ∀ c, 2 ≤ c → c ≤ hi → c / 2 = j → cmp (b c) (b (j / 2)) ≤ 0

/-- The entries at `[lo, hi]` are in nondecreasing order. -/
def SortedOn (b : ℕ → α) (lo hi : ℕ) : Prop :=
  ∀ k, lo ≤ k → k < hi → cmp (b k) (b (k + 1)) ≤ 0

/-- Every entry at `[1, i]` is at or before every entry at `[i + 1, hi]`. -/
def PartedAt (b : ℕ → α) (i hi : ℕ) : Prop :=
  ∀ k l, 1 ≤ k → k ≤ i → i < l → l ≤ hi → cmp (b k) (b l) ≤ 0

variable {cmp}

lemma heapFrom_of_half_lt {b : ℕ → α} {lo hi : ℕ} (h : hi / 2 < lo) : HeapFrom cmp b lo hi := by
  intro c _ hc hlo
  have : c / 2 ≤ hi / 2 := Nat.div_le_div_right hc
  omega

lemma HeapFrom.mono {b : ℕ → α} {lo hi lo' hi' : ℕ} (hb : HeapFrom cmp b lo hi) (hlo : lo ≤ lo')
    (hhi : hi' ≤ hi) : HeapFrom cmp b lo' hi' :=
  fun c h2 hc hc2 => hb c h2 (by omega) (by omega)

/-- A heap keeps its order where no entry it reads has changed. -/
lemma HeapFrom.congr {b b' : ℕ → α} {lo hi : ℕ} (hb : HeapFrom cmp b lo hi)
    (hbb : ∀ k, lo ≤ k → k ≤ hi → b' k = b k) : HeapFrom cmp b' lo hi := by
  intro c h2 hc hlo
  have hhalf : c / 2 ≤ c := Nat.div_le_self c 2
  rw [hbb c (by omega) hc, hbb (c / 2) hlo (by omega)]
  exact hb c h2 hc hlo

/-- A hole at `lo` over a heap from `lo + 1` is where a sift-down starts. -/
lemma SiftOrder.start {b : ℕ → α} {lo hi : ℕ} (hb : HeapFrom cmp b (lo + 1) hi) :
    SiftOrder cmp b lo hi lo where
  except c h2 hc hlo hne := hb c h2 hc (by omega)
  grand hlt := absurd hlt (Nat.lt_irrefl lo)

/-- A sift-down ends when the children of the hole are at or before it. -/
lemma SiftOrder.finish {b : ℕ → α} {lo hi j : ℕ} (hs : SiftOrder cmp b lo hi j)
    (hstop : ∀ c, 2 ≤ c → c ≤ hi → c / 2 = j → cmp (b c) (b j) ≤ 0) : HeapFrom cmp b lo hi := by
  intro c h2 hc hlo
  by_cases hcj : c / 2 = j
  · rw [hcj]
    exact hstop c h2 hc hcj
  · exact hs.except c h2 hc hlo hcj

/-- Swapping the root of a heap with its last entry leaves a heap from `2` on the entries before
that one. -/
lemma HeapFrom.swap_root {b : ℕ → α} {n : ℕ} (hb : HeapFrom cmp b 1 (n + 1)) :
    HeapFrom cmp (b ∘ Equiv.swap 1 (n + 1)) 2 n :=
  (hb.mono (by omega) (by omega)).congr fun k hk hkn => by
    simp [Equiv.swap_apply_of_ne_of_ne (show k ≠ 1 by omega) (show k ≠ n + 1 by omega)]

/-- A sorted part from `i + 1` with every entry before it at or before it is sorted from `i`. -/
lemma SortedOn.of_parted {b : ℕ → α} {i hi : ℕ} (hi1 : 1 ≤ i) (hs : SortedOn cmp b (i + 1) hi)
    (hp : PartedAt cmp b i hi) : SortedOn cmp b i hi := by
  intro k hk hkhi
  rcases (show k = i ∨ i + 1 ≤ k by omega) with rfl | hlt
  · exact hp k (k + 1) hi1 le_rfl (by omega) hkhi
  · exact hs k hlt hkhi

section Order

variable (hcmp : CmpOrder cmp)
include hcmp

/-- The root of a heap from `1` is at or after every entry up to `hi`; by strong induction on the
position, through its parent. -/
lemma HeapFrom.le_root {b : ℕ → α} {hi : ℕ} (hb : HeapFrom cmp b 1 hi) :
    ∀ k, 1 ≤ k → k ≤ hi → cmp (b k) (b 1) ≤ 0 := by
  intro k
  induction k using Nat.strong_induction_on with
  | _ k ih =>
    intro hk1 hk
    rcases (show k = 1 ∨ 2 ≤ k by omega) with rfl | h2
    · exact hcmp.le_refl _
    · have hup : cmp (b (k / 2)) (b 1) ≤ 0 := ih (k / 2) (by omega) (by omega) (by omega)
      exact hcmp.le_trans _ _ _ (hb k h2 hk (by omega)) hup

/-- Sorted entries are in order at any two positions in order. -/
lemma SortedOn.le {b : ℕ → α} {lo hi : ℕ} (hb : SortedOn cmp b lo hi) {k l : ℕ} (hk : lo ≤ k)
    (hkl : k ≤ l) (hl : l ≤ hi) : cmp (b k) (b l) ≤ 0 := by
  induction l, hkl using Nat.le_induction with
  | base => exact hcmp.le_refl _
  | succ l hkl ih => exact hcmp.le_trans _ _ _ (ih (by omega)) (hb l (by omega) (by omega))

/-- One step of a sift-down: the hole `j` swaps with its child `m` that is after it and at or
after each of its children, and the hole moves to `m`. -/
lemma SiftOrder.swap {b : ℕ → α} {lo hi j m : ℕ} (hs : SiftOrder cmp b lo hi j) (hlo : lo ≤ j)
    (hj : 1 ≤ j) (hm : m / 2 = j) (hmhi : m ≤ hi) (hafter : 0 < cmp (b m) (b j))
    (hmax : ∀ c, 2 ≤ c → c ≤ hi → c / 2 = j → cmp (b c) (b m) ≤ 0) :
    SiftOrder cmp (b ∘ Equiv.swap j m) lo hi m := by
  have hjm : j < m := by omega
  -- an entry other than `j` and `m` is where it was
  have hsame : ∀ k, k ≠ j → k ≠ m → (b ∘ Equiv.swap j m) k = b k := fun k hkj hkm => by
    simp [Equiv.swap_apply_of_ne_of_ne hkj hkm]
  constructor
  · intro c h2 hc hlo' hne
    by_cases hcj : c / 2 = j
    · -- `c` is a child of the hole: `m` itself, or its sibling
      rw [hcj]
      by_cases hcm : c = m
      · subst hcm
        simpa using hcmp.le_of_pos hafter
      · rw [hsame c (by omega) hcm]
        simpa using hmax c h2 hc hcj
    · by_cases hcj' : c = j
      · -- the hole itself, now holding `b m`, below its parent
        subst hcj'
        rw [hsame (c / 2) hcj (by omega)]
        simpa using hs.grand (by omega) m (by omega) hmhi hm
      · rw [hsame c hcj' (by omega), hsame (c / 2) hcj hne]
        exact hs.except c h2 hc hlo' hcj
  · intro _ c h2 hc hcm
    have hc' := hs.except c h2 hc (by omega) (by omega)
    rw [hcm] at hc'
    rw [hm, hsame c (by omega) (by omega)]
    simpa using hc'

end Order

/-! ### Permutations of a range of positions -/

/-- `b'` is `b` with the entries at `[lo, hi]` permuted and the others in place. -/
def PermOn (lo hi : ℕ) (b b' : ℕ → α) : Prop :=
  ∃ σ : Equiv.Perm ℕ, (∀ k, k < lo ∨ hi < k → σ k = k) ∧ b' = b ∘ σ

lemma PermOn.refl (lo hi : ℕ) (b : ℕ → α) : PermOn lo hi b b :=
  ⟨1, fun _ _ => rfl, rfl⟩

lemma PermOn.trans {lo hi : ℕ} {b b' b'' : ℕ → α} (h₁ : PermOn lo hi b b')
    (h₂ : PermOn lo hi b' b'') : PermOn lo hi b b'' := by
  obtain ⟨σ, hσ, rfl⟩ := h₁
  obtain ⟨τ, hτ, rfl⟩ := h₂
  refine ⟨σ * τ, fun k hk => ?_, rfl⟩
  rw [Equiv.Perm.mul_apply, hτ k hk, hσ k hk]

lemma PermOn.mono {lo hi lo' hi' : ℕ} {b b' : ℕ → α} (h : PermOn lo hi b b') (hlo : lo' ≤ lo)
    (hhi : hi ≤ hi') : PermOn lo' hi' b b' := by
  obtain ⟨σ, hσ, rfl⟩ := h
  exact ⟨σ, fun k hk => hσ k (by omega), rfl⟩

lemma PermOn.swap {lo hi a c : ℕ} (ha : lo ≤ a ∧ a ≤ hi) (hc : lo ≤ c ∧ c ≤ hi) (b : ℕ → α) :
    PermOn lo hi b (b ∘ Equiv.swap a c) :=
  ⟨Equiv.swap a c, fun k hk => Equiv.swap_apply_of_ne_of_ne (by omega) (by omega), rfl⟩

/-- The frame: entries outside `[lo, hi]` stay. -/
lemma PermOn.eq_of_out {lo hi : ℕ} {b b' : ℕ → α} (h : PermOn lo hi b b') {k : ℕ}
    (hk : k < lo ∨ hi < k) : b' k = b k := by
  obtain ⟨σ, hσ, rfl⟩ := h
  simp [hσ k hk]

/-- A permutation fixing the positions outside `[lo, hi]` maps `[lo, hi]` into itself. -/
lemma perm_mem_of_fix {lo hi : ℕ} {σ : Equiv.Perm ℕ} (hσ : ∀ k, k < lo ∨ hi < k → σ k = k)
    {k : ℕ} (hk : lo ≤ k ∧ k ≤ hi) : lo ≤ σ k ∧ σ k ≤ hi := by
  by_contra hout
  have hfix : σ (σ k) = σ k := hσ (σ k) (by omega)
  have : σ k = k := σ.injective hfix
  omega

/-- Each entry at `[lo, hi]` after the permutation was at `[lo, hi]` before. -/
lemma PermOn.exists_eq {lo hi : ℕ} {b b' : ℕ → α} (h : PermOn lo hi b b') {k : ℕ}
    (hk : lo ≤ k ∧ k ≤ hi) : ∃ j, (lo ≤ j ∧ j ≤ hi) ∧ b' k = b j := by
  obtain ⟨σ, hσ, rfl⟩ := h
  exact ⟨σ k, perm_mem_of_fix hσ hk, rfl⟩

/-- The entries at `[lo, hi]`, read in order, are a permutation of those before. -/
lemma PermOn.perm {lo hi : ℕ} {b b' : ℕ → α} (h : PermOn lo hi b b') :
    ((List.range' lo (hi + 1 - lo)).map b').Perm ((List.range' lo (hi + 1 - lo)).map b) := by
  obtain ⟨σ, hσ, rfl⟩ := h
  have hσ' : ∀ k, k < lo ∨ hi < k → σ.symm k = k := fun k hk => by
    rw [Equiv.symm_apply_eq, hσ k hk]
  -- `σ` permutes the list of positions, which are distinct
  have hpos : ((List.range' lo (hi + 1 - lo)).map σ).Perm (List.range' lo (hi + 1 - lo)) := by
    rw [List.perm_ext_iff_of_nodup (List.Nodup.map σ.injective (List.nodup_range' ..))
      (List.nodup_range' ..)]
    intro k
    simp only [List.mem_map, List.mem_range'_1]
    constructor
    · rintro ⟨j, hj, rfl⟩
      have := perm_mem_of_fix hσ (k := j) (by omega)
      omega
    · intro hk
      have := perm_mem_of_fix hσ' (k := k) (by omega)
      exact ⟨σ.symm k, by omega, σ.apply_symm_apply k⟩
  rw [← List.map_map]
  exact hpos.map b

/-! ### Arrays that agree on a range -/

/-- `b₁` and `b₂` have the same entries at `[lo, hi]`. -/
def AgreeOn (lo hi : ℕ) (b₁ b₂ : ℕ → α) : Prop :=
  ∀ k, lo ≤ k → k ≤ hi → b₁ k = b₂ k

lemma AgreeOn.swap {lo hi a c : ℕ} {b₁ b₂ : ℕ → α} (h : AgreeOn lo hi b₁ b₂)
    (ha : lo ≤ a ∧ a ≤ hi) (hc : lo ≤ c ∧ c ≤ hi) :
    AgreeOn lo hi (b₁ ∘ Equiv.swap a c) (b₂ ∘ Equiv.swap a c) := by
  intro k hlo hhi
  have hσ : ∀ k, k < lo ∨ hi < k → Equiv.swap a c k = k :=
    fun k hk => Equiv.swap_apply_of_ne_of_ne (by omega) (by omega)
  have := perm_mem_of_fix hσ (k := k) ⟨hlo, hhi⟩
  exact h _ this.1 this.2

/-! ### The second phase of a heap sort -/

section Extract

variable (hcmp : CmpOrder cmp)
include hcmp

/-- A round of the second phase of a heap sort: the root of a heap at `[1, i + 1]` swapped to
`i + 1`, and the rest made a heap again by a permutation of `[1, i]`, leave the sorted part one
longer, from `i + 1`, with every entry before it at or before it. -/
lemma PartedAt.extract {b b' : ℕ → α} {i hi : ℕ} (hheap : HeapFrom cmp b 1 (i + 1))
    (hsorted : SortedOn cmp b (i + 2) hi) (hpart : PartedAt cmp b (i + 1) hi)
    (hperm : PermOn 1 i (b ∘ Equiv.swap 1 (i + 1)) b') :
    SortedOn cmp b' (i + 1) hi ∧ PartedAt cmp b' i hi := by
  -- from `i + 1` on, `b'` is `b` with the root moved to `i + 1`
  have htop : b' (i + 1) = b 1 := by
    rw [hperm.eq_of_out (by omega)]
    simp
  have hrest : ∀ l, i + 1 < l → b' l = b l := fun l hl => by
    rw [hperm.eq_of_out (by omega)]
    simp [Equiv.swap_apply_of_ne_of_ne (show l ≠ 1 by omega) (show l ≠ i + 1 by omega)]
  -- and each entry it holds before is one of the heap's, so at or before the root
  have hbelow : ∀ k, 1 ≤ k → k ≤ i → cmp (b' k) (b 1) ≤ 0 := fun k hk1 hki => by
    obtain ⟨j, hj, hbj⟩ := hperm.exists_eq ⟨hk1, hki⟩
    have hfix : ∀ k, k < 1 ∨ i + 1 < k → Equiv.swap 1 (i + 1) k = k :=
      fun k hk => Equiv.swap_apply_of_ne_of_ne (by omega) (by omega)
    have hσ := perm_mem_of_fix hfix (k := j) (by omega)
    rw [hbj, Function.comp_apply]
    exact hheap.le_root hcmp _ hσ.1 hσ.2
  constructor
  · intro k hk hkhi
    rcases (show k = i + 1 ∨ i + 1 < k by omega) with rfl | hlt
    · rw [htop, hrest (i + 2) (by omega)]
      exact hpart 1 (i + 2) le_rfl (by omega) (by omega) (by omega)
    · rw [hrest k hlt, hrest (k + 1) (by omega)]
      exact hsorted k (by omega) hkhi
  · intro k l hk1 hki hil hl
    rcases (show l = i + 1 ∨ i + 1 < l by omega) with rfl | hlt
    · rw [htop]
      exact hbelow k hk1 hki
    · rw [hrest l hlt]
      exact hcmp.le_trans _ _ _ (hbelow k hk1 hki) (hpart 1 l le_rfl (by omega) (by omega) hl)

end Extract

end HeapOrder
