import Mathlib.Data.List.Basic

/-!
Positions in a `struct list` (`lib/kernel/list.c`), read through the sequence of its elements:
a list is its elements in order between a head and a tail sentinel, and `list_begin` and
`list_next` move a cursor along it.

`list_next` of an element that is no longer linked is undefined (the comment on `list_remove`
says so), and so is `list_next` of the tail; the model returns `none` there.

* `Cursor`, `listBegin`, `listNext`: the positions and the moves;
* `listNext_mem`: `list_next` of a linked element or of the head lands on a linked element or
  on the tail; `listNext_elem_isSome_iff`: it is defined exactly on linked elements.
-/

namespace TinyOs

/-- A position in a list: its head sentinel, an element, or its tail sentinel. -/
inductive Cursor (α : Type) where
  | head
  | elem (a : α)
  | tail
  deriving DecidableEq, Repr

variable {α : Type}

/-- `list_begin`: the first element, or the tail of an empty list. -/
def listBegin : List α → Cursor α
  | [] => .tail
  | a :: _ => .elem a

/-- A cursor is on the list when it is the tail or a linked element. -/
def Cursor.OnList (l : List α) : Cursor α → Prop
  | .head => False
  | .elem a => a ∈ l
  | .tail => True

/-- A cursor is linked when it is the head or a linked element: the positions from which
`list_next` is defined and stays on the list. -/
def Cursor.Linked (l : List α) : Cursor α → Prop
  | .head => True
  | .elem a => a ∈ l
  | .tail => False

lemma listBegin_onList (l : List α) : (listBegin l).OnList l := by
  cases l with
  | nil => trivial
  | cons a l => exact List.mem_cons_self

lemma Cursor.OnList.mono {l l' : List α} (hsub : ∀ a ∈ l, a ∈ l') :
    ∀ {c : Cursor α}, c.OnList l → c.OnList l'
  | .elem a, h => hsub a h
  | .tail, _ => trivial

lemma Cursor.Linked.mono {l l' : List α} (hsub : ∀ a ∈ l, a ∈ l') :
    ∀ {c : Cursor α}, c.Linked l → c.Linked l'
  | .head, _ => trivial
  | .elem a, h => hsub a h

variable [DecidableEq α]

/-- The position after the first occurrence of `a`, or `none` when `a` is not linked. -/
def nextAfter (a : α) : List α → Option (Cursor α)
  | [] => none
  | b :: l => if b = a then some (listBegin l) else nextAfter a l

/-- `list_next`: from the head to the first element, from an element to the one behind it. -/
def listNext (l : List α) : Cursor α → Option (Cursor α)
  | .head => some (listBegin l)
  | .elem a => nextAfter a l
  | .tail => none

lemma nextAfter_onList {a : α} {l : List α} {c : Cursor α} (h : nextAfter a l = some c) :
    c.OnList l := by
  induction l with
  | nil => simp [nextAfter] at h
  | cons b l ih =>
      simp only [nextAfter] at h
      split_ifs at h
      · cases h
        exact (listBegin_onList l).mono fun x hx => List.mem_cons_of_mem b hx
      · exact (ih h).mono fun x hx => List.mem_cons_of_mem b hx

/-- `list_next` lands on a linked element or on the tail. -/
theorem listNext_mem {l : List α} {c c' : Cursor α} (h : listNext l c = some c') :
    c'.OnList l := by
  cases c with
  | head =>
      cases h
      exact listBegin_onList l
  | elem a => exact nextAfter_onList h
  | tail => cases h

lemma nextAfter_isSome_iff {a : α} {l : List α} : (nextAfter a l).isSome ↔ a ∈ l := by
  induction l with
  | nil => simp [nextAfter]
  | cons b l ih =>
      by_cases hb : b = a
      · simp [nextAfter, hb]
      · simp [nextAfter, hb, ih, Ne.symm hb]

/-- `list_next` of an element is defined exactly when the element is linked. -/
theorem listNext_elem_isSome_iff {a : α} {l : List α} :
    (listNext l (.elem a)).isSome ↔ a ∈ l :=
  nextAfter_isSome_iff

/-- In a list without repeats, the element behind `a` is not `a`. -/
lemma nextAfter_ne_self {a b : α} {l : List α} (hl : l.Nodup)
    (h : nextAfter a l = some (.elem b)) : b ≠ a := by
  induction l with
  | nil => simp [nextAfter] at h
  | cons x l ih =>
      rw [List.nodup_cons] at hl
      simp only [nextAfter] at h
      split_ifs at h with hx
      · -- `b` is the first element behind `x = a`, and `a` occurs only once
        subst hx
        have hb : (Cursor.elem b).OnList l := Option.some.inj h ▸ listBegin_onList l
        rintro rfl
        exact hl.1 hb
      · exact ih hl.2 h

/-- Behind the only occurrence of `a`, `list_next` lands on the start of what follows it. -/
lemma nextAfter_append_cons {a : α} {l₁ l₂ : List α} (ha : a ∉ l₁) :
    nextAfter a (l₁ ++ a :: l₂) = some (listBegin l₂) := by
  induction l₁ with
  | nil => simp [nextAfter]
  | cons b l₁ ih =>
      have hb : b ≠ a := fun h => ha (h ▸ List.mem_cons_self)
      rw [List.cons_append, nextAfter, if_neg hb, ih fun h => ha (List.mem_cons_of_mem b h)]

instance (l : List α) : DecidablePred (Cursor.Linked l) := fun c => by
  cases c <;> unfold Cursor.Linked <;> infer_instance

end TinyOs
