import Mathlib.Data.List.Chain
import Mathlib.Data.List.Nodup

/-!
Doubly linked chains in a heap of link cells. Each cell holds a `prev` and a `next` pointer,
`none` standing for a null pointer; a list of cells is linked when each cell's `next` is the
cell after it and that cell's `prev` is it.

* `Link`, `setNext`, `setPrev`: cells and the two writes, with their read-back simp lemmas;
* `Adj`, `Linked`: two cells linked both ways, and a chain of such pairs;
* `linked_congr`: a chain reads only the `next` of its cells but the last and the `prev` of its
  cells but the first;
* `flipLinks`, `linked_reverse_flipLinks`: with every cell's links exchanged, a chain read
  backwards is linked;
* `unlinkRun`, `linked_unlinkRun`: joining the two cells around a run leaves the chain without
  the run, and the run still linked inside;
* `linkRun`, `linked_linkRun`: linking a run between two adjacent cells puts it between them.
-/

namespace DLink

/-- A cell's two links; `none` is a null pointer. -/
structure Link (ν : Type) where
  prev : Option ν
  next : Option ν
  deriving DecidableEq, Repr

variable {ν : Type}

/-- `a->next == b` and `b->prev == a`. -/
def Adj (m : ν → Link ν) (a b : ν) : Prop := (m a).next = some b ∧ (m b).prev = some a

/-- Each cell of `l` is linked both ways to the cell after it. -/
def Linked (m : ν → Link ν) (l : List ν) : Prop := l.IsChain (Adj m)

section Linked

variable {m m' : ν → Link ν}

@[simp] lemma linked_nil : Linked m [] := List.IsChain.nil

@[simp] lemma linked_singleton (a : ν) : Linked m [a] := List.IsChain.singleton a

lemma linked_cons_cons {a b : ν} {l : List ν} :
    Linked m (a :: b :: l) ↔ Adj m a b ∧ Linked m (b :: l) :=
  List.isChain_cons_cons

lemma linked_split {c : ν} {l₁ l₂ : List ν} :
    Linked m (l₁ ++ c :: l₂) ↔ Linked m (l₁ ++ [c]) ∧ Linked m (c :: l₂) :=
  List.isChain_split

lemma linked_append_cons_cons {b c : ν} {l₁ l₂ : List ν} :
    Linked m (l₁ ++ b :: c :: l₂) ↔ Linked m (l₁ ++ [b]) ∧ Adj m b c ∧ Linked m (c :: l₂) :=
  List.isChain_append_cons_cons

lemma Linked.segment {l l' : List ν} (h : Linked m l) (hl : l' <:+: l) : Linked m l' :=
  List.IsChain.infix h hl

/-- A chain reads the `next` of its cells but the last and the `prev` of its cells but the first:
a heap that agrees there has the same chain. -/
theorem linked_congr :
    ∀ {l : List ν}, (∀ a ∈ l.dropLast, (m' a).next = (m a).next) →
      (∀ b ∈ l.tail, (m' b).prev = (m b).prev) → (Linked m' l ↔ Linked m l)
  | [], _, _ => by simp
  | [_], _, _ => by simp
  | a :: b :: l, hn, hp => by
    have ih := linked_congr (l := b :: l)
      (fun x hx => hn x (by rw [List.dropLast_cons_cons]; exact List.mem_cons_of_mem a hx))
      (fun y hy => hp y (List.mem_of_mem_tail hy))
    rw [linked_cons_cons, linked_cons_cons, ih, Adj, Adj, hn a (by simp), hp b (by simp)]

/-- A heap that agrees on every cell of a chain has the same chain. -/
lemma linked_congr_of_eq {l : List ν} (h : ∀ a ∈ l, m' a = m a) : Linked m' l ↔ Linked m l :=
  linked_congr (fun a ha => by rw [h a (List.dropLast_subset l ha)])
    (fun b hb => by rw [h b (List.mem_of_mem_tail hb)])

lemma linked_append {l₁ l₂ : List ν} :
    Linked m (l₁ ++ l₂) ↔
      Linked m l₁ ∧ Linked m l₂ ∧ ∀ a ∈ l₁.getLast?, ∀ b ∈ l₂.head?, Adj m a b :=
  List.isChain_append

/-- Every cell with its two links exchanged. -/
def flipLinks (m : ν → Link ν) : ν → Link ν := fun a => ⟨(m a).next, (m a).prev⟩

/-- A chain read backwards through the exchanged links is the chain reversed. -/
theorem linked_reverse_flipLinks {l : List ν} : Linked (flipLinks m) l.reverse ↔ Linked m l := by
  unfold Linked
  rw [List.isChain_reverse]
  exact List.IsChain.iff fun a b => ⟨fun h => ⟨h.2, h.1⟩, fun h => ⟨h.2, h.1⟩⟩

/-- The first cell of a run without repeats is not among the cells after it. -/
lemma head_not_mem_tail {R : List ν} {x : ν} (hnd : R.Nodup) (hx : R.head? = some x) :
    x ∉ R.tail := by
  obtain ⟨R₁, rfl⟩ := List.head?_eq_some_iff.mp hx
  exact (List.nodup_cons.mp hnd).1

/-- The last cell of a run without repeats is not among the cells before it. -/
lemma getLast_not_mem_dropLast {R : List ν} {x : ν} (hnd : R.Nodup) (hx : R.getLast? = some x) :
    x ∉ R.dropLast := by
  obtain ⟨R₂, rfl⟩ := List.getLast?_eq_some_iff.mp hx
  rw [List.dropLast_concat]
  exact fun h => (List.nodup_append.mp hnd).2.2 x h x (List.mem_singleton_self x) rfl

end Linked

variable [DecidableEq ν]

/-- `a->next = v`. -/
def setNext (m : ν → Link ν) (a : ν) (v : Option ν) : ν → Link ν :=
  Function.update m a { m a with next := v }

/-- `a->prev = v`. -/
def setPrev (m : ν → Link ν) (a : ν) (v : Option ν) : ν → Link ν :=
  Function.update m a { m a with prev := v }

section Writes

variable (m : ν → Link ν) (a b : ν) (v : Option ν)

@[simp] lemma setNext_next : (setNext m a v b).next = if b = a then v else (m b).next := by
  by_cases h : b = a
  · subst h
    simp [setNext]
  · simp [setNext, h]

@[simp] lemma setNext_prev : (setNext m a v b).prev = (m b).prev := by
  by_cases h : b = a
  · subst h
    simp [setNext]
  · simp [setNext, h]

@[simp] lemma setPrev_prev : (setPrev m a v b).prev = if b = a then v else (m b).prev := by
  by_cases h : b = a
  · subst h
    simp [setPrev]
  · simp [setPrev, h]

@[simp] lemma setPrev_next : (setPrev m a v b).next = (m b).next := by
  by_cases h : b = a
  · subst h
    simp [setPrev]
  · simp [setPrev, h]

lemma setNext_of_ne {a b : ν} (h : b ≠ a) : setNext m a v b = m b := by
  simp [setNext, h]

lemma setPrev_of_ne {a b : ν} (h : b ≠ a) : setPrev m a v b = m b := by
  simp [setPrev, h]

end Writes

/-! ### Taking a run out and putting one in -/

/-- Join `p` and `n`, the cells around a run: `p->next = n; n->prev = p`. -/
def unlinkRun (m : ν → Link ν) (p n : ν) : ν → Link ν :=
  setPrev (setNext m p (some n)) n (some p)

/-- Link the run from `first` to `last` between `p` and `b`, in the order `list_insert` and
`list_splice` write: `first->prev = p; last->next = b; p->next = first; b->prev = last`. -/
def linkRun (m : ν → Link ν) (p b first last : ν) : ν → Link ν :=
  setPrev (setNext (setNext (setPrev m first (some p)) last (some b)) p (some first)) b (some last)

lemma unlinkRun_of_ne (m : ν → Link ν) {p n a : ν} (hp : a ≠ p) (hn : a ≠ n) :
    unlinkRun m p n a = m a := by
  rw [unlinkRun, setPrev_of_ne _ _ hn, setNext_of_ne _ _ hp]

lemma linkRun_of_ne (m : ν → Link ν) {p b first last a : ν} (hp : a ≠ p) (hb : a ≠ b)
    (hf : a ≠ first) (hl : a ≠ last) : linkRun m p b first last a = m a := by
  rw [linkRun, setPrev_of_ne _ _ hb, setNext_of_ne _ _ hp, setNext_of_ne _ _ hl,
    setPrev_of_ne _ _ hf]

variable {m : ν → Link ν}

/-- Joining the cells around a run `R` leaves the chain without `R`, and `R` linked. -/
theorem linked_unlinkRun {A R B : List ν} {p n : ν}
    (hl : Linked m (A ++ p :: (R ++ n :: B))) (hnd : (A ++ p :: (R ++ n :: B)).Nodup) :
    Linked (unlinkRun m p n) (A ++ p :: n :: B) ∧ Linked (unlinkRun m p n) R := by
  simp only [List.nodup_append, List.nodup_cons, List.mem_append, List.mem_cons, not_or] at hnd
  obtain ⟨-, ⟨⟨hpR, hpn, hpB⟩, -, ⟨hnB, -⟩, hRn⟩, hA⟩ := hnd
  have hpA : p ∉ A := fun h => hA p h p (.inl rfl) rfl
  have hnA : n ∉ A := fun h => hA n h n (.inr (.inr (.inl rfl))) rfl
  have hnR : n ∉ R := fun h => hRn n h n (.inl rfl) rfl
  -- the chain up to `p`, the run with its two neighbours, and the chain from `n`
  obtain ⟨hleft, hrest⟩ := linked_split.mp hl
  rw [← List.cons_append] at hrest
  obtain ⟨hmid, hright⟩ := linked_split.mp hrest
  have hR : Linked m R := hmid.segment ⟨[p], [n], by simp⟩
  refine ⟨linked_append_cons_cons.mpr ⟨?_, ?_, ?_⟩, ?_⟩
  · refine (linked_congr (fun a ha => ?_) (fun b hb => ?_)).mpr hleft
    · rw [List.dropLast_concat] at ha
      simp [unlinkRun, ne_of_mem_of_not_mem ha hpA]
    · have hb' : b ∈ A ++ [p] := List.mem_of_mem_tail hb
      have hbn : b ≠ n := by
        rintro rfl
        simp only [List.mem_append, List.mem_singleton] at hb'
        exact hb'.elim hnA (fun h => hpn h.symm)
      simp [unlinkRun, hbn]
  · simp [Adj, unlinkRun]
  · refine (linked_congr (fun a ha => ?_) (fun b hb => ?_)).mpr hright
    · have hap : a ≠ p := by
        rintro rfl
        exact (List.mem_cons.mp (List.dropLast_subset _ ha)).elim hpn hpB
      simp [unlinkRun, hap]
    · have hbn : b ≠ n := ne_of_mem_of_not_mem hb hnB
      simp [unlinkRun, hbn]
  · exact (linked_congr_of_eq fun a ha =>
      unlinkRun_of_ne m (ne_of_mem_of_not_mem ha hpR) (ne_of_mem_of_not_mem ha hnR)).mpr hR

/-- Linking a linked run `R`, from `first` to `last`, between the adjacent cells `p` and `b`
puts it between them. -/
theorem linked_linkRun {C R D : List ν} {p b first last : ν}
    (hfirst : R.head? = some first) (hlast : R.getLast? = some last)
    (hl : Linked m (C ++ p :: b :: D)) (hR : Linked m R) (hnd : (C ++ p :: (R ++ b :: D)).Nodup) :
    Linked (linkRun m p b first last) (C ++ p :: (R ++ b :: D)) := by
  simp only [List.nodup_append, List.nodup_cons, List.mem_append, List.mem_cons, not_or] at hnd
  obtain ⟨-, ⟨⟨hpR, hpb, hpD⟩, hRnd, ⟨hbD, -⟩, hRbD⟩, hC⟩ := hnd
  have hfR : first ∈ R := List.mem_of_mem_head? hfirst
  have hlR : last ∈ R := List.mem_of_getLast? hlast
  have hbR : b ∉ R := fun h => hRbD b h b (.inl rfl) rfl
  have hCne : ∀ a ∈ C, a ≠ p ∧ a ≠ b ∧ a ≠ first ∧ a ≠ last := fun a ha =>
    ⟨hC a ha p (.inl rfl), hC a ha b (.inr (.inr (.inl rfl))), hC a ha first (.inr (.inl hfR)),
      hC a ha last (.inr (.inl hlR))⟩
  obtain ⟨hleft, -, hright⟩ := linked_append_cons_cons.mp hl
  obtain ⟨R₁, rfl⟩ := List.head?_eq_some_iff.mp hfirst
  rw [linked_split, List.cons_append, linked_cons_cons]
  refine ⟨?_, ?_, ?_⟩
  · -- the chain up to `p` keeps its links: only `p`'s `next` changes
    refine (linked_congr (fun a ha => ?_) (fun c hc => ?_)).mpr hleft
    · rw [List.dropLast_concat] at ha
      simp [linkRun, (hCne a ha).1, (hCne a ha).2.2.2]
    · have hc' : c ∈ C ++ [p] := List.mem_of_mem_tail hc
      simp only [List.mem_append, List.mem_singleton] at hc'
      have hcf : c ≠ first ∧ c ≠ b := by
        rcases hc' with hc' | rfl
        · exact ⟨(hCne c hc').2.2.1, (hCne c hc').2.1⟩
        · exact ⟨fun h => hpR (h ▸ hfR), hpb⟩
      simp [linkRun, hcf.1, hcf.2]
  · have hfb : first ≠ b := fun h => hbR (h ▸ hfR)
    simp [Adj, linkRun, hfb]
  rw [← List.cons_append]
  refine List.IsChain.append ?_ ?_ ?_
  · -- inside the run only the two ends change, and only outward
    refine (linked_congr (fun a ha => ?_) (fun c hc => ?_)).mpr hR
    · have hal : a ≠ last := ne_of_mem_of_not_mem ha (getLast_not_mem_dropLast hRnd hlast)
      have hap : a ≠ p := ne_of_mem_of_not_mem (List.dropLast_subset _ ha) hpR
      simp [linkRun, hal, hap]
    · have hcf : c ≠ first := ne_of_mem_of_not_mem hc (head_not_mem_tail hRnd hfirst)
      have hcb : c ≠ b := ne_of_mem_of_not_mem (List.mem_of_mem_tail hc) hbR
      simp [linkRun, hcf, hcb]
  · -- after `b` nothing changes but `b`'s `prev`
    refine (linked_congr (fun a ha => ?_) (fun c hc => ?_)).mpr hright
    · have ha' := List.dropLast_subset _ ha
      have hal : a ≠ last := fun h => (List.mem_cons.mp ha').elim
        (fun h' => hbR (h' ▸ h ▸ hlR)) (fun h' => hRbD last hlR a (.inr h') h.symm)
      have hap : a ≠ p := fun h => (List.mem_cons.mp ha').elim
        (fun h' => hpb (h.symm.trans h')) (fun h' => hpD (h ▸ h'))
      simp [linkRun, hal, hap]
    · have hcf : c ≠ first := fun h => hRbD first hfR c (.inr hc) h.symm
      have hcb : c ≠ b := ne_of_mem_of_not_mem hc hbD
      simp [linkRun, hcf, hcb]
  · intro x hx y hy
    obtain rfl : x = last := Option.some.inj ((Option.mem_def.mp hx).symm.trans hlast)
    obtain rfl : b = y := by simpa using hy
    have hlp : x ≠ p := fun h => hpR (h ▸ hlR)
    simp [Adj, linkRun, hlp]

end DLink
