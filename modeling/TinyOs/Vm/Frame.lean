import TinyOs.Vm.State

/-!
The frame table of `vm/frame.c`: `frame_list`, the clock hand and second-chance eviction.

Every function returns `none` where the source has undefined behaviour or stops the kernel:
`list_next` through a frame no longer in the list, a failed `ASSERT`, or the clock loop of
`get_frame_for_replacement` running with no loaded frame to stop at (which it never leaves).

* `checkAndSetHand`, `advanceHand`, `handOff`: the hand idioms of the source;
* `ftGetPage`, `ftFreePage`, `ftDestroy`: taking, giving back and dropping frames;
* `getFrameForReplacement`, `ftReplacement`: choosing a victim by second chance and evicting
  it, to its file when it is a dirty mapped page and to swap when it is another dirty page.
-/

namespace TinyOs

/-- `check_and_set_hand`: off the head sentinel onto the first frame, and from the tail back
to the first frame. -/
def checkAndSetHand (ids : List ℕ) (hand : Cursor ℕ) : Cursor ℕ :=
  let hand := if hand = .head then listBegin ids else hand
  if hand = .tail then listBegin ids else hand

/-- `hand = list_next (hand); check_and_set_hand ();` -/
def advanceHand (ids : List ℕ) (hand : Cursor ℕ) : Option (Cursor ℕ) :=
  (listNext ids hand).map (checkAndSetHand ids)

@[simp] lemma checkAndSetHand_elem (ids : List ℕ) (a : ℕ) :
    checkAndSetHand ids (.elem a) = .elem a := by
  simp [checkAndSetHand]

@[simp] lemma checkAndSetHand_tail (ids : List ℕ) : checkAndSetHand ids .tail = listBegin ids := by
  simp [checkAndSetHand]

/-- From a frame of a one-frame list the hand wraps around onto the same frame. -/
lemma advanceHand_single (a : ℕ) : advanceHand [a] (.elem a) = some (.elem a) := by
  simp [advanceHand, listNext, nextAfter, listBegin]

/-- From a linked frame of a list that holds another frame, the hand moves to another linked
frame: the one behind it, or the first when it was the last. -/
lemma advanceHand_elem {ids : List ℕ} {a : ℕ} (hnd : ids.Nodup) (ha : a ∈ ids)
    (hne : ids ≠ [a]) : ∃ b ∈ ids, b ≠ a ∧ advanceHand ids (.elem a) = some (.elem b) := by
  cases ids with
  | nil => cases ha
  | cons x xs =>
      rw [List.nodup_cons] at hnd
      by_cases hx : x = a
      · -- the hand is on the first frame; the list goes on behind it
        subst hx
        cases xs with
        | nil => exact absurd rfl hne
        | cons y ys =>
            have hy : y ≠ x := fun h => hnd.1 (h ▸ List.mem_cons_self)
            exact ⟨y, by simp, hy, by simp [advanceHand, listNext, nextAfter, listBegin]⟩
      · have hxs : a ∈ xs := (List.mem_cons.mp ha).resolve_left (Ne.symm hx)
        obtain ⟨c, hc⟩ := Option.isSome_iff_exists.mp (nextAfter_isSome_iff.mpr hxs)
        have hstep : advanceHand (x :: xs) (.elem a) = some (checkAndSetHand (x :: xs) c) := by
          simp [advanceHand, listNext, nextAfter, hx, hc]
        have hon : c.OnList xs := nextAfter_onList hc
        cases c with
        | head => exact hon.elim
        | elem y =>
            exact ⟨y, List.mem_cons_of_mem x hon, nextAfter_ne_self hnd.2 hc, by simpa using hstep⟩
        | tail =>
            -- the last frame: `check_and_set_hand` wraps to the first
            exact ⟨x, List.mem_cons_self, hx, by simpa [listBegin] using hstep⟩

namespace VmState

/-- Append a fresh unloaded frame of thread `t` on pool page `p` (`malloc` of the record and
`list_push_back`). -/
def pushFrame (s : VmState) (t : Tid) (p : ℕ) : VmState :=
  { s with frameList := s.frameList ++ [⟨s.nextFrameId, t, p, none, 0, false⟩],
           nextFrameId := s.nextFrameId + 1 }

/-- The guarded advance that precedes each removal: `if (hand == &f->ft_elem) { hand =
list_next (hand); check_and_set_hand (); }`. -/
def handOff (s : VmState) (id : ℕ) : Option (Cursor ℕ) :=
  if s.hand = .elem id then advanceHand s.frameIds s.hand else some s.hand

/-- Remove frame `id` from `frame_list` after moving the hand off it (`list_remove`, `free`). -/
def unlinkFrame (s : VmState) (id : ℕ) : Option VmState :=
  (s.handOff id).map fun hand =>
    { s with frameList := s.frameList.filter (·.id ≠ id), hand := hand }

lemma unlinkFrame_eq_some {s s' : VmState} {id : ℕ} :
    s.unlinkFrame id = some s' ↔ ∃ hand, s.handOff id = some hand ∧
      s' = { s with frameList := s.frameList.filter (·.id ≠ id), hand := hand } := by
  simp [unlinkFrame, eq_comm]

lemma frameIds_filter (s : VmState) (id : ℕ) :
    (s.frameList.filter (·.id ≠ id)).map (·.id) = s.frameIds.filter (· ≠ id) := by
  simp [frameIds, List.filter_map, Function.comp_def]

/-- `*f->PTE`: the entry a frame's `PTE` field points at, `none` for an unset pointer. -/
def ptePtr (s : VmState) : Option (Tid × ℕ) → Option Pte
  | some (t, v) => s.pte t v
  | none => none

lemma handFrame_eq_some {s : VmState} {f : Frame} (h : s.handFrame = some f) :
    s.hand = .elem f.id ∧ f ∈ s.frameList := by
  unfold handFrame at h
  split at h
  · rename_i id hh
    have hid : f.id = id := by simpa using List.find?_some h
    exact ⟨hh.trans (by rw [hid]), List.mem_of_find?_eq_some h⟩
  · cases h

/-- Whether the clock passes over frame `f`: the loop's condition `(f->loaded == true &&
(*f->PTE & PTE_A) != 0) || f->loaded == false`. The entry is read only for a loaded frame,
and is `none` when its `PTE` pointer is unset. -/
def passesOver (s : VmState) (f : Frame) : Option Bool :=
  if f.loaded then (s.ptePtr f.pte).map (·.accessed) else some true

/-- The loop's body for a frame passed over: a loaded frame loses its accessed bit (its second
chance), and the hand moves on. -/
def passFrame (s : VmState) (f : Frame) : Option VmState :=
  let s := if f.loaded then s.pagedirSetAccessed f.t f.virtualAddress false else s
  (advanceHand s.frameIds s.hand).map fun hand => { s with hand := hand }

/-- The loop of `get_frame_for_replacement`, with `fuel` turns left: stop at the first frame
the clock does not pass over. -/
def clockLoop : ℕ → VmState → Option (Frame × VmState)
  | 0, _ => none
  | fuel + 1, s => do
      let f ← s.handFrame
      let pass ← s.passesOver f
      if pass then (s.passFrame f).bind (clockLoop fuel) else some (f, s)

lemma passFrame_frameList {s s' : VmState} {f : Frame} (h : s.passFrame f = some s') :
    s'.frameList = s.frameList := by
  unfold passFrame at h
  obtain ⟨hand, -, rfl⟩ := Option.map_eq_some_iff.mp h
  split_ifs <;> rfl

/-- The clock stops at a loaded frame of the list with the hand on it, and leaves the list as
it was. -/
lemma clockLoop_spec : ∀ {n : ℕ} {s s' : VmState} {f : Frame}, s.clockLoop n = some (f, s') →
    f ∈ s.frameList ∧ f.loaded ∧ s'.frameList = s.frameList ∧ s'.hand = .elem f.id
  | 0, _, _, _, h => by cases h
  | n + 1, s, s', f, h => by
      simp only [clockLoop, Option.bind_eq_bind, Option.bind_eq_some_iff] at h
      obtain ⟨g, hg, pass, hpass, h⟩ := h
      cases pass with
      | true =>
          -- passed over: the rest of the loop runs on the same list
          simp only [if_true, Option.bind_eq_some_iff] at h
          obtain ⟨s₁, h₁, h⟩ := h
          obtain ⟨hf, hl, hfl, hh⟩ := clockLoop_spec h
          rw [passFrame_frameList h₁] at hf hfl
          exact ⟨hf, hl, hfl, hh⟩
      | false =>
          simp only [Bool.false_eq_true, if_false, Option.some.injEq, Prod.mk.injEq] at h
          obtain ⟨rfl, rfl⟩ := h
          obtain ⟨hhand, hmem⟩ := handFrame_eq_some hg
          refine ⟨hmem, ?_, rfl, hhand⟩
          unfold passesOver at hpass
          split_ifs at hpass with hl
          · exact hl
          · cases hpass

/-- `get_frame_for_replacement`: second chance from the hand. Two turns of the clock suffice
whenever some frame is loaded; with none loaded the source loops forever, which the model
returns as `none`. -/
def getFrameForReplacement (s : VmState) : Option (Frame × VmState) :=
  clockLoop (2 * s.frameList.length + 1) { s with hand := checkAndSetHand s.frameIds s.hand }

lemma getFrameForReplacement_spec {s s' : VmState} {f : Frame}
    (h : s.getFrameForReplacement = some (f, s')) :
    f ∈ s.frameList ∧ f.loaded ∧ s'.frameList = s.frameList ∧ s'.hand = .elem f.id := by
  unfold getFrameForReplacement at h
  obtain ⟨hf, hl, hfl, hh⟩ := clockLoop_spec h
  exact ⟨hf, hl, hfl, hh⟩

/-- The write-back of a dirty victim: to its file when the supplemental entry is a `FILE`
page, otherwise to a fresh swap slot, whose `SWAP` entry replaces the old one and keeps it as
`evicted_page`. -/
def evictDirty (s : VmState) (f : Frame) (evicted : Option SpecialPage) : Option VmState :=
  match evicted with
  | some (.file src ofs za) =>
      some { s with files := Function.update s.files src ((s.files src).writeAt (s.mem f.userPage) ofs za) }
  | _ =>
      match swapSlotWrite (s.mem f.userPage) s.swap with
      | (some slot, sw) =>
          -- `hash_delete` of the old entry, then `add_lazy_page_unsafe` of the `SWAP` one
          some ({ s with swap := sw }.modifySpt f.t fun spt =>
            (spt.delete f.virtualAddress).insert f.virtualAddress (.swap slot true evicted))
      | (none, _) => none

/-- The victim `f` leaves its process's page table (`pagedir_clear_page`) and, when its entry
`e` was dirty, is written back. -/
def evictFrame (s : VmState) (f : Frame) (e : Pte) (evicted : Option SpecialPage) :
    Option VmState :=
  let s := s.pagedirClearPage f.t f.virtualAddress
  if e.dirty then s.evictDirty f evicted else some s

lemma evictDirty_frames {s s' : VmState} {f : Frame} {ev : Option SpecialPage}
    (h : s.evictDirty f ev = some s') : s'.frameList = s.frameList ∧ s'.hand = s.hand := by
  unfold evictDirty at h
  split at h
  · cases h
    exact ⟨rfl, rfl⟩
  · split at h
    · cases h
      exact ⟨rfl, rfl⟩
    · cases h

lemma evictFrame_frames {s s' : VmState} {f : Frame} {e : Pte} {ev : Option SpecialPage}
    (h : s.evictFrame f e ev = some s') : s'.frameList = s.frameList ∧ s'.hand = s.hand := by
  simp only [evictFrame] at h
  split_ifs at h
  · obtain ⟨hfl, hh⟩ := evictDirty_frames h
    exact ⟨hfl, hh⟩
  · cases h
    exact ⟨rfl, rfl⟩

/-- `ft_replacement`: evict the frame second chance picks and return its pool page. The
victim's entry loses `PTE_P`, a dirty victim is written back, the frame leaves the list, and
the hand moves on. -/
def ftReplacement (s : VmState) : Option (ℕ × VmState) :=
  if s.frameList = [] then none else do
    let (f, s) ← s.getFrameForReplacement
    let e ← s.ptePtr f.pte
    let p ← s.procs f.t
    let s ← s.evictFrame f e (p.spt.find f.virtualAddress)
    let s ← s.unlinkFrame f.id
    let hand ← advanceHand s.frameIds s.hand
    some (f.userPage, { s with hand := hand })

/-- What `ft_replacement` does, step by step. -/
lemma ftReplacement_eq_some {s s' : VmState} {p : ℕ} (h : s.ftReplacement = some (p, s')) :
    ∃ f s₁ e pr s₂ s₃ hand, s.getFrameForReplacement = some (f, s₁) ∧
      s₁.ptePtr f.pte = some e ∧ s₁.procs f.t = some pr ∧
      s₁.evictFrame f e (pr.spt.find f.virtualAddress) = some s₂ ∧
      s₂.unlinkFrame f.id = some s₃ ∧ advanceHand s₃.frameIds s₃.hand = some hand ∧
      p = f.userPage ∧ s' = { s₃ with hand := hand } := by
  unfold ftReplacement at h
  split_ifs at h
  simp only [Option.bind_eq_bind, Option.bind_eq_some_iff] at h
  obtain ⟨⟨f, s₁⟩, h₁, e, he, pr, hpr, s₂, h₂, s₃, h₃, hand, hh, h⟩ := h
  simp only [Option.some.injEq, Prod.mk.injEq] at h
  exact ⟨f, s₁, e, pr, s₂, s₃, hand, h₁, he, hpr, h₂, h₃, hh, h.1.symm, h.2.symm⟩

/-- `ft_get_page`: a frame for thread `t` on a free pool page (zero-filled for `PAL_ZERO`), or
on the page of an evicted frame when the pool is empty; returns the new frame's identity. -/
def ftGetPage (s : VmState) (t : Tid) (zero : Bool) : Option (ℕ × VmState) :=
  match s.pallocGetPage with
  | some p => some (s.nextFrameId, (s.takePage p zero).pushFrame t p)
  | none => (s.ftReplacement).map fun (p, s) => (s.nextFrameId, s.pushFrame t p)

/-- `ft_free_page`: drop the first frame of thread `t` on pool page `page`, then give the page
back to the pool. -/
def ftFreePage (s : VmState) (t : Tid) (page : ℕ) : Option VmState := do
  let s ← match s.frameList.find? (fun f => f.userPage = page ∧ f.t = t) with
    | some f => s.unlinkFrame f.id
    | none => some s
  s.pallocFreePage page

/-- The loop of `ft_destroy` over the frames it started from: each frame of `t` is unlinked. -/
def ftDestroyLoop (t : Tid) : List Frame → VmState → Option VmState
  | [], s => some s
  | f :: rest, s =>
      if f.t = t then (s.unlinkFrame f.id).bind (ftDestroyLoop t rest) else ftDestroyLoop t rest s

/-- `ft_destroy`: unlink every frame of thread `t`. -/
def ftDestroy (s : VmState) (t : Tid) : Option VmState := ftDestroyLoop t s.frameList s

end VmState

end TinyOs
