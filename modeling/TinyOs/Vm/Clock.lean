import TinyOs.Vm.Agree
import TinyOs.Vm.Hand
import Mathlib.Data.List.Rotate

/-!
Second chance in `get_frame_for_replacement`. Once `check_and_set_hand` has put the hand on a
frame, the clock visits the frames of `frame_list` in cyclic order from there: each move is
`list_next`, and off the last frame the wrap-around of `check_and_set_hand`
(`advanceHand_rotated`). A loaded frame whose accessed bit is set loses it and is passed over,
an unloaded frame is passed over as it is, and the loop stops at the first loaded frame whose
accessed bit is clear.

With a loaded frame in the list the loop stops within two turns of the clock, and all it has
changed are the accessed bits of the loaded frames it passed (`clockLoop_of_loaded`). With no
loaded frame it never stops (`clockLoop_unloaded`). Every frame is unloaded between
`ft_get_page` and the end of the page fault or `setup_stack` that took it, so a thread that
needs a frame while the user pool is exhausted and all its frames are being filled hangs, with
interrupts off.

* `secondChance`, `sweep`: what passing over one frame, and over a list of frames, does to the
  page tables; `pte_sweep`: only the accessed bits of the loaded frames passed over change;
* `ClockAt`: the loop's invariant, the frames in the order the clock visits them from the hand;
* `clockLoop_of_clear`, `clockLoop_of_loaded`: the run lemmas, by induction on the distance to
  a frame the loop has to stop at;
* `clockLoop_unloaded`: with no loaded frame no fuel is enough;
* `clock_second_chance`: `get_frame_for_replacement` on a frame table that agrees with the
  page tables.
-/

namespace TinyOs

/-- A rotation of `l` that starts at `x` cuts `l` around `x`. -/
lemma exists_append_cons_of_isRotated {α : Type} {x : α} {rs l : List α} (h : (x :: rs) ~r l) :
    ∃ A B, l = A ++ x :: B ∧ rs = B ++ A := by
  obtain ⟨n, rfl⟩ := h
  rw [List.rotate_eq_drop_append_take_mod]
  cases n % (x :: rs).length with
  | zero => exact ⟨[], rs, by simp, by simp⟩
  | succ j => exact ⟨rs.drop j, rs.take j, by simp, (List.take_append_drop j rs).symm⟩

/-- The hand on `x`, the first frame of `x :: rs`, the frames in the order the clock visits
them: `list_next` and `check_and_set_hand` move it to the first frame of the order rotated by
one, off the last frame of `frame_list` back onto its first. -/
lemma advanceHand_rotated {l : List Frame} {x : Frame} {rs : List Frame}
    (hnd : (l.map (·.id)).Nodup) (hr : (x :: rs) ~r l) :
    advanceHand (l.map (·.id)) (.elem x.id) = some (listBegin ((rs ++ [x]).map (·.id))) := by
  obtain ⟨A, B, rfl, rfl⟩ := exists_append_cons_of_isRotated hr
  have hx : x.id ∉ A.map (·.id) := by
    rw [List.map_append, List.map_cons] at hnd
    exact fun h => List.disjoint_of_nodup_append hnd h List.mem_cons_self
  have hnext : nextAfter x.id ((A ++ x :: B).map (·.id)) = some (listBegin (B.map (·.id))) := by
    rw [List.map_append, List.map_cons]
    exact nextAfter_append_cons hx
  simp only [advanceHand, listNext, hnext, Option.map_some]
  cases B with
  | nil => simp [listBegin]
  | cons y B => simp [listBegin]

namespace VmState

variable {s : VmState} {f g x : Frame}

/-! ### Passing over frames -/

/-- Passing over frame `f`: a loaded frame loses its accessed bit, its second chance; an
unloaded one is left as it is. -/
def secondChance (s : VmState) (f : Frame) : VmState :=
  if f.loaded then s.pagedirSetAccessed f.t f.virtualAddress false else s

/-- Passing over the frames `fs` in turn. -/
def sweep (s : VmState) (fs : List Frame) : VmState := fs.foldl secondChance s

@[simp] lemma sweep_nil (s : VmState) : s.sweep [] = s := rfl

@[simp] lemma sweep_cons (s : VmState) (f : Frame) (fs : List Frame) :
    s.sweep (f :: fs) = (s.secondChance f).sweep fs := rfl

@[simp] lemma secondChance_frameList : (s.secondChance f).frameList = s.frameList := by
  unfold secondChance
  split_ifs <;> rfl

lemma secondChance_setHand (h : Cursor ℕ) :
    ({ s with hand := h } : VmState).secondChance f = { s.secondChance f with hand := h } := by
  unfold secondChance
  split_ifs <;> rfl

lemma sweep_setHand (h : Cursor ℕ) :
    ∀ (fs : List Frame) (s : VmState), ({ s with hand := h } : VmState).sweep fs = { s.sweep fs with hand := h }
  | [], _ => rfl
  | f :: fs, s => by
      rw [sweep_cons, secondChance_setHand, sweep_setHand h fs]
      rfl

/-- The loop's body is passing over the frame, then moving the hand. -/
lemma passFrame_eq (s : VmState) (f : Frame) : s.passFrame f =
    (advanceHand s.frameIds s.hand).map fun hand => { s.secondChance f with hand := hand } := by
  unfold passFrame secondChance
  split_ifs <;> rfl

lemma pte_pagedirSetAccessed (s : VmState) (t : Tid) (v : ℕ) (b : Bool) (u : Tid) (w : ℕ) :
    (s.pagedirSetAccessed t v b).pte u w =
      if u = t ∧ w = v then (s.pte u w).map fun e => { e with accessed := b } else s.pte u w := by
  by_cases hu : u = t
  · subst hu
    simp only [pte, pagedirSetAccessed, modifyPte, updProc_procs_self]
    cases hp : s.procs u with
    | none => simp
    | some p =>
        cases hpd : p.pagedir with
        | none => simp [hpd]
        | some pd => by_cases hw : w = v <;> simp [hpd, hw]
  · simp [pte, pagedirSetAccessed, modifyPte, updProc, hu]

lemma pte_secondChance (s : VmState) (f : Frame) (u : Tid) (w : ℕ) :
    (s.secondChance f).pte u w =
      if f.loaded ∧ u = f.t ∧ w = f.virtualAddress then
        (s.pte u w).map fun e => { e with accessed := false }
      else s.pte u w := by
  unfold secondChance
  by_cases hl : f.loaded <;> simp [hl, pte_pagedirSetAccessed]

/-- Passing over `fs` clears the accessed bit of the entry of each loaded frame of `fs` and
changes no other entry and no other bit. -/
theorem pte_sweep (fs : List Frame) (s : VmState) (u : Tid) (w : ℕ) :
    (s.sweep fs).pte u w =
      if ∃ g ∈ fs, g.loaded ∧ u = g.t ∧ w = g.virtualAddress then
        (s.pte u w).map fun e => { e with accessed := false }
      else s.pte u w := by
  induction fs generalizing s with
  | nil => simp
  | cons f fs ih =>
      rw [sweep_cons, ih, pte_secondChance]
      by_cases hf : f.loaded ∧ u = f.t ∧ w = f.virtualAddress
      · -- a second pass over the same entry clears a bit already clear
        have hex : ∃ g ∈ f :: fs, g.loaded ∧ u = g.t ∧ w = g.virtualAddress :=
          ⟨f, List.mem_cons_self, hf⟩
        rw [if_pos hf, if_pos hex]
        split_ifs <;> simp [Option.map_map, Function.comp_def]
      · simp [hf]

lemma pte_isSome_secondChance (s : VmState) (f : Frame) (u : Tid) (w : ℕ) :
    ((s.secondChance f).pte u w).isSome = (s.pte u w).isSome := by
  rw [pte_secondChance]
  split_ifs <;> simp

/-! ### The clock's condition -/

@[simp] lemma passesOver_setHand (h : Cursor ℕ) :
    ({ s with hand := h } : VmState).passesOver f = s.passesOver f := rfl

lemma passesOver_unloaded (hl : f.loaded = false) : s.passesOver f = some true := by
  simp [passesOver, hl]

/-- The clock reads a loaded frame's accessed bit through its `PTE`, the entry of its page. -/
lemma passesOver_loaded (hl : f.loaded = true) (hp : f.pte = some (f.t, f.virtualAddress)) :
    s.passesOver f = (s.pte f.t f.virtualAddress).map (·.accessed) := by
  simp [passesOver, hl, hp, ptePtr]

/-- A frame the clock would stop at is still one after any frame is passed over. -/
lemma passesOver_secondChance_of_clear (h : s.passesOver g = some false) :
    (s.secondChance f).passesOver g = some false := by
  unfold passesOver at h ⊢
  split_ifs at h ⊢ with hl
  · cases hp : g.pte with
    | none => simp [hp, ptePtr] at h
    | some e =>
        obtain ⟨u, w⟩ := e
        simp only [hp, ptePtr] at h ⊢
        rw [pte_secondChance]
        split_ifs
        · -- the bit is cleared again: it stays clear
          obtain ⟨e, he, -⟩ := Option.map_eq_some_iff.mp h
          simp [he]
        · exact h
  · simp at h

/-- Passing over a loaded frame whose entry exists clears the bit the clock reads. -/
lemma passesOver_secondChance_self (hl : f.loaded = true)
    (hp : f.pte = some (f.t, f.virtualAddress)) (he : (s.pte f.t f.virtualAddress).isSome) :
    (s.secondChance f).passesOver f = some false := by
  rw [passesOver_loaded hl hp, pte_secondChance, if_pos ⟨hl, rfl, rfl⟩]
  obtain ⟨e, he⟩ := Option.isSome_iff_exists.mp he
  simp [he]

lemma handFrame_of_mem (hnd : s.frameIds.Nodup) (hf : f ∈ s.frameList)
    (hh : s.hand = .elem f.id) : s.handFrame = some f := by
  have hsome : (s.frameList.find? (·.id = f.id)).isSome :=
    List.find?_isSome.mpr ⟨f, hf, by simp⟩
  obtain ⟨g, hg⟩ := Option.isSome_iff_exists.mp hsome
  have hid : g.id = f.id := by simpa using List.find?_some hg
  rw [List.inj_on_of_nodup_map hnd (List.mem_of_find?_eq_some hg) hf hid] at hg
  simp [handFrame, hh, hg]

/-! ### The loop, turn by turn -/

section Loop

variable {l : List Frame}

/-- The loop's invariant: `s` runs on `frame_list` `l`, `r` is `l` in the order the clock visits
it from the hand, and the clock can read the accessed bit of every loaded frame. -/
structure ClockAt (l : List Frame) (s : VmState) (r : List Frame) : Prop where
  frameList_eq : s.frameList = l
  rotated : r ~r l
  hand_eq : s.hand = listBegin (r.map (·.id))
  readable : ∀ g ∈ l, g.loaded = true → (s.pte g.t g.virtualAddress).isSome

variable (hnd : (l.map (·.id)).Nodup)
variable (hpte : ∀ g ∈ l, g.loaded = true → g.pte = some (g.t, g.virtualAddress))

lemma ClockAt.mem {r : List Frame} (hc : ClockAt l s r) (hg : g ∈ r) : g ∈ l :=
  hc.rotated.mem_iff.mp hg

include hpte in
/-- The clock reads an accessed bit for each frame of the list. -/
lemma ClockAt.passesOver_isSome {r : List Frame} (hc : ClockAt l s r) (hg : g ∈ l) :
    (s.passesOver g).isSome := by
  cases hl : g.loaded with
  | false => simp [passesOver_unloaded hl]
  | true => simpa [passesOver_loaded hl (hpte g hg hl)] using hc.readable g hg hl

/-- Passing over the frame under the hand moves to the order rotated by one. -/
lemma ClockAt.next {rs : List Frame} (hc : ClockAt l s (x :: rs)) :
    ClockAt l { s.secondChance x with hand := listBegin ((rs ++ [x]).map (·.id)) } (rs ++ [x]) where
  frameList_eq := by simpa using hc.frameList_eq
  rotated := (List.isRotated_concat x rs).trans hc.rotated
  hand_eq := rfl
  readable g hg hl := by
    rw [show ({ s.secondChance x with hand := listBegin ((rs ++ [x]).map (·.id)) } : VmState).pte
      g.t g.virtualAddress = (s.secondChance x).pte g.t g.virtualAddress from rfl,
      pte_isSome_secondChance]
    exact hc.readable g hg hl

include hnd in
/-- One turn of the loop with the hand on `x`: stop there, or pass over it and go on from the
next frame. -/
lemma ClockAt.clockLoop_succ {rs : List Frame} {fuel : ℕ} (hc : ClockAt l s (x :: rs)) :
    s.clockLoop (fuel + 1) = (s.passesOver x).bind fun pass =>
      if pass then
        ({ s.secondChance x with hand := listBegin ((rs ++ [x]).map (·.id)) } : VmState).clockLoop fuel
      else some (x, s) := by
  have hids : s.frameIds = l.map (·.id) := by rw [frameIds, hc.frameList_eq]
  have hh : s.hand = .elem x.id := hc.hand_eq
  have hx : x ∈ s.frameList := hc.frameList_eq ▸ hc.mem List.mem_cons_self
  have hadv := advanceHand_rotated hnd hc.rotated
  simp only [clockLoop, Option.bind_eq_bind, handFrame_of_mem (hids ▸ hnd) hx hh,
    Option.bind_some, passFrame_eq, hids, hh, hadv, Option.map_some]

include hnd hpte in
/-- If the frame `d` places ahead of the hand is loaded with its accessed bit clear, the loop
stops within `d + 1` turns, at a frame with a clear accessed bit, having passed over the frames
before it in the order. -/
lemma clockLoop_of_clear : ∀ (d : ℕ) {s : VmState} {r : List Frame} {fuel : ℕ}
    (hc : ClockAt l s r) (hd : d < r.length), s.passesOver r[d] = some false → d < fuel →
    ∃ passed f, passed ++ [f] <+: r ∧ passed.length ≤ d ∧
      s.clockLoop fuel = some (f, { s.sweep passed with hand := .elem f.id }) ∧
      (s.sweep passed).passesOver f = some false
  | _, _, [], _, _, hd, _, _ => absurd hd (Nat.not_lt_zero _)
  | _, _, _ :: _, 0, _, _, _, hfuel => absurd hfuel (Nat.not_lt_zero _)
  | d, s, x :: rs, fuel + 1, hc, hd, hclear, hfuel => by
      obtain ⟨pass, hpass⟩ := Option.isSome_iff_exists.mp
        (hc.passesOver_isSome hpte (hc.mem List.mem_cons_self))
      rw [hc.clockLoop_succ hnd, hpass, Option.bind_some]
      cases pass with
      | false =>
          -- the hand's own frame has a clear bit: the loop stops at once
          refine ⟨[], x, by simp, by simp, ?_, hpass⟩
          rw [sweep_nil, if_neg Bool.false_ne_true]
          have hh : s.hand = .elem x.id := hc.hand_eq
          rw [← hh]
      | true =>
          cases d with
          | zero => simp [hpass] at hclear
          | succ d =>
              have hd' : d < (rs ++ [x]).length := by simp at hd ⊢; omega
              have hget : (rs ++ [x])[d] = (x :: rs)[d + 1] := by
                simp [List.getElem_append_left (show d < rs.length by simpa using hd)]
              have hclear' : ({ s.secondChance x with hand := listBegin ((rs ++ [x]).map (·.id)) } :
                  VmState).passesOver (rs ++ [x])[d] = some false := by
                rw [passesOver_setHand, hget]
                exact passesOver_secondChance_of_clear hclear
              obtain ⟨passed, f, hpre, hlen, hloop, hf⟩ :=
                clockLoop_of_clear d hc.next hd' hclear' (show d < fuel by omega)
              refine ⟨x :: passed, f, ?_, by simp; omega, ?_, ?_⟩
              · -- still within the first turn: a prefix of `rs` itself
                have hrs : passed ++ [f] <+: rs := List.prefix_of_prefix_length_le hpre
                  (List.prefix_append rs [x]) (by simp at hd ⊢; omega)
                simpa using hrs
              · rw [if_pos rfl, hloop, sweep_setHand, sweep_cons]
              · rw [sweep_setHand, passesOver_setHand] at hf
                simpa using hf

include hnd hpte in
/-- If the frame `d` places ahead of the hand is loaded, the loop stops within `d + n + 1`
turns, `n` the number of frames: at the latest when it comes back to that frame a turn after
clearing its accessed bit. -/
lemma clockLoop_of_loaded : ∀ (d : ℕ) {s : VmState} {r : List Frame} {fuel : ℕ}
    (hc : ClockAt l s r) (hd : d < r.length), r[d].loaded = true → d + r.length < fuel →
    ∃ passed f, passed ++ [f] <+: r ++ r ∧ passed.length ≤ d + r.length ∧
      s.clockLoop fuel = some (f, { s.sweep passed with hand := .elem f.id }) ∧
      (s.sweep passed).passesOver f = some false
  | _, _, [], _, _, hd, _, _ => absurd hd (Nat.not_lt_zero _)
  | _, _, _ :: _, 0, _, _, _, hfuel => absurd hfuel (Nat.not_lt_zero _)
  | d, s, x :: rs, fuel + 1, hc, hd, hload, hfuel => by
      obtain ⟨pass, hpass⟩ := Option.isSome_iff_exists.mp
        (hc.passesOver_isSome hpte (hc.mem List.mem_cons_self))
      rw [hc.clockLoop_succ hnd, hpass, Option.bind_some]
      cases pass with
      | false =>
          refine ⟨[], x, by simp, by simp, ?_, hpass⟩
          rw [sweep_nil, if_neg Bool.false_ne_true]
          have hh : s.hand = .elem x.id := hc.hand_eq
          rw [← hh]
      | true =>
          rw [if_pos rfl]
          cases d with
          | zero =>
              -- the target is under the hand: passing over it clears its bit, and the loop
              -- stops there a turn later at the latest
              have hx : x ∈ l := hc.mem List.mem_cons_self
              have hxl : x.loaded = true := by simpa using hload
              have hlast : (rs ++ [x])[rs.length] = x := by simp
              have hclear : ({ s.secondChance x with hand := listBegin ((rs ++ [x]).map (·.id)) } :
                  VmState).passesOver (rs ++ [x])[rs.length] = some false := by
                rw [passesOver_setHand, hlast]
                exact passesOver_secondChance_self hxl (hpte x hx hxl) (hc.readable x hx hxl)
              obtain ⟨passed, f, hpre, hlen, hloop, hf⟩ := clockLoop_of_clear hnd hpte rs.length
                hc.next (by simp) hclear (show rs.length < fuel by simp at hfuel; omega)
              have hturn : rs ++ [x] <+: rs ++ x :: rs := by simp
              refine ⟨x :: passed, f, by simpa using hpre.trans hturn, by simp; omega, ?_, ?_⟩
              · rw [hloop, sweep_setHand, sweep_cons]
              · rw [sweep_setHand, passesOver_setHand] at hf
                simpa using hf
          | succ d =>
              have hd' : d < (rs ++ [x]).length := by simp at hd ⊢; omega
              have hget : (rs ++ [x])[d] = (x :: rs)[d + 1] := by
                simp [List.getElem_append_left (show d < rs.length by simpa using hd)]
              obtain ⟨passed, f, hpre, hlen, hloop, hf⟩ := clockLoop_of_loaded d hc.next hd'
                (hget ▸ hload) (show d + (rs ++ [x]).length < fuel by simp at hfuel ⊢; omega)
              refine ⟨x :: passed, f, ?_, by simp at hlen ⊢; omega, ?_, ?_⟩
              · -- within two turns: `passed ++ [f]` is no longer than `rs ++ x :: rs`
                have htwo : passed ++ [f] <+: rs ++ x :: rs :=
                  List.prefix_of_prefix_length_le hpre (by simp) (by simp at hd hlen ⊢; omega)
                simpa using htwo
              · rw [hloop, sweep_setHand, sweep_cons]
              · rw [sweep_setHand, passesOver_setHand] at hf
                simpa using hf

include hnd in
/-- With no loaded frame the loop never stops: it passes over every frame, turn after turn,
until the fuel runs out. -/
lemma clockLoop_unloaded (hun : ∀ g ∈ l, g.loaded = false) :
    ∀ (fuel : ℕ) {s : VmState} {r : List Frame}, ClockAt l s r → r ≠ [] → s.clockLoop fuel = none
  | 0, _, _, _, _ => rfl
  | _ + 1, _, [], _, hr => absurd rfl hr
  | fuel + 1, s, x :: rs, hc, _ => by
      rw [hc.clockLoop_succ hnd, passesOver_unloaded (hun x (hc.mem List.mem_cons_self)),
        Option.bind_some, if_pos rfl]
      exact clockLoop_unloaded hun fuel hc.next (by simp)

end Loop

/-! ### `get_frame_for_replacement` -/

lemma loaded_of_passesOver (h : s.passesOver f = some false) : f.loaded = true := by
  unfold passesOver at h
  split_ifs at h with hl
  · exact hl
  · simp at h

/-- A page of a process whose entry is present in the view has an entry in its page directory. -/
lemma pte_isSome_of_mapOf {t : Tid} {v k : ℕ} (h : s.view.mapOf t v = some k) :
    (s.pte t v).isSome := by
  simp only [TableView.mapOf, view, Option.bind_eq_some_iff, Option.map_eq_some_iff] at h
  obtain ⟨q, ⟨p, hp, rfl⟩, m, hm, -⟩ := h
  simp only [Proc.view, Option.map_eq_some_iff] at hm
  obtain ⟨pd, hpd, -⟩ := hm
  simp [pte, hp, hpd]

/-- `check_and_set_hand` puts a linked hand on a frame: the first frame of `frame_list` rotated
by some `p`. -/
lemma exists_rotate_of_handLinked (hl : s.HandLinked) (hne : s.frameList ≠ []) :
    ∃ p, checkAndSetHand s.frameIds s.hand = listBegin (s.frameIds.rotate p) := by
  have hids : s.frameIds ≠ [] := by simpa [frameIds] using hne
  unfold HandLinked at hl
  cases hh : s.hand with
  | head =>
      -- off the head sentinel onto the first frame
      refine ⟨0, ?_⟩
      obtain ⟨a, as, has⟩ := List.exists_cons_of_ne_nil hids
      simp [checkAndSetHand, has, listBegin]
  | elem a =>
      rw [hh] at hl
      obtain ⟨i, hi, rfl⟩ := List.getElem_of_mem hl
      refine ⟨i, ?_⟩
      have hhead := List.head?_rotate hi
      rw [checkAndSetHand_elem]
      cases hr : s.frameIds.rotate i with
      | nil =>
          simp [hr] at hhead
          omega
      | cons b bs =>
          rw [hr, List.head?_cons, List.getElem?_eq_getElem hi, Option.some.injEq] at hhead
          rw [hhead]
          rfl
  | tail =>
      rw [hh] at hl
      exact hl.elim

/-- `get_frame_for_replacement` on a non-empty frame table that agrees with the page tables,
its hand linked. With no loaded frame the loop never stops: no fuel is enough. With a loaded
frame, read the frames from the one `check_and_set_hand` puts the hand on (`frame_list` rotated
by `p`): the loop passes over `passed` and stops at `f` within two turns of the clock
(`passed ++ [f]` is a prefix of two turns); `f` is loaded with its accessed bit clear, and the
state differs from the one it started from only in the hand and in the accessed bits of the
loaded frames in `passed`, which are cleared (`pte_sweep`). -/
theorem clock_second_chance {s : VmState} (hw : s.view.Inv) (hl : s.HandLinked)
    (hne : s.frameList ≠ []) :
    ((∀ g ∈ s.frameList, g.loaded = false) →
      ∀ fuel, clockLoop fuel { s with hand := checkAndSetHand s.frameIds s.hand } = none) ∧
    ((∃ g ∈ s.frameList, g.loaded = true) →
      ∃ p, checkAndSetHand s.frameIds s.hand = listBegin (s.frameIds.rotate p) ∧
        ∃ passed f s', passed ++ [f] <+: s.frameList.rotate p ++ s.frameList.rotate p ∧
          s.getFrameForReplacement = some (f, s') ∧ f.loaded = true ∧
          (s'.pte f.t f.virtualAddress).map (·.accessed) = some false ∧
          s' = { s.sweep passed with hand := .elem f.id }) := by
  obtain ⟨p, hp⟩ := exists_rotate_of_handLinked hl hne
  have hnd : (s.frameList.map (·.id)).Nodup := hw.ids_nodup
  have hpte : ∀ g ∈ s.frameList, g.loaded = true → g.pte = some (g.t, g.virtualAddress) :=
    fun g hg hgl => (hw.loaded_mapped g hg hgl).1
  -- the clock starts on the first frame of the rotated list
  have hc : ClockAt s.frameList { s with hand := checkAndSetHand s.frameIds s.hand }
      (s.frameList.rotate p) :=
    { frameList_eq := rfl
      rotated := List.IsRotated.forall s.frameList p
      hand_eq := by rw [hp, frameIds, List.map_rotate]
      readable := fun g hg hgl => pte_isSome_of_mapOf (hw.loaded_mapped g hg hgl).2 }
  refine ⟨fun hun fuel => clockLoop_unloaded hnd hun fuel hc (by simpa using hne),
    fun hex => ⟨p, hp, ?_⟩⟩
  obtain ⟨g, hg, hgl⟩ := hex
  obtain ⟨d, hd, hdg⟩ := List.getElem_of_mem (List.mem_rotate.mpr hg : g ∈ s.frameList.rotate p)
  obtain ⟨passed, f, hpre, -, hloop, hf⟩ := clockLoop_of_loaded hnd hpte d hc hd (hdg ▸ hgl)
    (show d + (s.frameList.rotate p).length < 2 * s.frameList.length + 1 by simp at hd ⊢; omega)
  have hfl : f ∈ s.frameList := by
    have hmem : f ∈ s.frameList.rotate p ++ s.frameList.rotate p := hpre.subset (by simp)
    simpa using hmem
  have hfload : f.loaded = true := loaded_of_passesOver hf
  rw [sweep_setHand] at hloop hf
  refine ⟨passed, f, _, hpre, hloop, hfload, ?_, rfl⟩
  rw [passesOver_setHand, passesOver_loaded hfload (hpte f hfl hfload)] at hf
  exact hf

end VmState

/-- Two processes each take a frame in `setup_stack`, using up a two-page user pool, and
neither has installed it yet. -/
def loadingRun : List VmEvent := [.spawn 1, .stack 1, .spawn 2, .stack 2]

/-- Both frames of the state that run reaches are unloaded: a third process that needs a frame
now, in `setup_stack` or a page fault, runs `get_frame_for_replacement`, which passes over the
two frames forever. -/
theorem clock_hangs_while_loading :
    ∃ s, VmReachable s ∧ vmRun handStart loadingRun = some s ∧ s.frameList ≠ [] ∧
      ∀ fuel, VmState.clockLoop fuel { s with hand := checkAndSetHand s.frameIds s.hand } = none := by
  have hrun : (vmRun handStart loadingRun).map (fun s => (s.frameList, s.hand)) =
      some ([⟨0, 1, 0, none, 0, false⟩, ⟨1, 2, 1, none, 0, false⟩], .head) := by
    decide
  obtain ⟨s, hs, he⟩ := Option.map_eq_some_iff.mp hrun
  rw [Prod.mk.injEq] at he
  have hreach : VmReachable s := (VmReachable.init _ _ _ _ _).run hs
  have hl : s.HandLinked := by simp [VmState.HandLinked, Cursor.Linked, he.2]
  have hne : s.frameList ≠ [] := by simp [he.1]
  have hun : ∀ g ∈ s.frameList, g.loaded = false := by simp [he.1]
  exact ⟨s, hreach, hs, hne, (VmState.clock_second_chance hreach.view_inv hl hne).1 hun⟩

end TinyOs
