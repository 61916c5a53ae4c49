import TinyOs.Vm.View

/-!
The agreement of the frame table with the page tables, over the view. `mapOf w t v` is the
frame page `v` of thread `t` maps, and `Inv` says that the loaded frames and the present
entries are in one-to-one correspondence: a loaded frame is mapped by its owner's entry for its
page and its `PTE` points at that entry, a present entry has a loaded frame, no pool page holds
two frames, and a frame a thread holds inside a page fault is its own, unloaded, and known by
its identity.

* `Frame.Maps`: frame `f` maps page `v` of thread `t`;
* `Inv` and the facts it gives (`eq_of_id`, `eq_of_page`, `eq_of_loaded`);
* `Inv.take`, `Inv.free`, `Inv.push`, `Inv.setPending`, `Inv.exit`, `Inv.unlink_unloaded`,
  `Inv.evict`, `Inv.install`, `Inv.destroy`, `Inv.spawn`: each update of the view keeps the
  agreement under the condition the source meets when it makes it.
-/

namespace TinyOs

/-- Frame `f` maps user page `v` of thread `t`: `f->t == t`, `f->virtual_address == v`,
`f->loaded`, and `f->PTE` is the address of that entry. -/
def Frame.Maps (t : Tid) (v : ℕ) (f : Frame) : Bool :=
  f.t = t && f.virtualAddress = v && f.loaded && f.pte = some (t, v)

namespace TableView

/-- The frame page `v` of thread `t` maps: `none` when the entry is not present or the thread
has no page directory. -/
def mapOf (w : TableView) (t : Tid) (v : ℕ) : Option ℕ :=
  (w.procs t).bind fun q => q.frameOf.bind fun m => m v

variable {w : TableView} {t u : Tid} {v x : ℕ} {g : ProcView → ProcView}

@[simp] lemma updProc_frames : (w.updProc t g).frames = w.frames := rfl
@[simp] lemma updProc_used : (w.updProc t g).used = w.used := rfl
@[simp] lemma updProc_nextFrameId : (w.updProc t g).nextFrameId = w.nextFrameId := rfl
@[simp] lemma modFrame_procs {id : ℕ} {G : Frame → Frame} : (w.modFrame id G).procs = w.procs := rfl
@[simp] lemma take_procs {p : ℕ} : (w.take p).procs = w.procs := rfl
@[simp] lemma free_procs {p : ℕ} : (w.free p).procs = w.procs := rfl
@[simp] lemma push_procs {p : ℕ} : (w.push t p).procs = w.procs := rfl
@[simp] lemma unlink_procs {id : ℕ} : (w.unlink id).procs = w.procs := rfl
@[simp] lemma unlinkAll_procs {ids : List ℕ} : (w.unlinkAll ids).procs = w.procs := rfl

lemma updProc_procs : (w.updProc t g).procs u = if u = t then (w.procs t).map g else w.procs u := by
  by_cases h : u = t
  · subst h
    simp [updProc]
  · simp [updProc, h]

/-- An update of a record neither creates nor removes one. -/
@[simp] lemma updProc_procs_eq_none : (w.updProc t g).procs u = none ↔ w.procs u = none := by
  rw [updProc_procs]
  split_ifs with h
  · subst h
    exact Option.map_eq_none_iff
  · rfl

lemma mapOf_updProc (hg : ∀ q, (g q).frameOf = q.frameOf) : (w.updProc t g).mapOf = w.mapOf := by
  funext u x
  simp only [mapOf, updProc_procs]
  split_ifs with h
  · subst h
    cases w.procs u <;> simp [hg]
  · rfl

lemma mapOf_setFrame_self {o : Option ℕ} :
    (w.setFrame t v o).mapOf t v = ((w.procs t).bind (·.frameOf)).bind fun _ => o := by
  simp only [mapOf, setFrame, updProc_procs, if_true]
  cases w.procs t with
  | none => rfl
  | some q => cases hq : q.frameOf <;> simp [hq]

lemma mapOf_setFrame_of_ne {o : Option ℕ} (h : ¬(u = t ∧ x = v)) :
    (w.setFrame t v o).mapOf u x = w.mapOf u x := by
  simp only [mapOf, setFrame, updProc_procs]
  split_ifs with hu
  · subst hu
    have hx : x ≠ v := fun hx => h ⟨rfl, hx⟩
    cases w.procs u with
    | none => rfl
    | some q => cases hq : q.frameOf <;> simp [hq, hx]
  · rfl

lemma modFrame_modFrame {id : ℕ} {G₁ G₂ : Frame → Frame} (h : ∀ g, (G₁ g).id = g.id) :
    (w.modFrame id G₁).modFrame id G₂ = w.modFrame id (G₂ ∘ G₁) := by
  simp only [modFrame, List.map_map, TableView.mk.injEq, and_true]
  congr 1
  funext g
  by_cases hg : g.id = id <;> simp [hg, h]

lemma mem_modFrame {id : ℕ} {G : Frame → Frame} {g' : Frame} :
    g' ∈ (w.modFrame id G).frames ↔ ∃ g ∈ w.frames, (if g.id = id then G g else g) = g' := by
  simp [modFrame]

/-- A change of one frame that keeps what `k` reads of every frame. -/
lemma map_modFrame {β : Type} {id : ℕ} {G : Frame → Frame} (k : Frame → β)
    (h : ∀ g, k (G g) = k g) : (w.modFrame id G).frames.map k = w.frames.map k := by
  simp only [modFrame, List.map_map]
  congr 1
  funext g
  by_cases hg : g.id = id <;> simp [hg, h]

/-- A record after an update is the updated record or an untouched one. -/
lemma procs_of_updProc {q' : ProcView} (h : (w.updProc t g).procs u = some q') :
    ∃ q, w.procs u = some q ∧ (q' = g q ∨ q' = q) := by
  rw [updProc_procs] at h
  split_ifs at h with hu
  · subst hu
    obtain ⟨q, hq, rfl⟩ := Option.map_eq_some_iff.mp h
    exact ⟨q, hq, .inl rfl⟩
  · exact ⟨q', h, .inr rfl⟩

/-- Changing the frame a page maps moves no thread's exit flag. -/
lemma setFrame_dying {o : Option ℕ} :
    ((w.setFrame t v o).procs u).map (·.dying) = (w.procs u).map (·.dying) := by
  simp only [setFrame, updProc_procs]
  split_ifs with hu
  · subst hu
    cases w.procs u <;> rfl
  · rfl

/-- The frame table agrees with the page tables. -/
structure Inv (w : TableView) : Prop where
  /-- Every frame's identity was handed out. -/
  fresh : ∀ f ∈ w.frames, f.id < w.nextFrameId
  ids_nodup : (w.frames.map (·.id)).Nodup
  /-- No pool page is the page of two frames. -/
  pages_nodup : (w.frames.map (·.userPage)).Nodup
  pages_used : ∀ f ∈ w.frames, f.userPage ∈ w.used
  /-- A loaded frame is mapped by its owner's entry for its page, and its `PTE` points there. -/
  loaded_mapped : ∀ f ∈ w.frames, f.loaded = true →
    f.pte = some (f.t, f.virtualAddress) ∧ w.mapOf f.t f.virtualAddress = some f.userPage
  /-- A present entry has a loaded frame for its page. -/
  mapped_loaded : ∀ t v k, w.mapOf t v = some k →
    ∃ f ∈ w.frames, f.loaded = true ∧ f.t = t ∧ f.virtualAddress = v
  /-- The frame a thread holds inside a page fault was handed out, and is its own and unloaded. -/
  pending_frame : ∀ t q fid, w.procs t = some q → q.pending.frameId? = some fid →
    fid < w.nextFrameId ∧ ∀ f ∈ w.frames, f.id = fid → f.loaded = false ∧ f.t = t
  /-- An exiting thread is not inside a page fault. -/
  dying_idle : ∀ t q, w.procs t = some q → q.dying = true → q.pending = .idle

namespace Inv

variable (hw : w.Inv)
include hw

lemma eq_of_id {f g : Frame} (hf : f ∈ w.frames) (hg : g ∈ w.frames) (h : f.id = g.id) : f = g :=
  List.inj_on_of_nodup_map hw.ids_nodup hf hg h

lemma eq_of_page {f g : Frame} (hf : f ∈ w.frames) (hg : g ∈ w.frames)
    (h : f.userPage = g.userPage) : f = g :=
  List.inj_on_of_nodup_map hw.pages_nodup hf hg h

/-- Two loaded frames for the same page of the same thread are the same frame. -/
lemma eq_of_loaded {f g : Frame} (hf : f ∈ w.frames) (hg : g ∈ w.frames) (hfl : f.loaded = true)
    (hgl : g.loaded = true) (ht : f.t = g.t) (hv : f.virtualAddress = g.virtualAddress) :
    f = g := by
  have hmf := (hw.loaded_mapped f hf hfl).2
  have hmg := (hw.loaded_mapped g hg hgl).2
  rw [ht, hv, hmg, Option.some.injEq] at hmf
  exact hw.eq_of_page hf hg hmf.symm

/-- The frame `push` appends is the only one with the next identity, and it is unloaded. -/
lemma push_frame_of_id {t : Tid} {p : ℕ} :
    ∀ f ∈ (w.push t p).frames, f.id = w.nextFrameId → f.loaded = false ∧ f.t = t := by
  intro f hf hid
  simp only [TableView.push, List.mem_append, List.mem_singleton] at hf
  rcases hf with hf | rfl
  · exact absurd hid (Nat.ne_of_lt (hw.fresh f hf))
  · exact ⟨rfl, rfl⟩

/-- Taking a page from the pool. -/
lemma take (p : ℕ) : (w.take p).Inv :=
  { hw with pages_used := fun f hf => Finset.mem_insert_of_mem (hw.pages_used f hf) }

/-- Giving back a pool page that no frame holds. -/
lemma free {p : ℕ} (hp : ∀ f ∈ w.frames, f.userPage ≠ p) : (w.free p).Inv :=
  { hw with pages_used := fun f hf => Finset.mem_erase.mpr ⟨hp f hf, hw.pages_used f hf⟩ }

/-- A fresh unloaded frame on a used pool page that no frame holds. -/
lemma push {t : Tid} {p : ℕ} (hp : p ∈ w.used) (hfree : ∀ f ∈ w.frames, f.userPage ≠ p) :
    (w.push t p).Inv where
  fresh f hf := by
    simp only [TableView.push, List.mem_append, List.mem_singleton] at hf
    rcases hf with hf | rfl
    · exact Nat.lt_succ_of_lt (hw.fresh f hf)
    · exact Nat.lt_succ_self _
  ids_nodup := by
    simp only [TableView.push, List.map_append, List.map_singleton]
    refine List.Nodup.append hw.ids_nodup (List.nodup_singleton _) ?_
    simp only [List.disjoint_singleton, List.mem_map, not_exists, not_and]
    intro f hf hid
    exact absurd (hw.fresh f hf) (by omega)
  pages_nodup := by
    simp only [TableView.push, List.map_append, List.map_singleton]
    refine List.Nodup.append hw.pages_nodup (List.nodup_singleton _) ?_
    simp only [List.disjoint_singleton, List.mem_map, not_exists, not_and]
    exact hfree
  pages_used f hf := by
    simp only [TableView.push, List.mem_append, List.mem_singleton] at hf
    rcases hf with hf | rfl
    · exact hw.pages_used f hf
    · exact hp
  loaded_mapped f hf hl := by
    simp only [TableView.push, List.mem_append, List.mem_singleton] at hf
    rcases hf with hf | rfl
    · exact hw.loaded_mapped f hf hl
    · cases hl
  mapped_loaded t v k h := by
    obtain ⟨f, hf, hfl⟩ := hw.mapped_loaded t v k h
    exact ⟨f, List.mem_append_left _ hf, hfl⟩
  pending_frame u q fid hq hfid := by
    obtain ⟨hlt, hfr⟩ := hw.pending_frame u q fid hq hfid
    refine ⟨Nat.lt_succ_of_lt hlt, fun f hf hid => ?_⟩
    simp only [TableView.push, List.mem_append, List.mem_singleton] at hf
    rcases hf with hf | rfl
    · exact hfr f hf hid
    · -- the new frame's identity was not yet handed out
      exact absurd hid (by simp only; omega)
  dying_idle := hw.dying_idle

/-- The thread moves to `P` in a page fault; the frame `P` holds, if any, was handed out and is
the thread's own and unloaded. -/
lemma setPending {t : Tid} {q : ProcView} {P : Pending} (hq : w.procs t = some q)
    (hP : ∀ fid, P.frameId? = some fid →
      fid < w.nextFrameId ∧ ∀ f ∈ w.frames, f.id = fid → f.loaded = false ∧ f.t = t)
    (hd : q.dying = true → P = .idle) : (w.setPending t P).Inv :=
  { hw with
    loaded_mapped := by
      rw [TableView.setPending, mapOf_updProc (g := fun p => { p with pending := P }) fun _ => rfl]
      exact hw.loaded_mapped
    mapped_loaded := by
      rw [TableView.setPending, mapOf_updProc (g := fun p => { p with pending := P }) fun _ => rfl]
      exact hw.mapped_loaded
    pending_frame := fun u q' fid hq' hfid => by
      rw [TableView.setPending, updProc_procs] at hq'
      split_ifs at hq' with hu
      · subst hu
        rw [hq, Option.map_some, Option.some.injEq] at hq'
        subst hq'
        exact hP fid hfid
      · exact hw.pending_frame u q' fid hq' hfid
    dying_idle := fun u q' hq' hd' => by
      rw [TableView.setPending, updProc_procs] at hq'
      split_ifs at hq' with hu
      · subst hu
        rw [hq, Option.map_some, Option.some.injEq] at hq'
        subst hq'
        exact hd hd'
      · exact hw.dying_idle u q' hq' hd' }

/-- The thread begins to exit, outside any page fault. -/
lemma exit {t : Tid} {q : ProcView} (hq : w.procs t = some q) (hidle : q.pending = .idle) :
    (w.updProc t fun q => { q with dying := true }).Inv :=
  { hw with
    loaded_mapped := by
      rw [mapOf_updProc (g := fun q => { q with dying := true }) fun _ => rfl]
      exact hw.loaded_mapped
    mapped_loaded := by
      rw [mapOf_updProc (g := fun q => { q with dying := true }) fun _ => rfl]
      exact hw.mapped_loaded
    pending_frame := fun u q' fid hq' hfid => by
      obtain ⟨q₀, hq₀, h₀⟩ := procs_of_updProc hq'
      have hp : q'.pending = q₀.pending := by rcases h₀ with rfl | rfl <;> rfl
      rw [hp] at hfid
      exact hw.pending_frame u q₀ fid hq₀ hfid
    dying_idle := fun u q' hq' hd' => by
      rw [updProc_procs] at hq'
      split_ifs at hq' with hu
      · subst hu
        rw [hq, Option.map_some, Option.some.injEq] at hq'
        subst hq'
        exact hidle
      · exact hw.dying_idle u q' hq' hd' }

/-- An unloaded frame leaves the table. -/
lemma unlink_unloaded {f : Frame} (hf : f ∈ w.frames) (hl : f.loaded = false) :
    (w.unlink f.id).Inv where
  fresh g hg := hw.fresh g (List.mem_of_mem_filter hg)
  ids_nodup := hw.ids_nodup.sublist ((List.filter_sublist).map _)
  pages_nodup := hw.pages_nodup.sublist ((List.filter_sublist).map _)
  pages_used g hg := hw.pages_used g (List.mem_of_mem_filter hg)
  loaded_mapped g hg := hw.loaded_mapped g (List.mem_of_mem_filter hg)
  mapped_loaded u x k h := by
    obtain ⟨g, hg, hgl, hgu⟩ := hw.mapped_loaded u x k h
    -- a loaded frame is not the unloaded one
    have hne : g.id ≠ f.id := fun hid => by
      rw [hw.eq_of_id hg hf hid, hl] at hgl
      cases hgl
    exact ⟨g, List.mem_filter.mpr ⟨hg, by simpa using hne⟩, hgl, hgu⟩
  pending_frame u q fid hq hfid := by
    obtain ⟨hlt, hfr⟩ := hw.pending_frame u q fid hq hfid
    exact ⟨hlt, fun g hg => hfr g (List.mem_of_mem_filter hg)⟩
  dying_idle := hw.dying_idle

/-- Eviction: a loaded frame's entry loses `PTE_P` and the frame leaves the table. -/
lemma evict {f : Frame} (hf : f ∈ w.frames) (hl : f.loaded = true) :
    ((w.setFrame f.t f.virtualAddress none).unlink f.id).Inv where
  fresh g hg := hw.fresh g (List.mem_of_mem_filter hg)
  ids_nodup := hw.ids_nodup.sublist ((List.filter_sublist).map _)
  pages_nodup := hw.pages_nodup.sublist ((List.filter_sublist).map _)
  pages_used g hg := hw.pages_used g (List.mem_of_mem_filter hg)
  loaded_mapped g hg hgl := by
    obtain ⟨hgm, hid⟩ := List.mem_filter.mp hg
    obtain ⟨hpte, hmap⟩ := hw.loaded_mapped g hgm hgl
    -- another loaded frame cannot map the victim's page
    have hne : ¬(g.t = f.t ∧ g.virtualAddress = f.virtualAddress) := fun ⟨ht, hv⟩ => by
      have hgf := hw.eq_of_loaded hgm hf hgl hl ht hv
      simp [hgf] at hid
    exact ⟨hpte, (mapOf_setFrame_of_ne hne).trans hmap⟩
  mapped_loaded u x k h := by
    have hne : ¬(u = f.t ∧ x = f.virtualAddress) := by
      rintro ⟨rfl, rfl⟩
      have h' := (mapOf_setFrame_self (w := w)).symm.trans h
      simp at h'
    obtain ⟨g, hg, hgl, hgu, hgx⟩ := hw.mapped_loaded u x k ((mapOf_setFrame_of_ne hne).symm.trans h)
    have hid : g.id ≠ f.id := fun hid => by
      rw [hw.eq_of_id hg hf hid] at hgu hgx
      exact hne ⟨hgu.symm, hgx.symm⟩
    exact ⟨g, List.mem_filter.mpr ⟨hg, by simpa using hid⟩, hgl, hgu, hgx⟩
  pending_frame u q' fid hq' hfid := by
    obtain ⟨q₀, hq₀, h₀⟩ := procs_of_updProc hq'
    have hp : q'.pending = q₀.pending := by rcases h₀ with rfl | rfl <;> rfl
    rw [hp] at hfid
    obtain ⟨hlt, hfr⟩ := hw.pending_frame u q₀ fid hq₀ hfid
    exact ⟨hlt, fun g hg => hfr g (List.mem_of_mem_filter hg)⟩
  dying_idle u q' hq' hd := by
    obtain ⟨q₀, hq₀, h₀⟩ := procs_of_updProc hq'
    have hpd : q'.pending = q₀.pending ∧ q'.dying = q₀.dying := by
      rcases h₀ with rfl | rfl <;> exact ⟨rfl, rfl⟩
    rw [hpd.1]
    exact hw.dying_idle u q₀ hq₀ (hpd.2 ▸ hd)

/-- Installing the frame `f` a thread holds inside a page fault at its page `v`, whose entry is
not present: the entry maps the frame, the frame's `PTE` points at the entry, the frame is
loaded, and the thread leaves the page fault. -/
lemma install {t : Tid} {q : ProcView} {m : ℕ → Option ℕ} {f : Frame} {v : ℕ}
    (hq : w.procs t = some q) (hm : q.frameOf = some m) (hv : m v = none) (hf : f ∈ w.frames)
    (hfid : q.pending.frameId? = some f.id) :
    (((w.setFrame t v (some f.userPage)).modFrame f.id
      fun g => { g with pte := some (t, v), virtualAddress := v, loaded := true }).setPending
        t .idle).Inv := by
  obtain ⟨-, hfr⟩ := hw.pending_frame t q f.id hq hfid
  obtain ⟨hfl, hft⟩ := hfr f hf rfl
  -- the thread's page `v` now maps `f`, every other page maps what it did
  have hmapv : (w.setFrame t v (some f.userPage)).mapOf t v = some f.userPage := by
    rw [mapOf_setFrame_self, hq]
    simp [hm]
  have hwv : w.mapOf t v = none := by simp [mapOf, hq, hm, hv]
  set G : Frame → Frame := fun g => { g with pte := some (t, v), virtualAddress := v, loaded := true }
    with hG
  set W₀ := w.setFrame t v (some f.userPage) with hW₀
  have hmapOf : ((W₀.modFrame f.id G).setPending t .idle).mapOf = W₀.mapOf :=
    mapOf_updProc (g := fun p => { p with pending := .idle }) fun _ => rfl
  have hmem : ∀ g', g' ∈ ((W₀.modFrame f.id G).setPending t .idle).frames ↔
      ∃ g ∈ w.frames, (if g.id = f.id then G g else g) = g' := fun _ => mem_modFrame
  -- another thread's record is untouched
  have hother : ∀ u q', u ≠ t → ((W₀.modFrame f.id G).setPending t .idle).procs u = some q' →
      w.procs u = some q' := by
    intro u q' hu hq'
    simp only [TableView.setPending, updProc_procs, hu, if_false] at hq'
    simpa [hW₀, TableView.setFrame, updProc_procs, hu] using hq'
  constructor
  case fresh =>
    intro g' hg'
    obtain ⟨g, hg, rfl⟩ := (hmem g').mp hg'
    split_ifs <;> exact hw.fresh g hg
  case ids_nodup =>
    show ((W₀.modFrame f.id G).frames.map (·.id)).Nodup
    rw [map_modFrame (G := G) _ fun _ => rfl]
    exact hw.ids_nodup
  case pages_nodup =>
    show ((W₀.modFrame f.id G).frames.map (·.userPage)).Nodup
    rw [map_modFrame (G := G) _ fun _ => rfl]
    exact hw.pages_nodup
  case pages_used =>
    intro g' hg'
    obtain ⟨g, hg, rfl⟩ := (hmem g').mp hg'
    split_ifs <;> exact hw.pages_used g hg
  case loaded_mapped =>
    intro g' hg' hl'
    obtain ⟨g, hg, rfl⟩ := (hmem g').mp hg'
    rw [hmapOf]
    split_ifs at hl' ⊢ with hgid
    · -- the installed frame
      have hgf := hw.eq_of_id hg hf hgid
      subst hgf
      exact ⟨by simp [hG, hft], by simpa [hG, hft] using hmapv⟩
    · obtain ⟨hpte, hmap⟩ := hw.loaded_mapped g hg hl'
      have hne : ¬(g.t = t ∧ g.virtualAddress = v) := by
        rintro ⟨ht, hgv⟩
        rw [ht, hgv, hwv] at hmap
        cases hmap
      exact ⟨hpte, (mapOf_setFrame_of_ne hne).trans hmap⟩
  case mapped_loaded =>
    intro u x k h
    rw [hmapOf] at h
    by_cases hux : u = t ∧ x = v
    · obtain ⟨rfl, rfl⟩ := hux
      exact ⟨G f, (hmem _).mpr ⟨f, hf, by simp⟩, rfl, by simp [hG, hft], rfl⟩
    · obtain ⟨g, hg, hgl, hgu, hgx⟩ := hw.mapped_loaded u x k ((mapOf_setFrame_of_ne hux).symm.trans h)
      -- a loaded frame is not the unloaded one being installed
      have hgid : g.id ≠ f.id := fun hid => by
        rw [hw.eq_of_id hg hf hid, hfl] at hgl
        cases hgl
      exact ⟨g, (hmem _).mpr ⟨g, hg, by simp [hgid]⟩, hgl, hgu, hgx⟩
  case pending_frame =>
    intro u q' fid hq' hfid
    by_cases hu : u = t
    · subst hu
      simp only [TableView.setPending, updProc_procs, if_true] at hq'
      obtain ⟨q₀, -, rfl⟩ := Option.map_eq_some_iff.mp hq'
      cases hfid
    · obtain ⟨hlt, hfr'⟩ := hw.pending_frame u q' fid (hother u q' hu hq') hfid
      refine ⟨hlt, fun g' hg' hid => ?_⟩
      obtain ⟨g, hg, rfl⟩ := (hmem g').mp hg'
      split_ifs at hid ⊢ with hgid
      · -- the installed frame was `t`'s, not `u`'s
        have hgf := hw.eq_of_id hg hf hgid
        subst hgf
        exact absurd ((hfr' g hg hid).2.symm.trans hft) hu
      · exact hfr' g hg hid
  case dying_idle =>
    intro u q' hq' hd
    by_cases hu : u = t
    · subst hu
      simp only [TableView.setPending, updProc_procs, if_true] at hq'
      obtain ⟨q₀, -, rfl⟩ := Option.map_eq_some_iff.mp hq'
      rfl
    · exact hw.dying_idle u q' (hother u q' hu hq') hd

/-- `process_exit` of a thread `t` whose page directory maps `m`: its frames leave the
table, its page directory goes, and pool pages its entries mapped (`ks`) go back to the pool. -/
lemma destroy {t : Tid} {q : ProcView} {m : ℕ → Option ℕ} (hq : w.procs t = some q)
    (hm : q.frameOf = some m) {ks : Finset ℕ}
    (hks : ∀ k ∈ ks, ∃ x, m x = some k) :
    ({ (w.unlinkAll ((w.frames.filter (·.t = t)).map (·.id))).updProc t
        (fun q => { q with frameOf := none }) with used := w.used \ ks } : TableView).Inv := by
  -- the frames left are exactly the frames of other threads
  have hleft : ∀ g : Frame, g ∈ (w.unlinkAll ((w.frames.filter fun f : Frame => f.t = t).map
      fun f : Frame => f.id)).frames ↔ g ∈ w.frames ∧ g.t ≠ t := by
    intro g
    simp only [unlinkAll, List.mem_filter, List.mem_map, decide_eq_true_eq, not_exists, not_and]
    constructor
    · rintro ⟨hg, hno⟩
      exact ⟨hg, fun ht => hno g ⟨hg, ht⟩ rfl⟩
    · rintro ⟨hg, ht⟩
      refine ⟨hg, fun g₀ hg₀t hid => ?_⟩
      obtain ⟨hg₀, ht₀⟩ := hg₀t
      rw [hw.eq_of_id hg₀ hg hid] at ht₀
      exact ht (by simpa using ht₀)
  have hmapOf : ∀ u x, ({ (w.unlinkAll ((w.frames.filter fun f : Frame => f.t = t).map
      fun f : Frame => f.id)).updProc t (fun q => { q with frameOf := none }) with
        used := w.used \ ks } : TableView).mapOf u x =
        if u = t then none else w.mapOf u x := by
    intro u x
    by_cases hu : u = t
    · subst hu
      simp [mapOf, updProc_procs]
    · simp [mapOf, updProc_procs, hu, unlinkAll]
  constructor
  case fresh => exact fun g hg => hw.fresh g (List.mem_of_mem_filter hg)
  case ids_nodup => exact hw.ids_nodup.sublist ((List.filter_sublist).map _)
  case pages_nodup => exact hw.pages_nodup.sublist ((List.filter_sublist).map _)
  case pages_used =>
    intro g hg
    obtain ⟨hgm, hgt⟩ := (hleft g).mp hg
    refine Finset.mem_sdiff.mpr ⟨hw.pages_used g hgm, fun hk => ?_⟩
    -- a page `t` mapped belongs to a loaded frame of `t`, which is not `g`
    obtain ⟨x, hx⟩ := hks _ hk
    have hwx : w.mapOf t x = some g.userPage := by simp [mapOf, hq, hm, hx]
    obtain ⟨f, hf, hfl, hft, hfx⟩ := hw.mapped_loaded t x _ hwx
    have hmf := (hw.loaded_mapped f hf hfl).2
    rw [hft, hfx, hwx, Option.some.injEq] at hmf
    exact hgt (hw.eq_of_page hgm hf hmf ▸ hft)
  case loaded_mapped =>
    intro g hg hgl
    obtain ⟨hgm, hgt⟩ := (hleft g).mp hg
    rw [hmapOf, if_neg hgt]
    exact hw.loaded_mapped g hgm hgl
  case mapped_loaded =>
    intro u x k h
    rw [hmapOf] at h
    split_ifs at h with hu
    obtain ⟨g, hg, hgl, hgu, hgx⟩ := hw.mapped_loaded u x k h
    exact ⟨g, (hleft g).mpr ⟨hg, hgu ▸ hu⟩, hgl, hgu, hgx⟩
  case pending_frame =>
    intro u q' fid hq' hfid
    obtain ⟨q₀, hq₀, h₀⟩ := procs_of_updProc hq'
    have hp : q'.pending = q₀.pending := by rcases h₀ with rfl | rfl <;> rfl
    rw [hp] at hfid
    obtain ⟨hlt, hfr⟩ := hw.pending_frame u q₀ fid hq₀ hfid
    exact ⟨hlt, fun g hg => hfr g (List.mem_of_mem_filter hg)⟩
  case dying_idle =>
    intro u q' hq' hd'
    obtain ⟨q₀, hq₀, h₀⟩ := procs_of_updProc hq'
    have hpd : q'.pending = q₀.pending ∧ q'.dying = q₀.dying := by
      rcases h₀ with rfl | rfl <;> exact ⟨rfl, rfl⟩
    rw [hpd.1]
    exact hw.dying_idle u q₀ hq₀ (hpd.2 ▸ hd')

/-- A new thread with no mappings, outside any page fault. -/
lemma spawn {t : Tid} (hn : w.procs t = none) :
    ({ w with procs := Function.update w.procs t (some ProcView.fresh) } : TableView).Inv := by
  have hmapOf : ∀ u x, ({ w with procs := Function.update w.procs t (some ProcView.fresh) } :
      TableView).mapOf u x = if u = t then none else w.mapOf u x := by
    intro u x
    by_cases hu : u = t
    · subst hu
      simp [mapOf, ProcView.fresh]
    · simp [mapOf, hu]
  have hprocs : ∀ u q, ({ w with procs := Function.update w.procs t (some ProcView.fresh) } :
      TableView).procs u = some q → (u = t ∧ q = ProcView.fresh) ∨ (u ≠ t ∧ w.procs u = some q) := by
    intro u q h
    by_cases hu : u = t
    · subst hu
      simp only [Function.update_self, Option.some.injEq] at h
      exact .inl ⟨rfl, h.symm⟩
    · simp only [Function.update_of_ne hu] at h
      exact .inr ⟨hu, h⟩
  constructor
  case fresh => exact hw.fresh
  case ids_nodup => exact hw.ids_nodup
  case pages_nodup => exact hw.pages_nodup
  case pages_used => exact hw.pages_used
  case loaded_mapped =>
    intro g hg hgl
    obtain ⟨hpte, hmap⟩ := hw.loaded_mapped g hg hgl
    -- the new thread had no record, so no loaded frame is its own
    have hgt : g.t ≠ t := by
      rintro rfl
      simp [mapOf, hn] at hmap
    rw [hmapOf, if_neg hgt]
    exact ⟨hpte, hmap⟩
  case mapped_loaded =>
    intro u x k h
    rw [hmapOf] at h
    split_ifs at h
    exact hw.mapped_loaded u x k h
  case pending_frame =>
    intro u q fid hq hfid
    rcases hprocs u q hq with ⟨-, rfl⟩ | ⟨-, hq⟩
    · cases hfid
    · exact hw.pending_frame u q fid hq hfid
  case dying_idle =>
    intro u q hq hd
    rcases hprocs u q hq with ⟨-, rfl⟩ | ⟨-, hq⟩
    · cases hd
    · exact hw.dying_idle u q hq hd

end Inv

end TableView

end TinyOs
