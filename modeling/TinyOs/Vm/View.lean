import TinyOs.Vm.Machine

/-!
What the agreement between `frame_list` and the page tables reads of the state, and what each
operation of the frame table and of the machine does to it. The view keeps the frames, the
user pool's used pages, the next frame identity, and of each process the frame each of its
pages maps (`PTE_P` and the frame address), its place in a page fault and whether it is
exiting. Accessed and dirty bits, memory contents, files, swap, supplemental tables and the
clock hand are not part of it, so every operation that only touches those keeps the view.

* `TableView` and its updates (`setFrame`, `setPending`, `unlink`, `push`, `take`, `free`,
  `modFrame`, `unlinkAll`);
* `view_ftReplacement`, `view_ftGetPage`, `view_ftFreePage`, `view_ftDestroyLoop`: the frame
  table's operations as view updates;
* `view_exitSpt`, `view_processExit`, `view_installFrame`, `view_fillFrame`, `view_spawn`,
  `view_munmap`: the machine's steps as view updates.
-/

namespace TinyOs

/-- The frame a page-table entry maps, when it is present. -/
def Pte.frame (e : Pte) : Option ℕ := if e.present then some e.kpage else none

/-- The frame each user page of a page directory maps. -/
def Pagedir.frameOf (pd : Pagedir) (v : ℕ) : Option ℕ := (pd.lookup v).frame

lemma Pagedir.frameOf_modify (pd : Pagedir) (v : ℕ) (g : Pte → Pte) :
    (pd.modify v g).frameOf = Function.update pd.frameOf v (g (pd.lookup v)).frame := by
  funext w
  by_cases h : w = v
  · subst h
    simp [frameOf]
  · simp [frameOf, h]

/-- What the agreement of frames and page tables reads of a process: the frames its page
directory maps (`none` once it is destroyed), its place in a page fault, and whether it is
exiting. -/
structure ProcView where
  frameOf : Option (ℕ → Option ℕ)
  pending : Pending
  dying : Bool

/-- A process's view. -/
def Proc.view (p : Proc) : ProcView := ⟨p.pagedir.map Pagedir.frameOf, p.pending, p.dying⟩

/-- A new process: no mappings, idle, not exiting. -/
def ProcView.fresh : ProcView := ⟨some fun _ => none, .idle, false⟩

/-- The frame table, the user pool's used pages and the processes' views. -/
structure TableView where
  frames : List Frame
  used : Finset ℕ
  nextFrameId : ℕ
  procs : Tid → Option ProcView

namespace TableView

/-- Change process `t`'s view, if it exists. -/
def updProc (w : TableView) (t : Tid) (g : ProcView → ProcView) : TableView :=
  { w with procs := Function.update w.procs t ((w.procs t).map g) }

/-- Process `t`'s page `v` now maps `o`. -/
def setFrame (w : TableView) (t : Tid) (v : ℕ) (o : Option ℕ) : TableView :=
  w.updProc t fun q => { q with frameOf := q.frameOf.map fun m => Function.update m v o }

/-- Process `t` is now at `q` in a page fault. -/
def setPending (w : TableView) (t : Tid) (q : Pending) : TableView :=
  w.updProc t fun p => { p with pending := q }

lemma updProc_id (w : TableView) (t : Tid) : w.updProc t id = w := by
  cases w
  simp only [updProc, Option.map_id, id_eq, Function.update_eq_self]

/-- Frame `id` leaves the table. -/
def unlink (w : TableView) (id : ℕ) : TableView := { w with frames := w.frames.filter (·.id ≠ id) }

/-- Pool page `p` is taken. -/
def take (w : TableView) (p : ℕ) : TableView := { w with used := insert p w.used }

/-- Pool page `p` is given back. -/
def free (w : TableView) (p : ℕ) : TableView := { w with used := w.used.erase p }

/-- A fresh unloaded frame of thread `t` on pool page `p`. -/
def push (w : TableView) (t : Tid) (p : ℕ) : TableView :=
  { w with frames := w.frames ++ [⟨w.nextFrameId, t, p, none, 0, false⟩],
           nextFrameId := w.nextFrameId + 1 }

/-- The frames whose identities are in `ids` leave the table. -/
def unlinkAll (w : TableView) (ids : List ℕ) : TableView :=
  { w with frames := w.frames.filter (·.id ∉ ids) }

/-- Change frame `id`. -/
def modFrame (w : TableView) (id : ℕ) (g : Frame → Frame) : TableView :=
  { w with frames := w.frames.map fun f => if f.id = id then g f else f }

end TableView

namespace VmState

/-- The view of a state. -/
def view (s : VmState) : TableView :=
  ⟨s.frameList, s.used, s.nextFrameId, fun t => (s.procs t).map Proc.view⟩

lemma view_updProc {s : VmState} {t : Tid} {g : Proc → Proc} {G : ProcView → ProcView}
    (hg : ∀ p, (g p).view = G p.view) : (s.updProc t g).view = s.view.updProc t G := by
  simp only [view, updProc, TableView.updProc, TableView.mk.injEq, true_and]
  funext u
  by_cases hu : u = t
  · subst hu
    cases s.procs u <;> simp [hg]
  · simp [hu]

lemma view_modifyPte_of_frame {s : VmState} {t : Tid} {v : ℕ} {g : Pte → Pte}
    (hg : ∀ e, (g e).frame = e.frame) : (s.modifyPte t v g).view = s.view := by
  rw [modifyPte, view_updProc (G := id), TableView.updProc_id]
  intro p
  cases hpd : p.pagedir <;> simp [Proc.view, hpd, Pagedir.frameOf_modify, hg, Pagedir.frameOf]

lemma view_pagedirSetAccessed (s : VmState) (t : Tid) (v : ℕ) (b : Bool) :
    (s.pagedirSetAccessed t v b).view = s.view :=
  view_modifyPte_of_frame fun _ => rfl

lemma view_pagedirSetDirty (s : VmState) (t : Tid) (v : ℕ) (b : Bool) :
    (s.pagedirSetDirty t v b).view = s.view :=
  view_modifyPte_of_frame fun _ => rfl

lemma view_setFrame {s : VmState} {t : Tid} {v : ℕ} {g : Pte → Pte} {o : Option ℕ}
    (hg : ∀ e, (g e).frame = o) : (s.modifyPte t v g).view = s.view.setFrame t v o := by
  rw [modifyPte, TableView.setFrame, view_updProc]
  intro p
  cases hpd : p.pagedir <;> simp [Proc.view, hpd, Pagedir.frameOf_modify, hg]

lemma view_pagedirClearPage (s : VmState) (t : Tid) (v : ℕ) :
    (s.pagedirClearPage t v).view = s.view.setFrame t v none :=
  view_setFrame fun _ => rfl

lemma view_modifySpt (s : VmState) (t : Tid) (g : Spt → Spt) : (s.modifySpt t g).view = s.view := by
  rw [modifySpt, view_updProc (G := id), TableView.updProc_id]
  intro p
  rfl

lemma view_setPending (s : VmState) (t : Tid) (q : Pending) :
    (s.setPending t q).view = s.view.setPending t q :=
  view_updProc fun _ => rfl

@[simp] lemma view_frames (s : VmState) : s.view.frames = s.frameList := rfl

@[simp] lemma view_used (s : VmState) : s.view.used = s.used := rfl

@[simp] lemma view_nextFrameId (s : VmState) : s.view.nextFrameId = s.nextFrameId := rfl

@[simp] lemma view_procs (s : VmState) (t : Tid) : s.view.procs t = (s.procs t).map Proc.view :=
  rfl

lemma view_pushFrame (s : VmState) (t : Tid) (p : ℕ) :
    (s.pushFrame t p).view = s.view.push t p := rfl

lemma view_modifyFrame (s : VmState) (id : ℕ) (g : Frame → Frame) :
    (s.modifyFrame id g).view = s.view.modFrame id g := rfl

lemma view_unlinkFrame {s s' : VmState} {id : ℕ} (h : s.unlinkFrame id = some s') :
    s'.view = s.view.unlink id := by
  obtain ⟨hand, -, rfl⟩ := unlinkFrame_eq_some.mp h
  rfl

lemma view_pallocFreePage {s s' : VmState} {p : ℕ} (h : s.pallocFreePage p = some s') :
    p ∈ s.used ∧ s'.view = s.view.free p := by
  unfold pallocFreePage at h
  split_ifs at h with hp
  rw [Option.some.injEq] at h
  subst h
  exact ⟨hp, rfl⟩

/-! ### The frame table's operations -/

lemma view_passFrame {s s' : VmState} {f : Frame} (h : s.passFrame f = some s') :
    s'.view = s.view := by
  unfold passFrame at h
  obtain ⟨hand, -, rfl⟩ := Option.map_eq_some_iff.mp h
  split_ifs
  · exact view_pagedirSetAccessed s _ _ _
  · rfl

lemma view_clockLoop : ∀ {n : ℕ} {s s' : VmState} {f : Frame}, s.clockLoop n = some (f, s') →
    s'.view = s.view
  | 0, _, _, _, h => by cases h
  | n + 1, s, s', f, h => by
      simp only [clockLoop, Option.bind_eq_bind, Option.bind_eq_some_iff] at h
      obtain ⟨g, -, pass, -, h⟩ := h
      cases pass with
      | true =>
          simp only [if_true, Option.bind_eq_some_iff] at h
          obtain ⟨s₁, h₁, h⟩ := h
          rw [view_clockLoop h, view_passFrame h₁]
      | false =>
          simp only [Bool.false_eq_true, if_false, Option.some.injEq, Prod.mk.injEq] at h
          rw [← h.2]

lemma view_getFrameForReplacement {s s' : VmState} {f : Frame}
    (h : s.getFrameForReplacement = some (f, s')) : s'.view = s.view := by
  unfold getFrameForReplacement at h
  rw [view_clockLoop h]
  rfl

lemma view_evictDirty {s s' : VmState} {f : Frame} {ev : Option SpecialPage}
    (h : s.evictDirty f ev = some s') : s'.view = s.view := by
  unfold evictDirty at h
  split at h
  · rw [Option.some.injEq] at h
    subst h
    rfl
  · split at h
    · rw [Option.some.injEq] at h
      subst h
      exact view_modifySpt _ _ _
    · cases h

lemma view_evictFrame {s s' : VmState} {f : Frame} {e : Pte} {ev : Option SpecialPage}
    (h : s.evictFrame f e ev = some s') :
    s'.view = s.view.setFrame f.t f.virtualAddress none := by
  simp only [evictFrame] at h
  split_ifs at h
  · rw [view_evictDirty h, view_pagedirClearPage]
  · rw [Option.some.injEq] at h
    subst h
    exact view_pagedirClearPage _ _ _

/-- An eviction takes a loaded frame of the list out of its page table and out of the list,
and hands on its pool page. -/
lemma view_ftReplacement {s s' : VmState} {p : ℕ} (h : s.ftReplacement = some (p, s')) :
    ∃ f ∈ s.frameList, f.loaded ∧ p = f.userPage ∧
      s'.view = (s.view.setFrame f.t f.virtualAddress none).unlink f.id := by
  obtain ⟨f, s₁, e, pr, s₂, s₃, hand, h₁, -, -, h₂, h₃, -, hp, rfl⟩ := ftReplacement_eq_some h
  obtain ⟨hf, hl, -, -⟩ := getFrameForReplacement_spec h₁
  refine ⟨f, hf, hl, hp, ?_⟩
  show s₃.view = _
  rw [view_unlinkFrame h₃, view_evictFrame h₂, view_getFrameForReplacement h₁]

lemma pallocGetPage_not_mem {s : VmState} {p : ℕ} (h : s.pallocGetPage = some p) :
    p ∉ s.used := by
  have := List.find?_some h
  simpa using this

/-- `ft_get_page` appends a fresh frame for `t`, on a free pool page or on the page of an
evicted loaded frame. -/
lemma view_ftGetPage {s s' : VmState} {t : Tid} {z : Bool} {fid : ℕ}
    (h : s.ftGetPage t z = some (fid, s')) :
    fid = s.nextFrameId ∧
      ((∃ p, p ∉ s.used ∧ s'.view = (s.view.take p).push t p) ∨
        ∃ f ∈ s.frameList, f.loaded ∧
          s'.view = ((s.view.setFrame f.t f.virtualAddress none).unlink f.id).push t f.userPage) := by
  unfold ftGetPage at h
  split at h
  · rename_i p hp
    rw [Option.some.injEq, Prod.mk.injEq] at h
    obtain ⟨rfl, rfl⟩ := h
    exact ⟨rfl, .inl ⟨p, pallocGetPage_not_mem hp, rfl⟩⟩
  · obtain ⟨⟨p, s₁⟩, hr, he⟩ := Option.map_eq_some_iff.mp h
    rw [Prod.mk.injEq] at he
    obtain ⟨rfl, rfl⟩ := he
    obtain ⟨f, hf, hl, rfl, hv⟩ := view_ftReplacement hr
    have hnext : s₁.nextFrameId = s.nextFrameId := congrArg TableView.nextFrameId hv
    refine ⟨hnext, .inr ⟨f, hf, hl, ?_⟩⟩
    rw [view_pushFrame, hv]

/-- `ft_free_page` unlinks the first frame of `t` on page `k`, if any, and frees `k`, which was
in use. -/
lemma view_ftFreePage {s s' : VmState} {t : Tid} {k : ℕ} (h : s.ftFreePage t k = some s') :
    k ∈ s.used ∧
      ((∃ f ∈ s.frameList, f.userPage = k ∧ f.t = t ∧ s'.view = (s.view.unlink f.id).free k) ∨
        (∀ f ∈ s.frameList, ¬(f.userPage = k ∧ f.t = t)) ∧ s'.view = s.view.free k) := by
  unfold ftFreePage at h
  split at h
  · rename_i f hf
    obtain ⟨s₁, h₁, h₂⟩ := Option.bind_eq_some_iff.mp h
    obtain ⟨hk, hv⟩ := view_pallocFreePage h₂
    have hft := List.find?_some hf
    simp only [decide_eq_true_eq] at hft
    have hu := view_unlinkFrame h₁
    refine ⟨?_, .inl ⟨f, List.mem_of_find?_eq_some hf, hft.1, hft.2, ?_⟩⟩
    · have : s₁.used = s.used := congrArg TableView.used hu
      rwa [this] at hk
    · rw [hv, hu]
  · rename_i hf
    obtain ⟨hk, hv⟩ := view_pallocFreePage h
    refine ⟨hk, .inr ⟨fun f hm hft => ?_, hv⟩⟩
    rw [List.find?_eq_none] at hf
    exact hf f hm (by simpa using hft)

lemma view_ftDestroyLoop (t : Tid) :
    ∀ (l : List Frame) {s s' : VmState}, ftDestroyLoop t l s = some s' →
      s'.view = s.view.unlinkAll ((l.filter (·.t = t)).map (·.id))
  | [], s, s', h => by
      simp only [ftDestroyLoop, Option.some.injEq] at h
      subst h
      simp [TableView.unlinkAll]
      rfl
  | f :: rest, s, s', h => by
      simp only [ftDestroyLoop] at h
      split_ifs at h with hf
      · obtain ⟨s₁, h₁, h₂⟩ := Option.bind_eq_some_iff.mp h
        rw [view_ftDestroyLoop t rest h₂, view_unlinkFrame h₁]
        simp only [TableView.unlinkAll, TableView.unlink, List.filter_filter, List.filter_cons, hf,
          decide_true, if_true, List.map_cons, List.mem_cons, not_or]
        congr 2
        funext g
        rw [Bool.and_comm]
        simp
      · rw [view_ftDestroyLoop t rest h]
        simp [hf]

/-! ### The machine's operations -/

lemma view_exitSpt {s s' : VmState} {t : Tid} (h : s.exitSpt t = some s') :
    ∃ p, s.procs t = some p ∧ p.pending = .idle ∧ p.dying = false ∧
      s'.view = s.view.updProc t fun q => { q with dying := true } := by
  obtain ⟨p, fs, hp, hq, hd, rfl⟩ := exitSpt_eq_some h
  exact ⟨p, hp, hq, hd, view_updProc fun _ => rfl⟩

lemma view_foldlM_pallocFreePage : ∀ (ks : List ℕ) {s s' : VmState},
    ks.foldlM (fun s k => s.pallocFreePage k) s = some s' →
      s'.view = { s.view with used := s.used \ ks.toFinset }
  | [], s, s', h => by
      rw [List.foldlM_nil, Option.pure_def, Option.some.injEq] at h
      subst h
      simp
      rfl
  | k :: ks, s, s', h => by
      rw [List.foldlM_cons] at h
      obtain ⟨s₁, h₁, h₂⟩ := Option.bind_eq_some_iff.mp h
      obtain ⟨-, hv⟩ := view_pallocFreePage h₁
      have hu : s₁.used = s.used.erase k := congrArg TableView.used hv
      rw [view_foldlM_pallocFreePage ks h₂, hv, hu]
      simp [TableView.free, Finset.erase_sdiff_comm, Finset.sdiff_insert]

/-- `process_exit` of an exiting thread: its frames leave the table, its page directory is
destroyed, and the pages its present entries mapped go back to the pool. -/
lemma view_processExit {s s' : VmState} {t : Tid} (h : s.processExit t = some s') :
    ∃ p, s.procs t = some p ∧ p.dying = true ∧
      (p.pagedir = none ∧ s' = s ∨
        ∃ pd, p.pagedir = some pd ∧
          s'.view = { (s.view.unlinkAll ((s.frameList.filter (·.t = t)).map (·.id))).updProc t
            (fun q => { q with frameOf := none }) with used := s.used \ pd.presentPages.toFinset }) := by
  obtain ⟨p, hp, hd, hnone | ⟨pd, s₁, hpd, h₁, h₂⟩⟩ := processExit_eq_some h
  · exact ⟨p, hp, hd, .inl hnone⟩
  refine ⟨p, hp, hd, .inr ⟨pd, hpd, ?_⟩⟩
  have hv₁ : s₁.view = s.view.unlinkAll ((s.frameList.filter (·.t = t)).map (·.id)) :=
    view_ftDestroyLoop t s.frameList h₁
  rw [view_foldlM_pallocFreePage _ h₂, view_updProc (G := fun q => { q with frameOf := none })
    fun _ => rfl, hv₁]
  have hu : s₁.used = s.used := congrArg TableView.used hv₁
  simp only [updProc_used, hu]

lemma view_installPage {s s' : VmState} {t : Tid} {pd : Pagedir} {v fid k : ℕ} {w ok : Bool}
    (h : s.installPage t pd v fid k w ok = some s') :
    (pd.lookup v).present = false ∧
      s'.view = (s.view.setFrame t v (some k)).modFrame fid
        fun g => { g with pte := some (t, v) } := by
  obtain ⟨hp, rfl⟩ := installPage_eq_some h
  exact ⟨hp, by rw [view_modifyFrame, view_setFrame (o := some k) fun _ => rfl]⟩

/-- The two outcomes of the install under `frame_lock`: frame `f` maps page `v`, carries the
entry's address and is loaded; or it is freed and the thread exits. -/
lemma view_installFrame {s s' : VmState} {t : Tid} {pd : Pagedir} {f : Frame} {v : ℕ}
    {w d ok : Bool} (h : s.installFrame t pd f v w d ok = some s') :
    ((pd.lookup v).present = false ∧
      s'.view = (((s.view.setFrame t v (some f.userPage)).modFrame f.id
        fun g => { g with pte := some (t, v) }).modFrame f.id
          fun g => { g with virtualAddress := v, loaded := true }).setPending t .idle) ∨
    ∃ s₁, (s.setPending t .idle).ftFreePage t f.userPage = some s₁ ∧ s₁.exitSpt t = some s' := by
  obtain ⟨s₁, h₁, rfl⟩ | hfail := installFrame_cases h
  · obtain ⟨hp, hv⟩ := view_installPage h₁
    have hd : (if d then s₁.pagedirSetDirty t v true else s₁).view = s₁.view := by
      split_ifs
      · exact view_pagedirSetDirty _ _ _ _
      · rfl
    exact .inl ⟨hp, by rw [view_setPending, view_modifyFrame, hd, hv]⟩
  · exact .inr hfail

/-- The two outcomes of a page-in: the thread moves on to install frame `f`, or a short read
frees the frame and the thread exits. -/
lemma view_fillFrame {s s' : VmState} {t : Tid} {page : ℕ} {f : Frame}
    {gen : Option SpecialPage} (h : s.fillFrame t page f gen = some s') :
    (∃ w d, s'.view = s.view.setPending t (.faultLoaded page w d f.id)) ∨
    ∃ s₁, (s.setPending t .idle).ftFreePage t f.userPage = some s₁ ∧ s₁.exitSpt t = some s' := by
  have hfile : ∀ src ofs za w, s.loadFromFile t page f src ofs za w = some s' →
      (∃ w d, s'.view = s.view.setPending t (.faultLoaded page w d f.id)) ∨
      ∃ s₁, (s.setPending t .idle).ftFreePage t f.userPage = some s₁ ∧ s₁.exitSpt t = some s' := by
    intro src ofs za w hl
    unfold loadFromFile at hl
    split_ifs at hl
    · rw [Option.some.injEq] at hl
      subst hl
      exact .inl ⟨w, false, view_setPending _ _ _⟩
    · exact .inr (Option.bind_eq_some_iff.mp hl)
  cases gen with
  | none =>
      simp only [fillFrame, Option.some.injEq] at h
      subst h
      exact .inl ⟨true, false, view_setPending _ _ _⟩
  | some g =>
      cases g with
      | exec src ofs za w => exact hfile src ofs za w h
      | file src ofs za => exact hfile src ofs za true h
      | swap slot d ev =>
          simp only [fillFrame, Option.some.injEq] at h
          subst h
          exact .inl ⟨true, d, by rw [view_setPending, view_modifySpt]; rfl⟩
      | zero =>
          simp only [fillFrame, Option.some.injEq] at h
          subst h
          exact .inl ⟨true, false, view_setPending _ _ _⟩

lemma view_userAccess {s s' : VmState} {t : Tid} {addr : ℕ} {w : Option UInt8}
    (h : s.userAccess t addr w = some s') : s'.view = s.view := by
  simp only [userAccess, Option.bind_eq_bind, Option.bind_eq_some_iff] at h
  obtain ⟨p, -, pd, -, h⟩ := h
  -- every defined access only sets the accessed and dirty bits of a present entry
  have hpte : ∀ s₁ : VmState, ∀ g : Pte → Pte, some (s₁.modifyPte t (pageOf addr) g) = some s' →
      (∀ e, (g e).frame = e.frame) → s₁.view = s.view → s'.view = s.view := by
    intro s₁ g h₁ hg h₂
    rw [Option.some.injEq] at h₁
    subst h₁
    rw [view_modifyPte_of_frame hg, h₂]
  split_ifs at h with hw
  · split at h
    · exact hpte s _ h (fun _ => rfl) rfl
    · cases h
  · split at h
    · exact hpte s _ h (fun _ => rfl) rfl
    · exact hpte _ _ h (fun _ => rfl) rfl

lemma view_addLazyPage {s s' : VmState} {t : Tid} {v : ℕ} {e : SpecialPage}
    (h : s.addLazyPage t v e = some s') : s'.view = s.view := by
  simp only [addLazyPage, Option.bind_eq_bind, Option.bind_eq_some_iff] at h
  obtain ⟨p, -, h⟩ := h
  split at h
  · cases h
  · split_ifs at h
    rw [Option.some.injEq] at h
    subst h
    exact view_modifySpt _ _ _

lemma view_expireWriteBack (s : VmState) (pd : Pagedir) (v : ℕ) (e : SpecialPage) :
    (s.expireWriteBack pd v e).view = s.view := by
  -- the write-back changes only the files
  cases e with
  | file src ofs za =>
    dsimp only [expireWriteBack]
    split_ifs <;> rfl
  | _ => rfl

lemma view_expirePage (s : VmState) (t : Tid) (pd : Pagedir) (v : ℕ) (e : SpecialPage) :
    (s.expirePage t pd v e).view = s.view := by
  rw [expirePage, view_modifySpt, view_expireWriteBack]

lemma view_munmapLoop {t : Tid} {pd : Pagedir} :
    ∀ {n v : ℕ} {s s' : VmState}, munmapLoop t pd n v s = some s' → s'.view = s.view
  | 0, _, _, _, h => by
      rw [munmapLoop, Option.some.injEq] at h
      rw [h]
  | n + 1, v, s, s', h => by
      simp only [munmapLoop, Option.bind_eq_bind, Option.bind_eq_some_iff] at h
      obtain ⟨p, -, e, -, h⟩ := h
      rw [view_munmapLoop h, view_expirePage]

lemma view_munmap {s s' : VmState} {t : Tid} {mapping : ℕ} (h : s.munmap t mapping = some s') :
    s'.view = s.view := by
  obtain ⟨p, -, -, -, rfl | ⟨src, ofs, za, pd, -, -, -, h⟩⟩ := munmap_eq_some h
  · rfl
  · exact view_munmapLoop h

lemma view_spawn {s s' : VmState} {t : Tid} (h : s.spawn t = some s') :
    s.procs t = none ∧
      s'.view = { s.view with procs := Function.update s.view.procs t (some ProcView.fresh) } := by
  unfold spawn at h
  split at h
  · rename_i hn
    rw [Option.some.injEq] at h
    subst h
    refine ⟨hn, ?_⟩
    simp only [view, TableView.mk.injEq, true_and]
    funext u
    by_cases hu : u = t
    · subst hu
      simp only [Function.update_self, Option.map_some, Proc.view, ProcView.fresh]
      congr
    · simp [hu]
  · cases h

end VmState

end TinyOs
