import TinyOs.Vm.TableInv

/-!
The frame table and the page tables agree in every reachable state of the virtual-memory
machine. Each step of the machine is one of the view's updates, made under the condition
`Inv`'s update lemmas ask for, so the agreement is an invariant of every run; what it says of
`frame_list` and the page directories is then read off it.

* `ftGetPage_inv`, `freeAndExit_inv`, `installFrame_inv`: the frame table's operations as the
  page-fault paths use them, the error exits included;
* `vmStep_inv`, `VmReachable.view_inv`: one step, and every reachable state;
* `frame_table_agrees`: a process's entry for a page is present exactly when one frame of
  `frame_list` is loaded for it with its `PTE` pointing at the entry, and the entry maps that
  frame's pool page; no pool page belongs to two frames.
-/

namespace TinyOs

namespace VmState

variable {s s' s₁ : VmState} {t : Tid}

/-- After `ft_get_page` for `t` the frame table still agrees, the new frame `fid` is `t`'s own
and unloaded, and no thread's exit flag moved. -/
lemma ftGetPage_inv {z : Bool} {fid : ℕ} (hs : s.view.Inv) (h : s.ftGetPage t z = some (fid, s₁)) :
    s₁.view.Inv ∧ fid < s₁.nextFrameId ∧
      (∀ f ∈ s₁.frameList, f.id = fid → f.loaded = false ∧ f.t = t) ∧
      ∀ u, (s₁.view.procs u).map (·.dying) = (s.view.procs u).map (·.dying) := by
  obtain ⟨rfl, ⟨p, hp, hv⟩ | ⟨f, hf, hl, hv⟩⟩ := view_ftGetPage h
  · -- a free pool page
    have hinv : ((s.view.take p).push t p).Inv :=
      (hs.take p).push (Finset.mem_insert_self p _) fun g hg he => hp (he ▸ hs.pages_used g hg)
    refine ⟨hv ▸ hinv, ?_, ?_, fun u => by rw [hv]; rfl⟩
    · have hn : s₁.nextFrameId = s.nextFrameId + 1 := congrArg TableView.nextFrameId hv
      omega
    · rw [← view_frames, hv]
      exact (hs.take p).push_frame_of_id
  · -- the page of an evicted frame
    have hev := hs.evict hf hl
    have hinv : (((s.view.setFrame f.t f.virtualAddress none).unlink f.id).push t f.userPage).Inv :=
      hev.push (hs.pages_used f hf) fun g hg he => by
      obtain ⟨hgm, hid⟩ := List.mem_filter.mp hg
      rw [hs.eq_of_page hgm hf he] at hid
      simp at hid
    refine ⟨hv ▸ hinv, ?_, ?_, fun u => by rw [hv]; exact TableView.setFrame_dying⟩
    · have hn : s₁.nextFrameId = s.nextFrameId + 1 := congrArg TableView.nextFrameId hv
      omega
    · rw [← view_frames, hv]
      exact hev.push_frame_of_id


/-- The frame `find?` returns for an identity is in the list and has that identity. -/
lemma find?_frame {l : List Frame} {fid : ℕ} {f : Frame} (h : l.find? (·.id = fid) = some f) :
    f ∈ l ∧ f.id = fid :=
  ⟨List.mem_of_find?_eq_some h, by simpa using List.find?_some h⟩

/-- `ft_get_page` followed by recording the frame `fid` it returned in a non-exiting thread's
place in a page fault. -/
lemma getPage_pending_inv {z : Bool} {fid : ℕ} {p : Proc} {P : Pending} (hs : s.view.Inv)
    (hp : s.procs t = some p) (hd : p.dying = false) (h : s.ftGetPage t z = some (fid, s₁))
    (hP : P.frameId? = some fid) : (s₁.setPending t P).view.Inv := by
  obtain ⟨hs₁, hlt, hfr, hdy⟩ := ftGetPage_inv hs h
  -- the thread's record survives an eviction, still not exiting
  obtain ⟨q, hq, hqd⟩ : ∃ q, s₁.view.procs t = some q ∧ q.dying = false := by
    have hdt := hdy t
    cases hq : s₁.procs t with
    | none => simp [hq, hp] at hdt
    | some p₁ => exact ⟨p₁.view, by simp [hq], by simpa [hq, hp, Proc.view, hd] using hdt⟩
  rw [view_setPending]
  refine hs₁.setPending hq (fun fid' hfid' => ?_) (fun hd' => absurd (hqd ▸ hd') (by simp))
  rw [hP, Option.some.injEq] at hfid'
  subst hfid'
  exact ⟨hlt, hfr⟩

lemma pageFault_inv {addr esp : ℕ} (hs : s.view.Inv) (h : s.pageFault t addr esp = some s') :
    s'.view.Inv := by
  obtain ⟨p, fid, s₁, hp, -, hd, h₁, rfl⟩ := pageFault_eq_some h
  exact getPage_pending_inv hs hp hd h₁ rfl

lemma setupStack_inv (hs : s.view.Inv) (h : s.setupStack t = some s') : s'.view.Inv := by
  obtain ⟨p, fid, s₁, hp, -, hd, h₁, rfl⟩ := setupStack_eq_some h
  exact getPage_pending_inv hs hp hd h₁ rfl

/-- The error exit of a page fault: the thread leaves the fault, frees the frame `f` it holds
with `ft_free_page`, and exits. -/
lemma freeAndExit_inv {p : Proc} {f : Frame} (hs : s.view.Inv) (hp : s.procs t = some p)
    (hf : f ∈ s.frameList) (hfid : p.pending.frameId? = some f.id)
    (h₁ : (s.setPending t .idle).ftFreePage t f.userPage = some s₁) (h₂ : s₁.exitSpt t = some s') :
    s'.view.Inv := by
  have hq : s.view.procs t = some p.view := by simp [hp]
  obtain ⟨-, hfr⟩ := hs.pending_frame t p.view f.id hq hfid
  obtain ⟨hfl, hft⟩ := hfr f hf rfl
  have hs₀ : (s.setPending t .idle).view.Inv := by
    rw [view_setPending]
    exact hs.setPending hq (fun _ h => by cases h) fun _ => rfl
  have hs₁ : s₁.view.Inv := by
    obtain ⟨-, ⟨g, hg, hgk, -, hv⟩ | ⟨hno, -⟩⟩ := view_ftFreePage h₁
    · -- the frame `ft_free_page` finds on that pool page is `f`, which is unloaded
      obtain rfl : g = f := hs₀.eq_of_page hg hf hgk
      rw [hv]
      refine (hs₀.unlink_unloaded hf hfl).free fun g' hg' hk => ?_
      obtain ⟨hg'm, hid⟩ := List.mem_filter.mp hg'
      rw [hs₀.eq_of_page hg'm hf hk] at hid
      simp at hid
    · exact absurd ⟨rfl, hft⟩ (hno f hf)
  obtain ⟨p₁, hp₁, hidle, -, hv⟩ := view_exitSpt h₂
  rw [hv]
  exact hs₁.exit (q := p₁.view) (by simp [hp₁]) hidle

/-- Installing the frame `f` a thread holds, on either outcome of `install_page`. -/
lemma installFrame_inv {p : Proc} {pd : Pagedir} {f : Frame} {v : ℕ} {w d ok : Bool}
    (hs : s.view.Inv) (hp : s.procs t = some p) (hpd : p.pagedir = some pd)
    (hf : f ∈ s.frameList) (hfid : p.pending.frameId? = some f.id)
    (h : s.installFrame t pd f v w d ok = some s') : s'.view.Inv := by
  rcases view_installFrame h with ⟨hpres, hv⟩ | ⟨s₁, h₁, h₂⟩
  · rw [hv, TableView.modFrame_modFrame
      (fun _ => rfl : ∀ g : Frame, ({ g with pte := some (t, v) } : Frame).id = g.id)]
    have hv : pd.frameOf v = none := by simp [Pagedir.frameOf, Pte.frame, hpres]
    exact hs.install (q := p.view) (by simp [hp]) (by simp [Proc.view, hpd]) hv hf hfid
  · exact freeAndExit_inv hs hp hf hfid h₁ h₂

lemma loadPage_inv (hs : s.view.Inv) (h : s.loadPage t = some s') : s'.view.Inv := by
  obtain ⟨p, page, gen, fid, f, hp, hq, hfind, h⟩ := loadPage_eq_some h
  obtain ⟨hf, rfl⟩ := find?_frame hfind
  have hpf : p.pending.frameId? = some f.id := by rw [hq]; rfl
  rcases view_fillFrame h with ⟨w', d, hv⟩ | ⟨s₁, h₁, h₂⟩
  · have hpv : s.view.procs t = some p.view := by simp [hp]
    rw [hv]
    refine hs.setPending hpv (fun fid' hfid' => ?_) (fun hd => ?_)
    · obtain rfl : f.id = fid' := Option.some.inj hfid'
      exact hs.pending_frame t p.view f.id hpv hpf
    · -- an exiting thread is idle, and this one is in a page fault
      have hidle := hs.dying_idle t p.view hpv hd
      simp [Proc.view, hq] at hidle
  · exact freeAndExit_inv hs hp hf hpf h₁ h₂

lemma installFault_inv {ok : Bool} (hs : s.view.Inv) (h : s.installFault t ok = some s') :
    s'.view.Inv := by
  obtain ⟨p, page, w, d, fid, pd, f, hp, hq, hpd, hfind, h⟩ := installFault_eq_some h
  obtain ⟨hf, rfl⟩ := find?_frame hfind
  exact installFrame_inv hs hp hpd hf (by rw [hq]; rfl) h

lemma installStack_inv {ok : Bool} (hs : s.view.Inv) (h : s.installStack t ok = some s') :
    s'.view.Inv := by
  obtain ⟨p, fid, pd, f, hp, hq, hpd, hfind, h⟩ := installStack_eq_some h
  obtain ⟨hf, rfl⟩ := find?_frame hfind
  exact installFrame_inv hs hp hpd hf (by rw [hq]; rfl) h

lemma exitSpt_inv (hs : s.view.Inv) (h : s.exitSpt t = some s') : s'.view.Inv := by
  obtain ⟨p, hp, hidle, -, hv⟩ := view_exitSpt h
  rw [hv]
  exact hs.exit (q := p.view) (by simp [hp]) hidle

lemma processExit_inv (hs : s.view.Inv) (h : s.processExit t = some s') : s'.view.Inv := by
  obtain ⟨p, hp, -, ⟨-, rfl⟩ | ⟨pd, hpd, hv⟩⟩ := view_processExit h
  · exact hs
  rw [hv]
  -- the pages given back are the pages `t`'s present entries map
  refine hs.destroy (q := p.view) (m := pd.frameOf) (by simp [hp]) (by simp [Proc.view, hpd])
    fun k hk => ?_
  obtain ⟨x, hx, hxk⟩ := Pagedir.mem_presentPages.mp (List.mem_toFinset.mp hk)
  exact ⟨x, by simp [Pagedir.frameOf, Pte.frame, hx, hxk]⟩

lemma spawn_inv (hs : s.view.Inv) (h : s.spawn t = some s') : s'.view.Inv := by
  obtain ⟨hn, hv⟩ := view_spawn h
  rw [hv]
  exact hs.spawn (by simp [hn])

end VmState

/-- Every step of the machine keeps the frame table in agreement with the page tables. -/
theorem vmStep_inv {s s' : VmState} {e : VmEvent} (hs : s.view.Inv) (h : vmStep s e = some s') :
    s'.view.Inv := by
  cases e with
  | spawn t => exact VmState.spawn_inv hs h
  | addLazy t v e => exact VmState.view_addLazyPage h ▸ hs
  | munmap t mapping => exact VmState.view_munmap h ▸ hs
  | access t addr w => exact VmState.view_userAccess h ▸ hs
  | fault t addr esp => exact VmState.pageFault_inv hs h
  | load t => exact VmState.loadPage_inv hs h
  | install t ok => exact VmState.installFault_inv hs h
  | stack t => exact VmState.setupStack_inv hs h
  | stackInstall t ok => exact VmState.installStack_inv hs h
  | exit t => exact VmState.exitSpt_inv hs h
  | processExit t => exact VmState.processExit_inv hs h

lemma vmInit_inv (poolSize : ℕ) (mem : ℕ → Page) (files : ℕ → FileData) (diskSize : ℕ)
    (disk : ℕ → Sector) : (vmInit poolSize mem files diskSize disk).view.Inv where
  fresh f hf := by cases hf
  ids_nodup := List.nodup_nil
  pages_nodup := List.nodup_nil
  pages_used f hf := by cases hf
  loaded_mapped f hf := by cases hf
  mapped_loaded t v k h := by simp [TableView.mapOf, vmInit] at h
  pending_frame t q fid hq := by simp [vmInit] at hq
  dying_idle t q hq := by simp [vmInit] at hq

/-- The agreement holds in every reachable state. -/
theorem VmReachable.view_inv {s : VmState} (h : VmReachable s) : s.view.Inv := by
  induction h with
  | init => exact vmInit_inv ..
  | step e _ hstep ih => exact vmStep_inv ih hstep

/-- A list without duplicates that holds `a` and nothing else is `[a]`. -/
lemma eq_singleton_of_nodup {α : Type} {l : List α} {a : α} (hl : l.Nodup) (ha : a ∈ l)
    (h : ∀ b ∈ l, b = a) : l = [a] := by
  have hr : l = List.replicate l.length a := List.eq_replicate_iff.mpr ⟨rfl, h⟩
  have hlen : l.length ≤ 1 := by
    rw [hr] at hl
    exact List.nodup_replicate.mp hl
  have hpos : 0 < l.length := List.length_pos_of_mem ha
  rw [hr, show l.length = 1 by omega, List.replicate_one]

/-- In every reachable state the frame table agrees with the page tables: no pool page is the
page of two frames, and a process's entry for page `v` is present exactly when `frame_list`
holds one frame loaded for that page of that process with its `PTE` pointing at the entry, the
entry then mapping that frame's pool page. -/
theorem frame_table_agrees {s : VmState} (h : VmReachable s) :
    (s.frameList.map (·.userPage)).Nodup ∧
      ∀ t p pd v, s.procs t = some p → p.pagedir = some pd →
        ((pd.lookup v).present = true ↔
          ∃ f, s.frameList.filter (Frame.Maps t v) = [f] ∧ (pd.lookup v).kpage = f.userPage) := by
  have hw := h.view_inv
  refine ⟨hw.pages_nodup, fun t p pd v hp hpd => ?_⟩
  have hmap : s.view.mapOf t v = pd.frameOf v := by
    simp [TableView.mapOf, hp, Proc.view, hpd]
  constructor
  · intro hpres
    have hm : s.view.mapOf t v = some (pd.lookup v).kpage := by
      simp [hmap, Pagedir.frameOf, Pte.frame, hpres]
    obtain ⟨f, hf, hfl, hft, hfv⟩ := hw.mapped_loaded t v _ hm
    obtain ⟨hpte, hmf⟩ := hw.loaded_mapped f hf hfl
    rw [hft, hfv, hm, Option.some.injEq] at hmf
    refine ⟨f, eq_singleton_of_nodup ((hw.ids_nodup.of_map _).filter _) ?_ ?_, hmf⟩
    · exact List.mem_filter.mpr ⟨hf, by simp [Frame.Maps, hft, hfv, hfl, hpte]⟩
    · -- a second frame mapping the page would be a second loaded frame for it
      intro g hg
      obtain ⟨hgm, hgmaps⟩ := List.mem_filter.mp hg
      simp only [Frame.Maps, Bool.and_eq_true, decide_eq_true_eq] at hgmaps
      obtain ⟨⟨⟨hgt, hgv⟩, hgl⟩, -⟩ := hgmaps
      exact hw.eq_of_loaded hgm hf hgl hfl (hgt.trans hft.symm) (hgv.trans hfv.symm)
  · rintro ⟨f, hfs, -⟩
    have hf : f ∈ s.frameList.filter (Frame.Maps t v) := by
      rw [hfs]
      exact List.mem_singleton_self f
    obtain ⟨hfm, hmaps⟩ := List.mem_filter.mp hf
    simp only [Frame.Maps, Bool.and_eq_true, decide_eq_true_eq] at hmaps
    obtain ⟨⟨⟨rfl, rfl⟩, hfl⟩, -⟩ := hmaps
    -- a loaded frame is mapped by its owner's entry for its page
    have hm := (hw.loaded_mapped f hfm hfl).2
    rw [hmap] at hm
    simp only [Pagedir.frameOf, Pte.frame, Option.ite_none_right_eq_some] at hm
    exact hm.1

/-- A process sets up its stack and grows it by one page: in the state reached, the frame
table agrees with the page tables. -/
theorem frame_table_agrees_after_growth :
    ∃ s, vmRun (vmInit 2 (fun _ => Page.zero) (fun _ => ⟨0, fun _ => 0, 0⟩) 16 (fun _ _ => 0))
        [.spawn 1, .stack 1, .stackInstall 1 true, .fault 1 0xBFFFE000 0xBFFFE000, .load 1,
          .install 1 true] = some s ∧
      (s.frameList.map (·.userPage)).Nodup ∧
        ∀ t p pd v, s.procs t = some p → p.pagedir = some pd →
          ((pd.lookup v).present = true ↔
            ∃ f, s.frameList.filter (Frame.Maps t v) = [f] ∧ (pd.lookup v).kpage = f.userPage) := by
  have hrun : (vmRun (vmInit 2 (fun _ => Page.zero) (fun _ => ⟨0, fun _ => 0, 0⟩) 16
      (fun _ _ => 0)) [.spawn 1, .stack 1, .stackInstall 1 true, .fault 1 0xBFFFE000 0xBFFFE000,
        .load 1, .install 1 true]).isSome := by
    decide
  obtain ⟨s, hs⟩ := Option.isSome_iff_exists.mp hrun
  exact ⟨s, hs, frame_table_agrees ((VmReachable.init _ _ _ _ _).run hs)⟩

end TinyOs
