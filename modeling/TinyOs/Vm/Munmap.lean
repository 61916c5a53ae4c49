import TinyOs.Vm.Agree
import TinyOs.Vm.Locks
import TinyOs.Userprog.Mmap

/-!
`munmap` (`userprog/syscall.c`) on the virtual-memory machine: `expire_page` of each page of the
mapping writes a mapped dirty `FILE` page back to its file and deletes the supplemental entry,
and does nothing else. The page-table entries of the mapping's resident pages stay present and
their frames stay in `frame_list`, so a later access to such a page does not fault.

* `munmapLoop_find`: the loop deletes the entries of the pages it walks and keeps the others;
* `munmap_leaves_pages_mapped`: `munmap` unmaps no page and frees no frame, and an access to a
  page that was resident still succeeds after it.
-/

namespace TinyOs

namespace VmState

/-- What a user access reads of a process: its page directory, and whether it is exiting. -/
def accessView (p : Proc) : Option Pagedir × Bool := (p.pagedir, p.dying)

variable {t : Tid} {pd : Pagedir}

/-! ### One page -/

lemma procs_modifySpt (s : VmState) (g : Spt → Spt) (u : Tid) :
    ((s.modifySpt t g).procs u).map accessView = (s.procs u).map accessView := by
  by_cases hu : u = t
  · subst hu
    simp only [modifySpt, updProc, Function.update_self]
    cases s.procs u <;> rfl
  · simp only [modifySpt, updProc, Function.update_of_ne hu]

lemma findLazyPage_modifySpt_delete (s : VmState) (v w : ℕ) :
    (s.modifySpt t fun spt => spt.delete v).findLazyPage t w =
      if w = v then none else s.findLazyPage t w := by
  unfold findLazyPage
  cases hp : s.procs t <;> by_cases hw : w = v <;> simp [modifySpt, updProc, hp, hw]

/-- `expire_page` changes only the files and `t`'s supplemental table. -/
lemma procs_expirePage (s : VmState) (v : ℕ) (e : SpecialPage) (u : Tid) :
    ((s.expirePage t pd v e).procs u).map accessView = (s.procs u).map accessView := by
  rw [expirePage, procs_modifySpt, expireWriteBack_procs]

lemma findLazyPage_expirePage (s : VmState) (v : ℕ) (e : SpecialPage) (w : ℕ) :
    (s.expirePage t pd v e).findLazyPage t w = if w = v then none else s.findLazyPage t w := by
  rw [expirePage, findLazyPage_modifySpt_delete]
  simp only [findLazyPage, expireWriteBack_procs]

/-! ### The loop -/

/-- Page `0` of `n + 1` pages from `v`, or page `i` of `n` pages from the next page. -/
lemma exists_page_succ {v w n : ℕ} (hv : v < 2 ^ 32) :
    (∃ i < n + 1, w = wrap32 (v + i * pgSize)) ↔
      w = v ∨ ∃ i < n, w = wrap32 (wrap32 (v + pgSize) + i * pgSize) := by
  have h₀ : wrap32 (v + 0 * pgSize) = v := by
    rw [Nat.zero_mul, Nat.add_zero]
    exact Nat.mod_eq_of_lt hv
  constructor
  · rintro ⟨i, hi, rfl⟩
    cases i with
    | zero => exact .inl h₀
    | succ i => exact .inr ⟨i, by omega, (wrap32_next v i).symm⟩
  · rintro (rfl | ⟨i, hi, rfl⟩)
    · exact ⟨0, by omega, h₀.symm⟩
    · exact ⟨i + 1, by omega, wrap32_next v i⟩

lemma procs_munmapLoop : ∀ {n v : ℕ} {s s' : VmState}, munmapLoop t pd n v s = some s' →
    ∀ u, (s'.procs u).map accessView = (s.procs u).map accessView
  | 0, _, _, _, h, _ => by
      rw [munmapLoop, Option.some.injEq] at h
      rw [h]
  | n + 1, v, s, s', h, u => by
      simp only [munmapLoop, Option.bind_eq_bind, Option.bind_eq_some_iff] at h
      obtain ⟨p, -, e, -, h⟩ := h
      rw [procs_munmapLoop h u, procs_expirePage]

/-- The loop over `n` pages from `v` deletes their entries and keeps every other. -/
lemma munmapLoop_find : ∀ {n v : ℕ} {s s' : VmState}, v < 2 ^ 32 →
    munmapLoop t pd n v s = some s' → ∀ w, s'.findLazyPage t w =
      if ∃ i < n, w = wrap32 (v + i * pgSize) then none else s.findLazyPage t w
  | 0, _, _, _, _, h, w => by
      rw [munmapLoop, Option.some.injEq] at h
      simp [h]
  | n + 1, v, s, s', hv, h, w => by
      simp only [munmapLoop, Option.bind_eq_bind, Option.bind_eq_some_iff] at h
      obtain ⟨p, -, e, -, h⟩ := h
      have hnext : wrap32 (v + pgSize) < 2 ^ 32 := Nat.mod_lt _ (by decide)
      rw [munmapLoop_find hnext h w, findLazyPage_expirePage]
      simp only [exists_page_succ hv]
      by_cases hw : w = v
      · simp only [hw, true_or, if_true, ite_self]
      · simp only [hw, false_or, if_false]

/-! ### `munmap` -/

lemma procs_munmap {s s' : VmState} {mapping : ℕ} (h : s.munmap t mapping = some s') (u : Tid) :
    (s'.procs u).map accessView = (s.procs u).map accessView := by
  obtain ⟨p, -, -, -, rfl | ⟨src, ofs, za, pd, -, -, -, h⟩⟩ := munmap_eq_some h
  · rfl
  · exact procs_munmapLoop h u

/-- Whether a page is mapped depends only on the page directories. -/
lemma isPresent_congr {s s' : VmState} {u : Tid}
    (h : (s'.procs u).map accessView = (s.procs u).map accessView) (v : ℕ) :
    s'.isPresent u v = s.isPresent u v := by
  unfold isPresent
  cases hs' : s'.procs u <;> cases hs : s.procs u <;> simp_all [accessView]

/-- A read of a resident page of a running process does not fault. -/
lemma userAccess_none_isSome {s : VmState} {p : Proc} {addr : ℕ} (hp : s.procs t = some p)
    (hd : p.dying = false) (hpres : s.isPresent t (pageOf addr) = true) :
    (s.userAccess t addr none).isSome := by
  unfold isPresent at hpres
  rw [hp] at hpres
  cases hpd : p.pagedir with
  | none => simp [hpd] at hpres
  | some pd =>
    simp only [Option.bind_some, hpd] at hpres
    simp [userAccess, hp, hpd, hpres, hd]

/-- `munmap` unmaps no page and frees no frame: `frame_list` and every page-table entry's
`PTE_P` are as they were, and a read of a page that was resident, the pages of the mapping
among them, still succeeds after it, though the comment on `munmap` says it "Unmaps the mapping
designated by int mapping". -/
theorem munmap_leaves_pages_mapped {s s' : VmState} {mapping : ℕ}
    (h : s.munmap t mapping = some s') :
    s'.frameList = s.frameList ∧ (∀ u v, s'.isPresent u v = s.isPresent u v) ∧
      ∀ addr, s.isPresent t (pageOf addr) = true → (s'.userAccess t addr none).isSome := by
  have hprocs := procs_munmap h
  refine ⟨congrArg TableView.frames (view_munmap h), fun u v => isPresent_congr (hprocs u) v, ?_⟩
  intro addr hpres
  obtain ⟨p, hp, -, hd, -⟩ := munmap_eq_some h
  -- the process after `munmap` has the same page directory and is still running
  have ht := hprocs t
  rw [hp] at ht
  obtain ⟨p', hp', hview⟩ := Option.map_eq_some_iff.mp ht
  have hd' : p'.dying = false := by
    have := congrArg Prod.snd hview
    simpa [accessView, hd] using this
  exact userAccess_none_isSome hp' hd' (by rw [isPresent_congr (hprocs t)]; exact hpres)

end VmState

/-- Two pool pages, and files of 100 bytes. -/
def mapStart : VmState :=
  vmInit 2 (fun _ => Page.zero) (fun _ => ⟨100, fun _ => 0x41, 0⟩) 16 (fun _ _ => 0)

/-- Process 1 maps file `5` at `0x10000000` (the one `FILE` entry `mmap` adds for 100 bytes),
faults the page in and writes its first byte. -/
def mapTouch : List VmEvent :=
  [.spawn 1, .addLazy 1 0x10000000 (.file 5 0 100),
   .fault 1 0x10000000 0xBFFFFFF0, .load 1, .install 1 true,
   .access 1 0x10000000 (some 7)]

theorem munmap_leaves_pages_mapped_demo :
    ∃ s s', VmReachable s ∧ vmRun mapStart mapTouch = some s ∧
      s.munmap 1 0x10000000 = some s' ∧ s'.findLazyPage 1 0x10000000 = none ∧
      s'.isPresent 1 0x10000000 = true ∧ (s'.userAccess 1 0x10000000 none).isSome := by
  have hrun : ((vmRun mapStart mapTouch).bind fun s => (s.munmap 1 0x10000000).map fun s' =>
      (s.isPresent 1 0x10000000, (s'.findLazyPage 1 0x10000000).isNone)) = some (true, true) := by
    decide
  obtain ⟨s, hs, h⟩ := Option.bind_eq_some_iff.mp hrun
  obtain ⟨s', hs', he⟩ := Option.map_eq_some_iff.mp h
  simp only [Prod.mk.injEq] at he
  obtain ⟨hpres, hgone⟩ := he
  have hpage : pageOf 0x10000000 = 0x10000000 := by decide
  obtain ⟨-, hkeep, hacc⟩ := VmState.munmap_leaves_pages_mapped hs'
  refine ⟨s, s', (VmReachable.init _ _ _ _ _).run hs, hs, hs', Option.isNone_iff_eq_none.mp hgone,
    by rw [hkeep]; exact hpres, hacc 0x10000000 (by rw [hpage]; exact hpres)⟩

end TinyOs
