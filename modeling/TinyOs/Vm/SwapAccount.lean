import TinyOs.Vm.UserMemory
import TinyOs.Vm.TableInv

/-!
Swap slots against the supplemental page tables. A slot is taken when `ft_replacement` writes a
dirty page to swap and records a `SWAP` entry for it, and it is given back only when a page
fault reads the page in (`swap_slot_read`). `destroy_supplemental_pagetable` deletes every
entry in `expire_page`, `SWAP` entries included, without `free_swap_slot`, so a process that
exits with a page in swap keeps its slot allocated with nothing referring to it.

* `vmStep_procs_none`, `vmRun_procs_none`: only `spawn t` gives thread `t` a record;
* `exitSpt_swap`: the teardown in `thread_exit` empties the supplemental table and leaves the
  swap table as it was;
* `swap_slot_leaks_at_exit`: a run in which a process exits with a page in swap and ends with
  an allocated slot while no process has a supplemental entry.
-/

namespace TinyOs

/-- Sector `sec` is allocated: on the disk and in no free extent. -/
def SwapTable.InUse (tb : SwapTable) (sec : ℕ) : Prop :=
  sec < tb.diskSize ∧ sec ∉ Extent.cover tb.freeSwapList

instance (tb : SwapTable) : DecidablePred tb.InUse := fun _ =>
  inferInstanceAs (Decidable (_ ∧ _))

namespace VmState

variable {s s' s₁ : VmState} {t u : Tid}

/-! ### Only `spawn` makes a process -/

lemma procs_eq_none_iff : s.procs u = none ↔ s.view.procs u = none := by simp

lemma ftGetPage_procs_none {z : Bool} {fid : ℕ} (h : s.ftGetPage t z = some (fid, s₁)) :
    s₁.procs u = none ↔ s.procs u = none := by
  rw [procs_eq_none_iff, procs_eq_none_iff]
  obtain ⟨-, ⟨p, -, hv⟩ | ⟨f, -, -, hv⟩⟩ := view_ftGetPage h <;>
    simp [hv, TableView.setFrame]

lemma freeAndExit_procs_none {k : ℕ} (h₁ : (s.setPending t .idle).ftFreePage t k = some s₁)
    (h₂ : s₁.exitSpt t = some s') : s'.procs u = none ↔ s.procs u = none := by
  rw [procs_eq_none_iff, procs_eq_none_iff]
  obtain ⟨-, -, -, -, hv⟩ := view_exitSpt h₂
  obtain ⟨-, ⟨f, -, -, -, hv₁⟩ | ⟨-, hv₁⟩⟩ := view_ftFreePage h₁ <;>
    simp [hv, hv₁, view_setPending, TableView.setPending]

lemma installFrame_procs_none {pd : Pagedir} {f : Frame} {v : ℕ} {w d ok : Bool}
    (h : s.installFrame t pd f v w d ok = some s') : s'.procs u = none ↔ s.procs u = none := by
  rcases view_installFrame h with ⟨-, hv⟩ | ⟨s₁, h₁, h₂⟩
  · rw [procs_eq_none_iff, procs_eq_none_iff, hv]
    simp [TableView.setPending, TableView.setFrame]
  · exact freeAndExit_procs_none h₁ h₂

lemma fillFrame_procs_none {page : ℕ} {f : Frame} {gen : Option SpecialPage}
    (h : s.fillFrame t page f gen = some s') : s'.procs u = none ↔ s.procs u = none := by
  rcases view_fillFrame h with ⟨w, d, hv⟩ | ⟨s₁, h₁, h₂⟩
  · rw [procs_eq_none_iff, procs_eq_none_iff, hv]
    simp [TableView.setPending]
  · exact freeAndExit_procs_none h₁ h₂

lemma setPending_procs_none {q : Pending} : (s.setPending t q).procs u = none ↔ s.procs u = none := by
  rw [procs_eq_none_iff, procs_eq_none_iff, view_setPending]
  simp [TableView.setPending]

end VmState

/-- No step but `spawn u` creates or removes thread `u`'s record. -/
theorem vmStep_procs_none {s s' : VmState} {e : VmEvent} {u : Tid} (h : vmStep s e = some s')
    (he : e ≠ .spawn u) : s'.procs u = none ↔ s.procs u = none := by
  open VmState in
  cases e with
  | spawn t =>
      obtain ⟨-, hv⟩ := view_spawn h
      have hut : u ≠ t := fun hut => he (by rw [hut])
      rw [procs_eq_none_iff, procs_eq_none_iff, hv]
      simp [Function.update_of_ne hut]
  | addLazy t v e => rw [procs_eq_none_iff, procs_eq_none_iff, view_addLazyPage h]
  | munmap t mapping => rw [procs_eq_none_iff, procs_eq_none_iff, view_munmap h]
  | access t addr w => rw [procs_eq_none_iff, procs_eq_none_iff, view_userAccess h]
  | fault t addr esp =>
      obtain ⟨p, fid, s₁, -, -, -, h₁, rfl⟩ := pageFault_eq_some h
      rw [setPending_procs_none, ftGetPage_procs_none h₁]
  | load t =>
      obtain ⟨p, page, gen, fid, f, -, -, -, h⟩ := loadPage_eq_some h
      exact fillFrame_procs_none h
  | install t ok =>
      obtain ⟨p, page, w, d, fid, pd, f, -, -, -, -, h⟩ := installFault_eq_some h
      exact installFrame_procs_none h
  | stack t =>
      obtain ⟨p, fid, s₁, -, -, -, h₁, rfl⟩ := setupStack_eq_some h
      rw [setPending_procs_none, ftGetPage_procs_none h₁]
  | stackInstall t ok =>
      obtain ⟨p, fid, pd, f, -, -, -, -, h⟩ := installStack_eq_some h
      exact installFrame_procs_none h
  | exit t =>
      obtain ⟨-, -, -, -, hv⟩ := view_exitSpt h
      rw [procs_eq_none_iff, procs_eq_none_iff, hv]
      simp
  | processExit t =>
      obtain ⟨p, -, -, ⟨-, rfl⟩ | ⟨pd, -, hv⟩⟩ := view_processExit h
      · rfl
      · rw [procs_eq_none_iff, procs_eq_none_iff, hv]
        simp

/-- A run that never spawns `u` leaves `u` without a record. -/
theorem vmRun_procs_none {u : Tid} : ∀ {es : List VmEvent} {s s' : VmState},
    vmRun s es = some s' → (∀ e ∈ es, e ≠ .spawn u) → s.procs u = none → s'.procs u = none
  | [], s, s', h, _, hu => by
      rw [vmRun, Option.some.injEq] at h
      rwa [← h]
  | e :: es, s, s', h, hes, hu => by
      simp only [vmRun, Option.bind_eq_some_iff] at h
      obtain ⟨s₁, h₁, h₂⟩ := h
      have hu₁ : s₁.procs u = none := (vmStep_procs_none h₁ (hes e List.mem_cons_self)).mpr hu
      exact vmRun_procs_none h₂ (fun e' he' => hes e' (List.mem_cons_of_mem e he')) hu₁

/-- `destroy_supplemental_pagetable` empties the thread's supplemental table and gives no swap
slot back: `expire_page` deletes a `SWAP` entry without `free_swap_slot`. -/
theorem exitSpt_swap {s s' : VmState} {t : Tid} (h : s.exitSpt t = some s') :
    s'.swap = s.swap ∧ (s'.procs t).map (·.spt) = some Spt.empty := by
  obtain ⟨p, fs, hp, -, -, rfl⟩ := VmState.exitSpt_eq_some h
  exact ⟨rfl, by simp [hp]⟩

/-- The setup and the fault of `stack_growth_reads_stale_bytes`, after which the page at
`0xbffff000` is in swap, then `thread_exit` and `process_exit` of the process. -/
def leakRun : List VmEvent := growSetup ++ growFault ++ [.exit 1, .processExit 1]

/-- At the end of the run the first swap slot is still allocated, while no process has a
supplemental entry at all: the slot the exited process's page occupied is lost. -/
theorem swap_slot_leaks_at_exit :
    ∃ s, VmReachable s ∧ vmRun growStart leakRun = some s ∧ s.swap.table.InUse 0 ∧
      ∀ t p v, s.procs t = some p → p.spt.find v = none := by
  have hrun : (vmRun growStart leakRun).map (fun s => (decide (s.swap.table.InUse 0),
      (s.procs 1).map (·.spt.entries.isEmpty))) = some (true, some true) := by
    decide
  obtain ⟨s, hs, he⟩ := Option.map_eq_some_iff.mp hrun
  rw [Prod.mk.injEq] at he
  refine ⟨s, (VmReachable.init _ _ _ _ _).run hs, hs, of_decide_eq_true he.1, fun t p v hp => ?_⟩
  by_cases ht : t = 1
  · subst ht
    rw [hp, Option.map_some, Option.some.injEq, List.isEmpty_iff] at he
    simp [Spt.find, he.2]
  · -- only thread 1 was ever spawned
    have hnone : s.procs t = none :=
      vmRun_procs_none hs (by simp [leakRun, growSetup, growFault, Ne.symm ht]) rfl
    rw [hp] at hnone
    cases hnone

end TinyOs
