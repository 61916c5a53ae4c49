import TinyOs.Vm.Frame

/-!
Virtual memory as a machine whose steps are the critical sections of the source: each thread's
`page_fault` (`userprog/exception.c`) in three steps (look the page up and take a frame; fill
the frame; install it under `frame_lock`), `setup_stack` (`userprog/process.c`) in two, user
accesses to mapped pages, the supplemental insertions of `load_segment` and `mmap`, `munmap`,
and the two halves of a process's exit (`destroy_supplemental_pagetable` in `thread_exit`, then
`process_exit`). Another thread's steps may come between any two of them.

* `pageFault`, `loadPage`, `installFault`: `page_fault`, its error exits included;
* `setupStack`, `installStack`: `setup_stack`;
* `exitSpt`, `processExit`: the teardown of an address space;
* `munmap`: the teardown of a file mapping, `expire_page` of each of its pages;
* `vmStep`, `vmRun`, `VmReachable`: the machine and its reachable states.
-/

namespace TinyOs

/-- `is_stack_access`: below `PHYS_BASE`, above `STACK_BOTTOM`, and at most 32 bytes below the
stack pointer. -/
def isStackAccess (addr esp : ℕ) : Bool :=
  decide (addr < physBase) && decide (stackBottom < addr) && decide (esp ≤ addr + 32)

/-- The page of an address, `addr & 0xfffff000` on a 32-bit address. -/
def pageOf (addr : ℕ) : ℕ := addr / pgSize * pgSize

namespace VmState

/-- Record where thread `t` is inside a page fault. -/
def setPending (s : VmState) (t : Tid) (q : Pending) : VmState :=
  s.updProc t fun p => { p with pending := q }

@[simp] lemma setPending_mem (s : VmState) (t : Tid) (q : Pending) :
    (s.setPending t q).mem = s.mem := rfl

/-- `install_page`: refuse a page already mapped, or one for which `pagedir_set_page` finds no
page table and cannot allocate one (`ptOk = false`); otherwise map the page and point the
frame's `PTE` at the entry. The result is `none` when `install_page` returns false. -/
def installPage (s : VmState) (t : Tid) (pd : Pagedir) (v fid kpage : ℕ)
    (writable ptOk : Bool) : Option VmState :=
  if (pd.lookup v).present || !ptOk then none
  else some ((s.modifyPte t v fun _ => pteCreateUser kpage writable).modifyFrame fid
    fun g => { g with pte := some (t, v) })

lemma installPage_eq_some {s s' : VmState} {t : Tid} {pd : Pagedir} {v fid k : ℕ} {w ok : Bool}
    (h : s.installPage t pd v fid k w ok = some s') :
    (pd.lookup v).present = false ∧
      s' = (s.modifyPte t v fun _ => pteCreateUser k w).modifyFrame fid
        fun g => { g with pte := some (t, v) } := by
  unfold installPage at h
  split_ifs at h with hc
  rw [Option.some.injEq] at h
  simp only [Bool.or_eq_true, Bool.not_eq_eq_eq_not, Bool.not_true, not_or] at hc
  exact ⟨by simpa using hc.1, h.symm⟩

/-- `expire_page` for each entry, as `hash_destroy` calls it: a `FILE` page that is present and
dirty is written back to its file. -/
def expirePages (s : VmState) (t : Tid) (pd : Pagedir) : List (ℕ × SpecialPage) → VmState
  | [] => s
  | (v, .file src ofs za) :: rest =>
      let e := pd.lookup v
      let s := if e.present && e.dirty then
          { s with files := Function.update s.files src ((s.files src).writeAt (s.mem e.kpage) ofs za) }
        else s
      expirePages s t pd rest
  | _ :: rest => expirePages s t pd rest

/-- `hash_destroy` with `expire_page` writes back files and changes nothing else. -/
lemma expirePages_eq (s : VmState) (t : Tid) (pd : Pagedir) :
    ∀ l : List (ℕ × SpecialPage), ∃ fs, s.expirePages t pd l = { s with files := fs }
  | [] => ⟨s.files, rfl⟩
  | (v, .file src ofs za) :: rest => by
      simp only [expirePages]
      split_ifs
      · obtain ⟨fs, hfs⟩ := expirePages_eq _ t pd rest
        exact ⟨fs, hfs⟩
      · exact expirePages_eq s t pd rest
  | (_, .exec ..) :: rest | (_, .swap ..) :: rest | (_, .zero) :: rest => by
      simp only [expirePages]
      exact expirePages_eq s t pd rest

/-- `thread_exit` up to `process_exit`: `destroy_supplemental_pagetable` expires every entry and
empties the table; the thread is now dying. -/
def exitSpt (s : VmState) (t : Tid) : Option VmState := do
  let p ← s.procs t
  match p.pending, p.dying with
  | .idle, false =>
      let s := match p.pagedir with
        | some pd => s.expirePages t pd p.spt.entries
        | none => s
      some (s.updProc t fun p => { p with spt := Spt.empty, dying := true })
  | _, _ => none

/-- The first half of exit: the thread was idle and not yet exiting; files are written back, and
the thread is now exiting with an empty supplemental table. -/
lemma exitSpt_eq_some {s s' : VmState} {t : Tid} (h : s.exitSpt t = some s') :
    ∃ p fs, s.procs t = some p ∧ p.pending = .idle ∧ p.dying = false ∧
      s' = ({ s with files := fs } : VmState).updProc t
        fun p => { p with spt := Spt.empty, dying := true } := by
  simp only [exitSpt, Option.bind_eq_bind, Option.bind_eq_some_iff] at h
  obtain ⟨p, hp, h⟩ := h
  split at h
  · rename_i hq hd
    rw [Option.some.injEq] at h
    subst h
    split
    · rename_i pd _
      obtain ⟨fs, hfs⟩ := expirePages_eq s t pd p.spt.entries
      exact ⟨p, fs, hp, hq, hd, by rw [hfs]⟩
    · exact ⟨p, s.files, hp, hq, hd, rfl⟩
  · cases h

/-- `process_exit`: `ft_destroy`, then `pagedir_destroy`, which gives every page a present
entry maps back to the pool. -/
def processExit (s : VmState) (t : Tid) : Option VmState := do
  let p ← s.procs t
  if !p.dying then none else
  match p.pagedir with
  | none => some s
  | some pd => do
      let s ← s.ftDestroy t
      let s := s.updProc t fun p => { p with pagedir := none }
      pd.presentPages.foldlM (fun s k => s.pallocFreePage k) s

lemma processExit_eq_some {s s' : VmState} {t : Tid} (h : s.processExit t = some s') :
    ∃ p, s.procs t = some p ∧ p.dying = true ∧
      (p.pagedir = none ∧ s' = s ∨
        ∃ pd s₁, p.pagedir = some pd ∧ s.ftDestroy t = some s₁ ∧
          pd.presentPages.foldlM (fun s k => s.pallocFreePage k)
            (s₁.updProc t fun p => { p with pagedir := none }) = some s') := by
  simp only [processExit, Option.bind_eq_bind, Option.bind_eq_some_iff] at h
  obtain ⟨p, hp, h⟩ := h
  split_ifs at h with hd
  refine ⟨p, hp, by simpa using hd, ?_⟩
  split at h
  · rename_i hpd
    rw [Option.some.injEq] at h
    exact .inl ⟨hpd, h.symm⟩
  · rename_i pd hpd
    obtain ⟨s₁, h₁, h₂⟩ := Option.bind_eq_some_iff.mp h
    exact .inr ⟨pd, s₁, hpd, h₁, h₂⟩

/-- `page_fault` up to `ft_get_page`: with no supplemental entry and no stack access the
process is killed (the step does not happen here; `exitSpt` is its exit); otherwise a frame is
taken for the faulting page. -/
def pageFault (s : VmState) (t : Tid) (addr esp : ℕ) : Option VmState := do
  let p ← s.procs t
  match p.pending, p.dying with
  | .idle, false =>
      let page := pageOf addr
      let gen := p.spt.find page
      if gen.isNone && !isStackAccess addr esp then none else do
        let (fid, s) ← s.ftGetPage t false
        some (s.setPending t (.fault page gen fid))
  | _, _ => none

lemma pageFault_eq_some {s s' : VmState} {t : Tid} {addr esp : ℕ}
    (h : s.pageFault t addr esp = some s') :
    ∃ p fid s₁, s.procs t = some p ∧ p.pending = .idle ∧ p.dying = false ∧
      s.ftGetPage t false = some (fid, s₁) ∧
      s' = s₁.setPending t (.fault (pageOf addr) (p.spt.find (pageOf addr)) fid) := by
  simp only [pageFault, Option.bind_eq_bind, Option.bind_eq_some_iff] at h
  obtain ⟨p, hp, h⟩ := h
  split at h
  · rename_i hq hd
    split_ifs at h
    obtain ⟨⟨fid, s₁⟩, h₁, h₂⟩ := Option.bind_eq_some_iff.mp h
    rw [Option.some.injEq] at h₂
    exact ⟨p, fid, s₁, hp, hq, hd, h₁, h₂.symm⟩
  · cases h

/-- The `EXEC` and `FILE` cases of `page_fault`: read `zero_after` bytes at `offset` and zero
the rest, or, when the file is too short, free the frame and exit. -/
def loadFromFile (s : VmState) (t : Tid) (page : ℕ) (f : Frame) (src ofs za : ℕ)
    (writable : Bool) : Option VmState :=
  if (s.files src).readCount ofs za = za then
    some ({ s with mem := Function.update s.mem f.userPage ((s.files src).pageAt ofs za) }.setPending
      t (.faultLoaded page writable false f.id))
  else do
    let s ← (s.setPending t .idle).ftFreePage t f.userPage
    s.exitSpt t

/-- `page_fault` filling frame `f` for `page` from its supplemental entry: from the file, from
swap (the slot is freed and the entry replaced by the one it evicted), with zeros, or, for a
new stack page, not at all. -/
def fillFrame (s : VmState) (t : Tid) (page : ℕ) (f : Frame) : Option SpecialPage → Option VmState
  | some (.exec src ofs za w) => s.loadFromFile t page f src ofs za w
  | some (.file src ofs za) => s.loadFromFile t page f src ofs za true
  | some (.swap slot d ev) =>
      let (content, sw) := swapSlotRead slot s.swap
      let s := { s with swap := sw, mem := Function.update s.mem f.userPage content }
      let s := s.modifySpt t fun spt =>
        match ev with
        | some e => (spt.delete page).insert page e
        | none => spt.delete page
      some (s.setPending t (.faultLoaded page true d f.id))
  | some .zero =>
      some ({ s with mem := Function.update s.mem f.userPage Page.zero }.setPending t
        (.faultLoaded page true false f.id))
  | none => some (s.setPending t (.faultLoaded page true false f.id))

/-- The second step of `page_fault`: fill the frame taken for the faulting page. -/
def loadPage (s : VmState) (t : Tid) : Option VmState := do
  let p ← s.procs t
  match p.pending with
  | .fault page gen fid => do
      let f ← s.frameList.find? (·.id = fid)
      s.fillFrame t page f gen
  | _ => none

lemma loadPage_eq_some {s s' : VmState} {t : Tid} (h : s.loadPage t = some s') :
    ∃ p page gen fid f, s.procs t = some p ∧ p.pending = .fault page gen fid ∧
      s.frameList.find? (·.id = fid) = some f ∧ s.fillFrame t page f gen = some s' := by
  simp only [loadPage, Option.bind_eq_bind, Option.bind_eq_some_iff] at h
  obtain ⟨p, hp, h⟩ := h
  split at h
  · rename_i page gen fid hq
    obtain ⟨f, hf, h⟩ := Option.bind_eq_some_iff.mp h
    exact ⟨p, page, gen, fid, f, hp, hq, hf, h⟩
  · cases h

/-- Under `frame_lock`: map frame `f` at user page `v`, set the dirty bit when `dirty`, and
mark the frame loaded; when `install_page` fails, free the frame and exit. The tail of
`page_fault`, and of `setup_stack` with `dirty = false`. -/
def installFrame (s : VmState) (t : Tid) (pd : Pagedir) (f : Frame) (v : ℕ)
    (writable dirty ptOk : Bool) : Option VmState :=
  match s.installPage t pd v f.id f.userPage writable ptOk with
  | some s =>
      let s := if dirty then s.pagedirSetDirty t v true else s
      let s := s.modifyFrame f.id fun g => { g with virtualAddress := v, loaded := true }
      some (s.setPending t .idle)
  | none => do
      let s ← (s.setPending t .idle).ftFreePage t f.userPage
      s.exitSpt t

/-- The two outcomes of `installFrame`: the frame is mapped and loaded, or it is freed and the
thread exits. -/
lemma installFrame_cases {s s' : VmState} {t : Tid} {pd : Pagedir} {f : Frame} {v : ℕ}
    {w d ok : Bool} (h : s.installFrame t pd f v w d ok = some s') :
    (∃ s₁, s.installPage t pd v f.id f.userPage w ok = some s₁ ∧
      s' = ((if d then s₁.pagedirSetDirty t v true else s₁).modifyFrame f.id
        fun g => { g with virtualAddress := v, loaded := true }).setPending t .idle) ∨
    ∃ s₁, (s.setPending t .idle).ftFreePage t f.userPage = some s₁ ∧ s₁.exitSpt t = some s' := by
  unfold installFrame at h
  split at h
  · rename_i s₁ hi
    rw [Option.some.injEq] at h
    exact .inl ⟨s₁, hi, h.symm⟩
  · exact .inr (Option.bind_eq_some_iff.mp h)

/-- The last step of `page_fault`: install the filled frame, restoring the dirty bit of a page
that came from swap. -/
def installFault (s : VmState) (t : Tid) (ptOk : Bool) : Option VmState := do
  let p ← s.procs t
  match p.pending with
  | .faultLoaded page w d fid => do
      let pd ← p.pagedir
      let f ← s.frameList.find? (·.id = fid)
      s.installFrame t pd f page w d ptOk
  | _ => none

lemma installFault_eq_some {s s' : VmState} {t : Tid} {ok : Bool}
    (h : s.installFault t ok = some s') :
    ∃ p page w d fid pd f, s.procs t = some p ∧ p.pending = .faultLoaded page w d fid ∧
      p.pagedir = some pd ∧ s.frameList.find? (·.id = fid) = some f ∧
      s.installFrame t pd f page w d ok = some s' := by
  simp only [installFault, Option.bind_eq_bind, Option.bind_eq_some_iff] at h
  obtain ⟨p, hp, h⟩ := h
  split at h
  · rename_i page w d fid hq
    obtain ⟨pd, hpd, h⟩ := Option.bind_eq_some_iff.mp h
    obtain ⟨f, hf, h⟩ := Option.bind_eq_some_iff.mp h
    exact ⟨p, page, w, d, fid, pd, f, hp, hq, hpd, hf, h⟩
  · cases h

/-- `setup_stack` up to `ft_get_page (PAL_USER | PAL_ZERO)`. -/
def setupStack (s : VmState) (t : Tid) : Option VmState := do
  let p ← s.procs t
  match p.pending, p.dying with
  | .idle, false => do
      let (fid, s) ← s.ftGetPage t true
      some (s.setPending t (.stack fid))
  | _, _ => none

lemma setupStack_eq_some {s s' : VmState} {t : Tid} (h : s.setupStack t = some s') :
    ∃ p fid s₁, s.procs t = some p ∧ p.pending = .idle ∧ p.dying = false ∧
      s.ftGetPage t true = some (fid, s₁) ∧ s' = s₁.setPending t (.stack fid) := by
  simp only [setupStack, Option.bind_eq_bind, Option.bind_eq_some_iff] at h
  obtain ⟨p, hp, h⟩ := h
  split at h
  · rename_i hq hd
    obtain ⟨⟨fid, s₁⟩, h₁, h₂⟩ := Option.bind_eq_some_iff.mp h
    rw [Option.some.injEq] at h₂
    exact ⟨p, fid, s₁, hp, hq, hd, h₁, h₂.symm⟩
  · cases h

/-- The rest of `setup_stack`: install the frame at `PHYS_BASE - PGSIZE`; when that fails the
load fails and the process exits. -/
def installStack (s : VmState) (t : Tid) (ptOk : Bool) : Option VmState := do
  let p ← s.procs t
  match p.pending with
  | .stack fid => do
      let pd ← p.pagedir
      let f ← s.frameList.find? (·.id = fid)
      s.installFrame t pd f (physBase - pgSize) true false ptOk
  | _ => none

lemma installStack_eq_some {s s' : VmState} {t : Tid} {ok : Bool}
    (h : s.installStack t ok = some s') :
    ∃ p fid pd f, s.procs t = some p ∧ p.pending = .stack fid ∧ p.pagedir = some pd ∧
      s.frameList.find? (·.id = fid) = some f ∧
      s.installFrame t pd f (physBase - pgSize) true false ok = some s' := by
  simp only [installStack, Option.bind_eq_bind, Option.bind_eq_some_iff] at h
  obtain ⟨p, hp, h⟩ := h
  split at h
  · rename_i fid hq
    obtain ⟨pd, hpd, h⟩ := Option.bind_eq_some_iff.mp h
    obtain ⟨f, hf, h⟩ := Option.bind_eq_some_iff.mp h
    exact ⟨p, fid, pd, f, hp, hq, hpd, hf, h⟩
  · cases h

/-- A user access (or a `get_user` / `put_user` on its behalf) to a mapped page: the processor
sets the accessed bit, and for a write to a writable page stores the byte and sets the dirty
bit. An access to an unmapped page is a page fault instead. -/
def userAccess (s : VmState) (t : Tid) (addr : ℕ) (w : Option UInt8) : Option VmState := do
  let p ← s.procs t
  let pd ← p.pagedir
  let v := pageOf addr
  let e := pd.lookup v
  if !e.present || p.dying then none else
  match w with
  | none => some (s.modifyPte t v fun e => { e with accessed := true })
  | some b =>
      if !e.writable then none else
      let off : Fin pgSize := ⟨addr % pgSize, Nat.mod_lt _ (by decide)⟩
      some ({ s with mem := Function.update s.mem e.kpage (Function.update (s.mem e.kpage) off b) }.modifyPte
        t v fun e => { e with accessed := true, dirty := true })

/-- A new process (`thread_create_child`, `init_supplemental_pagetable`, then `pagedir_create`
in `load`): an empty page directory and an empty supplemental table. -/
def spawn (s : VmState) (t : Tid) : Option VmState :=
  match s.procs t with
  | none =>
      let p : Proc := ⟨some Pagedir.empty, Spt.empty, false, .idle⟩
      some { s with procs := Function.update s.procs t (some p) }
  | some _ => none

/-- `add_lazy_page` from `load_segment` (`EXEC`, `ZERO`) or `mmap` (`FILE`). -/
def addLazyPage (s : VmState) (t : Tid) (v : ℕ) (e : SpecialPage) : Option VmState := do
  let p ← s.procs t
  match e with
  | .swap _ _ _ => none
  | _ => if p.dying then none else some (s.modifySpt t fun spt => spt.insert v e)

/-- The write-back of `expire_page` for the entry `e` of page `v`: when the page is mapped
(`pagedir_get_page`) and `e` is a `FILE` entry whose page is dirty, the page is written to the
file. -/
def expireWriteBack (s : VmState) (pd : Pagedir) (v : ℕ) : SpecialPage → VmState
  | .file src ofs za =>
      let pte := pd.lookup v
      if pte.present && pte.dirty then
        { s with files := Function.update s.files src ((s.files src).writeAt (s.mem pte.kpage) ofs za) }
      else s
  | _ => s

@[simp] lemma expireWriteBack_procs (s : VmState) (pd : Pagedir) (v : ℕ) (e : SpecialPage) :
    (s.expireWriteBack pd v e).procs = s.procs := by
  cases e with
  | file src ofs za =>
    dsimp only [expireWriteBack]
    split_ifs <;> rfl
  | _ => rfl

/-- `expire_page` of thread `t`'s entry `e` for page `v`: the write-back, then `hash_delete` of
the entry. The page-table entry and the frame stay. -/
def expirePage (s : VmState) (t : Tid) (pd : Pagedir) (v : ℕ) (e : SpecialPage) : VmState :=
  (s.expireWriteBack pd v e).modifySpt t fun spt => spt.delete v

/-- The loop of `munmap` over `n` pages from `v`: `find_lazy_page`, then `expire_page` of what it
finds; `expire_page (NULL)` of a page with no entry stops the kernel. -/
def munmapLoop (t : Tid) (pd : Pagedir) : ℕ → ℕ → VmState → Option VmState
  | 0, _, s => some s
  | n + 1, v, s => do
      let p ← s.procs t
      let e ← p.spt.find v
      munmapLoop t pd n (wrap32 (v + pgSize)) (s.expirePage t pd v e)

/-- `munmap (mapping)` by thread `t`: when `mapping` is page-aligned and has a `FILE` entry, the
`ceil (L / PGSIZE)` pages from it are expired, `L` the length of the entry's file. Its
`file_close` is `Sys.munmap`'s (`Userprog/Process.lean`): the machine keeps no open files. -/
def munmap (s : VmState) (t : Tid) (mapping : ℕ) : Option VmState := do
  let p ← s.procs t
  match p.pending, p.dying with
  | .idle, false =>
      if mapping % pgSize ≠ 0 then some s
      else
        match p.spt.find mapping with
        | some (.file src _ _) =>
            let readBytes := (s.files src).length
            if readBytes = 0 then some s
            else do
              let pd ← p.pagedir
              -- `num_of_pages`
              let numOfPages := readBytes / pgSize + if readBytes % pgSize ≠ 0 then 1 else 0
              munmapLoop t pd numOfPages mapping s
        | _ => some s
  | _, _ => none

/-- The outcomes of `munmap`: nothing changes, or the loop runs over the pages of the file of a
`FILE` entry at the page-aligned `mapping`. -/
lemma munmap_eq_some {s s' : VmState} {t : Tid} {mapping : ℕ} (h : s.munmap t mapping = some s') :
    ∃ p, s.procs t = some p ∧ p.pending = .idle ∧ p.dying = false ∧
      (s' = s ∨ ∃ src ofs za pd, mapping % pgSize = 0 ∧
        p.spt.find mapping = some (.file src ofs za) ∧ p.pagedir = some pd ∧
        munmapLoop t pd ((s.files src).length / pgSize +
          if (s.files src).length % pgSize ≠ 0 then 1 else 0) mapping s = some s') := by
  simp only [munmap, Option.bind_eq_bind, Option.bind_eq_some_iff] at h
  obtain ⟨p, hp, h⟩ := h
  split at h
  · rename_i hq hd
    refine ⟨p, hp, hq, hd, ?_⟩
    split_ifs at h with hal
    · exact .inl (Option.some.inj h).symm
    · split at h
      · rename_i src ofs za hfind
        by_cases hlen : (s.files src).length = 0
        · rw [if_pos hlen] at h
          exact .inl (Option.some.inj h).symm
        · rw [if_neg hlen] at h
          obtain ⟨pd, hpd, h⟩ := Option.bind_eq_some_iff.mp h
          exact .inr ⟨src, ofs, za, pd, by omega, hfind, hpd, h⟩
      · exact .inl (Option.some.inj h).symm
  · cases h

end VmState

/-- The steps of the virtual-memory machine. -/
inductive VmEvent where
  | spawn (t : Tid)
  | addLazy (t : Tid) (v : ℕ) (e : SpecialPage)
  | munmap (t : Tid) (mapping : ℕ)
  | access (t : Tid) (addr : ℕ) (w : Option UInt8)
  | fault (t : Tid) (addr esp : ℕ)
  | load (t : Tid)
  | install (t : Tid) (ptOk : Bool)
  | stack (t : Tid)
  | stackInstall (t : Tid) (ptOk : Bool)
  | exit (t : Tid)
  | processExit (t : Tid)

/-- One step; `none` when the step cannot be taken in this state or the source would stop
the kernel. -/
def vmStep (s : VmState) : VmEvent → Option VmState
  | .spawn t => s.spawn t
  | .addLazy t v e => s.addLazyPage t v e
  | .munmap t mapping => s.munmap t mapping
  | .access t addr w => s.userAccess t addr w
  | .fault t addr esp => s.pageFault t addr esp
  | .load t => s.loadPage t
  | .install t ptOk => s.installFault t ptOk
  | .stack t => s.setupStack t
  | .stackInstall t ptOk => s.installStack t ptOk
  | .exit t => s.exitSpt t
  | .processExit t => s.processExit t

/-- A run of steps. -/
def vmRun (s : VmState) : List VmEvent → Option VmState
  | [] => some s
  | e :: es => (vmStep s e).bind fun s => vmRun s es

/-- The state at boot: no process, an empty frame table with the hand on its head, a free user
pool of `poolSize` pages with contents `mem`, and the swap disk fresh from `swap_init`. -/
def vmInit (poolSize : ℕ) (mem : ℕ → Page) (files : ℕ → FileData) (diskSize : ℕ)
    (disk : ℕ → Sector) : VmState :=
  { frameList := [], hand := .head, nextFrameId := 0, poolSize := poolSize, used := ∅,
    mem := mem, procs := fun _ => none, swap := swapInit diskSize disk, files := files }

/-- The reachable states of the machine. -/
inductive VmReachable : VmState → Prop
  | init (poolSize : ℕ) (mem : ℕ → Page) (files : ℕ → FileData) (diskSize : ℕ)
      (disk : ℕ → Sector) : VmReachable (vmInit poolSize mem files diskSize disk)
  | step {s s' : VmState} (e : VmEvent) : VmReachable s → vmStep s e = some s' → VmReachable s'

lemma VmReachable.run {s s' : VmState} (h : VmReachable s) :
    ∀ {es : List VmEvent}, vmRun s es = some s' → VmReachable s'
  | [], hr => by
      cases hr
      exact h
  | e :: es, hr => by
      simp only [vmRun, Option.bind_eq_some_iff] at hr
      obtain ⟨s₁, h₁, h₂⟩ := hr
      exact (h.step e h₁).run h₂

end TinyOs
