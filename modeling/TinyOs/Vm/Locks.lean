import TinyOs.Vm.Machine

/-!
The locks that virtual memory and the file system take (`filesys_lock`, `frame_lock`, each
process's `page_sema`) along the paths of `page_fault` and of the `write` system call. A page
fault takes `filesys_lock` to read an `EXEC` or `FILE` page, and `write` holds `filesys_lock`
while `file_write` reads the user's buffer. `validate_read` has touched the buffer before, but
another process's page fault may evict it before `file_write` reads it again, and the fault
`file_write` then raises asks for `filesys_lock` once more.

* `Lk`, `LockEv`, `reacquire?`: locks, lock operations, and the first lock a thread asks for
  while holding it;
* `faultLocks`, `touchLocks`, `writeLocks`: the lock operations of `page_fault`, of a kernel
  access to user memory and of `write`, read off the state they run in;
* `reacquire?_faultLocks`: a page fault from locks other than `frame_lock`, `swap_lock` and the
  `page_sema`s asks for `filesys_lock` again exactly when the thread holds it and the page's
  supplemental entry is `EXEC` or `FILE`, and otherwise ends holding what it held;
* `faultLocks_reacquire?`, `faultLocks_under_filesys`, `writeLocks_reacquire?`: its cases for
  a fault raised under no lock, under `filesys_lock`, and for `write`;
* `write_fault_reacquires_filesys`: a run in which a process's read-only buffer page is
  evicted between `validate_read` and `file_write`, and `write` asks for `filesys_lock` while
  holding it.
-/

namespace TinyOs

/-- The locks of the protocol; `page_sema` is a semaphore initialised to 1 and used as a
lock. -/
inductive Lk where
  | filesys
  | frame
  | swap
  | pageSema (t : Tid)
  deriving DecidableEq, Repr

/-- `lock_acquire` or `sema_down`, `lock_release` or `sema_up`. -/
inductive LockEv where
  | acquire (l : Lk)
  | release (l : Lk)
  deriving DecidableEq, Repr

/-- The first lock a thread asks for while holding it, starting with the locks `held`:
`lock_acquire` fails `ASSERT (!lock_held_by_current_thread (lock))` there, and a `sema_down`
on a `page_sema` the thread holds never returns. -/
def reacquire? (held : List Lk) : List LockEv → Option Lk
  | [] => none
  | .acquire l :: rest => if l ∈ held then some l else reacquire? (l :: held) rest
  | .release l :: rest => reacquire? (held.erase l) rest

/-- An `EXEC` or `FILE` entry: its page is read from a file. -/
def readsFile : Option SpecialPage → Bool
  | some (.exec ..) | some (.file ..) => true
  | _ => false

namespace VmState

/-- Page `v` of thread `t` is mapped (`PTE_P`). -/
def isPresent (s : VmState) (t : Tid) (v : ℕ) : Bool :=
  match (s.procs t).bind (·.pagedir) with
  | some pd => (pd.lookup v).present
  | none => false

/-- `find_lazy_page` without its `page_sema`: the supplemental entry of page `v` of `t`. -/
def findLazyPage (s : VmState) (t : Tid) (v : ℕ) : Option SpecialPage :=
  (s.procs t).bind (·.spt.find v)

/-- The write-back of a dirty victim: `file_write_at` for a `FILE` page, with no lock;
`swap_slot_write` under `swap_lock` otherwise. -/
def writeBackLocks : Option SpecialPage → List LockEv
  | some (.file ..) => []
  | _ => [.acquire .swap, .release .swap]

/-- `ft_replacement`, under `frame_lock`: `find_lazy_page` of the victim, then the eviction
between `sema_down` and `sema_up` of the victim's `page_sema`. -/
def victimLocks (s : VmState) : List LockEv :=
  match s.getFrameForReplacement with
  | some (f, s₁) =>
      let dirty := (s₁.ptePtr f.pte).any (·.dirty)
      [.acquire (.pageSema f.t), .release (.pageSema f.t), .acquire (.pageSema f.t)] ++
        (if dirty then writeBackLocks (s₁.findLazyPage f.t f.virtualAddress) else []) ++
        [.release (.pageSema f.t)]
  | none => []

/-- The lock operations of the fill of a page from its supplemental entry: the file read under
`filesys_lock`; for a `SWAP` page `swap_slot_read` under `swap_lock`, the removal of its entry
under the thread's own `page_sema`, and `add_lazy_page` of the entry it evicted under it
again. -/
def fillLocks (t : Tid) : Option SpecialPage → List LockEv
  | some (.exec ..) | some (.file ..) => [.acquire .filesys, .release .filesys]
  | some (.swap _ _ ev) =>
      [.acquire .swap, .release .swap, .acquire (.pageSema t), .release (.pageSema t)] ++
        if ev.isSome then [.acquire (.pageSema t), .release (.pageSema t)] else []
  | some .zero | none => []

/-- The lock operations of `page_fault` when thread `t` faults at `addr` with stack pointer
`esp`: `find_lazy_page` under its own `page_sema`; nothing more when there is no entry and no
stack access; otherwise `ft_get_page` under `frame_lock`, through `ft_replacement` when the user
pool is empty, the fill, and the install under `frame_lock`. -/
def faultLocks (s : VmState) (t : Tid) (addr esp : ℕ) : List LockEv :=
  let gen := s.findLazyPage t (pageOf addr)
  [.acquire (.pageSema t), .release (.pageSema t)] ++
    if gen.isNone && !isStackAccess addr esp then [] else
      [.acquire .frame] ++ (if s.pallocGetPage.isNone then s.victimLocks else []) ++
        [.release .frame] ++ fillLocks t gen ++ [.acquire .frame, .release .frame]

/-- A kernel access at `addr`: nothing when its page is mapped, a page fault otherwise. -/
def touchLocks (s : VmState) (t : Tid) (addr esp : ℕ) : List LockEv :=
  if s.isPresent t (pageOf addr) then [] else s.faultLocks t addr esp

end VmState

/-- `write (fd, buffer, size)` to a file, for a buffer within one page: `validate_read` touches
it in state `s₀`; then `file_write`, under `filesys_lock`, reads it in state `s₁`, after the
steps other threads took in between. -/
def writeLocks (s₀ s₁ : VmState) (t : Tid) (buffer esp : ℕ) : List LockEv :=
  s₀.touchLocks t buffer esp ++ [.acquire .filesys] ++ s₁.touchLocks t buffer esp ++
    [.release .filesys]

/-! ### A page fault and the locks its thread holds -/

section

variable {held : List Lk} {rest : List LockEv}

/-- A lock taken and given back that the thread did not hold leaves it as it was. -/
lemma reacquire?_pair {l : Lk} (hl : l ∉ held) :
    reacquire? held (.acquire l :: .release l :: rest) = reacquire? held rest := by
  simp [reacquire?, hl, List.erase_cons_head]

/-- Operations that leave the thread as it was still do when they run only on a condition. -/
lemma reacquire?_ite_append {c : Prop} [Decidable c] {ops : List LockEv}
    (h : reacquire? held (ops ++ rest) = reacquire? held rest) :
    reacquire? held ((if c then ops else []) ++ rest) = reacquire? held rest := by
  split_ifs
  · exact h
  · rfl

lemma reacquire?_writeBackLocks {ev : Option SpecialPage} (hswap : Lk.swap ∉ held) :
    reacquire? held (VmState.writeBackLocks ev ++ rest) = reacquire? held rest := by
  unfold VmState.writeBackLocks
  split
  · rfl
  · exact reacquire?_pair hswap

/-- The victim's `page_sema` is taken and given back while the thread holds `held` and
`frame_lock`; `swap_lock` comes and goes under it. -/
lemma reacquire?_victimLocks {s : VmState} (hsema : ∀ u, Lk.pageSema u ∉ held)
    (hswap : Lk.swap ∉ held) :
    reacquire? (.frame :: held) (s.victimLocks ++ rest) = reacquire? (.frame :: held) rest := by
  unfold VmState.victimLocks
  split
  · rename_i f s₁ _
    have hf : Lk.pageSema f.t ∉ Lk.frame :: held := by simp [hsema]
    simp only [List.cons_append, List.append_assoc, List.nil_append]
    rw [reacquire?_pair hf, reacquire?, if_neg hf]
    -- the write-back runs under the victim's `page_sema`
    rw [reacquire?_ite_append (reacquire?_writeBackLocks (by simp [hswap])), reacquire?,
      List.erase_cons_head]
  · rfl

/-- The fill of a page asks for `filesys_lock` while holding it exactly when the page is read
from a file; otherwise, from `held` without `swap_lock` or the thread's `page_sema`, it leaves
the thread with `held`. -/
lemma reacquire?_fillLocks {t : Tid} {gen : Option SpecialPage} (hsema : Lk.pageSema t ∉ held)
    (hswap : Lk.swap ∉ held) :
    reacquire? held (VmState.fillLocks t gen ++ rest) =
      if readsFile gen ∧ Lk.filesys ∈ held then some .filesys else reacquire? held rest := by
  match gen with
  | some (.exec ..) | some (.file ..) =>
      -- the file is read under `filesys_lock`
      by_cases hfs : Lk.filesys ∈ held
      · simp [VmState.fillLocks, readsFile, reacquire?, hfs]
      · rw [if_neg (by simp [hfs])]
        exact reacquire?_pair hfs
  | some (.swap _ _ ev) =>
      simp only [VmState.fillLocks, readsFile, Bool.false_eq_true, false_and, if_false,
        List.cons_append, List.nil_append]
      rw [reacquire?_pair hswap, reacquire?_pair hsema]
      split_ifs
      · exact reacquire?_pair hsema
      · rfl
  | some .zero | none => simp [VmState.fillLocks, readsFile]

/-- One page fault, from `held` without `frame_lock`, `swap_lock` or a `page_sema`: it asks
for `filesys_lock` again exactly when the thread holds it and the page is read from a file, and
otherwise ends with the thread holding `held`. -/
lemma reacquire?_faultLocks {s : VmState} {t : Tid} {addr esp : ℕ}
    (hframe : Lk.frame ∉ held) (hswap : Lk.swap ∉ held) (hsema : ∀ u, Lk.pageSema u ∉ held) :
    reacquire? held (s.faultLocks t addr esp ++ rest) =
      if readsFile (s.findLazyPage t (pageOf addr)) ∧ Lk.filesys ∈ held then some .filesys
      else reacquire? held rest := by
  dsimp only [VmState.faultLocks]
  by_cases hexit : ((s.findLazyPage t (pageOf addr)).isNone && !isStackAccess addr esp) = true
  · -- no entry and no stack access: the fault ends after `find_lazy_page`
    have hnone : s.findLazyPage t (pageOf addr) = none := by
      simp only [Bool.and_eq_true, Option.isNone_iff_eq_none] at hexit
      exact hexit.1
    rw [if_pos hexit, List.append_nil, List.cons_append, List.cons_append, List.nil_append,
      reacquire?_pair (hsema t)]
    simp [hnone, readsFile]
  · rw [if_neg hexit]
    simp only [List.cons_append, List.append_assoc, List.nil_append]
    rw [reacquire?_pair (hsema t), reacquire?, if_neg hframe]
    -- `ft_replacement`'s operations, if any, come and go under `frame_lock`
    rw [reacquire?_ite_append (reacquire?_victimLocks hsema hswap), reacquire?,
      List.erase_cons_head, reacquire?_fillLocks (hsema t) hswap, reacquire?_pair hframe]

lemma reacquire?_touchLocks {s : VmState} {t : Tid} {addr esp : ℕ}
    (hframe : Lk.frame ∉ held) (hswap : Lk.swap ∉ held) (hsema : ∀ u, Lk.pageSema u ∉ held) :
    reacquire? held (s.touchLocks t addr esp ++ rest) =
      if !s.isPresent t (pageOf addr) ∧ readsFile (s.findLazyPage t (pageOf addr)) ∧
          Lk.filesys ∈ held then some .filesys
      else reacquire? held rest := by
  unfold VmState.touchLocks
  by_cases hp : s.isPresent t (pageOf addr) = true
  · simp [hp]
  · rw [if_neg hp, reacquire?_faultLocks hframe hswap hsema]
    simp [hp]

end

/-- A page fault raised while holding no lock never asks for a lock it holds. -/
theorem faultLocks_reacquire? (s : VmState) (t : Tid) (addr esp : ℕ) :
    reacquire? [] (s.faultLocks t addr esp) = none := by
  rw [← List.append_nil (s.faultLocks t addr esp),
    reacquire?_faultLocks (by simp) (by simp) (by simp)]
  simp [reacquire?]

/-- A page fault raised under `filesys_lock` asks for it again exactly when the page's
supplemental entry is `EXEC` or `FILE`. -/
theorem faultLocks_under_filesys (s : VmState) (t : Tid) (addr esp : ℕ) :
    reacquire? [.filesys] (s.faultLocks t addr esp) =
      if readsFile (s.findLazyPage t (pageOf addr)) then some .filesys else none := by
  rw [← List.append_nil (s.faultLocks t addr esp),
    reacquire?_faultLocks (by simp) (by simp) (by simp)]
  simp [reacquire?]

/-- `write` asks for a lock it holds exactly when, by the time `file_write` reads the buffer,
its page is no longer mapped and its supplemental entry is `EXEC` or `FILE`; the lock is then
`filesys_lock`. -/
theorem writeLocks_reacquire? (s₀ s₁ : VmState) (t : Tid) (buffer esp : ℕ) :
    reacquire? [] (writeLocks s₀ s₁ t buffer esp) =
      if !s₁.isPresent t (pageOf buffer) ∧ readsFile (s₁.findLazyPage t (pageOf buffer)) then
        some .filesys
      else none := by
  unfold writeLocks
  simp only [List.append_assoc]
  -- `validate_read`'s fault, if any, holds nothing
  rw [reacquire?_touchLocks (by simp) (by simp) (by simp)]
  simp only [List.not_mem_nil, and_false, if_false, List.cons_append, List.nil_append]
  rw [reacquire?, if_neg List.not_mem_nil, reacquire?_touchLocks (by simp) (by simp) (by simp)]
  simp [reacquire?]

/-! ### A `write` whose buffer is evicted -/

/-- Three pool pages, and an executable of 8192 bytes. -/
def writeStart : VmState :=
  vmInit 3 (fun _ => Page.zero) (fun _ => ⟨8192, fun _ => 0x41, 0⟩) 16 (fun _ _ => 0)

/-- Process 1 is loaded (its code page lazy, then its stack) and runs: it faults its code page
in and pushes the arguments of `write`. Process 2 is loaded next. -/
def writeSetup : List VmEvent :=
  [.spawn 1, .addLazy 1 0x08048000 (.exec 3 0 4096 false), .stack 1, .stackInstall 1 true,
   .fault 1 0x08048000 0xBFFFFFF0, .load 1, .install 1 true,
   .spawn 2, .stack 2, .stackInstall 2 true,
   .access 1 0xBFFFFFF0 (some 1)]

/-- `validate_read` touches the buffer, a string constant in process 1's code page; then
process 2 writes its stack and grows it three times. The growths evict process 1's stack,
process 2's first stack page and, third, the clean code page. -/
def writeEvict : List VmEvent :=
  [.access 1 0x08048000 none,
   .access 2 0xBFFFFFF0 (some 1),
   .fault 2 0xBFFFE000 0xBFFFE000, .load 2, .install 2 true,
   .fault 2 0xBFFFD000 0xBFFFD000, .load 2, .install 2 true,
   .fault 2 0xBFFFC000 0xBFFFC000, .load 2, .install 2 true]

/-- `validate_read` finds the buffer mapped, but by the time `file_write` reads it, under
`filesys_lock`, its page has been evicted; the page fault `file_write` raises reads the page
back from the executable and asks for `filesys_lock` while `write` holds it. -/
theorem write_fault_reacquires_filesys :
    ∃ s₀ s₁, VmReachable s₀ ∧ VmReachable s₁ ∧ vmRun writeStart writeSetup = some s₀ ∧
      vmRun s₀ writeEvict = some s₁ ∧ s₀.isPresent 1 0x08048000 = true ∧
      reacquire? [] (writeLocks s₀ s₁ 1 0x08048000 0xBFFFFFF0) = some .filesys := by
  have hrun : ((vmRun writeStart writeSetup).bind fun s₀ => (vmRun s₀ writeEvict).map fun s₁ =>
      (s₀.isPresent 1 0x08048000, s₁.isPresent 1 0x08048000,
        readsFile (s₁.findLazyPage 1 0x08048000))) = some (true, false, true) := by
    decide
  obtain ⟨s₀, hs₀, h⟩ := Option.bind_eq_some_iff.mp hrun
  obtain ⟨s₁, hs₁, he⟩ := Option.map_eq_some_iff.mp h
  simp only [Prod.mk.injEq] at he
  obtain ⟨hp₀, hp₁, hf⟩ := he
  have hr₀ : VmReachable s₀ := (VmReachable.init _ _ _ _ _).run hs₀
  refine ⟨s₀, s₁, hr₀, hr₀.run hs₁, hs₀, hs₁, hp₀, ?_⟩
  have hpage : pageOf 0x08048000 = 0x08048000 := by decide
  rw [writeLocks_reacquire?, hpage, hp₁, hf]
  rfl

end TinyOs
