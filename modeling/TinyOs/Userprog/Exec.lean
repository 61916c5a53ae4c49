import TinyOs.Userprog.ProcessInv

/-!
What `process_execute` leaves behind. It opens the executable and denies writes to it before
anything else, and hands the file to the child only when the copy of the command line and the
child's thread are allocated; `load` then opens the executable a second time, for the pages of
its segments, and nothing closes that file.

* `FsState.fileWrite_of_denier`: a file that denies writes makes every write to its inode move
  no bytes;
* `FsState.openers_lt`: a new file on an inode, the old files kept, is one more opener;
* `Sys.processExecute_of_copy_fail`: the failed copy returns `TID_ERROR` with the executable
  still open and denying writes;
* `Sys.processExecute_eq_some`: a child that is running has its executable, and the file
  `load` opened is new and referred to by no other process;
* `Sys.processExecute_of_found`: with memory to spare, `exec` of a file of the root directory
  starts a child.
-/

namespace TinyOs

namespace FsState

variable {heapOk : ℕ → Bool} {s : FsState}

/-- `file_deny_write` of a file that does not deny writes yet. -/
lemma fileDenyWrite_self {a : ℕ} {f : File} (hf : s.files a = some f)
    (hd : f.denyWrite = false) :
    (s.fileDenyWrite a).files a = some { f with denyWrite := true } := by
  unfold fileDenyWrite
  rw [hf]
  dsimp only
  rw [hd, if_neg Bool.false_ne_true]
  simp [setFile, inodeDenyWrite]

/-- `file_deny_write` changes only the inode of the file. -/
lemma fileDenyWrite_inodes_of_ne {a t : ℕ} {f : File} (hf : s.files a = some f)
    (ht : f.inode ≠ t) : (s.fileDenyWrite a).inodes t = s.inodes t := by
  unfold fileDenyWrite
  rw [hf]
  dsimp only
  split_ifs
  · rfl
  · simp [inodeDenyWrite, Function.update_of_ne (Ne.symm ht)]

@[simp] lemma fileDenyWrite_allocs (a : ℕ) : (s.fileDenyWrite a).allocs = s.allocs := by
  unfold fileDenyWrite
  split
  · split_ifs <;> rfl
  · rfl

@[simp] lemma fileDenyWrite_nextFile (a : ℕ) : (s.fileDenyWrite a).nextFile = s.nextFile := by
  unfold fileDenyWrite
  split
  · split_ifs <;> rfl
  · rfl

@[simp] lemma fileDenyWrite_dirs (a : ℕ) : (s.fileDenyWrite a).dirs = s.dirs := by
  unfold fileDenyWrite
  split
  · split_ifs <;> rfl
  · rfl

@[simp] lemma fileDenyWrite_disk (a : ℕ) : (s.fileDenyWrite a).disk = s.disk := by
  unfold fileDenyWrite
  split
  · split_ifs <;> rfl
  · rfl

@[simp] lemma inodeOpen_dirs (sector : ℕ) : (s.inodeOpen heapOk sector).2.dirs = s.dirs := by
  unfold inodeOpen
  split
  · rfl
  · dsimp only
    split_ifs <;> rfl

@[simp] lemma inodeOpen_disk (sector : ℕ) : (s.inodeOpen heapOk sector).2.disk = s.disk := by
  unfold inodeOpen
  split
  · rfl
  · dsimp only
    split_ifs <;> rfl

/-- The search of the root directory just opened reads only the records and the inode's
length on disk. -/
lemma findSlot_openedRoot_congr {s' : FsState} (hd : s'.dirs = s.dirs) (hk : s'.disk = s.disk)
    (P : DirEntry → Bool) (k : ℕ) :
    (s'.setInode rootDirSector (some ⟨1, false, 0, s'.disk rootDirSector⟩)).findSlot
        rootDirSector P k =
      (s.setInode rootDirSector (some ⟨1, false, 0, s.disk rootDirSector⟩)).findSlot
        rootDirSector P k := by
  simp [findSlot, slotCount, inodeLength, hd, hk]

/-- `filesys_open` of a name found draws at least the allocations it starts from. -/
lemma allocs_le_opened (m sector : ℕ) (f : File) :
    s.allocs ≤ ((((s.drawn m).inodeOpen heapOk sector).2.drawn 1).pushFile f).allocs := by
  have := (s.drawn m).inodeOpen_allocs heapOk sector
  simp only [drawn_allocs] at this
  simp only [pushFile, setFile_allocs, drawn_allocs]
  omega

/-- A file that denies writes makes every write to its inode move no bytes: its
`deny_write_cnt` is at least one. -/
lemma fileWrite_of_denier {held : List ℕ} (h : s.RefInv held) {a b size : ℕ} {f g : File}
    (ha : s.files a = some f) (hd : f.denyWrite = true) (hb : s.files b = some g)
    (hg : g.inode = f.inode) : (s.fileWrite heapOk b size).1 = 0 := by
  obtain ⟨i, hi⟩ := h.inode_of_file ha
  have hdeny : 0 < i.denyWriteCnt := by
    rw [h.denyWriteCnt_eq _ i hi]
    unfold deniers fileCount
    exact Nat.count_pos_of_lt (h.lt_nextFile ha) (by simp [ha, hd])
  unfold fileWrite inodeWriteAt
  rw [hb]
  dsimp only
  rw [hg, hi]
  dsimp only
  rw [if_pos (Nat.pos_iff_ne_zero.mp hdeny)]

/-- A new file on an inode, the old files kept, is one more opener of it. -/
lemma openers_lt {s' : FsState} (hk : s.Keeps s' (· < s.nextFile)) {b : ℕ} {g : File}
    (hb : s.nextFile ≤ b) (hb' : b < s'.nextFile) (hg : s'.files b = some g) :
    s.openers g.inode < s'.openers g.inode := by
  unfold openers fileCount
  calc Nat.count (fun a => (s.files a).any (fun f => f.inode == g.inode) = true) s.nextFile
      = Nat.count (fun a => (s'.files a).any (fun f => f.inode == g.inode) = true)
          s.nextFile := Nat.count_eq_of_agree fun u hu => by rw [hk.files_eq u hu hu]
    _ ≤ Nat.count (fun a => (s'.files a).any (fun f => f.inode == g.inode) = true) b :=
        Nat.count_monotone _ hb
    _ < Nat.count (fun a => (s'.files a).any (fun f => f.inode == g.inode) = true) (b + 1) := by
        rw [Nat.count_succ, if_pos (by simp [hg])]
        omega
    _ ≤ Nat.count (fun a => (s'.files a).any (fun f => f.inode == g.inode) = true)
          s'.nextFile := Nat.count_monotone _ hb'

end FsState

namespace Sys

variable {heapOk : ℕ → Bool} {s : Sys}

/-- `exec` leaves what `process_execute` leaves. -/
lemma exec_snd (cmdline : List UInt8) (image : Option (List (ℕ × SegPage))) :
    (s.exec heapOk cmdline image).2 = (s.processExecute heapOk cmdline image).2 := by
  unfold exec
  split <;> rename_i heq <;> rw [heq]

/-- `exec` by a thread that has a process. -/
lemma step_exec {t : Tid} {p : Process} (hp : s.procs t = some p) (cmdline : List UInt8)
    (image : Option (List (ℕ × SegPage))) :
    s.step heapOk t (.exec cmdline image) = (s.processExecute heapOk cmdline image).2 := by
  unfold step
  rw [hp]
  exact exec_snd cmdline image

/-- `process_execute` when the `palloc_get_page` of `cmdline_copy` fails: `TID_ERROR`, the
executable still open and denying writes, and no process added. -/
lemma processExecute_of_copy_fail {cmdline : List UInt8} {a : ℕ} {fs₁ : FsState}
    (hopen : s.fs.filesysOpen heapOk (execFileName cmdline) = (some a, fs₁))
    (hfail : heapOk fs₁.allocs = false) (image : Option (List (ℕ × SegPage))) :
    s.processExecute heapOk cmdline image =
      (none, s.setFs ((fs₁.fileDenyWrite a).alloc heapOk).2) := by
  unfold processExecute
  rw [hopen]
  simp only [FsState.alloc_fst, FsState.fileDenyWrite_allocs, hfail, Bool.false_eq_true,
    ↓reduceIte]

/-- When `process_execute` cannot allocate the copy of the command line, `exec` returns `-1`
and starts no process, but the executable stays open and denying writes with no process
referring to it: from then on, in every run of system calls, every write to its inode moves no
bytes. -/
theorem exec_copy_failure_denies_writes_forever (hinv : s.Inv) {t : Tid} {p : Process}
    (hp : s.procs t = some p) {cmdline : List UInt8} {image : Option (List (ℕ × SegPage))}
    {a : ℕ} (hopen : (s.fs.filesysOpen heapOk (execFileName cmdline)).1 = some a)
    (hfail : heapOk (s.fs.filesysOpen heapOk (execFileName cmdline)).2.allocs = false) :
    (s.exec heapOk cmdline image).1 = -1 ∧
      (s.step heapOk t (.exec cmdline image)).procs = s.procs ∧
      ∃ sector, ∀ (calls : List (Tid × Syscall)) (b size : ℕ) (g : File),
        ((s.step heapOk t (.exec cmdline image)).run heapOk calls).fs.files b = some g →
        g.inode = sector →
        (((s.step heapOk t (.exec cmdline image)).run heapOk calls).fs.fileWrite heapOk b
          size).1 = 0 := by
  obtain ⟨ha₁, ha₂, sector, hfile⟩ := FsState.filesysOpen_eq_some heapOk hopen
  set fs₁ := (s.fs.filesysOpen heapOk (execFileName cmdline)).2
  have hpe := processExecute_of_copy_fail (Prod.ext hopen rfl) hfail image
  have hstep : s.step heapOk t (.exec cmdline image) =
      s.setFs ((fs₁.fileDenyWrite a).alloc heapOk).2 := by
    rw [step_exec hp, hpe]
  -- the executable, now denying writes, is referred to by no process
  have hfile₁ : (s.step heapOk t (.exec cmdline image)).fs.files a =
      some ⟨sector, 0, true⟩ := by
    rw [hstep, setFs_fs, FsState.alloc_files, FsState.fileDenyWrite_self hfile rfl]
  have hlt : a < (s.step heapOk t (.exec cmdline image)).fs.nextFile := by
    rw [hstep, setFs_fs, FsState.alloc_nextFile, FsState.fileDenyWrite_nextFile]
    exact ha₂
  have hnot : ¬ (s.step heapOk t (.exec cmdline image)).Refers a := by
    rintro ⟨t', q, hq, hr⟩
    rw [hstep, setFs_procs] at hq
    exact absurd (hinv.refers_lt a ⟨t', q, hq, hr⟩) (not_lt.mpr ha₁)
  have hinv₁ := hinv.of_frames (Frames.step heapOk le_rfl t (.exec cmdline image))
  refine ⟨?_, by rw [hstep, setFs_procs], sector, fun calls b size g hb hg => ?_⟩
  · unfold exec
    rw [hpe]
  · obtain ⟨hkept, -⟩ := files_run_of_not_refers heapOk hlt hnot calls
    exact FsState.fileWrite_of_denier (hinv₁.run heapOk calls).refInv (hkept.trans hfile₁) rfl
      hb hg

/-- A root directory whose records all name `a`, at sector 3, no file open, and one process,
with no descriptor open, at tid 0. -/
def execSys : Sys where
  fs :=
    { freeMap := ⟨[]⟩
      disk := fun _ => ⟨2, dirEntrySize⟩
      dirs := fun _ _ => ⟨3, [97], true⟩
      inodes := fun _ => none
      files := fun _ => none
      nextFile := 0
      allocs := 0 }
  procs := fun t => if t = 0 then some ⟨fun _ => none, none, Spt.empty⟩ else none
  nextTid := 1

lemma execSys_inv : execSys.Inv := by
  refine Inv.of_closed (fun _ => rfl) (fun _ => rfl) ?_
  rintro a ⟨t, q, hq, hr⟩
  by_cases ht : t = 0
  · simp only [execSys, ht, if_true, Option.some.injEq] at hq
    subst hq
    simp [Process.Refers, Spt.empty] at hr
  · simp [execSys, ht] at hq

/-- `exec "a"` where the allocation after `filesys_open`'s five fails: `-1`, and `a` denies
writes for good. -/
theorem execSys_exec_copy_failure :
    (execSys.fs.filesysOpen (fun n => n != 5) (execFileName [97])).1 = some 0 ∧
      (fun n => n != 5) (execSys.fs.filesysOpen (fun n => n != 5) (execFileName [97])).2.allocs =
        false ∧
      (execSys.exec (fun n => n != 5) [97] none).1 = -1 ∧
      (execSys.step (fun n => n != 5) 0 (.exec [97] none)).procs = execSys.procs ∧
      ∃ sector, ∀ (calls : List (Tid × Syscall)) (b size : ℕ) (g : File),
        ((execSys.step (fun n => n != 5) 0 (.exec [97] none)).run (fun n => n != 5)
          calls).fs.files b = some g →
        g.inode = sector →
        (((execSys.step (fun n => n != 5) 0 (.exec [97] none)).run (fun n => n != 5)
          calls).fs.fileWrite (fun n => n != 5) b size).1 = 0 := by
  have hfo := @FsState.filesysOpen_of_found (fun n => n != 5) execSys.fs rfl
    (execFileName [97]) 0 (fun n _ hn => by simp [execSys] at hn ⊢; omega) (by decide)
    (by decide)
  have hopen : (execSys.fs.filesysOpen (fun n => n != 5) (execFileName [97])).1 = some 0 := by
    rw [hfo]
    rfl
  have hfail : (fun n => n != 5)
      (execSys.fs.filesysOpen (fun n => n != 5) (execFileName [97])).2.allocs = false := by
    rw [hfo]
    decide
  exact ⟨hopen, hfail, exec_copy_failure_denies_writes_forever execSys_inv rfl hopen hfail⟩

/-- `thread_exit`'s loop finds nothing to close in an empty table. -/
lemma foldl_closeStep_of_none (l : List ℕ) {acc : FsState × (ℕ → Option ℕ)}
    (h : ∀ fd, acc.2 fd = none) : l.foldl closeStep acc = acc := by
  induction l generalizing acc with
  | nil => rfl
  | cons fd l ih =>
    have hstep : closeStep acc fd = acc := by
      unfold closeStep
      split
      · next fn file files hc =>
        obtain ⟨-, -, ⟨f, -, hf⟩, -⟩ := sysClose_file hc
        rw [h] at hf
        cases hf
      · next r files _ hc =>
        refine Prod.ext rfl (funext fun fd' => ?_)
        show files fd' = acc.2 fd'
        rw [h]
        cases hx : files fd' with
        | none => rfl
        | some c =>
          have := sysClose_snd (show (sysClose acc.2 fd).2 fd' = some c by rw [hc]; exact hx)
          rw [h] at this
          cases this
    rw [List.foldl_cons, hstep]
    exact ih h

/-- `thread_exit` of a process with no descriptor open closes only its executable. -/
lemma threadExit_of_files_none {c : Tid} {q : Process} (hq : s.procs c = some q)
    (hfiles : ∀ fd, q.files fd = none) :
    s.threadExit c = (s.setFs (s.fs.fileClose q.file)).setProc c none := by
  unfold threadExit
  rw [hq]
  dsimp only
  rw [foldl_closeStep_of_none _ hfiles]

/-- A `load` that succeeds opened the executable as a new file, gave the pages of `t` to it, and
left the files that were there as they were. -/
lemma load_eq_true {t : Tid} {name : List UInt8} {image : Option (List (ℕ × SegPage))}
    (h : (s.load heapOk t name image).1 = true) :
    ∃ (b sector : ℕ) (spt : Process → Spt), s.fs.nextFile ≤ b ∧
      b < (s.load heapOk t name image).2.fs.nextFile ∧
      (s.load heapOk t name image).2.fs.files b = some ⟨sector, 0, false⟩ ∧
      (s.load heapOk t name image).2.procs =
        Function.update s.procs t ((s.procs t).map fun p => { p with spt := spt p }) ∧
      s.fs.Keeps (s.load heapOk t name image).2.fs fun _ => True := by
  unfold load at h ⊢
  generalize ha : s.fs.alloc heapOk = r at h ⊢
  obtain ⟨ok, fs₁⟩ := r
  have hk₁ : s.fs.Keeps fs₁ fun _ => True := by
    have := FsState.keeps_alloc heapOk (s := s.fs) (P := fun _ => True)
    rwa [ha] at this
  dsimp only at h ⊢
  -- a `load` whose first allocation fails returns `false`
  split_ifs at h ⊢
  generalize ho : fs₁.filesysOpen heapOk name = r at h ⊢
  obtain ⟨_ | b, fs₂⟩ := r
  · cases h
  · cases image with
    | none => cases h
    | some pages =>
      obtain ⟨hb₁, hb₂, sector, hfile⟩ := FsState.filesysOpen_eq_some heapOk (s := fs₁)
        (show (fs₁.filesysOpen heapOk name).1 = some b by rw [ho])
      have hk₂ : fs₁.Keeps fs₂ fun _ => True := by
        have := FsState.keeps_filesysOpen heapOk name (s := fs₁) (P := fun _ => True)
        rwa [ho] at this
      rw [ho] at hb₂ hfile
      refine ⟨b, sector, fun p => pages.foldl (fun spt vp => spt.insert vp.1 (vp.2.toSpecial b))
        p.spt, le_trans hk₁.nextFile_le hb₁, by simpa using hb₂, by simpa using hfile, by simp,
        (hk₁.trans hk₂).trans (FsState.keeps_alloc heapOk)⟩

/-- A child `process_execute` starts: a process with no descriptors running the executable `f`,
at the tid it returns, and the file `b` that `load` opened, both new; the files that were there
are kept. -/
lemma processExecute_eq_some {cmdline : List UInt8} {image : Option (List (ℕ × SegPage))}
    {c : Tid} (h : (s.processExecute heapOk cmdline image).1 = some c) :
    ∃ (f b sector : ℕ) (spt : Spt), s.fs.nextFile ≤ f ∧ f < b ∧
      b < (s.processExecute heapOk cmdline image).2.fs.nextFile ∧
      (s.processExecute heapOk cmdline image).2.fs.files b = some ⟨sector, 0, false⟩ ∧
      (s.processExecute heapOk cmdline image).2.procs =
        Function.update s.procs c (some ⟨fun _ => none, some f, spt⟩) ∧
      s.fs.Keeps (s.processExecute heapOk cmdline image).2.fs (· < s.fs.nextFile) := by
  unfold processExecute at h ⊢
  generalize ho : s.fs.filesysOpen heapOk (execFileName cmdline) = r at h ⊢
  obtain ⟨_ | f, fs₁⟩ := r
  · cases h
  obtain ⟨hf₁, hf₂, -⟩ := FsState.filesysOpen_eq_some heapOk (s := s.fs)
    (show (s.fs.filesysOpen heapOk (execFileName cmdline)).1 = some f by rw [ho])
  have hk₁ : s.fs.Keeps fs₁ (· < s.fs.nextFile) := by
    have := FsState.keeps_filesysOpen heapOk (execFileName cmdline) (s := s.fs)
      (P := (· < s.fs.nextFile))
    rwa [ho] at this
  rw [ho] at hf₂
  dsimp only at h ⊢
  generalize ha₁ : (fs₁.fileDenyWrite f).alloc heapOk = r₁ at h ⊢
  obtain ⟨ok, fs₂⟩ := r₁
  generalize ha₂ : fs₂.alloc heapOk = r₂ at h ⊢
  obtain ⟨ok', fs₃⟩ := r₂
  -- the executable is new, so denying its writes keeps the old files
  have hk₃ : s.fs.Keeps fs₃ (· < s.fs.nextFile) := by
    have h₂ := FsState.keeps_alloc heapOk (s := fs₁.fileDenyWrite f) (P := (· < s.fs.nextFile))
    have h₃ := FsState.keeps_alloc heapOk (s := fs₂) (P := (· < s.fs.nextFile))
    rw [ha₁] at h₂
    rw [ha₂] at h₃
    exact ((hk₁.trans ((FsState.keeps_fileDenyWrite f).mono fun a ha => ne_of_lt
      (lt_of_lt_of_le ha hf₁))).trans h₂).trans h₃
  have hnext : fs₃.nextFile = fs₁.nextFile := by
    have h₂ := congrArg (fun r : Bool × FsState => r.2.nextFile) ha₁
    have h₃ := congrArg (fun r : Bool × FsState => r.2.nextFile) ha₂
    simp only [FsState.alloc_nextFile, FsState.fileDenyWrite_nextFile] at h₂ h₃
    rw [← h₃, ← h₂]
  dsimp only at h ⊢
  split_ifs at h ⊢
  generalize hl : Sys.load heapOk ⟨fs₃, Function.update s.procs s.nextTid
    (some (Process.child f)), s.nextTid + 1⟩ s.nextTid (loadFileName cmdline) image = r₃ at h ⊢
  obtain ⟨_ | _, s₆⟩ := r₃
  · cases h
  cases h
  obtain ⟨b, sector, spt, hb₁, hb₂, hfile, hprocs, hkeep⟩ := load_eq_true (s := ⟨fs₃,
    Function.update s.procs s.nextTid (some (Process.child f)), s.nextTid + 1⟩) (by rw [hl])
  rw [hl] at hb₂ hfile hprocs hkeep
  refine ⟨f, b, sector, spt (Process.child f), hf₁, ?_, hb₂, hfile, ?_,
    hk₃.trans (hkeep.mono fun _ _ => trivial)⟩
  · -- `load` opened its file after the executable
    exact lt_of_lt_of_le (hnext ▸ hf₂) hb₁
  · rw [hprocs]
    simp [Process.child]

/-- `load` of a name the closed root directory has, with memory to spare, succeeds. -/
lemma load_of_found (hok : ∀ n, s.fs.allocs ≤ n → heapOk n = true)
    (hroot : s.fs.inodes rootDirSector = none) {name : List UInt8} {j : ℕ}
    (hj : (s.fs.setInode rootDirSector (some ⟨1, false, 0, s.fs.disk rootDirSector⟩)).findSlot
      rootDirSector (fun e => e.inUse && name == e.name) 0 = some j)
    (hsector : (s.fs.dirs rootDirSector j).inodeSector ≠ rootDirSector) (t : Tid)
    (pages : List (ℕ × SegPage)) : (s.load heapOk t name (some pages)).1 = true := by
  have h₁ := FsState.filesysOpen_of_found (s := (s.fs.alloc heapOk).2) hroot
    (fun n hn _ => hok n (by simp only [FsState.alloc_allocs] at hn; omega))
    (by rw [FsState.findSlot_openedRoot_congr rfl rfl]; exact hj) hsector
  unfold load
  dsimp only
  rw [FsState.alloc_fst, if_pos (hok _ le_rfl)]
  rw [h₁]
  dsimp only
  rw [FsState.alloc_fst]
  apply hok
  have := @FsState.allocs_le_opened heapOk (s.fs.alloc heapOk).2 (j + 3)
    (s.fs.dirs rootDirSector j).inodeSector ⟨(s.fs.dirs rootDirSector j).inodeSector, 0, false⟩
  simp only [FsState.alloc_allocs] at this
  simp only [setProc_fs, setFs_fs, FsState.alloc_dirs]
  omega

/-- With memory to spare, `exec` of a name the closed root directory has, read the same way by
`process_execute` and by `load`, starts a child at the next tid. -/
lemma processExecute_of_found (hok : ∀ n, s.fs.allocs ≤ n → heapOk n = true)
    (hroot : s.fs.inodes rootDirSector = none) {cmdline : List UInt8} {j : ℕ}
    (hname : loadFileName cmdline = execFileName cmdline)
    (hj : (s.fs.setInode rootDirSector (some ⟨1, false, 0, s.fs.disk rootDirSector⟩)).findSlot
      rootDirSector (fun e => e.inUse && execFileName cmdline == e.name) 0 = some j)
    (hsector : (s.fs.dirs rootDirSector j).inodeSector ≠ rootDirSector)
    (pages : List (ℕ × SegPage)) :
    (s.processExecute heapOk cmdline (some pages)).1 = some s.nextTid := by
  have h₁ := FsState.filesysOpen_of_found hroot (fun n hn _ => hok n hn) hj hsector
  set sector := (s.fs.dirs rootDirSector j).inodeSector
  set fs₁ := (((s.fs.drawn (j + 3)).inodeOpen heapOk sector).2.drawn 1).pushFile ⟨sector, 0, false⟩
  have hA₁ : s.fs.allocs ≤ fs₁.allocs := FsState.allocs_le_opened (j + 3) sector _
  unfold processExecute
  rw [h₁]
  dsimp only
  rw [FsState.alloc_fst, FsState.fileDenyWrite_allocs, if_pos (hok _ hA₁)]
  rw [FsState.alloc_fst, FsState.alloc_allocs, FsState.fileDenyWrite_allocs,
    if_pos (hok _ (by omega))]
  set fs₃ := ((fs₁.fileDenyWrite s.fs.nextFile).alloc heapOk).2.alloc heapOk |>.2
  -- `load` finds the same entry: the root is closed again and the records are as they were
  have hfile₁ : fs₁.files s.fs.nextFile = some ⟨sector, 0, false⟩ := by
    simp [fs₁, FsState.pushFile, FsState.setFile]
  have hroot₃ : fs₃.inodes rootDirSector = none := by
    simp only [fs₃, FsState.alloc_inodes]
    rw [FsState.fileDenyWrite_inodes_of_ne hfile₁ hsector]
    simp only [fs₁, FsState.pushFile, FsState.setFile_inodes, FsState.drawn_inodes]
    rw [FsState.inodeOpen_inodes_of_ne (Ne.symm hsector), FsState.drawn_inodes, hroot]
  have hdirs₃ : fs₃.dirs = s.fs.dirs := by
    simp [fs₃, fs₁, FsState.pushFile]
  have hdisk₃ : fs₃.disk = s.fs.disk := by
    simp [fs₃, fs₁, FsState.pushFile, FsState.setFile]
  have hload : (Sys.load heapOk ⟨fs₃, Function.update s.procs s.nextTid
      (some (Process.child s.fs.nextFile)), s.nextTid + 1⟩ s.nextTid (loadFileName cmdline)
      (some pages)).1 = true := load_of_found
    (fun n hn => hok n (le_trans (by simp [fs₃]; omega) hn)) hroot₃
    (by rw [hname, FsState.findSlot_openedRoot_congr hdirs₃ hdisk₃]; exact hj)
    (by rw [hdirs₃]; exact hsector) s.nextTid pages
  obtain ⟨s₆, hs₆⟩ : ∃ s₆, Sys.load heapOk ⟨fs₃, Function.update s.procs s.nextTid
      (some (Process.child s.fs.nextFile)), s.nextTid + 1⟩ s.nextTid (loadFileName cmdline)
      (some pages) = (true, s₆) := ⟨_, Prod.ext hload rfl⟩
  rw [hs₆]

/-- When `exec` starts a child and the child exits, the file `load` opened stays open with no
process referring to it. Its inode's `open_cnt` is higher than before the child existed, and in
every later run of system calls the file stays and the inode stays open. -/
theorem exec_exit_leaks_load_file (hinv : s.Inv) {t : Tid} {p : Process}
    (hp : s.procs t = some p) {cmdline : List UInt8} {image : Option (List (ℕ × SegPage))}
    {c : Tid} (hexec : (s.processExecute heapOk cmdline image).1 = some c) :
    ∃ b sector, s.fs.openCnt sector <
        ((s.step heapOk t (.exec cmdline image)).step heapOk c .exit).fs.openCnt sector ∧
      ¬ ((s.step heapOk t (.exec cmdline image)).step heapOk c .exit).Refers b ∧
      ∀ calls : List (Tid × Syscall),
        (((s.step heapOk t (.exec cmdline image)).step heapOk c .exit).run heapOk
          calls).fs.files b = some ⟨sector, 0, false⟩ ∧
        0 < (((s.step heapOk t (.exec cmdline image)).step heapOk c .exit).run heapOk
          calls).fs.openCnt sector := by
  obtain ⟨f, b, sector, spt, hf, hfb, hb, hfile, hprocs, hkeep⟩ := processExecute_eq_some hexec
  set s₁ := (s.processExecute heapOk cmdline image).2
  have hstep₁ : s.step heapOk t (.exec cmdline image) = s₁ := step_exec hp cmdline image
  have hc : s₁.procs c = some ⟨fun _ => none, some f, spt⟩ := by
    rw [hprocs, Function.update_self]
  -- the child's exit closes its executable and nothing else
  have hexit : s₁.step heapOk c .exit = (s₁.setFs (s₁.fs.fileClose (some f))).setProc c none := by
    unfold step
    rw [hc]
    exact threadExit_of_files_none hc fun _ => rfl
  have hinv₁ : s₁.Inv := by
    have := hinv.of_frames (Frames.step heapOk le_rfl t (.exec cmdline image))
    rwa [hstep₁] at this
  have hinv₂ := hinv₁.of_frames (Frames.step heapOk le_rfl c .exit)
  rw [hexit] at hinv₂
  rw [hstep₁, hexit]
  set s₂ := (s₁.setFs (s₁.fs.fileClose (some f))).setProc c none
  have hk₂ : s₁.fs.Keeps s₂.fs (· ≠ f) := FsState.keeps_fileClose f
  have hfile₂ : s₂.fs.files b = some ⟨sector, 0, false⟩ := by
    rw [← hfile]
    exact hk₂.files_eq b hb (ne_of_gt hfb)
  have hlt₂ : b < s₂.fs.nextFile := lt_of_lt_of_le hb hk₂.nextFile_le
  -- no process refers to the file: the child is gone and the others were there before it
  have hnot : ¬ s₂.Refers b := by
    rintro ⟨t', q, hq, hr⟩
    have ht' : t' ≠ c := by
      rintro rfl
      simp [s₂] at hq
    have hq' : s.procs t' = some q := by
      rw [← hq]
      simp [s₂, hprocs, Function.update_of_ne ht']
    exact absurd (hinv.refers_lt b ⟨t', q, hq', hr⟩) (not_lt.mpr (le_trans hf hfb.le))
  -- one more file on the inode than before the child existed
  have hopeners := FsState.openers_lt (hkeep.trans (hk₂.mono fun a ha => ne_of_lt
    (lt_of_lt_of_le ha hf))) (le_trans hf hfb.le) hlt₂ hfile₂
  refine ⟨b, sector, ?_, hnot, fun calls => ?_⟩
  · rw [hinv.refInv.openCnt_eq, hinv₂.refInv.openCnt_eq]
    simpa using hopeners
  · obtain ⟨hkept, -⟩ := files_run_of_not_refers heapOk hlt₂ hnot calls
    have hrun := (hinv₂.run heapOk calls).refInv
    have hpos : 0 < (s₂.run heapOk calls).fs.openers sector :=
      Nat.count_pos_of_lt (hrun.lt_nextFile (hkept.trans hfile₂)) (by simp [hkept, hfile₂])
    refine ⟨hkept.trans hfile₂, ?_⟩
    rw [hrun.openCnt_eq]
    omega

/-- `exec "a"` with memory to spare starts tid 1; when it exits, `a` stays open. -/
theorem execSys_exec_exit_leak :
    (execSys.processExecute (fun _ => true) [97] (some [])).1 = some 1 ∧
      ∃ b sector, execSys.fs.openCnt sector <
          ((execSys.step (fun _ => true) 0 (.exec [97] (some []))).step (fun _ => true) 1
            .exit).fs.openCnt sector ∧
        ¬ ((execSys.step (fun _ => true) 0 (.exec [97] (some []))).step (fun _ => true) 1
            .exit).Refers b ∧
        ∀ calls : List (Tid × Syscall),
          (((execSys.step (fun _ => true) 0 (.exec [97] (some []))).step (fun _ => true) 1
            .exit).run (fun _ => true) calls).fs.files b = some ⟨sector, 0, false⟩ ∧
          0 < (((execSys.step (fun _ => true) 0 (.exec [97] (some []))).step (fun _ => true) 1
            .exit).run (fun _ => true) calls).fs.openCnt sector := by
  have hexec := @processExecute_of_found (fun _ => true) execSys (fun _ _ => rfl) rfl [97] 0
    (by decide) (by decide) (by decide) []
  exact ⟨hexec, exec_exit_leaks_load_file execSys_inv rfl hexec⟩

end Sys

end TinyOs
