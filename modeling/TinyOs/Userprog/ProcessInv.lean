import TinyOs.Userprog.Mmap

/-!
Which `struct file`s the processes hold, across every run of system calls. A process refers to
a file through a descriptor, through its executable, or through an `EXEC` or `FILE` entry of its
supplemental page table. A call closes or writes only files the calling process refers to, and
every file a process refers to afterwards it referred to before or was allocated by the call.
A file that no process refers to is therefore never touched again.

* `Process.Refers`, `Sys.Refers`: the files a process, or any process, refers to;
* `Sys.Frames n s s'`: from `s` to `s'` the files below `n` that no process refers to are kept,
  new references are to files allocated on the way, and the reference invariant of the file
  system is kept;
* one lemma per call, then `Frames.step` and `Frames.run`;
* `Sys.Inv`, `Inv.run`: between calls, the reference invariant holds with nothing held outside a
  file, and the processes refer only to allocated files;
* `files_run_of_not_refers`: a file no process refers to stays as it is for every run.
-/

namespace TinyOs

/-- The files process `p` refers to: a descriptor's, the executable, or an entry's of the
supplemental page table. -/
def Process.Refers (p : Process) (a : ℕ) : Prop :=
  (∃ fd, p.files fd = some a) ∨ p.file = some a ∨ ∃ e ∈ p.spt.entries, e.2.fileRef = some a

namespace Process

variable {p : Process} {a : ℕ} {b : Option ℕ}

/-- A new table whose slots are the old ones or `b`. -/
lemma refers_setFiles {files : ℕ → Option ℕ}
    (hfiles : ∀ fd c, files fd = some c → p.files fd = some c ∨ b = some c)
    (h : { p with files }.Refers a) : p.Refers a ∨ b = some a := by
  rcases h with ⟨fd, hfd⟩ | hfile | hspt
  · rcases hfiles fd a hfd with h' | h'
    · exact Or.inl (Or.inl ⟨fd, h'⟩)
    · exact Or.inr h'
  · exact Or.inl (Or.inr (Or.inl hfile))
  · exact Or.inl (Or.inr (Or.inr hspt))

/-- A new supplemental page table whose entries are old ones or refer to `b` or to nothing. -/
lemma refers_setSpt {spt : Spt}
    (hspt : ∀ e ∈ spt.entries, e ∈ p.spt.entries ∨ e.2.fileRef = none ∨ e.2.fileRef = b)
    (h : { p with spt }.Refers a) : p.Refers a ∨ b = some a := by
  rcases h with hfd | hfile | ⟨e, he, hr⟩
  · exact Or.inl (Or.inl hfd)
  · exact Or.inl (Or.inr (Or.inl hfile))
  · rcases hspt e he with h' | h' | h'
    · exact Or.inl (Or.inr (Or.inr ⟨e, h', hr⟩))
    · rw [h'] at hr
      cases hr
    · exact Or.inr (h'.symm.trans hr)

/-- The child `process_execute` starts refers only to its executable. -/
lemma refers_child {f : ℕ} (h : (Process.child f).Refers a) : a = f := by
  rcases h with ⟨_, hfd⟩ | hfile | ⟨_, he, _⟩
  · cases hfd
  · exact (Option.some.inj hfile).symm
  · cases he

end Process

/-! ### Tables the calls build -/

/-- `load_segment`'s pages refer to the executable `h` or to nothing. -/
lemma mem_foldl_insert {h : ℕ} (pages : List (ℕ × SegPage)) {spt : Spt} {x : ℕ × SpecialPage}
    (hx : x ∈ (pages.foldl (fun spt vp => spt.insert vp.1 (vp.2.toSpecial h)) spt).entries) :
    x ∈ spt.entries ∨ x.2.fileRef = none ∨ x.2.fileRef = some h := by
  induction pages generalizing spt with
  | nil => exact Or.inl hx
  | cons vp pages ih =>
    rcases ih hx with h' | h'
    · rcases Spt.mem_insert h' with h'' | rfl
      · exact Or.inl h''
      · obtain ⟨v, g⟩ := vp
        cases g <;> simp
    · exact Or.inr h'

/-- `munmap`'s deletions leave only entries there were. -/
lemma mem_foldl_delete (l : List ℕ) (f : ℕ → ℕ) {spt : Spt} {x : ℕ × SpecialPage}
    (hx : x ∈ (l.foldl (fun spt i => spt.delete (f i)) spt).entries) : x ∈ spt.entries := by
  induction l generalizing spt with
  | nil => exact hx
  | cons i l ih => exact Spt.mem_delete (ih hx)

/-- `open` stores only the file `filesys_open` returned. -/
lemma sysOpen_snd {files : ℕ → Option ℕ} {opened : Option ℕ} {fd c : ℕ}
    (h : (sysOpen files opened).2 fd = some c) : files fd = some c ∨ opened = some c := by
  unfold sysOpen at h
  split at h
  · exact Or.inl h
  · rename_i fd' _
    have h' : Function.update files fd' opened fd = some c := by
      split_ifs at h <;> exact h
    by_cases hfd : fd = fd'
    · subst hfd
      rw [Function.update_self] at h'
      exact Or.inr h'
    · rw [Function.update_of_ne hfd] at h'
      exact Or.inl h'

/-- `close` leaves in the table only slots it had. -/
lemma sysClose_snd {files : ℕ → Option ℕ} {fd : ℤ} {fd' c : ℕ}
    (h : (sysClose files fd).2 fd' = some c) : files fd' = some c := by
  unfold sysClose at h
  split at h
  · exact h
  · split_ifs at h
    · exact h
    · split at h
      · exact h
      · dsimp only at h
        by_cases hfd : fd' = fd.toNat
        · subst hfd
          rw [Function.update_self] at h
          cases h
        · rwa [Function.update_of_ne hfd] at h

namespace Sys

/-- The files some process refers to. -/
def Refers (s : Sys) (a : ℕ) : Prop := ∃ t p, s.procs t = some p ∧ p.Refers a

/-- Once the record of `t` is replaced, a file is referred to as before or by the new record. -/
lemma refers_update {s s' : Sys} {t : Tid} {q : Option Process}
    (h : s'.procs = Function.update s.procs t q) {a : ℕ} (ha : s'.Refers a) :
    s.Refers a ∨ ∃ p, q = some p ∧ p.Refers a := by
  obtain ⟨t', p', hp', hr⟩ := ha
  rw [h] at hp'
  by_cases ht : t' = t
  · subst ht
    rw [Function.update_self] at hp'
    exact Or.inr ⟨p', hp', hr⟩
  · rw [Function.update_of_ne ht] at hp'
    exact Or.inl ⟨t', p', hp', hr⟩

/-- From `s` to `s'`: the files below `n` that no process refers to are kept, a process refers
afterwards only to files it referred to or that were allocated from `n` on, and the reference
invariant of the file system is kept. -/
structure Frames (n : ℕ) (s s' : Sys) : Prop where
  keeps : s.fs.Keeps s'.fs fun a => a < n ∧ ¬ s.Refers a
  refers : ∀ a, s'.Refers a → s.Refers a ∨ (n ≤ a ∧ a < s'.fs.nextFile)
  refInv : s.fs.RefInv [] → s'.fs.RefInv []

namespace Frames

variable {n m : ℕ} {s s' s'' : Sys}

lemma refl (n : ℕ) (s : Sys) : Frames n s s := ⟨FsState.Keeps.refl _ _, fun _ h => Or.inl h, id⟩

lemma nextFile_le (h : Frames n s s') : s.fs.nextFile ≤ s'.fs.nextFile := h.keeps.nextFile_le

/-- A file below `n` that no process refers to stays unreferenced. -/
lemma not_refers (h : Frames n s s') {a : ℕ} (ha : a < n) (hr : ¬ s.Refers a) :
    ¬ s'.Refers a := fun h' =>
  (h.refers a h').elim hr fun h'' => absurd ha (not_lt.mpr h''.1)

lemma trans (h₁ : Frames n s s') (h₂ : Frames n s' s'') : Frames n s s'' where
  keeps := h₁.keeps.trans (h₂.keeps.mono fun _ ⟨ha, hr⟩ => ⟨ha, h₁.not_refers ha hr⟩)
  refers a ha := (h₂.refers a ha).elim
    (fun h => (h₁.refers a h).imp_right fun h' => ⟨h'.1, lt_of_lt_of_le h'.2 h₂.nextFile_le⟩)
    Or.inr
  refInv h := h₂.refInv (h₁.refInv h)

lemma mono (h : Frames n s s') (hmn : m ≤ n) : Frames m s s' where
  keeps := h.keeps.mono fun _ ⟨ha, hr⟩ => ⟨lt_of_lt_of_le ha hmn, hr⟩
  refers a ha := (h.refers a ha).imp_right fun h' => ⟨le_trans hmn h'.1, h'.2⟩
  refInv := h.refInv

/-- A step of the file system alone. -/
lemma setFs {fs : FsState} (hk : s.fs.Keeps fs fun a => a < n ∧ ¬ s.Refers a)
    (hr : s.fs.RefInv [] → fs.RefInv []) : Frames n s (s.setFs fs) :=
  ⟨hk, fun _ h => Or.inl h, hr⟩

/-- A change of the processes alone, whose new references are to files from `n` on. -/
lemma of_procs (hfs : s'.fs = s.fs)
    (hr : ∀ a, s'.Refers a → s.Refers a ∨ (n ≤ a ∧ a < s.fs.nextFile)) : Frames n s s' where
  keeps := by
    rw [hfs]
    exact FsState.Keeps.refl _ _
  refers a ha := by
    rw [hfs]
    exact hr a ha
  refInv h := by
    rw [hfs]
    exact h

/-! ### Calls of the file system -/

variable (heapOk : ℕ → Bool)

lemma alloc {ok : Bool} {fs : FsState} (h : s.fs.alloc heapOk = (ok, fs)) :
    Frames n s (s.setFs fs) := by
  have hk := FsState.keeps_alloc heapOk (s := s.fs) (P := fun a => a < n ∧ ¬ s.Refers a)
  have hr := fun hi : s.fs.RefInv [] => hi.alloc heapOk
  rw [h] at hk hr
  exact setFs hk hr

lemma filesysOpen {name : List UInt8} {file : Option ℕ} {fs : FsState}
    (h : s.fs.filesysOpen heapOk name = (file, fs)) : Frames n s (s.setFs fs) := by
  have hk := FsState.keeps_filesysOpen heapOk name (s := s.fs)
    (P := fun a => a < n ∧ ¬ s.Refers a)
  have hr := fun hi : s.fs.RefInv [] => hi.filesysOpen heapOk name
  rw [h] at hk hr
  exact setFs hk hr

lemma fileReopen {a : ℕ} {file : Option ℕ} {fs : FsState}
    (h : s.fs.fileReopen heapOk a = (file, fs)) : Frames n s (s.setFs fs) := by
  have hk := FsState.keeps_fileReopen heapOk a (s := s.fs) (P := fun a => a < n ∧ ¬ s.Refers a)
  have hr := fun hi : s.fs.RefInv [] => hi.fileReopen heapOk a
  rw [h] at hk hr
  exact setFs hk hr

/-- `file_write` on a file a process refers to. -/
lemma fileWrite {a size k : ℕ} {fs : FsState} (ha : s.Refers a)
    (h : s.fs.fileWrite heapOk a size = (k, fs)) : Frames n s (s.setFs fs) := by
  have hk := (FsState.keeps_fileWrite heapOk a size (s := s.fs)).mono
    fun b (hb : b < n ∧ ¬ s.Refers b) hba => hb.2 (hba ▸ ha)
  have hr := fun hi : s.fs.RefInv [] => hi.fileWrite heapOk a size
  rw [h] at hk hr
  exact setFs hk hr

/-- `file_close` of a file a process refers to. -/
lemma fileClose {a : ℕ} (ha : s.Refers a) : Frames n s (s.setFs (s.fs.fileClose (some a))) :=
  setFs ((FsState.keeps_fileClose a).mono fun _ hb hba => hb.2 (hba ▸ ha))
    fun hi => hi.fileClose _

/-- `file_deny_write` of a file allocated from `n` on. -/
lemma fileDenyWrite {a : ℕ} (ha : n ≤ a) : Frames n s (s.setFs (s.fs.fileDenyWrite a)) :=
  setFs ((FsState.keeps_fileDenyWrite a).mono fun _ hb hba => absurd (hba ▸ hb.1) (not_lt.mpr ha))
    fun hi => hi.fileDenyWrite a

end Frames

/-! ### The calls of a process -/

namespace Frames

variable (heapOk : ℕ → Bool) {n : ℕ} {s : Sys}

/-- One `close` of `thread_exit`'s loop closes a file of the table, if any, and empties its
slot. -/
lemma closeStep_spec {p : Process} {acc : FsState × (ℕ → Option ℕ)}
    (hsub : ∀ fd c, acc.2 fd = some c → p.files fd = some c) (fd : ℕ) :
    (∀ fd' c, (closeStep acc fd).2 fd' = some c → p.files fd' = some c) ∧
      acc.1.Keeps (closeStep acc fd).1 (fun a => ¬ p.Refers a) ∧
      (acc.1.RefInv [] → (closeStep acc fd).1.RefInv []) := by
  unfold closeStep
  split
  · next fn file files hc =>
    obtain ⟨-, -, ⟨f, rfl, hf⟩, -⟩ := sysClose_file hc
    dsimp only
    refine ⟨fun fd' c h => hsub fd' c (sysClose_snd (by rw [hc]; exact h)), ?_,
      fun h => h.fileClose _⟩
    exact (FsState.keeps_fileClose f).mono fun _ ha hb => ha (hb ▸ Or.inl ⟨_, hsub _ _ hf⟩)
  · next r files _ hc =>
    exact ⟨fun fd' c h => hsub fd' c (sysClose_snd (by rw [hc]; exact h)),
      FsState.Keeps.refl _ _, id⟩

/-- `thread_exit`'s loop closes only files of the table. -/
lemma foldl_closeStep {p : Process} (l : List ℕ) {acc : FsState × (ℕ → Option ℕ)}
    (hsub : ∀ fd c, acc.2 fd = some c → p.files fd = some c) :
    acc.1.Keeps (l.foldl closeStep acc).1 (fun a => ¬ p.Refers a) ∧
      (acc.1.RefInv [] → (l.foldl closeStep acc).1.RefInv []) := by
  induction l generalizing acc with
  | nil => exact ⟨FsState.Keeps.refl _ _, id⟩
  | cons fd l ih =>
    obtain ⟨h₁, h₂, h₃⟩ := closeStep_spec hsub fd
    obtain ⟨i₂, i₃⟩ := ih h₁
    exact ⟨h₂.trans i₂, i₃ ∘ h₃⟩

/-- `thread_exit` closes only files of the process, which is gone afterwards. -/
lemma threadExit (t : Tid) : Frames n s (s.threadExit t) := by
  unfold Sys.threadExit
  cases hp : s.procs t with
  | none => exact refl n s
  | some p =>
    dsimp only
    obtain ⟨hk, hr⟩ := @foldl_closeStep p (List.range numFd) (s.fs, p.files) fun _ _ h => h
    set fs₁ := ((List.range numFd).foldl closeStep (s.fs, p.files)).1
    -- the executable is the last file closed
    have hclose : fs₁.Keeps (fs₁.fileClose p.file) (fun a => ¬ p.Refers a) := by
      cases hf : p.file with
      | none => exact FsState.Keeps.refl _ _
      | some f => exact (FsState.keeps_fileClose f).mono fun _ ha hb => ha (hb ▸ Or.inr (Or.inl hf))
    refine ⟨(hk.trans hclose).mono fun a ha h => ha.2 ⟨t, p, hp, h⟩, fun a ha => ?_,
      fun h => (hr h).fileClose _⟩
    rcases refers_update rfl ha with h | ⟨_, h, _⟩
    · exact Or.inl h
    · cases h

/-- `load` refers the new pages to the executable it opens. -/
lemma load (hn : n ≤ s.fs.nextFile) (t : Tid) (name : List UInt8)
    (image : Option (List (ℕ × SegPage))) : Frames n s (s.load heapOk t name image).2 := by
  unfold Sys.load
  rcases ha : s.fs.alloc heapOk with ⟨ok, fs₁⟩
  have h₁ : Frames n s (s.setFs fs₁) := alloc heapOk ha
  dsimp only
  split_ifs
  · rcases ho : fs₁.filesysOpen heapOk name with ⟨file, fs₂⟩
    have h₂ : Frames n s (s.setFs fs₂) := h₁.trans (filesysOpen heapOk (s := s.setFs fs₁) ho)
    dsimp only
    split
    · next h pages =>
      -- the file is new: it lies between the two ends of `filesys_open`
      obtain ⟨hh₁, hh₂, -⟩ := FsState.filesysOpen_eq_some heapOk (s := fs₁)
        (show (fs₁.filesysOpen heapOk name).1 = some h by rw [ho])
      rw [ho] at hh₂
      have hfs₁ : s.fs.nextFile ≤ fs₁.nextFile := h₁.nextFile_le
      set s₃ := (s.setFs fs₂).setProc t ((s.procs t).map fun p =>
        { p with spt := pages.foldl (fun spt vp => spt.insert vp.1 (vp.2.toSpecial h)) p.spt })
      have h₃ : Frames n (s.setFs fs₂) s₃ := of_procs rfl fun a ha => by
        rcases refers_update rfl ha with h' | ⟨p', hp', hr⟩
        · exact Or.inl h'
        · obtain ⟨p, hp, rfl⟩ := Option.map_eq_some_iff.mp hp'
          rcases Process.refers_setSpt (b := some h) (fun e he => mem_foldl_insert pages he) hr
            with h'' | h''
          · exact Or.inl ⟨t, p, hp, h''⟩
          · cases h''
            exact Or.inr ⟨by omega, hh₂⟩
      rcases ha₃ : s₃.fs.alloc heapOk with ⟨ok', fs₄⟩
      exact (h₂.trans h₃).trans (alloc heapOk ha₃)
    · exact h₂
  · exact h₁

/-- `process_execute`: the executable and the child are new, and a failed `load` is undone by
the child's `thread_exit`. -/
lemma processExecute (hn : n ≤ s.fs.nextFile) (cmdline : List UInt8)
    (image : Option (List (ℕ × SegPage))) :
    Frames n s (s.processExecute heapOk cmdline image).2 := by
  unfold Sys.processExecute
  rcases ho : s.fs.filesysOpen heapOk (execFileName cmdline) with ⟨file, fs₁⟩
  have h₁ : Frames n s (s.setFs fs₁) := filesysOpen heapOk ho
  cases file with
  | none => exact h₁
  | some f =>
    obtain ⟨hf₁, hf₂, -⟩ := FsState.filesysOpen_eq_some heapOk (s := s.fs)
      (show (s.fs.filesysOpen heapOk (execFileName cmdline)).1 = some f by rw [ho])
    rw [ho] at hf₂
    dsimp only
    have h₂ : Frames n (s.setFs fs₁) (s.setFs (fs₁.fileDenyWrite f)) :=
      fileDenyWrite (s := s.setFs fs₁) (le_trans hn hf₁)
    rcases ha₁ : (fs₁.fileDenyWrite f).alloc heapOk with ⟨ok, fs₂⟩
    have h₃ : Frames n (s.setFs fs₁) (s.setFs fs₂) :=
      h₂.trans (alloc heapOk (s := s.setFs (fs₁.fileDenyWrite f)) ha₁)
    rcases ha₂ : fs₂.alloc heapOk with ⟨ok', fs₃⟩
    have h₄ : Frames n (s.setFs fs₁) (s.setFs fs₃) :=
      h₃.trans (alloc heapOk (s := s.setFs fs₂) ha₂)
    dsimp only
    split_ifs
    · -- the child refers to the executable, allocated above `n`
      set s₅ : Sys := ⟨fs₃, Function.update s.procs s.nextTid (some (Process.child f)),
        s.nextTid + 1⟩
      have h₅ : Frames n (s.setFs fs₃) s₅ := of_procs rfl fun a ha => by
        rcases refers_update rfl ha with h' | ⟨p', hp', hr⟩
        · exact Or.inl h'
        · cases hp'
          cases Process.refers_child hr
          exact Or.inr ⟨le_trans hn hf₁, lt_of_lt_of_le hf₂ h₄.nextFile_le⟩
      have h₆ := load heapOk (le_trans hn (h₁.trans (h₄.trans h₅)).nextFile_le) s.nextTid
        (loadFileName cmdline) image
      rcases hl : s₅.load heapOk s.nextTid (loadFileName cmdline) image with ⟨_ | _, s₆⟩ <;>
        rw [hl] at h₆ <;> dsimp only
      · exact (h₁.trans (h₄.trans h₅)).trans (h₆.trans (threadExit s.nextTid))
      · exact (h₁.trans (h₄.trans h₅)).trans h₆
    · exact h₁.trans h₄
    · exact h₁.trans h₃

lemma exec (hn : n ≤ s.fs.nextFile) (cmdline : List UInt8) (image : Option (List (ℕ × SegPage))) :
    Frames n s (s.exec heapOk cmdline image).2 := by
  have h := processExecute heapOk hn cmdline image
  unfold Sys.exec
  split <;> rename_i heq <;> rw [heq] at h <;> exact h

/-- `open`: the descriptor gets the new file. -/
lemma openFile (hn : n ≤ s.fs.nextFile) {t : Tid} {p : Process} (hp : s.procs t = some p)
    (name : List UInt8) : Frames n s (s.openFile heapOk t p name).2 := by
  unfold Sys.openFile
  split
  · exact refl n s
  · rcases ho : s.fs.filesysOpen heapOk name with ⟨opened, fs₁⟩
    have h₁ : Frames n s (s.setFs fs₁) := filesysOpen heapOk ho
    dsimp only
    rcases hs : sysOpen p.files opened with ⟨r, files⟩
    dsimp only
    refine h₁.trans (of_procs rfl fun a ha => ?_)
    rcases refers_update rfl ha with h' | ⟨p', hp', hr⟩
    · exact Or.inl h'
    · cases hp'
      rcases Process.refers_setFiles (b := opened)
        (fun fd c hc => sysOpen_snd (by rw [hs]; exact hc)) hr with h'' | h''
      · exact Or.inl ⟨t, p, hp, h''⟩
      · obtain ⟨ha₁, ha₂, -⟩ := FsState.filesysOpen_eq_some heapOk (s := s.fs)
          (show (s.fs.filesysOpen heapOk name).1 = some a by rw [ho]; exact h'')
        rw [ho] at ha₂
        exact Or.inr ⟨le_trans hn ha₁, ha₂⟩

/-- `write`: only the descriptor's file is written. -/
lemma write {t : Tid} {p : Process} (hp : s.procs t = some p) (mem : UserMem) (fd : ℤ)
    (buffer size : ℕ) : Frames n s (s.write heapOk t p mem fd buffer size).2 := by
  unfold Sys.write
  split
  · exact threadExit t
  · exact refl n s
  · next a hw =>
    obtain ⟨-, f, hf, hfd⟩ := sysWrite_file hw
    cases hf
    rcases hfw : s.fs.fileWrite heapOk a size with ⟨k, fs₁⟩
    exact fileWrite heapOk ⟨t, p, hp, Or.inl ⟨_, hfd⟩⟩ hfw
  · exact refl n s

/-- `close`: only the descriptor's file is closed, and its slot emptied. -/
lemma close {t : Tid} {p : Process} (hp : s.procs t = some p) (fd : ℤ) :
    Frames n s (s.close t p fd) := by
  unfold Sys.close
  split
  · exact threadExit t
  · next fn file files hc =>
    obtain ⟨-, -, ⟨f, rfl, hf⟩, -⟩ := sysClose_file hc
    refine (fileClose ⟨t, p, hp, Or.inl ⟨_, hf⟩⟩).trans (of_procs rfl fun a ha => ?_)
    rcases refers_update rfl ha with h' | ⟨p', hp', hr⟩
    · exact Or.inl h'
    · cases hp'
      rcases Process.refers_setFiles (b := none)
        (fun fd c h => Or.inl (sysClose_snd (by rw [hc]; exact h))) hr with h'' | h''
      · exact Or.inl ⟨t, p, hp, h''⟩
      · cases h''
  · next r files _ hc =>
    refine of_procs rfl fun a ha => ?_
    rcases refers_update rfl ha with h' | ⟨p', hp', hr⟩
    · exact Or.inl h'
    · cases hp'
      rcases Process.refers_setFiles (b := none)
        (fun fd c h => Or.inl (sysClose_snd (by rw [hc]; exact h))) hr with h'' | h''
      · exact Or.inl ⟨t, p, hp, h''⟩
      · cases h''

/-- `mmap`: the new entries refer to the file `file_reopen` allocated. -/
lemma mmap (hn : n ≤ s.fs.nextFile) {t : Tid} {p : Process} (hp : s.procs t = some p) (fd : ℤ)
    (addr : ℕ) : Frames n s (s.mmap heapOk t p fd addr).2 := by
  unfold Sys.mmap
  split
  · exact threadExit t
  · next a hm =>
    rcases hr : s.fs.fileReopen heapOk a with ⟨file, fs₁⟩
    have h₁ : Frames n s (s.setFs fs₁) := fileReopen heapOk hr
    cases file with
    | none => exact h₁
    | some b =>
      obtain ⟨hb₁, hb₂, -⟩ := FsState.fileReopen_eq_some heapOk (s := s.fs)
        (show (s.fs.fileReopen heapOk a).1 = some b by rw [hr])
      rw [hr] at hb₂
      dsimp only
      split_ifs
      · exact h₁
      · -- the loop adds `FILE` entries of the new file
        have hspt : ∀ e ∈ (mmapLoop b p.spt addr 0 (fs₁.fileLength b)).entries,
            e ∈ p.spt.entries ∨ e.2.fileRef = none ∨ e.2.fileRef = some b := fun e he => by
          rcases mem_mmapLoop he with h'' | ⟨o, z, h''⟩
          · exact Or.inl h''
          · exact Or.inr (Or.inr (by rw [h'']; rfl))
        refine h₁.trans (of_procs rfl fun c hc => ?_)
        rcases refers_update rfl hc with h' | ⟨p', hp', hr'⟩
        · exact Or.inl h'
        · cases hp'
          rcases Process.refers_setSpt hspt hr' with h'' | h''
          · exact Or.inl ⟨t, p, hp, h''⟩
          · cases h''
            exact Or.inr ⟨le_trans hn hb₁, hb₂⟩
  · exact refl n s

/-- `munmap`: the file of the mapping is closed and its entries deleted. -/
lemma munmap {t : Tid} {p : Process} (hp : s.procs t = some p) (mapping : ℕ) :
    Frames n s (s.munmap t p mapping) := by
  unfold Sys.munmap
  split_ifs
  · exact refl n s
  · split
    · next src ofs z hfind =>
      dsimp only
      split_ifs
      · exact refl n s
      · refine (fileClose ⟨t, p, hp, Or.inr (Or.inr ⟨_, Spt.mem_of_find hfind, rfl⟩)⟩).trans
          (of_procs rfl fun a ha => ?_)
        rcases refers_update rfl ha with h' | ⟨p', hp', hr⟩
        · exact Or.inl h'
        · cases hp'
          rcases Process.refers_setSpt (b := none)
            (fun e he => Or.inl (mem_foldl_delete _ _ he)) hr with h'' | h''
          · exact Or.inl ⟨t, p, hp, h''⟩
          · cases h''
    · exact refl n s

/-- A system call of any thread. -/
lemma step (hn : n ≤ s.fs.nextFile) (t : Tid) (c : Syscall) : Frames n s (s.step heapOk t c) := by
  unfold Sys.step
  cases hp : s.procs t with
  | none => exact refl n s
  | some p =>
    dsimp only
    cases c with
    | exec cmdline image => exact exec heapOk hn cmdline image
    | openFile name => exact openFile heapOk hn hp name
    | write mem fd buffer size => exact write heapOk hp mem fd buffer size
    | close fd => exact close hp fd
    | mmap fd addr => exact mmap heapOk hn hp fd addr
    | munmap mapping => exact munmap hp mapping
    | exit => exact threadExit t

/-- Every run of system calls, by induction on the calls. -/
lemma run (hn : n ≤ s.fs.nextFile) (calls : List (Tid × Syscall)) :
    Frames n s (s.run heapOk calls) := by
  induction calls generalizing s with
  | nil => exact refl n s
  | cons call calls ih =>
    obtain ⟨t, c⟩ := call
    have h := step heapOk hn t c
    exact h.trans (ih (le_trans hn h.nextFile_le))

end Frames

/-- Between calls: the reference invariant of the file system with no reference held outside a
file, and processes that refer only to allocated files. -/
structure Inv (s : Sys) : Prop where
  refInv : s.fs.RefInv []
  refers_lt : ∀ a, s.Refers a → a < s.fs.nextFile

variable (heapOk : ℕ → Bool) {s s' : Sys}

lemma Inv.of_frames (h : s.Inv) (hf : Frames s.fs.nextFile s s') : s'.Inv where
  refInv := hf.refInv h.refInv
  refers_lt a ha := (hf.refers a ha).elim
    (fun h' => lt_of_lt_of_le (h.refers_lt a h') hf.nextFile_le) fun h' => h'.2

/-- A system with no file, no open inode and no process holding a file has the invariant. -/
lemma Inv.of_closed (hfiles : ∀ a, s.fs.files a = none)
    (hinodes : ∀ sector, s.fs.inodes sector = none) (hr : ∀ a, ¬ s.Refers a) : s.Inv where
  refInv :=
    { fresh := fun a _ => hfiles a
      openCnt_eq := fun sector => by
        simp [FsState.openCnt, FsState.openers, FsState.fileCount, hinodes, hfiles]
      openCnt_pos := fun sector i h => by simp [hinodes] at h
      denyWriteCnt_eq := fun sector i h => by simp [hinodes] at h }
  refers_lt a ha := (hr a ha).elim

/-- Every run keeps the invariant. -/
theorem Inv.run (h : s.Inv) (calls : List (Tid × Syscall)) : (s.run heapOk calls).Inv :=
  h.of_frames (Frames.run heapOk le_rfl calls)

/-- A file no process refers to stays as it is, and unreferenced, for every run. -/
theorem files_run_of_not_refers {a : ℕ} (ha : a < s.fs.nextFile) (hr : ¬ s.Refers a)
    (calls : List (Tid × Syscall)) :
    (s.run heapOk calls).fs.files a = s.fs.files a ∧ ¬ (s.run heapOk calls).Refers a :=
  have h := Frames.run heapOk (le_refl s.fs.nextFile) calls
  ⟨h.keeps.files_eq a ha ⟨ha, hr⟩, h.not_refers ha hr⟩

end Sys

end TinyOs
