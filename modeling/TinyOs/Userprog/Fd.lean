import TinyOs.Userprog.SyscallArgs

/-!
The descriptor system calls of `userprog/syscall.c` against a thread's table
`files[NUM_FD]`. Each call looks its descriptor up with `get_file`, which exits on a descriptor
outside `[0, NUM_FD)` and otherwise returns the slot, NULL for a descriptor that is not open.
`write`, `close` and `mmap` test the slot for NULL; `read`, `seek`, `tell` and `filesize` hand
it to the file system as it is.

* `getFile`, `fileCall`: the lookup, and the calls that pass its result on unchecked;
* `fileCall_slot`, `sysWrite_file`, `sysClose_file`, `sysMmap_file`: which file each call
  hands to the file system, and that the checked calls never hand over NULL;
* `sysOpen_spec`: `open` returns the lowest free descriptor in `[2, NUM_FD)` or `-1`, and
  stores a file only on success;
* `unopened_fd_reaches_file_system`: `read`, `seek`, `tell` and `filesize` on descriptor 5 of
  a table with nothing open pass NULL to `file_read`, `file_seek`, `file_tell` and
  `file_length`.
-/

namespace TinyOs

/-- The `file_*` functions the descriptor calls hand a `struct file *` to. -/
inductive FileFn where
  | fileRead | fileWrite | fileSeek | fileTell | fileLength | fileClose | fileReopen
  deriving DecidableEq, Repr

/-- How a descriptor call ends: `exit (-1)`; a return of `v`, or of nothing, without handing a
file to the file system; or a call of a `file_*` function on a slot of the table, `none` being
a NULL `struct file *`. -/
inductive FdResult (α : Type) where
  | exit
  | ret (v : ℤ)
  | done
  | call (fn : FileFn) (file : Option α)
  deriving DecidableEq, Repr

section

variable {α : Type} (files : ℕ → Option α)

/-- `get_file`: `exit (-1)` (`none`) for a descriptor outside `[0, NUM_FD)`, otherwise the
slot `files[fd]`. -/
def getFile (fd : ℤ) : Option (Option α) :=
  if fd < 0 ∨ numFd ≤ fd then none else some (files fd.toNat)

/-- `get_file` followed by a `file_*` call on whatever it returned. -/
def fileCall (fn : FileFn) (fd : ℤ) : FdResult α :=
  match getFile files fd with
  | none => .exit
  | some file => .call fn file

/-- `read (fd, buffer, size)` up to `file_read`. -/
def sysRead (fd : ℤ) (buffer : ℕ) : FdResult α :=
  if buffer = 0 then .ret (-1)
  else if fd = 1 then .ret (-1)
  else if fd = 0 then .ret (-1)
  else fileCall files .fileRead fd

/-- `write (fd, buffer, size)` up to `file_write`: `validate_read` of the buffer, the console
for descriptor 1, and `-1` for a NULL slot. -/
def sysWrite (mem : UserMem) (fd : ℤ) (buffer size : ℕ) : FdResult α :=
  if (validateRead mem buffer size).2 = false then .exit
  else if fd = 1 then .ret size
  else
    match getFile files fd with
    | none => .exit
    | some none => .ret (-1)
    | some (some f) => .call .fileWrite (some f)

/-- `seek (fd, position)`. -/
def sysSeek (fd : ℤ) : FdResult α := fileCall files .fileSeek fd

/-- `tell (fd)`. -/
def sysTell (fd : ℤ) : FdResult α := fileCall files .fileTell fd

/-- `filesize (fd)`. -/
def sysFilesize (fd : ℤ) : FdResult α := fileCall files .fileLength fd

/-- `close (fd)`: nothing for descriptors 0 and 1 and for a NULL slot; otherwise `file_close`
and the slot becomes NULL. -/
def sysClose (fd : ℤ) : FdResult α × (ℕ → Option α) :=
  match getFile files fd with
  | none => (.exit, files)
  | some file =>
      if fd < 2 then (.done, files)
      else
        match file with
        | none => (.done, files)
        | some f => (.call .fileClose (some f), Function.update files fd.toNat none)

/-- `mmap (fd, addr)` up to `file_reopen`: `-1` for a NULL slot, for an address below `PGSIZE`,
not page-aligned, or at or above `STACK_BOTTOM`. -/
def sysMmap (fd : ℤ) (addr : ℕ) : FdResult α :=
  match getFile files fd with
  | none => .exit
  | some file =>
      if file.isNone || decide (addr < pgSize) || decide (addr % pgSize ≠ 0) ||
          decide (stackBottom ≤ addr) then .ret (-1)
      else .call .fileReopen file

/-- `open` after `validate_string`: the first NULL slot in `[2, NUM_FD)`, `-1` when there is
none. `filesys_open`'s result `opened` is stored in the slot, and `-1` returned when it is
NULL. -/
def sysOpen (opened : Option α) : ℤ × (ℕ → Option α) :=
  match (List.range' 2 (numFd - 2)).find? (fun fd => (files fd).isNone) with
  | none => (-1, files)
  | some fd =>
      let files := Function.update files fd opened
      if opened.isNone then (-1, files) else (fd, files)

/-! ### Which file each call hands over -/

variable {files}

lemma getFile_eq_some {fd : ℤ} {file : Option α} (h : getFile files fd = some file) :
    0 ≤ fd ∧ fd < numFd ∧ file = files fd.toNat := by
  unfold getFile at h
  split_ifs at h with hr
  rw [Option.some.injEq] at h
  simp only [not_or, not_lt, not_le] at hr
  exact ⟨hr.1, hr.2, h.symm⟩

lemma getFile_eq_none {fd : ℤ} : getFile files fd = none ↔ fd < 0 ∨ numFd ≤ fd := by
  unfold getFile
  split_ifs with hr <;> simp [hr]

/-- `seek`, `tell`, `filesize` and the tail of `read` exit for a descriptor outside
`[0, NUM_FD)` and otherwise hand `files[fd]` to the file system, NULL or not. -/
theorem fileCall_slot {fn : FileFn} {fd : ℤ} :
    (fileCall files fn fd = .exit ↔ fd < 0 ∨ numFd ≤ fd) ∧
      ∀ {fn' : FileFn} {file : Option α}, fileCall files fn fd = .call fn' file →
        fn' = fn ∧ 0 ≤ fd ∧ fd < numFd ∧ file = files fd.toNat := by
  unfold fileCall
  constructor
  · rw [← getFile_eq_none]
    cases getFile files fd <;> simp
  · intro fn' file h
    cases hg : getFile files fd with
    | none => simp [hg] at h
    | some file' =>
        simp only [hg, FdResult.call.injEq] at h
        obtain ⟨rfl, rfl⟩ := h
        exact ⟨rfl, getFile_eq_some hg⟩

/-- `write` hands the file system only a non-NULL `files[fd]`. -/
theorem sysWrite_file {mem : UserMem} {fd : ℤ} {buffer size : ℕ} {fn : FileFn}
    {file : Option α} (h : sysWrite files mem fd buffer size = .call fn file) :
    fn = .fileWrite ∧ ∃ f, file = some f ∧ files fd.toNat = some f := by
  unfold sysWrite at h
  split_ifs at h
  split at h
  · cases h
  · cases h
  · rename_i f hg
    simp only [FdResult.call.injEq] at h
    obtain ⟨rfl, rfl⟩ := h
    exact ⟨rfl, f, rfl, (getFile_eq_some hg).2.2.symm⟩

/-- `close` hands the file system only a non-NULL `files[fd]` with `fd ≥ 2`, and empties its
slot. -/
theorem sysClose_file {fd : ℤ} {fn : FileFn} {file : Option α} {files' : ℕ → Option α}
    (h : sysClose files fd = (.call fn file, files')) :
    fn = .fileClose ∧ 2 ≤ fd ∧ (∃ f, file = some f ∧ files fd.toNat = some f) ∧
      files' = Function.update files fd.toNat none := by
  unfold sysClose at h
  split at h
  · simp at h
  · rename_i file' hg
    split_ifs at h with hfd
    · simp at h
    split at h
    · simp at h
    · rename_i f
      simp only [Prod.mk.injEq, FdResult.call.injEq] at h
      obtain ⟨⟨rfl, rfl⟩, rfl⟩ := h
      exact ⟨rfl, by omega, ⟨f, rfl, (getFile_eq_some hg).2.2.symm⟩, rfl⟩

/-- `mmap` hands the file system only a non-NULL `files[fd]`, for a page-aligned address in
`[PGSIZE, STACK_BOTTOM)`. -/
theorem sysMmap_file {fd : ℤ} {addr : ℕ} {fn : FileFn} {file : Option α}
    (h : sysMmap files fd addr = .call fn file) :
    fn = .fileReopen ∧ (∃ f, file = some f ∧ files fd.toNat = some f) ∧
      pgSize ≤ addr ∧ addr % pgSize = 0 ∧ addr < stackBottom := by
  unfold sysMmap at h
  split at h
  · cases h
  · rename_i file' hg
    split_ifs at h with hc
    simp only [FdResult.call.injEq] at h
    obtain ⟨rfl, rfl⟩ := h
    simp only [Bool.or_eq_true, decide_eq_true_eq, not_or, not_lt, not_le,
      Option.isNone_iff_eq_none, not_not] at hc
    obtain ⟨⟨⟨hn, hlo⟩, hal⟩, hhi⟩ := hc
    obtain ⟨f, hf⟩ := Option.ne_none_iff_exists'.mp hn
    exact ⟨rfl, ⟨f, hf, by rw [← (getFile_eq_some hg).2.2, hf]⟩, hlo, hal, hhi⟩

/-! ### `open` -/

/-- `open` returns the lowest descriptor in `[2, NUM_FD)` whose slot is NULL and stores the
opened file there; or it returns `-1` with the table as it was, because `filesys_open` failed
(the NULL it stores leaves the slot NULL) or because every such slot is taken. -/
theorem sysOpen_spec (opened : Option α) :
    (∃ fd : ℕ, 2 ≤ fd ∧ fd < numFd ∧ files fd = none ∧
        (∀ fd', 2 ≤ fd' → fd' < fd → (files fd').isSome) ∧ opened.isSome ∧
        sysOpen files opened = ((fd : ℤ), Function.update files fd opened)) ∨
      (sysOpen files opened = (-1, files) ∧
        (opened = none ∨ ∀ fd, 2 ≤ fd → fd < numFd → (files fd).isSome)) := by
  unfold sysOpen
  cases hf : (List.range' 2 (numFd - 2)).find? (fun fd => (files fd).isNone) with
  | none =>
      -- every slot in `[2, NUM_FD)` is taken
      refine .inr ⟨rfl, .inr fun fd h2 hlt => ?_⟩
      have hfd := List.find?_range'_eq_none.mp hf fd h2 (by unfold numFd at hlt ⊢; omega)
      simpa using hfd
  | some fd =>
      obtain ⟨hfree, hmem, hlow⟩ := List.find?_range'_eq_some.mp hf
      rw [List.mem_range'_1] at hmem
      have hnone : files fd = none := by simpa using hfree
      cases opened with
      | none =>
          -- the NULL from `filesys_open` lands in a NULL slot
          refine .inr ⟨?_, .inl rfl⟩
          simp [Function.update_eq_self_iff, hnone]
      | some f =>
          refine .inl ⟨fd, hmem.1, by unfold numFd at hmem ⊢; omega, hnone,
            fun fd' h2 hlt => ?_, rfl, rfl⟩
          simpa using hlow fd' h2 hlt

end

/-! ### Descriptors that are not open -/

/-- On a table with nothing open, `read`, `seek`, `tell` and `filesize` of descriptor 5 hand a
NULL `struct file *` to `file_read`, `file_seek`, `file_tell` and `file_length`. -/
theorem unopened_fd_reaches_file_system :
    sysRead (fun _ => none : ℕ → Option ℕ) 5 0x0804C000 = .call .fileRead none ∧
      sysSeek (fun _ => none : ℕ → Option ℕ) 5 = .call .fileSeek none ∧
      sysTell (fun _ => none : ℕ → Option ℕ) 5 = .call .fileTell none ∧
      sysFilesize (fun _ => none : ℕ → Option ℕ) 5 = .call .fileLength none := by
  decide

end TinyOs
