import TinyOs.Filesys.FileHeap
import TinyOs.Userprog.Fd
import TinyOs.Vm.State

/-!
Processes and the file system together: `process_execute` and `load` (`userprog/process.c`),
`thread_exit`'s release of a process's files (`threads/thread.c`), and the system calls that
open, close, write and map files (`userprog/syscall.c`). A process is what these calls read of
its `struct thread`: the descriptor table `files`, the executable `file` whose writes it denies,
and the supplemental page table, whose `EXEC` and `FILE` entries name a `struct file`.

* `Sys`, `Syscall`, `Sys.step`, `Sys.run`: the calls of the processes, in any order;
* `Sys.processExecute`: the parent opens the executable, denies writes to it, allocates the
  copy of the command line and the child's thread; the child runs `load` while the parent waits
  on `child_sema`, and exits at once when it fails. The calls of other threads cannot come in
  between, which is where the model keeps `process_execute` and `load` one step;
* `Sys.threadExit`: `close (i)` for every descriptor and `file_close (t->file)`;
  `destroy_supplemental_pagetable` frees the entries and closes nothing;
* `Sys.mmap`, `Sys.munmap`: the mapping reopens the file and adds one `FILE` entry a page.

What `load` reads of the executable (its ELF headers and segments) is file data, which the model
does not keep: an `exec` names the pages `load_segment` adds, or `none` when `load` rejects the
file. The writes `expire_page` makes of dirty `FILE` pages change only file data.
-/

namespace TinyOs

/-- A page of a `PT_LOAD` segment as `load_segment` adds it: an `EXEC` page of the executable,
read from `offset` up to `zeroAfter`, or a `ZERO` page. -/
inductive SegPage where
  | exec (offset zeroAfter : ℕ) (writable : Bool)
  | zero
  deriving DecidableEq, Repr

/-- `new_exec_page` and `new_zero_page`, for the executable opened as the file at `file`. -/
def SegPage.toSpecial (file : ℕ) : SegPage → SpecialPage
  | .exec offset zeroAfter writable => .exec file offset zeroAfter writable
  | .zero => .zero

/-- The `struct file` an entry of a supplemental page table points at, through the entry an
evicted page keeps. -/
def SpecialPage.fileRef : SpecialPage → Option ℕ
  | .exec elfFile _ _ _ => some elfFile
  | .file sourceFile _ _ => some sourceFile
  | .swap _ _ (some e) => e.fileRef
  | .swap _ _ none => none
  | .zero => none

@[simp] lemma SegPage.fileRef_toSpecial (file : ℕ) (g : SegPage) :
    (g.toSpecial file).fileRef = match g with
      | .exec .. => some file
      | .zero => none := by
  cases g <;> rfl

/-- What the file calls read of a process's `struct thread`. -/
structure Process where
  /-- `files[NUM_FD]`: the address of the `struct file` of each descriptor. -/
  files : ℕ → Option ℕ
  /-- `file`: the executable, whose writes the process denies. -/
  file : Option ℕ
  /-- `sup_pagetable`. -/
  spt : Spt

/-- The process a successful `process_execute` starts: no descriptors, the executable, and an
empty supplemental page table. -/
def Process.child (file : ℕ) : Process := ⟨fun _ => none, some file, Spt.empty⟩

/-- The file system, and the processes by thread. -/
structure Sys where
  fs : FsState
  procs : Tid → Option Process
  /-- The tid `allocate_tid` gives next. -/
  nextTid : Tid

/-- `file_name` of `process_execute`: the command line up to its first space or NUL, at most
16 bytes. -/
def execFileName (cmdline : List UInt8) : List UInt8 :=
  (cmdline.takeWhile fun c => c ≠ 32 ∧ c ≠ 0).take 16

/-- `argv[0]` of `execute_thread`, which `load` opens: the first token `strtok_r` finds in the
copy `strlcpy` made of the command line, at most `PGSIZE - 1` bytes. A line with no token gives
the empty name, which no file has. -/
def loadFileName (cmdline : List UInt8) : List UInt8 :=
  (((cmdline.takeWhile (· ≠ 0)).take (pgSize - 1)).dropWhile (· = 32)).takeWhile (· ≠ 32)

/-- The lowest descriptor in `[2, NUM_FD)` whose slot is NULL, as `open` looks for it. -/
def freeFd (files : ℕ → Option ℕ) : Option ℕ :=
  (List.range' 2 (numFd - 2)).find? fun fd => (files fd).isNone

/-- `(int) addr`: the address read as a signed 32-bit value. -/
def int32Of (a : ℕ) : ℤ := if a < 2 ^ 31 then a else (a : ℤ) - 2 ^ 32

/-- The number of pages `validate_free_page` and `munmap` count for `readBytes` bytes. -/
def pageCount (readBytes : ℕ) : ℕ := readBytes / pgSize + if readBytes % pgSize ≠ 0 then 1 else 0

/-- `validate_free_page (upage, read_bytes)`: none of the pages from `upage` on that
`read_bytes` bytes cover has an entry in the supplemental page table. -/
def validateFreePage (spt : Spt) (upage readBytes : ℕ) : Bool :=
  (List.range (pageCount readBytes)).all fun i => (spt.find (wrap32 (upage + i * pgSize))).isNone

/-- The loop of `mmap`: a `FILE` entry for each page, reading `min (read_bytes, PGSIZE)` bytes
of the file from `ofs`. -/
def mmapLoop (file : ℕ) (spt : Spt) (addr ofs readBytes : ℕ) : Spt :=
  if readBytes = 0 then spt
  else
    let pageReadBytes := min readBytes pgSize
    mmapLoop file (spt.insert addr (.file file ofs pageReadBytes)) (wrap32 (addr + pgSize))
      (ofs + pgSize) (readBytes - pageReadBytes)
termination_by readBytes
decreasing_by
  have : 0 < pgSize := by decide
  omega

/-- One `close (fd)` of `thread_exit`'s loop, on the file system and the table. -/
def closeStep (acc : FsState × (ℕ → Option ℕ)) (fd : ℕ) : FsState × (ℕ → Option ℕ) :=
  match sysClose acc.2 fd with
  | (.call _ file, files) => (acc.1.fileClose file, files)
  | (_, files) => (acc.1, files)

/-- The system calls of a process, with what the model needs of their arguments. -/
inductive Syscall where
  | exec (cmdline : List UInt8) (image : Option (List (ℕ × SegPage)))
  | openFile (name : List UInt8)
  | write (mem : UserMem) (fd : ℤ) (buffer size : ℕ)
  | close (fd : ℤ)
  | mmap (fd : ℤ) (addr : ℕ)
  | munmap (mapping : ℕ)
  | exit

namespace Sys

variable (heapOk : ℕ → Bool)

/-- Replace the file system. -/
def setFs (s : Sys) (fs : FsState) : Sys := { s with fs := fs }

/-- Replace the record of thread `t`. -/
def setProc (s : Sys) (t : Tid) (p : Option Process) : Sys :=
  { s with procs := Function.update s.procs t p }

@[simp] lemma setFs_fs (s : Sys) (fs : FsState) : (s.setFs fs).fs = fs := rfl
@[simp] lemma setFs_procs (s : Sys) (fs : FsState) : (s.setFs fs).procs = s.procs := rfl
@[simp] lemma setProc_fs (s : Sys) (t : Tid) (p : Option Process) :
    (s.setProc t p).fs = s.fs := rfl
@[simp] lemma setProc_procs (s : Sys) (t : Tid) (p : Option Process) :
    (s.setProc t p).procs = Function.update s.procs t p := rfl

/-- `thread_exit` of thread `t`: `close (i)` for `i` from `0` to `NUM_FD - 1`, then
`file_close (t->file)`; the supplemental page table is destroyed and the process is gone. -/
def threadExit (s : Sys) (t : Tid) : Sys :=
  match s.procs t with
  | none => s
  | some p =>
    let fs := ((List.range numFd).foldl closeStep (s.fs, p.files)).1
    (s.setFs (fs.fileClose p.file)).setProc t none

/-- `load` in thread `t`: `pagedir_create`, `filesys_open` of the executable, which is never
closed, the pages of its segments, and `setup_stack`'s frame. -/
def load (s : Sys) (t : Tid) (fileName : List UInt8) (image : Option (List (ℕ × SegPage))) :
    Bool × Sys :=
  let (ok, fs) := s.fs.alloc heapOk
  if ok then
    let (file, fs) := fs.filesysOpen heapOk fileName
    match file, image with
    | some h, some pages =>
      let spt (p : Process) : Spt :=
        pages.foldl (fun spt vp => spt.insert vp.1 (vp.2.toSpecial h)) p.spt
      let s := (s.setFs fs).setProc t ((s.procs t).map fun p => { p with spt := spt p })
      let (ok, fs) := s.fs.alloc heapOk
      (ok, s.setFs fs)
    | _, _ => (false, s.setFs fs)
  else (false, s.setFs fs)

/-- `process_execute (cmdline)`: the tid of the child, or `none` for `TID_ERROR`. The file is
opened and its writes denied first; when the copy of the command line or the child's thread
cannot be allocated, `TID_ERROR` is returned with the file still open and denying writes. -/
def processExecute (s : Sys) (cmdline : List UInt8) (image : Option (List (ℕ × SegPage))) :
    Option Tid × Sys :=
  let (file, fs) := s.fs.filesysOpen heapOk (execFileName cmdline)
  match file with
  | none => (none, s.setFs fs)
  | some f =>
    -- `palloc_get_page` of `cmdline_copy`
    let (ok, fs) := (fs.fileDenyWrite f).alloc heapOk
    if ok then
      -- `mk_thread`'s `palloc_get_page`
      let (ok, fs) := fs.alloc heapOk
      if ok then
        let t := s.nextTid
        let s : Sys := ⟨fs, Function.update s.procs t (some (Process.child f)), t + 1⟩
        match s.load heapOk t (loadFileName cmdline) image with
        | (true, s) => (some t, s)
        | (false, s) => (none, s.threadExit t)
      else (none, s.setFs fs)
    else (none, s.setFs fs)

/-- `exec (cmd_line)`. -/
def exec (s : Sys) (cmdline : List UInt8) (image : Option (List (ℕ × SegPage))) : ℤ × Sys :=
  match s.processExecute heapOk cmdline image with
  | (some t, s) => (t, s)
  | (none, s) => (-1, s)

/-- `open (file)` by thread `t`: the lowest free descriptor, and `filesys_open` only when there
is one. -/
def openFile (s : Sys) (t : Tid) (p : Process) (name : List UInt8) : ℤ × Sys :=
  match freeFd p.files with
  | none => (-1, s)
  | some _ =>
    let (opened, fs) := s.fs.filesysOpen heapOk name
    let (r, files) := sysOpen p.files opened
    (r, (s.setFs fs).setProc t (some { p with files := files }))

/-- `write (fd, buffer, size)` by thread `t`: `none` when the process is killed. -/
def write (s : Sys) (t : Tid) (p : Process) (mem : UserMem) (fd : ℤ) (buffer size : ℕ) :
    Option ℤ × Sys :=
  match sysWrite p.files mem fd buffer size with
  | .exit => (none, s.threadExit t)
  | .ret v => (some v, s)
  | .call _ (some a) =>
    let (n, fs) := s.fs.fileWrite heapOk a size
    (some n, s.setFs fs)
  | _ => (some (-1), s)

/-- `close (fd)` by thread `t`. -/
def close (s : Sys) (t : Tid) (p : Process) (fd : ℤ) : Sys :=
  match sysClose p.files fd with
  | (.exit, _) => s.threadExit t
  | (.call _ file, files) => (s.setFs (s.fs.fileClose file)).setProc t (some { p with files })
  | (_, files) => s.setProc t (some { p with files })

/-- `mmap (fd, addr)` by thread `t`: `none` when the process is killed. The file is reopened
before the length and the pages are checked, and a failed check returns `-1` with the new file
open. `file_length` of a NULL reopened file trips its `ASSERT`; the model returns `-1` there. -/
def mmap (s : Sys) (t : Tid) (p : Process) (fd : ℤ) (addr : ℕ) : Option ℤ × Sys :=
  match sysMmap p.files fd addr with
  | .exit => (none, s.threadExit t)
  | .call _ (some a) =>
    match s.fs.fileReopen heapOk a with
    | (some file, fs) =>
      let readBytes := fs.fileLength file
      if readBytes = 0 ∨ validateFreePage p.spt addr readBytes = false then
        (some (-1), s.setFs fs)
      else
        (some (int32Of addr), (s.setFs fs).setProc t
          (some { p with spt := mmapLoop file p.spt addr 0 readBytes }))
    | (none, fs) => (some (-1), s.setFs fs)
  | _ => (some (-1), s)

/-- `munmap (mapping)` by thread `t`: the entries of the pages the file covers are expired and
the file closed, when `mapping` is the first page of a `FILE` entry. -/
def munmap (s : Sys) (t : Tid) (p : Process) (mapping : ℕ) : Sys :=
  if mapping % pgSize ≠ 0 then s
  else
    match p.spt.find mapping with
    | some (.file src _ _) =>
      let readBytes := s.fs.fileLength src
      if readBytes = 0 then s
      else
        let spt := (List.range (pageCount readBytes)).foldl
          (fun spt i => spt.delete (wrap32 (mapping + i * pgSize))) p.spt
        (s.setFs (s.fs.fileClose (some src))).setProc t (some { p with spt })
    | _ => s

/-- A system call of thread `t`; a thread with no process makes none. -/
def step (s : Sys) (t : Tid) (c : Syscall) : Sys :=
  match s.procs t with
  | none => s
  | some p =>
    match c with
    | .exec cmdline image => (s.exec heapOk cmdline image).2
    | .openFile name => (s.openFile heapOk t p name).2
    | .write mem fd buffer size => (s.write heapOk t p mem fd buffer size).2
    | .close fd => s.close t p fd
    | .mmap fd addr => (s.mmap heapOk t p fd addr).2
    | .munmap mapping => s.munmap t p mapping
    | .exit => s.threadExit t

/-- The calls of a run, in order. -/
def run (s : Sys) : List (Tid × Syscall) → Sys
  | [] => s
  | (t, c) :: calls => (s.step heapOk t c).run calls

end Sys

end TinyOs
