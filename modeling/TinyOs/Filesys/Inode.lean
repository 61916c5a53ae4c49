import TinyOs.Basic
import TinyOs.Kernel.Bitmap

/-!
The open-file layer of the file system: `filesys/inode.c`, `filesys/file.c` and
`filesys/free-map.c`, over one state.

* `open_inodes` holds one `struct inode` per sector, so an inode is named by its sector and the
  list is a map from sectors (`FsState.inodes`);
* a `struct file` is a heap cell, named by its address (`FsState.files`); `calloc` hands out the
  address `nextFile`, above every cell in use;
* the disk is read two ways: a sector as a `struct inode_disk` (`disk`), and the data of an inode
  as `struct dir_entry` records, slot by slot (`dirs`); file data is not otherwise modelled;
* every allocation whose failure the code tests (`malloc`, `calloc`, `palloc_get_page`, the
  bounce buffer of `inode_read_at` and `inode_write_at`, the write-back of the free map) draws
  its outcome from an oracle `heapOk : ℕ → Bool`, the `n`-th draw succeeding when `heapOk n`;
  `allocs` counts the draws. Every pattern of failures is one oracle.

`ioLoop` is the transfer loop of `inode_read_at` and `inode_write_at`; `ioLoop_eq_min` and
`ioLoop_eq_zero` are what it moves when its bounce buffer is or is not allocated.

The `ASSERT`s of `inode_deny_write`, `inode_allow_write` and `free_map_release` are not
modelled: the reference invariant (`Filesys/InodeInv.lean`) shows the first two hold.
-/

namespace TinyOs

/-- `FREE_MAP_SECTOR`. -/
def freeMapSector : ℕ := 0

/-- `ROOT_DIR_SECTOR`. -/
def rootDirSector : ℕ := 1

/-- `bytes_to_sectors`: `DIV_ROUND_UP (size, DISK_SECTOR_SIZE)`. -/
def bytesToSectors (size : ℕ) : ℕ := (size + diskSectorSize - 1) / diskSectorSize

/-- `struct inode_disk`: the first data sector and the length in bytes. -/
structure InodeDisk where
  start : ℕ
  length : ℕ
  deriving DecidableEq, Repr

/-- `struct inode`, kept in `open_inodes` under its sector. -/
structure Inode where
  openCnt : ℕ
  removed : Bool
  denyWriteCnt : ℕ
  data : InodeDisk
  deriving DecidableEq, Repr

/-- `struct file`: the sector of its inode, its position, and whether it denies writes. -/
structure File where
  inode : ℕ
  pos : ℕ
  denyWrite : Bool
  deriving DecidableEq, Repr

/-- `struct dir_entry`: the name is the bytes before its terminating NUL. -/
structure DirEntry where
  inodeSector : ℕ
  name : List UInt8
  inUse : Bool
  deriving DecidableEq, Repr

/-- A record of zero bytes: a free slot with an empty name. -/
def DirEntry.zero : DirEntry := ⟨0, [], false⟩

/-- The state of the file system. -/
structure FsState where
  /-- `free_map`, a bit per sector. -/
  freeMap : Bitmap
  /-- Each sector read as a `struct inode_disk`. -/
  disk : ℕ → InodeDisk
  /-- The data of the inode at each sector, read as `struct dir_entry` records. -/
  dirs : ℕ → ℕ → DirEntry
  /-- `open_inodes`, by sector. -/
  inodes : ℕ → Option Inode
  /-- The `struct file`s, by address; none from `nextFile` on. -/
  files : ℕ → Option File
  nextFile : ℕ
  /-- Allocation outcomes drawn so far. -/
  allocs : ℕ

-- the linter does not see the uses of `hs` and `hc` in `decreasing_by`
set_option linter.unusedVariables false in
/-- The transfer loop of `inode_read_at` and `inode_write_at` on an inode of `length` bytes: the
bytes moved when `size` are asked for at `offset`. Each chunk ends at the end of a sector, of
the inode or of the request; a chunk that is not a whole sector goes through the bounce buffer,
allocated (successfully when `bounceOk`) at the first such chunk, after which `bounce` holds. -/
def ioLoop (length : ℕ) (bounceOk : Bool) (offset size : ℕ) (bounce : Bool) : ℕ :=
  if hs : size = 0 then 0
  else
    let sectorOfs := offset % diskSectorSize
    let chunk := min size (min (length - offset) (diskSectorSize - sectorOfs))
    if hc : chunk = 0 then 0
    else if sectorOfs = 0 ∧ chunk = diskSectorSize then
      chunk + ioLoop length bounceOk (offset + chunk) (size - chunk) bounce
    else if bounce || bounceOk then
      chunk + ioLoop length bounceOk (offset + chunk) (size - chunk) true
    else 0
termination_by size
decreasing_by all_goals exact Nat.sub_lt (Nat.pos_of_ne_zero hs) (Nat.pos_of_ne_zero hc)

section IoLoop

variable {length : ℕ} {bounceOk : Bool}

/-- With a bounce buffer, the loop moves every byte asked for up to the end of the inode. -/
lemma ioLoop_eq_min (offset size : ℕ) {bounce : Bool} (hb : (bounce || bounceOk) = true) :
    ioLoop length bounceOk offset size bounce = min size (length - offset) := by
  induction size using Nat.strong_induction_on generalizing offset bounce with
  | _ size ih =>
    rw [ioLoop]
    by_cases hs : size = 0
    · simp [hs]
    · have hsec : offset % diskSectorSize < diskSectorSize :=
        Nat.mod_lt _ (by decide)
      simp only [hs, dite_false]
      split_ifs with hc hfull
      · -- nothing left before the end of the inode
        omega
      · -- a whole sector, read directly
        rw [ih _ (by omega) _ hb]
        omega
      · rw [ih _ (by omega) _ (by simp)]
        omega

/-- Without one, a request shorter than a sector moves nothing: its first chunk needs the
bounce buffer. -/
lemma ioLoop_eq_zero {offset size : ℕ} (hsize : size < diskSectorSize) :
    ioLoop length false offset size false = 0 := by
  have hchunk : min size (min (length - offset) (diskSectorSize - offset % diskSectorSize)) ≠
      diskSectorSize := by omega
  rw [ioLoop]
  simp [hchunk]

end IoLoop

namespace FsState

variable (heapOk : ℕ → Bool) (s : FsState)

/-- Draw the outcome of the next allocation. -/
def alloc : Bool × FsState := (heapOk s.allocs, { s with allocs := s.allocs + 1 })

/-- Put `i` in `open_inodes` at `sector`, or take the entry away (`none`). -/
def setInode (sector : ℕ) (i : Option Inode) : FsState :=
  { s with inodes := Function.update s.inodes sector i }

/-- Write the `struct file` cell at address `a`, or free it (`none`). -/
def setFile (a : ℕ) (f : Option File) : FsState :=
  { s with files := Function.update s.files a f }

/-- `calloc` of a `struct file` at the first free address. -/
def pushFile (f : File) : FsState :=
  { s.setFile s.nextFile (some f) with nextFile := s.nextFile + 1 }

/-- Change the open inode at `sector`, if there is one. -/
def modifyInode (sector : ℕ) (g : Inode → Inode) : FsState :=
  s.setInode sector ((s.inodes sector).map g)

/-! ### `free-map.c` -/

/-- `free_map_allocate`: `cnt` consecutive free sectors are set in the map; when writing the map
back to its file fails, they are cleared again. -/
def freeMapAllocate (cnt : ℕ) : Option ℕ × FsState :=
  match s.freeMap.scanAndFlip 0 cnt false with
  | (none, _) => (none, s)
  | (some sector, fm) =>
    let (ok, s) := { s with freeMap := fm }.alloc heapOk
    if ok then (some sector, s)
    else (none, { s with freeMap := s.freeMap.setMultiple sector cnt false })

/-- `free_map_release`. -/
def freeMapRelease (sector cnt : ℕ) : FsState :=
  { s with freeMap := s.freeMap.setMultiple sector cnt false }

/-! ### `inode.c` -/

/-- `inode_create`: the data sectors are allocated, the `struct inode_disk` written to `sector`,
and the data zeroed. -/
def inodeCreate (sector length : ℕ) : Bool × FsState :=
  let (ok, s) := s.alloc heapOk
  if ok then
    let sectors := bytesToSectors length
    match s.freeMapAllocate heapOk sectors with
    | (some start, s) =>
      let s := { s with disk := Function.update s.disk sector ⟨start, length⟩ }
      (true, if 0 < sectors then
          { s with dirs := Function.update s.dirs sector fun _ => DirEntry.zero }
        else s)
    | (none, s) => (false, s)
  else (false, s)

/-- `inode_open`: an inode already open is reopened; otherwise a new one is read from the
disk. -/
def inodeOpen (sector : ℕ) : Option ℕ × FsState :=
  match s.inodes sector with
  | some i => (some sector, s.setInode sector (some { i with openCnt := i.openCnt + 1 }))
  | none =>
    let (ok, s) := s.alloc heapOk
    if ok then (some sector, s.setInode sector (some ⟨1, false, 0, s.disk sector⟩))
    else (none, s)

/-- `inode_reopen`. -/
def inodeReopen : Option ℕ → FsState
  | some sector => s.modifyInode sector fun i => { i with openCnt := i.openCnt + 1 }
  | none => s

/-- `inode_close`: the last closer frees the inode, and the sectors of a removed one. -/
def inodeClose : Option ℕ → FsState
  | none => s
  | some sector =>
    match s.inodes sector with
    | none => s
    | some i =>
      if i.openCnt = 1 then
        let s := s.setInode sector none
        if i.removed then
          (s.freeMapRelease sector 1).freeMapRelease i.data.start (bytesToSectors i.data.length)
        else s
      else s.setInode sector (some { i with openCnt := i.openCnt - 1 })

/-- `inode_remove`. -/
def inodeRemove (sector : ℕ) : FsState := s.modifyInode sector fun i => { i with removed := true }

/-- `inode_deny_write`. -/
def inodeDenyWrite (sector : ℕ) : FsState :=
  s.modifyInode sector fun i => { i with denyWriteCnt := i.denyWriteCnt + 1 }

/-- `inode_allow_write`. -/
def inodeAllowWrite (sector : ℕ) : FsState :=
  s.modifyInode sector fun i => { i with denyWriteCnt := i.denyWriteCnt - 1 }

/-- `inode_write_at`'s byte count: nothing while writes are denied. -/
def inodeWriteAt (sector size offset : ℕ) : ℕ × FsState :=
  let (ok, s') := s.alloc heapOk
  match s.inodes sector with
  | some i => (if i.denyWriteCnt ≠ 0 then 0 else ioLoop i.data.length ok offset size false, s')
  | none => (0, s')

/-! ### `file.c` -/

/-- `file_open`: takes over the reference `inode` holds; when `calloc` fails the inode is
closed. -/
def fileOpen (inode : Option ℕ) : Option ℕ × FsState :=
  let (ok, s) := s.alloc heapOk
  match inode with
  | some sector =>
    if ok then (some s.nextFile, s.pushFile ⟨sector, 0, false⟩)
    else (none, s.inodeClose (some sector))
  | none => (none, s)

/-- `file_reopen`: a new file on the same inode. -/
def fileReopen (a : ℕ) : Option ℕ × FsState :=
  match s.files a with
  | some f => (s.inodeReopen (some f.inode)).fileOpen heapOk (some f.inode)
  | none => (none, s)

/-- `file_deny_write`. -/
def fileDenyWrite (a : ℕ) : FsState :=
  match s.files a with
  | some f =>
    if f.denyWrite then s
    else (s.setFile a (some { f with denyWrite := true })).inodeDenyWrite f.inode
  | none => s

/-- `file_allow_write`. -/
def fileAllowWrite (a : ℕ) : FsState :=
  match s.files a with
  | some f =>
    if f.denyWrite then (s.setFile a (some { f with denyWrite := false })).inodeAllowWrite f.inode
    else s
  | none => s

/-- `file_close`: writes are allowed again, the inode closed and the cell freed. -/
def fileClose : Option ℕ → FsState
  | none => s
  | some a =>
    match s.files a with
    | some f => ((s.fileAllowWrite a).inodeClose (some f.inode)).setFile a none
    | none => s

/-- `file_write`: the bytes `inode_write_at` moves at the file's position, which advances by
them. -/
def fileWrite (a size : ℕ) : ℕ × FsState :=
  match s.files a with
  | some f =>
    let (n, s) := s.inodeWriteAt heapOk f.inode size f.pos
    (n, s.setFile a (some { f with pos := f.pos + n }))
  | none => (0, s)

/-- `file_length`. -/
def fileLength (a : ℕ) : ℕ :=
  match s.files a with
  | some f => ((s.inodes f.inode).map (·.data.length)).getD 0
  | none => 0

/-! ### Fields -/

@[simp] lemma alloc_fst : (s.alloc heapOk).1 = heapOk s.allocs := rfl
@[simp] lemma alloc_inodes : (s.alloc heapOk).2.inodes = s.inodes := rfl
@[simp] lemma alloc_files : (s.alloc heapOk).2.files = s.files := rfl
@[simp] lemma alloc_nextFile : (s.alloc heapOk).2.nextFile = s.nextFile := rfl
@[simp] lemma alloc_freeMap : (s.alloc heapOk).2.freeMap = s.freeMap := rfl
@[simp] lemma alloc_dirs : (s.alloc heapOk).2.dirs = s.dirs := rfl
@[simp] lemma alloc_disk : (s.alloc heapOk).2.disk = s.disk := rfl
@[simp] lemma alloc_allocs : (s.alloc heapOk).2.allocs = s.allocs + 1 := rfl

@[simp] lemma setInode_inodes (sector : ℕ) (i : Option Inode) :
    (s.setInode sector i).inodes = Function.update s.inodes sector i := rfl
@[simp] lemma setInode_files (sector : ℕ) (i : Option Inode) :
    (s.setInode sector i).files = s.files := rfl
@[simp] lemma setInode_nextFile (sector : ℕ) (i : Option Inode) :
    (s.setInode sector i).nextFile = s.nextFile := rfl
@[simp] lemma setInode_freeMap (sector : ℕ) (i : Option Inode) :
    (s.setInode sector i).freeMap = s.freeMap := rfl
@[simp] lemma setInode_dirs (sector : ℕ) (i : Option Inode) :
    (s.setInode sector i).dirs = s.dirs := rfl
@[simp] lemma setInode_allocs (sector : ℕ) (i : Option Inode) :
    (s.setInode sector i).allocs = s.allocs := rfl

@[simp] lemma setFile_files (a : ℕ) (f : Option File) :
    (s.setFile a f).files = Function.update s.files a f := rfl
@[simp] lemma setFile_inodes (a : ℕ) (f : Option File) : (s.setFile a f).inodes = s.inodes := rfl
@[simp] lemma setFile_nextFile (a : ℕ) (f : Option File) :
    (s.setFile a f).nextFile = s.nextFile := rfl
@[simp] lemma setFile_freeMap (a : ℕ) (f : Option File) :
    (s.setFile a f).freeMap = s.freeMap := rfl
@[simp] lemma setFile_dirs (a : ℕ) (f : Option File) : (s.setFile a f).dirs = s.dirs := rfl
@[simp] lemma setFile_allocs (a : ℕ) (f : Option File) : (s.setFile a f).allocs = s.allocs := rfl

@[simp] lemma pushFile_files (f : File) :
    (s.pushFile f).files = Function.update s.files s.nextFile (some f) := rfl
@[simp] lemma pushFile_nextFile (f : File) : (s.pushFile f).nextFile = s.nextFile + 1 := rfl
@[simp] lemma pushFile_inodes (f : File) : (s.pushFile f).inodes = s.inodes := rfl

@[simp] lemma modifyInode_inodes (sector : ℕ) (g : Inode → Inode) :
    (s.modifyInode sector g).inodes = Function.update s.inodes sector ((s.inodes sector).map g) :=
  rfl
@[simp] lemma modifyInode_files (sector : ℕ) (g : Inode → Inode) :
    (s.modifyInode sector g).files = s.files := rfl
@[simp] lemma modifyInode_nextFile (sector : ℕ) (g : Inode → Inode) :
    (s.modifyInode sector g).nextFile = s.nextFile := rfl
@[simp] lemma modifyInode_freeMap (sector : ℕ) (g : Inode → Inode) :
    (s.modifyInode sector g).freeMap = s.freeMap := rfl
@[simp] lemma modifyInode_dirs (sector : ℕ) (g : Inode → Inode) :
    (s.modifyInode sector g).dirs = s.dirs := rfl
@[simp] lemma modifyInode_allocs (sector : ℕ) (g : Inode → Inode) :
    (s.modifyInode sector g).allocs = s.allocs := rfl

@[simp] lemma freeMapRelease_inodes (sector cnt : ℕ) :
    (s.freeMapRelease sector cnt).inodes = s.inodes := rfl
@[simp] lemma freeMapRelease_files (sector cnt : ℕ) :
    (s.freeMapRelease sector cnt).files = s.files := rfl
@[simp] lemma freeMapRelease_nextFile (sector cnt : ℕ) :
    (s.freeMapRelease sector cnt).nextFile = s.nextFile := rfl
@[simp] lemma freeMapRelease_dirs (sector cnt : ℕ) :
    (s.freeMapRelease sector cnt).dirs = s.dirs := rfl
@[simp] lemma freeMapRelease_allocs (sector cnt : ℕ) :
    (s.freeMapRelease sector cnt).allocs = s.allocs := rfl

/-- What `free_map_allocate` leaves as it was. -/
lemma freeMapAllocate_frame (cnt : ℕ) :
    (s.freeMapAllocate heapOk cnt).2.files = s.files ∧
      (s.freeMapAllocate heapOk cnt).2.nextFile = s.nextFile ∧
      (s.freeMapAllocate heapOk cnt).2.inodes = s.inodes ∧
      (s.freeMapAllocate heapOk cnt).2.dirs = s.dirs ∧
      (s.freeMapAllocate heapOk cnt).2.disk = s.disk := by
  unfold freeMapAllocate
  split
  · exact ⟨rfl, rfl, rfl, rfl, rfl⟩
  · dsimp only
    split_ifs <;> exact ⟨rfl, rfl, rfl, rfl, rfl⟩

/-- What `inode_create` leaves as it was. -/
lemma inodeCreate_frame (sector length : ℕ) :
    (s.inodeCreate heapOk sector length).2.files = s.files ∧
      (s.inodeCreate heapOk sector length).2.nextFile = s.nextFile ∧
      (s.inodeCreate heapOk sector length).2.inodes = s.inodes := by
  obtain ⟨hf, hn, hi, -, -⟩ := (s.alloc heapOk).2.freeMapAllocate_frame heapOk
    (bytesToSectors length)
  unfold inodeCreate
  dsimp only
  by_cases hok : (s.alloc heapOk).1 = true
  · rw [if_pos hok]
    split
    · rename_i heq
      rw [heq] at hf hn hi
      split_ifs <;> exact ⟨hf, hn, hi⟩
    · rename_i heq
      rw [heq] at hf hn hi
      exact ⟨hf, hn, hi⟩
  · rw [if_neg hok]
    exact ⟨rfl, rfl, rfl⟩

/-! ### Equations -/

@[simp] lemma inodeDenyWrite_files (sector : ℕ) : (s.inodeDenyWrite sector).files = s.files := rfl
@[simp] lemma inodeAllowWrite_files (sector : ℕ) : (s.inodeAllowWrite sector).files = s.files :=
  rfl

/-- `inode_write_at` changes nothing but the allocations drawn. -/
lemma inodeWriteAt_snd (sector size offset : ℕ) :
    (s.inodeWriteAt heapOk sector size offset).2 = (s.alloc heapOk).2 := by
  unfold inodeWriteAt
  cases s.inodes sector <;> rfl

lemma fileClose_of_some {a : ℕ} {f : File} (hf : s.files a = some f) :
    s.fileClose (some a) = ((s.fileAllowWrite a).inodeClose (some f.inode)).setFile a none := by
  simp [fileClose, hf]

lemma fileOpen_some (sector : ℕ) :
    s.fileOpen heapOk (some sector) =
      if heapOk s.allocs then
        (some (s.alloc heapOk).2.nextFile, (s.alloc heapOk).2.pushFile ⟨sector, 0, false⟩)
      else (none, (s.alloc heapOk).2.inodeClose (some sector)) := rfl

end FsState

end TinyOs
