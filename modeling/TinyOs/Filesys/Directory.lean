import TinyOs.Filesys.InodeInv

/-!
The directories of `filesys/directory.c` and the calls of `filesys/filesys.c` that use them. A
`struct dir` is named by the sector of its inode; its records are read and written with
`inode_read_at` and `inode_write_at` of `sizeof (struct dir_entry)` bytes at offsets `0`, `20`,
`40`, ..., so the `k`-th record is slot `k` of the inode's data.

* `readEntry`, `writeEntry`: those transfers; `readEntry_eq` and `writeEntry_eq` say when they
  move a whole record: the record lies inside the inode, its bounce buffer is allocated and, for
  a write, writes are not denied;
* `lookupFrom`, `freeSlotFrom`: the loops of `lookup` and of `dir_add`'s search for a free slot,
  which stop at the first short read;
* `dirLookup`, `dirAdd`, `dirRemove`, `dirOpen`, `dirOpenRoot`, `dirClose`;
* `filesysCreate`, `filesysOpen`, `filesysRemove`.

`dir_readdir`, `dir_reopen`, `dir_get_inode` and `filesys_init`/`do_format` are not modelled.
-/

namespace TinyOs

/-- `NAME_MAX`. -/
def nameMax : ℕ := 14

/-- `sizeof (struct dir_entry)`: a 4-byte sector number, `NAME_MAX + 1` bytes of name and a
`bool`. -/
def dirEntrySize : ℕ := 20

namespace FsState

section Records

variable (heapOk : ℕ → Bool) (s : FsState)

/-- Write slot `k` of the data of the inode at `sector`. -/
def setSlot (sector k : ℕ) (e : DirEntry) : FsState :=
  { s with dirs := Function.update s.dirs sector (Function.update (s.dirs sector) k e) }

/-- `inode_length` of the inode at `sector`, `0` when it is not open. -/
def inodeLength (sector : ℕ) : ℕ := ((s.inodes sector).map (·.data.length)).getD 0

/-- `inode_read_at (inode, &e, sizeof e, ofs) == sizeof e` on the directory at `sector`: the
record at `ofs` when the whole of it is read. -/
def readEntry (sector ofs : ℕ) : Option DirEntry × FsState :=
  let (ok, s') := s.alloc heapOk
  match s.inodes sector with
  | some i =>
    if ioLoop i.data.length ok ofs dirEntrySize false = dirEntrySize then
      (some (s.dirs sector (ofs / dirEntrySize)), s')
    else (none, s')
  | none => (none, s')

/-- `inode_write_at (inode, &e, sizeof e, ofs) == sizeof e` on the directory at `sector`: when
the whole record is written, slot `ofs / sizeof e` holds `e`. -/
def writeEntry (sector ofs : ℕ) (e : DirEntry) : Bool × FsState :=
  let (n, s') := s.inodeWriteAt heapOk sector dirEntrySize ofs
  if n = dirEntrySize then (true, s'.setSlot sector (ofs / dirEntrySize) e)
  else (false, s')

/-- A transfer of one record, shorter than a sector, moves all of it exactly when its bounce
buffer is allocated and it lies inside the inode. -/
lemma ioLoop_record (length ofs : ℕ) (ok : Bool) :
    (ioLoop length ok ofs dirEntrySize false = dirEntrySize) ↔
      ok = true ∧ ofs + dirEntrySize ≤ length := by
  cases ok with
  | false =>
    rw [ioLoop_eq_zero (by decide)]
    simp [dirEntrySize]
  | true =>
    rw [ioLoop_eq_min _ _ (by simp)]
    simp only [dirEntrySize, true_and]
    omega

lemma readEntry_eq (sector ofs : ℕ) :
    s.readEntry heapOk sector ofs =
      (if heapOk s.allocs = true ∧ ofs + dirEntrySize ≤ s.inodeLength sector then
        some (s.dirs sector (ofs / dirEntrySize)) else none, (s.alloc heapOk).2) := by
  unfold readEntry inodeLength
  cases hi : s.inodes sector with
  | none => simp [dirEntrySize]
  | some i =>
    simp only [alloc_fst, Option.map_some, Option.getD_some, ioLoop_record]
    split_ifs <;> rfl

lemma writeEntry_eq (sector ofs : ℕ) (e : DirEntry) :
    s.writeEntry heapOk sector ofs e =
      if heapOk s.allocs = true ∧ (s.inodes sector).any (·.denyWriteCnt = 0) ∧
          ofs + dirEntrySize ≤ s.inodeLength sector then
        (true, (s.alloc heapOk).2.setSlot sector (ofs / dirEntrySize) e)
      else (false, (s.alloc heapOk).2) := by
  unfold writeEntry inodeWriteAt inodeLength
  cases hi : s.inodes sector with
  | none => simp [dirEntrySize]
  | some i =>
    simp only [alloc_fst, Option.map_some, Option.getD_some, Option.any_some,
      decide_eq_true_eq]
    by_cases hd : i.denyWriteCnt = 0
    · simp only [hd, ne_eq, not_true_eq_false, if_false, true_and, ioLoop_record]
    · simp [hd, dirEntrySize]

@[simp] lemma readEntry_inodes (sector ofs : ℕ) :
    (s.readEntry heapOk sector ofs).2.inodes = s.inodes := by
  rw [readEntry_eq]
  rfl

lemma lt_of_readEntry {sector ofs : ℕ} {e : DirEntry} {s' : FsState}
    (h : s.readEntry heapOk sector ofs = (some e, s')) :
    ofs + dirEntrySize ≤ s.inodeLength sector ∧ s' = (s.alloc heapOk).2 := by
  rw [readEntry_eq] at h
  split_ifs at h with hc
  · exact ⟨hc.2, (Prod.mk.inj h).2.symm⟩
  · cases h

@[simp] lemma setSlot_inodes (sector k : ℕ) (e : DirEntry) :
    (s.setSlot sector k e).inodes = s.inodes := rfl
@[simp] lemma setSlot_files (sector k : ℕ) (e : DirEntry) :
    (s.setSlot sector k e).files = s.files := rfl
@[simp] lemma setSlot_nextFile (sector k : ℕ) (e : DirEntry) :
    (s.setSlot sector k e).nextFile = s.nextFile := rfl
@[simp] lemma setSlot_freeMap (sector k : ℕ) (e : DirEntry) :
    (s.setSlot sector k e).freeMap = s.freeMap := rfl
@[simp] lemma setSlot_allocs (sector k : ℕ) (e : DirEntry) :
    (s.setSlot sector k e).allocs = s.allocs := rfl
lemma setSlot_dirs (sector k : ℕ) (e : DirEntry) (t j : ℕ) :
    (s.setSlot sector k e).dirs t j = if t = sector ∧ j = k then e else s.dirs t j := by
  by_cases ht : t = sector
  · subst ht
    by_cases hj : j = k <;> simp [setSlot, hj]
  · simp [setSlot, ht]

@[simp] lemma inodeLength_alloc (sector : ℕ) :
    (s.alloc heapOk).2.inodeLength sector = s.inodeLength sector := rfl

end Records

/-! ### `directory.c` -/

section Dir

variable (heapOk : ℕ → Bool)

-- the linter does not see the use of `h` in `decreasing_by`
set_option linter.unusedVariables false in
/-- The loop of `lookup` from offset `ofs`: the first record in use named `name`, with its
offset; `none` at the first short read. -/
def lookupFrom (s : FsState) (sector : ℕ) (name : List UInt8) (ofs : ℕ) :
    Option (DirEntry × ℕ) × FsState :=
  match h : s.readEntry heapOk sector ofs with
  | (some e, s') =>
    if e.inUse = true ∧ name = e.name then (some (e, ofs), s')
    else lookupFrom s' sector name (ofs + dirEntrySize)
  | (none, s') => (none, s')
termination_by s.inodeLength sector - ofs
decreasing_by
  obtain ⟨hlt, rfl⟩ := s.lt_of_readEntry heapOk h
  rw [inodeLength_alloc]
  have : 0 < dirEntrySize := by decide
  omega

-- the linter does not see the use of `h` in `decreasing_by`
set_option linter.unusedVariables false in
/-- The loop of `dir_add` that looks for a free slot from offset `ofs`: the offset of the first
record not in use, or of the first short read. -/
def freeSlotFrom (s : FsState) (sector : ℕ) (ofs : ℕ) : ℕ × FsState :=
  match h : s.readEntry heapOk sector ofs with
  | (some e, s') =>
    if e.inUse = false then (ofs, s')
    else freeSlotFrom s' sector (ofs + dirEntrySize)
  | (none, s') => (ofs, s')
termination_by s.inodeLength sector - ofs
decreasing_by
  obtain ⟨hlt, rfl⟩ := s.lt_of_readEntry heapOk h
  rw [inodeLength_alloc]
  have : 0 < dirEntrySize := by decide
  omega

variable (s : FsState)

/-- `lookup`. -/
def lookup (dir : ℕ) (name : List UInt8) : Option (DirEntry × ℕ) × FsState :=
  s.lookupFrom heapOk dir name 0

/-- `dir_lookup`: the inode of the entry named `name`, opened. -/
def dirLookup (dir : ℕ) (name : List UInt8) : Option ℕ × FsState :=
  match s.lookup heapOk dir name with
  | (some (e, _), s) => s.inodeOpen heapOk e.inodeSector
  | (none, s) => (none, s)

/-- `dir_add`: a name that is empty, longer than `NAME_MAX` or in use fails; otherwise the
entry goes in the first free slot, or at the end of the directory. -/
def dirAdd (dir : ℕ) (name : List UInt8) (inodeSector : ℕ) : Bool × FsState :=
  if name = [] ∨ nameMax < name.length then (false, s)
  else
    match s.lookup heapOk dir name with
    | (some _, s) => (false, s)
    | (none, s) =>
      let (ofs, s) := s.freeSlotFrom heapOk dir 0
      s.writeEntry heapOk dir ofs ⟨inodeSector, name.take nameMax, true⟩

/-- `dir_remove`: the entry is found, its inode opened, the slot freed and the inode marked
removed; the inode is closed again on every path. -/
def dirRemove (dir : ℕ) (name : List UInt8) : Bool × FsState :=
  match s.lookup heapOk dir name with
  | (none, s) => (false, s)
  | (some (e, ofs), s) =>
    match s.inodeOpen heapOk e.inodeSector with
    | (none, s) => (false, s)
    | (some inode, s) =>
      match s.writeEntry heapOk dir ofs { e with inUse := false } with
      | (false, s) => (false, s.inodeClose (some inode))
      | (true, s) => (true, (s.inodeRemove inode).inodeClose (some inode))

/-- `dir_open`: takes over the reference `inode` holds; when `calloc` fails it is closed. -/
def dirOpen (inode : Option ℕ) : Option ℕ × FsState :=
  let (ok, s) := s.alloc heapOk
  match inode with
  | some sector => if ok then (some sector, s) else (none, s.inodeClose (some sector))
  | none => (none, s)

/-- `dir_open_root`. -/
def dirOpenRoot : Option ℕ × FsState :=
  let (inode, s) := s.inodeOpen heapOk rootDirSector
  s.dirOpen heapOk inode

/-- `dir_close`. -/
def dirClose (dir : Option ℕ) : FsState := s.inodeClose dir

/-! ### `filesys.c` -/

/-- `filesys_create`: open the root, allocate a sector for the inode, create it and add the
entry, stopping at the first failure; on failure the inode's sector is released. -/
def filesysCreate (name : List UInt8) (initialSize : ℕ) : Bool × FsState :=
  let (dir, s) := s.dirOpenRoot heapOk
  let (success, inodeSector, s) : Bool × ℕ × FsState :=
    match dir with
    | none => (false, 0, s)
    | some d =>
      match s.freeMapAllocate heapOk 1 with
      | (none, s) => (false, 0, s)
      | (some sector, s) =>
        match s.inodeCreate heapOk sector initialSize with
        | (false, s) => (false, sector, s)
        | (true, s) =>
          let (ok, s) := s.dirAdd heapOk d name sector
          (ok, sector, s)
  let s := if !success && inodeSector ≠ 0 then s.freeMapRelease inodeSector 1 else s
  (success, s.dirClose dir)

/-- `filesys_open`. -/
def filesysOpen (name : List UInt8) : Option ℕ × FsState :=
  let (dir, s) := s.dirOpenRoot heapOk
  let (inode, s) : Option ℕ × FsState :=
    match dir with
    | some d => s.dirLookup heapOk d name
    | none => (none, s)
  (s.dirClose dir).fileOpen heapOk inode

/-- `filesys_remove`. -/
def filesysRemove (name : List UInt8) : Bool × FsState :=
  let (dir, s) := s.dirOpenRoot heapOk
  let (success, s) : Bool × FsState :=
    match dir with
    | some d => s.dirRemove heapOk d name
    | none => (false, s)
  (success, s.dirClose dir)

end Dir

end FsState

end TinyOs
