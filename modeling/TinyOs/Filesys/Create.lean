import TinyOs.Filesys.DirMap

/-!
`filesys_create` step by step, with the free map read as the set of its allocated sectors
(`Bitmap.ones`).

* `freeMapAllocate_some`, `freeMapAllocate_none`: `free_map_allocate` adds a run of sectors that
  were free, or leaves the set as it was;
* `freeMapAllocate_of_scan`, `inodeCreate_of_scan`, `dirOpenRoot_of_closed`: the calls when
  their allocations succeed;
* `dirAdd_of_found`: while allocations succeed, `dir_add` of a name in use fails and changes
  nothing but the allocations drawn;
* `filesysCreate_of_dirAdd_fail`: the path of `filesys_create` on which `dir_add` fails;
* `filesys_create_leaks_data_sectors`: on that path only the inode's sector is released. The
  data sectors `inode_create` took stay allocated, so a `filesys_create` of a name already in
  the root directory returns false and leaves the free map with more sectors in use.
-/

namespace TinyOs

namespace FsState

variable {heapOk : ℕ → Bool} {s : FsState}

@[simp] lemma drawn_zero (s : FsState) : s.drawn 0 = s := rfl

@[simp] lemma drawn_setInode (m sector : ℕ) (i : Option Inode) :
    (s.drawn m).setInode sector i = (s.setInode sector i).drawn m := rfl

/-! ### The free map as a set of sectors -/

/-- A successful `free_map_allocate` adds `cnt` sectors that were free. -/
lemma freeMapAllocate_some {cnt sector : ℕ} {s' : FsState}
    (h : s.freeMapAllocate heapOk cnt = (some sector, s')) :
    s'.freeMap.ones = s.freeMap.ones ∪ Finset.Ico sector (sector + cnt) ∧
      Disjoint s.freeMap.ones (Finset.Ico sector (sector + cnt)) := by
  unfold freeMapAllocate at h
  rw [Bitmap.scanAndFlip_eq] at h
  cases hscan : s.freeMap.scan 0 cnt false with
  | none =>
    rw [hscan] at h
    cases h
  | some idx =>
    rw [hscan] at h
    dsimp only [Option.elim] at h
    split_ifs at h
    · obtain ⟨hidx, rfl⟩ := Prod.mk.inj h
      cases hidx
      exact Bitmap.ones_of_scan_false hscan
    · exact absurd (Prod.mk.inj h).1.symm (Option.some_ne_none _)

/-- A failed `free_map_allocate` leaves the allocated sectors as they were: when writing the
map back fails, the run is cleared again. -/
lemma freeMapAllocate_none {cnt : ℕ} {s' : FsState}
    (h : s.freeMapAllocate heapOk cnt = (none, s')) : s'.freeMap.ones = s.freeMap.ones := by
  unfold freeMapAllocate at h
  rw [Bitmap.scanAndFlip_eq] at h
  cases hscan : s.freeMap.scan 0 cnt false with
  | none =>
    rw [hscan] at h
    obtain ⟨-, rfl⟩ := Prod.mk.inj h
    rfl
  | some idx =>
    rw [hscan] at h
    dsimp only [Option.elim] at h
    split_ifs at h
    · exact absurd (Prod.mk.inj h).1 (Option.some_ne_none _)
    obtain ⟨-, rfl⟩ := Prod.mk.inj h
    obtain ⟨hset, hdisj⟩ := Bitmap.ones_of_scan_false hscan
    simp only [alloc_freeMap]
    rw [Bitmap.ones_setMultiple_false, Bool.not_false, hset, Finset.union_sdiff_right,
      Finset.sdiff_eq_self_of_disjoint hdisj]

/-- `free_map_allocate` when the scan finds a run and the map is written back. -/
lemma freeMapAllocate_of_scan {cnt sector : ℕ} (hscan : s.freeMap.scan 0 cnt false = some sector)
    (hok : heapOk s.allocs = true) :
    s.freeMapAllocate heapOk cnt =
      (some sector, { s with freeMap := s.freeMap.setMultiple sector cnt true }.drawn 1) := by
  unfold freeMapAllocate
  rw [Bitmap.scanAndFlip_eq, hscan]
  dsimp only [Option.elim]
  simp only [alloc_fst, hok, if_true]
  rfl

/-- `inode_create` when its allocations succeed and the scan finds the data run: the run is
taken, and only the inode's own records change. -/
lemma inodeCreate_of_scan (sector : ℕ) {length start : ℕ} (hok : heapOk s.allocs = true)
    (hok' : heapOk (s.allocs + 1) = true)
    (hscan : s.freeMap.scan 0 (bytesToSectors length) false = some start) :
    (s.inodeCreate heapOk sector length).1 = true ∧
      (s.inodeCreate heapOk sector length).2.freeMap =
        s.freeMap.setMultiple start (bytesToSectors length) true ∧
      (s.inodeCreate heapOk sector length).2.inodes = s.inodes ∧
      (s.inodeCreate heapOk sector length).2.allocs = s.allocs + 2 ∧
      ∀ t, t ≠ sector → (s.inodeCreate heapOk sector length).2.dirs t = s.dirs t := by
  have hcreate := (s.alloc heapOk).2.freeMapAllocate_of_scan hscan hok'
  unfold inodeCreate
  dsimp only
  rw [alloc_fst, if_pos hok, hcreate]
  dsimp only
  split_ifs
  · exact ⟨rfl, rfl, rfl, rfl, fun t ht => by simp [ht]⟩
  · exact ⟨rfl, rfl, rfl, rfl, fun _ _ => rfl⟩

/-- `dir_open_root` when the root is not open and both allocations succeed. -/
lemma dirOpenRoot_of_closed (hroot : s.inodes rootDirSector = none)
    (hok : heapOk s.allocs = true) (hok' : heapOk (s.allocs + 1) = true) :
    s.dirOpenRoot heapOk =
      (some rootDirSector, ((s.setInode rootDirSector
        (some ⟨1, false, 0, s.disk rootDirSector⟩)).drawn 1).drawn 1) := by
  unfold dirOpenRoot inodeOpen dirOpen
  rw [hroot]
  dsimp only
  rw [alloc_fst, if_pos hok]
  dsimp only
  rw [alloc_fst]
  simp only [alloc_allocs, setInode_allocs, hok', if_true]
  rfl

/-- While allocations succeed, `dir_add` of a name in use fails, whatever the state of the
directory's inode. -/
lemma dirAdd_of_found (hok : ∀ n, s.allocs ≤ n → heapOk n = true) {dir : ℕ}
    {name : List UInt8} (hfound : s.findSlot dir (fun e => e.inUse && name == e.name) 0 ≠ none)
    (sector : ℕ) : ∃ m, s.dirAdd heapOk dir name sector = (false, s.drawn m) := by
  unfold dirAdd lookup
  by_cases hbad : name = [] ∨ nameMax < name.length
  · exact ⟨0, by rw [if_pos hbad, drawn_zero]⟩
  rw [if_neg hbad]
  obtain ⟨m, hm⟩ := s.lookupFrom_of_ok hok dir name 0
  rw [Nat.mul_zero] at hm
  obtain ⟨j, hj⟩ := Option.ne_none_iff_exists'.mp hfound
  rw [hm, hj]
  exact ⟨m, rfl⟩

/-! ### `filesys_create` -/

/-- The path of `filesys_create` on which the root opens, the inode's sector and its data are
allocated, and `dir_add` fails: the inode's sector is released and the root closed. -/
lemma filesysCreate_of_dirAdd_fail {name : List UInt8} {initialSize d sector : ℕ}
    {s₁ s₂ s₃ s₄ : FsState} (hopen : s.dirOpenRoot heapOk = (some d, s₁))
    (halloc : s₁.freeMapAllocate heapOk 1 = (some sector, s₂))
    (hcreate : s₂.inodeCreate heapOk sector initialSize = (true, s₃))
    (hadd : s₃.dirAdd heapOk d name sector = (false, s₄)) (hsector : sector ≠ 0) :
    s.filesysCreate heapOk name initialSize =
      (false, (s₄.freeMapRelease sector 1).dirClose (some d)) := by
  unfold filesysCreate
  simp only [hopen, halloc, hcreate, hadd]
  rw [if_pos (by simp [hsector])]

/-- `inode_close` of an inode that is not removed frees no sector. -/
lemma inodeClose_freeMap {sector : ℕ} {i : Inode} (hi : s.inodes sector = some i)
    (hr : i.removed = false) : (s.inodeClose (some sector)).freeMap = s.freeMap := by
  unfold inodeClose
  dsimp only
  rw [hi]
  dsimp only
  split_ifs with hcnt hrem
  · exact absurd hrem (by simp [hr])
  · rfl
  · rfl

/-- When `dir_add` fails after `inode_create` succeeded, `filesys_create` returns false but
releases only the inode's sector: the data sectors `inode_create` took stay allocated although
they were free before. Here the name is already in the root directory, which is closed, the
free map marks the free map's and the root's sectors in use, and every allocation succeeds. -/
theorem filesys_create_leaks_data_sectors (hok : ∀ n, s.allocs ≤ n → heapOk n = true)
    (hroot : s.inodes rootDirSector = none) {name : List UInt8}
    (hname : ∃ j < (s.disk rootDirSector).length / dirEntrySize,
      (s.dirs rootDirSector j).inUse = true ∧ (s.dirs rootDirSector j).name = name)
    (hused : s.freeMap.test freeMapSector = true ∧ s.freeMap.test rootDirSector = true)
    {sector start initialSize : ℕ} (hsector : s.freeMap.scan 0 1 false = some sector)
    (hdata : (s.freeMap.setMultiple sector 1 true).scan 0 (bytesToSectors initialSize) false =
      some start)
    (hsize : 0 < initialSize) :
    (s.filesysCreate heapOk name initialSize).1 = false ∧
      (s.filesysCreate heapOk name initialSize).2.freeMap.ones =
        s.freeMap.ones ∪ Finset.Ico start (start + bytesToSectors initialSize) ∧
      Disjoint s.freeMap.ones (Finset.Ico start (start + bytesToSectors initialSize)) ∧
      (Finset.Ico start (start + bytesToSectors initialSize)).Nonempty := by
  -- the sector found for the inode is neither the free map's nor the root's
  obtain ⟨-, -, hclear⟩ := Bitmap.scan_eq_some hsector
  have hfree : s.freeMap.test sector = false := hclear sector le_rfl (by omega)
  have hsector0 : sector ≠ 0 := fun h => by
    rw [h] at hfree
    exact Bool.false_ne_true (hfree.symm.trans hused.1)
  have hsector1 : sector ≠ rootDirSector := fun h => by
    rw [h] at hfree
    exact Bool.false_ne_true (hfree.symm.trans hused.2)
  -- the root is opened, the inode's sector and then its data allocated
  set r : Inode := ⟨1, false, 0, s.disk rootDirSector⟩
  set s₁ := ((s.setInode rootDirSector (some r)).drawn 1).drawn 1 with hs₁
  have hopen := dirOpenRoot_of_closed hroot (hok _ le_rfl) (hok _ (Nat.le_succ _))
  have halloc := s₁.freeMapAllocate_of_scan hsector (hok _ (by simp [hs₁]))
  set s₂ := { s₁ with freeMap := s₁.freeMap.setMultiple sector 1 true }.drawn 1
  obtain ⟨hc, hcfm, hci, hcallocs, hcdirs⟩ := s₂.inodeCreate_of_scan sector
    (hok _ (by simp [s₂, hs₁]; omega)) (hok _ (by simp [s₂, hs₁]; omega)) hdata
  set s₃ := (s₂.inodeCreate heapOk sector initialSize).2
  have hallocs : s₃.allocs = s.allocs + 5 := by
    rw [hcallocs]
    simp [s₂, hs₁]
  -- the root directory, as read through its inode, still has the name
  have hroot₃ : s₃.inodes rootDirSector = some r := by
    rw [hci]
    simp [s₂, hs₁, setInode]
  have hfound : s₃.findSlot rootDirSector (fun e => e.inUse && name == e.name) 0 ≠ none := by
    rw [Ne, findSlot_name_eq_none]
    obtain ⟨j, hj, hu, hn⟩ := hname
    refine fun h => h j ?_ ?_
    · simp [slotCount, inodeLength, hroot₃, r, hj]
    · rw [hcdirs _ (Ne.symm hsector1)]
      exact ⟨hu, hn⟩
  obtain ⟨m, hm⟩ := s₃.dirAdd_of_found (fun n hn => hok n (by rw [hallocs] at hn; omega)) hfound
    sector
  -- so the path of `filesys_create` is the one on which `dir_add` fails
  have hpath := filesysCreate_of_dirAdd_fail hopen halloc (Prod.ext hc rfl) hm hsector0
  rw [hpath]
  -- the free map: the inode's sector, then the data run, are set, and the inode's sector cleared
  obtain ⟨hones₁, hdisj₁⟩ := Bitmap.ones_of_scan_false hsector
  obtain ⟨hones₂, hdisj₂⟩ := Bitmap.ones_of_scan_false hdata
  rw [hones₁, Finset.disjoint_union_left] at hdisj₂
  set D := Finset.Ico start (start + bytesToSectors initialSize)
  have hclose : (((s₃.drawn m).freeMapRelease sector 1).dirClose
      (some rootDirSector)).freeMap = s₃.freeMap.setMultiple sector 1 false :=
    inodeClose_freeMap (by simpa using hroot₃) rfl
  have hfm₃ : s₃.freeMap = (s.freeMap.setMultiple sector 1 true).setMultiple start
      (bytesToSectors initialSize) true := hcfm
  refine ⟨rfl, ?_, hdisj₂.1, Finset.nonempty_Ico.mpr ?_⟩
  · rw [hclose, Bitmap.ones_setMultiple_false, hfm₃, hones₂, hones₁, Finset.union_right_comm,
      Finset.union_sdiff_right]
    exact Finset.sdiff_eq_self_of_disjoint (Finset.disjoint_union_left.mpr ⟨hdisj₁, hdisj₂.2.symm⟩)
  · unfold bytesToSectors diskSectorSize
    omega

/-- The disk of eight sectors after `do_format` and `filesys_create ("a", 0)`: the free map's
inode at sector `0` with its four bytes at sector `2`, the root directory's inode at sector `1`
with its sixteen entries at sector `3`, and `a`'s inode, with no data, at sector `4`, which the
root's first entry names; nothing open. -/
def createState : FsState where
  freeMap := ⟨[true, true, true, true, true, false, false, false]⟩
  disk := fun t =>
    if t = freeMapSector then ⟨2, 4⟩
    else if t = rootDirSector then ⟨3, 16 * dirEntrySize⟩
    else ⟨0, 0⟩
  dirs := fun t j => if t = rootDirSector ∧ j = 0 then ⟨4, [97], true⟩ else DirEntry.zero
  inodes := fun _ => none
  files := fun _ => none
  nextFile := 0
  allocs := 0

/-- Creating `a` again with one sector of data fails: the new inode's sector `5` is released,
but its data sector `6` stays allocated. -/
theorem createState_create_leaks :
    (createState.filesysCreate (fun _ => true) [97] 512).1 = false ∧
      (createState.filesysCreate (fun _ => true) [97] 512).2.freeMap.ones =
        createState.freeMap.ones ∪ Finset.Ico 6 (6 + bytesToSectors 512) ∧
      Disjoint createState.freeMap.ones (Finset.Ico 6 (6 + bytesToSectors 512)) ∧
      (Finset.Ico 6 (6 + bytesToSectors 512)).Nonempty :=
  filesys_create_leaks_data_sectors (fun _ _ => rfl) rfl ⟨0, by decide, by decide, by decide⟩
    ⟨by decide, by decide⟩ (show createState.freeMap.scan 0 1 false = some 5 by decide)
    (by decide) (by decide)

end FsState

end TinyOs
