import TinyOs.Filesys.FileHeap

/-!
`filesys_open` while allocations succeed. With the root directory closed, as it is between
calls, `filesys_open` opens the root, finds the first entry in use with the name, opens the
inode that entry names, closes the root again and puts a new `struct file` on the inode.

* `inodeOpen_of_closed`, `inodeClose_last`, `fileOpen_of_ok`, `dirLookup_of_found`: the calls
  on that path;
* `filesysOpen_of_found`: the state `filesys_open` leaves, field by field.
-/

namespace TinyOs

namespace FsState

attribute [ext] FsState

variable {heapOk : ℕ → Bool} {s : FsState}

/-- `inode_open` of an inode that is not open, when its `malloc` succeeds. -/
lemma inodeOpen_of_closed {sector : ℕ} (h : s.inodes sector = none)
    (hok : heapOk s.allocs = true) :
    s.inodeOpen heapOk sector =
      (some sector, (s.drawn 1).setInode sector (some ⟨1, false, 0, s.disk sector⟩)) := by
  unfold inodeOpen
  rw [h]
  dsimp only
  rw [alloc_fst, if_pos hok]
  rfl

/-- `inode_close` by the last opener of an inode that is not removed. -/
lemma inodeClose_last {sector : ℕ} {i : Inode} (h : s.inodes sector = some i)
    (hcnt : i.openCnt = 1) (hr : i.removed = false) :
    s.inodeClose (some sector) = s.setInode sector none := by
  unfold inodeClose
  dsimp only
  rw [h]
  dsimp only
  rw [if_pos hcnt, hr]
  rfl

lemma fileOpen_of_ok {sector : ℕ} (hok : heapOk s.allocs = true) :
    s.fileOpen heapOk (some sector) =
      (some s.nextFile, (s.drawn 1).pushFile ⟨sector, 0, false⟩) := by
  rw [fileOpen_some, if_pos hok]
  rfl

@[simp] lemma setInode_setInode (t : ℕ) (i i' : Option Inode) :
    (s.setInode t i).setInode t i' = s.setInode t i' := by
  simp [setInode]

lemma setInode_self (t : ℕ) : s.setInode t (s.inodes t) = s := by
  simp [setInode]

lemma setInode_comm {t t' : ℕ} (h : t ≠ t') (i i' : Option Inode) :
    (s.setInode t i).setInode t' i' = (s.setInode t' i').setInode t i := by
  simp only [setInode, Function.update_comm h]

/-- `inode_open` of one inode does not see another's entry. -/
lemma inodeOpen_setInode_of_ne {t sector : ℕ} (h : t ≠ sector) (i : Option Inode) :
    (s.setInode t i).inodeOpen heapOk sector =
      ((s.inodeOpen heapOk sector).1, (s.inodeOpen heapOk sector).2.setInode t i) := by
  unfold inodeOpen
  simp only [setInode_inodes, Function.update_of_ne (Ne.symm h)]
  cases s.inodes sector with
  | some i' => rw [setInode_comm (Ne.symm h)]
  | none =>
    dsimp only
    simp only [alloc_fst, setInode_allocs]
    by_cases hh : heapOk s.allocs = true
    · simp only [hh, ↓reduceIte]
      rw [← setInode_comm h]
      rfl
    · simp only [hh, Bool.false_eq_true, ↓reduceIte]
      rfl

lemma inodeOpen_inodes_of_ne {t sector : ℕ} (h : t ≠ sector) :
    (s.inodeOpen heapOk sector).2.inodes t = s.inodes t := by
  unfold inodeOpen
  split
  · simp [Function.update_of_ne h]
  · dsimp only
    split_ifs <;> simp [Function.update_of_ne h]

/-- `inode_open` returns the inode when it is open already or its `malloc` succeeds. -/
lemma inodeOpen_fst {sector : ℕ} (hok : heapOk s.allocs = true) :
    (s.inodeOpen heapOk sector).1 = some sector := by
  unfold inodeOpen
  split
  · rfl
  · simp [hok]

@[simp] lemma inodeOpen_nextFile (sector : ℕ) :
    (s.inodeOpen heapOk sector).2.nextFile = s.nextFile := by
  unfold inodeOpen
  split
  · rfl
  · dsimp only
    split_ifs <;> rfl

/-- `inode_open` draws at most one allocation. -/
lemma inodeOpen_allocs (heapOk : ℕ → Bool) (sector : ℕ) :
    s.allocs ≤ (s.inodeOpen heapOk sector).2.allocs ∧
      (s.inodeOpen heapOk sector).2.allocs ≤ s.allocs + 1 := by
  unfold inodeOpen
  split
  · simp
  · dsimp only
    split_ifs <;> simp

/-- `dir_lookup` of a name in use, the first time at slot `j`: the records up to `j` are read
and the inode of that entry opened. -/
lemma dirLookup_of_found {dir j : ℕ} {name : List UInt8}
    (hok : ∀ n, s.allocs ≤ n → n < s.allocs + (j + 1) → heapOk n = true)
    (hj : s.findSlot dir (fun e => e.inUse && name == e.name) 0 = some j) :
    s.dirLookup heapOk dir name =
      (s.drawn (j + 1)).inodeOpen heapOk (s.dirs dir j).inodeSector := by
  have hl := s.lookupFrom_found (fun n hn hlt => hok n hn (by omega)) hj
  rw [Nat.mul_zero, Nat.sub_zero] at hl
  unfold dirLookup lookup
  rw [hl]

/-- `filesys_open` of a name the closed root directory has, the first time at slot `j`: the root
is opened and closed again, the inode of the entry opened, and a new file put on it at
`nextFile`. -/
theorem filesysOpen_of_found (hroot : s.inodes rootDirSector = none) {name : List UInt8}
    {j : ℕ} (hok : ∀ n, s.allocs ≤ n → n < s.allocs + (j + 5) → heapOk n = true)
    (hj : (s.setInode rootDirSector (some ⟨1, false, 0, s.disk rootDirSector⟩)).findSlot
      rootDirSector (fun e => e.inUse && name == e.name) 0 = some j)
    (hsector : (s.dirs rootDirSector j).inodeSector ≠ rootDirSector) :
    s.filesysOpen heapOk name =
      (some s.nextFile, ((((s.drawn (j + 3)).inodeOpen heapOk
        (s.dirs rootDirSector j).inodeSector).2.drawn 1).pushFile
        ⟨(s.dirs rootDirSector j).inodeSector, 0, false⟩)) := by
  set r : Inode := ⟨1, false, 0, s.disk rootDirSector⟩
  set sector := (s.dirs rootDirSector j).inodeSector with hsec
  -- the root opened: two allocations
  have hopen := dirOpenRoot_of_closed hroot (hok _ le_rfl (by omega)) (hok _ (Nat.le_succ _)
    (by omega))
  rw [drawn_drawn] at hopen
  -- the lookup reads `j + 1` records and opens the inode, which is not the root
  have hlookup : (((s.setInode rootDirSector (some r)).drawn (1 + 1))).dirLookup heapOk
      rootDirSector name = (((s.drawn (j + 3)).inodeOpen heapOk sector).1,
        ((s.drawn (j + 3)).inodeOpen heapOk sector).2.setInode rootDirSector (some r)) := by
    have hj' : ((s.setInode rootDirSector (some r)).drawn (1 + 1)).findSlot rootDirSector
        (fun e => e.inUse && name == e.name) 0 = some j := by
      rwa [drawn_findSlot]
    have hallocs₁ : ((s.setInode rootDirSector (some r)).drawn (1 + 1)).allocs = s.allocs + 2 :=
      rfl
    rw [dirLookup_of_found (fun n hn hlt => hok n (by omega) (by omega)) hj', drawn_drawn,
      ← drawn_setInode]
    simp only [drawn_dirs, setInode_dirs]
    rw [inodeOpen_setInode_of_ne (Ne.symm hsector), show 1 + 1 + (j + 1) = j + 3 by omega]
  set X := ((s.drawn (j + 3)).inodeOpen heapOk sector).2 with hX
  have hXroot : X.inodes rootDirSector = none := by
    rw [hX, inodeOpen_inodes_of_ne (Ne.symm hsector)]
    exact hroot
  have hfst : ((s.drawn (j + 3)).inodeOpen heapOk sector).1 = some sector :=
    inodeOpen_fst (hok _ (by simp) (by simp))
  -- the root, opened once, is closed: it leaves `open_inodes`
  have hclose : (X.setInode rootDirSector (some r)).inodeClose (some rootDirSector) = X := by
    rw [inodeClose_last (i := r) (by simp [setInode]) rfl rfl, setInode_setInode, ← hXroot,
      setInode_self]
  have hallocs : s.allocs ≤ X.allocs ∧ X.allocs < s.allocs + (j + 5) := by
    have := (s.drawn (j + 3)).inodeOpen_allocs heapOk sector
    rw [← hX, drawn_allocs] at this
    omega
  unfold filesysOpen
  rw [hopen]
  dsimp only
  rw [hlookup, hfst]
  dsimp only
  rw [dirClose, hclose, fileOpen_of_ok (hok _ hallocs.1 hallocs.2)]
  simp [hX]

end FsState

end TinyOs
