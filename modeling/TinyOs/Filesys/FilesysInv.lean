import TinyOs.Filesys.Create

/-!
The reference invariant through the calls of `filesys.c`. A `struct dir` holds a reference to
its inode, so `dir_open_root` and `dir_lookup` add the reference they return to `held` and
`dir_close` takes it away; `file_open` turns the reference it is handed into a `struct file`.
Each of `filesys_open`, `filesys_create` and `filesys_remove` therefore keeps `RefInv held`
with `held` as it was: between calls, every reference to an inode is a `struct file`.

* `fileView`: the files and the open inodes, which the directory records never touch;
* `RefInv.of_count`: `held` matters only through its counts;
* `RefInv.filesysOpen`, `RefInv.filesysCreate`, `RefInv.filesysRemove`.
-/

namespace TinyOs

namespace FsState

variable (heapOk : ℕ → Bool) {s : FsState}

/-! ### What the directory calls leave alone -/

/-- The files and the open inodes of a state. -/
def fileView (s : FsState) : (ℕ → Option File) × ℕ × (ℕ → Option Inode) :=
  (s.files, s.nextFile, s.inodes)

@[simp] lemma fileView_drawn (m : ℕ) : (s.drawn m).fileView = s.fileView := rfl
@[simp] lemma fileView_setSlot (sector k : ℕ) (e : DirEntry) :
    (s.setSlot sector k e).fileView = s.fileView := rfl
@[simp] lemma fileView_freeMapRelease (sector cnt : ℕ) :
    (s.freeMapRelease sector cnt).fileView = s.fileView := rfl

lemma writeEntry_fileView (sector ofs : ℕ) (e : DirEntry) :
    (s.writeEntry heapOk sector ofs e).2.fileView = s.fileView := by
  rw [writeEntry_eq]
  split_ifs <;> rfl

lemma lookup_fileView (dir : ℕ) (name : List UInt8) :
    (s.lookup heapOk dir name).2.fileView = s.fileView := by
  obtain ⟨m, hm⟩ := s.lookupFrom_snd heapOk dir name 0
  rw [lookup, hm, fileView_drawn]

/-- `dir_add` writes at most a record: the files and the open inodes stay as they were. -/
lemma dirAdd_fileView (dir : ℕ) (name : List UInt8) (sector : ℕ) :
    (s.dirAdd heapOk dir name sector).2.fileView = s.fileView := by
  unfold dirAdd
  split_ifs
  · rfl
  · rcases hl : s.lookup heapOk dir name with ⟨_ | _, s₁⟩
    · have h₁ : s₁.fileView = s.fileView := by rw [← s.lookup_fileView heapOk dir name, hl]
      obtain ⟨m, hm⟩ := s₁.freeSlotFrom_snd heapOk dir 0
      dsimp only
      rw [writeEntry_fileView, hm, fileView_drawn, h₁]
    · rw [← s.lookup_fileView heapOk dir name, hl]

lemma inodeCreate_fileView (sector length : ℕ) :
    (s.inodeCreate heapOk sector length).2.fileView = s.fileView := by
  obtain ⟨hf, hn, hi⟩ := s.inodeCreate_frame heapOk sector length
  simp only [fileView, hf, hn, hi]

lemma freeMapAllocate_fileView (cnt : ℕ) :
    (s.freeMapAllocate heapOk cnt).2.fileView = s.fileView := by
  obtain ⟨hf, hn, hi, -, -⟩ := s.freeMapAllocate_frame heapOk cnt
  simp only [fileView, hf, hn, hi]

namespace RefInv

variable {held : List ℕ}

/-- A step that leaves the files and the open inodes alone keeps the invariant. -/
lemma of_fileView (h : s.RefInv held) {s' : FsState} (hv : s'.fileView = s.fileView) :
    s'.RefInv held := by
  simp only [fileView, Prod.mk.injEq] at hv
  exact h.congr hv.1 hv.2.1 hv.2.2

/-- Only how often each sector is held matters. -/
lemma of_count (h : s.RefInv held) {held' : List ℕ}
    (hc : ∀ t, held'.count t = held.count t) : s.RefInv held' :=
  ⟨h.fresh, fun t => by rw [h.openCnt_eq, hc], h.openCnt_pos, h.denyWriteCnt_eq⟩

/-- `inode_close` of a reference held. -/
lemma inodeClose_cons {sector : ℕ} (h : s.RefInv (sector :: held)) :
    (s.inodeClose (some sector)).RefInv held := by
  simpa using h.inodeClose (List.mem_cons_self ..)

/-- `file_open` of the reference it is handed, if any: the reference becomes the file's, or is
closed. -/
lemma fileOpen_opt {inode : Option ℕ} (h : s.RefInv (inode.toList ++ held)) :
    (s.fileOpen heapOk inode).2.RefInv held := by
  cases inode with
  | none => exact h.alloc heapOk
  | some sector => simpa using h.fileOpen heapOk (List.mem_cons_self ..)

/-! ### `directory.c` -/

/-- `dir_open` takes over the reference it is handed, or closes it. -/
lemma dirOpen {inode : Option ℕ} (h : s.RefInv (inode.toList ++ held)) :
    (s.dirOpen heapOk inode).2.RefInv ((s.dirOpen heapOk inode).1.toList ++ held) := by
  unfold FsState.dirOpen
  cases inode with
  | none => exact h.alloc heapOk
  | some sector =>
    dsimp only
    split_ifs
    · exact h.alloc heapOk
    · exact (h.alloc heapOk).inodeClose_cons

/-- `dir_open_root` adds the root's reference when it returns a directory. -/
lemma dirOpenRoot (h : s.RefInv held) :
    (s.dirOpenRoot heapOk).2.RefInv ((s.dirOpenRoot heapOk).1.toList ++ held) :=
  (h.inodeOpen heapOk rootDirSector).dirOpen heapOk

/-- `dir_lookup` adds the reference to the inode it opens. -/
lemma dirLookup (h : s.RefInv held) (dir : ℕ) (name : List UInt8) :
    (s.dirLookup heapOk dir name).2.RefInv ((s.dirLookup heapOk dir name).1.toList ++ held) := by
  have h₁ := h.of_fileView (s.lookup_fileView heapOk dir name)
  unfold FsState.dirLookup
  rcases hl : s.lookup heapOk dir name with ⟨_ | ⟨e, _⟩, s₁⟩ <;> rw [hl] at h₁
  · exact h₁
  · exact h₁.inodeOpen heapOk e.inodeSector

/-- `dir_close` gives the directory's reference back. -/
lemma dirClose {dir : Option ℕ} (h : s.RefInv (dir.toList ++ held)) :
    (s.dirClose dir).RefInv held := by
  cases dir with
  | none => exact h
  | some d => exact h.inodeClose_cons

/-- `dir_remove` closes the inode it opens on every path. -/
lemma dirRemove (h : s.RefInv held) (dir : ℕ) (name : List UInt8) :
    (s.dirRemove heapOk dir name).2.RefInv held := by
  have h₁ := h.of_fileView (s.lookup_fileView heapOk dir name)
  unfold FsState.dirRemove
  rcases hl : s.lookup heapOk dir name with ⟨_ | ⟨e, ofs⟩, s₁⟩ <;> rw [hl] at h₁
  · exact h₁
  · have h₂ := h₁.inodeOpen heapOk e.inodeSector
    dsimp only
    rcases ho : s₁.inodeOpen heapOk e.inodeSector with ⟨_ | inode, s₂⟩ <;> rw [ho] at h₂
    · exact h₂
    · have h₃ := h₂.of_fileView (s₂.writeEntry_fileView heapOk dir ofs { e with inUse := false })
      dsimp only
      rcases hw : s₂.writeEntry heapOk dir ofs { e with inUse := false } with ⟨_ | _, s₃⟩ <;>
        rw [hw] at h₃
      · exact h₃.inodeClose_cons
      · exact (h₃.inodeRemove inode).inodeClose_cons

/-! ### `filesys.c` -/

/-- `filesys_open`: the reference `dir_lookup` returns becomes the new file's. -/
lemma filesysOpen (h : s.RefInv held) (name : List UInt8) :
    (s.filesysOpen heapOk name).2.RefInv held := by
  have h₁ := h.dirOpenRoot heapOk
  unfold FsState.filesysOpen
  rcases hr : s.dirOpenRoot heapOk with ⟨dir, s₁⟩
  rw [hr] at h₁
  dsimp only at h₁ ⊢
  cases dir with
  | none => exact h₁.dirClose.fileOpen_opt heapOk
  | some d =>
    have h₂ := h₁.dirLookup heapOk d name
    rcases hl : s₁.dirLookup heapOk d name with ⟨inode, s₂⟩
    rw [hl] at h₂
    dsimp only at h₂ ⊢
    rw [hl]
    -- the directory's reference sits behind the inode's; `dir_close` takes it
    have h₃ : s₂.RefInv ((some d).toList ++ (inode.toList ++ held)) :=
      h₂.of_count fun t => by simp only [List.count_append]; omega
    exact h₃.dirClose.fileOpen_opt heapOk

/-- `filesys_create`: whatever step fails, the files are left alone and the root closed. -/
lemma filesysCreate (h : s.RefInv held) (name : List UInt8) (initialSize : ℕ) :
    (s.filesysCreate heapOk name initialSize).2.RefInv held := by
  have h₁ := h.dirOpenRoot heapOk
  unfold FsState.filesysCreate
  rcases hr : s.dirOpenRoot heapOk with ⟨dir, s₁⟩
  rw [hr] at h₁
  dsimp only at h₁ ⊢
  apply RefInv.dirClose
  apply h₁.of_fileView
  simp only [apply_ite fileView, fileView_freeMapRelease, ite_self]
  cases dir with
  | none => rfl
  | some d =>
    dsimp only
    -- the chain of `&&`: each call leaves the files alone
    split
    · next s₂ heq => rw [← s₁.freeMapAllocate_fileView heapOk 1, heq]
    · next sector s₂ heq =>
      have h₂ : s₂.fileView = s₁.fileView := by
        rw [← s₁.freeMapAllocate_fileView heapOk 1, heq]
      split
      · next s₃ heq' => rw [← h₂, ← s₂.inodeCreate_fileView heapOk sector initialSize, heq']
      · next s₃ heq' =>
        rw [dirAdd_fileView, ← h₂, ← s₂.inodeCreate_fileView heapOk sector initialSize, heq']

/-- `filesys_remove`. -/
lemma filesysRemove (h : s.RefInv held) (name : List UInt8) :
    (s.filesysRemove heapOk name).2.RefInv held := by
  have h₁ := h.dirOpenRoot heapOk
  unfold FsState.filesysRemove
  rcases hr : s.dirOpenRoot heapOk with ⟨dir, s₁⟩
  rw [hr] at h₁
  dsimp only at h₁ ⊢
  apply RefInv.dirClose
  cases dir with
  | none => exact h₁
  | some d => exact h₁.dirRemove heapOk d name

end RefInv

end FsState

end TinyOs
