import TinyOs.Filesys.Inode
import TinyOs.Lib.Count

/-!
The reference invariant of the open-file layer: an open inode's `open_cnt` is the number of
`struct file`s on it plus the references held elsewhere (by a `struct dir`, or by code between
`inode_open` and the `file_open` that takes the reference over), and its `deny_write_cnt` is the
number of files on it that deny writes.

* `fileCount`, `openers`, `deniers`: the files with a property, counted over the heap;
  `fileCount_setFile` and `fileCount_pushFile` say how one write of a cell moves a count;
* `RefInv s held`: the invariant, with `held` the outside references, one entry each;
* one lemma per operation: `RefInv.inodeOpen` adds the reference it returns, `RefInv.inodeClose`
  and `RefInv.fileOpen` take one away, the file operations keep `held`;
* `RefInv.denyWriteCnt_le_openCnt`: the `ASSERT`s of `inode_deny_write` and
  `inode_allow_write` hold.
-/

namespace TinyOs

namespace FsState

variable (s : FsState)

/-- The `struct file`s for which `P` holds. -/
def fileCount (P : File → Bool) : ℕ := Nat.count (fun a => (s.files a).any P = true) s.nextFile

/-- The files on the inode at `sector`. -/
def openers (sector : ℕ) : ℕ := s.fileCount fun f => f.inode == sector

/-- The files on the inode at `sector` that deny writes to it. -/
def deniers (sector : ℕ) : ℕ := s.fileCount fun f => f.inode == sector && f.denyWrite

/-- The `open_cnt` of the inode at `sector`, `0` when it is not open. -/
def openCnt (sector : ℕ) : ℕ := ((s.inodes sector).map (·.openCnt)).getD 0

/-- The reference invariant, with `held` the references to inodes held outside `struct file`s,
one entry per reference. -/
structure RefInv (held : List ℕ) : Prop where
  fresh : ∀ a, s.nextFile ≤ a → s.files a = none
  openCnt_eq : ∀ sector, s.openCnt sector = s.openers sector + held.count sector
  openCnt_pos : ∀ sector i, s.inodes sector = some i → 0 < i.openCnt
  denyWriteCnt_eq : ∀ sector i, s.inodes sector = some i → i.denyWriteCnt = s.deniers sector

/-! ### Counting files -/

variable {s}

lemma fileCount_setFile {a : ℕ} (ha : a < s.nextFile) (f : Option File) (P : File → Bool) :
    (s.setFile a f).fileCount P + (if (s.files a).any P then 1 else 0) =
      s.fileCount P + (if f.any P then 1 else 0) := by
  have h := Nat.count_add_ite_of_agree (p := fun u => ((s.setFile a f).files u).any P = true)
    (q := fun u => (s.files u).any P = true) ha fun u _ hu => by simp [hu]
  simpa [fileCount] using h

lemma fileCount_pushFile (f : File) (P : File → Bool) :
    (s.pushFile f).fileCount P = s.fileCount P + if P f then 1 else 0 := by
  unfold fileCount
  rw [pushFile_nextFile, Nat.count_succ]
  congr 1
  · exact Nat.count_eq_of_agree fun u hu => by simp [hu.ne]
  · simp

lemma deniers_le_openers (sector : ℕ) : s.deniers sector ≤ s.openers sector :=
  Nat.count_mono_left fun a h => by
    cases hf : s.files a <;> simp_all

@[simp] lemma fileCount_alloc (heapOk : ℕ → Bool) (P : File → Bool) :
    (s.alloc heapOk).2.fileCount P = s.fileCount P := rfl
@[simp] lemma fileCount_setInode (sector : ℕ) (i : Option Inode) (P : File → Bool) :
    (s.setInode sector i).fileCount P = s.fileCount P := rfl
@[simp] lemma fileCount_modifyInode (sector : ℕ) (g : Inode → Inode) (P : File → Bool) :
    (s.modifyInode sector g).fileCount P = s.fileCount P := rfl
@[simp] lemma fileCount_freeMapRelease (sector cnt : ℕ) (P : File → Bool) :
    (s.freeMapRelease sector cnt).fileCount P = s.fileCount P := rfl

@[simp] lemma openers_alloc (heapOk : ℕ → Bool) : (s.alloc heapOk).2.openers = s.openers := rfl
@[simp] lemma deniers_alloc (heapOk : ℕ → Bool) : (s.alloc heapOk).2.deniers = s.deniers := rfl
@[simp] lemma openers_setInode (sector : ℕ) (i : Option Inode) :
    (s.setInode sector i).openers = s.openers := rfl
@[simp] lemma deniers_setInode (sector : ℕ) (i : Option Inode) :
    (s.setInode sector i).deniers = s.deniers := rfl
@[simp] lemma openers_freeMapRelease (sector cnt : ℕ) :
    (s.freeMapRelease sector cnt).openers = s.openers := rfl
@[simp] lemma deniers_freeMapRelease (sector cnt : ℕ) :
    (s.freeMapRelease sector cnt).deniers = s.deniers := rfl

@[simp] lemma openers_modifyInode (sector : ℕ) (g : Inode → Inode) :
    (s.modifyInode sector g).openers = s.openers := rfl
@[simp] lemma deniers_modifyInode (sector : ℕ) (g : Inode → Inode) :
    (s.modifyInode sector g).deniers = s.deniers := rfl

@[simp] lemma openCnt_alloc (heapOk : ℕ → Bool) : (s.alloc heapOk).2.openCnt = s.openCnt := rfl
@[simp] lemma openCnt_setFile (a : ℕ) (f : Option File) : (s.setFile a f).openCnt = s.openCnt :=
  rfl

lemma openCnt_modifyInode (sector : ℕ) {g : Inode → Inode}
    (hg : ∀ i, (g i).openCnt = i.openCnt) :
    (s.modifyInode sector g).openCnt = s.openCnt := by
  funext t
  by_cases ht : t = sector
  · subst ht
    cases hi : s.inodes t <;> simp [openCnt, hi, hg]
  · simp [openCnt, ht]

lemma openCnt_setInode (sector t : ℕ) (i : Option Inode) :
    (s.setInode sector i).openCnt t =
      if t = sector then (i.map (·.openCnt)).getD 0 else s.openCnt t := by
  by_cases ht : t = sector
  · subst ht
    simp [openCnt]
  · simp [openCnt, ht]

lemma openCnt_of_none {sector : ℕ} (h : s.inodes sector = none) : s.openCnt sector = 0 := by
  simp [openCnt, h]

lemma openCnt_of_some {sector : ℕ} {i : Inode} (h : s.inodes sector = some i) :
    s.openCnt sector = i.openCnt := by
  simp [openCnt, h]

/-- A write of a cell that keeps its inode keeps the number of files on every inode. -/
lemma openers_setFile {a : ℕ} (ha : a < s.nextFile) {f f' : File} (hf : s.files a = some f)
    (hino : f'.inode = f.inode) (t : ℕ) : (s.setFile a (some f')).openers t = s.openers t := by
  have h := fileCount_setFile ha (some f') fun g => g.inode == t
  simp only [hf, Option.any_some, hino] at h
  unfold openers
  omega

/-- Setting the deny flag of a file moves the deniers of its inode by what the flag was and
becomes. -/
lemma deniers_setDeny {a : ℕ} (ha : a < s.nextFile) {f : File} (hf : s.files a = some f)
    (b : Bool) (t : ℕ) :
    (s.setFile a (some { f with denyWrite := b })).deniers t +
        (if f.inode = t ∧ f.denyWrite = true then 1 else 0) =
      s.deniers t + (if f.inode = t ∧ b = true then 1 else 0) := by
  have h := fileCount_setFile ha (some { f with denyWrite := b })
    fun g => g.inode == t && g.denyWrite
  simp only [hf, Option.any_some, Bool.and_eq_true, beq_iff_eq] at h
  exact h

/-- `inode_close` touches only `open_inodes` and the free map, `free` only the heap. -/
lemma inodeClose_setFile (sector : Option ℕ) (a : ℕ) (f : Option File) :
    (s.inodeClose sector).setFile a f = (s.setFile a f).inodeClose sector := by
  cases sector with
  | none => rfl
  | some sector =>
    unfold FsState.inodeClose
    cases hi : s.inodes sector with
    | none => simp [hi]
    | some i =>
      simp only [setFile_inodes, hi]
      split_ifs <;> rfl

/-! ### The invariant, operation by operation -/

namespace RefInv

variable {held : List ℕ}

/-- An operation that leaves the files and the open inodes as they are keeps the invariant. -/
lemma congr {s' : FsState} (h : s.RefInv held) (hfiles : s'.files = s.files)
    (hnext : s'.nextFile = s.nextFile) (hinodes : s'.inodes = s.inodes) : s'.RefInv held := by
  have hcount : ∀ P, s'.fileCount P = s.fileCount P := fun P => by
    simp [fileCount, hfiles, hnext]
  refine ⟨fun a ha => ?_, fun sector => ?_, fun sector i hi => ?_, fun sector i hi => ?_⟩
  · rw [hfiles]
    exact h.fresh a (hnext ▸ ha)
  · simpa [openCnt, openers, hinodes, hcount] using h.openCnt_eq sector
  · exact h.openCnt_pos sector i (hinodes ▸ hi)
  · simpa [deniers, hcount] using h.denyWriteCnt_eq sector i (hinodes ▸ hi)

lemma lt_nextFile (h : s.RefInv held) {a : ℕ} {f : File} (hf : s.files a = some f) :
    a < s.nextFile := by
  by_contra hge
  rw [h.fresh a (not_lt.mp hge)] at hf
  cases hf

/-- The `ASSERT (deny_write_cnt <= open_cnt)` of `inode_deny_write` and `inode_allow_write`. -/
lemma denyWriteCnt_le_openCnt (h : s.RefInv held) {sector : ℕ} {i : Inode}
    (hi : s.inodes sector = some i) : i.denyWriteCnt ≤ i.openCnt := by
  have hcnt := h.openCnt_eq sector
  rw [openCnt_of_some hi] at hcnt
  rw [h.denyWriteCnt_eq sector i hi]
  have := deniers_le_openers (s := s) sector
  omega

/-- A file keeps its inode open. -/
lemma inode_of_file (h : s.RefInv held) {a : ℕ} {f : File} (hf : s.files a = some f) :
    ∃ i, s.inodes f.inode = some i := by
  have hpos : 0 < s.openers f.inode := by
    unfold openers fileCount
    exact Nat.count_pos_of_lt (h.lt_nextFile hf) (by simp [hf])
  cases hi : s.inodes f.inode with
  | some i => exact ⟨i, rfl⟩
  | none =>
    have := h.openCnt_eq f.inode
    rw [openCnt_of_none hi] at this
    omega

/-- A reference held outside the files keeps its inode open. -/
lemma inode_of_held (h : s.RefInv held) {sector : ℕ} (hmem : sector ∈ held) :
    ∃ i, s.inodes sector = some i := by
  cases hi : s.inodes sector with
  | some i => exact ⟨i, rfl⟩
  | none =>
    have := h.openCnt_eq sector
    rw [openCnt_of_none hi] at this
    have := List.count_pos_iff.mpr hmem
    omega

/-- Writing the entry of `open_inodes` at `sector` keeps the invariant when the new entry counts
what refers to it and the other references stay. -/
lemma setInode (h : s.RefInv held) {sector : ℕ} {i : Option Inode} {held' : List ℕ}
    (hcount : ∀ t, t ≠ sector → held'.count t = held.count t)
    (hcnt : (i.map (·.openCnt)).getD 0 = s.openers sector + held'.count sector)
    (hpos : ∀ j ∈ i, 0 < j.openCnt) (hden : ∀ j ∈ i, j.denyWriteCnt = s.deniers sector) :
    (s.setInode sector i).RefInv held' := by
  refine ⟨h.fresh, fun t => ?_, fun t j hj => ?_, fun t j hj => ?_⟩
  · rw [openCnt_setInode]
    split_ifs with ht
    · subst ht
      simpa [openers] using hcnt
    · simpa [openers, hcount t ht] using h.openCnt_eq t
  · by_cases ht : t = sector
    · subst ht
      exact hpos j (by simpa using hj)
    · exact h.openCnt_pos t j (by simpa [ht] using hj)
  · by_cases ht : t = sector
    · subst ht
      simpa [deniers] using hden j (by simpa using hj)
    · simpa [deniers] using h.denyWriteCnt_eq t j (by simpa [ht] using hj)

variable (heapOk : ℕ → Bool)

lemma alloc (h : s.RefInv held) : (s.alloc heapOk).2.RefInv held :=
  h.congr rfl rfl rfl

/-- `inode_reopen` adds a reference to an open inode. -/
lemma inodeReopen (h : s.RefInv held) {sector : ℕ} {i : Inode} (hi : s.inodes sector = some i) :
    (s.inodeReopen (some sector)).RefInv (sector :: held) := by
  have hcnt := h.openCnt_eq sector
  rw [openCnt_of_some hi] at hcnt
  refine h.setInode (fun t ht => by simp [Ne.symm ht]) ?_ (fun j hj => ?_) (fun j hj => ?_)
  · simp [hi, hcnt]
    omega
  · obtain rfl := Option.mem_some_iff.mp (by simpa [hi] using hj)
    simp
  · obtain rfl := Option.mem_some_iff.mp (by simpa [hi] using hj)
    exact h.denyWriteCnt_eq sector i hi

/-- `inode_open` adds the reference it returns. -/
lemma inodeOpen (h : s.RefInv held) (sector : ℕ) :
    (s.inodeOpen heapOk sector).2.RefInv ((s.inodeOpen heapOk sector).1.toList ++ held) := by
  have hcnt := h.openCnt_eq sector
  have hcount : ∀ t, t ≠ sector → (sector :: held).count t = held.count t := fun t ht => by
    simp [Ne.symm ht]
  unfold FsState.inodeOpen
  cases hi : s.inodes sector with
  | some i =>
    -- `inode_reopen`: one more reference to an open inode
    simpa [FsState.inodeReopen, FsState.modifyInode, hi] using h.inodeReopen hi
  | none =>
    rw [openCnt_of_none hi] at hcnt
    cases hok : heapOk s.allocs with
    | false => simpa [FsState.alloc, hok] using h.alloc heapOk
    | true =>
      -- a new inode: nothing referred to it before
      have hden := deniers_le_openers (s := s) sector
      have h₁ := h.alloc heapOk
      simp only [FsState.alloc, hok, if_true, Option.toList_some, List.singleton_append]
      refine h₁.setInode hcount ?_ (fun j hj => ?_) (fun j hj => ?_)
      · simp
        omega
      · obtain rfl := Option.mem_some_iff.mp hj
        simp
      · obtain rfl := Option.mem_some_iff.mp hj
        simp only [deniers_alloc]
        omega

/-- `inode_close` of a reference held outside the files gives it up. -/
lemma inodeClose (h : s.RefInv held) {sector : ℕ} (hmem : sector ∈ held) :
    (s.inodeClose (some sector)).RefInv (held.erase sector) := by
  obtain ⟨i, hi⟩ := h.inode_of_held hmem
  have hcnt := h.openCnt_eq sector
  rw [openCnt_of_some hi] at hcnt
  have hpos := List.count_pos_iff.mpr hmem
  have herase : (held.erase sector).count sector = held.count sector - 1 :=
    List.count_erase_self
  have hcount : ∀ t, t ≠ sector → (held.erase sector).count t = held.count t :=
    fun t ht => List.count_erase_of_ne ht
  unfold FsState.inodeClose
  simp only [hi]
  split_ifs with hone hrem
  · -- the last reference to a removed inode: it goes, and its sectors are released
    have h' := h.setInode (i := none) hcount (by simp; omega) (by simp) (by simp)
    exact (h'.congr rfl rfl rfl).congr rfl rfl rfl
  · exact h.setInode hcount (by simp; omega) (by simp) (by simp)
  · refine h.setInode hcount (by simp; omega) (fun j hj => ?_) (fun j hj => ?_)
    · obtain rfl := Option.mem_some_iff.mp hj
      simp only
      omega
    · obtain rfl := Option.mem_some_iff.mp hj
      exact h.denyWriteCnt_eq sector i hi

/-- A new file takes over a reference held outside the files. -/
lemma pushFile (h : s.RefInv held) {sector : ℕ} (hmem : sector ∈ held) :
    (s.pushFile ⟨sector, 0, false⟩).RefInv (held.erase sector) := by
  have hcount : ∀ t, (held.erase sector).count t + (if t = sector then 1 else 0) =
      held.count t := fun t => by
    by_cases ht : t = sector
    · subst ht
      rw [List.count_erase_self, if_pos rfl]
      have := List.count_pos_iff.mpr hmem
      omega
    · rw [List.count_erase_of_ne ht, if_neg ht, Nat.add_zero]
  refine ⟨fun a ha => ?_, fun t => ?_, h.openCnt_pos, fun t j hj => ?_⟩
  · rw [pushFile_nextFile] at ha
    rw [pushFile_files, Function.update_of_ne (by omega)]
    exact h.fresh a (by omega)
  · have hopen := h.openCnt_eq t
    have hcnt : (s.pushFile ⟨sector, 0, false⟩).openers t =
        s.openers t + if t = sector then 1 else 0 := by
      rw [openers, fileCount_pushFile]
      by_cases ht : t = sector
      · subst ht
        simp [openers]
      · simp [openers, ht, Ne.symm ht]
    have := hcount t
    simp only [openCnt, pushFile_inodes] at hopen ⊢
    omega
  · have hden : (s.pushFile ⟨sector, 0, false⟩).deniers t = s.deniers t := by
      rw [deniers, fileCount_pushFile]
      simp [deniers]
    rw [hden]
    exact h.denyWriteCnt_eq t j hj

/-- `file_open` turns the reference it is given into a file, or closes it. -/
lemma fileOpen (h : s.RefInv held) {sector : ℕ} (hmem : sector ∈ held) :
    (s.fileOpen heapOk (some sector)).2.RefInv (held.erase sector) := by
  have h₁ := h.alloc heapOk
  rw [FsState.fileOpen_some]
  split_ifs
  · exact h₁.pushFile hmem
  · exact h₁.inodeClose hmem

/-- A change of an open inode that keeps both its counts keeps the invariant. -/
lemma modifyInode (h : s.RefInv held) (sector : ℕ) {g : Inode → Inode}
    (hopen : ∀ i, (g i).openCnt = i.openCnt)
    (hdeny : ∀ i, (g i).denyWriteCnt = i.denyWriteCnt) :
    (s.modifyInode sector g).RefInv held := by
  cases hi : s.inodes sector with
  | none => exact h.congr rfl rfl (by simp [hi])
  | some i =>
    have hcnt := h.openCnt_eq sector
    rw [openCnt_of_some hi] at hcnt
    refine h.setInode (fun _ _ => rfl) ?_ (fun j hj => ?_) (fun j hj => ?_)
    · simp [hi, hopen, hcnt]
    · obtain rfl := Option.mem_some_iff.mp (by simpa [hi] using hj)
      rw [hopen]
      exact h.openCnt_pos sector i hi
    · obtain rfl := Option.mem_some_iff.mp (by simpa [hi] using hj)
      rw [hdeny]
      exact h.denyWriteCnt_eq sector i hi

lemma inodeRemove (h : s.RefInv held) (sector : ℕ) : (s.inodeRemove sector).RefInv held :=
  h.modifyInode sector (fun _ => rfl) (fun _ => rfl)

lemma freeMapAllocate (h : s.RefInv held) (cnt : ℕ) :
    (s.freeMapAllocate heapOk cnt).2.RefInv held := by
  obtain ⟨hf, hn, hi, -, -⟩ := s.freeMapAllocate_frame heapOk cnt
  exact h.congr hf hn hi

lemma inodeCreate (h : s.RefInv held) (sector length : ℕ) :
    (s.inodeCreate heapOk sector length).2.RefInv held := by
  obtain ⟨hf, hn, hi⟩ := s.inodeCreate_frame heapOk sector length
  exact h.congr hf hn hi

/-- Setting the deny flag of a file to `b` and the deny count of its inode to `c` keeps the
invariant when `c` moves the count as the flag moves. -/
lemma setDeny (h : s.RefInv held) {a : ℕ} {f : File} (hf : s.files a = some f) (b : Bool)
    {c : Inode → ℕ} (hc : ∀ i, s.inodes f.inode = some i →
      c i + (if f.denyWrite then 1 else 0) = i.denyWriteCnt + (if b then 1 else 0)) :
    ((s.setFile a (some { f with denyWrite := b })).modifyInode f.inode
      fun i => { i with denyWriteCnt := c i }).RefInv held := by
  have ha := h.lt_nextFile hf
  refine ⟨fun a' ha' => ?_, fun t => ?_, fun t j hj => ?_, fun t j hj => ?_⟩
  · have hne : a' ≠ a := by simp at ha'; omega
    simpa [hne] using h.fresh a' (by simpa using ha')
  · have hopen : (s.setFile a (some { f with denyWrite := b })).openers t = s.openers t :=
      openers_setFile ha hf (show ({ f with denyWrite := b } : File).inode = f.inode from rfl) t
    rw [openCnt_modifyInode f.inode (g := fun i => { i with denyWriteCnt := c i }) fun _ => rfl,
      openCnt_setFile, openers_modifyInode, hopen]
    exact h.openCnt_eq t
  · by_cases ht : t = f.inode
    · subst ht
      obtain ⟨i, hi, rfl⟩ :
          ∃ i, s.inodes f.inode = some i ∧ { i with denyWriteCnt := c i } = j := by
        simpa using hj
      exact h.openCnt_pos f.inode i hi
    · exact h.openCnt_pos t j (by simpa [ht] using hj)
  · have hden := deniers_setDeny ha hf b t
    rw [deniers_modifyInode]
    by_cases ht : t = f.inode
    · subst ht
      obtain ⟨i, hi, rfl⟩ :
          ∃ i, s.inodes f.inode = some i ∧ { i with denyWriteCnt := c i } = j := by
        simpa using hj
      have := hc i hi
      have := h.denyWriteCnt_eq f.inode i hi
      simp only [true_and] at hden
      dsimp only
      omega
    · have hj' : s.inodes t = some j := by simpa [ht] using hj
      have hne : ¬ f.inode = t := Ne.symm ht
      simp only [hne, false_and, if_false, Nat.add_zero] at hden
      rw [hden]
      exact h.denyWriteCnt_eq t j hj'

/-- `file_deny_write`. -/
lemma fileDenyWrite (h : s.RefInv held) (a : ℕ) : (s.fileDenyWrite a).RefInv held := by
  unfold FsState.fileDenyWrite
  cases hf : s.files a with
  | none => exact h
  | some f =>
    dsimp only
    split_ifs with hd
    · exact h
    · exact h.setDeny hf true fun i _ => by simp [hd]

/-- `file_allow_write`: the file was counted among the deniers. -/
lemma fileAllowWrite (h : s.RefInv held) (a : ℕ) : (s.fileAllowWrite a).RefInv held := by
  unfold FsState.fileAllowWrite
  cases hf : s.files a with
  | none => exact h
  | some f =>
    dsimp only
    split_ifs with hd
    · refine h.setDeny hf false fun i hi => ?_
      have hpos : 0 < s.deniers f.inode := by
        unfold deniers fileCount
        exact Nat.count_pos_of_lt (h.lt_nextFile hf) (by simp [hf, hd])
      rw [← h.denyWriteCnt_eq f.inode i hi] at hpos
      simp [hd]
      omega
    · exact h

/-- A write of a file cell that keeps its inode and its deny flag keeps the invariant. -/
lemma setFile_keep (h : s.RefInv held) {a : ℕ} {f f' : File} (hf : s.files a = some f)
    (hino : f'.inode = f.inode) (hdeny : f'.denyWrite = f.denyWrite) :
    (s.setFile a (some f')).RefInv held := by
  have ha := h.lt_nextFile hf
  refine ⟨fun a' ha' => ?_, fun t => ?_, h.openCnt_pos, fun t j hj => ?_⟩
  · have hne : a' ≠ a := by simp at ha'; omega
    simpa [hne] using h.fresh a' (by simpa using ha')
  · simpa [openCnt, openers_setFile ha hf hino t] using h.openCnt_eq t
  · have hden := fileCount_setFile ha (some f') fun g => g.inode == t && g.denyWrite
    simp only [hf, Option.any_some, hino, hdeny] at hden
    have : (s.setFile a (some f')).deniers t = s.deniers t := by
      unfold deniers
      omega
    rw [this]
    exact h.denyWriteCnt_eq t j (by simpa using hj)

/-- Freeing a file that does not deny writes leaves its reference to the inode held. -/
lemma freeFile (h : s.RefInv held) {a : ℕ} {f : File} (hf : s.files a = some f)
    (hd : f.denyWrite = false) : (s.setFile a none).RefInv (f.inode :: held) := by
  have ha := h.lt_nextFile hf
  refine ⟨fun a' ha' => ?_, fun t => ?_, h.openCnt_pos, fun t j hj => ?_⟩
  · by_cases hne : a' = a
    · simp [hne]
    · simpa [hne] using h.fresh a' (by simpa using ha')
  · have hopen : (s.setFile a none).openers t + (if f.inode = t then 1 else 0) =
        s.openers t := by
      have := fileCount_setFile ha none fun g => g.inode == t
      simpa [hf, openers] using this
    have hcons : (f.inode :: held).count t = held.count t + if f.inode = t then 1 else 0 := by
      simp [List.count_cons]
    rw [openCnt_setFile, hcons]
    have := h.openCnt_eq t
    omega
  · have hden := fileCount_setFile ha none fun g => g.inode == t && g.denyWrite
    simp only [hf, Option.any_some, Option.any_none, hd, Bool.and_false, Bool.false_eq_true,
      if_false] at hden
    have : (s.setFile a none).deniers t = s.deniers t := by
      unfold deniers
      omega
    rw [this]
    exact h.denyWriteCnt_eq t j (by simpa using hj)

/-- `file_close`. -/
lemma fileClose (h : s.RefInv held) (a : Option ℕ) : (s.fileClose a).RefInv held := by
  cases a with
  | none => exact h
  | some a =>
    cases hf : s.files a with
    | none => simpa [FsState.fileClose, hf] using h
    | some f =>
      rw [s.fileClose_of_some hf]
      -- after `file_allow_write` the file no longer denies writes
      have h₁ := h.fileAllowWrite a
      have hf₁ : (s.fileAllowWrite a).files a = some { f with denyWrite := false } := by
        unfold FsState.fileAllowWrite
        cases hd : f.denyWrite
        · simp [hf, hd]
          cases f
          simp_all
        · simp [hf, hd]
      rw [inodeClose_setFile]
      have h₂ := h₁.freeFile hf₁ rfl
      simpa using h₂.inodeClose List.mem_cons_self

/-- `file_reopen`: the new file holds a new reference to the inode. -/
lemma fileReopen (h : s.RefInv held) (a : ℕ) : (s.fileReopen heapOk a).2.RefInv held := by
  unfold FsState.fileReopen
  cases hf : s.files a with
  | none => exact h
  | some f =>
    dsimp only
    obtain ⟨i, hi⟩ := h.inode_of_file hf
    simpa using (h.inodeReopen hi).fileOpen heapOk List.mem_cons_self

lemma inodeWriteAt (h : s.RefInv held) (sector size offset : ℕ) :
    (s.inodeWriteAt heapOk sector size offset).2.RefInv held := by
  rw [FsState.inodeWriteAt_snd]
  exact h.alloc heapOk

/-- `file_write` moves only the file's position. -/
lemma fileWrite (h : s.RefInv held) (a size : ℕ) : (s.fileWrite heapOk a size).2.RefInv held := by
  unfold FsState.fileWrite
  cases hf : s.files a with
  | none => exact h
  | some f =>
    dsimp only
    have h₁ := h.inodeWriteAt heapOk f.inode size f.pos
    have hf₁ : (s.inodeWriteAt heapOk f.inode size f.pos).2.files a = some f := by
      rw [FsState.inodeWriteAt_snd]
      exact hf
    exact h₁.setFile_keep hf₁ rfl rfl

end RefInv

end FsState

end TinyOs
