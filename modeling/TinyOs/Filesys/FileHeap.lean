import TinyOs.Filesys.FilesysInv

/-!
The heap of `struct file`s across the calls of the file system. A call allocates its new files
from `nextFile` on, and changes a file already there only when it is handed that file's
address: `file_close`, `file_write`, `file_deny_write` and `file_allow_write` touch their own
file and no other.

* `Keeps s s' P`: `s'` has the files of `s` at the addresses where `P` holds;
* one lemma per call, with `P` anything for the calls that touch no file and `(· ≠ a)` for the
  calls on file `a`;
* `fileOpen_eq_some`, `filesysOpen_eq_some`, `fileReopen_eq_some`: the file a call returns is
  new, at an address no file had before.
-/

namespace TinyOs

namespace FsState

/-- `s'` has the files of `s` at every address below `s.nextFile` where `P` holds, and has
moved `nextFile` only up. -/
structure Keeps (s s' : FsState) (P : ℕ → Prop) : Prop where
  nextFile_le : s.nextFile ≤ s'.nextFile
  files_eq : ∀ a, a < s.nextFile → P a → s'.files a = s.files a

namespace Keeps

variable {s s' s'' : FsState} {P Q : ℕ → Prop}

lemma refl (s : FsState) (P : ℕ → Prop) : s.Keeps s P := ⟨le_rfl, fun _ _ _ => rfl⟩

lemma trans (h₁ : s.Keeps s' P) (h₂ : s'.Keeps s'' P) : s.Keeps s'' P :=
  ⟨h₁.nextFile_le.trans h₂.nextFile_le, fun a ha hP =>
    (h₂.files_eq a (lt_of_lt_of_le ha h₁.nextFile_le) hP).trans (h₁.files_eq a ha hP)⟩

lemma mono (h : s.Keeps s' P) (hQP : ∀ a, Q a → P a) : s.Keeps s' Q :=
  ⟨h.nextFile_le, fun a ha hQ => h.files_eq a ha (hQP a hQ)⟩

/-- A step that leaves the file heap as it was keeps everything. -/
lemma of_eq (hf : s'.files = s.files) (hn : s'.nextFile = s.nextFile) : s.Keeps s' P :=
  ⟨hn.ge, fun a _ _ => by rw [hf]⟩

lemma of_fileView (hv : s'.fileView = s.fileView) : s.Keeps s' P := by
  simp only [fileView, Prod.mk.injEq] at hv
  exact of_eq hv.1 hv.2.1

end Keeps

variable (heapOk : ℕ → Bool) {s : FsState} {P : ℕ → Prop}

/-! ### Calls that touch no file -/

lemma keeps_alloc : s.Keeps (s.alloc heapOk).2 P := Keeps.of_eq rfl rfl
lemma keeps_setInode (sector : ℕ) (i : Option Inode) : s.Keeps (s.setInode sector i) P :=
  Keeps.of_eq rfl rfl
lemma keeps_drawn (m : ℕ) : s.Keeps (s.drawn m) P := Keeps.of_eq rfl rfl

lemma keeps_inodeOpen (sector : ℕ) : s.Keeps (s.inodeOpen heapOk sector).2 P := by
  unfold inodeOpen
  split
  · exact keeps_setInode _ _
  · dsimp only
    split_ifs
    · exact Keeps.of_eq rfl rfl
    · exact keeps_alloc heapOk

lemma keeps_inodeClose (sector : Option ℕ) : s.Keeps (s.inodeClose sector) P := by
  unfold inodeClose
  cases sector with
  | none => exact Keeps.refl s P
  | some t =>
    dsimp only
    split
    · exact Keeps.refl s P
    · split_ifs <;> exact Keeps.of_eq rfl rfl

/-- `calloc` of a new file: the cell at `nextFile`, above every file there was. -/
lemma keeps_pushFile (f : File) : s.Keeps (s.pushFile f) P := by
  refine ⟨by simp, fun a ha _ => ?_⟩
  simp [pushFile, setFile, Function.update_of_ne (Nat.ne_of_lt ha)]

lemma keeps_fileOpen (inode : Option ℕ) : s.Keeps (s.fileOpen heapOk inode).2 P := by
  cases inode with
  | none => exact keeps_alloc heapOk
  | some sector =>
    rw [fileOpen_some]
    split_ifs <;> dsimp only
    · exact (keeps_alloc heapOk).trans (keeps_pushFile _)
    · exact (keeps_alloc heapOk).trans (keeps_inodeClose _)

lemma keeps_dirOpenRoot : s.Keeps (s.dirOpenRoot heapOk).2 P := by
  unfold dirOpenRoot dirOpen
  rcases ho : s.inodeOpen heapOk rootDirSector with ⟨inode, s₁⟩
  have h₁ : s.Keeps s₁ P := by
    have h := keeps_inodeOpen heapOk rootDirSector (s := s) (P := P)
    rwa [ho] at h
  dsimp only
  cases inode with
  | none => exact h₁.trans (keeps_alloc heapOk)
  | some d =>
    dsimp only
    split_ifs <;> dsimp only
    · exact h₁.trans (keeps_alloc heapOk)
    · exact (h₁.trans (keeps_alloc heapOk)).trans (keeps_inodeClose _)

lemma keeps_dirLookup (dir : ℕ) (name : List UInt8) :
    s.Keeps (s.dirLookup heapOk dir name).2 P := by
  have h₁ : s.Keeps (s.lookup heapOk dir name).2 P :=
    Keeps.of_fileView (s.lookup_fileView heapOk dir name)
  unfold dirLookup
  rcases hl : s.lookup heapOk dir name with ⟨_ | ⟨e, _⟩, s₁⟩ <;> rw [hl] at h₁
  · exact h₁
  · exact h₁.trans (keeps_inodeOpen heapOk _)

lemma keeps_filesysOpen (name : List UInt8) : s.Keeps (s.filesysOpen heapOk name).2 P := by
  have h₁ := keeps_dirOpenRoot heapOk (s := s) (P := P)
  unfold filesysOpen
  rcases hr : s.dirOpenRoot heapOk with ⟨dir, s₁⟩
  rw [hr] at h₁
  dsimp only
  cases dir with
  | none => exact (h₁.trans (keeps_inodeClose _)).trans (keeps_fileOpen heapOk _)
  | some d =>
    have h₂ := keeps_dirLookup heapOk d name (s := s₁) (P := P)
    dsimp only
    rcases hl : s₁.dirLookup heapOk d name with ⟨inode, s₂⟩
    rw [hl] at h₂
    exact ((h₁.trans h₂).trans (keeps_inodeClose _)).trans (keeps_fileOpen heapOk _)

lemma keeps_fileReopen (a : ℕ) : s.Keeps (s.fileReopen heapOk a).2 P := by
  unfold fileReopen
  split
  · next f _ =>
    have h₁ : s.Keeps (s.inodeReopen (some f.inode)) P := Keeps.of_eq rfl rfl
    exact h₁.trans (keeps_fileOpen heapOk _)
  · exact Keeps.refl s P

/-! ### Calls on one file -/

lemma keeps_setFile (a : ℕ) (f : Option File) : s.Keeps (s.setFile a f) (· ≠ a) :=
  ⟨le_rfl, fun b _ hb => by simp [setFile, Function.update_of_ne hb]⟩

lemma keeps_fileDenyWrite (a : ℕ) : s.Keeps (s.fileDenyWrite a) (· ≠ a) := by
  unfold fileDenyWrite
  split
  · split_ifs
    · exact Keeps.refl s _
    · exact (keeps_setFile a _).trans (Keeps.of_eq rfl rfl)
  · exact Keeps.refl s _

lemma keeps_fileAllowWrite (a : ℕ) : s.Keeps (s.fileAllowWrite a) (· ≠ a) := by
  unfold fileAllowWrite
  split
  · split_ifs
    · exact (keeps_setFile a _).trans (Keeps.of_eq rfl rfl)
    · exact Keeps.refl s _
  · exact Keeps.refl s _

lemma keeps_fileClose (a : ℕ) : s.Keeps (s.fileClose (some a)) (· ≠ a) := by
  cases hf : s.files a with
  | none => simp [fileClose, hf, Keeps.refl]
  | some f =>
    rw [s.fileClose_of_some hf]
    exact ((keeps_fileAllowWrite a).trans (keeps_inodeClose _)).trans (keeps_setFile a none)

lemma keeps_fileWrite (a size : ℕ) : s.Keeps (s.fileWrite heapOk a size).2 (· ≠ a) := by
  unfold fileWrite
  split
  · dsimp only
    rw [inodeWriteAt_snd]
    exact (keeps_alloc heapOk).trans (keeps_setFile a _)
  · exact Keeps.refl s _

/-! ### New files -/

/-- The file `file_open` returns is the cell at `nextFile`. -/
lemma fileOpen_eq_some {inode : Option ℕ} {a : ℕ} (h : (s.fileOpen heapOk inode).1 = some a) :
    a = s.nextFile ∧ ∃ sector, inode = some sector ∧
      (s.fileOpen heapOk inode).2.files a = some ⟨sector, 0, false⟩ := by
  cases inode with
  | none => cases h
  | some sector =>
    rw [fileOpen_some] at h ⊢
    split_ifs at h ⊢
    · cases h
      exact ⟨rfl, sector, rfl, by simp [pushFile, setFile]⟩

/-- The file `filesys_open` returns is new: its address is above every file there was. -/
lemma filesysOpen_eq_some {name : List UInt8} {a : ℕ}
    (h : (s.filesysOpen heapOk name).1 = some a) :
    s.nextFile ≤ a ∧ a < (s.filesysOpen heapOk name).2.nextFile ∧
      ∃ sector, (s.filesysOpen heapOk name).2.files a = some ⟨sector, 0, false⟩ := by
  -- `file_open` runs on a state that only has files added
  obtain ⟨s₂, inode, hs₂, heq⟩ : ∃ s₂ inode, s.Keeps s₂ (fun _ => True) ∧
      s.filesysOpen heapOk name = s₂.fileOpen heapOk inode := by
    unfold filesysOpen
    rcases hr : s.dirOpenRoot heapOk with ⟨dir, s₁⟩
    have h₁ : s.Keeps s₁ (fun _ => True) := by
      have h₀ := keeps_dirOpenRoot heapOk (s := s) (P := fun _ => True)
      rwa [hr] at h₀
    cases dir with
    | none => exact ⟨_, none, h₁.trans (keeps_inodeClose none), rfl⟩
    | some d =>
      dsimp only
      rcases hl : s₁.dirLookup heapOk d name with ⟨inode, s₂⟩
      have h₂ := keeps_dirLookup heapOk d name (s := s₁) (P := fun _ => True)
      rw [hl] at h₂
      exact ⟨_, inode, (h₁.trans h₂).trans (keeps_inodeClose (some d)), rfl⟩
  rw [heq] at h ⊢
  obtain ⟨rfl, sector, rfl, hfile⟩ := fileOpen_eq_some heapOk h
  refine ⟨hs₂.nextFile_le, ?_, sector, hfile⟩
  rw [fileOpen_some] at h ⊢
  split_ifs at h ⊢
  simp

/-- The file `file_reopen` returns is new. -/
lemma fileReopen_eq_some {a b : ℕ} (h : (s.fileReopen heapOk a).1 = some b) :
    s.nextFile ≤ b ∧ b < (s.fileReopen heapOk a).2.nextFile ∧
      ∃ f, s.files a = some f ∧ (s.fileReopen heapOk a).2.files b = some ⟨f.inode, 0, false⟩ := by
  unfold fileReopen at h ⊢
  cases hf : s.files a with
  | none => rw [hf] at h; cases h
  | some f =>
    rw [hf] at h
    dsimp only at h ⊢
    obtain ⟨rfl, sector, hs, hfile⟩ := fileOpen_eq_some heapOk h
    cases hs
    refine ⟨le_rfl, ?_, f, rfl, hfile⟩
    rw [fileOpen_some] at h ⊢
    split_ifs at h ⊢
    simp

end FsState

end TinyOs
