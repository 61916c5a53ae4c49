import TinyOs.Userprog.Process
import TinyOs.Filesys.Open

/-!
`mmap (fd, addr)` of `userprog/syscall.c` on an open file of length `L > 0`, when the `malloc`
of `file_reopen` succeeds. The address is checked before the reopen: at least `PGSIZE`,
page-aligned, below `STACK_BOTTOM`. After the reopen, `validate_free_page` checks that none of
the `ceil (L / PGSIZE)` pages from `addr` on has an entry yet. Only `addr` itself is compared with
`STACK_BOTTOM`, and a mapping refused by `validate_free_page` returns with the reopened file
still open.

* `lt_pageCount_iff`: page `i` of `L` bytes exists when `i * PGSIZE < L`;
* `mmapLoop_find`, `mmapLoop_find_of_ne`, `mem_mmapLoop`: the loop adds entry `i` at
  `addr + i * PGSIZE`, reading `min (L - i * PGSIZE, PGSIZE)` bytes from `i * PGSIZE`, and
  nothing else;
* `Sys.mmap_eq`: the three outcomes of `mmap` on an open descriptor;
* `Sys.mmap_admission`: when `mmap` succeeds, where the pages go, and what a refused mapping
  leaves behind.
-/

namespace TinyOs

/-! ### Pages of a mapping -/

/-- There are `ceil (L / PGSIZE)` pages: page `i` exists when it starts inside the file. -/
lemma lt_pageCount_iff {i readBytes : ℕ} : i < pageCount readBytes ↔ i * pgSize < readBytes := by
  unfold pageCount pgSize
  split_ifs <;> omega

/-- The address `mmap` steps to, `addr += PGSIZE` in 32 bits, reaches page `i + 1` of `addr` after
`i` more pages. -/
lemma wrap32_next (addr i : ℕ) :
    wrap32 (wrap32 (addr + pgSize) + i * pgSize) = wrap32 (addr + (i + 1) * pgSize) := by
  unfold wrap32
  rw [Nat.mod_add_mod, Nat.add_assoc, Nat.succ_mul, Nat.add_comm (i * pgSize)]

/-- The pages after the first of a loop that has more: page `i` of what is left is page
`i + 1` of the whole. -/
lemma lt_pageCount_rest {i readBytes : ℕ} :
    i < pageCount (readBytes - min readBytes pgSize) ↔ i + 1 < pageCount readBytes := by
  rw [lt_pageCount_iff, lt_pageCount_iff]
  rcases le_total readBytes pgSize with h | h
  · rw [min_eq_left h, Nat.sub_self]
    unfold pgSize at h ⊢
    omega
  · rw [min_eq_right h, Nat.lt_sub_iff_add_lt, Nat.succ_mul]

/-- Fewer than `2 ^ 20` pages never come back to the address they start at. -/
lemma wrap32_page_ne {addr j readBytes : ℕ} (hsize : readBytes ≤ 2 ^ 32)
    (hj : (j + 1) * pgSize < readBytes) : wrap32 (addr + (j + 1) * pgSize) ≠ addr := by
  unfold wrap32
  unfold pgSize at hj ⊢
  omega

namespace Spt

variable {t : Spt} {v w : ℕ} {e e' : SpecialPage}

/-- An entry `find` returns is in the table. -/
lemma mem_of_find (h : t.find v = some e) : (v, e) ∈ t.entries := by
  unfold find at h
  obtain ⟨x, hx, rfl⟩ := Option.map_eq_some_iff.mp h
  have hv : x.1 = v := by simpa using List.find?_some hx
  rw [← hv]
  exact List.mem_of_find?_eq_some hx

lemma mem_insert {x : ℕ × SpecialPage} (h : x ∈ (t.insert v e).entries) :
    x ∈ t.entries ∨ x = (v, e) := by
  unfold insert at h
  split_ifs at h
  · exact Or.inl h
  · rcases List.mem_cons.mp h with rfl | h
    · exact Or.inr rfl
    · exact Or.inl h

lemma mem_delete {x : ℕ × SpecialPage} (h : x ∈ (t.delete v).entries) : x ∈ t.entries :=
  (List.mem_filter.mp h).1

/-- `hash_insert` keeps an entry already there. -/
lemma find_insert_of_some (h : t.find w = some e) (v : ℕ) (e' : SpecialPage) :
    (t.insert v e').find w = some e := by
  rw [find_insert]
  split_ifs with hw
  · obtain ⟨rfl, hn⟩ := hw
    rw [hn] at h
    cases h
  · exact h

end Spt

/-! ### The loop of `mmap` -/

section Loop

variable {file : ℕ}

/-- One turn of the loop, while bytes are left. -/
lemma mmapLoop_of_pos {spt : Spt} {addr ofs readBytes : ℕ} (h : readBytes ≠ 0) :
    mmapLoop file spt addr ofs readBytes =
      mmapLoop file (spt.insert addr (.file file ofs (min readBytes pgSize)))
        (wrap32 (addr + pgSize)) (ofs + pgSize) (readBytes - min readBytes pgSize) := by
  rw [mmapLoop, if_neg h]

/-- A page that already has an entry keeps it. -/
lemma mmapLoop_find_of_some {spt : Spt} {addr ofs readBytes v : ℕ} {e : SpecialPage}
    (h : spt.find v = some e) : (mmapLoop file spt addr ofs readBytes).find v = some e := by
  fun_induction mmapLoop file spt addr ofs readBytes with
  | case1 => exact h
  | case2 spt addr ofs readBytes _ _ ih => exact ih (Spt.find_insert_of_some h _ _)

/-- The loop adds only `FILE` entries of the file. -/
lemma mem_mmapLoop {spt : Spt} {addr ofs readBytes : ℕ} {x : ℕ × SpecialPage}
    (h : x ∈ (mmapLoop file spt addr ofs readBytes).entries) :
    x ∈ spt.entries ∨ ∃ o z, x.2 = .file file o z := by
  fun_induction mmapLoop file spt addr ofs readBytes with
  | case1 => exact Or.inl h
  | case2 spt addr ofs readBytes _ pageReadBytes ih =>
    rcases ih h with h' | h'
    · rcases Spt.mem_insert h' with h'' | rfl
      · exact Or.inl h''
      · exact Or.inr ⟨ofs, pageReadBytes, rfl⟩
    · exact Or.inr h'

/-- A page the loop does not reach keeps what it had. -/
lemma mmapLoop_find_of_ne {spt : Spt} {addr ofs readBytes v : ℕ} (haddr : addr < 2 ^ 32)
    (hv : ∀ i < pageCount readBytes, wrap32 (addr + i * pgSize) ≠ v) :
    (mmapLoop file spt addr ofs readBytes).find v = spt.find v := by
  fun_induction mmapLoop file spt addr ofs readBytes with
  | case1 => rfl
  | case2 spt addr ofs readBytes hpos _ ih =>
    have hfirst : addr ≠ v := by
      have := hv 0 (lt_pageCount_iff.mpr (by omega))
      rwa [Nat.zero_mul, Nat.add_zero, wrap32, Nat.mod_eq_of_lt haddr] at this
    -- the rest of the loop starts one page on
    have hrest : ∀ i < pageCount (readBytes - min readBytes pgSize),
        wrap32 (wrap32 (addr + pgSize) + i * pgSize) ≠ v := by
      intro i hi
      rw [wrap32_next]
      exact hv (i + 1) (lt_pageCount_rest.mp hi)
    rw [ih (Nat.mod_lt _ (by decide)) hrest, Spt.find_insert, if_neg fun h => hfirst h.1.symm]

/-- Page `i` of the mapping: the entry reads `min (L - i * PGSIZE, PGSIZE)` bytes of the file
from `ofs + i * PGSIZE`, when none of the pages had an entry and the file fits in 32 bits. -/
lemma mmapLoop_find {spt : Spt} {addr ofs readBytes i : ℕ} (haddr : addr < 2 ^ 32)
    (hsize : readBytes ≤ 2 ^ 32)
    (hfree : ∀ j < pageCount readBytes, spt.find (wrap32 (addr + j * pgSize)) = none)
    (hi : i < pageCount readBytes) :
    (mmapLoop file spt addr ofs readBytes).find (wrap32 (addr + i * pgSize)) =
      some (.file file (ofs + i * pgSize) (min (readBytes - i * pgSize) pgSize)) := by
  have hpos : readBytes ≠ 0 := by
    have := lt_pageCount_iff.mp hi
    omega
  rw [mmapLoop_of_pos hpos]
  induction i generalizing spt addr ofs readBytes with
  | zero =>
    -- the first page is the entry this turn inserts
    have hw : wrap32 addr = addr := Nat.mod_eq_of_lt haddr
    have hnone := hfree 0 (lt_pageCount_iff.mpr (by omega))
    rw [Nat.zero_mul, Nat.add_zero, hw] at hnone ⊢
    rw [Nat.add_zero, Nat.sub_zero]
    apply mmapLoop_find_of_some
    rw [Spt.find_insert, if_pos ⟨rfl, hnone⟩]
  | succ k ih =>
    have hbig : pgSize < readBytes := by
      have hk := lt_pageCount_iff.mp hi
      rw [Nat.succ_mul] at hk
      omega
    -- the pages after the first are still free once the first is inserted
    have hfree' : ∀ j < pageCount (readBytes - min readBytes pgSize),
        (spt.insert addr (.file file ofs (min readBytes pgSize))).find
          (wrap32 (wrap32 (addr + pgSize) + j * pgSize)) = none := by
      intro j hj
      have hj' := lt_pageCount_rest.mp hj
      rw [wrap32_next, Spt.find_insert,
        if_neg fun h => wrap32_page_ne hsize (lt_pageCount_iff.mp hj') h.1]
      exact hfree (j + 1) hj'
    have hk' : k < pageCount (readBytes - min readBytes pgSize) := lt_pageCount_rest.mpr hi
    have hpos' : readBytes - min readBytes pgSize ≠ 0 := by
      have := lt_pageCount_iff.mp hk'
      omega
    have h := @ih _ (wrap32 (addr + pgSize)) (ofs + pgSize) _ (Nat.mod_lt _ (by decide)) (by omega)
      hfree' hk' hpos'
    rw [← mmapLoop_of_pos hpos', wrap32_next] at h
    rw [h, min_eq_right hbig.le, Nat.sub_sub, Nat.add_assoc, Nat.succ_mul,
      Nat.add_comm (k * pgSize)]

end Loop

/-- `validate_free_page`: none of the pages has an entry. -/
lemma validateFreePage_iff {spt : Spt} {upage readBytes : ℕ} :
    validateFreePage spt upage readBytes = true ↔
      ∀ i < pageCount readBytes, spt.find (wrap32 (upage + i * pgSize)) = none := by
  simp [validateFreePage, List.all_eq_true]

/-- `mmap` on an open descriptor: the file is reopened only for an address at least `PGSIZE`,
page-aligned and below `STACK_BOTTOM`. -/
lemma sysMmap_of_open {files : ℕ → Option ℕ} {fd : ℤ} {a : ℕ} (hfd : 0 ≤ fd ∧ fd < numFd)
    (ha : files fd.toNat = some a) (addr : ℕ) :
    sysMmap files fd addr =
      if pgSize ≤ addr ∧ addr % pgSize = 0 ∧ addr < stackBottom then .call .fileReopen (some a)
      else .ret (-1) := by
  unfold sysMmap getFile
  rw [if_neg (by omega)]
  dsimp only
  rw [ha]
  by_cases hc : pgSize ≤ addr ∧ addr % pgSize = 0 ∧ addr < stackBottom
  · rw [if_pos hc, if_neg]
    simp only [Option.isNone_some, Bool.false_or, Bool.or_eq_true, decide_eq_true_eq]
    omega
  · rw [if_neg hc, if_pos]
    simp only [Option.isNone_some, Bool.false_or, Bool.or_eq_true, decide_eq_true_eq]
    omega

namespace FsState

variable {heapOk : ℕ → Bool} {s : FsState}

/-- `file_reopen` when its `malloc` succeeds: a new file on the inode, at `nextFile`. -/
lemma fileReopen_of_ok {a : ℕ} {f : File} (hf : s.files a = some f)
    (hok : heapOk s.allocs = true) :
    s.fileReopen heapOk a =
      (some s.nextFile, ((s.inodeReopen (some f.inode)).drawn 1).pushFile ⟨f.inode, 0, false⟩) := by
  unfold fileReopen
  rw [hf]
  exact fileOpen_of_ok hok

/-- The reopened file has the length of the one it was reopened from. -/
lemma fileLength_reopen {a : ℕ} {f : File} (hf : s.files a = some f) :
    (((s.inodeReopen (some f.inode)).drawn 1).pushFile ⟨f.inode, 0, false⟩).fileLength
      s.nextFile = s.fileLength a := by
  simp [fileLength, hf, pushFile, setFile, inodeReopen, modifyInode, setInode, drawn,
    Option.map_map, Function.comp_def]

end FsState

namespace Sys

variable {heapOk : ℕ → Bool} {s : Sys} {t : Tid} {p : Process} {fd : ℤ} {addr a : ℕ}
  {f : File}

/-- The three outcomes of `mmap` on an open descriptor, when `file_reopen` succeeds: `-1` for a
refused address, `-1` with the reopened file kept for an empty file or a page taken, and the
mapping otherwise. -/
lemma mmap_eq (hfd : 0 ≤ fd ∧ fd < numFd) (ha : p.files fd.toNat = some a)
    (hf : s.fs.files a = some f) (hok : heapOk s.fs.allocs = true) :
    s.mmap heapOk t p fd addr =
      if pgSize ≤ addr ∧ addr % pgSize = 0 ∧ addr < stackBottom then
        if s.fs.fileLength a = 0 ∨ validateFreePage p.spt addr (s.fs.fileLength a) = false then
          (some (-1), s.setFs (s.fs.fileReopen heapOk a).2)
        else
          (some (int32Of addr), (s.setFs (s.fs.fileReopen heapOk a).2).setProc t
            (some { p with spt := mmapLoop s.fs.nextFile p.spt addr 0 (s.fs.fileLength a) }))
      else (some (-1), s) := by
  unfold mmap
  rw [sysMmap_of_open hfd ha]
  by_cases hc : pgSize ≤ addr ∧ addr % pgSize = 0 ∧ addr < stackBottom
  · have hre := s.fs.fileReopen_of_ok hf hok
    have hstate : ((s.fs.inodeReopen (some f.inode)).drawn 1).pushFile ⟨f.inode, 0, false⟩ =
        (s.fs.fileReopen heapOk a).2 := by
      rw [hre]
    rw [if_pos hc, if_pos hc]
    dsimp only
    rw [hre]
    dsimp only
    rw [s.fs.fileLength_reopen hf, hstate]
  · rw [if_neg hc, if_neg hc]

/-- An address below `STACK_BOTTOM` is returned as itself, never as `-1`. -/
lemma int32Of_ne (h : addr < stackBottom) : int32Of addr ≠ -1 := by
  unfold int32Of
  unfold stackBottom physBase pgSize maxStackSize at h
  split_ifs <;> omega

/-- `mmap` on an open file of length `L > 0`, when `file_reopen` succeeds. It succeeds exactly
when `addr` is at least `PGSIZE`, page-aligned and below `STACK_BOTTOM` and `validate_free_page`
finds the pages free: the pages after the first are not compared with `STACK_BOTTOM`. On success
page `i` reads `min (L - i * PGSIZE, PGSIZE)` bytes from `i * PGSIZE` of the reopened file; a
mapping refused for a page taken leaves the tables as they were and the reopened file open. -/
theorem mmap_admission (hfd : 0 ≤ fd ∧ fd < numFd) (ha : p.files fd.toNat = some a)
    (hf : s.fs.files a = some f) (hok : heapOk s.fs.allocs = true)
    (hlen : 0 < s.fs.fileLength a) :
    ((s.mmap heapOk t p fd addr).1 ≠ some (-1) ↔
      pgSize ≤ addr ∧ addr % pgSize = 0 ∧ addr < stackBottom ∧
        validateFreePage p.spt addr (s.fs.fileLength a) = true) ∧
    ((s.mmap heapOk t p fd addr).1 ≠ some (-1) → s.fs.fileLength a ≤ 2 ^ 32 →
      ∃ p', (s.mmap heapOk t p fd addr).2.procs t = some p' ∧
        ∀ i < pageCount (s.fs.fileLength a), p'.spt.find (wrap32 (addr + i * pgSize)) =
          some (.file s.fs.nextFile (i * pgSize) (min (s.fs.fileLength a - i * pgSize) pgSize))) ∧
    (pgSize ≤ addr → addr % pgSize = 0 → addr < stackBottom →
      validateFreePage p.spt addr (s.fs.fileLength a) = false →
      (s.mmap heapOk t p fd addr).2.procs = s.procs ∧
        (s.mmap heapOk t p fd addr).2.fs.files s.fs.nextFile = some ⟨f.inode, 0, false⟩) := by
  rw [mmap_eq hfd ha hf hok]
  have hreopen := s.fs.fileReopen_of_ok hf hok
  refine ⟨?_, ?_, ?_⟩
  · -- admission
    by_cases hc : pgSize ≤ addr ∧ addr % pgSize = 0 ∧ addr < stackBottom
    · have hne := int32Of_ne hc.2.2
      by_cases hv : validateFreePage p.spt addr (s.fs.fileLength a) = true
      · simp [hc, hv, hne, hlen.ne']
      · simp [hc, hv]
    · rw [if_neg hc]
      simp only [ne_eq, not_true_eq_false, false_iff]
      exact fun h => hc ⟨h.1, h.2.1, h.2.2.1⟩
  · -- layout
    intro hsucc hsize
    split_ifs at hsucc ⊢ with hc hv
    · exact absurd rfl hsucc
    · refine ⟨{ p with spt := mmapLoop s.fs.nextFile p.spt addr 0 (s.fs.fileLength a) }, by simp,
        fun i hi => ?_⟩
      have hfree := validateFreePage_iff.mp (by simpa [hlen.ne'] using hv)
      have haddr : addr < 2 ^ 32 := by
        unfold stackBottom physBase pgSize maxStackSize at hc
        omega
      have h := @mmapLoop_find s.fs.nextFile p.spt addr 0 _ i haddr hsize hfree hi
      rwa [Nat.zero_add] at h
    · exact absurd rfl hsucc
  · -- refusal after the reopen
    intro hlo hal hhi hv
    rw [if_pos ⟨hlo, hal, hhi⟩, if_pos (Or.inr hv), hreopen]
    simp [FsState.pushFile, FsState.setFile, FsState.inodeReopen]

/-- Two processes, each with descriptor `2` open on its own file of two pages (inode `5`);
the second has a `ZERO` page at `PGSIZE`. -/
def mmapSys : Sys where
  fs :=
    { freeMap := ⟨[]⟩
      disk := fun _ => ⟨0, 0⟩
      dirs := fun _ _ => DirEntry.zero
      inodes := fun t => if t = 5 then some ⟨2, false, 0, ⟨6, 2 * pgSize⟩⟩ else none
      files := fun a => if a < 2 then some ⟨5, 0, false⟩ else none
      nextFile := 2
      allocs := 0 }
  procs := fun t =>
    if t = 1 then some ⟨fun fd => if fd = 2 then some 0 else none, none, Spt.empty⟩
    else if t = 2 then
      some ⟨fun fd => if fd = 2 then some 1 else none, none, Spt.empty.insert pgSize .zero⟩
    else none
  nextTid := 3

/-- The first process maps its file at `STACK_BOTTOM - PGSIZE`: `mmap` succeeds and puts the
second page at `STACK_BOTTOM`. The second maps its file at `PGSIZE`, where it has a page:
`mmap` fails with the tables as they were and a third file open. -/
theorem mmapSys_mmap_stack_and_taken :
    (mmapSys.mmap (fun _ => true) 1 ((mmapSys.procs 1).getD ⟨fun _ => none, none, Spt.empty⟩) 2
        (stackBottom - pgSize)).1 ≠ some (-1) ∧
      (∃ p', (mmapSys.mmap (fun _ => true) 1
          ((mmapSys.procs 1).getD ⟨fun _ => none, none, Spt.empty⟩) 2
          (stackBottom - pgSize)).2.procs 1 = some p' ∧
        p'.spt.find stackBottom = some (.file 2 pgSize pgSize)) ∧
      (mmapSys.mmap (fun _ => true) 2 ((mmapSys.procs 2).getD ⟨fun _ => none, none, Spt.empty⟩) 2
        pgSize).2.procs = mmapSys.procs ∧
      (mmapSys.mmap (fun _ => true) 2 ((mmapSys.procs 2).getD ⟨fun _ => none, none, Spt.empty⟩) 2
        pgSize).2.fs.files 2 = some ⟨5, 0, false⟩ := by
  have h₁ := @mmap_admission (fun _ => true) mmapSys 1
    ((mmapSys.procs 1).getD ⟨fun _ => none, none, Spt.empty⟩) 2 (stackBottom - pgSize) 0
    ⟨5, 0, false⟩ (by decide) rfl rfl rfl (by decide)
  have h₂ := @mmap_admission (fun _ => true) mmapSys 2
    ((mmapSys.procs 2).getD ⟨fun _ => none, none, Spt.empty⟩) 2 pgSize 1
    ⟨5, 0, false⟩ (by decide) rfl rfl rfl (by decide)
  have hsucc := h₁.1.mpr ⟨by decide, by decide, by decide, by decide⟩
  obtain ⟨p', hp', hpages⟩ := h₁.2.1 hsucc (by decide)
  refine ⟨hsucc, ⟨p', hp', ?_⟩, h₂.2.2 (by decide) (by decide) (by decide) (by decide)⟩
  -- the second page of the mapping
  have h := hpages 1 (by decide)
  rwa [show wrap32 (stackBottom - pgSize + 1 * pgSize) = stackBottom by decide,
    show min (mmapSys.fs.fileLength 0 - 1 * pgSize) pgSize = pgSize by decide,
    Nat.one_mul] at h

end Sys

end TinyOs
