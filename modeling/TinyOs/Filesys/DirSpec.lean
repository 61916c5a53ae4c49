import TinyOs.Filesys.Directory

/-!
What the directory loops do, slot by slot. A directory's whole records are its first
`slotCount = inode_length / sizeof (struct dir_entry)` slots; `findSlot P k` is the first of them
from `k` on whose record passes `P`.

* `readEntry_slot`, `readEntry_end`, `readEntry_fail`: one read, inside the directory, past its
  end, or with its bounce buffer refused;
* `lookupFrom_of_ok`, `freeSlotFrom_of_ok`: while allocations succeed, `lookup` finds the first
  record in use with the name, and `dir_add`'s search the first free slot, or the end of the
  directory; the state changes only by the allocations drawn (`drawn`).
-/

namespace TinyOs

namespace FsState

variable (s : FsState)

/-- The state after `m` more allocation outcomes are drawn. -/
def drawn (m : ℕ) : FsState := { s with allocs := s.allocs + m }

/-- The slots of the directory at `sector` that `inode_read_at` can read whole. -/
def slotCount (sector : ℕ) : ℕ := s.inodeLength sector / dirEntrySize

/-- The first slot from `k` on, below `slotCount`, whose record passes `P`. -/
def findSlot (sector : ℕ) (P : DirEntry → Bool) (k : ℕ) : Option ℕ :=
  (List.range' k (s.slotCount sector - k)).find? fun j => P (s.dirs sector j)

@[simp] lemma drawn_inodes (m : ℕ) : (s.drawn m).inodes = s.inodes := rfl
@[simp] lemma drawn_files (m : ℕ) : (s.drawn m).files = s.files := rfl
@[simp] lemma drawn_nextFile (m : ℕ) : (s.drawn m).nextFile = s.nextFile := rfl
@[simp] lemma drawn_freeMap (m : ℕ) : (s.drawn m).freeMap = s.freeMap := rfl
@[simp] lemma drawn_dirs (m : ℕ) : (s.drawn m).dirs = s.dirs := rfl
@[simp] lemma drawn_disk (m : ℕ) : (s.drawn m).disk = s.disk := rfl
@[simp] lemma drawn_allocs (m : ℕ) : (s.drawn m).allocs = s.allocs + m := rfl
@[simp] lemma drawn_drawn (m n : ℕ) : (s.drawn m).drawn n = s.drawn (m + n) := by
  simp [drawn, Nat.add_assoc]
@[simp] lemma drawn_inodeLength (m sector : ℕ) :
    (s.drawn m).inodeLength sector = s.inodeLength sector := rfl
@[simp] lemma drawn_slotCount (m sector : ℕ) :
    (s.drawn m).slotCount sector = s.slotCount sector := rfl
@[simp] lemma drawn_findSlot (m sector : ℕ) (P : DirEntry → Bool) (k : ℕ) :
    (s.drawn m).findSlot sector P k = s.findSlot sector P k := rfl

lemma alloc_snd (heapOk : ℕ → Bool) : (s.alloc heapOk).2 = s.drawn 1 := rfl

variable {s}

/-! ### Finding a slot -/

lemma findSlot_of_le {sector k : ℕ} (P : DirEntry → Bool) (hk : s.slotCount sector ≤ k) :
    s.findSlot sector P k = none := by
  simp [findSlot, Nat.sub_eq_zero_of_le hk]

lemma findSlot_of_lt {sector k : ℕ} (P : DirEntry → Bool) (hk : k < s.slotCount sector) :
    s.findSlot sector P k =
      if P (s.dirs sector k) then some k else s.findSlot sector P (k + 1) := by
  unfold findSlot
  obtain ⟨n, hn⟩ : ∃ n, s.slotCount sector - k = n + 1 := ⟨_, (Nat.succ_pred_eq_of_pos
    (Nat.sub_pos_of_lt hk)).symm⟩
  have hn' : s.slotCount sector - (k + 1) = n := by omega
  rw [hn, hn', List.range'_succ, List.find?_cons]
  split <;> simp_all

/-- The slot found passes `P`, lies between `k` and `slotCount`, and is the first there. -/
lemma findSlot_eq_some {sector k j : ℕ} {P : DirEntry → Bool}
    (h : s.findSlot sector P k = some j) :
    k ≤ j ∧ j < s.slotCount sector ∧ P (s.dirs sector j) = true ∧
      ∀ i, k ≤ i → i < j → P (s.dirs sector i) = false := by
  unfold findSlot at h
  obtain ⟨hP, as, bs, hsplit, hbefore⟩ := List.find?_eq_some_iff_append.mp h
  have hj : j ∈ List.range' k (s.slotCount sector - k) := by
    rw [hsplit]
    simp
  rw [List.mem_range'_1] at hj
  refine ⟨hj.1, by omega, hP, fun i hki hij => ?_⟩
  -- the slots before `j` in the range are the prefix `as`
  obtain ⟨m, -, has, hrest⟩ := List.range'_eq_append_iff.mp hsplit
  obtain ⟨hjm, -, -⟩ := List.range'_eq_cons_iff.mp hrest.symm
  have hi : i ∈ as := by
    rw [has, List.mem_range'_1]
    omega
  simpa using hbefore i hi

/-! ### One read -/

variable {heapOk : ℕ → Bool}

lemma readEntry_slot {sector k : ℕ} (hok : heapOk s.allocs = true)
    (hk : k < s.slotCount sector) :
    s.readEntry heapOk sector (dirEntrySize * k) = (some (s.dirs sector k), s.drawn 1) := by
  have hle : dirEntrySize * k + dirEntrySize ≤ s.inodeLength sector := by
    unfold slotCount at hk
    unfold dirEntrySize at hk ⊢
    omega
  have hdiv : dirEntrySize * k / dirEntrySize = k := by
    unfold dirEntrySize
    omega
  rw [readEntry_eq, if_pos ⟨hok, hle⟩, hdiv, alloc_snd]

lemma readEntry_end {sector k : ℕ} (hk : s.slotCount sector ≤ k) :
    s.readEntry heapOk sector (dirEntrySize * k) = (none, s.drawn 1) := by
  have hgt : ¬ dirEntrySize * k + dirEntrySize ≤ s.inodeLength sector := by
    unfold slotCount at hk
    unfold dirEntrySize at hk ⊢
    omega
  rw [readEntry_eq, if_neg fun h => hgt h.2, alloc_snd]

lemma readEntry_fail {sector ofs : ℕ} (hfail : heapOk s.allocs = false) :
    s.readEntry heapOk sector ofs = (none, s.drawn 1) := by
  rw [readEntry_eq, if_neg fun h => by simp [hfail] at h, alloc_snd]

lemma readEntry_snd (heapOk : ℕ → Bool) (sector ofs : ℕ) :
    (s.readEntry heapOk sector ofs).2 = s.drawn 1 := by
  rw [readEntry_eq]
  rfl

/-- The state a read leaves is the one it started from with one more allocation drawn. -/
lemma eq_drawn_of_readEntry {sector ofs : ℕ} {r : Option DirEntry} {s' : FsState}
    (h : s.readEntry heapOk sector ofs = (r, s')) : s' = s.drawn 1 :=
  (congrArg Prod.snd h).symm.trans (s.readEntry_snd heapOk sector ofs)

/-! ### The loops change only the allocations drawn -/

lemma lookupFrom_snd (heapOk : ℕ → Bool) (sector : ℕ) (name : List UInt8) (ofs : ℕ) :
    ∃ m, (s.lookupFrom heapOk sector name ofs).2 = s.drawn m := by
  fun_induction lookupFrom heapOk s sector name ofs with
  | case1 s ofs e s' h _ => exact ⟨1, eq_drawn_of_readEntry h⟩
  | case2 s ofs e s' h _ ih =>
    obtain ⟨m, hm⟩ := ih
    refine ⟨1 + m, ?_⟩
    rw [hm, eq_drawn_of_readEntry h, drawn_drawn]
  | case3 s ofs s' h => exact ⟨1, eq_drawn_of_readEntry h⟩

lemma freeSlotFrom_snd (heapOk : ℕ → Bool) (sector ofs : ℕ) :
    ∃ m, (s.freeSlotFrom heapOk sector ofs).2 = s.drawn m := by
  fun_induction freeSlotFrom heapOk s sector ofs with
  | case1 s ofs e s' h _ => exact ⟨1, eq_drawn_of_readEntry h⟩
  | case2 s ofs e s' h _ ih =>
    obtain ⟨m, hm⟩ := ih
    refine ⟨1 + m, ?_⟩
    rw [hm, eq_drawn_of_readEntry h, drawn_drawn]
  | case3 s ofs s' h => exact ⟨1, eq_drawn_of_readEntry h⟩

/-! ### The loops while allocations succeed -/

/-- While allocations succeed, `lookup` from slot `k` finds the first record in use named
`name`, with its offset. -/
lemma lookupFrom_of_ok (hok : ∀ n, s.allocs ≤ n → heapOk n = true) (sector : ℕ)
    (name : List UInt8) (k : ℕ) :
    ∃ m, s.lookupFrom heapOk sector name (dirEntrySize * k) =
      ((s.findSlot sector (fun e => e.inUse && name == e.name) k).map
        (fun j => (s.dirs sector j, dirEntrySize * j)), s.drawn m) := by
  -- induction on the slots left, with the state and the slot generalized
  induction hn : s.slotCount sector - k generalizing s k with
  | zero =>
    refine ⟨1, ?_⟩
    rw [lookupFrom, readEntry_end (by omega), findSlot_of_le _ (by omega)]
    rfl
  | succ n ih =>
    have hk : k < s.slotCount sector := by omega
    rw [lookupFrom, readEntry_slot (hok _ le_rfl) hk, findSlot_of_lt _ hk]
    dsimp only
    by_cases hP : (s.dirs sector k).inUse = true ∧ name = (s.dirs sector k).name
    · refine ⟨1, ?_⟩
      rw [if_pos hP, if_pos (by simp [hP.1, hP.2])]
      rfl
    · rw [if_neg hP, if_neg (by simpa using hP)]
      obtain ⟨m, hm⟩ := ih (s := s.drawn 1) (k := k + 1)
        (fun n hn => hok n (by simp at hn; omega)) (by simp; omega)
      refine ⟨1 + m, ?_⟩
      rw [← Nat.mul_succ, hm]
      simp

/-- While its allocations succeed, `lookup` from slot `k` stops at the first slot `j` in use with
the name, having read the `j - k + 1` records up to it. -/
lemma lookupFrom_found {sector k j : ℕ} {name : List UInt8}
    (hok : ∀ n, s.allocs ≤ n → n < s.allocs + (j - k + 1) → heapOk n = true)
    (hj : s.findSlot sector (fun e => e.inUse && name == e.name) k = some j) :
    s.lookupFrom heapOk sector name (dirEntrySize * k) =
      (some (s.dirs sector j, dirEntrySize * j), s.drawn (j - k + 1)) := by
  -- induction on the slots before `j`, with the state and the slot generalized
  induction hn : j - k generalizing s k with
  | zero =>
    obtain ⟨hkj, hjN, hP, -⟩ := findSlot_eq_some hj
    have hjk : j = k := by omega
    subst hjk
    rw [lookupFrom, readEntry_slot (hok _ le_rfl (by omega)) hjN]
    dsimp only
    rw [if_pos (by simpa using hP)]
  | succ n ih =>
    obtain ⟨hkj, hjN, -, hbefore⟩ := findSlot_eq_some hj
    have hk : k < s.slotCount sector := by omega
    have hPk := hbefore k le_rfl (by omega)
    rw [findSlot_of_lt _ hk, if_neg (by simp [hPk])] at hj
    rw [lookupFrom, readEntry_slot (hok _ le_rfl (by omega)) hk]
    dsimp only
    rw [if_neg (by simpa using hPk), ← Nat.mul_succ,
      ih (s := s.drawn 1) (fun n hn hlt => hok n (by simp at hn; omega) (by simp at hlt; omega))
        hj (by omega), drawn_drawn]
    congr 2
    omega

/-- While allocations succeed, `dir_add`'s search from slot `k` stops at the first free slot,
or at the first slot past the end of the directory. -/
lemma freeSlotFrom_of_ok (hok : ∀ n, s.allocs ≤ n → heapOk n = true) (sector k : ℕ) :
    ∃ m, s.freeSlotFrom heapOk sector (dirEntrySize * k) =
      (dirEntrySize * ((s.findSlot sector (fun e => !e.inUse) k).getD
        (max k (s.slotCount sector))), s.drawn m) := by
  induction hn : s.slotCount sector - k generalizing s k with
  | zero =>
    refine ⟨1, ?_⟩
    rw [freeSlotFrom, readEntry_end (by omega), findSlot_of_le _ (by omega)]
    simp only [Option.getD_none]
    rw [max_eq_left (by omega)]
  | succ n ih =>
    have hk : k < s.slotCount sector := by omega
    rw [freeSlotFrom, readEntry_slot (hok _ le_rfl) hk, findSlot_of_lt _ hk]
    dsimp only
    by_cases hfree : (s.dirs sector k).inUse = false
    · refine ⟨1, ?_⟩
      rw [if_pos hfree, if_pos (by simp [hfree])]
      rfl
    · rw [if_neg hfree, if_neg (by simpa using hfree)]
      obtain ⟨m, hm⟩ := ih (s := s.drawn 1) (k := k + 1)
        (fun n hn => hok n (by simp at hn; omega)) (by simp; omega)
      refine ⟨1 + m, ?_⟩
      rw [← Nat.mul_succ, hm]
      simp only [drawn_findSlot, drawn_slotCount, drawn_drawn]
      rw [max_eq_right (by omega), max_eq_right (by omega)]

end FsState

end TinyOs
