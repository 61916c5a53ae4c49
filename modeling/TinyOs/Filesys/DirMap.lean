import TinyOs.Filesys.DirSpec

/-!
What a directory is for: a finite map from names to inode sectors. `dirMap` reads it off the
slots, the entry of a name being the first slot in use with that name, which is what `lookup`
finds. `DirOk` is what `dir_add` means to keep: the names in use are distinct, nonempty and at
most `NAME_MAX` bytes.

* `dirAdd_of_ok`, `dirAdd_dirMap`, `dirAdd_dirOk`: while allocations succeed, `dir_add` fails
  on a bad or used name and on a full directory, and otherwise adds exactly `name ↦ sector` and
  keeps `DirOk`;
* `dir_add_duplicates_name`: when the bounce buffer of `lookup`'s first read cannot be
  allocated, `lookup` misses the entry already there and `dir_add` writes a second entry with
  the same name, which `DirOk` forbids. The comment in `dir_add` assumes a short read happens
  only at the end of the directory; `inode_read_at` also returns short when its `malloc` fails.
-/

namespace TinyOs

namespace FsState

variable (s : FsState)

/-- The directory at `sector` as a map: the inode sector of the first slot in use named
`name`. -/
def dirMap (sector : ℕ) (name : List UInt8) : Option ℕ :=
  (s.findSlot sector (fun e => e.inUse && name == e.name) 0).map
    fun j => (s.dirs sector j).inodeSector

/-- The names in use in the directory at `sector` are distinct, nonempty and at most
`NAME_MAX` bytes. -/
structure DirOk (sector : ℕ) : Prop where
  distinct : ∀ j₁ < s.slotCount sector, ∀ j₂ < s.slotCount sector,
    (s.dirs sector j₁).inUse = true → (s.dirs sector j₂).inUse = true →
      (s.dirs sector j₁).name = (s.dirs sector j₂).name → j₁ = j₂
  name_ne_nil : ∀ j < s.slotCount sector, (s.dirs sector j).inUse = true →
    (s.dirs sector j).name ≠ []
  name_le : ∀ j < s.slotCount sector, (s.dirs sector j).inUse = true →
    (s.dirs sector j).name.length ≤ nameMax

variable {s}

/-! ### Slots and the map -/

@[simp] lemma setSlot_slotCount (sector k t : ℕ) (e : DirEntry) :
    (s.setSlot sector k e).slotCount t = s.slotCount t := rfl

/-- `name` has an entry exactly when some whole slot is in use with that name. -/
lemma findSlot_name_eq_none {sector : ℕ} {name : List UInt8} :
    s.findSlot sector (fun e => e.inUse && name == e.name) 0 = none ↔
      ∀ j < s.slotCount sector,
        ¬((s.dirs sector j).inUse = true ∧ (s.dirs sector j).name = name) := by
  unfold findSlot
  rw [List.find?_eq_none]
  simp only [List.mem_range'_1, Nat.sub_zero, Nat.zero_add, Bool.and_eq_true, beq_iff_eq,
    not_and]
  constructor
  · intro h j hj hu hn
    exact h j ⟨Nat.zero_le j, hj⟩ hu hn.symm
  · intro h j hj hu hn
    exact h j hj.2 hu hn.symm

/-- Writing a slot with a record that passes `P` exactly when the old one did leaves the search
for `P` as it was. -/
lemma findSlot_setSlot_of_iff {sector j k : ℕ} {e : DirEntry} {P : DirEntry → Bool}
    (he : P e = P (s.dirs sector j)) :
    (s.setSlot sector j e).findSlot sector P k = s.findSlot sector P k := by
  unfold findSlot
  congr 1
  funext i
  rw [setSlot_dirs]
  split_ifs with hi
  · rw [hi.2, he]
  · rfl

/-- Writing a new record in use into slot `j`, with a name no slot in use has, puts that slot
first for its name. -/
lemma findSlot_setSlot_new {sector j : ℕ} {name : List UInt8} {e : DirEntry}
    (hj : j < s.slotCount sector) (he : e.inUse = true ∧ e.name = name)
    (hnew : ∀ i < s.slotCount sector, ¬((s.dirs sector i).inUse = true ∧
      (s.dirs sector i).name = name)) :
    (s.setSlot sector j e).findSlot sector (fun e => e.inUse && name == e.name) 0 = some j := by
  have hsplit : List.range' 0 (s.slotCount sector) =
      List.range' 0 j ++ j :: List.range' (j + 1) (s.slotCount sector - j - 1) := by
    have hN : s.slotCount sector = j + ((s.slotCount sector - j - 1) + 1) := by omega
    conv_lhs => rw [hN]
    rw [← List.range'_append_1, Nat.zero_add, List.range'_succ]
  unfold findSlot
  rw [setSlot_slotCount, Nat.sub_zero, hsplit, List.find?_eq_some_iff_append]
  refine ⟨by simp [setSlot_dirs, he], _, _, rfl, fun i hi => ?_⟩
  rw [List.mem_range'_1] at hi
  have hne : ¬(sector = sector ∧ i = j) := fun h => by omega
  rw [setSlot_dirs, if_neg hne]
  have := hnew i (by omega)
  simp only [Bool.not_eq_true', Bool.and_eq_false_iff, beq_eq_false_iff_ne]
  by_cases hu : (s.dirs sector i).inUse = true
  · exact Or.inr fun h => this ⟨hu, h.symm⟩
  · exact Or.inl (by simpa using hu)

@[simp] lemma drawn_dirMap (m sector : ℕ) (name : List UInt8) :
    (s.drawn m).dirMap sector name = s.dirMap sector name := rfl

/-- Writing a slot with a record that does not answer `n`, over one that did not either, leaves
the entry of `n` as it was. -/
lemma dirMap_setSlot_of_ne {sector j : ℕ} {e : DirEntry} {n : List UInt8}
    (hfalse : (e.inUse && n == e.name) = false)
    (hold : ((s.dirs sector j).inUse && n == (s.dirs sector j).name) = false) :
    (s.setSlot sector j e).dirMap sector n = s.dirMap sector n := by
  unfold dirMap
  rw [findSlot_setSlot_of_iff (hfalse.trans hold.symm)]
  cases hf : s.findSlot sector (fun e => e.inUse && n == e.name) 0 with
  | none => rfl
  | some j' =>
    obtain ⟨-, -, hP, -⟩ := findSlot_eq_some hf
    have hne : j' ≠ j := by
      rintro rfl
      rw [hold] at hP
      exact Bool.false_ne_true hP
    simp [setSlot_dirs, hne]

lemma DirOk.drawn {sector : ℕ} (h : s.DirOk sector) (m : ℕ) : (s.drawn m).DirOk sector :=
  ⟨h.1, h.2, h.3⟩

/-- A new entry in a free slot, with a valid name no entry has, keeps the directory good. -/
lemma DirOk.setSlot_new {sector j : ℕ} (h : s.DirOk sector) {e : DirEntry}
    (hname : e.name ≠ [] ∧ e.name.length ≤ nameMax)
    (hnew : ∀ i < s.slotCount sector,
      ¬((s.dirs sector i).inUse = true ∧ (s.dirs sector i).name = e.name)) :
    (s.setSlot sector j e).DirOk sector := by
  have hslot : ∀ i, (s.setSlot sector j e).dirs sector i = if i = j then e else s.dirs sector i :=
    fun i => by simp [setSlot_dirs]
  refine ⟨fun j₁ hj₁ j₂ hj₂ hu₁ hu₂ hn => ?_, fun i hi hu => ?_, fun i hi hu => ?_⟩
  · rw [setSlot_slotCount] at hj₁ hj₂
    rw [hslot, hslot] at *
    -- two slots with one name: the new one can only meet itself
    by_cases h₁ : j₁ = j <;> by_cases h₂ : j₂ = j
    · rw [h₁, h₂]
    · rw [if_pos h₁] at hu₁ hn
      rw [if_neg h₂] at hu₂ hn
      exact absurd ⟨hu₂, hn.symm⟩ (hnew j₂ hj₂)
    · rw [if_neg h₁] at hu₁ hn
      rw [if_pos h₂] at hu₂ hn
      exact absurd ⟨hu₁, hn⟩ (hnew j₁ hj₁)
    · rw [if_neg h₁] at hu₁ hn
      rw [if_neg h₂] at hu₂ hn
      exact h.distinct j₁ hj₁ j₂ hj₂ hu₁ hu₂ hn
  · rw [setSlot_slotCount] at hi
    rw [hslot] at hu ⊢
    split_ifs at hu ⊢
    · exact hname.1
    · exact h.name_ne_nil i hi hu
  · rw [setSlot_slotCount] at hi
    rw [hslot] at hu ⊢
    split_ifs at hu ⊢
    · exact hname.2
    · exact h.name_le i hi hu

/-! ### `dir_add` while allocations succeed -/

variable {heapOk : ℕ → Bool}

/-- While allocations succeed and writes to the directory are allowed, `dir_add` fails on an
empty, long or used name, and otherwise writes the entry into the first free slot, failing when
there is none. -/
lemma dirAdd_of_ok (hok : ∀ n, s.allocs ≤ n → heapOk n = true) {dir : ℕ} {i : Inode}
    (hdir : s.inodes dir = some i) (hdeny : i.denyWriteCnt = 0) (name : List UInt8)
    (sector : ℕ) :
    ∃ m, s.dirAdd heapOk dir name sector =
      if name = [] ∨ nameMax < name.length ∨
          s.findSlot dir (fun e => e.inUse && name == e.name) 0 ≠ none then (false, s.drawn m)
      else
        match s.findSlot dir (fun e => !e.inUse) 0 with
        | some j => (true, (s.drawn m).setSlot dir j ⟨sector, name, true⟩)
        | none => (false, s.drawn m) := by
  unfold dirAdd lookup
  by_cases hbad : name = [] ∨ nameMax < name.length
  · refine ⟨0, ?_⟩
    rw [if_pos hbad, if_pos (hbad.elim Or.inl fun h => Or.inr (Or.inl h))]
    rfl
  rw [if_neg hbad]
  obtain ⟨m₁, hm₁⟩ := s.lookupFrom_of_ok hok dir name 0
  rw [Nat.mul_zero] at hm₁
  rw [hm₁]
  cases hfind : s.findSlot dir (fun e => e.inUse && name == e.name) 0 with
  | some j =>
    -- the name is in use: `lookup` finds it
    refine ⟨m₁, ?_⟩
    rw [if_pos (Or.inr (Or.inr (by simp)))]
    rfl
  | none =>
    obtain ⟨m₂, hm₂⟩ := (s.drawn m₁).freeSlotFrom_of_ok
      (fun n hn => hok n (by simp at hn; omega)) dir 0
    rw [Nat.mul_zero] at hm₂
    refine ⟨m₁ + (m₂ + 1), ?_⟩
    rw [if_neg (by simp [hbad])]
    dsimp only [Option.map_none]
    rw [hm₂]
    dsimp only
    have hname : name.take nameMax = name := List.take_of_length_le (by omega)
    rw [hname]
    have hok' : heapOk ((s.drawn m₁).drawn m₂).allocs = true := hok _ (by simp)
    simp only [drawn_findSlot, drawn_slotCount]
    cases hfree : s.findSlot dir (fun e => !e.inUse) 0 with
    | some j =>
      -- the entry goes into the first free slot
      obtain ⟨-, hj, -, -⟩ := findSlot_eq_some hfree
      have hdiv : dirEntrySize * j / dirEntrySize = j := by
        unfold dirEntrySize
        omega
      have hlen : dirEntrySize * j + dirEntrySize ≤ ((s.drawn m₁).drawn m₂).inodeLength dir := by
        simp only [drawn_inodeLength]
        unfold slotCount at hj
        unfold dirEntrySize at hj ⊢
        omega
      simp only [Option.getD_some]
      rw [writeEntry_eq, if_pos ⟨hok', by simp [hdir, hdeny], hlen⟩, hdiv, alloc_snd,
        drawn_drawn, drawn_drawn]
    | none =>
      -- no free slot: the write at the end of the directory is short
      have hlen : ¬ dirEntrySize * max 0 (s.slotCount dir) + dirEntrySize ≤
          ((s.drawn m₁).drawn m₂).inodeLength dir := by
        simp only [drawn_inodeLength]
        unfold slotCount
        unfold dirEntrySize
        omega
      simp only [Option.getD_none]
      rw [writeEntry_eq, if_neg fun h => hlen h.2.2, alloc_snd, drawn_drawn, drawn_drawn]

/-- While allocations succeed, a `dir_add` that succeeds adds exactly `name ↦ sector`. -/
lemma dirAdd_dirMap (hok : ∀ n, s.allocs ≤ n → heapOk n = true) {dir : ℕ} {i : Inode}
    (hdir : s.inodes dir = some i) (hdeny : i.denyWriteCnt = 0) (name : List UInt8)
    (sector : ℕ) (hadd : (s.dirAdd heapOk dir name sector).1 = true) (n : List UInt8) :
    (s.dirAdd heapOk dir name sector).2.dirMap dir n =
      if n = name then some sector else s.dirMap dir n := by
  obtain ⟨m, hm⟩ := s.dirAdd_of_ok hok hdir hdeny name sector
  rw [hm] at hadd ⊢
  by_cases hbad : name = [] ∨ nameMax < name.length ∨
      s.findSlot dir (fun e => e.inUse && name == e.name) 0 ≠ none
  · rw [if_pos hbad] at hadd
    exact absurd hadd Bool.false_ne_true
  rw [if_neg hbad] at hadd ⊢
  simp only [not_or, not_not] at hbad
  have hnew := findSlot_name_eq_none.mp hbad.2.2
  cases hfree : s.findSlot dir (fun e => !e.inUse) 0 with
  | none =>
    rw [hfree] at hadd
    exact absurd hadd Bool.false_ne_true
  | some j =>
    obtain ⟨-, hj, hP, -⟩ := findSlot_eq_some hfree
    dsimp only
    by_cases hn : n = name
    · -- the name added: its new slot comes first
      subst hn
      rw [if_pos rfl]
      unfold dirMap
      rw [findSlot_setSlot_new (by simpa using hj) ⟨rfl, rfl⟩ (by simpa using hnew)]
      simp [setSlot_dirs]
    · -- any other name: the slot written was free and now answers only `name`
      rw [if_neg hn, dirMap_setSlot_of_ne (by simpa using hn) (by simp at hP; simp [hP]),
        drawn_dirMap]

/-- While allocations succeed, `dir_add` keeps the directory good. -/
lemma dirAdd_dirOk (hok : ∀ n, s.allocs ≤ n → heapOk n = true) {dir : ℕ} {i : Inode}
    (hdir : s.inodes dir = some i) (hdeny : i.denyWriteCnt = 0) (name : List UInt8)
    (sector : ℕ) (h : s.DirOk dir) : (s.dirAdd heapOk dir name sector).2.DirOk dir := by
  obtain ⟨m, hm⟩ := s.dirAdd_of_ok hok hdir hdeny name sector
  rw [hm]
  split_ifs with hbad
  · exact h.drawn m
  · simp only [not_or, not_lt, not_not] at hbad
    obtain ⟨hne, hle, hnone⟩ := hbad
    have hnew := findSlot_name_eq_none.mp hnone
    cases hfree : s.findSlot dir (fun e => !e.inUse) 0 with
    | none => exact h.drawn m
    | some j => exact (h.drawn m).setSlot_new ⟨hne, hle⟩ (by simpa using hnew)

/-! ### A failed read -/

/-- When the bounce buffer of `lookup`'s first read cannot be allocated, `dir_add` of a name
already in slot `0` takes the next free slot: the directory then holds the name twice. -/
theorem dir_add_duplicates_name {dir : ℕ} {i : Inode} (hdir : s.inodes dir = some i)
    (hdeny : i.denyWriteCnt = 0) (hslots : 2 ≤ s.slotCount dir) {name : List UInt8}
    (hname : name ≠ [] ∧ name.length ≤ nameMax)
    (h0 : (s.dirs dir 0).inUse = true ∧ (s.dirs dir 0).name = name)
    (h1 : (s.dirs dir 1).inUse = false) (sector : ℕ) (hfail : heapOk s.allocs = false)
    (hok : ∀ n, s.allocs < n → heapOk n = true) :
    (s.dirAdd heapOk dir name sector).1 = true ∧
      (s.dirAdd heapOk dir name sector).2.dirs dir 0 = s.dirs dir 0 ∧
      (s.dirAdd heapOk dir name sector).2.dirs dir 1 = ⟨sector, name, true⟩ ∧
      ¬(s.dirAdd heapOk dir name sector).2.DirOk dir := by
  -- `lookup` stops at its first read, which comes back short
  have hlookup : s.lookup heapOk dir name = (none, s.drawn 1) := by
    unfold lookup
    rw [lookupFrom, readEntry_fail hfail]
  -- the search for a free slot, whose reads succeed, passes slot `0` and stops at slot `1`
  have hfree : s.findSlot dir (fun e => !e.inUse) 0 = some 1 := by
    rw [findSlot_of_lt _ (by omega), if_neg (by simp [h0.1]), findSlot_of_lt _ (by omega),
      if_pos (by simp [h1])]
  obtain ⟨m, hm⟩ := (s.drawn 1).freeSlotFrom_of_ok
    (fun n hn => hok n (by simp at hn; omega)) dir 0
  rw [Nat.mul_zero, drawn_findSlot, hfree, Option.getD_some] at hm
  have hwrite : heapOk ((s.drawn 1).drawn m).allocs = true :=
    hok _ (by simp only [drawn_drawn, drawn_allocs]; omega)
  have hadd : s.dirAdd heapOk dir name sector =
      (true, (((s.drawn 1).drawn m).drawn 1).setSlot dir 1 ⟨sector, name, true⟩) := by
    have hbad : ¬(name = [] ∨ nameMax < name.length) := fun h => h.elim hname.1 fun h' => by
      omega
    have hlen : dirEntrySize * 1 + dirEntrySize ≤ ((s.drawn 1).drawn m).inodeLength dir := by
      simp only [drawn_inodeLength]
      unfold slotCount at hslots
      unfold dirEntrySize at hslots ⊢
      omega
    unfold dirAdd
    rw [if_neg hbad, hlookup]
    dsimp only
    rw [hm]
    dsimp only
    rw [List.take_of_length_le (by omega), writeEntry_eq,
      if_pos ⟨hwrite, by simp [hdir, hdeny], hlen⟩, alloc_snd]
    rfl
  rw [hadd]
  have hslot0 : ((((s.drawn 1).drawn m).drawn 1).setSlot dir 1 ⟨sector, name, true⟩).dirs dir 0 =
      s.dirs dir 0 := by
    simp [setSlot_dirs]
  have hslot1 : ((((s.drawn 1).drawn m).drawn 1).setSlot dir 1 ⟨sector, name, true⟩).dirs dir 1 =
      ⟨sector, name, true⟩ := by
    simp [setSlot_dirs]
  refine ⟨rfl, hslot0, hslot1, fun hok' => ?_⟩
  -- slots `0` and `1` are both in use under one name
  have := hok'.distinct 0 (by simp; omega) 1 (by simp; omega)
    (by rw [hslot0]; exact h0.1) (by rw [hslot1])
    (by rw [hslot0, hslot1]; exact h0.2)
  exact absurd this (by decide)

/-- The disk of eight sectors after `do_format` and `filesys_create ("a", 0)`, in the middle of a
second `filesys_create ("a", 0)`: the root directory is open, and sector `5` has just been
allocated for the new inode. The free map's inode is at sector `0` with its data at `2`, the
root's inode at `1` with its sixteen entries at `3`; the first entry names `a`, whose inode is at
sector `4`. -/
def dupState : FsState where
  freeMap := ⟨[true, true, true, true, true, true, false, false]⟩
  disk := fun t =>
    if t = freeMapSector then ⟨2, 4⟩
    else if t = rootDirSector then ⟨3, 16 * dirEntrySize⟩
    else ⟨0, 0⟩
  dirs := fun t j => if t = rootDirSector ∧ j = 0 then ⟨4, [97], true⟩ else DirEntry.zero
  inodes := fun t =>
    if t = rootDirSector then some ⟨1, false, 0, ⟨3, 16 * dirEntrySize⟩⟩ else none
  files := fun _ => none
  nextFile := 0
  allocs := 0

/-- With only the first allocation refused, adding `a` again, with the new inode's sector, to the
good root directory of `dupState` succeeds and breaks it. -/
theorem dupState_dir_add_twice :
    dupState.DirOk rootDirSector ∧
      (dupState.dirAdd (fun n => n != 0) rootDirSector [97] 5).1 = true ∧
      ¬(dupState.dirAdd (fun n => n != 0) rootDirSector [97] 5).2.DirOk rootDirSector := by
  have h := @dir_add_duplicates_name dupState (fun n => n != 0) rootDirSector
    ⟨1, false, 0, ⟨3, 16 * dirEntrySize⟩⟩ rfl rfl (by decide) [97] ⟨by decide, by decide⟩
    ⟨by decide, by decide⟩ (by decide) 5 rfl (fun n hn => by simp; omega)
  exact ⟨⟨by decide, by decide, by decide⟩, h.1, h.2.2.2⟩

end FsState

end TinyOs
