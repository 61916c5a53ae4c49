import Mathlib.Data.Finset.Union
import TinyOs.Basic
import TinyOs.Lib.Extent

/-!
The swap table of `vm/swap.c`: the free extents of the swap disk, first-fit slot allocation
and coalescing release, and the sector copies of `swap_slot_write` and `swap_slot_read`.

* `allocSwapSlot`, `freeSwapSlot`: `alloc_swap_slot` and `free_swap_slot`, the free list being
  an `Extent` list carved by `Extent.carveFirst` and refilled by `Extent.insertCoalesce`;
* `swapSlotWrite`, `swapSlotRead`: a page goes out to eight consecutive sectors and comes
  back unchanged (`readSlot_writeSlot`);
* `SwapInv`: the free list is canonical and, with the eight-sector ranges of the live slots,
  partitions the disk; `SwapInv.swapSlotWrite` and `SwapInv.swapSlotRead` are the step lemmas;
* `swap_extent_allocator`: every state reached from `swap_init` satisfies `SwapInv`, and
  allocation hands out free sectors, failing only when no extent holds a slot.
-/

namespace TinyOs

/-- `SECTORS_PER_FRAME`: the sectors of one swap slot. -/
def sectorsPerFrame : ℕ := 8

/-- The sectors of the swap slot starting at `s`. -/
def slotSectors (s : ℕ) : Finset ℕ := Finset.Ico s (s + sectorsPerFrame)

/-- The swap table: the sector count of the swap disk and `free_swap_list`, whose entries
(`struct free_swap_slot`) are extents of free sectors. -/
structure SwapTable where
  diskSize : ℕ
  freeSwapList : List Extent

/-- The value `alloc_swap_slot` returns on failure, `disk_size (swap_disk) + 1` computed as a
32-bit `disk_sector_t`. -/
def SwapTable.falseSector (t : SwapTable) : ℕ := (t.diskSize + 1) % 2 ^ 32

/-- `alloc_swap_slot`: the first free extent of at least `SECTORS_PER_FRAME` sectors gives up
its first eight sectors, and is removed when that was all of it. -/
def allocSwapSlot (t : SwapTable) : ℕ × SwapTable :=
  match Extent.carveFirst sectorsPerFrame t.freeSwapList with
  | some (s, l) => (s, { t with freeSwapList := l })
  | none => (t.falseSector, t)

/-- `free_swap_slot`: the slot's eight sectors go back into `free_swap_list` at their place in
the order of `swap_slot_less` (`list_insert_ordered`), merged with the extent on their right
and then with the one on their left when these touch. -/
def freeSwapSlot (s : ℕ) (t : SwapTable) : SwapTable :=
  { t with freeSwapList := Extent.insertCoalesce ⟨s, sectorsPerFrame⟩ t.freeSwapList }

/-! ### Sector copies -/

/-- The contents of a disk sector, byte by byte. -/
abbrev Sector : Type := Fin diskSectorSize → UInt8

/-- The swap state: the table and the contents of the swap disk. -/
structure SwapState where
  table : SwapTable
  disk : ℕ → Sector

/-- The loop of `swap_slot_write`: sector `start + i` receives bytes
`[i * DISK_SECTOR_SIZE, (i + 1) * DISK_SECTOR_SIZE)` of the frame, for `i < 8`. -/
def writeSlot (disk : ℕ → Sector) (start : ℕ) (frame : Page) : ℕ → Sector := fun sec =>
  if h : start ≤ sec ∧ sec < start + sectorsPerFrame then
    fun o => frame ⟨(sec - start) * diskSectorSize + o, by
      have := o.isLt
      have : sec - start < sectorsPerFrame := by omega
      simp only [pgSize, diskSectorSize, sectorsPerFrame] at *
      omega⟩
  else disk sec

/-- The loop of `swap_slot_read`: byte `o` of the frame comes from sector
`start + o / DISK_SECTOR_SIZE`. -/
def readSlot (disk : ℕ → Sector) (start : ℕ) : Page := fun o =>
  disk (start + o / diskSectorSize) ⟨o % diskSectorSize, Nat.mod_lt _ (by decide)⟩

/-- A page written to a slot reads back unchanged. -/
@[simp] theorem readSlot_writeSlot (disk : ℕ → Sector) (start : ℕ) (frame : Page) :
    readSlot (writeSlot disk start frame) start = frame := by
  funext o
  have ho := o.isLt
  -- byte `o` sits in sector `o / DISK_SECTOR_SIZE` of the slot, at offset `o % DISK_SECTOR_SIZE`
  have hin : start ≤ start + o / diskSectorSize ∧
      start + o / diskSectorSize < start + sectorsPerFrame := by
    simp only [pgSize, diskSectorSize, sectorsPerFrame] at ho ⊢
    omega
  unfold readSlot writeSlot
  rw [dif_pos hin]
  congr 1
  ext
  simp only [Nat.add_sub_cancel_left]
  exact Nat.div_add_mod' _ _

/-- Writing a slot leaves every sector outside it unchanged. -/
lemma writeSlot_of_not_mem {disk : ℕ → Sector} {start sec : ℕ} (frame : Page)
    (h : sec ∉ slotSectors start) : writeSlot disk start frame sec = disk sec := by
  simp only [slotSectors, Finset.mem_Ico] at h
  simp [writeSlot, h]

/-- `swap_init`: one free extent spanning the whole swap disk. -/
def swapInit (diskSize : ℕ) (disk : ℕ → Sector) : SwapState :=
  { table := { diskSize := diskSize, freeSwapList := [⟨0, diskSize⟩] }, disk := disk }

/-- `swap_slot_write`: allocate a slot and copy the frame into it, or return `NULL` (`none`)
when allocation returned its false sector. -/
def swapSlotWrite (frame : Page) (sw : SwapState) : Option ℕ × SwapState :=
  let (start, t) := allocSwapSlot sw.table
  if start ≠ sw.table.falseSector then
    (some start, { table := t, disk := writeSlot sw.disk start frame })
  else (none, { sw with table := t })

/-- `swap_slot_read`: copy the slot into the frame and free the slot. -/
def swapSlotRead (start : ℕ) (sw : SwapState) : Page × SwapState :=
  (readSlot sw.disk start, { sw with table := freeSwapSlot start sw.table })

/-! ### The allocator invariant -/

lemma allocSwapSlot_of_carve {t : SwapTable} {s : ℕ} {l : List Extent}
    (h : Extent.carveFirst sectorsPerFrame t.freeSwapList = some (s, l)) :
    allocSwapSlot t = (s, { t with freeSwapList := l }) := by
  simp [allocSwapSlot, h]

lemma allocSwapSlot_of_none {t : SwapTable}
    (h : Extent.carveFirst sectorsPerFrame t.freeSwapList = none) :
    allocSwapSlot t = (t.falseSector, t) := by
  simp [allocSwapSlot, h]

/-- The invariant of the swap allocator, `A` being the starts of the live slots. -/
structure SwapInv (t : SwapTable) (A : Finset ℕ) : Prop where
  /-- Free extents are nonempty, sorted by start, and neither overlap nor touch. -/
  gapped : Extent.Gapped t.freeSwapList
  /-- Every free extent lies on the disk. -/
  inside : ∀ e ∈ t.freeSwapList, e.stop ≤ t.diskSize
  /-- No free sector belongs to a live slot. -/
  free_disjoint : Disjoint (Extent.cover t.freeSwapList) (A.biUnion slotSectors)
  /-- No two live slots share a sector. -/
  slots_disjoint : ∀ s ∈ A, ∀ s' ∈ A, s ≠ s' → Disjoint (slotSectors s) (slotSectors s')
  /-- The free sectors and the live slots make up the whole disk. -/
  partition : Extent.cover t.freeSwapList ∪ A.biUnion slotSectors = Finset.range t.diskSize

lemma swapInv_init {d : ℕ} (hd : 1 ≤ d) :
    SwapInv { diskSize := d, freeSwapList := [⟨0, d⟩] } ∅ where
  gapped := .single hd
  inside := by simp [Extent.stop]
  free_disjoint := by simp
  slots_disjoint := by simp
  partition := by
    ext n
    simp

/-- The slot first fit hands out lies on the disk and is free. -/
lemma SwapInv.carve_subset {t : SwapTable} {A : Finset ℕ} (hinv : SwapInv t A) {s : ℕ}
    {l : List Extent} (h : Extent.carveFirst sectorsPerFrame t.freeSwapList = some (s, l)) :
    slotSectors s ⊆ Extent.cover t.freeSwapList ∧ s < t.diskSize := by
  have hsub : slotSectors s ⊆ Extent.cover t.freeSwapList := Extent.carveFirst_subset h
  refine ⟨hsub, ?_⟩
  have hs : s ∈ Finset.range t.diskSize :=
    hinv.partition ▸ Finset.mem_union_left _ (hsub (by simp [slotSectors, sectorsPerFrame]))
  exact Finset.mem_range.mp hs

/-- Allocating a slot keeps the invariant: its sectors leave the free list and join the
live slots. -/
theorem SwapInv.alloc {t : SwapTable} {A : Finset ℕ} (hinv : SwapInv t A) {s : ℕ}
    {l : List Extent} (h : Extent.carveFirst sectorsPerFrame t.freeSwapList = some (s, l)) :
    SwapInv { t with freeSwapList := l } (insert s A) := by
  have hsub := (hinv.carve_subset h).1
  have hcov : Extent.cover l = Extent.cover t.freeSwapList \ slotSectors s :=
    Extent.carveFirst_cover hinv.gapped h
  have hgap : Extent.Gapped l := Extent.carveFirst_gapped hinv.gapped h
  -- the new slot is free before, so it shares no sector with a live slot
  have hfresh : Disjoint (slotSectors s) (A.biUnion slotSectors) :=
    Finset.disjoint_of_subset_left hsub hinv.free_disjoint
  have hpart : Extent.cover l ∪ (insert s A).biUnion slotSectors = Finset.range t.diskSize := by
    rw [Finset.biUnion_insert, hcov, ← hinv.partition, ← Finset.union_assoc,
      Finset.sdiff_union_of_subset hsub]
  refine ⟨hgap, hgap.stop_le (hpart ▸ Finset.subset_union_left), ?_, ?_, hpart⟩
  · rw [Finset.biUnion_insert, hcov]
    exact Finset.disjoint_union_right.mpr
      ⟨Finset.sdiff_disjoint, Finset.disjoint_of_subset_left Finset.sdiff_subset hinv.free_disjoint⟩
  · intro a ha b hb hab
    rw [Finset.mem_insert] at ha hb
    rcases ha with rfl | ha <;> rcases hb with rfl | hb
    · exact absurd rfl hab
    · exact Finset.disjoint_of_subset_right (Finset.subset_biUnion_of_mem _ hb) hfresh
    · exact (Finset.disjoint_of_subset_right (Finset.subset_biUnion_of_mem _ ha) hfresh).symm
    · exact hinv.slots_disjoint a ha b hb hab

/-- Freeing a live slot keeps the invariant: its sectors leave the live slots and join the
free list. -/
theorem SwapInv.free {t : SwapTable} {A : Finset ℕ} (hinv : SwapInv t A) {s : ℕ} (hs : s ∈ A) :
    SwapInv (freeSwapSlot s t) (A.erase s) := by
  have hA : A.biUnion slotSectors = slotSectors s ∪ (A.erase s).biUnion slotSectors := by
    rw [← Finset.biUnion_insert, Finset.insert_erase hs]
  have hslot : Disjoint (slotSectors s) (Extent.cover t.freeSwapList) :=
    (Finset.disjoint_of_subset_right (Finset.subset_biUnion_of_mem _ hs) hinv.free_disjoint).symm
  have hcov : Extent.cover (freeSwapSlot s t).freeSwapList =
      slotSectors s ∪ Extent.cover t.freeSwapList :=
    Extent.insertCoalesce_cover _ _
  have hgap : Extent.Gapped (freeSwapSlot s t).freeSwapList :=
    Extent.insertCoalesce_gapped (by simp [sectorsPerFrame]) hinv.gapped hslot
  have hpart : Extent.cover (freeSwapSlot s t).freeSwapList ∪ (A.erase s).biUnion slotSectors =
      Finset.range (freeSwapSlot s t).diskSize := by
    rw [hcov, Finset.union_comm (slotSectors s), Finset.union_assoc, ← hA]
    exact hinv.partition
  refine ⟨hgap, hgap.stop_le (hpart ▸ Finset.subset_union_left), ?_, ?_, hpart⟩
  · rw [hcov]
    refine Finset.disjoint_union_left.mpr ⟨?_, ?_⟩
    · rw [Finset.disjoint_biUnion_right]
      intro b hb
      exact hinv.slots_disjoint s hs b (Finset.mem_of_mem_erase hb) (Finset.ne_of_mem_erase hb).symm
    · exact Finset.disjoint_of_subset_right (hA ▸ Finset.subset_union_right) hinv.free_disjoint
  · intro a ha b hb hab
    exact hinv.slots_disjoint a (Finset.mem_of_mem_erase ha) b (Finset.mem_of_mem_erase hb) hab

/-! ### Reachable swap states -/

/-- The swap states reachable from `swap_init` on a disk of `diskSize` sectors, paired with the
starts of the live slots: `swap_slot_write` allocates a slot or returns `NULL`, and
`swap_slot_read` releases a live slot. -/
inductive SwapReachable (diskSize : ℕ) : SwapState → Finset ℕ → Prop
  | init (disk : ℕ → Sector) : SwapReachable diskSize (swapInit diskSize disk) ∅
  | write {sw sw' : SwapState} {A : Finset ℕ} {frame : Page} {s : ℕ} :
      SwapReachable diskSize sw A → swapSlotWrite frame sw = (some s, sw') →
      SwapReachable diskSize sw' (insert s A)
  | writeNull {sw sw' : SwapState} {A : Finset ℕ} {frame : Page} :
      SwapReachable diskSize sw A → swapSlotWrite frame sw = (none, sw') →
      SwapReachable diskSize sw' A
  | read {sw : SwapState} {A : Finset ℕ} {s : ℕ} :
      SwapReachable diskSize sw A → s ∈ A →
      SwapReachable diskSize (swapSlotRead s sw).2 (A.erase s)

/-- On a disk addressed in 28-bit LBA, the false sector does not wrap around. -/
lemma SwapTable.falseSector_eq {t : SwapTable} (hcap : t.diskSize < 2 ^ 28) :
    t.falseSector = t.diskSize + 1 :=
  Nat.mod_eq_of_lt (by omega)

/-- What `swap_slot_write` does to a table satisfying the invariant: it takes the first-fit
slot, or fails and changes nothing. -/
lemma swapSlotWrite_cases {sw : SwapState} {A : Finset ℕ} (hinv : SwapInv sw.table A)
    (hcap : sw.table.diskSize < 2 ^ 28) (frame : Page) :
    (∃ s l, Extent.carveFirst sectorsPerFrame sw.table.freeSwapList = some (s, l) ∧
      swapSlotWrite frame sw =
        (some s, { table := { sw.table with freeSwapList := l },
                   disk := writeSlot sw.disk s frame })) ∨
    (Extent.carveFirst sectorsPerFrame sw.table.freeSwapList = none ∧
      swapSlotWrite frame sw = (none, sw)) := by
  cases hc : Extent.carveFirst sectorsPerFrame sw.table.freeSwapList with
  | none =>
      refine .inr ⟨rfl, ?_⟩
      simp [swapSlotWrite, allocSwapSlot_of_none hc]
  | some r =>
      obtain ⟨s, l⟩ := r
      have hs := (hinv.carve_subset hc).2
      have hne : s ≠ sw.table.falseSector := by
        rw [SwapTable.falseSector_eq hcap]
        omega
      exact .inl ⟨s, l, rfl, by simp [swapSlotWrite, allocSwapSlot_of_carve hc, hne]⟩

/-- Every reachable swap state satisfies the invariant, on a disk of the size it started with. -/
theorem SwapReachable.inv {d : ℕ} (hd : 1 ≤ d) (hcap : d < 2 ^ 28) {sw : SwapState}
    {A : Finset ℕ} (h : SwapReachable d sw A) : sw.table.diskSize = d ∧ SwapInv sw.table A := by
  induction h with
  | init disk => exact ⟨rfl, swapInv_init hd⟩
  | @write sw sw' A frame s _ hw ih =>
      obtain ⟨hsize, hinv⟩ := ih
      rcases swapSlotWrite_cases hinv (hsize ▸ hcap) frame with ⟨s', l, hc, heq⟩ | ⟨-, heq⟩
      · rw [heq, Prod.mk.injEq, Option.some.injEq] at hw
        obtain ⟨rfl, rfl⟩ := hw
        exact ⟨hsize, hinv.alloc hc⟩
      · rw [heq] at hw
        simp at hw
  | @writeNull sw sw' A frame _ hw ih =>
      obtain ⟨hsize, hinv⟩ := ih
      rcases swapSlotWrite_cases hinv (hsize ▸ hcap) frame with ⟨s', l, -, heq⟩ | ⟨-, heq⟩
      · rw [heq] at hw
        simp at hw
      · rw [heq, Prod.mk.injEq] at hw
        obtain ⟨-, rfl⟩ := hw
        exact ⟨hsize, hinv⟩
  | read _ hs ih => exact ⟨ih.1, ih.2.free hs⟩

/-- **The swap extent allocator.** On a swap disk of `d ≥ 1` sectors (addressed in 28-bit LBA
mode, as the disk driver's `select_sector` requires), every state reached from `swap_init` by
`swap_slot_write` and by `swap_slot_read` of live slots satisfies `SwapInv`: the free extents
are nonempty, sorted, pairwise apart and on the disk, and with the eight-sector ranges of the
live slots they partition the disk, so no two live slots overlap. From every such state
`alloc_swap_slot` returns its false sector `disk_size + 1` exactly when no free extent has
eight sectors, and otherwise a start whose eight sectors were all free. -/
theorem swap_extent_allocator {d : ℕ} (hd : 1 ≤ d) (hcap : d < 2 ^ 28) {sw : SwapState}
    {A : Finset ℕ} (h : SwapReachable d sw A) :
    SwapInv sw.table A ∧
      ((allocSwapSlot sw.table).1 = sw.table.falseSector ↔
        ∀ e ∈ sw.table.freeSwapList, e.size < sectorsPerFrame) ∧
      ((allocSwapSlot sw.table).1 ≠ sw.table.falseSector →
        slotSectors (allocSwapSlot sw.table).1 ⊆ Extent.cover sw.table.freeSwapList) := by
  obtain ⟨hsize, hinv⟩ := h.inv hd hcap
  refine ⟨hinv, ?_⟩
  cases hc : Extent.carveFirst sectorsPerFrame sw.table.freeSwapList with
  | none =>
      rw [allocSwapSlot_of_none hc]
      exact ⟨iff_of_true rfl (Extent.carveFirst_eq_none_iff.mp hc), fun hne => absurd rfl hne⟩
  | some r =>
      obtain ⟨s, l⟩ := r
      obtain ⟨hsub, hs⟩ := hinv.carve_subset hc
      have hne : s ≠ sw.table.falseSector := by
        rw [SwapTable.falseSector_eq (hsize ▸ hcap)]
        omega
      rw [allocSwapSlot_of_carve hc]
      refine ⟨iff_of_false hne fun hall => ?_, fun _ => hsub⟩
      rw [← Extent.carveFirst_eq_none_iff, hc] at hall
      exact Option.some_ne_none _ hall

/-- A slot written to a fresh 16-sector disk: a reachable state where the allocator's
guarantees hold. -/
theorem swap_extent_allocator_one_slot :
    1 ≤ 16 ∧ 16 < 2 ^ 28 ∧
      SwapReachable 16 (swapSlotWrite Page.zero (swapInit 16 fun _ _ => 0)).2 (insert 0 ∅) ∧
      (SwapInv (swapSlotWrite Page.zero (swapInit 16 fun _ _ => 0)).2.table (insert 0 ∅) ∧
        ((allocSwapSlot (swapSlotWrite Page.zero (swapInit 16 fun _ _ => 0)).2.table).1 =
            (swapSlotWrite Page.zero (swapInit 16 fun _ _ => 0)).2.table.falseSector ↔
          ∀ e ∈ (swapSlotWrite Page.zero (swapInit 16 fun _ _ => 0)).2.table.freeSwapList,
            e.size < sectorsPerFrame) ∧
        ((allocSwapSlot (swapSlotWrite Page.zero (swapInit 16 fun _ _ => 0)).2.table).1 ≠
            (swapSlotWrite Page.zero (swapInit 16 fun _ _ => 0)).2.table.falseSector →
          slotSectors (allocSwapSlot (swapSlotWrite Page.zero
              (swapInit 16 fun _ _ => 0)).2.table).1 ⊆
            Extent.cover (swapSlotWrite Page.zero (swapInit 16 fun _ _ => 0)).2.table.freeSwapList)) := by
  have hr : SwapReachable 16 (swapSlotWrite Page.zero (swapInit 16 fun _ _ => 0)).2
      (insert 0 ∅) :=
    .write (.init _) (Prod.ext rfl rfl)
  exact ⟨by decide, by decide, hr, swap_extent_allocator (by decide) (by decide) hr⟩

end TinyOs
