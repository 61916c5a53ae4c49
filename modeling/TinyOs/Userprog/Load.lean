import TinyOs.Userprog.Mmap
import TinyOs.Userprog.Pagedir
import TinyOs.Filesys.InodeData

/-!
`load` (`userprog/process.c`) on the bytes of the executable: the ELF header read at offset 0
and checked, the program headers read one by one from `e_phoff`, and for each `PT_LOAD` header
`validate_segment` and `load_segment`, which adds one lazy page a page of the segment to the
supplemental page table. `Userprog/Process.lean` takes the pages a run adds as given (`image`);
here they are computed from the file.

The header fields are 32-bit words, and `load` computes with them in 32-bit unsigned
arithmetic: `p_vaddr + p_memsz`, `ROUND_UP (page_offset + p_memsz, PGSIZE)` and
`zero_bytes` are reduced modulo `2 ^ 32`, `e_phoff` becomes an `off_t`, and `load_segment`'s
`ofs` is an `off_t` stepped by `PGSIZE`. The file is read through `inode_read_at`, whose bounce
buffer may fail to be allocated (`readOk`).

* `segmentArgs_fits`: a header `validate_segment` accepts gives `load_segment` page-aligned
  addresses and a size that is a multiple of `PGSIZE`, for pages in `[PGSIZE, PHYS_BASE)`;
* `loadSegment_adds`: `load_segment` adds entries only for such pages, every `EXEC` entry
  reading at most a page;
* `elf_load_confined`: every run of `load`, on any file;
* `load_segment_keeps_present_page`: a page of a segment that has an entry already keeps it,
  while `load_segment` reports success.
-/

namespace TinyOs

open BitField

/-! ### The ELF layout -/

/-- A little-endian unsigned field of `n` bytes at `ofs` of a buffer: an `Elf32_Half` for
`n = 2`, an `Elf32_Word`, `Elf32_Addr` or `Elf32_Off` for `n = 4`. -/
def readLe (b : ℕ → UInt8) (ofs : ℕ) : ℕ → ℕ
  | 0 => 0
  | n + 1 => (b ofs).toNat + 256 * readLe b (ofs + 1) n

/-- `sizeof (struct Elf32_Ehdr)`. -/
def ehdrSize : ℕ := 52

/-- `sizeof (struct Elf32_Phdr)`. -/
def phdrSize : ℕ := 32

/-- The fields of `struct Elf32_Ehdr` that `load` reads. -/
structure Elf32Ehdr where
  /-- The first seven bytes of `e_ident`, which `memcmp` compares. -/
  eIdent : List UInt8
  eType : ℕ
  eMachine : ℕ
  eVersion : ℕ
  ePhoff : ℕ
  ePhentsize : ℕ
  ePhnum : ℕ

/-- The header as `file_read` leaves it in `ehdr`. -/
def Elf32Ehdr.ofBytes (b : ℕ → UInt8) : Elf32Ehdr where
  eIdent := (List.range 7).map b
  eType := readLe b 16 2
  eMachine := readLe b 18 2
  eVersion := readLe b 20 4
  ePhoff := readLe b 28 4
  ePhentsize := readLe b 42 2
  ePhnum := readLe b 44 2

/-- `"\177ELF\1\1\1"`: a 32-bit little-endian ELF file of version 1. -/
def elfMagic : List UInt8 := [0x7f, 0x45, 0x4c, 0x46, 1, 1, 1]

/-- The header test of `load`: an i386 executable (`ET_EXEC`, `EM_386`) with program headers of
the size this kernel reads and at most 1024 of them. -/
def Elf32Ehdr.ok (h : Elf32Ehdr) : Bool :=
  h.eIdent == elfMagic && h.eType == 2 && h.eMachine == 3 && h.eVersion == 1 &&
    h.ePhentsize == phdrSize && decide (h.ePhnum ≤ 1024)

/-- The fields of `struct Elf32_Phdr` that `load` reads. Those it computes with are 32-bit
words. -/
structure Elf32Phdr where
  pType : ℕ
  pOffset : ℕ
  pVaddr : ℕ
  pFilesz : ℕ
  pMemsz : ℕ
  pFlags : ℕ
  offset_lt : pOffset < 2 ^ 32
  vaddr_lt : pVaddr < 2 ^ 32
  filesz_lt : pFilesz < 2 ^ 32
  memsz_lt : pMemsz < 2 ^ 32

lemma readLe_lt (b : ℕ → UInt8) (ofs n : ℕ) : readLe b ofs n < 2 ^ (8 * n) := by
  induction n generalizing ofs with
  | zero => simp [readLe]
  | succ n ih =>
    have hb : (b ofs).toNat < 256 := (b ofs).toNat_lt
    have hpow : 2 ^ (8 * (n + 1)) = 256 * 2 ^ (8 * n) := by
      rw [Nat.mul_succ, Nat.pow_add, Nat.mul_comm]
    rw [readLe, hpow]
    have := ih (ofs + 1)
    omega

/-- The program header as `file_read` leaves it in `phdr`. -/
def Elf32Phdr.ofBytes (b : ℕ → UInt8) : Elf32Phdr where
  pType := readLe b 0 4
  pOffset := readLe b 4 4
  pVaddr := readLe b 8 4
  pFilesz := readLe b 16 4
  pMemsz := readLe b 20 4
  pFlags := readLe b 24 4
  offset_lt := readLe_lt b 4 4
  vaddr_lt := readLe_lt b 8 4
  filesz_lt := readLe_lt b 16 4
  memsz_lt := readLe_lt b 20 4

/-- `PT_LOAD`, `PT_DYNAMIC`, `PT_INTERP`, `PT_SHLIB`: the segment types `load` handles. -/
def ptLoad : ℕ := 1
def ptDynamic : ℕ := 2
def ptInterp : ℕ := 3
def ptShlib : ℕ := 5

/-- `PF_W`: the segment is writable. -/
def pfW : ℕ := 2

/-- `PGMASK`: `BITMASK (PGSHIFT, PGBITS)`, the offset bits of an address. -/
def pgMask : ℕ := bitmask 0 12

/-! ### `validate_segment` and `load_segment` -/

/-- `validate_segment (phdr, file)` on a file of `fileLength` bytes. `p_vaddr + p_memsz` is an
`Elf32_Addr`, reduced modulo `2 ^ 32`, and the file's length is compared as an `Elf32_Off`. -/
def validateSegment (phdr : Elf32Phdr) (fileLength : ℕ) : Bool :=
  -- `p_offset` and `p_vaddr` must have the same page offset
  phdr.pOffset &&& pgMask == phdr.pVaddr &&& pgMask &&
  -- `p_offset` must point within the file
  decide (phdr.pOffset ≤ wrap32 fileLength) &&
  decide (phdr.pFilesz ≤ phdr.pMemsz) &&
  phdr.pMemsz != 0 &&
  isUserVaddr phdr.pVaddr &&
  isUserVaddr (wrap32 (phdr.pVaddr + phdr.pMemsz)) &&
  -- the region cannot wrap around across the kernel virtual address space
  decide (phdr.pVaddr ≤ wrap32 (phdr.pVaddr + phdr.pMemsz)) &&
  -- page 0 is never mapped
  decide (pgSize ≤ phdr.pVaddr)

/-- The arguments of a call of `load_segment`: `ofs` (the 32 bits of the `off_t`), `upage`,
`read_bytes`, `zero_bytes` and `writable`. -/
structure SegmentArgs where
  ofs : ℕ
  upage : ℕ
  readBytes : ℕ
  zeroBytes : ℕ
  writable : Bool
  deriving DecidableEq, Repr

/-- `a - b` in `uint32_t`, for `b` below `2 ^ 32`. -/
def sub32 (a b : ℕ) : ℕ := wrap32 (a + 2 ^ 32 - b)

/-- `ROUND_UP (x, PGSIZE)` on a `uint32_t`: `x + PGSIZE - 1` wraps. -/
def roundUpPg (x : ℕ) : ℕ := wrap32 (x + pgSize - 1) / pgSize * pgSize

/-- The call `load` makes of `load_segment` for a `PT_LOAD` header: the page of the file and
the page of memory the segment starts in, and how many bytes of its pages are read and
zeroed. -/
def segmentArgs (phdr : Elf32Phdr) : SegmentArgs :=
  let writable := phdr.pFlags &&& pfW != 0
  let filePage := phdr.pOffset &&& X86.not32 pgMask
  let memPage := phdr.pVaddr &&& X86.not32 pgMask
  let pageOffset := phdr.pVaddr &&& pgMask
  if 0 < phdr.pFilesz then
    -- normal segment: the initial part from disk, zeros after it
    let readBytes := wrap32 (pageOffset + phdr.pFilesz)
    ⟨filePage, memPage, readBytes,
      sub32 (roundUpPg (wrap32 (pageOffset + phdr.pMemsz))) readBytes, writable⟩
  else
    -- entirely zero
    ⟨filePage, memPage, 0, roundUpPg (wrap32 (pageOffset + phdr.pMemsz)), writable⟩

/-- The three `ASSERT`s `load_segment` starts with. `ofs % PGSIZE` of the signed `off_t` is zero
exactly when its 32 bits are a multiple of `PGSIZE`, which divides `2 ^ 32`. -/
def SegmentArgs.Asserts (a : SegmentArgs) : Prop :=
  wrap32 (a.readBytes + a.zeroBytes) % pgSize = 0 ∧ pgOfs a.upage = 0 ∧ a.ofs % pgSize = 0

instance (a : SegmentArgs) : Decidable a.Asserts := inferInstanceAs (Decidable (_ ∧ _ ∧ _))

/-- The loop of `load_segment` on the file `file`, for at most `n` pages: while bytes are left,
an `EXEC` page reading `page_read_bytes` bytes of the file from `ofs`, or a `ZERO` page once
`read_bytes` is spent, added with `add_lazy_page`. `hash_insert` refuses a page that has an
entry already, and the loop does not look at the refusal. The table and `ofs` after it. -/
def loadSegmentLoop (file : ℕ) (writable : Bool) :
    ℕ → Spt → ℕ → ℕ → ℕ → ℕ → Spt × ℕ
  | 0, spt, ofs, _, _, _ => (spt, ofs)
  | n + 1, spt, ofs, upage, readBytes, zeroBytes =>
    if 0 < readBytes ∨ 0 < zeroBytes then
      let pageReadBytes := min readBytes pgSize
      let pageZeroBytes := pgSize - pageReadBytes
      let genPage : SegPage :=
        if pageReadBytes = 0 then .zero else .exec ofs pageReadBytes writable
      loadSegmentLoop file writable n (spt.insert upage (genPage.toSpecial file))
        (wrap32 (ofs + pgSize)) (wrap32 (upage + pgSize)) (readBytes - pageReadBytes)
        (sub32 zeroBytes pageZeroBytes)
    else (spt, ofs)

/-- `load_segment (file, ofs, upage, read_bytes, zero_bytes, writable)` on the supplemental
page table: `none` when the kernel panics, at one of its `ASSERT`s or at `file_seek`'s
`new_pos >= 0` at its end. The loop runs once a page, `(read_bytes + zero_bytes) / PGSIZE`
times (`loadSegmentLoop_add`). -/
def loadSegment (file : ℕ) (spt : Spt) (a : SegmentArgs) : Option (Bool × Spt) :=
  if ¬a.Asserts then none
  -- `validate_free_page` is given `read_bytes` only
  else if validateFreePage spt a.upage a.readBytes = false then some (false, spt)
  else
    let r := loadSegmentLoop file a.writable ((a.readBytes + a.zeroBytes) / pgSize) spt a.ofs
      a.upage a.readBytes a.zeroBytes
    -- `file_seek (file, ofs)`
    if int32Of r.2 < 0 then none else some (true, r.1)

/-! ### `load` -/

/-- What `load` does with the executable, step by step: a program header read at `file_ofs`,
and a call of `load_segment`. -/
inductive LoadEvent where
  | readPhdr (fileOfs : ℤ)
  | segment (args : SegmentArgs)
  deriving DecidableEq, Repr

/-- The loop of `load` over the program headers of the executable, on the inode `ino` opened as
the file `file`: `n` headers left, the next the `i`th, at `file_ofs`. The outcome (`some false`
for `goto done`, `none` when the kernel panics) with the supplemental page table, and what the
loop did in order. Read `k` of the file gets its bounce buffer when `readOk k`. -/
def phdrLoop (ino : Inode) (disk : DiskBytes) (readOk : ℕ → Bool) (junk : ℕ → UInt8)
    (file : ℕ) : ℕ → ℕ → ℤ → Spt → Option (Bool × Spt) × List LoadEvent
  | 0, _, _, spt => (some (true, spt), [])
  | n + 1, i, fileOfs, spt =>
    if fileOfs < 0 ∨ (ino.data.length : ℤ) < fileOfs then (some (false, spt), [])
    else
      -- `file_seek (file, file_ofs)` and `file_read (file, &phdr, sizeof phdr)`
      let r := ino.inodeReadAt (readOk (i + 1)) junk disk junk phdrSize fileOfs.toNat
      let seen := LoadEvent.readPhdr fileOfs
      if r.2 ≠ phdrSize then (some (false, spt), [seen])
      else
        -- `file_ofs += sizeof phdr` in 32 bits
        let next := int32Of (wrap32 (fileOfs.toNat + phdrSize))
        let phdr := Elf32Phdr.ofBytes r.1
        if phdr.pType = ptDynamic ∨ phdr.pType = ptInterp ∨ phdr.pType = ptShlib then
          (some (false, spt), [seen])
        else if phdr.pType = ptLoad then
          if validateSegment phdr ino.data.length then
            let a := segmentArgs phdr
            match loadSegment file spt a with
            | some (true, spt) =>
              let rest := phdrLoop ino disk readOk junk file n (i + 1) next spt
              (rest.1, seen :: .segment a :: rest.2)
            | res => (res, [seen, .segment a])
          else (some (false, spt), [seen])
        else
          -- every other type is ignored
          let rest := phdrLoop ino disk readOk junk file n (i + 1) next spt
          (rest.1, seen :: rest.2)

/-- `load`'s reading of the executable once `filesys_open` has opened the inode `ino` as the
file `file`: the ELF header, read from offset 0 and checked, then the program headers from
`e_phoff` as an `off_t`. -/
def loadElf (ino : Inode) (disk : DiskBytes) (readOk : ℕ → Bool) (junk : ℕ → UInt8)
    (file : ℕ) (spt : Spt) : Option (Bool × Spt) × List LoadEvent :=
  let r := ino.inodeReadAt (readOk 0) junk disk junk ehdrSize 0
  let ehdr := Elf32Ehdr.ofBytes r.1
  if r.2 ≠ ehdrSize ∨ ehdr.ok = false then (some (false, spt), [])
  else phdrLoop ino disk readOk junk file ehdr.ePhnum 0 (int32Of ehdr.ePhoff) spt

/-! ### The arithmetic of a segment -/

lemma and_pgMask (x : ℕ) : x &&& pgMask = x % pgSize := by
  rw [pgMask, and_bitmask]
  simp [pgSize]

/-- `x & ~PGMASK` on a 32-bit word: the start of its page. -/
lemma and_not32_pgMask {x : ℕ} (h : x < 2 ^ 32) : x &&& X86.not32 pgMask = x - x % pgSize := by
  rw [show X86.not32 pgMask = bitmask 12 20 by decide, and_bitmask]
  simp only [Nat.reducePow] at h ⊢
  unfold pgSize
  omega

lemma sub32_of_le {a b : ℕ} (hb : b ≤ a) (ha : a < 2 ^ 32) : sub32 a b = a - b := by
  unfold sub32
  rw [show a + 2 ^ 32 - b = a - b + 2 ^ 32 by omega, wrap32, Nat.add_mod_right,
    Nat.mod_eq_of_lt (by omega)]

lemma roundUpPg_of_lt {x : ℕ} (h : x + pgSize - 1 < 2 ^ 32) :
    roundUpPg x = (x + pgSize - 1) / pgSize * pgSize := by
  rw [roundUpPg, wrap32_of_lt h]

/-- What `validate_segment` checks, in numbers. -/
lemma validateSegment_eq_true {phdr : Elf32Phdr} {len : ℕ} :
    validateSegment phdr len = true ↔
      phdr.pOffset % pgSize = phdr.pVaddr % pgSize ∧ phdr.pOffset ≤ wrap32 len ∧
      phdr.pFilesz ≤ phdr.pMemsz ∧ phdr.pMemsz ≠ 0 ∧ phdr.pVaddr < physBase ∧
      wrap32 (phdr.pVaddr + phdr.pMemsz) < physBase ∧
      phdr.pVaddr ≤ wrap32 (phdr.pVaddr + phdr.pMemsz) ∧ pgSize ≤ phdr.pVaddr := by
  simp [validateSegment, and_pgMask, isUserVaddr, and_assoc]

/-- The wrap-around test and the test of the end against `PHYS_BASE` together: the segment
ends below `PHYS_BASE` without wrapping. -/
lemma add_lt_physBase_of_valid {phdr : Elf32Phdr} {len : ℕ}
    (h : validateSegment phdr len = true) : phdr.pVaddr + phdr.pMemsz < physBase := by
  obtain ⟨-, -, -, -, -, hend, hwrap, -⟩ := validateSegment_eq_true.mp h
  have hv := phdr.vaddr_lt
  have hm := phdr.memsz_lt
  unfold wrap32 at hend hwrap
  -- a sum that wraps comes back below `p_vaddr`
  by_cases hlt : phdr.pVaddr + phdr.pMemsz < 2 ^ 32
  · rwa [Nat.mod_eq_of_lt hlt] at hend
  · rw [Nat.mod_eq_sub_mod (by omega), Nat.mod_eq_of_lt (by omega)] at hwrap
    omega

@[simp] lemma segmentArgs_upage (phdr : Elf32Phdr) :
    (segmentArgs phdr).upage = phdr.pVaddr - phdr.pVaddr % pgSize := by
  unfold segmentArgs
  split_ifs <;> exact and_not32_pgMask phdr.vaddr_lt

@[simp] lemma segmentArgs_ofs (phdr : Elf32Phdr) :
    (segmentArgs phdr).ofs = phdr.pOffset - phdr.pOffset % pgSize := by
  unfold segmentArgs
  split_ifs <;> exact and_not32_pgMask phdr.offset_lt

/-- A segment `validate_segment` accepts covers `ROUND_UP (page_offset + p_memsz, PGSIZE)` bytes
of memory from the start of its first page: none of the 32-bit computations wraps. -/
lemma segmentArgs_size {phdr : Elf32Phdr} {len : ℕ} (h : validateSegment phdr len = true) :
    (segmentArgs phdr).readBytes + (segmentArgs phdr).zeroBytes =
      (phdr.pVaddr % pgSize + phdr.pMemsz + pgSize - 1) / pgSize * pgSize := by
  obtain ⟨-, -, hfm, -, -, -, -, -⟩ := validateSegment_eq_true.mp h
  have hend := add_lt_physBase_of_valid h
  have hpo : phdr.pVaddr % pgSize ≤ phdr.pVaddr := Nat.mod_le _ _
  unfold physBase at hend
  -- `page_offset + p_memsz` and `ROUND_UP` of it stay below `2 ^ 32`
  have hmem := wrap32_of_lt (a := phdr.pVaddr % pgSize + phdr.pMemsz) (by omega)
  have hround := roundUpPg_of_lt (x := phdr.pVaddr % pgSize + phdr.pMemsz)
    (by unfold pgSize at *; omega)
  have hup : phdr.pVaddr % pgSize + phdr.pMemsz ≤
      (phdr.pVaddr % pgSize + phdr.pMemsz + pgSize - 1) / pgSize * pgSize := by
    unfold pgSize
    omega
  unfold segmentArgs
  split_ifs with hf
  · have hread := wrap32_of_lt (a := phdr.pVaddr % pgSize + phdr.pFilesz) (by omega)
    simp only [and_pgMask, hmem, hround, hread]
    rw [sub32_of_le (by omega) (by unfold pgSize at *; omega)]
    omega
  · simp only [and_pgMask, hmem, hround, Nat.zero_add]

/-- What `load_segment` is given for a header `validate_segment` accepts: arguments that pass
its `ASSERT`s, for pages in `[PGSIZE, PHYS_BASE)`. -/
structure SegmentArgs.Fits (a : SegmentArgs) : Prop where
  asserts : a.Asserts
  low : pgSize ≤ a.upage
  high : a.upage + (a.readBytes + a.zeroBytes) ≤ physBase

theorem segmentArgs_fits {phdr : Elf32Phdr} {len : ℕ} (h : validateSegment phdr len = true) :
    (segmentArgs phdr).Fits := by
  obtain ⟨-, -, -, -, -, -, -, hlow⟩ := validateSegment_eq_true.mp h
  have hend := add_lt_physBase_of_valid h
  have hsize := segmentArgs_size h
  have hup := segmentArgs_upage phdr
  have hofs := segmentArgs_ofs phdr
  unfold physBase at hend
  unfold pgSize at hlow hsize hup hofs
  have hlt : (segmentArgs phdr).readBytes + (segmentArgs phdr).zeroBytes < 2 ^ 32 := by omega
  refine ⟨⟨?_, ?_, ?_⟩, ?_, ?_⟩
  · rw [wrap32_of_lt hlt, hsize]
    exact Nat.mul_mod_left _ _
  · unfold pgOfs pgSize
    omega
  · unfold pgSize
    omega
  · unfold pgSize
    omega
  · -- the last page ends at the first page boundary after `p_vaddr + p_memsz`
    unfold physBase
    omega

/-! ### Entries added in user space -/

/-- Every entry `spt'` has that `spt` has not is for a page in `[PGSIZE, PHYS_BASE)`, and such an
`EXEC` entry reads at most a page. -/
def AddsUserPages (spt spt' : Spt) : Prop :=
  ∀ v, spt'.find v ≠ spt.find v →
    pgSize ≤ v ∧ v < physBase ∧ ∀ f o z w, spt'.find v = some (.exec f o z w) → z ≤ pgSize

namespace AddsUserPages

lemma refl (spt : Spt) : AddsUserPages spt spt := fun _ h => absurd rfl h

lemma trans {s₁ s₂ s₃ : Spt} (h₁₂ : AddsUserPages s₁ s₂) (h₂₃ : AddsUserPages s₂ s₃) :
    AddsUserPages s₁ s₃ := by
  intro v hv
  by_cases h : s₃.find v = s₂.find v
  · obtain ⟨hlo, hhi, hexec⟩ := h₁₂ v (h ▸ hv)
    exact ⟨hlo, hhi, h ▸ hexec⟩
  · exact h₂₃ v h

lemma insert {spt : Spt} {v : ℕ} {e : SpecialPage} (hv : pgSize ≤ v ∧ v < physBase)
    (he : ∀ f o z w, e = .exec f o z w → z ≤ pgSize) : AddsUserPages spt (spt.insert v e) := by
  intro w hw
  rw [Spt.find_insert] at hw ⊢
  split_ifs at hw ⊢ with h
  · obtain ⟨rfl, -⟩ := h
    exact ⟨hv.1, hv.2, fun f o z w' hfz => he f o z w' (Option.some.inj hfz)⟩
  · exact absurd rfl hw

end AddsUserPages

/-! ### The loop of `load_segment` -/

section SegmentLoop

variable {file : ℕ} {writable : Bool}

/-- The loop adds only pages from `upage` on, `n` of them at most, and only `EXEC` entries that
read at most a page. -/
theorem loadSegmentLoop_adds (n : ℕ) :
    ∀ (spt : Spt) (ofs upage readBytes zeroBytes : ℕ), pgSize ≤ upage →
      upage + n * pgSize ≤ physBase →
      AddsUserPages spt (loadSegmentLoop file writable n spt ofs upage readBytes zeroBytes).1 := by
  induction n with
  | zero => exact fun spt _ _ _ _ _ _ => AddsUserPages.refl spt
  | succ n ih =>
    intro spt ofs upage readBytes zeroBytes hlow hhigh
    rw [loadSegmentLoop]
    split_ifs with hleft
    · -- this page is in range, and the next starts a page later without wrapping
      have hnext : wrap32 (upage + pgSize) = upage + pgSize :=
        Nat.mod_eq_of_lt (by unfold physBase pgSize at *; rw [Nat.succ_mul] at hhigh; omega)
      refine (AddsUserPages.insert ⟨hlow, ?_⟩ ?_).trans (ih _ _ _ _ _ ?_ ?_)
      · unfold pgSize at hhigh
        rw [Nat.succ_mul] at hhigh
        omega
      · intro f o z w h
        split_ifs at h with hz
        · cases h
        · cases h
          exact Nat.min_le_right _ _
      · rw [hnext]
        omega
      · rw [hnext]
        rw [Nat.succ_mul] at hhigh
        omega
    · exact AddsUserPages.refl spt

/-- A page that has an entry keeps it: `hash_insert` refuses the new one. -/
lemma loadSegmentLoop_find_of_some {v : ℕ} {e : SpecialPage} (n : ℕ) :
    ∀ {spt : Spt} (ofs upage readBytes zeroBytes : ℕ), spt.find v = some e →
      (loadSegmentLoop file writable n spt ofs upage readBytes zeroBytes).1.find v = some e := by
  induction n with
  | zero => exact fun _ _ _ _ h => h
  | succ n ih =>
    intro spt ofs upage readBytes zeroBytes h
    rw [loadSegmentLoop]
    split_ifs
    · exact ih _ _ _ _ (Spt.find_insert_of_some h _ _)
    · exact h

/-- The `ofs` the loop ends with is its start stepped by `PGSIZE` at most `n` times. -/
lemma loadSegmentLoop_ofs (n : ℕ) :
    ∀ (spt : Spt) (ofs upage readBytes zeroBytes : ℕ), ofs < 2 ^ 32 →
      ∃ k ≤ n, (loadSegmentLoop file writable n spt ofs upage readBytes zeroBytes).2 =
        wrap32 (ofs + k * pgSize) := by
  induction n with
  | zero =>
    intro spt ofs upage readBytes zeroBytes h
    refine ⟨0, le_rfl, ?_⟩
    rw [Nat.zero_mul, Nat.add_zero, wrap32_of_lt h]
    rfl
  | succ n ih =>
    intro spt ofs upage readBytes zeroBytes h
    rw [loadSegmentLoop]
    split_ifs
    · obtain ⟨k, hk, heq⟩ := ih _ (wrap32 (ofs + pgSize)) _ _ _ (Nat.mod_lt _ (by decide))
      exact ⟨k + 1, by omega, heq.trans (wrap32_next ofs k)⟩
    · refine ⟨0, Nat.zero_le _, ?_⟩
      rw [Nat.zero_mul, Nat.add_zero, wrap32_of_lt h]

end SegmentLoop

/-- The two ways `load_segment` returns: refused by `validate_free_page` with the table as it
was, or with the loop's table. -/
lemma loadSegment_eq_some {file : ℕ} {spt spt' : Spt} {a : SegmentArgs} {b : Bool}
    (h : loadSegment file spt a = some (b, spt')) :
    a.Asserts ∧
      (validateFreePage spt a.upage a.readBytes = false ∧ b = false ∧ spt' = spt ∨
        validateFreePage spt a.upage a.readBytes = true ∧ b = true ∧
          spt' = (loadSegmentLoop file a.writable ((a.readBytes + a.zeroBytes) / pgSize) spt
            a.ofs a.upage a.readBytes a.zeroBytes).1) := by
  unfold loadSegment at h
  by_cases ha : a.Asserts
  · rw [if_neg (not_not.mpr ha)] at h
    refine ⟨ha, ?_⟩
    by_cases hv : validateFreePage spt a.upage a.readBytes = false
    · rw [if_pos hv] at h
      obtain ⟨rfl, rfl⟩ := Prod.mk.inj (Option.some.inj h)
      exact Or.inl ⟨hv, rfl, rfl⟩
    · rw [if_neg hv] at h
      have hv' : validateFreePage spt a.upage a.readBytes = true := by simpa using hv
      dsimp only at h
      split_ifs at h
      obtain ⟨rfl, rfl⟩ := Prod.mk.inj (Option.some.inj h)
      exact Or.inr ⟨hv', rfl, rfl⟩
  · rw [if_pos ha] at h
    cases h

/-- `load_segment` with arguments that fit adds only pages in `[PGSIZE, PHYS_BASE)`, and `EXEC`
entries that read at most a page. -/
theorem loadSegment_adds {file : ℕ} {spt spt' : Spt} {a : SegmentArgs} {b : Bool}
    (ha : a.Fits) (h : loadSegment file spt a = some (b, spt')) : AddsUserPages spt spt' := by
  obtain ⟨hasserts, ⟨-, -, rfl⟩ | ⟨-, -, rfl⟩⟩ := loadSegment_eq_some h
  · exact AddsUserPages.refl _
  · apply loadSegmentLoop_adds _ _ _ _ _ _ ha.low
    -- the pages end at `upage + read_bytes + zero_bytes`, a multiple of `PGSIZE`
    have hhigh := ha.high
    have hlt : a.readBytes + a.zeroBytes < 2 ^ 32 := by unfold physBase at hhigh; omega
    have hdvd := hasserts.1
    rw [wrap32_of_lt hlt] at hdvd
    rw [Nat.div_mul_cancel (Nat.dvd_of_mod_eq_zero hdvd)]
    exact hhigh

/-! ### Runs of `load` -/

/-- A program header read inside the file, or a call of `load_segment` with arguments that
fit. -/
def LoadEvent.Confined (len : ℕ) : LoadEvent → Prop
  | .readPhdr o => 0 ≤ o ∧ o ≤ len
  | .segment a => a.Fits

/-- A run of `load`'s loop from the table `spt`, on a file of `len` bytes, that stays in user
space: a table it returns only adds user pages to `spt`, and everything it did is confined. -/
def RunConfined (len : ℕ) (spt : Spt) (r : Option (Bool × Spt) × List LoadEvent) : Prop :=
  (∀ b spt', r.1 = some (b, spt') → AddsUserPages spt spt') ∧ ∀ ev ∈ r.2, ev.Confined len

namespace RunConfined

variable {len : ℕ} {spt : Spt}

/-- A run that ends with the result `r` of its last call, after the events `evs`. -/
lemma last {r : Option (Bool × Spt)} {evs : List LoadEvent}
    (hr : ∀ b spt', r = some (b, spt') → AddsUserPages spt spt')
    (hevs : ∀ ev ∈ evs, ev.Confined len) : RunConfined len spt (r, evs) :=
  ⟨hr, hevs⟩

/-- `goto done` with the table as it was. -/
lemma stop {b : Bool} {evs : List LoadEvent} (hevs : ∀ ev ∈ evs, ev.Confined len) :
    RunConfined len spt (some (b, spt), evs) := by
  refine last ?_ hevs
  intro b' spt' h
  obtain ⟨-, rfl⟩ := Prod.mk.inj (Option.some.inj h)
  exact AddsUserPages.refl _

/-- A step that does `ev` and moves the table to `spt'`, then a confined run from there. -/
lemma cons {spt' : Spt} {ev : LoadEvent} {r : Option (Bool × Spt) × List LoadEvent}
    (hadds : AddsUserPages spt spt') (hev : ev.Confined len) (h : RunConfined len spt' r) :
    RunConfined len spt (r.1, ev :: r.2) := by
  refine ⟨fun b spt'' hr => hadds.trans (h.1 b spt'' hr), ?_⟩
  intro e he
  rcases List.mem_cons.mp he with rfl | he
  · exact hev
  · exact h.2 e he

end RunConfined

section Load

variable (ino : Inode) (disk : DiskBytes) (readOk : ℕ → Bool) (junk : ℕ → UInt8) (file : ℕ)

/-- Every run of the loop over the program headers stays in user space; the induction is on the
headers left. -/
theorem phdrLoop_confined (n : ℕ) :
    ∀ (i : ℕ) (fileOfs : ℤ) (spt : Spt),
      RunConfined ino.data.length spt (phdrLoop ino disk readOk junk file n i fileOfs spt) := by
  induction n with
  | zero => exact fun _ _ _ => RunConfined.stop (by simp)
  | succ n ih =>
    intro i fileOfs spt
    rw [phdrLoop]
    by_cases hofs : fileOfs < 0 ∨ (ino.data.length : ℤ) < fileOfs
    · rw [if_pos hofs]
      exact RunConfined.stop (by simp)
    rw [if_neg hofs]
    -- the header is read inside the file
    have hseen : (LoadEvent.readPhdr fileOfs).Confined ino.data.length := by
      simp only [LoadEvent.Confined]
      omega
    dsimp only
    split_ifs with hcnt htype hload hvalid
    · exact RunConfined.stop (by simpa using hseen)
    · exact RunConfined.stop (by simpa using hseen)
    · -- a `PT_LOAD` header that `validate_segment` accepts
      have hfits := segmentArgs_fits hvalid
      split
      · next spt' heq =>
        exact RunConfined.cons (loadSegment_adds hfits heq) hseen
          (RunConfined.cons (AddsUserPages.refl _)
            (show (LoadEvent.segment _).Confined _ from hfits) (ih _ _ _))
      · -- `load_segment` failed or returned false: its table is the run's result
        refine RunConfined.last (fun b spt' hr => loadSegment_adds hfits hr) ?_
        intro ev hev
        simp only [List.mem_cons, List.not_mem_nil, or_false] at hev
        rcases hev with rfl | rfl
        · exact hseen
        · exact hfits
    · exact RunConfined.stop (by simpa using hseen)
    · exact RunConfined.cons (AddsUserPages.refl _) hseen (ih _ _ _)

/-- Every run of `load` on the executable stays in user space. -/
theorem loadElf_confined (spt : Spt) :
    RunConfined ino.data.length spt (loadElf ino disk readOk junk file spt) := by
  unfold loadElf
  dsimp only
  split_ifs
  · exact RunConfined.stop (by simp)
  · exact phdrLoop_confined ino disk readOk junk file _ _ _ _

/-- `load` on any executable, whatever its bytes and length and whichever reads get their bounce
buffer: a table it leaves, whether it succeeds or gives up, has new entries only for pages in
`[PGSIZE, PHYS_BASE)`, an `EXEC` one reading at most a page; it reads program headers only
at offsets in `[0, file_length]`; and it calls `load_segment` only with arguments that pass its
`ASSERT`s, for pages in `[PGSIZE, PHYS_BASE)`. -/
theorem elf_load_confined (spt : Spt) :
    ∃ res evs, loadElf ino disk readOk junk file spt = (res, evs) ∧
      (∀ b spt', res = some (b, spt') → ∀ v, spt'.find v ≠ spt.find v →
        pgSize ≤ v ∧ v < physBase ∧
          ∀ f o z w, spt'.find v = some (.exec f o z w) → z ≤ pgSize) ∧
      (∀ o, LoadEvent.readPhdr o ∈ evs → 0 ≤ o ∧ o ≤ ino.data.length) ∧
      ∀ a, LoadEvent.segment a ∈ evs →
        a.Asserts ∧ pgSize ≤ a.upage ∧ a.upage + (a.readBytes + a.zeroBytes) ≤ physBase := by
  obtain ⟨hadds, hevs⟩ := loadElf_confined ino disk readOk junk file spt
  refine ⟨_, _, rfl, hadds, fun o ho => hevs _ ho, fun a ha => ?_⟩
  obtain ⟨hasserts, hlow, hhigh⟩ := hevs _ ha
  exact ⟨hasserts, hlow, hhigh⟩

end Load

/-! ### Pages that have an entry already -/

lemma int32Of_of_lt {a : ℕ} (h : a < 2 ^ 31) : int32Of a = a := if_pos h

/-- A segment with no bytes in the file (`p_filesz = 0`, a `.bss`) whose first page has an
entry already, from an earlier segment: `validate_free_page` is given `read_bytes = 0` and
checks no page, `hash_insert` refuses the new `ZERO` entry, and `load_segment` returns true
with the old entry left in place of the segment's page. -/
theorem load_segment_keeps_present_page {file len : ℕ} {spt : Spt} {phdr : Elf32Phdr}
    {e : SpecialPage} (hv : validateSegment phdr len = true) (hz : phdr.pFilesz = 0)
    (hofs : phdr.pOffset + phdr.pMemsz + pgSize ≤ 2 ^ 31)
    (he : spt.find (segmentArgs phdr).upage = some e) :
    ∃ spt', loadSegment file spt (segmentArgs phdr) = some (true, spt') ∧
      spt'.find (segmentArgs phdr).upage = some e := by
  have hfits := segmentArgs_fits hv
  have hsize := segmentArgs_size hv
  have hofs₀ := segmentArgs_ofs phdr
  have hpo := (validateSegment_eq_true.mp hv).1
  have hread : (segmentArgs phdr).readBytes = 0 := by simp [segmentArgs, hz]
  set a := segmentArgs phdr with ha
  set r := loadSegmentLoop file a.writable ((a.readBytes + a.zeroBytes) / pgSize) spt a.ofs
    a.upage a.readBytes a.zeroBytes with hr
  -- the loop's `ofs` ends below `2 ^ 31`: `file_seek` does not panic
  obtain ⟨k, hk, hend⟩ := @loadSegmentLoop_ofs file a.writable
    ((a.readBytes + a.zeroBytes) / pgSize) spt a.ofs a.upage a.readBytes a.zeroBytes
    (by have := phdr.offset_lt; omega)
  have hkp : k * pgSize ≤ a.readBytes + a.zeroBytes :=
    (Nat.mul_le_mul_right _ hk).trans (Nat.div_mul_le_self _ _)
  have hlt : a.ofs + k * pgSize < 2 ^ 31 := by
    unfold pgSize at *
    omega
  -- `validate_free_page` counts no page in zero bytes
  have hfree : validateFreePage spt a.upage 0 = true := by simp [validateFreePage, pageCount]
  refine ⟨r.1, ?_, loadSegmentLoop_find_of_some _ _ _ _ _ he⟩
  unfold loadSegment
  rw [if_neg (not_not.mpr hfits.asserts), hread, hfree, if_neg (show ¬(true = false) by decide)]
  dsimp only
  rw [← hread, ← hr, hend, wrap32_of_lt (by omega), int32Of_of_lt hlt, if_neg (by omega)]

/-- A `.bss`-only header over the first page of the text. -/
def bssPhdr : Elf32Phdr :=
  ⟨ptLoad, 0, 0x8048000, 0, 0x1000, 6, by decide, by decide, by decide, by decide⟩

/-- A table that holds the text page at `0x8048000`, added for an earlier header. -/
def textSpt : Spt := ⟨[(0x8048000, .exec 3 0 0x1000 false)]⟩

theorem load_segment_keeps_present_page_bss :
    ∃ spt', loadSegment 3 textSpt (segmentArgs bssPhdr) = some (true, spt') ∧
      spt'.find 0x8048000 = some (.exec 3 0 0x1000 false) :=
  @load_segment_keeps_present_page 3 0x2000 textSpt bssPhdr _ (by decide) rfl (by decide) rfl

end TinyOs
