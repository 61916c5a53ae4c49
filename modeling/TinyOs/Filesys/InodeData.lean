import TinyOs.Filesys.Inode
import TinyOs.Lib.Copy

/-!
The bytes `inode_read_at` and `inode_write_at` (`filesys/inode.c`) move between a caller's
buffer and the disk. `Filesys/Inode.lean` counts them (`ioLoop`); here the disk is a map from
byte addresses to bytes, sector `n` from address `n * DISK_SECTOR_SIZE` on, and the loops copy
runs of bytes with `disk_read`, `disk_write` and `memcpy`.

The data of an inode lies from byte `start * DISK_SECTOR_SIZE` of the disk on, byte `pos` of the
file at `start * DISK_SECTOR_SIZE + pos`, since `byte_to_sector` maps it to sector
`start + pos / DISK_SECTOR_SIZE`. A chunk that is a whole sector goes straight between the
caller's buffer and the disk; any other goes through the bounce buffer, which for a write
is first filled with the sector (the test `sector_ofs > 0 || chunk_size < sector_left` holds for
every chunk that reaches it) so that the bytes around the chunk are kept. The bounce buffer
`malloc` returns holds whatever the heap held (`junk`).

* `writeLoop_eq`, `readLoop_eq`: each loop is one copy of as many bytes as `ioLoop` counts;
* `bounceWrite_full`: a whole sector written through the bounce buffer is the sector written
  directly;
* `FsState.inodeWriteAt_fst`: the count `Filesys/Inode.lean` keeps is the count returned here;
* `inode_byte_io`: what a write does to the disk, and what a read after it returns.
-/

namespace TinyOs

open Copy

/-- The disk, byte by byte: byte `j` of sector `n` is at `n * DISK_SECTOR_SIZE + j`. -/
abbrev DiskBytes := ℕ → UInt8

/-- `disk_read (d, sec_no, buffer + ofs)`: the sector copied into the buffer. -/
def diskRead (disk : DiskBytes) (secNo : ℕ) (buffer : ℕ → UInt8) (ofs : ℕ) : ℕ → UInt8 :=
  copyRange buffer ofs disk (secNo * diskSectorSize) diskSectorSize

/-- `disk_write (d, sec_no, buffer + ofs)`: the buffer's bytes copied into the sector. -/
def diskWrite (disk : DiskBytes) (secNo : ℕ) (buffer : ℕ → UInt8) (ofs : ℕ) : DiskBytes :=
  copyRange disk (secNo * diskSectorSize) buffer ofs diskSectorSize

/-- `memcpy (dst + dOfs, src + sOfs, n)`. -/
def memcpy (dst : ℕ → UInt8) (dOfs : ℕ) (src : ℕ → UInt8) (sOfs n : ℕ) : ℕ → UInt8 :=
  copyRange dst dOfs src sOfs n

/-- `memset (dst + dOfs, v, n)`. -/
def memset (dst : ℕ → UInt8) (dOfs : ℕ) (v : UInt8) (n : ℕ) : ℕ → UInt8 :=
  copyRange dst dOfs (fun _ => v) 0 n

/-- `byte_to_sector`: the sector holding byte `pos` of the inode, `-1` as a `disk_sector_t`
past its end. -/
def byteToSector (d : InodeDisk) (pos : ℕ) : ℕ :=
  if pos < d.length then d.start + pos / diskSectorSize else 2 ^ 32 - 1

/-- `malloc (DISK_SECTOR_SIZE)` for the bounce buffer unless it is allocated already: a new
buffer holds whatever `junk` the heap held, and `none` is `malloc` failing. -/
def mallocBounce (bounce : Option (ℕ → UInt8)) (bounceOk : Bool) (junk : ℕ → UInt8) :
    Option (ℕ → UInt8) :=
  match bounce with
  | some b => some b
  | none => if bounceOk then some junk else none

/-- One chunk of `inode_write_at` through the bounce buffer `b`: the sector read in, or zeroed
when the chunk covers it, the chunk copied over it, and the sector written back. The disk and
the bounce buffer after it. -/
def bounceWrite (disk : DiskBytes) (sectorIdx sectorOfs chunkSize : ℕ) (buffer : ℕ → UInt8)
    (bytesWritten : ℕ) (b : ℕ → UInt8) : DiskBytes × (ℕ → UInt8) :=
  let sectorLeft := diskSectorSize - sectorOfs
  let b := if 0 < sectorOfs ∨ chunkSize < sectorLeft then diskRead disk sectorIdx b 0
    else memset b 0 0 diskSectorSize
  let b := memcpy b sectorOfs buffer bytesWritten chunkSize
  (diskWrite disk sectorIdx b 0, b)

-- the linter does not see the uses of `hs` and `hc` in `decreasing_by`
set_option linter.unusedVariables false in
/-- The loop of `inode_write_at` on the inode `d`, writing the caller's `buffer` from
`bytesWritten` on at `offset`, `size` bytes still asked for: the disk after it and the bytes
written. -/
def writeLoop (d : InodeDisk) (bounceOk : Bool) (junk buffer : ℕ → UInt8) (disk : DiskBytes)
    (offset size bytesWritten : ℕ) (bounce : Option (ℕ → UInt8)) : DiskBytes × ℕ :=
  if hs : size = 0 then (disk, bytesWritten)
  else
    let sectorIdx := byteToSector d offset
    let sectorOfs := offset % diskSectorSize
    let chunkSize := min size (min (d.length - offset) (diskSectorSize - sectorOfs))
    if hc : chunkSize = 0 then (disk, bytesWritten)
    else if sectorOfs = 0 ∧ chunkSize = diskSectorSize then
      writeLoop d bounceOk junk buffer (diskWrite disk sectorIdx buffer bytesWritten)
        (offset + chunkSize) (size - chunkSize) (bytesWritten + chunkSize) bounce
    else
      match mallocBounce bounce bounceOk junk with
      | none => (disk, bytesWritten)
      | some b =>
          let r := bounceWrite disk sectorIdx sectorOfs chunkSize buffer bytesWritten b
          writeLoop d bounceOk junk buffer r.1 (offset + chunkSize) (size - chunkSize)
            (bytesWritten + chunkSize) (some r.2)
termination_by size
decreasing_by all_goals exact Nat.sub_lt (Nat.pos_of_ne_zero hs) (Nat.pos_of_ne_zero hc)

-- the linter does not see the uses of `hs` and `hc` in `decreasing_by`
set_option linter.unusedVariables false in
/-- The loop of `inode_read_at` on the inode `d`, reading into the caller's `buffer` from
`bytesRead` on, from `offset`, `size` bytes still asked for: the buffer after it and the bytes
read. -/
def readLoop (d : InodeDisk) (bounceOk : Bool) (junk : ℕ → UInt8) (disk : DiskBytes)
    (buffer : ℕ → UInt8) (offset size bytesRead : ℕ) (bounce : Option (ℕ → UInt8)) :
    (ℕ → UInt8) × ℕ :=
  if hs : size = 0 then (buffer, bytesRead)
  else
    let sectorIdx := byteToSector d offset
    let sectorOfs := offset % diskSectorSize
    let chunkSize := min size (min (d.length - offset) (diskSectorSize - sectorOfs))
    if hc : chunkSize = 0 then (buffer, bytesRead)
    else if sectorOfs = 0 ∧ chunkSize = diskSectorSize then
      readLoop d bounceOk junk disk (diskRead disk sectorIdx buffer bytesRead) (offset + chunkSize)
        (size - chunkSize) (bytesRead + chunkSize) bounce
    else
      match mallocBounce bounce bounceOk junk with
      | none => (buffer, bytesRead)
      | some b =>
          let b := diskRead disk sectorIdx b 0
          readLoop d bounceOk junk disk (memcpy buffer bytesRead b sectorOfs chunkSize)
            (offset + chunkSize) (size - chunkSize) (bytesRead + chunkSize) (some b)
termination_by size
decreasing_by all_goals exact Nat.sub_lt (Nat.pos_of_ne_zero hs) (Nat.pos_of_ne_zero hc)

/-- `inode_read_at (inode, buffer, size, offset)`: the caller's buffer after it and the bytes
read. -/
def Inode.inodeReadAt (i : Inode) (bounceOk : Bool) (junk : ℕ → UInt8) (disk : DiskBytes)
    (buffer : ℕ → UInt8) (size offset : ℕ) : (ℕ → UInt8) × ℕ :=
  readLoop i.data bounceOk junk disk buffer offset size 0 none

/-- `inode_write_at (inode, buffer, size, offset)`: the disk after it and the bytes written,
none while writes are denied. -/
def Inode.inodeWriteAt (i : Inode) (bounceOk : Bool) (junk buffer : ℕ → UInt8)
    (disk : DiskBytes) (size offset : ℕ) : DiskBytes × ℕ :=
  if i.denyWriteCnt ≠ 0 then (disk, 0)
  else writeLoop i.data bounceOk junk buffer disk offset size 0 none

/-! ### One chunk -/

/-- Byte `pos` of the file is byte `pos % DISK_SECTOR_SIZE` of the sector `byte_to_sector`
gives. -/
lemma byteToSector_mul_add {d : InodeDisk} {pos : ℕ} (h : pos < d.length) :
    byteToSector d pos * diskSectorSize + pos % diskSectorSize =
      d.start * diskSectorSize + pos := by
  rw [byteToSector, if_pos h, Nat.add_mul, Nat.add_assoc, Nat.div_add_mod']

lemma mallocBounce_isSome (bounce : Option (ℕ → UInt8)) (bounceOk : Bool) (junk : ℕ → UInt8) :
    (mallocBounce bounce bounceOk junk).isSome = (bounce.isSome || bounceOk) := by
  cases bounce <;> cases bounceOk <;> rfl

/-- A chunk inside one sector that is not the whole sector, written through the bounce buffer,
is copied into the disk at its place and changes nothing else. -/
lemma bounceWrite_fst {disk : DiskBytes} {sectorIdx sectorOfs chunkSize : ℕ}
    (buffer : ℕ → UInt8) (bytesWritten : ℕ) (b : ℕ → UInt8)
    (hin : sectorOfs + chunkSize ≤ diskSectorSize)
    (hpart : ¬(sectorOfs = 0 ∧ chunkSize = diskSectorSize)) :
    (bounceWrite disk sectorIdx sectorOfs chunkSize buffer bytesWritten b).1 =
      copyRange disk (sectorIdx * diskSectorSize + sectorOfs) buffer bytesWritten chunkSize := by
  -- the sector is read in first: the chunk leaves bytes of it before or after
  have hread : 0 < sectorOfs ∨ chunkSize < diskSectorSize - sectorOfs := by omega
  simp only [bounceWrite, if_pos hread, diskWrite, diskRead, memcpy]
  exact copyRange_window disk _ b buffer bytesWritten hin

/-- A whole sector written through the bounce buffer, zeroed and then overwritten, is the
sector written directly. -/
theorem bounceWrite_full (disk : DiskBytes) (sectorIdx : ℕ) (buffer : ℕ → UInt8)
    (bytesWritten : ℕ) (b : ℕ → UInt8) :
    (bounceWrite disk sectorIdx 0 diskSectorSize buffer bytesWritten b).1 =
      diskWrite disk sectorIdx buffer bytesWritten := by
  have hzero : ¬(0 < 0 ∨ diskSectorSize < diskSectorSize - 0) := by omega
  simp only [bounceWrite, if_neg hzero, diskWrite, memset, memcpy]
  rw [copyRange_of_copyRange_src disk _ _ buffer bytesWritten (by omega), Nat.add_zero]

/-! ### The loops -/

section Loops

variable (d : InodeDisk) (bounceOk : Bool) (junk : ℕ → UInt8)

/-- The write loop copies into the file's bytes from `offset` on as many bytes of the buffer as
`ioLoop` counts, and changes nothing else. -/
theorem writeLoop_eq (buffer : ℕ → UInt8) (size : ℕ) :
    ∀ (disk : DiskBytes) (offset bytesWritten : ℕ) (bounce : Option (ℕ → UInt8)),
      writeLoop d bounceOk junk buffer disk offset size bytesWritten bounce =
        (copyRange disk (d.start * diskSectorSize + offset) buffer bytesWritten
            (ioLoop d.length bounceOk offset size bounce.isSome),
          bytesWritten + ioLoop d.length bounceOk offset size bounce.isSome) := by
  induction size using Nat.strong_induction_on with
  | _ size ih =>
    intro disk offset bytesWritten bounce
    rw [writeLoop, ioLoop]
    by_cases hs : size = 0
    · simp [hs]
    · simp only [hs, dite_false]
      by_cases hc : min size (min (d.length - offset) (diskSectorSize - offset % diskSectorSize)) = 0
      · simp [hc]
      · simp only [hc, dite_false]
        have hsec := @byteToSector_mul_add d offset (by omega)
        have hofs : offset % diskSectorSize < diskSectorSize := Nat.mod_lt _ (by decide)
        split_ifs with hfull hb
        · -- a whole sector, written straight from the buffer
          obtain ⟨hzero, hchunk⟩ := hfull
          have hpos : byteToSector d offset * diskSectorSize = d.start * diskSectorSize + offset := by
            rw [← hsec, hzero, Nat.add_zero]
          rw [hchunk, ih _ (by omega), diskWrite, hpos, ← Nat.add_assoc (d.start * diskSectorSize),
            copyRange_adjacent, Nat.add_assoc bytesWritten]
        · -- a part of a sector, through the bounce buffer
          cases hm : mallocBounce bounce bounceOk junk with
          | none =>
              rw [← mallocBounce_isSome bounce bounceOk junk, hm] at hb
              cases hb
          | some b =>
              dsimp only
              rw [ih _ (by omega), bounceWrite_fst buffer bytesWritten b (by omega) hfull, hsec,
                ← Nat.add_assoc, copyRange_adjacent, Nat.add_assoc]
              rfl
        · -- `malloc` failed
          have hm : mallocBounce bounce bounceOk junk = none := by
            rw [← Option.not_isSome_iff_eq_none, mallocBounce_isSome]
            simpa using hb
          simp [hm]

/-- The read loop copies into the buffer from `bytesRead` on as many of the file's bytes from
`offset` on as `ioLoop` counts, and changes nothing else. -/
theorem readLoop_eq (disk : DiskBytes) (size : ℕ) :
    ∀ (buffer : ℕ → UInt8) (offset bytesRead : ℕ) (bounce : Option (ℕ → UInt8)),
      readLoop d bounceOk junk disk buffer offset size bytesRead bounce =
        (copyRange buffer bytesRead disk (d.start * diskSectorSize + offset)
            (ioLoop d.length bounceOk offset size bounce.isSome),
          bytesRead + ioLoop d.length bounceOk offset size bounce.isSome) := by
  induction size using Nat.strong_induction_on with
  | _ size ih =>
    intro buffer offset bytesRead bounce
    rw [readLoop, ioLoop]
    by_cases hs : size = 0
    · simp [hs]
    · simp only [hs, dite_false]
      by_cases hc : min size (min (d.length - offset) (diskSectorSize - offset % diskSectorSize)) = 0
      · simp [hc]
      · simp only [hc, dite_false]
        have hsec := @byteToSector_mul_add d offset (by omega)
        have hofs : offset % diskSectorSize < diskSectorSize := Nat.mod_lt _ (by decide)
        split_ifs with hfull hb
        · -- a whole sector, read straight into the buffer
          obtain ⟨hzero, hchunk⟩ := hfull
          have hpos : byteToSector d offset * diskSectorSize = d.start * diskSectorSize + offset := by
            rw [← hsec, hzero, Nat.add_zero]
          rw [hchunk, ih _ (by omega), diskRead, hpos, ← Nat.add_assoc (d.start * diskSectorSize),
            copyRange_adjacent, Nat.add_assoc bytesRead]
        · -- a part of a sector, through the bounce buffer
          cases hm : mallocBounce bounce bounceOk junk with
          | none =>
              rw [← mallocBounce_isSome bounce bounceOk junk, hm] at hb
              cases hb
          | some b =>
              dsimp only
              rw [ih _ (by omega), memcpy, diskRead,
                copyRange_of_copyRange_src buffer bytesRead b disk _ (by omega), hsec,
                ← Nat.add_assoc, copyRange_adjacent, Nat.add_assoc]
              rfl
        · -- `malloc` failed
          have hm : mallocBounce bounce bounceOk junk = none := by
            rw [← Option.not_isSome_iff_eq_none, mallocBounce_isSome]
            simpa using hb
          simp [hm]

end Loops

/-- The loop never moves more than is asked for, nor past the end of the inode. -/
lemma ioLoop_le (length : ℕ) (bounceOk : Bool) (offset size : ℕ) (bounce : Bool) :
    ioLoop length bounceOk offset size bounce ≤ min size (length - offset) := by
  induction size using Nat.strong_induction_on generalizing offset bounce with
  | _ size ih =>
    rw [ioLoop]
    by_cases hs : size = 0
    · simp [hs]
    · have hsec : offset % diskSectorSize < diskSectorSize := Nat.mod_lt _ (by decide)
      simp only [hs, dite_false]
      split_ifs with hc hfull hb
      · omega
      · -- a whole sector, and what the rest of the loop moves after it
        refine (Nat.add_le_add_left (ih _ ?_ _ _) _).trans ?_ <;> omega
      · refine (Nat.add_le_add_left (ih _ ?_ _ _) _).trans ?_ <;> omega
      · omega

/-- The sectors `bytes_to_sectors` counts hold every byte of the inode. -/
lemma le_bytesToSectors_mul (length : ℕ) : length ≤ bytesToSectors length * diskSectorSize := by
  unfold bytesToSectors diskSectorSize
  omega

/-! ### Writing and reading back -/

/-- `inode_write_at` once writes are allowed: the buffer's first bytes copied into the file at
`offset`, as many as the loop moves. -/
theorem Inode.inodeWriteAt_eq {i : Inode} (hd : i.denyWriteCnt = 0) (bounceOk : Bool)
    (junk buffer : ℕ → UInt8) (disk : DiskBytes) (size offset : ℕ) :
    i.inodeWriteAt bounceOk junk buffer disk size offset =
      (copyRange disk (i.data.start * diskSectorSize + offset) buffer 0
          (ioLoop i.data.length bounceOk offset size false),
        ioLoop i.data.length bounceOk offset size false) := by
  rw [Inode.inodeWriteAt, if_neg (by omega), writeLoop_eq, Option.isSome_none, Nat.zero_add]

/-- `inode_read_at`: the file's bytes from `offset` on copied into the buffer's first bytes, as
many as the loop moves. -/
theorem Inode.inodeReadAt_eq (i : Inode) (bounceOk : Bool) (junk : ℕ → UInt8) (disk : DiskBytes)
    (buffer : ℕ → UInt8) (size offset : ℕ) :
    i.inodeReadAt bounceOk junk disk buffer size offset =
      (copyRange buffer 0 disk (i.data.start * diskSectorSize + offset)
          (ioLoop i.data.length bounceOk offset size false),
        ioLoop i.data.length bounceOk offset size false) := by
  rw [Inode.inodeReadAt, readLoop_eq, Option.isSome_none, Nat.zero_add]

/-- Whether or not writes are denied, `inode_write_at` copies a run of the buffer that ends
neither past the request nor past the end of the inode into the file at `offset`. -/
theorem Inode.inodeWriteAt_copy (i : Inode) (bounceOk : Bool) (junk buffer : ℕ → UInt8)
    (disk : DiskBytes) (size offset : ℕ) :
    ∃ w ≤ min size (i.data.length - offset), i.inodeWriteAt bounceOk junk buffer disk size offset =
      (copyRange disk (i.data.start * diskSectorSize + offset) buffer 0 w, w) := by
  by_cases hd : i.denyWriteCnt = 0
  · exact ⟨_, ioLoop_le _ _ _ _ _, i.inodeWriteAt_eq hd bounceOk junk buffer disk size offset⟩
  · refine ⟨0, Nat.zero_le _, ?_⟩
    rw [Inode.inodeWriteAt, if_pos hd, copyRange_zero]

/-- A copy of `w` bytes into the file at `offset` leaves every sector outside the inode's data
alone, when the run ends inside the file. -/
lemma copyRange_sector_frame {d : InodeDisk} {offset w : ℕ} (hw : w ≤ d.length - offset)
    (disk : DiskBytes) (buffer : ℕ → UInt8) {sec j : ℕ}
    (hsec : sec < d.start ∨ d.start + bytesToSectors d.length ≤ sec) (hj : j < diskSectorSize) :
    copyRange disk (d.start * diskSectorSize + offset) buffer 0 w (sec * diskSectorSize + j) =
      disk (sec * diskSectorSize + j) := by
  apply copyRange_of_not_mem
  have hL := le_bytesToSectors_mul d.length
  rcases hsec with hlt | hge
  · -- a sector before the data
    have : (sec + 1) * diskSectorSize ≤ d.start * diskSectorSize := Nat.mul_le_mul_right _ hlt
    rw [Nat.add_mul] at this
    omega
  · -- a sector after it
    have : (d.start + bytesToSectors d.length) * diskSectorSize ≤ sec * diskSectorSize :=
      Nat.mul_le_mul_right _ hge
    rw [Nat.add_mul] at this
    omega

/-- The count `FsState.inodeWriteAt` keeps for an open inode is what the byte-level write
returns, with `malloc`'s outcome drawn from the heap. -/
theorem FsState.inodeWriteAt_fst (heapOk : ℕ → Bool) (s : FsState) {sector : ℕ} {i : Inode}
    (hi : s.inodes sector = some i) (junk buffer : ℕ → UInt8) (disk : DiskBytes)
    (size offset : ℕ) :
    (s.inodeWriteAt heapOk sector size offset).1 =
      (i.inodeWriteAt (heapOk s.allocs) junk buffer disk size offset).2 := by
  simp only [FsState.inodeWriteAt, FsState.alloc, hi]
  by_cases hd : i.denyWriteCnt = 0
  · rw [i.inodeWriteAt_eq hd, if_neg (by omega)]
  · rw [Inode.inodeWriteAt, if_pos hd, if_pos hd]

/-- What `inode_write_at` does to the disk and returns: nothing while writes are denied;
otherwise the first `w` bytes of the buffer, `w` all the bytes asked for up to the end of the
inode unless `malloc` fails for the bounce buffer, copied into the file at `offset`, which
`inode_read_at` at the same place then reads back; no other byte of the file and no sector
outside its data changed; and a whole sector through the bounce buffer is written as the fast
path writes it. -/
theorem inode_byte_io (i : Inode) (bounceOk readOk : Bool) (junk junk' buffer out : ℕ → UInt8)
    (disk : DiskBytes) (size offset : ℕ) :
    ∃ disk' w, i.inodeWriteAt bounceOk junk buffer disk size offset = (disk', w) ∧
      w ≤ min size (i.data.length - offset) ∧
      (i.denyWriteCnt ≠ 0 → disk' = disk ∧ w = 0) ∧
      (i.denyWriteCnt = 0 → bounceOk = true → w = min size (i.data.length - offset)) ∧
      (∀ k < w, disk' (i.data.start * diskSectorSize + offset + k) = buffer k) ∧
      (i.denyWriteCnt = 0 → bounceOk = true → readOk = true →
        ∃ out', i.inodeReadAt readOk junk' disk' out size offset = (out', w) ∧
          ∀ k < w, out' k = buffer k) ∧
      (∀ pos, pos < offset ∨ offset + w ≤ pos →
        disk' (i.data.start * diskSectorSize + pos) = disk (i.data.start * diskSectorSize + pos)) ∧
      (∀ sec, sec < i.data.start ∨ i.data.start + bytesToSectors i.data.length ≤ sec →
        ∀ j < diskSectorSize, disk' (sec * diskSectorSize + j) = disk (sec * diskSectorSize + j)) ∧
      ∀ (d : DiskBytes) (sec : ℕ) (src : ℕ → UInt8) (ofs : ℕ) (b : ℕ → UInt8),
        (bounceWrite d sec 0 diskSectorSize src ofs b).1 = diskWrite d sec src ofs := by
  obtain ⟨w, hw, hwr⟩ := i.inodeWriteAt_copy bounceOk junk buffer disk size offset
  -- the byte count when writes are allowed and `malloc` succeeds
  have hmin : i.denyWriteCnt = 0 → bounceOk = true → w = min size (i.data.length - offset) := by
    intro hd hb
    rw [i.inodeWriteAt_eq hd, Prod.mk.injEq] at hwr
    rw [← hwr.2, @ioLoop_eq_min i.data.length bounceOk offset size false (by simp [hb])]
  -- the bytes written are the buffer's first ones
  have hbytes : ∀ k < w, copyRange disk (i.data.start * diskSectorSize + offset) buffer 0 w
      (i.data.start * diskSectorSize + offset + k) = buffer k := by
    intro k hk
    rw [copyRange_add hk, Nat.zero_add]
  refine ⟨_, w, hwr, hw, ?_, hmin, hbytes, ?_, ?_, ?_, bounceWrite_full⟩
  · -- writes denied: nothing is written
    intro hd
    rw [Inode.inodeWriteAt, if_pos hd, Prod.mk.injEq] at hwr
    obtain ⟨-, rfl⟩ := hwr
    exact ⟨copyRange_zero _ _ _ _, rfl⟩
  · -- reading back what was written
    intro hd hb hr
    rw [i.inodeReadAt_eq, @ioLoop_eq_min i.data.length readOk offset size false (by simp [hr]),
      ← hmin hd hb]
    refine ⟨_, rfl, fun k hk => ?_⟩
    rw [copyRange_of_mem (by omega), Nat.sub_zero, hbytes k hk]
  · -- the rest of the file
    intro pos hpos
    exact copyRange_of_not_mem (by omega)
  · -- the sectors outside the inode's data
    intro sec hsec j hj
    exact copyRange_sector_frame (by omega) disk buffer hsec hj

end TinyOs
