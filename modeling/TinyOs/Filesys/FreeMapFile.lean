import TinyOs.Threads.Palloc
import TinyOs.Filesys.InodeData
import TinyOs.Lib.LittleEndian

/-!
The free map on the disk: `bitmap_file_size`, `bitmap_read` and `bitmap_write` of
`lib/kernel/bitmap.c`, and the write-back in `free_map_allocate` and `free_map_release`
(`filesys/free-map.c`). A bitmap's file holds its elements as the 80x86 keeps them in memory,
byte by byte (`LittleEndian.bytes`), so bit `k` of the map is bit `k % 8` of byte `k / 8` of the
file (`fileBit`). `bitmap_read` fills the elements from the file, then clears the bits of the
last element past `bit_cnt`: `bitmap_create` leaves them as `malloc` found them, and
`bitmap_write` writes them out as they are.

`Filesys/Inode.lean` draws the outcome of the write-back of `free_map_allocate` from the heap;
here the free map is written through `inode_write_at` to the bytes of the disk
(`Filesys/InodeData.lean`), and it succeeds when all its bytes are written.

* `bitmap_read_succeeds_iff`: given its bounce buffer, `bitmap_read` reads the whole map exactly
  when the file holds `bitmap_file_size` bytes, so a free map file created for a smaller disk
  stops `free_map_open` with "can't read free map";
* `bitmap_write_read_round_trip`: what `bitmap_write` wrote, `bitmap_read` reads back: the same
  bits, and the same map when the bits past `bit_cnt` are clear;
* `free_map_disk_covers`: across any run of `free_map_allocate` and `free_map_release`, whether
  their write-backs succeed, fail or stop half way, every sector in use in the free map is in use
  in its file, so the free map `free_map_open` reads at the next boot frees no sector in use;
* `freeMapAllocate_refines`: through `toBitmap`, `free_map_allocate` here is the one of
  `Filesys/Inode.lean` for one outcome of the heap's draw;
* `test_freeMapInit`: `free_map_init` marks exactly `FREE_MAP_SECTOR` and `ROOT_DIR_SECTOR`.
-/

namespace TinyOs

open Copy LittleEndian

/-- Bit `k` of the data of inode `i` on the disk: bit `k % 8` of its byte `k / 8`. -/
def fileBit (disk : DiskBytes) (i : Inode) (k : ℕ) : Bool :=
  (disk (i.data.start * diskSectorSize + k / 8)).toNat.testBit (k % 8)

namespace ElemBitmap

variable (b : ElemBitmap)

/-- `bitmap_file_size`. -/
def fileSize : ℕ := byteCnt b.bitCnt

/-- `last_mask`: the bits of the last element that the map uses. -/
def lastMask : BitVec 32 :=
  if b.bitCnt % elemBits ≠ 0 then (1#32 <<< (b.bitCnt % elemBits)) - 1 else -1

/-- `b->bits[elem_cnt (b->bit_cnt) - 1] &= last_mask (b)`. -/
def maskLast : ElemBitmap :=
  b.setElem (elemCnt b.bitCnt - 1) (b.elem (elemCnt b.bitCnt - 1) &&& b.lastMask)

/-- The map of `bitCnt` bits whose elements are read from the bytes `f`. -/
def ofBytes (bitCnt : ℕ) (f : ℕ → UInt8) : ElemBitmap :=
  ⟨bitCnt, words f (elemCnt bitCnt), length_words _ _⟩

/-- `bitmap_read (b, file)` from the file of inode `i`: `file_read_at (file, b->bits, size, 0)`,
which is `inode_read_at`, into the elements, then the last one masked. The map, and whether the
whole of it was read. -/
def bitmapRead (i : Inode) (bounceOk : Bool) (junk : ℕ → UInt8) (disk : DiskBytes) :
    ElemBitmap × Bool :=
  if 0 < b.bitCnt then
    let size := byteCnt b.bitCnt
    let r := i.inodeReadAt bounceOk junk disk (bytes b.bits) size 0
    ((ofBytes b.bitCnt r.1).maskLast, r.2 == size)
  else (b, true)

/-- `bitmap_write (b, file)` to the file of inode `i`: `file_write_at (file, b->bits, size, 0)`,
which is `inode_write_at`. The disk, and whether the whole map was written. -/
def bitmapWrite (i : Inode) (bounceOk : Bool) (junk : ℕ → UInt8) (disk : DiskBytes) :
    DiskBytes × Bool :=
  let size := byteCnt b.bitCnt
  let r := i.inodeWriteAt bounceOk junk (bytes b.bits) disk size 0
  (r.1, r.2 == size)

/-- The bits past `bit_cnt` are clear. -/
def Clean : Prop := ∀ k, b.bitCnt ≤ k → b.test k = false

/-- `bitmap_set_all (b, value)`: `bitmap_set_multiple (b, 0, bitmap_size (b), value)`. -/
def setAll (value : Bool) : ElemBitmap := b.setMultiple 0 b.bitCnt value

/-- `bitmap_create (bit_cnt)`, given whether the `malloc` of the `struct bitmap` succeeds and the
elements the `malloc` of `byte_cnt (bit_cnt)` bytes returns, none for NULL. Every bit is cleared;
the bits of the last element past `bit_cnt` stay as `malloc` left them. -/
def bitmapCreate (bitCnt : ℕ) (structOk : Bool)
    (bits : Option {xs : List (BitVec 32) // xs.length = elemCnt bitCnt}) : Option ElemBitmap :=
  if structOk then
    match bits with
    | some xs => some ((⟨bitCnt, xs.1, xs.2⟩ : ElemBitmap).setAll false)
    | none =>
      if h : bitCnt = 0 then some ((⟨bitCnt, [], by rw [h]; rfl⟩ : ElemBitmap).setAll false)
      else none
  else none

/-! ### The elements as bits and bytes -/

variable {b}

lemma elemCnt_pos {n : ℕ} (h : 0 < n) : 0 < elemCnt n := by
  unfold elemCnt elemBits
  omega

/-- The elements hold every bit of the map. -/
lemma le_elemCnt (n : ℕ) : n ≤ 32 * elemCnt n := by
  unfold elemCnt elemBits
  omega

/-- Every bit of the map lies in a byte `bitmap_file_size` counts. -/
lemma div_eight_lt_fileSize {k : ℕ} (hk : k < b.bitCnt) : k / 8 < b.fileSize := by
  unfold fileSize byteCnt elemCnt elemBits
  omega

/-- Bit `k` of the map is bit `k % 8` of byte `k / 8` of its elements in memory. -/
lemma testBit_bytes_bits (b : ElemBitmap) (k : ℕ) :
    (bytes b.bits (k / 8)).toNat.testBit (k % 8) = b.test k := by
  rw [testBit_bytes, test_eq]
  rfl

/-- Past the elements, no bit is set. -/
lemma test_of_le {k : ℕ} (hk : 32 * elemCnt b.bitCnt ≤ k) : b.test k = false := by
  have hidx : b.bits.length ≤ elemIdx k := by
    rw [b.length_bits]
    unfold elemIdx elemBits
    omega
  rw [test_eq, elem, List.getD_eq_default _ _ hidx]
  exact BitVec.getLsbD_zero

/-- A map is its bit count and its bits: the elements hold nothing else. -/
lemma eq_of_test {b' : ElemBitmap} (hcnt : b.bitCnt = b'.bitCnt) (h : ∀ k, b.test k = b'.test k) :
    b = b' := by
  obtain ⟨n, xs, hxs⟩ := b
  obtain ⟨n', ys, hys⟩ := b'
  dsimp only at hcnt
  subst hcnt
  have hbits : xs = ys := by
    apply List.ext_getElem (hxs.trans hys.symm)
    intro e he he'
    apply BitVec.eq_of_getLsbD_eq
    intro j hj
    -- bit `j` of element `e` is bit `32 * e + j` of the map
    have hidx : elemIdx (32 * e + j) = e := by
      unfold elemIdx elemBits
      omega
    have hmod : (32 * e + j) % 32 = j := by omega
    have hk := h (32 * e + j)
    rw [test_eq, test_eq, hidx, hmod] at hk
    simpa only [elem, List.getD_eq_getElem _ _ he, List.getD_eq_getElem _ _ he'] using hk
  subst hbits
  rfl

@[simp] lemma ofBytes_bitCnt (n : ℕ) (f : ℕ → UInt8) : (ofBytes n f).bitCnt = n := rfl

lemma test_ofBytes (f : ℕ → UInt8) {n k : ℕ} (hk : k < 32 * elemCnt n) :
    (ofBytes n f).test k = (f (k / 8)).toNat.testBit (k % 8) := by
  have hbits : (ofBytes n f).bits = words f (elemCnt n) := rfl
  rw [← testBit_bytes_bits, hbits, bytes_words f (by omega)]

/-- `bitmap_set_multiple` over the elements, on a run inside the map. -/
lemma test_setMultiple {start cnt k : ℕ} (h : start + cnt ≤ b.bitCnt) (hk : k < b.bitCnt)
    (value : Bool) :
    (b.setMultiple start cnt value).test k =
      if start ≤ k ∧ k < start + cnt then value else b.test k := by
  have ht := congrArg (fun m => m.test k) (toBitmap_setMultiple h value)
  simp only [test_toBitmap, setMultiple_bitCnt, Bitmap.test_setMultiple, toBitmap_size,
    decide_eq_true hk, Bool.true_and] at ht
  rw [ht]
  by_cases hin : start ≤ k ∧ k < start + cnt
  · rw [if_pos ⟨hin.1, hin.2, hk⟩, if_pos hin]
  · rw [if_neg fun h' => hin ⟨h'.1, h'.2.1⟩, if_neg hin]

/-- A bit set after a run is cleared lies outside the run and was set before. -/
lemma test_of_test_setMultiple_false {start cnt k : ℕ} (h : start + cnt ≤ b.bitCnt)
    (hk : k < b.bitCnt) (ht : (b.setMultiple start cnt false).test k = true) :
    ¬(start ≤ k ∧ k < start + cnt) ∧ b.test k = true := by
  rw [test_setMultiple h hk] at ht
  by_cases hin : start ≤ k ∧ k < start + cnt
  · rw [if_pos hin] at ht
    exact absurd ht (by simp)
  · rw [if_neg hin] at ht
    exact ⟨hin, ht⟩

@[simp] lemma setAll_bitCnt (value : Bool) : (b.setAll value).bitCnt = b.bitCnt :=
  setMultiple_bitCnt _ _ _

lemma test_setAll (value : Bool) {k : ℕ} (hk : k < b.bitCnt) : (b.setAll value).test k = value := by
  rw [setAll, test_setMultiple (by omega) hk, if_pos ⟨Nat.zero_le k, by omega⟩]

/-- What `bitmap_create` returns has its bits cleared. -/
lemma bitmapCreate_eq_some {bitCnt : ℕ} {structOk : Bool}
    {bits : Option {xs : List (BitVec 32) // xs.length = elemCnt bitCnt}} {b : ElemBitmap}
    (h : bitmapCreate bitCnt structOk bits = some b) :
    b.bitCnt = bitCnt ∧ ∀ k < bitCnt, b.test k = false := by
  unfold bitmapCreate at h
  cases structOk with
  | false => simp at h
  | true =>
    rw [if_pos rfl] at h
    cases bits with
    | some xs =>
      -- the elements `malloc` returned
      obtain rfl := Option.some.inj h
      exact ⟨by simp, fun k hk => test_setAll false hk⟩
    | none =>
      -- no elements: only a map of no bits is made
      dsimp only at h
      split_ifs at h
      obtain rfl := Option.some.inj h
      exact ⟨by simp, fun k hk => test_setAll false hk⟩

/-! ### The last element -/

/-- `((elem_type) 1 << r) - 1` has its `r` low bits set. -/
lemma getLsbD_one_shiftLeft_sub_one {r : ℕ} (hr : r < 32) (j : ℕ) :
    ((1#32 <<< r) - 1).getLsbD j = decide (j < r) := by
  have h : ((1#32 <<< r) - 1).toNat = 2 ^ r - 1 := by
    have hlt : 2 ^ r < 2 ^ 32 := Nat.pow_lt_pow_right (by decide) hr
    have hpos : 0 < 2 ^ r := Nat.two_pow_pos r
    have hone : (1 : BitVec 32).toNat = 1 := rfl
    rw [BitVec.toNat_sub, BitVec.toNat_shiftLeft, hone, BitVec.toNat_ofNat, Nat.shiftLeft_eq,
      Nat.one_mul, Nat.mod_eq_of_lt hlt]
    omega
  rw [← BitVec.testBit_toNat, h, Nat.testBit_two_pow_sub_one]

lemma getLsbD_lastMask {j : ℕ} (hj : j < 32) :
    b.lastMask.getLsbD j = decide (j < b.bitCnt % 32 ∨ b.bitCnt % 32 = 0) := by
  unfold lastMask elemBits
  by_cases h : b.bitCnt % 32 = 0
  · -- `(elem_type) -1`: every bit
    rw [if_neg (not_not.mpr h), show (-1 : BitVec 32) = BitVec.allOnes 32 from rfl,
      BitVec.getLsbD_allOnes]
    simp [hj, h]
  · rw [if_pos h, getLsbD_one_shiftLeft_sub_one (Nat.mod_lt _ (by decide))]
    simp [h]

/-- The mask of the last element keeps the bits before `bit_cnt` and clears the others. -/
lemma test_maskLast (hpos : 0 < b.bitCnt) (k : ℕ) :
    b.maskLast.test k = (decide (k < b.bitCnt) && b.test k) := by
  have hlast : elemCnt b.bitCnt - 1 < b.bits.length := by
    have := elemCnt_pos hpos
    rw [b.length_bits]
    omega
  rw [maskLast, test_eq, elem_setElem hlast, test_eq]
  by_cases hk : elemIdx k = elemCnt b.bitCnt - 1
  · -- a bit of the last element: the mask keeps it when it lies before `bit_cnt`
    have hbit : (k % 32 < b.bitCnt % 32 ∨ b.bitCnt % 32 = 0) ↔ k < b.bitCnt := by
      unfold elemIdx elemCnt elemBits at hk
      omega
    rw [if_pos hk, hk, BitVec.getLsbD_and, getLsbD_lastMask (Nat.mod_lt _ (by decide)),
      decide_eq_decide.mpr hbit, Bool.and_comm]
  · rw [if_neg hk]
    by_cases hlt : k < b.bitCnt
    · rw [decide_eq_true hlt, Bool.true_and]
    · -- past the last element
      have hpast : 32 * elemCnt b.bitCnt ≤ k := by
        unfold elemIdx elemCnt elemBits at hk
        unfold elemCnt elemBits
        omega
      rw [← test_eq, test_of_le hpast, decide_eq_false hlt, Bool.false_and]

/-! ### Reading and writing the file -/

@[simp] lemma bitmapRead_bitCnt (i : Inode) (bounceOk : Bool) (junk : ℕ → UInt8)
    (disk : DiskBytes) : (b.bitmapRead i bounceOk junk disk).1.bitCnt = b.bitCnt := by
  unfold bitmapRead
  split_ifs <;> rfl

lemma bitmapRead_snd (hpos : 0 < b.bitCnt) (i : Inode) (bounceOk : Bool) (junk : ℕ → UInt8)
    (disk : DiskBytes) :
    (b.bitmapRead i bounceOk junk disk).2 =
      (ioLoop i.data.length bounceOk 0 b.fileSize false == b.fileSize) := by
  rw [bitmapRead, if_pos hpos]
  dsimp only
  rw [Inode.inodeReadAt_eq]
  rfl

/-- What `bitmap_read` reads: each bit before `bit_cnt` from the file, where `inode_read_at`
reached its byte, and as the map had it elsewhere. -/
lemma test_bitmapRead (hpos : 0 < b.bitCnt) (i : Inode) (bounceOk : Bool) (junk : ℕ → UInt8)
    (disk : DiskBytes) (k : ℕ) :
    (b.bitmapRead i bounceOk junk disk).1.test k =
      (decide (k < b.bitCnt) &&
        if k / 8 < ioLoop i.data.length bounceOk 0 b.fileSize false then fileBit disk i k
        else b.test k) := by
  rw [bitmapRead, if_pos hpos]
  dsimp only
  rw [Inode.inodeReadAt_eq, Nat.add_zero, show byteCnt b.bitCnt = b.fileSize from rfl]
  dsimp only
  rw [test_maskLast (show 0 < (ofBytes b.bitCnt _).bitCnt from hpos), ofBytes_bitCnt]
  by_cases hk : k < b.bitCnt
  · rw [decide_eq_true hk, Bool.true_and, Bool.true_and,
      test_ofBytes _ (lt_of_lt_of_le hk (le_elemCnt _))]
    by_cases hw : k / 8 < ioLoop i.data.length bounceOk 0 b.fileSize false
    · rw [copyRange_of_mem ⟨Nat.zero_le _, by omega⟩, Nat.sub_zero, if_pos hw, fileBit]
    · rw [copyRange_of_not_mem (by omega), if_neg hw, testBit_bytes_bits]
  · rw [decide_eq_false hk, Bool.false_and, Bool.false_and]

/-- `bitmap_write` copies the first bytes of the elements into the file, as many as
`inode_write_at` writes, and says whether those were all. -/
lemma bitmapWrite_eq (b : ElemBitmap) (i : Inode) (bounceOk : Bool) (junk : ℕ → UInt8)
    (disk : DiskBytes) :
    ∃ w ≤ min b.fileSize i.data.length, b.bitmapWrite i bounceOk junk disk =
      (copyRange disk (i.data.start * diskSectorSize) (bytes b.bits) 0 w, w == b.fileSize) := by
  obtain ⟨w, hw, h⟩ := i.inodeWriteAt_copy bounceOk junk (bytes b.bits) disk (byteCnt b.bitCnt) 0
  refine ⟨w, by simpa only [Nat.sub_zero, fileSize] using hw, ?_⟩
  rw [bitmapWrite, h, Nat.add_zero]
  rfl

/-- Bit `k` of the file after the first `w` bytes of the elements were copied into it. -/
lemma fileBit_copyRange (b : ElemBitmap) (disk : DiskBytes) (i : Inode) (w k : ℕ) :
    fileBit (copyRange disk (i.data.start * diskSectorSize) (bytes b.bits) 0 w) i k =
      if k / 8 < w then b.test k else fileBit disk i k := by
  unfold fileBit
  by_cases hk : k / 8 < w
  · rw [copyRange_add hk, Nat.zero_add, testBit_bytes_bits, if_pos hk]
  · rw [copyRange_of_not_mem (by omega), if_neg hk]

/-- **`bitmap_read` reads the whole map exactly when the file is long enough.** With its bounce
buffer, `bitmap_read` returns true exactly when the map is empty or the file holds
`bitmap_file_size` bytes. A free map file created for a disk of fewer sectors, in fewer
elements, is too short: `free_map_open` then stops with "can't read free map". -/
theorem bitmap_read_succeeds_iff (b : ElemBitmap) (i : Inode) (junk : ℕ → UInt8)
    (disk : DiskBytes) :
    (b.bitmapRead i true junk disk).2 = true ↔ b.bitCnt = 0 ∨ b.fileSize ≤ i.data.length := by
  by_cases hpos : 0 < b.bitCnt
  · rw [bitmapRead_snd hpos, ioLoop_eq_min 0 b.fileSize (by decide), Nat.sub_zero, beq_iff_eq]
    constructor
    · intro h
      exact .inr (by omega)
    · rintro (h | h)
      · omega
      · exact Nat.min_eq_left h
  · have hzero : b.bitCnt = 0 := by omega
    simp [bitmapRead, hzero]

/-- **What `bitmap_write` wrote, `bitmap_read` reads back.** On the file of an inode that allows
writes and holds `bitmap_file_size` bytes, with bounce buffers, `bitmap_write` writes the whole
map, and `bitmap_read` into any map of as many bits reads the whole of it: a map with the bits
written, those past `bit_cnt` cleared, which is the map written when they were clear. -/
theorem bitmap_write_read_round_trip {b b₀ : ElemBitmap} {i : Inode} (hd : i.denyWriteCnt = 0)
    (hlen : b.fileSize ≤ i.data.length) (hcnt : b₀.bitCnt = b.bitCnt) (junk junk' : ℕ → UInt8)
    (disk : DiskBytes) :
    ∃ disk', b.bitmapWrite i true junk disk = (disk', true) ∧
      ∃ b', b₀.bitmapRead i true junk' disk' = (b', true) ∧ b'.bitCnt = b.bitCnt ∧
        (∀ k, b'.test k = (decide (k < b.bitCnt) && b.test k)) ∧ (b.Clean → b' = b) := by
  have hsize : b₀.fileSize = b.fileSize := by rw [fileSize, fileSize, hcnt]
  have hall : ioLoop i.data.length true 0 b.fileSize false = b.fileSize := by
    rw [ioLoop_eq_min 0 b.fileSize (by decide), Nat.sub_zero, Nat.min_eq_left hlen]
  -- the write: every byte of the elements
  have hw : b.bitmapWrite i true junk disk =
      (copyRange disk (i.data.start * diskSectorSize) (bytes b.bits) 0 b.fileSize, true) := by
    simp only [bitmapWrite, i.inodeWriteAt_eq hd, Nat.add_zero,
      show byteCnt b.bitCnt = b.fileSize from rfl, hall, beq_self_eq_true]
  refine ⟨_, hw, ?_⟩
  -- the read: every bit before `bit_cnt` from the file
  have htest : ∀ k, (b₀.bitmapRead i true junk' (copyRange disk (i.data.start * diskSectorSize)
      (bytes b.bits) 0 b.fileSize)).1.test k = (decide (k < b.bitCnt) && b.test k) := by
    intro k
    by_cases hk : k < b.bitCnt
    · rw [test_bitmapRead (by omega), hsize, hall, hcnt,
        if_pos (div_eight_lt_fileSize hk), fileBit_copyRange, if_pos (div_eight_lt_fileSize hk)]
    · by_cases hpos : 0 < b₀.bitCnt
      · rw [test_bitmapRead hpos, hcnt, decide_eq_false hk, Bool.false_and, Bool.false_and]
      · -- an empty map reads nothing and holds no bit
        have hzero : b₀.bitCnt = 0 := by omega
        have hpast : 32 * elemCnt b₀.bitCnt ≤ k := by
          rw [hzero]
          exact Nat.zero_le k
        rw [bitmapRead, if_neg hpos, test_of_le hpast, decide_eq_false hk, Bool.false_and]
  have hok : (b₀.bitmapRead i true junk' (copyRange disk (i.data.start * diskSectorSize)
      (bytes b.bits) 0 b.fileSize)).2 = true := by
    by_cases hpos : 0 < b₀.bitCnt
    · rw [bitmapRead_snd hpos, hsize, hall, beq_self_eq_true]
    · rw [bitmapRead, if_neg hpos]
  refine ⟨_, Prod.ext rfl hok, by rw [bitmapRead_bitCnt, hcnt], htest, fun hclean => ?_⟩
  refine eq_of_test (by rw [bitmapRead_bitCnt, hcnt]) fun k => ?_
  rw [htest]
  by_cases hk : k < b.bitCnt
  · rw [decide_eq_true hk, Bool.true_and]
  · rw [decide_eq_false hk, Bool.false_and, hclean k (by omega)]

lemma scanAndFlip_of_some {start cnt i : ℕ} {value : Bool} (h : b.scan start cnt value = some i) :
    b.scanAndFlip start cnt value = (some i, b.setMultiple i cnt (!value)) := by
  unfold scanAndFlip
  rw [h]

/-- **A write-back keeps the file covering the map.** After `bitmap_write` of `fm`, the file
holds every bit set in a map `new` of as many bits whose set bits are set in `fm` and, unless the
whole of `fm` was written, were already in the file. -/
lemma fileBit_bitmapWrite {new fm : ElemBitmap} {i : Inode} {disk disk' : DiskBytes}
    {bounceOk ok : Bool} {junk : ℕ → UInt8} (hw : fm.bitmapWrite i bounceOk junk disk = (disk', ok))
    (hcnt : fm.bitCnt = new.bitCnt)
    (hnew : ∀ k < new.bitCnt, new.test k = true →
      fm.test k = true ∧ (ok = false → fileBit disk i k = true))
    {k : ℕ} (hk : k < new.bitCnt) (ht : new.test k = true) : fileBit disk' i k = true := by
  obtain ⟨w, -, heq⟩ := fm.bitmapWrite_eq i bounceOk junk disk
  rw [heq, Prod.mk.injEq] at hw
  obtain ⟨rfl, rfl⟩ := hw
  obtain ⟨hfm, hold⟩ := hnew k hk ht
  rw [fileBit_copyRange]
  by_cases hkw : k / 8 < w
  · rw [if_pos hkw, hfm]
  · -- the byte of `k` was not written, so neither was the whole map
    have hpart : (w == fm.fileSize) = false := by
      have hlt := div_eight_lt_fileSize (show k < fm.bitCnt by omega)
      rw [beq_eq_false_iff_ne]
      omega
    rw [if_neg hkw]
    exact hold hpart

/-- After a whole `bitmap_write`, the file holds every bit set in the map written. -/
lemma fileBit_of_bitmapWrite_whole {fm : ElemBitmap} {i : Inode} {disk disk' : DiskBytes}
    {bounceOk : Bool} {junk : ℕ → UInt8} (hw : fm.bitmapWrite i bounceOk junk disk = (disk', true))
    {k : ℕ} (hk : k < fm.bitCnt) (ht : fm.test k = true) : fileBit disk' i k = true :=
  fileBit_bitmapWrite hw rfl (fun _ _ ht' => ⟨ht', fun hfalse => by simp at hfalse⟩) hk ht

/-- A whole `bitmap_read` reads each bit before `bit_cnt` from the file. -/
lemma test_bitmapRead_of_whole {i : Inode} {bounceOk : Bool} {junk : ℕ → UInt8}
    {disk : DiskBytes} (hok : (b.bitmapRead i bounceOk junk disk).2 = true) {k : ℕ}
    (hk : k < b.bitCnt) : (b.bitmapRead i bounceOk junk disk).1.test k = fileBit disk i k := by
  have hpos : 0 < b.bitCnt := by omega
  rw [bitmapRead_snd hpos, beq_iff_eq] at hok
  rw [test_bitmapRead hpos, hok, if_pos (div_eight_lt_fileSize hk), decide_eq_true hk,
    Bool.true_and]

/-- A map of eight sectors with sectors 0 and 2 in use, in a file of four bytes at sector 2. -/
theorem bitmap_write_read_round_trip_eight :
    (⟨1, false, 0, ⟨2, 4⟩⟩ : Inode).denyWriteCnt = 0 ∧
      (⟨8, [5], rfl⟩ : ElemBitmap).fileSize ≤ (⟨1, false, 0, ⟨2, 4⟩⟩ : Inode).data.length ∧
      ∃ disk', (⟨8, [5], rfl⟩ : ElemBitmap).bitmapWrite ⟨1, false, 0, ⟨2, 4⟩⟩ true (fun _ => 0)
          (fun _ => 0) = (disk', true) ∧
        ∃ b', (⟨8, [5], rfl⟩ : ElemBitmap).bitmapRead ⟨1, false, 0, ⟨2, 4⟩⟩ true (fun _ => 0)
            disk' = (b', true) ∧ b'.bitCnt = 8 ∧
          (∀ k, b'.test k = (decide (k < 8) && (⟨8, [5], rfl⟩ : ElemBitmap).test k)) ∧
          ((⟨8, [5], rfl⟩ : ElemBitmap).Clean → b' = ⟨8, [5], rfl⟩) := by
  have hlen : (⟨8, [5], rfl⟩ : ElemBitmap).fileSize ≤ (⟨1, false, 0, ⟨2, 4⟩⟩ : Inode).data.length :=
    by decide
  exact ⟨rfl, hlen, bitmap_write_read_round_trip rfl hlen rfl _ _ _⟩

end ElemBitmap

/-! ### The free map and its file across calls -/

/-- The free map and its file: the map in memory, the disk, and the inode of `free_map_file`,
none until `free_map_open` or `free_map_create` opens it. -/
structure FreeMapSys where
  freeMap : ElemBitmap
  disk : DiskBytes
  file : Option Inode

/-- A call on the free map, with the outcome of the `malloc` of the bounce buffer of
`inode_write_at` when it writes the map back, and the bytes that buffer holds. -/
inductive FreeMapCall
  | allocate (cnt : ℕ) (bounceOk : Bool) (junk : ℕ → UInt8)
  | release (sector cnt : ℕ) (bounceOk : Bool) (junk : ℕ → UInt8)

namespace FreeMapSys

variable (s : FreeMapSys)

/-- `free_map_allocate (cnt, &sector)`: the first sector of the run, none for `BITMAP_ERROR`.
When the map is not written back whole, the run is cleared again in memory; what the write put on
the disk stays there. -/
def freeMapAllocate (cnt : ℕ) (bounceOk : Bool) (junk : ℕ → UInt8) : Option ℕ × FreeMapSys :=
  match s.freeMap.scanAndFlip 0 cnt false with
  | (none, _) => (none, s)
  | (some sector, fm) =>
    match s.file with
    | none => (some sector, { s with freeMap := fm })
    | some i =>
      match fm.bitmapWrite i bounceOk junk s.disk with
      | (disk, true) => (some sector, { s with freeMap := fm, disk })
      | (disk, false) => (none, { s with freeMap := fm.setMultiple sector cnt false, disk })

/-- `free_map_release (sector, cnt)`: none when `ASSERT (bitmap_all (free_map, sector, cnt))`
fails, or when there is no `free_map_file` for `bitmap_write`, whose result is not looked at. -/
def freeMapRelease (sector cnt : ℕ) (bounceOk : Bool) (junk : ℕ → UInt8) : Option FreeMapSys :=
  if sector + cnt ≤ s.freeMap.bitCnt ∧ s.freeMap.contains sector cnt false = false then
    let fm := s.freeMap.setMultiple sector cnt false
    s.file.map fun i => { s with freeMap := fm, disk := (fm.bitmapWrite i bounceOk junk s.disk).1 }
  else none

/-- `free_map_open` once `file_open (inode_open (FREE_MAP_SECTOR))` has opened the file on
inode `i`: the map read from it, none for the `PANIC` "can't read free map". -/
def freeMapOpen (i : Inode) (bounceOk : Bool) (junk : ℕ → UInt8) : Option FreeMapSys :=
  match s.freeMap.bitmapRead i bounceOk junk s.disk with
  | (fm, true) => some { s with freeMap := fm, file := some i }
  | (_, false) => none

/-- `free_map_create` once `inode_create (FREE_MAP_SECTOR, bitmap_file_size (free_map))` has
made inode `i` and the file is open on it: the map written, none for the `PANIC` "can't write
free map". -/
def freeMapCreate (i : Inode) (bounceOk : Bool) (junk : ℕ → UInt8) : Option FreeMapSys :=
  match s.freeMap.bitmapWrite i bounceOk junk s.disk with
  | (disk, true) => some { s with disk, file := some i }
  | (_, false) => none

/-- `free_map_init`: the map `bitmap_create` makes for the `diskSize` sectors of the disk, with
`FREE_MAP_SECTOR` and `ROOT_DIR_SECTOR` marked, none for the `PANIC` "bitmap creation
failed--disk is too large". -/
def freeMapInit (diskSize : ℕ) (structOk : Bool)
    (bits : Option {xs : List (BitVec 32) // xs.length = elemCnt diskSize}) : Option ElemBitmap :=
  (ElemBitmap.bitmapCreate diskSize structOk bits).map fun b =>
    (b.mark freeMapSector).mark rootDirSector

/-- One call. -/
def freeMapStep : FreeMapCall → Option FreeMapSys
  | .allocate cnt bounceOk junk => some (s.freeMapAllocate cnt bounceOk junk).2
  | .release sector cnt bounceOk junk => s.freeMapRelease sector cnt bounceOk junk

/-- Every sector in use in the free map is in use in its file. -/
def Covered : Prop :=
  ∀ i, s.file = some i → ∀ k < s.freeMap.bitCnt, s.freeMap.test k = true →
    fileBit s.disk i k = true

end FreeMapSys

/-- A run of calls. -/
def freeMapRun (s : FreeMapSys) : List FreeMapCall → Option FreeMapSys
  | [] => some s
  | c :: cs => (s.freeMapStep c).bind fun s => freeMapRun s cs

namespace FreeMapSys

variable {s s' : FreeMapSys}

/-- A state whose file is `i` is covered when the file holds every bit set in the map. -/
lemma Covered.of_file {i : Inode} (hf : s.file = some i)
    (h : ∀ k < s.freeMap.bitCnt, s.freeMap.test k = true → fileBit s.disk i k = true) :
    s.Covered := by
  intro i' hi'
  obtain rfl : i = i' := Option.some.inj (hf.symm.trans hi')
  exact h

/-- What `free_map_allocate` can do: find no free run and change nothing; or find the first free
run and set it, then, with no file yet, stop there, or write the map back, keeping the run when
the write was whole and clearing it again when it was not. -/
lemma freeMapAllocate_cases (s : FreeMapSys) (cnt : ℕ) (bounceOk : Bool) (junk : ℕ → UInt8) :
    (s.freeMap.scan 0 cnt false = none ∧ s.freeMapAllocate cnt bounceOk junk = (none, s)) ∨
      ∃ sector, s.freeMap.scan 0 cnt false = some sector ∧
        ((s.file = none ∧ s.freeMapAllocate cnt bounceOk junk =
            (some sector, { s with freeMap := s.freeMap.setMultiple sector cnt true })) ∨
          ∃ i disk, s.file = some i ∧
            ((s.freeMap.setMultiple sector cnt true).bitmapWrite i bounceOk junk s.disk =
                (disk, true) ∧ s.freeMapAllocate cnt bounceOk junk =
                  (some sector, { s with freeMap := s.freeMap.setMultiple sector cnt true, disk }) ∨
              (s.freeMap.setMultiple sector cnt true).bitmapWrite i bounceOk junk s.disk =
                (disk, false) ∧ s.freeMapAllocate cnt bounceOk junk =
                  (none, { s with
                    freeMap := (s.freeMap.setMultiple sector cnt true).setMultiple sector cnt false,
                    disk }))) := by
  unfold FreeMapSys.freeMapAllocate
  cases hscan : s.freeMap.scan 0 cnt false with
  | none =>
    rw [ElemBitmap.scanAndFlip_of_none hscan]
    exact .inl ⟨rfl, rfl⟩
  | some sector =>
    refine .inr ⟨sector, rfl, ?_⟩
    rw [ElemBitmap.scanAndFlip_of_some hscan, Bool.not_false]
    dsimp only
    cases hf : s.file with
    | none => exact .inl ⟨rfl, rfl⟩
    | some i =>
      dsimp only
      cases hw : (s.freeMap.setMultiple sector cnt true).bitmapWrite i bounceOk junk s.disk with
      | mk disk ok =>
        cases ok with
        | true => exact .inr ⟨i, disk, rfl, .inl ⟨hw, rfl⟩⟩
        | false => exact .inr ⟨i, disk, rfl, .inr ⟨hw, rfl⟩⟩

/-- **`free_map_allocate` keeps the file covering the map.** A run found free is set and written
back; when the write is not whole the run is cleared again, and the map is the one the file
covered. -/
lemma Covered.freeMapAllocate (h : s.Covered) (cnt : ℕ) (bounceOk : Bool) (junk : ℕ → UInt8) :
    (s.freeMapAllocate cnt bounceOk junk).2.Covered := by
  rcases freeMapAllocate_cases s cnt bounceOk junk with
    ⟨-, heq⟩ | ⟨sector, hscan, ⟨hf, heq⟩ | ⟨i, disk, hf, ⟨hw, heq⟩ | ⟨hw, heq⟩⟩⟩
  · rw [heq]
    exact h
  · -- no file yet: nothing to cover
    rw [heq]
    intro i hi
    simp [hf] at hi
  · -- the whole map written: the file holds the map with the run set
    rw [heq]
    exact Covered.of_file hf fun k hk ht => ElemBitmap.fileBit_of_bitmapWrite_whole hw hk ht
  · -- the run cleared again: a bit set lies outside the run, as the file held it
    obtain ⟨-, ⟨hfit, -⟩, -⟩ := ElemBitmap.scan_eq_some_iff.mp hscan
    rw [heq]
    refine Covered.of_file hf fun k hk ht => ElemBitmap.fileBit_bitmapWrite hw (by simp) ?_ hk ht
    intro j hj hjt
    simp only [ElemBitmap.setMultiple_bitCnt] at hj
    obtain ⟨hout, hset⟩ := ElemBitmap.test_of_test_setMultiple_false (by simpa using hfit)
      (by simpa using hj) hjt
    rw [ElemBitmap.test_setMultiple hfit hj, if_neg hout] at hset
    rw [ElemBitmap.test_setMultiple hfit hj, if_neg hout]
    exact ⟨hset, fun _ => h i hf j hj hset⟩

/-- **`free_map_release` keeps the file covering the map.** The run is cleared before the map is
written back, so whatever part of the write reaches the disk, the bits set in the map were set in
the map the file covered. -/
lemma Covered.freeMapRelease (h : s.Covered) {sector cnt : ℕ} {bounceOk : Bool}
    {junk : ℕ → UInt8} (hs : s.freeMapRelease sector cnt bounceOk junk = some s') : s'.Covered := by
  unfold FreeMapSys.freeMapRelease at hs
  split_ifs at hs with hall
  obtain ⟨i, hf, rfl⟩ := Option.map_eq_some_iff.mp hs
  refine Covered.of_file hf fun k hk ht => ElemBitmap.fileBit_bitmapWrite Prod.mk.eta.symm rfl
    (fun j hj hjt => ⟨hjt, fun _ => ?_⟩) hk ht
  simp only [ElemBitmap.setMultiple_bitCnt] at hj
  exact h i hf j hj (ElemBitmap.test_of_test_setMultiple_false hall.1 hj hjt).2

lemma Covered.freeMapStep (h : s.Covered) {c : FreeMapCall} (hs : s.freeMapStep c = some s') :
    s'.Covered := by
  cases c with
  | allocate cnt bounceOk junk =>
    rw [FreeMapSys.freeMapStep, Option.some.injEq] at hs
    exact hs ▸ h.freeMapAllocate cnt bounceOk junk
  | release sector cnt bounceOk junk => exact h.freeMapRelease hs

/-- Every state a run reaches from a covered one is covered. The induction is on the run. -/
lemma Covered.freeMapRun {calls : List FreeMapCall} :
    ∀ {s s' : FreeMapSys}, s.Covered → freeMapRun s calls = some s' → s'.Covered := by
  induction calls with
  | nil =>
    intro s s' h hrun
    rw [TinyOs.freeMapRun, Option.some.injEq] at hrun
    exact hrun ▸ h
  | cons c cs ih =>
    intro s s' h hrun
    obtain ⟨s₁, h₁, hrest⟩ := Option.bind_eq_some_iff.mp hrun
    exact ih (h.freeMapStep h₁) hrest

/-! ### Boot and restart -/

/-- What `free_map_allocate` leaves: the file as it was, and a map of as many bits. -/
lemma freeMapAllocate_snd (s : FreeMapSys) (cnt : ℕ) (bounceOk : Bool) (junk : ℕ → UInt8) :
    ∃ fm disk, (s.freeMapAllocate cnt bounceOk junk).2 = { s with freeMap := fm, disk := disk } ∧
      fm.bitCnt = s.freeMap.bitCnt := by
  rcases freeMapAllocate_cases s cnt bounceOk junk with
    ⟨-, heq⟩ | ⟨sector, -, ⟨-, heq⟩ | ⟨i, disk, -, ⟨-, heq⟩ | ⟨-, heq⟩⟩⟩ <;> rw [heq]
  · exact ⟨s.freeMap, s.disk, rfl, rfl⟩
  · exact ⟨_, s.disk, rfl, by simp⟩
  · exact ⟨_, disk, rfl, by simp⟩
  · exact ⟨_, disk, rfl, by simp⟩

/-- A call leaves the file as it was and the map with as many bits. -/
lemma freeMapStep_shape {c : FreeMapCall} (hs : s.freeMapStep c = some s') :
    s'.file = s.file ∧ s'.freeMap.bitCnt = s.freeMap.bitCnt := by
  cases c with
  | allocate cnt bounceOk junk =>
    rw [FreeMapSys.freeMapStep, Option.some.injEq] at hs
    obtain ⟨fm, disk, heq, hcnt⟩ := freeMapAllocate_snd s cnt bounceOk junk
    rw [← hs, heq]
    exact ⟨rfl, hcnt⟩
  | release sector cnt bounceOk junk =>
    rw [FreeMapSys.freeMapStep] at hs
    unfold FreeMapSys.freeMapRelease at hs
    split_ifs at hs
    obtain ⟨i, hf, rfl⟩ := Option.map_eq_some_iff.mp hs
    exact ⟨rfl, ElemBitmap.setMultiple_bitCnt _ _ _⟩

/-- So does a run. The induction is on the run. -/
lemma freeMapRun_shape {calls : List FreeMapCall} :
    ∀ {s s' : FreeMapSys}, freeMapRun s calls = some s' →
      s'.file = s.file ∧ s'.freeMap.bitCnt = s.freeMap.bitCnt := by
  induction calls with
  | nil =>
    intro s s' hrun
    rw [TinyOs.freeMapRun, Option.some.injEq] at hrun
    exact hrun ▸ ⟨rfl, rfl⟩
  | cons c cs ih =>
    intro s s' hrun
    obtain ⟨s₁, h₁, hrest⟩ := Option.bind_eq_some_iff.mp hrun
    obtain ⟨hfile, hcnt⟩ := freeMapStep_shape h₁
    obtain ⟨hfile', hcnt'⟩ := ih hrest
    exact ⟨hfile'.trans hfile, hcnt'.trans hcnt⟩

lemma freeMapOpen_eq_some {i : Inode} {bounceOk : Bool} {junk : ℕ → UInt8}
    (h : s.freeMapOpen i bounceOk junk = some s') :
    (s.freeMap.bitmapRead i bounceOk junk s.disk).2 = true ∧
      s' = { s with freeMap := (s.freeMap.bitmapRead i bounceOk junk s.disk).1, file := some i } := by
  unfold FreeMapSys.freeMapOpen at h
  cases hr : s.freeMap.bitmapRead i bounceOk junk s.disk with
  | mk fm ok =>
    rw [hr] at h
    cases ok with
    | true => exact ⟨rfl, (Option.some.inj h).symm⟩
    | false => exact absurd h (by simp)

/-- `free_map_open` reads a map its file covers. -/
lemma Covered.of_freeMapOpen {i : Inode} {bounceOk : Bool} {junk : ℕ → UInt8}
    (h : s.freeMapOpen i bounceOk junk = some s') : s'.Covered := by
  obtain ⟨hok, rfl⟩ := freeMapOpen_eq_some h
  refine Covered.of_file rfl fun k hk ht => ?_
  simp only [ElemBitmap.bitmapRead_bitCnt] at hk
  rwa [ElemBitmap.test_bitmapRead_of_whole hok hk] at ht

/-- `free_map_create` writes a map its file covers. -/
lemma Covered.of_freeMapCreate {i : Inode} {bounceOk : Bool} {junk : ℕ → UInt8}
    (h : s.freeMapCreate i bounceOk junk = some s') : s'.Covered := by
  unfold FreeMapSys.freeMapCreate at h
  cases hw : s.freeMap.bitmapWrite i bounceOk junk s.disk with
  | mk disk ok =>
    rw [hw] at h
    cases ok with
    | false => exact absurd h (by simp)
    | true =>
      obtain rfl := (Option.some.inj h).symm
      exact Covered.of_file rfl fun k hk ht => ElemBitmap.fileBit_of_bitmapWrite_whole hw hk ht

/-- **The free map on the disk frees no sector in use.** From a state whose file holds every
sector in use, as `free_map_create` and `free_map_open` leave it, any run of `free_map_allocate`
and `free_map_release` keeps the file holding every sector in use, whether their write-backs are
whole, fail or stop half way; so when the next boot's `free_map_open` reads the file into a
fresh map of as many bits, every sector in use is in use in the map it reads. -/
theorem free_map_disk_covers {s s' : FreeMapSys} {calls : List FreeMapCall} (hs : s.Covered)
    (hrun : freeMapRun s calls = some s') {i : Inode} (hi : s.file = some i) {b₀ : ElemBitmap}
    (hcnt : b₀.bitCnt = s.freeMap.bitCnt) {bounceOk : Bool} {junk : ℕ → UInt8}
    {s'' : FreeMapSys} (hopen : (⟨b₀, s'.disk, none⟩ : FreeMapSys).freeMapOpen i bounceOk junk = some s'') :
    s'.Covered ∧ ∀ k < s'.freeMap.bitCnt, s'.freeMap.test k = true → s''.freeMap.test k = true := by
  obtain ⟨hfile, hbits⟩ := freeMapRun_shape hrun
  have hcov := hs.freeMapRun hrun
  refine ⟨hcov, fun k hk ht => ?_⟩
  obtain ⟨hok, rfl⟩ := freeMapOpen_eq_some hopen
  -- the next boot reads the bit from the file, which holds every bit in use
  have hk₀ : k < b₀.bitCnt := by omega
  have hread := ElemBitmap.test_bitmapRead_of_whole hok hk₀
  dsimp only at hread ⊢
  rw [hread]
  exact hcov i (hfile.trans hi) k hk ht

/-- Eight sectors, none in use, with the map's file of four bytes at sector 2: a sector is
allocated and written back, and the map read again at the next boot. -/
theorem free_map_disk_covers_boot :
    ∃ s' s'', FreeMapSys.Covered ⟨⟨8, [0], rfl⟩, fun _ => 0, some ⟨1, false, 0, ⟨2, 4⟩⟩⟩ ∧
      freeMapRun ⟨⟨8, [0], rfl⟩, fun _ => 0, some ⟨1, false, 0, ⟨2, 4⟩⟩⟩
        [.allocate 1 true fun _ => 0] = some s' ∧
      (⟨⟨8, [0], rfl⟩, s'.disk, none⟩ : FreeMapSys).freeMapOpen ⟨1, false, 0, ⟨2, 4⟩⟩ true
        (fun _ => 0) = some s'' ∧
      (s'.Covered ∧ ∀ k < s'.freeMap.bitCnt, s'.freeMap.test k = true →
        s''.freeMap.test k = true) := by
  have hzero : ∀ k, (⟨8, [0], rfl⟩ : ElemBitmap).test k = false := by
    intro k
    rw [ElemBitmap.test_eq, ElemBitmap.elem]
    have h0 : ([0] : List (BitVec 32)).getD (elemIdx k) 0 = 0 := by
      cases elemIdx k <;> rfl
    rw [h0]
    exact BitVec.getLsbD_zero
  have hs : FreeMapSys.Covered ⟨⟨8, [0], rfl⟩, fun _ => 0, some ⟨1, false, 0, ⟨2, 4⟩⟩⟩ := by
    intro i _ k _ ht
    exact absurd ((hzero k).symm.trans ht) (by simp)
  -- the file holds the whole map, so the next boot reads all of it
  have hok : ∀ disk : DiskBytes, ((⟨8, [0], rfl⟩ : ElemBitmap).bitmapRead ⟨1, false, 0, ⟨2, 4⟩⟩
      true (fun _ => 0) disk).2 = true := by
    intro disk
    rw [ElemBitmap.bitmapRead_snd (by decide), ioLoop_eq_min 0 _ (by decide)]
    rfl
  let s' := (FreeMapSys.freeMapAllocate ⟨⟨8, [0], rfl⟩, fun _ => 0, some ⟨1, false, 0, ⟨2, 4⟩⟩⟩
    1 true fun _ => 0).2
  have hopen : (⟨⟨8, [0], rfl⟩, s'.disk, none⟩ : FreeMapSys).freeMapOpen ⟨1, false, 0, ⟨2, 4⟩⟩
      true (fun _ => 0) = some ⟨((⟨8, [0], rfl⟩ : ElemBitmap).bitmapRead ⟨1, false, 0, ⟨2, 4⟩⟩
        true (fun _ => 0) s'.disk).1, s'.disk, some ⟨1, false, 0, ⟨2, 4⟩⟩⟩ := by
    unfold FreeMapSys.freeMapOpen
    dsimp only
    rw [← Prod.mk.eta (p := (⟨8, [0], rfl⟩ : ElemBitmap).bitmapRead ⟨1, false, 0, ⟨2, 4⟩⟩ true
      (fun _ => 0) s'.disk), hok]
  have hrun : freeMapRun ⟨⟨8, [0], rfl⟩, fun _ => 0, some ⟨1, false, 0, ⟨2, 4⟩⟩⟩
      [.allocate 1 true fun _ => 0] = some s' := rfl
  exact ⟨s', _, hs, hrun, hopen, free_map_disk_covers hs hrun rfl rfl hopen⟩

/-- **`free_map_init`.** The free map of a disk of two sectors or more has exactly
`FREE_MAP_SECTOR` and `ROOT_DIR_SECTOR` in use. -/
lemma test_freeMapInit {diskSize : ℕ} {structOk : Bool}
    {bits : Option {xs : List (BitVec 32) // xs.length = elemCnt diskSize}} {fm : ElemBitmap}
    (h : freeMapInit diskSize structOk bits = some fm) (h2 : 2 ≤ diskSize) {k : ℕ}
    (hk : k < diskSize) : fm.bitCnt = diskSize ∧ fm.test k = (k == 0 || k == 1) := by
  obtain ⟨b, hb, rfl⟩ := Option.map_eq_some_iff.mp h
  obtain ⟨hcnt, hclear⟩ := ElemBitmap.bitmapCreate_eq_some hb
  have hmark : (b.mark freeMapSector).bitCnt = b.bitCnt := by
    unfold ElemBitmap.mark
    rfl
  refine ⟨by rw [← hcnt, ← hmark]; rfl, ?_⟩
  rw [ElemBitmap.test_mark (by rw [hmark]; unfold rootDirSector; omega),
    ElemBitmap.test_mark (by unfold freeMapSector; omega), hclear k hk]
  rfl

/-! ### The free map of `Filesys/Inode.lean` -/

/-- **The heap's draw in `Filesys/Inode.lean` stands for the write-back.** Seen through
`toBitmap`, `free_map_allocate` here is `FsState.freeMapAllocate` for one outcome of the draw
it makes after a run is found: success when the map was written back whole, or when there is no
file yet. -/
theorem freeMapAllocate_refines (s : FreeMapSys) (fs : FsState)
    (hfm : fs.freeMap = s.freeMap.toBitmap) (cnt : ℕ) (bounceOk : Bool) (junk : ℕ → UInt8) :
    ∃ ok, ∀ heapOk : ℕ → Bool, heapOk fs.allocs = ok →
      (fs.freeMapAllocate heapOk cnt).1 = (s.freeMapAllocate cnt bounceOk junk).1 ∧
        (fs.freeMapAllocate heapOk cnt).2.freeMap =
          (s.freeMapAllocate cnt bounceOk junk).2.freeMap.toBitmap := by
  have hscan : fs.freeMap.scan 0 cnt false = s.freeMap.scan 0 cnt false := by
    rw [hfm, ElemBitmap.scan_eq]
  unfold FsState.freeMapAllocate
  rw [Bitmap.scanAndFlip_eq, hscan]
  rcases freeMapAllocate_cases s cnt bounceOk junk with ⟨hs, heq⟩ | ⟨sector, hs, hcase⟩
  · rw [heq, hs]
    exact ⟨true, fun _ _ => ⟨rfl, hfm⟩⟩
  · obtain ⟨-, ⟨hfit, -⟩, -⟩ := ElemBitmap.scan_eq_some_iff.mp hs
    -- the run found is the same, and set in both maps
    have hflip : fs.freeMap.setMultiple sector cnt true =
        (s.freeMap.setMultiple sector cnt true).toBitmap := by
      rw [hfm, ElemBitmap.toBitmap_setMultiple hfit]
    have hclear : (s.freeMap.setMultiple sector cnt true).toBitmap.setMultiple sector cnt false =
        ((s.freeMap.setMultiple sector cnt true).setMultiple sector cnt false).toBitmap :=
      (ElemBitmap.toBitmap_setMultiple (by simpa using hfit) false).symm
    rw [hs]
    dsimp only [Option.elim, Bool.not_false]
    -- the heap's draw succeeds exactly when the allocation here does
    rcases hcase with ⟨-, heq⟩ | ⟨i, disk, -, ⟨-, heq⟩ | ⟨-, heq⟩⟩ <;> rw [heq]
    · exact ⟨true, fun heapOk hok => by simp [FsState.alloc, hok, hflip]⟩
    · exact ⟨true, fun heapOk hok => by simp [FsState.alloc, hok, hflip]⟩
    · exact ⟨false, fun heapOk hok => by simp [FsState.alloc, hok, hflip, hclear]⟩

end FreeMapSys

end TinyOs
