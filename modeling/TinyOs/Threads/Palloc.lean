import TinyOs.Kernel.BitmapAlloc
import TinyOs.Userprog.Pagedir

/-!
How `palloc_init` (`threads/palloc.c`) lays out the two page pools in the free memory between
the end of the kernel image and the end of RAM: the kernel pool's `used_map`, the kernel pool's
pages, the user pool's `used_map`, the user pool's pages. `init_pool` builds each pool's map
with `bitmap_create_in_buf` in the first pages at the pool's base, and gives the pool the pages
after them; `palloc_get_multiple` then hands out runs of the pool's pages.

* `initPool_layout`: a pool `init_pool` builds has its map, then its pages, within the memory
  it was given, and the map fits its buffer, as `bitmap_create_in_buf` asserts;
* `palloc_pools_apart`: with two free pages and a positive `user_page_limit`, `palloc_init`
  does not panic, and the kernel image, the two maps and the two pools' pages come in order,
  within RAM;
* `palloc_runs_apart`: in every state of the two pools, a kernel run lies between the kernel
  pool's map and the user pool's map, and a user run after the user pool's map and within RAM.
-/

namespace TinyOs

/-- `byte_cnt (bit_cnt)`: the bytes of the `elem_cnt (bit_cnt)` elements, `unsigned long`s of
four bytes. -/
def byteCnt (bitCnt : ℕ) : ℕ := 4 * elemCnt bitCnt

/-- `bitmap_buf_size (bit_cnt)`: `sizeof (struct bitmap)`, its `bit_cnt` and its `bits`
pointer, and then the elements. -/
def bitmapBufSize (bitCnt : ℕ) : ℕ := 8 + byteCnt bitCnt

/-- `pg_round_up (va)`: `va + PGSIZE - 1` as a `uintptr_t`, its offset bits cleared. -/
def pgRoundUp (va : ℕ) : ℕ := pgRoundDown (wrap32 (va + pgSize - 1))

/-- `bm_pages` of `init_pool`: `DIV_ROUND_UP (bitmap_buf_size (page_cnt), PGSIZE)`. -/
def bmPages (pageCnt : ℕ) : ℕ := (bitmapBufSize pageCnt + pgSize - 1) / pgSize

lemma pgOfs_pgRoundUp (va : ℕ) : pgOfs (pgRoundUp va) = 0 := by
  simp only [pgRoundUp, pgRoundDown, pgOfs, pgSize]
  omega

/-- A page-aligned pointer moved by whole pages stays page-aligned, also when it wraps. -/
lemma pgOfs_wrap32_add_mul {base : ℕ} (h : pgOfs base = 0) (n : ℕ) :
    pgOfs (wrap32 (base + n * pgSize)) = 0 := by
  simp only [pgOfs, wrap32, pgSize] at h ⊢
  omega

/-- `init_pool (p, base, page_cnt, name)`: the `used_map` at `base`, in `bm_pages` pages, all
clear, and the pool's `page_cnt - bm_pages` pages after it: the map's address and the pool.
`none` for the `PANIC` when the map does not fit. -/
def initPool (base pageCnt : ℕ) (h : pgOfs base = 0) : Option (ℕ × Pool) :=
  if bmPages pageCnt > pageCnt then none
  else
    some (base, ⟨wrap32 (base + bmPages pageCnt * pgSize), pageCnt - bmPages pageCnt,
      fun _ => false, pgOfs_wrap32_add_mul h _⟩)

/-- What `palloc_init` reads: the end of the kernel image (`&_end`), `ram_pages` and
`user_page_limit`. -/
structure Memory where
  kernelEnd : ℕ
  ramPages : ℕ
  userPageLimit : ℕ

namespace Memory

variable (m : Memory)

/-- `free_start = pg_round_up (&_end)`. -/
def freeStart : ℕ := pgRoundUp m.kernelEnd

/-- `free_end = ptov (ram_pages * PGSIZE)`, in `size_t` and pointer arithmetic. -/
def freeEnd : ℕ := wrap32 (X86.ptov (wrap32 (m.ramPages * pgSize)))

/-- `free_pages = (free_end - free_start) / PGSIZE`: a pointer difference, an `int` divided by
`PGSIZE`, stored in a `size_t`. -/
def freePages : ℕ := ((((m.freeEnd : ℤ) - m.freeStart).tdiv pgSize) % 2 ^ 32).toNat

/-- `user_pages`: half of the free pages, at most `user_page_limit`. -/
def userPages : ℕ := min (m.freePages / 2) m.userPageLimit

/-- `kernel_pages = free_pages - user_pages`. -/
def kernelPages : ℕ := m.freePages - m.userPages

end Memory

/-- `palloc_init ()`: the kernel pool at `free_start` and the user pool after its
`kernel_pages`, each with its map's address. `none` for `ASSERT (paddr < PHYS_BASE)` of `ptov`
and for the `PANIC` of `init_pool`. -/
def pallocInit (m : Memory) : Option ((ℕ × Pool) × (ℕ × Pool)) :=
  if wrap32 (m.ramPages * pgSize) < physBase then
    (initPool m.freeStart m.kernelPages (pgOfs_pgRoundUp _)).bind fun kernel =>
      (initPool (wrap32 (m.freeStart + m.kernelPages * pgSize)) m.userPages
        (pgOfs_wrap32_add_mul (pgOfs_pgRoundUp _) _)).map fun user => (kernel, user)
  else none

/-! ### One pool -/

/-- What `init_pool` builds: the map at `base`, the pool's pages after its `bm_pages`. -/
lemma initPool_eq_some {base pageCnt m : ℕ} {hb : pgOfs base = 0} {p : Pool}
    (h : initPool base pageCnt hb = some (m, p)) :
    m = base ∧ p.base = wrap32 (base + bmPages pageCnt * pgSize) ∧
      p.size = pageCnt - bmPages pageCnt ∧ bmPages pageCnt ≤ pageCnt := by
  unfold initPool at h
  split_ifs at h with hfit
  rw [Option.some_inj, Prod.mk.injEq] at h
  obtain ⟨rfl, rfl⟩ := h
  exact ⟨rfl, rfl, rfl, by omega⟩

/-- The pages `init_pool` gives a map hold `bitmap_buf_size` of the pool's size: the pool has
fewer bits than `page_cnt`, for which `bm_pages` was rounded up. -/
lemma bitmapBufSize_le_bmPages (pageCnt : ℕ) :
    bitmapBufSize (pageCnt - bmPages pageCnt) ≤ bmPages pageCnt * pgSize := by
  simp only [bmPages, bitmapBufSize, byteCnt, elemCnt, elemBits, pgSize]
  omega

/-- `init_pool` does not panic for a pool of at least one page: the map of `n` bits takes
`8 + 4 ⌈n / 32⌉` bytes, at most `n` pages. -/
lemma bmPages_le {pageCnt : ℕ} (h : 0 < pageCnt) : bmPages pageCnt ≤ pageCnt := by
  simp only [bmPages, bitmapBufSize, byteCnt, elemCnt, elemBits, pgSize]
  omega

lemma initPool_isSome {base pageCnt : ℕ} (hb : pgOfs base = 0) (h : 0 < pageCnt) :
    ∃ m p, initPool base pageCnt hb = some (m, p) := by
  unfold initPool
  rw [if_neg (Nat.not_lt.mpr (bmPages_le h))]
  exact ⟨_, _, rfl⟩

/-- **A pool's layout.** Within the `page_cnt` pages at `base`, below `2 ^ 32`, `init_pool` puts
the map first, holding `bitmap_buf_size` of the pool's size (`bitmap_create_in_buf`'s
assertion), and the pool's pages after it, up to the end of the memory it was given. -/
lemma initPool_layout {base pageCnt m : ℕ} {hb : pgOfs base = 0} {p : Pool}
    (h : initPool base pageCnt hb = some (m, p)) (hlt : base + pageCnt * pgSize < 2 ^ 32) :
    m = base ∧ m + bitmapBufSize p.size ≤ p.base ∧ p.base + p.size * pgSize = base + pageCnt * pgSize := by
  obtain ⟨rfl, hbase, hsize, hfit⟩ := initPool_eq_some h
  have hmul : bmPages pageCnt * pgSize ≤ pageCnt * pgSize := Nat.mul_le_mul_right _ hfit
  rw [hbase, wrap32_of_lt (by omega), hsize]
  refine ⟨rfl, Nat.add_le_add_left (bitmapBufSize_le_bmPages pageCnt) _, ?_⟩
  rw [Nat.sub_mul, Nat.add_assoc, Nat.add_sub_cancel' hmul]

/-! ### The two pools -/

section Layout

variable {m : Memory} {kMap uMap : ℕ} {kernelPool userPool : Pool}

/-- `palloc_init` gets the two pools from `init_pool`. -/
lemma pallocInit_eq_some (h : pallocInit m = some ((kMap, kernelPool), (uMap, userPool))) :
    initPool m.freeStart m.kernelPages (pgOfs_pgRoundUp _) = some (kMap, kernelPool) ∧
      initPool (wrap32 (m.freeStart + m.kernelPages * pgSize)) m.userPages
        (pgOfs_wrap32_add_mul (pgOfs_pgRoundUp _) _) = some (uMap, userPool) := by
  unfold pallocInit at h
  split_ifs at h
  obtain ⟨kernel, hk, hrest⟩ := Option.bind_eq_some_iff.mp h
  obtain ⟨user, hu, heq⟩ := Option.map_eq_some_iff.mp hrest
  rw [Prod.mk.injEq] at heq
  obtain ⟨rfl, rfl⟩ := heq
  exact ⟨hk, hu⟩

/-- Free memory with no pointer wrapping: it starts at `pg_round_up (&_end)`, less than a page
past the end of the image, and its whole pages end within `ptov (ram_pages * PGSIZE)`. -/
lemma Memory.free_of_no_wrap (hfree : m.kernelEnd + pgSize ≤ X86.ptov (m.ramPages * pgSize))
    (hram : X86.ptov (m.ramPages * pgSize) < 2 ^ 32) :
    m.kernelEnd ≤ m.freeStart ∧ m.freeStart < m.kernelEnd + pgSize ∧
      m.freePages = (X86.ptov (m.ramPages * pgSize) - m.freeStart) / pgSize ∧
      m.freeStart + m.freePages * pgSize ≤ X86.ptov (m.ramPages * pgSize) := by
  simp only [X86.ptov, physBase, pgSize] at hfree hram
  have hround : m.kernelEnd ≤ m.freeStart ∧ m.freeStart < m.kernelEnd + pgSize := by
    simp only [Memory.freeStart, pgRoundUp, pgRoundDown, pgOfs, wrap32, pgSize]
    omega
  have hend : m.freeEnd = X86.ptov (m.ramPages * pgSize) := by
    simp only [Memory.freeEnd, wrap32, X86.ptov, physBase, pgSize]
    omega
  -- the pointers' difference is nonnegative, so the `int` division is the `size_t` one
  have hpages : m.freePages = (X86.ptov (m.ramPages * pgSize) - m.freeStart) / pgSize := by
    simp only [pgSize] at hround
    simp only [Memory.freePages, hend, X86.ptov, physBase, pgSize]
    rw [Int.tdiv_eq_ediv_of_nonneg (by omega)]
    omega
  refine ⟨hround.1, hround.2, hpages, ?_⟩
  rw [hpages]
  simp only [X86.ptov, physBase, pgSize] at hround ⊢
  omega

/-- The layout of the two pools, given the pools: the kernel pool's map at `free_start`, after
the image, then its pages, the user pool's map right after them, then its pages, ending within
RAM. -/
lemma pallocInit_layout (hfree : m.kernelEnd + pgSize ≤ X86.ptov (m.ramPages * pgSize))
    (hram : X86.ptov (m.ramPages * pgSize) < 2 ^ 32)
    (h : pallocInit m = some ((kMap, kernelPool), (uMap, userPool))) :
    m.kernelEnd ≤ kMap ∧ kMap + bitmapBufSize kernelPool.size ≤ kernelPool.base ∧
      kernelPool.base + kernelPool.size * pgSize = uMap ∧
      uMap + bitmapBufSize userPool.size ≤ userPool.base ∧
      userPool.base + userPool.size * pgSize ≤ X86.ptov (m.ramPages * pgSize) := by
  obtain ⟨hstart, -, -, hwithin⟩ := m.free_of_no_wrap hfree hram
  obtain ⟨hk, hu⟩ := pallocInit_eq_some h
  have hsplit : m.kernelPages + m.userPages = m.freePages := by
    simp only [Memory.kernelPages, Memory.userPages]
    omega
  have hkEnd : m.freeStart + m.kernelPages * pgSize + m.userPages * pgSize ≤
      X86.ptov (m.ramPages * pgSize) := by
    rw [Nat.add_assoc, ← Nat.add_mul, hsplit]
    exact hwithin
  have hkNoWrap : m.freeStart + m.kernelPages * pgSize < 2 ^ 32 := by omega
  obtain ⟨hkm, hkMap, hkPages⟩ := initPool_layout hk hkNoWrap
  -- the user pool starts where the kernel pool's pages end, with no wrapping
  have huNoWrap : wrap32 (m.freeStart + m.kernelPages * pgSize) + m.userPages * pgSize < 2 ^ 32 := by
    rw [wrap32_of_lt hkNoWrap]
    omega
  obtain ⟨hum, huMap, huPages⟩ := initPool_layout hu huNoWrap
  rw [wrap32_of_lt hkNoWrap] at hum huPages
  refine ⟨hkm ▸ hstart, hkMap, ?_, huMap, ?_⟩
  · rw [hkPages, hum]
  · rw [huPages]
    omega

/-- **The two pools lie apart.** On a machine with at least two pages of RAM free after the
kernel image, below `2 ^ 32` once mapped at `PHYS_BASE`, and a positive `user_page_limit`,
`palloc_init` does not panic. It lays out, in order and without overlap, the kernel image, the
kernel pool's map (large enough for `bitmap_create_in_buf`), the kernel pool's pages, the user
pool's map and the user pool's pages, which end within RAM. -/
theorem palloc_pools_apart (hfree : m.kernelEnd + 3 * pgSize ≤ X86.ptov (m.ramPages * pgSize))
    (hram : X86.ptov (m.ramPages * pgSize) < 2 ^ 32) (hlimit : 0 < m.userPageLimit) :
    ∃ kMap kernelPool uMap userPool, pallocInit m = some ((kMap, kernelPool), (uMap, userPool)) ∧
      m.kernelEnd ≤ kMap ∧ kMap + bitmapBufSize kernelPool.size ≤ kernelPool.base ∧
      kernelPool.base + kernelPool.size * pgSize = uMap ∧
      uMap + bitmapBufSize userPool.size ≤ userPool.base ∧
      userPool.base + userPool.size * pgSize ≤ X86.ptov (m.ramPages * pgSize) := by
  obtain ⟨-, hround, hpages, -⟩ := m.free_of_no_wrap (by omega) hram
  -- two free pages: each pool gets at least one, enough for its map
  have htwo : 2 ≤ m.freePages := by
    rw [hpages]
    simp only [pgSize] at hround hfree ⊢
    omega
  have huser : 0 < m.userPages := by
    simp only [Memory.userPages]
    omega
  have hkernel : 0 < m.kernelPages := by
    simp only [Memory.kernelPages, Memory.userPages]
    omega
  obtain ⟨kMap, kernelPool, hk⟩ := initPool_isSome (pgOfs_pgRoundUp m.kernelEnd) hkernel
  obtain ⟨uMap, userPool, hu⟩ :=
    initPool_isSome (pgOfs_wrap32_add_mul (pgOfs_pgRoundUp m.kernelEnd) m.kernelPages) huser
  have hassert : wrap32 (m.ramPages * pgSize) < physBase := by
    simp only [X86.ptov, physBase, wrap32, pgSize] at hram ⊢
    omega
  have hinit : pallocInit m = some ((kMap, kernelPool), (uMap, userPool)) := by
    unfold pallocInit
    rw [if_pos hassert]
    simp only [Memory.freeStart] at hk hu ⊢
    rw [hk, Option.bind_some, hu, Option.map_some]
  exact ⟨kMap, kernelPool, uMap, userPool, hinit, pallocInit_layout (by omega) hram hinit⟩

/-- A 4 MB machine with the image ending at `0xc0020000` (`PHYS_BASE` and 128 kB). -/
theorem palloc_pools_apart_four_mb :
    (⟨0xc0020000, 1024, 2 ^ 32⟩ : Memory).kernelEnd + 3 * pgSize ≤
        X86.ptov ((⟨0xc0020000, 1024, 2 ^ 32⟩ : Memory).ramPages * pgSize) ∧
      X86.ptov ((⟨0xc0020000, 1024, 2 ^ 32⟩ : Memory).ramPages * pgSize) < 2 ^ 32 ∧
      0 < (⟨0xc0020000, 1024, 2 ^ 32⟩ : Memory).userPageLimit ∧
      ∃ kMap kernelPool uMap userPool,
        pallocInit ⟨0xc0020000, 1024, 2 ^ 32⟩ = some ((kMap, kernelPool), (uMap, userPool)) ∧
        (⟨0xc0020000, 1024, 2 ^ 32⟩ : Memory).kernelEnd ≤ kMap ∧
        kMap + bitmapBufSize kernelPool.size ≤ kernelPool.base ∧
        kernelPool.base + kernelPool.size * pgSize = uMap ∧
        uMap + bitmapBufSize userPool.size ≤ userPool.base ∧
        userPool.base + userPool.size * pgSize ≤
          X86.ptov ((⟨0xc0020000, 1024, 2 ^ 32⟩ : Memory).ramPages * pgSize) :=
  ⟨by decide, by decide, by decide, palloc_pools_apart (by decide) (by decide) (by decide)⟩

/-- A run `palloc_get_multiple` hands out lies among its pool's pages. -/
lemma pallocGetMultiple_within {p p' : Pool} {cnt a : ℕ} (h : pallocGetMultiple p cnt = some (a, p')) :
    p.base ≤ a ∧ a + cnt * pgSize ≤ p.base + p.size * pgSize := by
  obtain ⟨i, hs, rfl, -⟩ := pallocGetMultiple_eq_some h
  obtain ⟨-, hi, -⟩ := Bitmap.scan_eq_some hs
  rw [Pool.toBitmap_size] at hi
  simp only [pgSize]
  constructor
  · omega
  · calc p.base + 4096 * i + cnt * 4096 = p.base + (i + cnt) * 4096 := by rw [Nat.add_mul,
          Nat.mul_comm 4096 i, Nat.add_assoc]
      _ ≤ p.base + p.size * 4096 := Nat.add_le_add_left (Nat.mul_le_mul_right _ hi) _

/-- **Runs of the two pools lie apart.** In every state of the kernel pool and of the user pool
`palloc_init` made, whatever pages are in use, a run of kernel pages that `palloc_get_multiple`
hands out lies after the kernel pool's map and before the user pool's map, and a run of user
pages after the user pool's map and within RAM: the two pools never hand out the same page, a
page of the image or a page of a map. -/
theorem palloc_runs_apart (hfree : m.kernelEnd + pgSize ≤ X86.ptov (m.ramPages * pgSize))
    (hram : X86.ptov (m.ramPages * pgSize) < 2 ^ 32)
    (h : pallocInit m = some ((kMap, kernelPool), (uMap, userPool)))
    {usedK usedU : ℕ → Bool} {cntK cntU a b : ℕ} {kernelPool' userPool' : Pool}
    (hk : pallocGetMultiple { kernelPool with used := usedK } cntK = some (a, kernelPool'))
    (hu : pallocGetMultiple { userPool with used := usedU } cntU = some (b, userPool')) :
    m.kernelEnd ≤ kMap ∧ kMap + bitmapBufSize kernelPool.size ≤ a ∧ a + cntK * pgSize ≤ uMap ∧
      uMap + bitmapBufSize userPool.size ≤ b ∧ b + cntU * pgSize ≤ X86.ptov (m.ramPages * pgSize) := by
  obtain ⟨hstart, hkMap, hkPages, huMap, huPages⟩ := pallocInit_layout hfree hram h
  obtain ⟨hka, hka'⟩ := pallocGetMultiple_within hk
  obtain ⟨hub, hub'⟩ := pallocGetMultiple_within hu
  exact ⟨hstart, le_trans hkMap hka, hkPages ▸ hka', le_trans huMap hub, le_trans hub' huPages⟩

/-- The first page of each pool of a 4 MB machine whose image leaves eight pages free: three
for each pool after a page of map. -/
theorem palloc_runs_apart_first_pages :
    (⟨0xc03f8000, 1024, 2 ^ 32⟩ : Memory).kernelEnd ≤ 0xc03f8000 ∧
      0xc03f8000 + bitmapBufSize 3 ≤ 0xc03f9000 ∧ 0xc03f9000 + 1 * pgSize ≤ 0xc03fc000 ∧
      0xc03fc000 + bitmapBufSize 3 ≤ 0xc03fd000 ∧
      0xc03fd000 + 1 * pgSize ≤ X86.ptov ((⟨0xc03f8000, 1024, 2 ^ 32⟩ : Memory).ramPages * pgSize) := by
  have hinit : pallocInit ⟨0xc03f8000, 1024, 2 ^ 32⟩ =
      some ((0xc03f8000, ⟨0xc03f9000, 3, fun _ => false, by decide⟩),
        (0xc03fc000, ⟨0xc03fd000, 3, fun _ => false, by decide⟩)) := rfl
  have hk : pallocGetMultiple { (⟨0xc03f9000, 3, fun _ => false, by decide⟩ : Pool) with
      used := fun _ => false } 1 =
      some (0xc03f9000, Pool.setRun ⟨0xc03f9000, 3, fun _ => false, by decide⟩ 0 1 true) := rfl
  have hu : pallocGetMultiple { (⟨0xc03fd000, 3, fun _ => false, by decide⟩ : Pool) with
      used := fun _ => false } 1 =
      some (0xc03fd000, Pool.setRun ⟨0xc03fd000, 3, fun _ => false, by decide⟩ 0 1 true) := rfl
  exact palloc_runs_apart (by decide) (by decide) hinit hk hu

end Layout

end TinyOs
