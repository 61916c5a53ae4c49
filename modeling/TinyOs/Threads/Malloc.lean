import TinyOs.Basic
import Mathlib.Data.List.Range

/-!
The kernel's heap (`threads/malloc.c`) over the kernel page pool (`threads/palloc.c`). A
request of at most 1 kB goes to the smallest of the seven descriptors whose block size holds
it; a descriptor with an empty free list first carves a new one-page arena into blocks. A
larger request gets `DIV_ROUND_UP (size + sizeof (struct arena), PGSIZE)` contiguous pages,
computed in 32-bit `size_t` arithmetic, with the arena header in front of the block.
`calloc (a, b)` computes `a * b` in the same arithmetic and rejects the product only when it
is smaller than `a` or `b`.

* `Pool`, `pallocGetMultiple`, `pallocFreeMultiple`: the page pool and its bitmap;
* `Heap`, `malloc`, `calloc`, `free`, `realloc`, `blockSize`: the allocator;
* `malloc_small_blockSize`, `malloc_big_blockSize`: the usable size of a block `malloc`
  returns, on either path;
* `malloc_blockSize_of_no_wrap`, `calloc_blockSize_of_no_wrap`: without 32-bit wrap-around
  the block holds the request, as long as the free lists hold blocks of their own arenas
  (`FreeListsInArenas`);
* `malloc_calloc_undersized`: `malloc (0xffffffff)` returns a block of 4084 bytes, and
  `calloc (65537, 65537)` one of 135156 bytes.
-/

namespace TinyOs

/-! ### The page pool -/

/-- A pool of pages (`struct pool`): the address of its first page, which `palloc_init`
aligns to a page, its number of pages, and the bitmap of pages in use. -/
structure Pool where
  base : ℕ
  size : ℕ
  used : ℕ → Bool
  aligned : pgOfs base = 0

namespace Pool

/-- `bitmap_scan (used_map, 0, cnt, false)`: the first index from which `cnt` pages are
free. -/
def scan (p : Pool) (cnt : ℕ) : Option ℕ :=
  (List.range (p.size + 1 - cnt)).find? fun i => (List.range cnt).all fun j => !p.used (i + j)

/-- Mark the `cnt` pages from index `i` as in use (`flag`) or free. -/
def setRun (p : Pool) (i cnt : ℕ) (flag : Bool) : Pool :=
  { p with used := fun j => if i ≤ j ∧ j < i + cnt then flag else p.used j }

end Pool

/-- `palloc_get_multiple (0, cnt)` on the kernel pool: `NULL` for `cnt = 0` and when no run of
`cnt` free pages exists; otherwise the address of the first page of the first such run. -/
def pallocGetMultiple (p : Pool) (cnt : ℕ) : Option (ℕ × Pool) :=
  if cnt = 0 then none
  else (p.scan cnt).map fun i => (p.base + pgSize * i, p.setRun i cnt true)

/-- `palloc_free_multiple (pages, cnt)`: the pages must all be in use (`ASSERT (bitmap_all
(...))`); `none` when they are not. -/
def pallocFreeMultiple (p : Pool) (pages cnt : ℕ) : Option Pool :=
  let i := (pages - p.base) / pgSize
  if (List.range cnt).all fun j => p.used (i + j) then some (p.setRun i cnt false) else none

/-! ### The allocator -/

/-- `sizeof (struct arena)`: `magic`, `desc` and `free_cnt`, four bytes each. -/
def arenaHeader : ℕ := 12

/-- The block sizes of the descriptors `malloc_init` creates: from 16 bytes, doubling while
below `PGSIZE / 2`. -/
def descSizes : List ℕ := (List.range 7).map fun i => 16 * 2 ^ i

/-- `blocks_per_arena` of a descriptor with blocks of `blockSize` bytes. -/
def blocksPerArena (blockSize : ℕ) : ℕ := (pgSize - arenaHeader) / blockSize

/-- An arena header: the index of its descriptor (`NULL` for a big block) and `free_cnt`,
which counts free blocks, or pages of a big block. -/
structure Arena where
  desc : Option ℕ
  freeCnt : ℕ

/-- The heap: the kernel pool, each descriptor's free list of block addresses, the arena
header at each page address, and memory. -/
structure Heap where
  pool : Pool
  freeLists : ℕ → List ℕ
  arenas : ℕ → Option Arena
  mem : ℕ → UInt8

/-- The smallest descriptor whose blocks hold `size` bytes. -/
def descFor (size : ℕ) : Option ℕ := descSizes.findIdx? fun bs => decide (size ≤ bs)

/-- `DIV_ROUND_UP (size + sizeof *a, PGSIZE)` in 32-bit `size_t` arithmetic. -/
def bigPageCnt (size : ℕ) : ℕ := wrap32 (size + arenaHeader + pgSize - 1) / pgSize

/-- A new arena for descriptor `d` from one page of the pool, all its blocks appended to the
free list; `none` when the pool has no free page. -/
def newArena (h : Heap) (d : ℕ) : Option Heap :=
  let bs := descSizes.getD d 0
  (pallocGetMultiple h.pool 1).map fun (a, pool) =>
    { h with pool := pool,
             arenas := Function.update h.arenas a (some ⟨some d, blocksPerArena bs⟩),
             freeLists := Function.update h.freeLists d
               (h.freeLists d ++ (List.range (blocksPerArena bs)).map fun i =>
                 a + arenaHeader + i * bs) }

/-- Take the first block of descriptor `d`'s free list and count it out of its arena. -/
def popBlock (h : Heap) (d : ℕ) : Option (ℕ × Heap) :=
  match h.freeLists d with
  | [] => none
  | b :: rest =>
      (h.arenas (pgRoundDown b)).map fun ar =>
        (b, { h with freeLists := Function.update h.freeLists d rest,
                     arenas := Function.update h.arenas (pgRoundDown b)
                       (some { ar with freeCnt := ar.freeCnt - 1 }) })

/-- `malloc (size)`: `NULL` for `size = 0`, a block of the smallest descriptor that holds
`size`, or for a larger `size` a big block of `bigPageCnt size` pages after its arena header.
`NULL` when the pool has no room. The result is `none` where an `ASSERT` of the source would
stop the kernel. -/
def malloc (h : Heap) (size : ℕ) : Option (Option ℕ × Heap) :=
  if size = 0 then some (none, h)
  else
    match descFor size with
    | none =>
        match pallocGetMultiple h.pool (bigPageCnt size) with
        | none => some (none, h)
        | some (a, pool) =>
            some (some (a + arenaHeader),
              { h with pool := pool,
                       arenas := Function.update h.arenas a (some ⟨none, bigPageCnt size⟩) })
    | some d =>
        if h.freeLists d = [] then
          match newArena h d with
          | none => some (none, h)
          | some h => (popBlock h d).map fun (b, h) => (some b, h)
        else (popBlock h d).map fun (b, h) => (some b, h)

/-- `calloc (a, b)`: `NULL` when the 32-bit product is smaller than `a` or `b`; otherwise
`malloc` of the product, zeroed. -/
def calloc (h : Heap) (a b : ℕ) : Option (Option ℕ × Heap) :=
  let size := wrap32 (a * b)
  if size < a ∨ size < b then some (none, h)
  else (malloc h size).map fun (p, h) =>
    match p with
    | none => (none, h)
    | some p => (some p, { h with mem := fun x => if p ≤ x ∧ x < p + size then 0 else h.mem x })

/-- `block_size (block)`: the descriptor's block size, or for a big block the bytes from the
block to the end of its pages; `none` when no arena header is found. -/
def blockSize (h : Heap) (b : ℕ) : Option ℕ :=
  (h.arenas (pgRoundDown b)).map fun ar =>
    match ar.desc with
    | some d => descSizes.getD d 0
    | none => pgSize * ar.freeCnt - pgOfs b

/-- `free (p)`: a block goes back to the front of its descriptor's free list, filled with
`0xcc`; when that leaves its arena with every block free, the arena's blocks leave the list and
its page goes back to the pool. A big block's pages go back to the pool. -/
def free (h : Heap) : Option ℕ → Option Heap
  | none => some h
  | some b =>
      let a := pgRoundDown b
      match h.arenas a with
      | none => none
      | some ⟨some d, cnt⟩ =>
          let bs := descSizes.getD d 0
          let h := { h with mem := fun x => if b ≤ x ∧ x < b + bs then 0xcc else h.mem x,
                            freeLists := Function.update h.freeLists d (b :: h.freeLists d) }
          if blocksPerArena bs ≤ cnt + 1 then
            -- `ASSERT (a->free_cnt == d->blocks_per_arena)`
            if cnt + 1 = blocksPerArena bs then
              (pallocFreeMultiple h.pool a 1).map fun pool =>
                { h with pool := pool,
                         freeLists := Function.update h.freeLists d
                           ((h.freeLists d).filter fun x => pgRoundDown x ≠ a),
                         arenas := Function.update h.arenas a none }
            else none
          else some { h with arenas := Function.update h.arenas a (some ⟨some d, cnt + 1⟩) }
      | some ⟨none, cnt⟩ =>
          (pallocFreeMultiple h.pool a cnt).map fun pool =>
            { h with pool := pool, arenas := Function.update h.arenas a none }

/-- `realloc (old, newSize)`: `free (old)` for `newSize = 0`; otherwise `malloc (newSize)` and,
when both blocks exist, a copy of `min (newSize, block_size (old))` bytes and `free (old)`. -/
def realloc (h : Heap) (old : Option ℕ) (newSize : ℕ) : Option (Option ℕ × Heap) :=
  if newSize = 0 then (free h old).map fun h => (none, h)
  else
    (malloc h newSize).bind fun (nb, h) =>
      match old, nb with
      | some o, some n =>
          (blockSize h o).bind fun oldSize =>
            let m := min newSize oldSize
            let h := { h with mem := fun x => if n ≤ x ∧ x < n + m then h.mem (o + (x - n))
                                              else h.mem x }
            (free h (some o)).map fun h => (some n, h)
      | _, _ => some (nb, h)

/-! ### Sizes of the blocks `malloc` returns -/

/-- The descriptor `malloc` picks holds the request. -/
lemma descFor_le {size d : ℕ} (h : descFor size = some d) : size ≤ descSizes.getD d 0 := by
  obtain ⟨hd, hle, -⟩ := List.findIdx?_eq_some_iff_getElem.mp h
  rw [List.getD_eq_getElem?_getD, List.getElem?_eq_getElem hd, Option.getD_some]
  simpa using hle

/-- No descriptor holds a request above 1 kB. -/
lemma descFor_eq_none {size : ℕ} : descFor size = none ↔ 1024 < size := by
  simp only [descFor, List.findIdx?_eq_none_iff, decide_eq_false_iff_not, not_le]
  constructor
  · intro h
    exact h 1024 (by decide)
  · intro h bs hbs
    simp only [descSizes, List.mem_map, List.mem_range] at hbs
    obtain ⟨i, hi, rfl⟩ := hbs
    have hpow : 2 ^ i ≤ 64 :=
      calc 2 ^ i ≤ 2 ^ 6 := Nat.pow_le_pow_right (by decide) (by omega)
        _ = 64 := by decide
    omega

lemma pallocGetMultiple_aligned {p p' : Pool} {cnt a : ℕ}
    (h : pallocGetMultiple p cnt = some (a, p')) : pgOfs a = 0 := by
  unfold pallocGetMultiple at h
  split_ifs at h
  obtain ⟨i, -, he⟩ := Option.map_eq_some_iff.mp h
  rw [Prod.mk.injEq] at he
  rw [← he.1]
  have hb := p.aligned
  simp only [pgOfs, pgSize] at hb ⊢
  omega

/-- The header of a big block sits at the start of the block's first page. -/
lemma pgRoundDown_header {a : ℕ} (ha : pgOfs a = 0) :
    pgRoundDown (a + arenaHeader) = a ∧ pgOfs (a + arenaHeader) = arenaHeader := by
  simp only [pgRoundDown, pgOfs, pgSize, arenaHeader] at ha ⊢
  omega

/-- A big block `malloc` returns starts after an arena header that records its pages. -/
lemma malloc_big {h h' : Heap} {size p : ℕ} (hd : descFor size = none)
    (hm : malloc h size = some (some p, h')) :
    ∃ a, pgOfs a = 0 ∧ p = a + arenaHeader ∧ h'.arenas a = some ⟨none, bigPageCnt size⟩ := by
  unfold malloc at hm
  split_ifs at hm with h0
  · simp at hm
  rw [hd] at hm
  simp only at hm
  split at hm
  · simp at hm
  · rename_i a pool ha
    simp only [Option.some.injEq, Prod.mk.injEq] at hm
    obtain ⟨rfl, rfl⟩ := hm
    exact ⟨a, pallocGetMultiple_aligned ha, rfl, by simp⟩

/-- A big block holds `PGSIZE * page_cnt - sizeof (struct arena)` bytes, with `page_cnt`
computed in 32-bit arithmetic. -/
theorem malloc_big_blockSize {h h' : Heap} {size p : ℕ} (hd : descFor size = none)
    (hm : malloc h size = some (some p, h')) :
    blockSize h' p = some (pgSize * bigPageCnt size - arenaHeader) := by
  obtain ⟨a, ha, rfl, har⟩ := malloc_big hd hm
  obtain ⟨hround, hofs⟩ := pgRoundDown_header ha
  simp [blockSize, hround, har, hofs]

/-- Without wrap-around in `size + sizeof (struct arena) + PGSIZE - 1`, the pages hold the
request. -/
lemma bigPageCnt_holds {size : ℕ} (hw : size + arenaHeader + pgSize - 1 < 2 ^ 32) :
    size ≤ pgSize * bigPageCnt size - arenaHeader := by
  simp only [bigPageCnt, wrap32, Nat.mod_eq_of_lt hw]
  simp only [pgSize, arenaHeader]
  omega

lemma popBlock_eq_some {h h' : Heap} {d b : ℕ} (hp : popBlock h d = some (b, h')) :
    ∃ rest ar, h.freeLists d = b :: rest ∧ h.arenas (pgRoundDown b) = some ar ∧
      h'.arenas (pgRoundDown b) = some { ar with freeCnt := ar.freeCnt - 1 } := by
  unfold popBlock at hp
  split at hp
  · cases hp
  · rename_i b' rest hl
    obtain ⟨ar, har, he⟩ := Option.map_eq_some_iff.mp hp
    rw [Prod.mk.injEq] at he
    obtain ⟨rfl, rfl⟩ := he
    exact ⟨rest, ar, hl, har, by simp⟩

lemma newArena_eq_some {h h' : Heap} {d : ℕ} (hn : newArena h d = some h') :
    ∃ a, pgOfs a = 0 ∧ h'.arenas a = some ⟨some d, blocksPerArena (descSizes.getD d 0)⟩ ∧
      h'.freeLists d = h.freeLists d ++ (List.range (blocksPerArena (descSizes.getD d 0))).map
        fun i => a + arenaHeader + i * descSizes.getD d 0 := by
  unfold newArena at hn
  obtain ⟨⟨a, pool⟩, ha, rfl⟩ := Option.map_eq_some_iff.mp hn
  exact ⟨a, pallocGetMultiple_aligned ha, by simp, by simp⟩

/-- The first block of a fresh arena lies in that arena's page. -/
lemma newArena_first {h h' : Heap} {d b : ℕ} {rest : List ℕ} (hn : newArena h d = some h')
    (hnil : h.freeLists d = []) (hl : h'.freeLists d = b :: rest) :
    ∃ ar, h'.arenas (pgRoundDown b) = some ar ∧ ar.desc = some d := by
  obtain ⟨a, ha, har, hfl⟩ := newArena_eq_some hn
  rw [hl, hnil, List.nil_append] at hfl
  cases hk : blocksPerArena (descSizes.getD d 0) with
  | zero =>
      rw [hk] at hfl
      simp at hfl
  | succ k =>
      rw [hk, List.range_succ_eq_map, List.map_cons, List.cons.injEq] at hfl
      have hb : b = a + arenaHeader := by simpa using hfl.1
      rw [hb, (pgRoundDown_header ha).1]
      exact ⟨_, har, rfl⟩

/-- A block of the small path holds the request. Its size is the descriptor's as long as
every block on that descriptor's free list sits in an arena of the descriptor. -/
theorem malloc_small_blockSize {h h' : Heap} {size p d : ℕ} (hd : descFor size = some d)
    (hlist : ∀ b ∈ h.freeLists d, ∃ cnt, h.arenas (pgRoundDown b) = some ⟨some d, cnt⟩)
    (hm : malloc h size = some (some p, h')) :
    blockSize h' p = some (descSizes.getD d 0) ∧ size ≤ descSizes.getD d 0 := by
  refine ⟨?_, descFor_le hd⟩
  -- the arena of the block `popBlock` takes belongs to `d`, before and after the pop
  suffices hpop : ∀ h₁ : Heap, popBlock h₁ d = some (p, h') →
      (∀ rest, h₁.freeLists d = p :: rest →
        ∃ ar, h₁.arenas (pgRoundDown p) = some ar ∧ ar.desc = some d) →
      blockSize h' p = some (descSizes.getD d 0) by
    unfold malloc at hm
    split_ifs at hm with h0
    · simp at hm
    rw [hd] at hm
    simp only at hm
    split_ifs at hm with hnil
    · split at hm
      · simp at hm
      · rename_i h₁ hn
        obtain ⟨⟨b, h₂⟩, hp, he⟩ := Option.map_eq_some_iff.mp hm
        simp only [Prod.mk.injEq, Option.some.injEq] at he
        obtain ⟨rfl, rfl⟩ := he
        exact hpop h₁ hp fun rest hl => newArena_first hn hnil hl
    · obtain ⟨⟨b, h₂⟩, hp, he⟩ := Option.map_eq_some_iff.mp hm
      simp only [Prod.mk.injEq, Option.some.injEq] at he
      obtain ⟨rfl, rfl⟩ := he
      refine hpop h hp fun rest hl => ?_
      obtain ⟨cnt, har⟩ := hlist b (by rw [hl]; exact List.mem_cons_self)
      exact ⟨_, har, rfl⟩
  intro h₁ hp hfirst
  obtain ⟨rest, ar, hl, har, har'⟩ := popBlock_eq_some hp
  obtain ⟨ar₁, har₁, hdesc⟩ := hfirst rest hl
  obtain rfl : ar = ar₁ := Option.some.inj (har.symm.trans har₁)
  simp [blockSize, har', hdesc]

/-- Every block on a descriptor's free list sits in an arena of that descriptor. -/
def FreeListsInArenas (h : Heap) : Prop :=
  ∀ d, ∀ b ∈ h.freeLists d, ∃ cnt, h.arenas (pgRoundDown b) = some ⟨some d, cnt⟩

/-- Without 32-bit wrap-around in the big path's page count, a block `malloc` returns holds
the request. -/
theorem malloc_blockSize_of_no_wrap {h h' : Heap} {size p : ℕ} (hinv : FreeListsInArenas h)
    (hw : size + arenaHeader + pgSize - 1 < 2 ^ 32) (hm : malloc h size = some (some p, h')) :
    ∃ n, blockSize h' p = some n ∧ size ≤ n := by
  cases hd : descFor size with
  | none => exact ⟨_, malloc_big_blockSize hd hm, bigPageCnt_holds hw⟩
  | some d =>
      obtain ⟨hb, hle⟩ := malloc_small_blockSize hd (hinv d) hm
      exact ⟨_, hb, hle⟩

/-- `calloc` hands `malloc` the 32-bit product when it is at least each factor; the block it
returns is `malloc`'s, zeroed, with the same arena headers. -/
lemma calloc_eq_some {h h' : Heap} {a b p : ℕ} (hc : calloc h a b = some (some p, h')) :
    a ≤ wrap32 (a * b) ∧ b ≤ wrap32 (a * b) ∧
      ∃ h₁, malloc h (wrap32 (a * b)) = some (some p, h₁) ∧ h'.arenas = h₁.arenas := by
  dsimp only [calloc] at hc
  split_ifs at hc with hlt
  · simp at hc
  obtain ⟨⟨o, h₁⟩, hm, he⟩ := Option.map_eq_some_iff.mp hc
  rw [not_or, not_lt, not_lt] at hlt
  cases o with
  | none => simp at he
  | some q =>
      simp only [Prod.mk.injEq, Option.some.injEq] at he
      obtain ⟨rfl, rfl⟩ := he
      exact ⟨hlt.1, hlt.2, h₁, hm, rfl⟩

/-- Without wrap-around in `a * b` and in the page count, a block `calloc (a, b)` returns holds
the product. -/
theorem calloc_blockSize_of_no_wrap {h h' : Heap} {a b p : ℕ} (hinv : FreeListsInArenas h)
    (hw : a * b + arenaHeader + pgSize - 1 < 2 ^ 32) (hc : calloc h a b = some (some p, h')) :
    ∃ n, blockSize h' p = some n ∧ a * b ≤ n := by
  obtain ⟨-, -, h₁, hm, har⟩ := calloc_eq_some hc
  have hab : wrap32 (a * b) = a * b := by
    simp only [arenaHeader, pgSize] at hw
    exact Nat.mod_eq_of_lt (by omega)
  rw [hab] at hm
  obtain ⟨n, hn, hle⟩ := malloc_blockSize_of_no_wrap hinv hw hm
  refine ⟨n, ?_, hle⟩
  rw [← hn]
  simp only [blockSize, har]

/-! ### Requests near `SIZE_MAX` -/

/-- A heap with nothing allocated over a kernel pool of 64 free pages at `0xc0100000`. -/
def heapStart : Heap :=
  { pool := ⟨0xC0100000, 64, fun _ => false, by decide⟩, freeLists := fun _ => [],
    arenas := fun _ => none, mem := fun _ => 0 }

/-- `malloc (0xffffffff)` computes `DIV_ROUND_UP (0xffffffff + 12, 4096)` as `1` and returns
a one-page big block of 4084 usable bytes. `calloc (65537, 65537)` computes the product
`0x100020001` as `0x20001`, which is larger than both factors, and returns a block of 135156
usable bytes. -/
theorem malloc_calloc_undersized :
    (∃ p h, malloc heapStart 0xFFFFFFFF = some (some p, h) ∧ blockSize h p = some 4084) ∧
      ∃ p h, calloc heapStart 65537 65537 = some (some p, h) ∧ blockSize h p = some 135156 := by
  have hm : (malloc heapStart 0xFFFFFFFF).map (fun r => r.1.bind (blockSize r.2)) =
      some (some 4084) := by
    decide
  have hc : (calloc heapStart 65537 65537).map (fun r => r.1.bind (blockSize r.2)) =
      some (some 135156) := by
    decide
  obtain ⟨⟨o, h⟩, hm, hb⟩ := Option.map_eq_some_iff.mp hm
  obtain ⟨p, rfl, hb⟩ := Option.bind_eq_some_iff.mp hb
  obtain ⟨⟨o', h'⟩, hc, hb'⟩ := Option.map_eq_some_iff.mp hc
  obtain ⟨p', rfl, hb'⟩ := Option.bind_eq_some_iff.mp hb'
  exact ⟨⟨p, h, hm, hb⟩, p', h', hc, hb'⟩

end TinyOs
