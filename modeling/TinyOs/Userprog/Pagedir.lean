import TinyOs.Basic
import TinyOs.Lib.BitField
import Mathlib.Logic.Function.Basic

/-!
Page directories as the x86 MMU reads them (`userprog/pagedir.c`, `threads/pte.h`,
`threads/vaddr.h`). A page directory is a page of 1024 entries, the first `pd_no (PHYS_BASE)`
of them for user addresses; each is zero or points to a page table of 1024 entries. An address
is cut into its directory index (`pd_no`, bits 22 to 31), its table index (`pt_no`, bits 12 to
21) and its offset (`pg_ofs`), and an entry holds the physical address of a page over the flags
`PTE_P`, `PTE_W`, `PTE_U`, `PTE_A` and `PTE_D`. The tables lie in kernel memory, which the model
reads and writes word by word; a page table is taken from the kernel pool with
`palloc_get_page (PAL_ZERO)` the first time a page under its directory entry is mapped.

A failed `ASSERT` of a function of `pagedir.c` is `none`. The `ASSERT` of `vtop` that its
argument is a kernel address is written into `pagedir_set_page`'s, where `vtop (kpage)` is
evaluated. `invalidate_pagedir` flushes the TLB, which the model does not hold.

* `pdNo`, `ptNo`, `pdeCreate`, `pteCreateUser`, `pteGetPage`: the fields of addresses and
  entries; `pdNo_ptNo_eq_iff`: two addresses have the same indices exactly when they lie in the
  same page;
* `KMem`: kernel memory, the kernel pool, `base_page_dir` and `ram_pages`;
* `lookupPage`, `pagedirCreate`, `pagedirSetPage`, `pagedirGetPage`, `pagedirClearPage`,
  `pagedirSetFlag` (`pagedir_set_dirty`, `pagedir_set_accessed`), `pagedirIsFlag`,
  `installPage`: the functions;
* `pteSlot`, `pteWord`, `mapping`: the entry of a page and the page it maps;
  `pagedirGetPage_eq`: `pagedir_get_page` reads them;
* `PdCall`, `pdRun`: a sequence of calls on one page directory.
-/

namespace TinyOs

/-- `is_user_vaddr`: below `PHYS_BASE`. -/
def isUserVaddr (va : ℕ) : Bool := va < physBase

namespace X86

open BitField

/-! ### Addresses and entries -/

/-- `PTSHIFT`: the first page-table bit, `PGBITS`. -/
def ptShift : ℕ := 12

/-- `PTBITS`: the number of page-table bits. -/
def ptBits : ℕ := 10

/-- `PTMASK`: the page-table bits. -/
def ptMask : ℕ := bitmask ptShift ptBits

/-- `PDSHIFT`: the first page-directory bit. -/
def pdShift : ℕ := ptShift + ptBits

/-- `pt_no`: the page-table index of an address. -/
def ptNo (va : ℕ) : ℕ := (va &&& ptMask) >>> ptShift

/-- `pd_no`: the page-directory index of an address. -/
def pdNo (va : ℕ) : ℕ := va >>> pdShift

/-- `PTE_P`: present. -/
def pteP : ℕ := 0x1

/-- `PTE_W`: writable. -/
def pteW : ℕ := 0x2

/-- `PTE_U`: user. -/
def pteU : ℕ := 0x4

/-- `PTE_A`: accessed. -/
def pteA : ℕ := 0x20

/-- `PTE_D`: dirty. -/
def pteD : ℕ := 0x40

/-- `PTE_ADDR`: the address bits of an entry. -/
def pteAddr : ℕ := 0xfffff000

/-- `~x` of a `uint32_t`. -/
def not32 (x : ℕ) : ℕ := 2 ^ 32 - 1 - x

/-- `vtop`: the physical address of a kernel virtual address. -/
def vtop (va : ℕ) : ℕ := va - physBase

/-- `ptov`: the kernel virtual address of a physical address. -/
def ptov (pa : ℕ) : ℕ := pa + physBase

/-- `pde_create`: a directory entry for page table `pt`. -/
def pdeCreate (pt : ℕ) : ℕ := vtop pt ||| pteU ||| pteP ||| pteW

/-- `pde_get_pt`: the page table a directory entry points to. -/
def pdeGetPt (pde : ℕ) : ℕ := ptov (pde &&& pteAddr)

/-- `pte_create_kernel`: a present entry for `page`, writable or read-only. -/
def pteCreateKernel (page : ℕ) (writable : Bool) : ℕ :=
  vtop page ||| pteP ||| (if writable then pteW else 0)

/-- `pte_create_user`: the same, usable from user mode. -/
def pteCreateUser (page : ℕ) (writable : Bool) : ℕ := pteCreateKernel page writable ||| pteU

/-- `pte_get_page`: the page an entry points to. -/
def pteGetPage (pte : ℕ) : ℕ := ptov (pte &&& pteAddr)

/-- A page of kernel memory the model may put a table in: page-aligned, a kernel address, and
a 32-bit pointer. -/
def IsKPage (p : ℕ) : Prop := pgOfs p = 0 ∧ physBase ≤ p ∧ p < 2 ^ 32

lemma pdNo_eq (va : ℕ) : pdNo va = va / 4194304 := by
  simp [pdNo, pdShift, ptShift, ptBits, Nat.shiftRight_eq_div_pow]

lemma ptNo_eq (va : ℕ) : ptNo va = va / 4096 % 1024 := by
  rw [ptNo, ptMask, and_bitmask, Nat.shiftRight_eq_div_pow, Nat.mul_div_cancel _ (Nat.two_pow_pos _)]
  rfl

lemma pdNo_physBase : pdNo physBase = 768 := by
  rw [pdNo_eq]
  rfl

lemma ptNo_lt (va : ℕ) : ptNo va < 1024 := by
  rw [ptNo_eq]
  omega

/-- A user address lies under one of the first 768 directory entries. -/
lemma pdNo_lt_of_user {va : ℕ} (h : isUserVaddr va) : pdNo va < pdNo physBase := by
  have hb : physBase = 0xc0000000 := rfl
  simp only [isUserVaddr, decide_eq_true_eq] at h
  rw [pdNo_eq, pdNo_eq]
  omega

/-- Two addresses have the same directory and table indices exactly when they lie in the same
page. -/
theorem pdNo_ptNo_eq_iff (u v : ℕ) :
    pdNo u = pdNo v ∧ ptNo u = ptNo v ↔ pgRoundDown u = pgRoundDown v := by
  simp only [pdNo_eq, ptNo_eq, pgRoundDown, pgOfs, pgSize]
  omega

lemma pdNo_ptNo_of_isKPage {p : ℕ} (hp : IsKPage p) : pdNo physBase ≤ pdNo p := by
  rw [pdNo_eq, pdNo_eq]
  exact Nat.div_le_div_right hp.2.1

/-- The entry of a page lies in the page of its table. -/
lemma slot_mem_page {t : ℕ} (j : ℕ) (hj : j < 1024) : t ≤ t + 4 * j ∧ t + 4 * j < t + pgSize := by
  simp only [pgSize]
  omega

/-- Two page-aligned pages that share an address are the same page. -/
lemma page_eq_of_mem {p q a : ℕ} (hp : pgOfs p = 0) (hq : pgOfs q = 0)
    (hap : p ≤ a ∧ a < p + pgSize) (haq : q ≤ a ∧ a < q + pgSize) : p = q := by
  simp only [pgOfs, pgSize] at hp hq hap haq
  omega

/-! ### Reading entries back -/

/-- A word whose low twelve bits are clear and that fits in 32 bits is its own address
field. -/
lemma and_pteAddr_of_aligned {a : ℕ} (ha : pgOfs a = 0) (hlt : a < 2 ^ 32) :
    a &&& pteAddr = a := by
  rw [show pteAddr = bitmask 12 20 by decide, and_bitmask]
  simp only [pgOfs, pgSize] at ha
  omega

lemma vtop_aligned {p : ℕ} (hp : IsKPage p) : pgOfs (vtop p) = 0 ∧ vtop p < 2 ^ 32 := by
  obtain ⟨ha, hge, hlt⟩ := hp
  simp only [pgOfs, pgSize, vtop, physBase] at ha hge ⊢
  omega

lemma ptov_vtop {p : ℕ} (hp : physBase ≤ p) : ptov (vtop p) = p := by
  simp only [ptov, vtop]
  omega

lemma pdeGetPt_pdeCreate {t : ℕ} (ht : IsKPage t) : pdeGetPt (pdeCreate t) = t := by
  obtain ⟨hal, hlt⟩ := vtop_aligned ht
  rw [pdeGetPt, pdeCreate, or_and_of_and_eq_zero (by decide), or_and_of_and_eq_zero (by decide),
    or_and_of_and_eq_zero (by decide), and_pteAddr_of_aligned hal hlt, ptov_vtop ht.2.1]

lemma pdeCreate_ne_zero (t : ℕ) : pdeCreate t ≠ 0 := by
  intro h
  have hp : pdeCreate t &&& pteP = pteP := by
    rw [pdeCreate, or_and_of_and_eq_zero (by decide), or_and_self]
  rw [h] at hp
  exact absurd hp (by decide)

/-- The page table a directory entry points to is page-aligned. -/
lemma pdeGetPt_aligned (pde : ℕ) : pgOfs (pdeGetPt pde) = 0 := by
  rw [pdeGetPt, ptov, show pteAddr = bitmask 12 20 by decide, and_bitmask]
  simp only [pgOfs, pgSize, physBase]
  omega

lemma pteCreateUser_present (page : ℕ) (writable : Bool) :
    pteCreateUser page writable &&& pteP = pteP := by
  rw [pteCreateUser, or_and_of_and_eq_zero (by decide), pteCreateKernel]
  cases writable
  · rw [if_neg (by decide), Nat.or_zero, or_and_self]
  · rw [if_pos rfl, or_and_of_and_eq_zero (by decide), or_and_self]

lemma pteGetPage_pteCreateUser {page : ℕ} (hp : IsKPage page) (writable : Bool) :
    pteGetPage (pteCreateUser page writable) = page := by
  obtain ⟨hal, hlt⟩ := vtop_aligned hp
  have hw : (if writable then pteW else 0) &&& pteAddr = 0 := by
    cases writable <;> decide
  rw [pteGetPage, pteCreateUser, or_and_of_and_eq_zero (by decide), pteCreateKernel,
    or_and_of_and_eq_zero hw, or_and_of_and_eq_zero (by decide), and_pteAddr_of_aligned hal hlt,
    ptov_vtop hp.2.1]

/-- `PTE_A` and `PTE_D`: flags that are neither the present bit nor address bits, so that
setting or clearing one keeps both. -/
structure IsFlag (flag : ℕ) : Prop where
  and_present : flag &&& pteP = 0
  and_addr : flag &&& pteAddr = 0
  not_and_present : not32 flag &&& pteP = pteP
  not_and_addr : not32 flag &&& pteAddr = pteAddr
  not_and_self : not32 flag &&& flag = 0

lemma isFlag_pteA : IsFlag pteA := ⟨by decide, by decide, by decide, by decide, by decide⟩

lemma isFlag_pteD : IsFlag pteD := ⟨by decide, by decide, by decide, by decide, by decide⟩

section Flag

variable {flag : ℕ} (hf : IsFlag flag) (b : Bool) (e : ℕ)
include hf

/-- Setting or clearing a flag keeps the present bit. -/
lemma setFlag_present :
    (if b then e ||| flag else e &&& not32 flag) &&& pteP = e &&& pteP := by
  cases b
  · exact and_and_of_and_eq hf.not_and_present
  · exact or_and_of_and_eq_zero hf.and_present

/-- Setting or clearing a flag keeps the address. -/
lemma setFlag_addr :
    (if b then e ||| flag else e &&& not32 flag) &&& pteAddr = e &&& pteAddr := by
  cases b
  · exact and_and_of_and_eq hf.not_and_addr
  · exact or_and_of_and_eq_zero hf.and_addr

/-- The flag reads back as it was set. -/
lemma setFlag_flag (hne : flag ≠ 0) :
    ((if b then e ||| flag else e &&& not32 flag) &&& flag ≠ 0) = (b = true) := by
  cases b
  · simp [and_and_of_and_eq_zero hf.not_and_self]
  · simp [or_and_self, hne]

end Flag

/-- What the MMU translates the page of an entry to: the page it points to when it is
present. -/
def mapping (e : ℕ) : Option ℕ := if e &&& pteP ≠ 0 then some (pteGetPage e) else none

lemma mapping_pteCreateUser {page : ℕ} (hp : IsKPage page) (writable : Bool) :
    mapping (pteCreateUser page writable) = some page := by
  rw [mapping, pteCreateUser_present, if_pos (by decide), pteGetPage_pteCreateUser hp]

lemma mapping_clear (e : ℕ) : mapping (e &&& not32 pteP) = none := by
  rw [mapping, and_and_of_and_eq_zero (by decide), if_neg (by decide)]

lemma mapping_zero : mapping 0 = none := rfl

/-- Setting or clearing a flag keeps what the entry maps. -/
lemma mapping_setFlag {flag : ℕ} (hf : IsFlag flag) (b : Bool) (e : ℕ) :
    mapping (if b then e ||| flag else e &&& not32 flag) = mapping e := by
  rw [mapping, mapping, setFlag_present hf, pteGetPage, pteGetPage, setFlag_addr hf]

/-! ### Kernel memory -/

/-- The kernel state the page-table code works on: the 32-bit word at each kernel virtual
address, the pages of the kernel pool not yet handed out, in the order `palloc_get_page` hands
them out, `base_page_dir` and `ram_pages`. -/
structure KMem where
  word : ℕ → ℕ
  free : List ℕ
  basePageDir : ℕ
  ramPages : ℕ

namespace KMem

/-- Store `v` at address `a`. -/
def store (m : KMem) (a v : ℕ) : KMem := { m with word := Function.update m.word a v }

@[simp] lemma store_word (m : KMem) (a v b : ℕ) :
    (m.store a v).word b = if b = a then v else m.word b := by
  simp [store, Function.update_apply]

@[simp] lemma store_free (m : KMem) (a v : ℕ) : (m.store a v).free = m.free := rfl

@[simp] lemma store_basePageDir (m : KMem) (a v : ℕ) :
    (m.store a v).basePageDir = m.basePageDir := rfl

@[simp] lemma store_ramPages (m : KMem) (a v : ℕ) : (m.store a v).ramPages = m.ramPages := rfl

/-- The words of the page at `p` replaced by those `f` gives, the others kept. -/
def fillPage (w : ℕ → ℕ) (p : ℕ) (f : ℕ → ℕ) : ℕ → ℕ :=
  fun a => if p ≤ a ∧ a < p + pgSize then f a else w a

lemma fillPage_of_mem {w : ℕ → ℕ} {p a : ℕ} (f : ℕ → ℕ) (h : p ≤ a ∧ a < p + pgSize) :
    fillPage w p f a = f a := if_pos h

lemma fillPage_of_not_mem {w : ℕ → ℕ} {p a : ℕ} (f : ℕ → ℕ) (h : ¬(p ≤ a ∧ a < p + pgSize)) :
    fillPage w p f a = w a := if_neg h

/-- `palloc_get_page` from the kernel pool: its next free page, filled with zeros for
`PAL_ZERO`, or `NULL` when the pool is used up. -/
def pallocGetPage (m : KMem) (zero : Bool) : Option (ℕ × KMem) :=
  match m.free with
  | [] => none
  | p :: ps =>
      some (p, { m with word := if zero then fillPage m.word p fun _ => 0 else m.word, free := ps })

/-- What `palloc_get_page` hands out is the pool's next page, and it leaves the rest. -/
lemma pallocGetPage_eq_some {m m' : KMem} {zero : Bool} {p : ℕ}
    (h : m.pallocGetPage zero = some (p, m')) :
    m.free = p :: m'.free ∧ m'.word = (if zero then fillPage m.word p fun _ => 0 else m.word) ∧
      m'.basePageDir = m.basePageDir ∧ m'.ramPages = m.ramPages := by
  rw [pallocGetPage] at h
  cases hf : m.free with
  | nil => simp [hf] at h
  | cons q qs =>
      simp only [hf, Option.some.injEq, Prod.mk.injEq] at h
      obtain ⟨rfl, rfl⟩ := h
      exact ⟨rfl, rfl, rfl, rfl⟩

end KMem

/-! ### `pagedir.c` -/

/-- `lookup_page (pd, vaddr, create)`: the state and the address of the entry of `vaddr`, or
`NULL` (`none`) when its directory entry is zero and no table is created. With `create` a
missing table is taken from the kernel pool, zeroed, and entered in the directory. -/
def lookupPage (m : KMem) (pd va : ℕ) (create : Bool) : Option (KMem × Option ℕ) :=
  if pd = 0 ∨ (create = true ∧ isUserVaddr va = false) then none
  else if m.word (pd + 4 * pdNo va) = 0 then
    if create then
      match m.pallocGetPage true with
      | none => some (m, none)
      | some (pt, m') =>
          let m'' := m'.store (pd + 4 * pdNo va) (pdeCreate pt)
          some (m'', some (pdeGetPt (m''.word (pd + 4 * pdNo va)) + 4 * ptNo va))
    else some (m, none)
  else some (m, some (pdeGetPt (m.word (pd + 4 * pdNo va)) + 4 * ptNo va))

/-- `pagedir_create`: a page from the kernel pool holding a copy of `base_page_dir`, or `NULL`
when the pool is used up. -/
def pagedirCreate (m : KMem) : Option (ℕ × KMem) :=
  match m.pallocGetPage false with
  | none => none
  | some (pd, m') =>
      some (pd, { m' with
        word := KMem.fillPage m'.word pd fun a => m'.word (m'.basePageDir + (a - pd)) })

/-- The two fields of `struct frame` that `pagedir_set_page` uses: the kernel page it maps
(`user_page`, read) and the entry that maps it (`PTE`, written). -/
structure FrameRef where
  userPage : ℕ
  pte : Option ℕ

/-- `pagedir_set_page (pd, upage, frame, writable)`: the state, the frame with its `PTE` set,
and whether a table was found or made for `upage`. -/
def pagedirSetPage (m : KMem) (pd upage : ℕ) (frame : FrameRef) (writable : Bool) :
    Option (KMem × FrameRef × Bool) :=
  let kpage := frame.userPage
  if pgOfs upage = 0 ∧ pgOfs kpage = 0 ∧ isUserVaddr upage = true ∧
      -- `vtop (kpage)` asserts that `kpage` is a kernel address
      isUserVaddr kpage = false ∧ vtop kpage >>> ptShift < m.ramPages ∧ pd ≠ m.basePageDir then
    match lookupPage m pd upage true with
    | none => none
    | some (m', none) => some (m', { frame with pte := none }, false)
    | some (m', some pte) =>
        if m'.word pte &&& pteP = 0 then
          some (m'.store pte (pteCreateUser kpage writable), { frame with pte := some pte }, true)
        else none
  else none

/-- `pagedir_get_page (pd, uaddr)`: the kernel address `uaddr` is mapped to, or `NULL`. -/
def pagedirGetPage (m : KMem) (pd uaddr : ℕ) : Option (Option ℕ) :=
  if isUserVaddr uaddr then
    match lookupPage m pd uaddr false with
    | none => none
    | some (m', some pte) =>
        if m'.word pte &&& pteP ≠ 0 then some (some (pteGetPage (m'.word pte) + pgOfs uaddr))
        else some none
    | some (_, none) => some none
  else none

/-- `pagedir_clear_page (pd, upage)`: clear `PTE_P` of a present entry, keeping its other
bits. -/
def pagedirClearPage (m : KMem) (pd upage : ℕ) : Option KMem :=
  if pgOfs upage = 0 ∧ isUserVaddr upage = true then
    match lookupPage m pd upage false with
    | none => none
    | some (m', some pte) =>
        some (if m'.word pte &&& pteP ≠ 0 then m'.store pte (m'.word pte &&& not32 pteP) else m')
    | some (m', none) => some m'
  else none

/-- `pagedir_set_dirty` and `pagedir_set_accessed`, which differ only in their flag: set
(`*pte |= flag`) or clear (`*pte &= ~flag`) the flag in the entry of `vpage`, if it has one. -/
def pagedirSetFlag (flag : ℕ) (m : KMem) (pd vpage : ℕ) (b : Bool) : Option KMem :=
  match lookupPage m pd vpage false with
  | none => none
  | some (m', some pte) =>
      some (m'.store pte (if b then m'.word pte ||| flag else m'.word pte &&& not32 flag))
  | some (m', none) => some m'

/-- `pagedir_set_dirty`. -/
def pagedirSetDirty (m : KMem) (pd vpage : ℕ) (dirty : Bool) : Option KMem :=
  pagedirSetFlag pteD m pd vpage dirty

/-- `pagedir_set_accessed`. -/
def pagedirSetAccessed (m : KMem) (pd vpage : ℕ) (accessed : Bool) : Option KMem :=
  pagedirSetFlag pteA m pd vpage accessed

/-- `pagedir_is_dirty` and `pagedir_is_accessed`: whether the entry of `vpage` holds the flag,
false when there is no entry. -/
def pagedirIsFlag (flag : ℕ) (m : KMem) (pd vpage : ℕ) : Option Bool :=
  match lookupPage m pd vpage false with
  | none => none
  | some (m', some pte) => some (m'.word pte &&& flag ≠ 0)
  | some (_, none) => some false

/-- `pagedir_is_dirty`. -/
def pagedirIsDirty (m : KMem) (pd vpage : ℕ) : Option Bool := pagedirIsFlag pteD m pd vpage

/-- `pagedir_is_accessed`. -/
def pagedirIsAccessed (m : KMem) (pd vpage : ℕ) : Option Bool := pagedirIsFlag pteA m pd vpage

/-- `install_page (upage, frame, writable)` on the current thread's page directory `pd`: false,
with nothing changed, when `upage` is already mapped. -/
def installPage (m : KMem) (pd upage : ℕ) (frame : FrameRef) (writable : Bool) :
    Option (KMem × FrameRef × Bool) :=
  match pagedirGetPage m pd upage with
  | none => none
  | some (some _) => some (m, frame, false)
  | some none => pagedirSetPage m pd upage frame writable

/-! ### The entry of a page -/

/-- Where `lookup_page` without `create` finds the entry of `va`: nowhere when its directory
entry is zero. -/
def pteSlot (m : KMem) (pd va : ℕ) : Option ℕ :=
  if m.word (pd + 4 * pdNo va) = 0 then none
  else some (pdeGetPt (m.word (pd + 4 * pdNo va)) + 4 * ptNo va)

/-- The entry of the page of `va` as the MMU reads it: zero when there is no table. -/
def pteWord (m : KMem) (pd va : ℕ) : ℕ :=
  match pteSlot m pd va with
  | none => 0
  | some a => m.word a

lemma lookupPage_false {m : KMem} {pd : ℕ} (hpd : pd ≠ 0) (va : ℕ) :
    lookupPage m pd va false = some (m, pteSlot m pd va) := by
  rw [lookupPage, if_neg (by simp [hpd]), pteSlot]
  by_cases h : m.word (pd + 4 * pdNo va) = 0
  · rw [if_pos h, if_pos h]
    rfl
  · rw [if_neg h, if_neg h]

/-- `pagedir_get_page` translates a user address through the entry of its page. -/
theorem pagedirGetPage_eq {m : KMem} {pd u : ℕ} (hpd : pd ≠ 0) (hu : isUserVaddr u) :
    pagedirGetPage m pd u = some ((mapping (pteWord m pd u)).map (· + pgOfs u)) := by
  rw [pagedirGetPage, if_pos hu, lookupPage_false hpd, pteWord]
  cases pteSlot m pd u with
  | none => simp [mapping_zero]
  | some a =>
      simp only [mapping]
      split_ifs <;> rfl

/-! ### Runs -/

/-- A call on the page directory of one process. -/
inductive PdCall where
  | setPage (upage : ℕ) (frame : FrameRef) (writable : Bool)
  | installPage (upage : ℕ) (frame : FrameRef) (writable : Bool)
  | clearPage (upage : ℕ)
  | setDirty (vpage : ℕ) (dirty : Bool)
  | setAccessed (vpage : ℕ) (accessed : Bool)

/-- The page a call is on. -/
def PdCall.page : PdCall → ℕ
  | setPage u _ _ | installPage u _ _ | clearPage u | setDirty u _ | setAccessed u _ => u

/-- A call: the state after it and what it returns (`true` for the calls that return
nothing). -/
def pdCall (m : KMem) (pd : ℕ) : PdCall → Option (KMem × Bool)
  | .setPage u fr w => (pagedirSetPage m pd u fr w).map fun r => (r.1, r.2.2)
  | .installPage u fr w => (installPage m pd u fr w).map fun r => (r.1, r.2.2)
  | .clearPage u => (pagedirClearPage m pd u).map fun m' => (m', true)
  | .setDirty v b => (pagedirSetDirty m pd v b).map fun m' => (m', true)
  | .setAccessed v b => (pagedirSetAccessed m pd v b).map fun m' => (m', true)

/-- Calls one after another: the final state and what each returned; `none` when an `ASSERT`
fails. -/
def pdRun (m : KMem) (pd : ℕ) : List PdCall → Option (KMem × List Bool)
  | [] => some (m, [])
  | c :: cs =>
      match pdCall m pd c with
      | none => none
      | some (m', ok) => (pdRun m' pd cs).map fun r => (r.1, ok :: r.2)

end X86

end TinyOs
