import TinyOs.Vm.Swap
import TinyOs.Kernel.List

/-!
The state the virtual-memory code works on: page directories (`userprog/pagedir.c`), the user
pool (`threads/palloc.c`), the supplemental page tables (`vm/page.c`), the frame table and its
clock hand (`vm/frame.c`), the swap state (`vm/swap.c`) and the contents of files.

* `Pte`, `Pagedir`: page-table entries and the user part of a page directory, as a finite list
  of entries read newest first (`Pagedir.lookup_set`);
* `SpecialPage`: the four kinds of supplemental page-table entry;
* `Frame`: `struct frame`, with its record identity for the clock hand;
* `Proc`, `Pending`: what a process's `struct thread` holds for virtual memory, and where the
  thread is inside `page_fault` or `setup_stack`;
* `VmState`: all of it, with `palloc_get_page`, `palloc_free_page` and the page-directory
  operations as state updates.
-/

namespace TinyOs

/-- A page-table entry of a user page (`threads/pte.h`): `PTE_P`, the frame, `PTE_W`, `PTE_D`
and `PTE_A`. -/
structure Pte where
  present : Bool
  kpage : ℕ
  writable : Bool
  dirty : Bool
  accessed : Bool
  deriving DecidableEq, Repr

/-- The zero entry of a page with no mapping. -/
def Pte.empty : Pte := ⟨false, 0, false, false, false⟩

/-- `pte_create_user`: a present user entry for `kpage` with clear dirty and accessed bits. -/
def pteCreateUser (kpage : ℕ) (writable : Bool) : Pte := ⟨true, kpage, writable, false, false⟩

/-- The user part of a page directory: the entries its page tables hold, newest first, by
user page address. -/
structure Pagedir where
  entries : List (ℕ × Pte)

namespace Pagedir

/-- `pagedir_create`: no user mappings. -/
def empty : Pagedir := ⟨[]⟩

/-- The entry of user page `v` (`lookup_page`, then `*pte`), zero when there is none. -/
def lookup (pd : Pagedir) (v : ℕ) : Pte :=
  match pd.entries.find? (·.1 = v) with
  | some e => e.2
  | none => Pte.empty

/-- Overwrite the entry of user page `v`. -/
def set (pd : Pagedir) (v : ℕ) (e : Pte) : Pagedir := ⟨(v, e) :: pd.entries⟩

/-- Change the entry of user page `v`. -/
def modify (pd : Pagedir) (v : ℕ) (f : Pte → Pte) : Pagedir := pd.set v (f (pd.lookup v))

@[simp] lemma lookup_empty (v : ℕ) : empty.lookup v = Pte.empty := rfl

@[simp] lemma lookup_set (pd : Pagedir) (v w : ℕ) (e : Pte) :
    (pd.set v e).lookup w = if w = v then e else pd.lookup w := by
  by_cases h : w = v
  · subst h
    simp [set, lookup]
  · simp [set, lookup, Ne.symm h, h]

@[simp] lemma lookup_modify (pd : Pagedir) (v w : ℕ) (f : Pte → Pte) :
    (pd.modify v f).lookup w = if w = v then f (pd.lookup v) else pd.lookup w := by
  simp [modify]

/-- The user pages with an entry, each once. -/
def keys (pd : Pagedir) : List ℕ := (pd.entries.map (·.1)).dedup

lemma mem_keys_of_lookup_ne {pd : Pagedir} {v : ℕ} (h : pd.lookup v ≠ Pte.empty) :
    v ∈ pd.keys := by
  simp only [keys, List.mem_dedup, List.mem_map]
  simp only [lookup] at h
  split at h
  · rename_i e he
    exact ⟨e, List.mem_of_find?_eq_some he, by simpa using List.find?_some he⟩
  · exact absurd rfl h

/-- The frames the present entries map: what `pagedir_destroy` gives back to the user pool. -/
def presentPages (pd : Pagedir) : List ℕ :=
  pd.keys.filterMap fun v => if (pd.lookup v).present then some (pd.lookup v).kpage else none

lemma mem_presentPages {pd : Pagedir} {k : ℕ} :
    k ∈ pd.presentPages ↔ ∃ v, (pd.lookup v).present ∧ (pd.lookup v).kpage = k := by
  simp only [presentPages, List.mem_filterMap, Option.ite_none_right_eq_some,
    Option.some.injEq]
  refine ⟨fun ⟨v, _, hp, hk⟩ => ⟨v, hp, hk⟩, fun ⟨v, hp, hk⟩ => ⟨v, ?_, hp, hk⟩⟩
  refine mem_keys_of_lookup_ne fun h => ?_
  rw [h] at hp
  exact Bool.false_ne_true hp

end Pagedir

/-- The contents of a file (its inode): length, bytes, and `deny_write_cnt`. -/
structure FileData where
  length : ℕ
  bytes : ℕ → UInt8
  denyWriteCnt : ℕ

/-- An entry of a supplemental page table (`enum special_page` and its four structs). `swap`
keeps the entry it replaced at eviction (`evicted_page`), to be put back at swap-in. -/
inductive SpecialPage where
  | exec (elfFile offset zeroAfter : ℕ) (writable : Bool)
  | file (sourceFile offset zeroAfter : ℕ)
  | swap (slot : ℕ) (dirty : Bool) (evictedPage : Option SpecialPage)
  | zero

/-- A supplemental page table (`sup_pagetable`, a hash table keyed by virtual page), as the
list of its entries. -/
structure Spt where
  entries : List (ℕ × SpecialPage)

namespace Spt

/-- `init_supplemental_pagetable`: no entries. -/
def empty : Spt := ⟨[]⟩

/-- `hash_find` by virtual page (`find_lazy_page`). -/
def find (t : Spt) (v : ℕ) : Option SpecialPage := (t.entries.find? (·.1 = v)).map (·.2)

/-- `hash_insert`: a page that already has an entry keeps it. -/
def insert (t : Spt) (v : ℕ) (e : SpecialPage) : Spt :=
  if (t.find v).isSome then t else ⟨(v, e) :: t.entries⟩

/-- `hash_delete` of the entry of page `v`. -/
def delete (t : Spt) (v : ℕ) : Spt := ⟨t.entries.filter (·.1 ≠ v)⟩

@[simp] lemma find_empty (v : ℕ) : empty.find v = none := rfl

@[simp] lemma find_delete (t : Spt) (v w : ℕ) :
    (t.delete v).find w = if w = v then none else t.find w := by
  by_cases h : w = v
  · subst h
    simp [delete, find, List.find?_filter]
  · simp only [delete, find, h, if_false]
    congr 1
    rw [List.find?_filter]
    congr 1
    funext x
    by_cases hx : x.1 = w
    · simp [hx, h]
    · simp [hx]

@[simp] lemma find_insert (t : Spt) (v w : ℕ) (e : SpecialPage) :
    (t.insert v e).find w = if w = v ∧ t.find v = none then some e else t.find w := by
  unfold insert
  by_cases hv : (t.find v).isSome
  · simp only [hv, if_true]
    rw [if_neg]
    rintro ⟨-, h⟩
    simp [h] at hv
  · simp only [hv, Bool.false_eq_true, if_false]
    have hn : t.find v = none := by simpa using hv
    by_cases h : w = v
    · subst h
      simp only [find] at hn ⊢
      simp [hn]
    · simp [find, Ne.symm h, h]

end Spt

/-- `struct frame`: `id` is the record's identity, which the clock hand points at. -/
structure Frame where
  id : ℕ
  t : Tid
  userPage : ℕ
  /-- `PTE`: the owner and user page of the entry `pagedir_set_page` installed, `none` before. -/
  pte : Option (Tid × ℕ)
  virtualAddress : ℕ
  loaded : Bool
  deriving DecidableEq, Repr

/-- Where a thread is between taking a frame and installing it: inside `page_fault` after
`ft_get_page` (with the faulting page and its supplemental entry), after filling the frame,
or inside `setup_stack` after `ft_get_page`. -/
inductive Pending where
  | idle
  | fault (page : ℕ) (gen : Option SpecialPage) (frameId : ℕ)
  | faultLoaded (page : ℕ) (writable dirty : Bool) (frameId : ℕ)
  | stack (frameId : ℕ)

/-- The frame a pending thread holds. -/
def Pending.frameId? : Pending → Option ℕ
  | .idle => none
  | .fault _ _ f => some f
  | .faultLoaded _ _ _ f => some f
  | .stack f => some f

/-- What virtual memory reads of a process's `struct thread`: its page directory (`none` once
destroyed), its supplemental page table, whether `thread_exit` has begun, and its place in a
page fault. -/
structure Proc where
  pagedir : Option Pagedir
  spt : Spt
  dying : Bool
  pending : Pending

/-- The state of virtual memory. -/
structure VmState where
  /-- `frame_list`, front to back. -/
  frameList : List Frame
  /-- The clock hand, a position in `frame_list`. -/
  hand : Cursor ℕ
  /-- The next fresh identity for a `struct frame`. -/
  nextFrameId : ℕ
  /-- Pages in the user pool. -/
  poolSize : ℕ
  /-- The user pool's `used_map`. -/
  used : Finset ℕ
  /-- The contents of the user-pool pages. -/
  mem : ℕ → Page
  procs : Tid → Option Proc
  swap : SwapState
  files : ℕ → FileData

namespace VmState

/-- The identities of the frames in `frame_list`, in order. -/
def frameIds (s : VmState) : List ℕ := s.frameList.map (·.id)

/-- `palloc_get_page (PAL_USER)`: the lowest free page of the user pool. -/
def pallocGetPage (s : VmState) : Option ℕ := (List.range s.poolSize).find? (· ∉ s.used)

/-- Mark a pool page used, zero-filled when `PAL_ZERO` is asked for. -/
def takePage (s : VmState) (p : ℕ) (zero : Bool) : VmState :=
  { s with used := insert p s.used,
           mem := if zero then Function.update s.mem p Page.zero else s.mem }

/-- `palloc_free_page`: the page must be in use (`ASSERT (bitmap_all ...)`); it is filled with
`0xcc` and returned to the pool. -/
def pallocFreePage (s : VmState) (p : ℕ) : Option VmState :=
  if p ∈ s.used then
    some { s with used := s.used.erase p, mem := Function.update s.mem p fun _ => 0xcc }
  else none

/-- Change process `t`'s record, if it exists. -/
def updProc (s : VmState) (t : Tid) (f : Proc → Proc) : VmState :=
  { s with procs := Function.update s.procs t ((s.procs t).map f) }

@[simp] lemma updProc_procs_self (s : VmState) (t : Tid) (f : Proc → Proc) :
    (s.updProc t f).procs t = (s.procs t).map f := by
  simp [updProc]

@[simp] lemma updProc_mem (s : VmState) (t : Tid) (f : Proc → Proc) :
    (s.updProc t f).mem = s.mem := rfl

@[simp] lemma updProc_used (s : VmState) (t : Tid) (f : Proc → Proc) :
    (s.updProc t f).used = s.used := rfl

/-- Change the entry of user page `v` in process `t`'s page directory; nothing happens when
the process has no page directory. -/
def modifyPte (s : VmState) (t : Tid) (v : ℕ) (f : Pte → Pte) : VmState :=
  s.updProc t fun p => { p with pagedir := p.pagedir.map fun pd => pd.modify v f }

/-- The entry of user page `v` in process `t`'s page directory. -/
def pte (s : VmState) (t : Tid) (v : ℕ) : Option Pte := do
  let p ← s.procs t
  let pd ← p.pagedir
  pure (pd.lookup v)

/-- `pagedir_clear_page`: clear `PTE_P`, keeping the other bits. -/
def pagedirClearPage (s : VmState) (t : Tid) (v : ℕ) : VmState :=
  s.modifyPte t v fun e => { e with present := false }

/-- `pagedir_set_accessed`. -/
def pagedirSetAccessed (s : VmState) (t : Tid) (v : ℕ) (b : Bool) : VmState :=
  s.modifyPte t v fun e => { e with accessed := b }

/-- `pagedir_set_dirty`. -/
def pagedirSetDirty (s : VmState) (t : Tid) (v : ℕ) (b : Bool) : VmState :=
  s.modifyPte t v fun e => { e with dirty := b }

/-- Change process `t`'s supplemental page table. -/
def modifySpt (s : VmState) (t : Tid) (f : Spt → Spt) : VmState :=
  s.updProc t fun p => { p with spt := f p.spt }

@[simp] lemma modifySpt_mem (s : VmState) (t : Tid) (f : Spt → Spt) :
    (s.modifySpt t f).mem = s.mem := rfl

/-- Change the frame with identity `id`. -/
def modifyFrame (s : VmState) (id : ℕ) (f : Frame → Frame) : VmState :=
  { s with frameList := s.frameList.map fun g => if g.id = id then f g else g }

/-- The frame the clock hand points at (`list_entry (hand, struct frame, ft_elem)`), `none`
when it points at a sentinel or at a frame no longer in the list. -/
def handFrame (s : VmState) : Option Frame :=
  match s.hand with
  | .elem id => s.frameList.find? (·.id = id)
  | _ => none

end VmState

/-- The first `n` bytes at offset `ofs` of a file, then zeros: a page loaded with
`file_read` of `n` bytes and `memset` of the rest. -/
def FileData.pageAt (fd : FileData) (ofs n : ℕ) : Page := fun i =>
  if i.val < n then fd.bytes (ofs + i.val) else 0

/-- The byte count `file_read` returns for `n` bytes at offset `ofs`: it stops at the end of
the file. -/
def FileData.readCount (fd : FileData) (ofs n : ℕ) : ℕ := min n (fd.length - ofs)

/-- `file_write_at` of the first `n` bytes of a page at offset `ofs`: nothing while writes are
denied, otherwise the bytes up to the end of the file (files do not grow). -/
def FileData.writeAt (fd : FileData) (page : Page) (ofs n : ℕ) : FileData :=
  if fd.denyWriteCnt = 0 then
    { fd with bytes := fun j =>
        if h : ofs ≤ j ∧ j < ofs + min n (fd.length - ofs) ∧ j - ofs < pgSize then
          page ⟨j - ofs, h.2.2⟩
        else fd.bytes j }
  else fd

end TinyOs
