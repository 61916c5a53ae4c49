import TinyOs.Userprog.Pagedir

/-!
The user half of a page directory is a partial map from user pages to kernel pages, and its
kernel half stays the copy of `base_page_dir` it was made as.

The invariant `PdInv` follows a page directory made by `pagedir_create` through the calls on
it, with a ghost map `tbl` from each user directory entry to the page table it points to: the
user half of the directory holds `pde_create` of those tables and zero elsewhere; the tables
are distinct kernel pages taken from the kernel pool, none of them the directory or a table of
the kernel's own mappings; and the pages still free are none of these. Each call writes the
entry of its own page and no other (`pdCall_refines`), so what the MMU maps each user page to
follows the partial map of the calls: a set that succeeded maps its page, a clear unmaps it,
and the rest change nothing.

* `BootOk`: the state `paging_init` leaves, with the kernel pool and the RAM size;
* `PdInv`, `pagedirCreate_inv`: the invariant and where it starts;
* `PdInv.storeSlot`, `PdInv.allocTable`: the two kinds of write a call makes;
* `PdInv.lookupPage_create`, `PdInv.setPage`, `PdInv.clearPage`, `PdInv.setFlag`,
  `PdInv.install`: one lemma per function;
* `PdCall.absStep`, `mappedAfter`, `MapsAs`: the partial map and the refinement relation;
* `pdCall_refines`, `pdRun_refines`: the step and run lemmas;
* `pagedir_partial_map`: all of it, from boot.
-/

namespace TinyOs

namespace X86

/-! ### The boot state and the invariant -/

/-- The pages the kernel's own mappings lie in: `base_page_dir` and the page tables its kernel
entries point to. -/
def KernelPage (m₀ : KMem) (p : ℕ) : Prop :=
  p = m₀.basePageDir ∨
    ∃ i, pdNo physBase ≤ i ∧ i < 1024 ∧ m₀.word (m₀.basePageDir + 4 * i) ≠ 0 ∧
      p = pdeGetPt (m₀.word (m₀.basePageDir + 4 * i))

/-- An address in one of those pages. -/
def InKernelTables (m₀ : KMem) (a : ℕ) : Prop :=
  ∃ p, KernelPage m₀ p ∧ p ≤ a ∧ a < p + pgSize

/-- What `paging_init` leaves, a directory that maps kernel addresses only, with a kernel pool
of pages none of which it took for its tables, and the RAM size `loader.S` reads, capped at
64 MB. -/
structure BootOk (m : KMem) : Prop where
  base_page : IsKPage m.basePageDir
  base_user : ∀ i < pdNo physBase, m.word (m.basePageDir + 4 * i) = 0
  free_nodup : m.free.Nodup
  free_page : ∀ p ∈ m.free, IsKPage p ∧ ¬KernelPage m p
  ram_le : m.ramPages ≤ 16384

/-- An address of the kernel's tables lies in no other page. -/
lemma BootOk.not_mem_page {m₀ : KMem} (hb : BootOk m₀) {a q : ℕ} (ha : InKernelTables m₀ a)
    (hq : pgOfs q = 0) (hqk : ¬KernelPage m₀ q) : ¬(q ≤ a ∧ a < q + pgSize) := by
  intro haq
  obtain ⟨p, hp, hap⟩ := ha
  have hpal : pgOfs p = 0 := by
    rcases hp with rfl | ⟨i, -, -, -, rfl⟩
    · exact hb.base_page.1
    · exact pdeGetPt_aligned _
  exact hqk (page_eq_of_mem hpal hq hap haq ▸ hp)

/-- The directory entry for the page table `t`, zero for none. -/
def pdeOf : Option ℕ → ℕ
  | none => 0
  | some t => pdeCreate t

/-- The entry of the page of `v`, read through the tables `tbl`. -/
def tblWord (m : KMem) (tbl : ℕ → Option ℕ) (v : ℕ) : ℕ :=
  match tbl (pdNo v) with
  | none => 0
  | some t => m.word (t + 4 * ptNo v)

lemma tblWord_congr {m : KMem} {tbl : ℕ → Option ℕ} {v w : ℕ}
    (h : pgRoundDown w = pgRoundDown v) : tblWord m tbl w = tblWord m tbl v := by
  obtain ⟨hd, ht⟩ := (pdNo_ptNo_eq_iff w v).mpr h
  rw [tblWord, tblWord, hd, ht]

/-- The invariant of a page directory `pd` that `pagedir_create` made from the boot state
`m₀`, with `tbl i` the page table of its user entry `i`. -/
structure PdInv (m₀ m : KMem) (pd : ℕ) (tbl : ℕ → Option ℕ) : Prop where
  base_eq : m.basePageDir = m₀.basePageDir
  ram_eq : m.ramPages = m₀.ramPages
  kernel_fixed : ∀ a, InKernelTables m₀ a → m.word a = m₀.word a
  pd_page : IsKPage pd
  pd_kernel : ¬KernelPage m₀ pd
  pd_free : pd ∉ m.free
  kernel_half : ∀ i, pdNo physBase ≤ i → i < 1024 →
    m.word (pd + 4 * i) = m₀.word (m₀.basePageDir + 4 * i)
  free_nodup : m.free.Nodup
  free_page : ∀ p ∈ m.free, IsKPage p ∧ ¬KernelPage m₀ p
  pde_eq : ∀ i < pdNo physBase, m.word (pd + 4 * i) = pdeOf (tbl i)
  table_page : ∀ i t, tbl i = some t → IsKPage t ∧ t ≠ pd ∧ t ∉ m.free ∧ ¬KernelPage m₀ t
  table_inj : ∀ i j t, tbl i = some t → tbl j = some t → i = j

/-- `pagedir_create` starts the invariant, with no page tables. -/
theorem pagedirCreate_inv {m₀ m : KMem} {pd : ℕ} (hb : BootOk m₀)
    (h : pagedirCreate m₀ = some (pd, m)) : PdInv m₀ m pd fun _ => none := by
  rw [pagedirCreate] at h
  cases hpal : m₀.pallocGetPage false with
  | none => simp [hpal] at h
  | some r =>
      obtain ⟨p, m'⟩ := r
      simp only [hpal, Option.some.injEq, Prod.mk.injEq] at h
      obtain ⟨rfl, rfl⟩ := h
      obtain ⟨hfree, hword, hbase, hram⟩ := KMem.pallocGetPage_eq_some hpal
      simp only [Bool.false_eq_true, ↓reduceIte] at hword
      have hp := hb.free_page p (by simp [hfree])
      have hnd := hb.free_nodup
      rw [hfree, List.nodup_cons] at hnd
      -- every word of the new directory is the word of `base_page_dir` at its place
      have hcopy : ∀ i < 1024, KMem.fillPage m'.word p
          (fun a => m'.word (m'.basePageDir + (a - p))) (p + 4 * i) =
            m₀.word (m₀.basePageDir + 4 * i) := by
        intro i hi
        rw [KMem.fillPage_of_mem _ (slot_mem_page i hi), hword, hbase, Nat.add_sub_cancel_left]
      refine ⟨hbase, hram, fun a ha => ?_, hp.1, hp.2, hnd.1, fun i _ h2 => hcopy i h2, hnd.2,
        fun q hq => hb.free_page q (by simp [hfree, hq]), fun i hi => ?_, by simp, by simp⟩
      · dsimp only
        rw [KMem.fillPage_of_not_mem _ (hb.not_mem_page ha hp.1.1 hp.2), hword]
      · dsimp only
        rw [hcopy i (by rw [pdNo_physBase] at hi; omega), hb.base_user i hi]
        rfl

section Inv

variable {m₀ m : KMem} {pd : ℕ} {tbl : ℕ → Option ℕ}

lemma PdInv.pd_ne_zero (hi : PdInv m₀ m pd tbl) : pd ≠ 0 := by
  have hb : physBase = 0xc0000000 := rfl
  have := hi.pd_page.2.1
  omega

/-- The directory's words lie outside every page but its own. -/
lemma PdInv.pd_not_mem (hi : PdInv m₀ m pd tbl) {q i : ℕ} (hq : pgOfs q = 0) (hqpd : q ≠ pd)
    (hi' : i < 1024) : ¬(q ≤ pd + 4 * i ∧ pd + 4 * i < q + pgSize) := fun hmem =>
  hqpd (page_eq_of_mem hq hi.pd_page.1 hmem (slot_mem_page i hi'))

lemma PdInv.pteSlot_eq (hi : PdInv m₀ m pd tbl) {v : ℕ} (hv : isUserVaddr v) :
    pteSlot m pd v = (tbl (pdNo v)).map (· + 4 * ptNo v) := by
  rw [pteSlot, hi.pde_eq _ (pdNo_lt_of_user hv)]
  cases ht : tbl (pdNo v) with
  | none => rfl
  | some t =>
      rw [pdeOf, if_neg (pdeCreate_ne_zero t), pdeGetPt_pdeCreate (hi.table_page _ _ ht).1]
      rfl

/-- The entry of a user page is the word its table holds for it. -/
lemma PdInv.pteWord_eq (hi : PdInv m₀ m pd tbl) {v : ℕ} (hv : isUserVaddr v) :
    pteWord m pd v = tblWord m tbl v := by
  rw [pteWord, hi.pteSlot_eq hv, tblWord]
  cases tbl (pdNo v) <;> rfl

/-- The entries of two pages are one word exactly when the pages are one. -/
lemma PdInv.slot_eq_iff (hi : PdInv m₀ m pd tbl) {v w t t' : ℕ} (hv : tbl (pdNo v) = some t)
    (hw : tbl (pdNo w) = some t') :
    t' + 4 * ptNo w = t + 4 * ptNo v ↔ pgRoundDown w = pgRoundDown v := by
  rw [← pdNo_ptNo_eq_iff]
  constructor
  · intro heq
    -- the two entries lie in one page, so their tables are one
    have htt : t' = t := by
      refine page_eq_of_mem (hi.table_page _ _ hw).1.1 (hi.table_page _ _ hv).1.1
        (slot_mem_page _ (ptNo_lt w)) ?_
      rw [heq]
      exact slot_mem_page _ (ptNo_lt v)
    subst htt
    exact ⟨hi.table_inj _ _ _ hw hv, by omega⟩
  · rintro ⟨hd, hp⟩
    rw [hd, hv, Option.some.injEq] at hw
    rw [hw, hp]

/-- Writing the entry of a user page that has a table keeps the invariant and no other page's
entry. -/
lemma PdInv.storeSlot (hb : BootOk m₀) (hi : PdInv m₀ m pd tbl) {v t : ℕ}
    (ht : tbl (pdNo v) = some t) (e : ℕ) :
    PdInv m₀ (m.store (t + 4 * ptNo v) e) pd tbl ∧
      ∀ w, tblWord (m.store (t + 4 * ptNo v) e) tbl w =
        if pgRoundDown w = pgRoundDown v then e else tblWord m tbl w := by
  obtain ⟨htp, htpd, -, htk⟩ := hi.table_page _ _ ht
  -- the write lands in the table `t` and nowhere else
  have hout : ∀ a, ¬(t ≤ a ∧ a < t + pgSize) → (m.store (t + 4 * ptNo v) e).word a = m.word a := by
    intro a ha
    rw [KMem.store_word, if_neg]
    rintro rfl
    exact ha (slot_mem_page _ (ptNo_lt v))
  refine ⟨⟨hi.base_eq, hi.ram_eq, fun a ha => ?_, hi.pd_page, hi.pd_kernel, hi.pd_free,
    fun i h1 h2 => ?_, hi.free_nodup, hi.free_page, fun i h1 => ?_, hi.table_page,
    hi.table_inj⟩, fun w => ?_⟩
  · rw [hout a (hb.not_mem_page ha htp.1 htk), hi.kernel_fixed a ha]
  · rw [hout _ (hi.pd_not_mem htp.1 htpd h2), hi.kernel_half i h1 h2]
  · have h2 : i < 1024 := by
      rw [pdNo_physBase] at h1
      omega
    rw [hout _ (hi.pd_not_mem htp.1 htpd h2), hi.pde_eq i h1]
  · rw [tblWord, tblWord]
    cases hw : tbl (pdNo w) with
    | none =>
        -- without a table, `w` is not in the page of `v`
        have hne : pgRoundDown w ≠ pgRoundDown v := by
          intro h
          obtain ⟨hd, -⟩ := (pdNo_ptNo_eq_iff w v).mpr h
          rw [hd, ht] at hw
          cases hw
        rw [if_neg hne]
    | some t' =>
        dsimp only
        simp only [KMem.store_word, hi.slot_eq_iff ht hw]

/-- Taking the next free page as the table of the user directory entry `i`, zeroed and entered
in the directory, keeps the invariant, with `i` mapped to the new table, and the entry of every
user page. -/
lemma PdInv.allocTable (hb : BootOk m₀) (hi : PdInv m₀ m pd tbl) {i p : ℕ} {m' : KMem}
    (hpal : m.pallocGetPage true = some (p, m')) (hi' : i < pdNo physBase) (hnone : tbl i = none) :
    PdInv m₀ (m'.store (pd + 4 * i) (pdeCreate p)) pd (Function.update tbl i (some p)) ∧
      ∀ w, tblWord (m'.store (pd + 4 * i) (pdeCreate p)) (Function.update tbl i (some p)) w =
        tblWord m tbl w := by
  obtain ⟨hfree, hword, hbase, hram⟩ := KMem.pallocGetPage_eq_some hpal
  simp only [↓reduceIte] at hword
  have hi1024 : i < 1024 := by
    rw [pdNo_physBase] at hi'
    omega
  obtain ⟨hp, hpk⟩ := hi.free_page p (by simp [hfree])
  have hpd : p ≠ pd := fun h => hi.pd_free (by simp [hfree, h])
  have hnd := hi.free_nodup
  rw [hfree, List.nodup_cons] at hnd
  -- a table in use is not the new page
  have htp : ∀ j t, tbl j = some t → t ≠ p := fun j t ht h =>
    (hi.table_page j t ht).2.2.1 (by simp [hfree, h])
  -- outside the new table and the new directory entry, nothing changes
  have hout : ∀ a, a ≠ pd + 4 * i → ¬(p ≤ a ∧ a < p + pgSize) →
      (m'.store (pd + 4 * i) (pdeCreate p)).word a = m.word a := by
    intro a ha hap
    rw [KMem.store_word, if_neg ha, hword, KMem.fillPage_of_not_mem _ hap]
  have hpdi : ∀ j < 1024, ¬(p ≤ pd + 4 * j ∧ pd + 4 * j < p + pgSize) :=
    fun j hj => hi.pd_not_mem hp.1 hpd hj
  refine ⟨⟨hi.base_eq.symm ▸ hbase, hi.ram_eq.symm ▸ hram, fun a ha => ?_, hi.pd_page,
    hi.pd_kernel, fun h => hi.pd_free (by rw [hfree]; exact List.mem_cons_of_mem p h),
    fun j h1 h2 => ?_, hnd.2,
    fun q hq => hi.free_page q (by rw [hfree]; exact List.mem_cons_of_mem p hq), fun j h1 => ?_,
    fun j t ht => ?_,
    fun j k t hj hk => ?_⟩, fun w => ?_⟩
  · -- a word of the kernel's tables lies neither in the directory nor in the new table
    have hne : a ≠ pd + 4 * i := by
      rintro rfl
      exact hb.not_mem_page ha hi.pd_page.1 hi.pd_kernel (slot_mem_page i hi1024)
    rw [hout a hne (hb.not_mem_page ha hp.1 hpk), hi.kernel_fixed a ha]
  · have hne : pd + 4 * j ≠ pd + 4 * i := by omega
    rw [hout _ hne (hpdi j h2), hi.kernel_half j h1 h2]
  · by_cases hji : j = i
    · subst hji
      rw [KMem.store_word, if_pos rfl, Function.update_self]
      rfl
    · have h2 : j < 1024 := by
        rw [pdNo_physBase] at h1
        omega
      rw [hout _ (by omega) (hpdi j h2), hi.pde_eq j h1, Function.update_of_ne hji]
  · by_cases hji : j = i
    · subst hji
      rw [Function.update_self, Option.some.injEq] at ht
      subst ht
      exact ⟨hp, hpd, hnd.1, hpk⟩
    · rw [Function.update_of_ne hji] at ht
      obtain ⟨htp', htpd, htf, htk⟩ := hi.table_page j t ht
      exact ⟨htp', htpd, fun h => htf (by rw [hfree]; exact List.mem_cons_of_mem p h), htk⟩
  · by_cases hji : j = i <;> by_cases hki : k = i
    · rw [hji, hki]
    · rw [hji, Function.update_self, Option.some.injEq] at hj
      rw [Function.update_of_ne hki] at hk
      exact absurd hj.symm (htp k t hk)
    · rw [hki, Function.update_self, Option.some.injEq] at hk
      rw [Function.update_of_ne hji] at hj
      exact absurd hk.symm (htp j t hj)
    · rw [Function.update_of_ne hji] at hj
      rw [Function.update_of_ne hki] at hk
      exact hi.table_inj j k t hj hk
  · rw [tblWord, tblWord]
    by_cases hwi : pdNo w = i
    · -- the page's table is the new one, zero throughout, and it had none
      rw [hwi, Function.update_self, hnone]
      dsimp only
      have hslot := slot_mem_page (t := p) _ (ptNo_lt w)
      have hne : p + 4 * ptNo w ≠ pd + 4 * i := fun h => hpdi i hi1024 (h ▸ hslot)
      rw [KMem.store_word, if_neg hne, hword, KMem.fillPage_of_mem _ hslot]
    · rw [Function.update_of_ne hwi]
      cases ht : tbl (pdNo w) with
      | none => rfl
      | some t =>
          dsimp only
          obtain ⟨htp', htpd, -, -⟩ := hi.table_page _ _ ht
          have hslot := slot_mem_page (t := t) _ (ptNo_lt w)
          have hne : t + 4 * ptNo w ≠ pd + 4 * i := fun h =>
            htpd (page_eq_of_mem htp'.1 hi.pd_page.1 hslot (h ▸ slot_mem_page i hi1024))
          exact hout _ hne fun hmem => htp _ _ ht (page_eq_of_mem htp'.1 hp.1 hslot hmem)

/-! ### One lemma per function -/

/-- The `ASSERT`s of `pagedir_set_page` on `kpage` make it a kernel page below 4 GB. -/
lemma isKPage_of_asserts {k r : ℕ} (hk : pgOfs k = 0) (hku : isUserVaddr k = false)
    (hram : vtop k >>> ptShift < r) (hr : r ≤ 16384) : IsKPage k := by
  have hb : physBase = 0xc0000000 := rfl
  simp only [isUserVaddr, decide_eq_false_iff_not, not_lt] at hku
  simp only [Nat.shiftRight_eq_div_pow, vtop, ptShift, Nat.reducePow] at hram
  exact ⟨hk, hku, by omega⟩

/-- `lookup_page` with `create` on a user address: the entry in the table of its directory
entry, made if missing, or `NULL`, with nothing changed, when the pool is used up; the invariant
holds after it and no user page's entry has changed. -/
lemma PdInv.lookupPage_create (hb : BootOk m₀) (hi : PdInv m₀ m pd tbl) {v : ℕ}
    (hv : isUserVaddr v) :
    ∃ m' tbl' slot, lookupPage m pd v true = some (m', slot) ∧ PdInv m₀ m' pd tbl' ∧
      (∀ w, tblWord m' tbl' w = tblWord m tbl w) ∧ (slot = none → m' = m ∧ tbl' = tbl) ∧
      ∀ a, slot = some a → ∃ t, tbl' (pdNo v) = some t ∧ a = t + 4 * ptNo v := by
  have hpdv := pdNo_lt_of_user hv
  rw [lookupPage, if_neg (by simp [hi.pd_ne_zero, hv]), hi.pde_eq _ hpdv]
  cases ht : tbl (pdNo v) with
  | none =>
      rw [pdeOf, if_pos rfl, if_pos rfl]
      cases hpal : m.pallocGetPage true with
      | none => exact ⟨m, tbl, none, rfl, hi, fun _ => rfl, fun _ => ⟨rfl, rfl⟩, by simp⟩
      | some r =>
          -- a new table, taken from the pool
          obtain ⟨p, m'⟩ := r
          obtain ⟨hinv, hwords⟩ := hi.allocTable hb hpal hpdv ht
          have hp := (hinv.table_page (pdNo v) p (Function.update_self ..)).1
          refine ⟨_, _, _, rfl, hinv, hwords, by simp, fun a ha => ⟨p, Function.update_self .., ?_⟩⟩
          rw [Option.some.injEq] at ha
          rw [← ha, KMem.store_word, if_pos rfl, pdeGetPt_pdeCreate hp]
  | some t =>
      rw [pdeOf, if_neg (pdeCreate_ne_zero t)]
      refine ⟨m, tbl, _, rfl, hi, fun _ => rfl, by simp, fun a ha => ⟨t, ht, ?_⟩⟩
      rw [Option.some.injEq] at ha
      rw [← ha, pdeGetPt_pdeCreate (hi.table_page _ _ ht).1]

/-- `pagedir_set_page` maps a user page to the frame's kernel page when a table was found or
made for it, and changes nothing otherwise; no other page's entry changes. -/
lemma PdInv.setPage (hb : BootOk m₀) (hi : PdInv m₀ m pd tbl) {u : ℕ} {fr fr' : FrameRef}
    {w ok : Bool} {m' : KMem} (h : pagedirSetPage m pd u fr w = some (m', fr', ok)) :
    ∃ tbl', PdInv m₀ m' pd tbl' ∧
      (∀ x, pgRoundDown x ≠ pgRoundDown u → tblWord m' tbl' x = tblWord m tbl x) ∧
      pgOfs u = 0 ∧
      mapping (tblWord m' tbl' u) = if ok then some fr.userPage else mapping (tblWord m tbl u) := by
  rw [pagedirSetPage] at h
  split_ifs at h with hc
  obtain ⟨hofs, hkofs, hu, hku, hram, -⟩ := hc
  have hk : IsKPage fr.userPage := isKPage_of_asserts hkofs hku hram (hi.ram_eq ▸ hb.ram_le)
  obtain ⟨m1, tbl1, slot, hl, hi1, hw1, hnone, hsome⟩ := hi.lookupPage_create hb hu
  rw [hl] at h
  cases slot with
  | none =>
      -- no table and none to be had: `pagedir_set_page` returns false
      obtain ⟨rfl, rfl⟩ := hnone rfl
      simp only [Option.some.injEq, Prod.mk.injEq] at h
      obtain ⟨rfl, -, rfl⟩ := h
      exact ⟨_, hi, fun _ _ => rfl, hofs, by simp⟩
  | some a =>
      obtain ⟨t, ht, rfl⟩ := hsome a rfl
      dsimp only at h
      split_ifs at h with hp
      simp only [Option.some.injEq, Prod.mk.injEq] at h
      obtain ⟨rfl, -, rfl⟩ := h
      obtain ⟨hi2, hw2⟩ := hi1.storeSlot hb ht (pteCreateUser fr.userPage w)
      refine ⟨tbl1, hi2, fun x hx => ?_, hofs, ?_⟩
      · rw [hw2, if_neg hx, hw1]
      · rw [hw2, if_pos rfl, if_pos rfl, mapping_pteCreateUser hk]

/-- `pagedir_clear_page` unmaps a user page and changes no other page's entry. -/
lemma PdInv.clearPage (hb : BootOk m₀) (hi : PdInv m₀ m pd tbl) {u : ℕ} {m' : KMem}
    (h : pagedirClearPage m pd u = some m') :
    PdInv m₀ m' pd tbl ∧
      (∀ x, pgRoundDown x ≠ pgRoundDown u → tblWord m' tbl x = tblWord m tbl x) ∧
      pgOfs u = 0 ∧ mapping (tblWord m' tbl u) = none := by
  rw [pagedirClearPage] at h
  split_ifs at h with hc
  · obtain ⟨hofs, hu⟩ := hc
    rw [lookupPage_false hi.pd_ne_zero, hi.pteSlot_eq hu] at h
    cases ht : tbl (pdNo u) with
    | none =>
        simp only [ht, Option.map_none, Option.some.injEq] at h
        subst h
        refine ⟨hi, fun _ _ => rfl, hofs, ?_⟩
        simp only [tblWord, ht, mapping_zero]
    | some t =>
        simp only [ht, Option.map_some, Option.some.injEq] at h
        subst h
        split_ifs with hp
        · obtain ⟨hi2, hw2⟩ := hi.storeSlot hb ht (m.word (t + 4 * ptNo u) &&& not32 pteP)
          refine ⟨hi2, fun x hx => by rw [hw2, if_neg hx], hofs, ?_⟩
          rw [hw2, if_pos rfl, mapping_clear]
        · -- an entry that is not present is left as it is, and maps nothing
          refine ⟨hi, fun _ _ => rfl, hofs, ?_⟩
          simp only [tblWord, ht, mapping, if_neg hp]

/-- `pagedir_set_dirty` and `pagedir_set_accessed` on a user page change what no page maps to,
and no other page's entry. -/
lemma PdInv.setFlag (hb : BootOk m₀) (hi : PdInv m₀ m pd tbl) {flag : ℕ} (hf : IsFlag flag)
    {v : ℕ} (hv : isUserVaddr v) {b : Bool} {m' : KMem}
    (h : pagedirSetFlag flag m pd v b = some m') :
    PdInv m₀ m' pd tbl ∧
      (∀ x, pgRoundDown x ≠ pgRoundDown v → tblWord m' tbl x = tblWord m tbl x) ∧
      mapping (tblWord m' tbl v) = mapping (tblWord m tbl v) := by
  rw [pagedirSetFlag, lookupPage_false hi.pd_ne_zero, hi.pteSlot_eq hv] at h
  cases ht : tbl (pdNo v) with
  | none =>
      simp only [ht, Option.map_none, Option.some.injEq] at h
      subst h
      exact ⟨hi, fun _ _ => rfl, rfl⟩
  | some t =>
      simp only [ht, Option.map_some, Option.some.injEq] at h
      subst h
      obtain ⟨hi2, hw2⟩ := hi.storeSlot hb ht
        (if b then m.word (t + 4 * ptNo v) ||| flag else m.word (t + 4 * ptNo v) &&& not32 flag)
      refine ⟨hi2, fun x hx => by rw [hw2, if_neg hx], ?_⟩
      rw [hw2, if_pos rfl, mapping_setFlag hf]
      simp only [tblWord, ht]

/-- `install_page` on a user page: when it returns true the page maps to the frame's kernel
page; otherwise no mapping changes. No other page's entry changes. -/
lemma PdInv.install (hb : BootOk m₀) (hi : PdInv m₀ m pd tbl) {u : ℕ} (hu : isUserVaddr u)
    {fr fr' : FrameRef} {w ok : Bool} {m' : KMem}
    (h : installPage m pd u fr w = some (m', fr', ok)) :
    ∃ tbl', PdInv m₀ m' pd tbl' ∧
      (∀ x, pgRoundDown x ≠ pgRoundDown u → tblWord m' tbl' x = tblWord m tbl x) ∧
      (ok = true → pgOfs u = 0) ∧
      mapping (tblWord m' tbl' u) = if ok then some fr.userPage else mapping (tblWord m tbl u) := by
  rw [installPage, pagedirGetPage_eq hi.pd_ne_zero hu, hi.pteWord_eq hu] at h
  cases hmap : mapping (tblWord m tbl u) with
  | some k =>
      -- the page is mapped already: `install_page` returns false
      simp only [hmap, Option.map_some, Option.some.injEq, Prod.mk.injEq] at h
      obtain ⟨rfl, -, rfl⟩ := h
      exact ⟨tbl, hi, fun _ _ => rfl, by simp, by simp [hmap]⟩
  | none =>
      simp only [hmap, Option.map_none] at h
      obtain ⟨tbl', hi', hframe, hofs, hm⟩ := hi.setPage hb h
      exact ⟨tbl', hi', hframe, fun _ => hofs, hm.trans (by rw [hmap])⟩

end Inv

/-! ### The partial map -/

/-- What a call does to the map from user pages to the kernel pages they map to, given what it
returned: a set that succeeded maps its page to the frame's kernel page, a clear unmaps its
page, and a flag changes nothing. -/
def PdCall.absStep (f : ℕ → Option ℕ) : PdCall → Bool → ℕ → Option ℕ
  | .setPage u fr _, ok | .installPage u fr _, ok =>
      if ok then Function.update f u (some fr.userPage) else f
  | .clearPage u, _ => Function.update f u none
  | .setDirty _ _, _ | .setAccessed _ _, _ => f

/-- The map after calls, each with what it returned, from no mappings: each page maps to the
kernel page the last successful set of it gave, unless a clear of it came after. -/
def mappedAfter (h : List (PdCall × Bool)) : ℕ → Option ℕ :=
  h.foldl (fun f c => c.1.absStep f c.2) fun _ => none

/-- The refinement relation: every user page maps as `f` says its page does. -/
def MapsAs (m : KMem) (tbl f : ℕ → Option ℕ) : Prop :=
  ∀ v, isUserVaddr v → mapping (tblWord m tbl v) = f (pgRoundDown v)

lemma pgRoundDown_of_aligned {u : ℕ} (h : pgOfs u = 0) : pgRoundDown u = u := by
  rw [pgRoundDown, h, Nat.sub_zero]

section Refine

variable {m m' : KMem} {tbl tbl' f : ℕ → Option ℕ} {u : ℕ}

/-- A call that changes the mapping of the page at `u` alone moves the map to `f` updated
there. -/
lemma MapsAs.update (hf : MapsAs m tbl f) (hu : pgOfs u = 0)
    (hframe : ∀ x, pgRoundDown x ≠ pgRoundDown u → tblWord m' tbl' x = tblWord m tbl x)
    {y : Option ℕ} (hy : mapping (tblWord m' tbl' u) = y) :
    MapsAs m' tbl' (Function.update f u y) := by
  intro v hv
  by_cases hvu : pgRoundDown v = pgRoundDown u
  · rw [tblWord_congr hvu, hy, hvu, pgRoundDown_of_aligned hu, Function.update_self]
  · have hne : pgRoundDown v ≠ u := by rwa [pgRoundDown_of_aligned hu] at hvu
    rw [hframe v hvu, hf v hv, Function.update_of_ne hne]

/-- A call that changes no mapping keeps the map. -/
lemma MapsAs.keep (hf : MapsAs m tbl f)
    (hframe : ∀ x, pgRoundDown x ≠ pgRoundDown u → tblWord m' tbl' x = tblWord m tbl x)
    (hy : mapping (tblWord m' tbl' u) = mapping (tblWord m tbl u)) : MapsAs m' tbl' f := by
  intro v hv
  by_cases hvu : pgRoundDown v = pgRoundDown u
  · rw [tblWord_congr hvu, hy, ← tblWord_congr hvu, hf v hv]
  · rw [hframe v hvu, hf v hv]

/-- A set that returned `ok`: the map moves as `absStep` says of a set. -/
lemma MapsAs.set (hf : MapsAs m tbl f) {k : ℕ} {ok : Bool} (hu : ok = true → pgOfs u = 0)
    (hframe : ∀ x, pgRoundDown x ≠ pgRoundDown u → tblWord m' tbl' x = tblWord m tbl x)
    (hy : mapping (tblWord m' tbl' u) = if ok then some k else mapping (tblWord m tbl u)) :
    MapsAs m' tbl' (if ok then Function.update f u (some k) else f) := by
  cases ok
  · exact hf.keep hframe hy
  · exact hf.update (hu rfl) hframe hy

end Refine

section Run

variable {m₀ m : KMem} {pd : ℕ} {tbl f : ℕ → Option ℕ}

/-- One call on a user page: the invariant holds after it, the directory maps as the partial
map moved by the call says, and no other page's entry has changed. -/
theorem pdCall_refines (hb : BootOk m₀) (hi : PdInv m₀ m pd tbl) (hf : MapsAs m tbl f)
    {c : PdCall} (hc : isUserVaddr c.page) {m' : KMem} {ok : Bool}
    (h : pdCall m pd c = some (m', ok)) :
    ∃ tbl', PdInv m₀ m' pd tbl' ∧ MapsAs m' tbl' (c.absStep f ok) ∧
      ∀ x, pgRoundDown x ≠ pgRoundDown c.page → tblWord m' tbl' x = tblWord m tbl x := by
  cases c with
  | setPage u fr w =>
      obtain ⟨⟨m1, fr1, ok1⟩, hs, he⟩ := Option.map_eq_some_iff.mp h
      simp only [Prod.mk.injEq] at he
      obtain ⟨rfl, rfl⟩ := he
      obtain ⟨tbl', hi', hframe, hofs, hmap⟩ := hi.setPage hb hs
      exact ⟨tbl', hi', hf.set (fun _ => hofs) hframe hmap, hframe⟩
  | installPage u fr w =>
      obtain ⟨⟨m1, fr1, ok1⟩, hs, he⟩ := Option.map_eq_some_iff.mp h
      simp only [Prod.mk.injEq] at he
      obtain ⟨rfl, rfl⟩ := he
      obtain ⟨tbl', hi', hframe, hofs, hmap⟩ := hi.install hb hc hs
      exact ⟨tbl', hi', hf.set hofs hframe hmap, hframe⟩
  | clearPage u =>
      obtain ⟨m1, hs, he⟩ := Option.map_eq_some_iff.mp h
      simp only [Prod.mk.injEq] at he
      obtain ⟨rfl, rfl⟩ := he
      obtain ⟨hi', hframe, hofs, hmap⟩ := hi.clearPage hb hs
      exact ⟨tbl, hi', hf.update hofs hframe hmap, hframe⟩
  | setDirty v b =>
      obtain ⟨m1, hs, he⟩ := Option.map_eq_some_iff.mp h
      simp only [Prod.mk.injEq] at he
      obtain ⟨rfl, rfl⟩ := he
      obtain ⟨hi', hframe, hmap⟩ := hi.setFlag hb isFlag_pteD hc hs
      exact ⟨tbl, hi', hf.keep hframe hmap, hframe⟩
  | setAccessed v b =>
      obtain ⟨m1, hs, he⟩ := Option.map_eq_some_iff.mp h
      simp only [Prod.mk.injEq] at he
      obtain ⟨rfl, rfl⟩ := he
      obtain ⟨hi', hframe, hmap⟩ := hi.setFlag hb isFlag_pteA hc hs
      exact ⟨tbl, hi', hf.keep hframe hmap, hframe⟩

/-- A run of calls on user pages keeps the invariant and moves the map call by call. -/
theorem pdRun_refines (hb : BootOk m₀) {cs : List PdCall} {m' : KMem} {oks : List Bool}
    (hi : PdInv m₀ m pd tbl) (hf : MapsAs m tbl f) (hu : ∀ c ∈ cs, isUserVaddr c.page)
    (h : pdRun m pd cs = some (m', oks)) :
    ∃ tbl', PdInv m₀ m' pd tbl' ∧
      MapsAs m' tbl' ((cs.zip oks).foldl (fun g c => c.1.absStep g c.2) f) := by
  induction cs generalizing m tbl f oks with
  | nil =>
      rw [pdRun, Option.some.injEq, Prod.mk.injEq] at h
      obtain ⟨rfl, rfl⟩ := h
      exact ⟨tbl, hi, hf⟩
  | cons c cs ih =>
      rw [pdRun] at h
      cases hc : pdCall m pd c with
      | none => simp [hc] at h
      | some r =>
          obtain ⟨m1, ok⟩ := r
          simp only [hc] at h
          obtain ⟨⟨m2, oks'⟩, hrest, he⟩ := Option.map_eq_some_iff.mp h
          simp only [Prod.mk.injEq] at he
          obtain ⟨rfl, rfl⟩ := he
          obtain ⟨tbl1, hi1, hf1, -⟩ := pdCall_refines hb hi hf (hu c List.mem_cons_self) hc
          rw [List.zip_cons_cons, List.foldl_cons]
          exact ih hi1 hf1 (fun c' hc' => hu c' (List.mem_cons_of_mem c hc')) hrest

end Run

/-- A page directory that `pagedir_create` made from a boot state, after calls on user pages:
`pagedir_get_page` translates each user address through the kernel page the last successful
set of its page gave, unless a clear of it came after, and is `NULL` otherwise; a further call
on a user page changes no other user page's entry; the kernel half of the directory is still
that of `base_page_dir`; and no word of the kernel's own tables has changed. -/
theorem pagedir_partial_map {m₀ m₁ m : KMem} {pd : ℕ} {cs : List PdCall} {oks : List Bool}
    (hb : BootOk m₀) (hcreate : pagedirCreate m₀ = some (pd, m₁))
    (hu : ∀ c ∈ cs, isUserVaddr c.page) (hrun : pdRun m₁ pd cs = some (m, oks)) :
    (∀ u, isUserVaddr u →
      pagedirGetPage m pd u = some ((mappedAfter (cs.zip oks) (pgRoundDown u)).map (· + pgOfs u))) ∧
    (∀ c m' ok, isUserVaddr c.page → pdCall m pd c = some (m', ok) →
      ∀ w, isUserVaddr w → pgRoundDown w ≠ pgRoundDown c.page → pteWord m' pd w = pteWord m pd w) ∧
    (∀ i, pdNo physBase ≤ i → i < 1024 →
      m.word (pd + 4 * i) = m₀.word (m₀.basePageDir + 4 * i)) ∧
    ∀ a, InKernelTables m₀ a → m.word a = m₀.word a := by
  have hi₁ := pagedirCreate_inv hb hcreate
  have hf₁ : MapsAs m₁ (fun _ => none) fun _ => none := fun _ _ => mapping_zero
  obtain ⟨tbl, hi, hf⟩ := pdRun_refines hb hi₁ hf₁ hu hrun
  refine ⟨fun u hu' => ?_, fun c m' ok hc h w hw hne => ?_, hi.kernel_half, hi.kernel_fixed⟩
  · rw [pagedirGetPage_eq hi.pd_ne_zero hu', hi.pteWord_eq hu', hf u hu']
    rfl
  · obtain ⟨tbl', hi', -, hframe⟩ := pdCall_refines hb hi hf hc h
    rw [hi'.pteWord_eq hw, hi.pteWord_eq hw, hframe w hne]

/-- A boot state with a kernel pool of three pages and a `base_page_dir` with no entries. -/
def bootDemo : KMem := ⟨fun _ => 0, [0xc0101000, 0xc0102000, 0xc0103000], 0xc0100000, 1024⟩

/-- A user page installed and marked dirty, and the page after it cleared without ever having
been mapped. -/
def demoCalls : List PdCall :=
  [.installPage 0x8048000 ⟨0xc0200000, none⟩ true, .setDirty 0x8048000 true,
    .clearPage 0x8049000]

lemma kernelPage_bootDemo {p : ℕ} : KernelPage bootDemo p ↔ p = 0xc0100000 := by
  constructor
  · rintro (h | ⟨i, -, -, h, -⟩)
    · exact h
    · exact absurd rfl h
  · exact Or.inl

lemma bootDemo_ok : BootOk bootDemo where
  base_page := ⟨rfl, by decide, by decide⟩
  base_user _ _ := rfl
  free_nodup := by decide
  free_page p hp := by
    rw [kernelPage_bootDemo]
    simp only [bootDemo, List.mem_cons, List.not_mem_nil, or_false] at hp
    rcases hp with rfl | rfl | rfl <;> exact ⟨⟨rfl, by decide, by decide⟩, by decide⟩
  ram_le := by decide

/-- The installed page translates to its frame, offset kept, and the cleared one to `NULL`. -/
theorem pagedir_partial_map_demo :
    ∃ pd m₁ m oks, pagedirCreate bootDemo = some (pd, m₁) ∧
      pdRun m₁ pd demoCalls = some (m, oks) ∧
      pagedirGetPage m pd 0x8048123 = some (some 0xc0200123) ∧
      pagedirGetPage m pd 0x8049000 = some none := by
  refine ⟨_, _, _, _, rfl, rfl, ?_⟩
  have h := (@pagedir_partial_map bootDemo _ _ _ demoCalls _ bootDemo_ok rfl (by decide) rfl).1
  exact ⟨(h 0x8048123 (by decide)).trans rfl, (h 0x8049000 (by decide)).trans rfl⟩

end X86

end TinyOs
