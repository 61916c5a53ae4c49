import TinyOs.Vm.Machine

/-!
A process's memory as the process sees it, and what a page-in does to it. The abstraction reads
page `v` of process `t` from its frame when the page is present, and otherwise from what its
supplemental entry stands for (a file's bytes, a swap slot, zeros), with zeros for a page that
has neither, which is how a fresh stack page reads.

* `contentOf`, `absPage`: the abstraction;
* `fillFrame_mem`: a page-in writes the supplemental entry's content into the frame for every
  kind of entry, and writes nothing for a page with no entry (stack growth), whose frame keeps
  the bytes of whatever page last used it;
* `installFrame_absPage`: once installed, the page reads as its frame;
* `stack_growth_reads_stale_bytes`: a run where stack growth takes its frame from an eviction
  and the new stack page shows a byte the process wrote to another page.
-/

namespace TinyOs

namespace VmState

/-- The bytes a supplemental entry stands for: `zero_after` bytes of the file at `offset` then
zeros, the contents of the swap slot, or zeros. -/
def contentOf (s : VmState) : SpecialPage → Page
  | .exec src ofs za _ => (s.files src).pageAt ofs za
  | .file src ofs za => (s.files src).pageAt ofs za
  | .swap slot _ _ => readSlot s.swap.disk slot
  | .zero => Page.zero

/-- Page `v` of process `t` as the process reads it; `none` when `t` has no address space. -/
def absPage (s : VmState) (t : Tid) (v : ℕ) : Option Page := do
  let p ← s.procs t
  let pd ← p.pagedir
  let e := pd.lookup v
  if e.present then some (s.mem e.kpage)
  else
    match p.spt.find v with
    | some g => some (s.contentOf g)
    | none => some Page.zero

/-- An exit leaves the thread exiting and idle. -/
lemma exitSpt_dying {s s' : VmState} {t : Tid} (h : s.exitSpt t = some s') :
    ∃ p', s'.procs t = some p' ∧ p'.dying = true ∧ p'.pending = .idle := by
  obtain ⟨p, fs, hp, hq, -, rfl⟩ := exitSpt_eq_some h
  exact ⟨{ p with spt := Spt.empty, dying := true }, by simp [hp], rfl, hq⟩

/-! ### Page-in -/

/-- A page-in writes into its frame what the supplemental entry stands for, for every kind of
entry; for a page with no entry (stack growth) it writes nothing, and the frame keeps its old
bytes. The other outcome is the error exit of a short file read. -/
theorem fillFrame_mem {s s' : VmState} {t : Tid} {page : ℕ} {f : Frame}
    {gen : Option SpecialPage} (h : s.fillFrame t page f gen = some s') :
    s'.mem f.userPage = gen.elim (s.mem f.userPage) s.contentOf ∨
      ∃ p', s'.procs t = some p' ∧ p'.dying = true ∧ p'.pending = .idle := by
  -- the file cases share `loadFromFile`
  have hfile : ∀ src ofs za w, s.loadFromFile t page f src ofs za w = some s' →
      s'.mem f.userPage = (s.files src).pageAt ofs za ∨
        ∃ p', s'.procs t = some p' ∧ p'.dying = true ∧ p'.pending = .idle := by
    intro src ofs za w hl
    unfold loadFromFile at hl
    split_ifs at hl
    · rw [Option.some.injEq] at hl
      subst hl
      left
      simp
    · simp only [Option.bind_eq_bind, Option.bind_eq_some_iff] at hl
      obtain ⟨s₁, -, h₂⟩ := hl
      exact .inr (exitSpt_dying h₂)
  cases gen with
  | none =>
      simp only [fillFrame, Option.some.injEq] at h
      subst h
      simp
  | some g =>
      cases g with
      | exec src ofs za w => exact hfile src ofs za w h
      | file src ofs za => exact hfile src ofs za true h
      | swap slot d ev =>
          simp only [fillFrame, Option.some.injEq] at h
          subst h
          simp [swapSlotRead, contentOf]
      | zero =>
          simp only [fillFrame, Option.some.injEq] at h
          subst h
          simp [contentOf]

/-- Once `install_page` succeeds, the page reads as the frame installed for it. The other
outcome is the error exit of a failed install. -/
theorem installFrame_absPage {s s' : VmState} {t : Tid} {p : Proc} {pd : Pagedir} {f : Frame}
    {v : ℕ} {w d ok : Bool} (hp : s.procs t = some p) (hpd : p.pagedir = some pd)
    (h : s.installFrame t pd f v w d ok = some s') :
    s'.absPage t v = some (s.mem f.userPage) ∨
      ∃ p', s'.procs t = some p' ∧ p'.dying = true ∧ p'.pending = .idle := by
  unfold installFrame at h
  split at h
  · rename_i s₁ hi
    rw [Option.some.injEq] at h
    subst h
    left
    unfold installPage at hi
    split_ifs at hi
    rw [Option.some.injEq] at hi
    subst hi
    -- the entry for `v` is the one `install_page` created; the dirty bit does not move it
    split_ifs <;>
      simp [absPage, setPending, modifyFrame, pagedirSetDirty, modifyPte, updProc, hp, hpd,
        pteCreateUser]
  · simp only [Option.bind_eq_bind, Option.bind_eq_some_iff] at h
    obtain ⟨s₁, -, h₂⟩ := h
    exact .inr (exitSpt_dying h₂)

end VmState

/-! ### Stack growth shows stale bytes -/

/-- A two-page user pool and one process. -/
def growStart : VmState :=
  vmInit 2 (fun _ => Page.zero) (fun _ => ⟨0, fun _ => 0, 0⟩) 16 (fun _ _ => 0)

/-- The process sets up its stack page at `0xbffff000`, writes `7` to its first byte, and
grows its stack twice. The second growth evicts the clean page at `0xbfffe000` and clears the
accessed bit of the page at `0xbffff000` on its way. -/
def growSetup : List VmEvent :=
  [.spawn 1, .stack 1, .stackInstall 1 true, .access 1 0xBFFFF000 (some 7),
   .fault 1 0xBFFFE000 0xBFFFE000, .load 1, .install 1 true,
   .fault 1 0xBFFFD000 0xBFFFD000, .load 1, .install 1 true]

/-- The stack grows to `0xbfffc000`: the fault evicts the dirty page at `0xbffff000` to swap
and installs its frame for the new page. -/
def growFault : List VmEvent :=
  [.fault 1 0xBFFFC000 0xBFFFC000, .load 1, .install 1 true]

/-- Before the stack-growth fault the process reads `0` at `0xbfffc000`; after it, `7`: the
new stack page was never written and never zeroed, and shows the byte the process wrote at
`0xbffff000`, which itself still reads `7`, now from swap. -/
theorem stack_growth_reads_stale_bytes :
    ∃ s s', VmReachable s ∧ VmReachable s' ∧ vmRun growStart growSetup = some s ∧
      vmRun s growFault = some s' ∧
      (s.absPage 1 0xBFFFC000).map (· ⟨0, by decide⟩) = some 0 ∧
      (s'.absPage 1 0xBFFFC000).map (· ⟨0, by decide⟩) = some 7 ∧
      (s'.absPage 1 0xBFFFF000).map (· ⟨0, by decide⟩) = some 7 := by
  have hsetup : (vmRun growStart growSetup).isSome := by decide
  obtain ⟨s, hs⟩ := Option.isSome_iff_exists.mp hsetup
  have hreach : VmReachable s := (VmReachable.init _ _ _ _ _).run hs
  have hrun : ((vmRun growStart growSetup).bind fun s => vmRun s growFault).map
      (fun s' => ((s'.absPage 1 0xBFFFC000).map (· ⟨0, by decide⟩),
        (s'.absPage 1 0xBFFFF000).map (· ⟨0, by decide⟩))) = some (some 7, some 7) := by
    decide
  have hbefore : (vmRun growStart growSetup).map
      (fun s => (s.absPage 1 0xBFFFC000).map (· ⟨0, by decide⟩)) = some (some 0) := by
    decide
  rw [hs] at hrun hbefore
  obtain ⟨s', hs', he⟩ := Option.map_eq_some_iff.mp hrun
  rw [Prod.mk.injEq] at he
  refine ⟨s, s', hreach, hreach.run hs', hs, hs', ?_, he.1, he.2⟩
  simpa using hbefore

end TinyOs
