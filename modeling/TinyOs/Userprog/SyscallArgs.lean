import TinyOs.Basic
import Mathlib.Data.List.Range

/-!
How `syscall_handler` (`userprog/syscall.c`) reads its call number and arguments from the user
stack. The handler calls `validate_read (esp, 1)` before reading the call number through an
`int *`, and `validate_read ((char *) args, k)` before reading `args[0]` to `args[k - 1]`.
`validate_read` takes a size in bytes, so the handler checks one byte of the call number and
`k` bytes of the `4 k` it then reads.

* `UserMem`, `UserAccess`: user memory as the kernel reads it, and the two ways the handler
  reads it (`get_user`, which survives a fault, and a plain load, which does not);
* `validateRead`, `loadArgs`, `syscallEntry`: the handler up to the call;
* `validateRead_ok`: what a passing `validate_read` has checked;
* `syscallEntry_call`: the accesses of a handler that reaches a call, in order;
* `syscallEntry_second_arg_unprobed`: for every call with two or more arguments, no byte of
  `args[1]` is checked before it is read;
* `exit_status_reads_kernel_bytes`: `SYS_EXIT` with its argument word straddling `PHYS_BASE`
  exits with a status made of kernel bytes.
-/

namespace TinyOs

/-- User memory as the kernel reads it: the byte at an address, or `none` when reading it
faults and the page-fault handler has nothing to load (no supplemental entry, no stack
growth). Kernel addresses read kernel memory. -/
abbrev UserMem : Type := ℕ → Option UInt8

/-- A read of the system-call path at an address the user supplied. -/
inductive UserAccess where
  /-- `get_user`: one byte, `-1` when the read faults. -/
  | getUser (addr : ℕ)
  /-- A four-byte read through an `int *`, with no recovery from a fault. -/
  | load (addr : ℕ)
  deriving DecidableEq, Repr

/-- The system calls `syscall_handler` dispatches (`lib/syscall-nr.h`). -/
inductive SyscallNr where
  | sysHalt | sysExit | sysExec | sysWait | sysCreate | sysRemove | sysOpen | sysFilesize
  | sysRead | sysWrite | sysSeek | sysTell | sysClose | sysMmap | sysMunmap
  deriving DecidableEq, Repr

/-- The `switch (sys_call)` of `syscall_handler`: the call with this number, `none` for the
`default` case (which exits), the project 4 calls included. -/
def SyscallNr.ofNat? : ℕ → Option SyscallNr
  | 0 => some .sysHalt
  | 1 => some .sysExit
  | 2 => some .sysExec
  | 3 => some .sysWait
  | 4 => some .sysCreate
  | 5 => some .sysRemove
  | 6 => some .sysOpen
  | 7 => some .sysFilesize
  | 8 => some .sysRead
  | 9 => some .sysWrite
  | 10 => some .sysSeek
  | 11 => some .sysTell
  | 12 => some .sysClose
  | 13 => some .sysMmap
  | 14 => some .sysMunmap
  | _ => none

/-- The size each case passes to `validate_read ((char *) args, k)`, which is also the number of
argument words it reads. `SYS_HALT` calls neither. -/
def argCount : SyscallNr → ℕ
  | .sysHalt => 0
  | .sysExit | .sysExec | .sysWait | .sysRemove | .sysOpen | .sysFilesize | .sysTell
  | .sysClose | .sysMunmap => 1
  | .sysCreate | .sysSeek | .sysMmap => 2
  | .sysRead | .sysWrite => 3

/-- The loop of `validate_read`: `get_user` on each address in turn; `false` for the
`exit (-1)` at the first that faults. -/
def getUserAll (mem : UserMem) : List ℕ → List UserAccess × Bool
  | [] => ([], true)
  | a :: rest =>
      match mem a with
      | none => ([.getUser a], false)
      | some _ =>
          let r := getUserAll mem rest
          (.getUser a :: r.1, r.2)

/-- `validate_read (buffer, size)`: `exit (-1)` when `buffer + size`, on 32-bit pointers, is at
or above `PHYS_BASE`; otherwise `get_user` on `buffer + count` for each `count < size`. The
flag is `false` when the call exits. -/
def validateRead (mem : UserMem) (buffer size : ℕ) : List UserAccess × Bool :=
  if physBase ≤ wrap32 (buffer + size) then ([], false)
  else getUserAll mem ((List.range size).map fun count => wrap32 (buffer + count))

/-- `*(int *) a`: the four bytes at `a`, little-endian; `none` when one of them faults, where
the kernel's page-fault handler resumes at whatever address `eax` holds. -/
def loadWord (mem : UserMem) (a : ℕ) : Option ℕ := do
  let b₀ ← mem a
  let b₁ ← mem (wrap32 (a + 1))
  let b₂ ← mem (wrap32 (a + 2))
  let b₃ ← mem (wrap32 (a + 3))
  some (b₀.toNat + 2 ^ 8 * b₁.toNat + 2 ^ 16 * b₂.toNat + 2 ^ 24 * b₃.toNat)

/-- The addresses of `args[0]` to `args[k - 1]`. -/
def argAddrs (args k : ℕ) : List ℕ := (List.range k).map fun i => wrap32 (args + 4 * i)

/-- `validate_read ((char *) args, k)` and then the reads of the `k` argument words: the
accesses made, and the words read (`none` on `exit (-1)`). -/
def loadArgs (mem : UserMem) (args k : ℕ) : Option (List UserAccess × Option (List ℕ)) :=
  let v := validateRead mem args k
  if v.2 = false then some (v.1, none)
  else ((argAddrs args k).mapM (loadWord mem)).map fun ws =>
    (v.1 ++ (argAddrs args k).map .load, some ws)

/-- `syscall_handler` up to the call: the accesses it makes at user addresses, in order, and
the call it makes with the argument words it read, or `none` when it exits with `-1` first.
The result is `none` when a load faults. -/
def syscallEntry (mem : UserMem) (esp : ℕ) :
    Option (List UserAccess × Option (SyscallNr × List ℕ)) :=
  let v := validateRead mem esp 1
  if v.2 = false then some (v.1, none)
  else (loadWord mem esp).bind fun nr =>
    match SyscallNr.ofNat? nr with
    | none => some (v.1 ++ [.load esp], none)
    | some .sysHalt => some (v.1 ++ [.load esp], some (.sysHalt, []))
    | some c => (loadArgs mem (wrap32 (esp + 4)) (argCount c)).map fun r =>
        (v.1 ++ [.load esp] ++ r.1, r.2.map fun ws => (c, ws))

/-! ### What the validation checks -/

lemma getUserAll_ok {mem : UserMem} :
    ∀ {l : List ℕ}, (getUserAll mem l).2 = true →
      (getUserAll mem l).1 = l.map .getUser ∧ ∀ a ∈ l, (mem a).isSome
  | [], _ => ⟨rfl, by simp⟩
  | a :: rest, h => by
      unfold getUserAll at h ⊢
      cases ha : mem a with
      | none => simp [ha] at h
      | some b =>
          simp only [ha] at h ⊢
          obtain ⟨htr, hall⟩ := getUserAll_ok h
          refine ⟨by rw [htr, List.map_cons], ?_⟩
          intro x hx
          rcases List.mem_cons.mp hx with rfl | hx
          · simp [ha]
          · exact hall x hx

/-- A passing `validate_read (buffer, size)` has probed `buffer + count` for each
`count < size`, every one of them readable, and found `buffer + size` below `PHYS_BASE` in
32-bit arithmetic. -/
theorem validateRead_ok {mem : UserMem} {buffer size : ℕ}
    (h : (validateRead mem buffer size).2 = true) :
    (validateRead mem buffer size).1 =
        (List.range size).map (fun count => .getUser (wrap32 (buffer + count))) ∧
      wrap32 (buffer + size) < physBase ∧
      ∀ count < size, (mem (wrap32 (buffer + count))).isSome := by
  unfold validateRead at h ⊢
  split_ifs at h ⊢ with hb
  obtain ⟨htr, hall⟩ := getUserAll_ok h
  refine ⟨by rw [htr, List.map_map]; rfl, Nat.lt_of_not_le hb, fun count hc => ?_⟩
  exact hall _ (List.mem_map.mpr ⟨count, List.mem_range.mpr hc, rfl⟩)

lemma loadArgs_words {mem : UserMem} {args k : ℕ} {tr : List UserAccess} {ws : List ℕ}
    (h : loadArgs mem args k = some (tr, some ws)) :
    (validateRead mem args k).2 = true ∧
      tr = (validateRead mem args k).1 ++ (argAddrs args k).map .load := by
  dsimp only [loadArgs] at h
  split_ifs at h with hv
  · simp at h
  · obtain ⟨ws', -, he⟩ := Option.map_eq_some_iff.mp h
    rw [Prod.mk.injEq] at he
    exact ⟨by simpa using hv, he.1.symm⟩

/-- A handler that reaches a call other than `SYS_HALT` has probed the first byte of the call
number, loaded the call number, probed the first `argCount c` bytes of the arguments and loaded
the `argCount c` argument words, in that order. -/
theorem syscallEntry_call {mem : UserMem} {esp : ℕ} {tr : List UserAccess} {c : SyscallNr}
    {ws : List ℕ} (hc : c ≠ .sysHalt) (h : syscallEntry mem esp = some (tr, some (c, ws))) :
    (validateRead mem esp 1).2 = true ∧ (validateRead mem (wrap32 (esp + 4)) (argCount c)).2 = true ∧
      tr = (validateRead mem esp 1).1 ++ [.load esp] ++
        ((validateRead mem (wrap32 (esp + 4)) (argCount c)).1 ++
          (argAddrs (wrap32 (esp + 4)) (argCount c)).map .load) := by
  dsimp only [syscallEntry] at h
  split_ifs at h with hv
  · simp at h
  obtain ⟨nr, -, h⟩ := Option.bind_eq_some_iff.mp h
  split at h
  · simp at h
  · simp only [Option.some.injEq, Prod.mk.injEq, Option.some.injEq, Prod.mk.injEq] at h
    exact absurd h.2.1.symm hc
  · obtain ⟨⟨tr', o⟩, hl, he⟩ := Option.map_eq_some_iff.mp h
    rw [Prod.mk.injEq] at he
    obtain ⟨rfl, ho⟩ := he
    obtain ⟨ws', rfl, hws⟩ := Option.map_eq_some_iff.mp ho
    rw [Prod.mk.injEq] at hws
    obtain ⟨rfl, -⟩ := hws
    obtain ⟨hv', rfl⟩ := loadArgs_words hl
    exact ⟨by simpa using hv, hv', rfl⟩

/-- For every call with two or more arguments, the handler reads `args[1]` without having
probed any of its four bytes: `validate_read` checked the first `argCount c ≤ 3` bytes of the
arguments, and `args[1]` starts four bytes in. -/
theorem syscallEntry_second_arg_unprobed {mem : UserMem} {esp : ℕ} {tr : List UserAccess}
    {c : SyscallNr} {ws : List ℕ} (h : syscallEntry mem esp = some (tr, some (c, ws)))
    (h2 : 2 ≤ argCount c) :
    .load (wrap32 (esp + 8)) ∈ tr ∧ ∀ i < 4, .getUser (wrap32 (esp + 8 + i)) ∉ tr := by
  have hc : c ≠ .sysHalt := by
    rintro rfl
    simp [argCount] at h2
  have hk : argCount c ≤ 3 := by cases c <;> simp [argCount]
  obtain ⟨hv, hv', rfl⟩ := syscallEntry_call hc h
  rw [(validateRead_ok hv).1, (validateRead_ok hv').1]
  -- the argument word at `args + 4`, with `args = esp + 4` on the ring
  have hwrap : ∀ n, wrap32 (wrap32 (esp + 4) + n) = wrap32 (esp + 4 + n) := fun n => by
    simp [wrap32, Nat.add_mod]
  constructor
  · refine List.mem_append_right _ (List.mem_append_right _ (List.mem_map.mpr
      ⟨wrap32 (esp + 8), List.mem_map.mpr ⟨1, List.mem_range.mpr (by omega), ?_⟩, rfl⟩))
    rw [hwrap]
  · intro i hi hmem
    simp only [List.mem_append, List.mem_map, List.mem_range, List.mem_singleton,
      UserAccess.getUser.injEq, reduceCtorEq, and_false, exists_false, or_false] at hmem
    -- the probed bytes are `esp` and `args + n` for `n < 3`, all short of `esp + 8` on the ring
    rcases hmem with ⟨n, hn, hne⟩ | ⟨n, hn, hne⟩
    · simp only [wrap32] at hne
      omega
    · rw [hwrap] at hne
      simp only [wrap32] at hne
      omega

/-! ### `SYS_EXIT` across `PHYS_BASE` -/

/-- The top page of the user stack, holding `SYS_EXIT` in the word at `0xbffffffa` and zeros
elsewhere, and the first four megabytes of kernel memory above `PHYS_BASE`, holding `0x5a`
bytes; nothing else is mapped. -/
def exitAtTop : UserMem := fun a =>
  if physBase - pgSize ≤ a ∧ a < physBase then some (if a = 0xBFFFFFFA then 1 else 0)
  else if physBase ≤ a ∧ a < physBase + 0x400000 then some 0x5A
  else none

/-- `SYS_EXIT` with `esp = 0xbffffffa`: the call number lies below `PHYS_BASE`, and its
argument word at `0xbffffffe` has two bytes below and two at or above `PHYS_BASE`.
`validate_read ((char *) args, 1)` checks `0xbffffffe` alone, the handler loads the whole word,
and the process exits with status `0x5a5a0000`, whose upper half is kernel memory. -/
theorem exit_status_reads_kernel_bytes :
    syscallEntry exitAtTop 0xBFFFFFFA =
      some ([.getUser 0xBFFFFFFA, .load 0xBFFFFFFA, .getUser 0xBFFFFFFE, .load 0xBFFFFFFE],
        some (.sysExit, [0x5A5A0000])) ∧
      0xBFFFFFFE + 2 = physBase := by
  decide

end TinyOs
