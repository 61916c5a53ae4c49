import TinyOs.Userprog.Process
import TinyOs.Userprog.SyscallArgs
import TinyOs.Libc.String
import Mathlib.Data.List.TakeWhile
import Mathlib.Algebra.GroupWithZero.Nat

/-!
The command line of a new process (`userprog/process.c`). `process_execute` reads the file to
open and deny writes to off the command line by hand: its bytes up to the first space or NUL,
at most 16 of them. `execute_thread` splits its copy of the line with `strtok_r`, storing each
token in `argv_temp[100]`, passes the first token to `load`, and lays the tokens out on the new
process's stack below `PHYS_BASE`: the strings, padding to a word boundary, the `argv` array
ending in NULL, `argv`, `argc` and a return address.

The two readings of the program name differ on a line that starts with a space, where the first
reads an empty name, and on a first token longer than 16 bytes, which the first cuts short; and
a line of fewer than `PGSIZE` bytes holds up to 2048 tokens, past `argv_temp`. When the tokens
fit, the stack reads back to them.

* `strtokR`, `strtokLoop`, `cmdTokens`: the tokens, as `strtok_r` splits the line;
  `strtokLoop_of_lt`: the fuel given is enough; `strtokLoop_eq_tokens`: they are
  `Libc.tokens`, the maximal runs of bytes other than a space, which `Libc.strtok_r_tokenises`
  shows `strtok_r` to return over memory;
* `argvTempLoop`: the loop storing them in `argv_temp`, `none` past its end;
* `writeBytes`, `strlcpy`, `copyArgs`, `writeArgv`, `setupArgs`: the stack `execute_thread`
  builds; `StackDecodes`: what the new process finds on it; `setupArgs_decodes`: it finds its
  arguments;
* `command_line_handling`: all of it, for every command line of fewer than `PGSIZE` bytes.
-/

namespace TinyOs

/-! ### Tokens -/

/-- `strtok_r (s, " ", &save_ptr)` on the string that starts at `s` (its bytes before the NUL):
the token it returns and the string `*save_ptr` is left at, or `none` for NULL when only spaces
are left. The space behind the token is overwritten with a NUL and skipped. -/
def strtokR (s : List UInt8) : Option (List UInt8 × List UInt8) :=
  match s.dropWhile (· = 32) with
  | [] => none
  | c :: cs => some ((c :: cs).takeWhile (· ≠ 32), ((c :: cs).dropWhile (· ≠ 32)).drop 1)

/-- The `for` loop of `execute_thread` over `strtok_r`, with `fuel` calls left: the tokens in
order. -/
def strtokLoop : ℕ → List UInt8 → List (List UInt8)
  | 0, _ => []
  | fuel + 1, s =>
      match strtokR s with
      | none => []
      | some (token, rest) => token :: strtokLoop fuel rest

/-- `cmdline_copy`, the string `execute_thread` splits: the copy
`strlcpy (cmdline_copy, cmdline, PGSIZE)` made of the command line. -/
def cmdlineCopy (cmdline : List UInt8) : List UInt8 :=
  (cmdline.takeWhile (· ≠ 0)).take (pgSize - 1)

/-- The tokens of a command line as `execute_thread` splits it. A call of `strtok_r` that
returns a token consumes at least a byte, so `length + 1` calls reach the NULL. -/
def cmdTokens (cmdline : List UInt8) : List (List UInt8) :=
  strtokLoop ((cmdlineCopy cmdline).length + 1) (cmdlineCopy cmdline)

/-- What one call of `strtok_r` cuts off the string: spaces, a token of other bytes, and the
space behind it, if any. -/
lemma strtokR_eq_some {s token rest : List UInt8} (h : strtokR s = some (token, rest)) :
    ∃ sp d, s = sp ++ token ++ d ∧ rest = d.drop 1 ∧ token ≠ [] ∧ 32 ∉ token := by
  unfold strtokR at h
  split at h
  · cases h
  · rename_i c cs hs
    rw [Option.some.injEq, Prod.mk.injEq] at h
    obtain ⟨rfl, rfl⟩ := h
    have hc : c ≠ 32 := by
      have := List.head_dropWhile_not (fun b : UInt8 => decide (b = 32)) (l := s) (by simp [hs])
      simpa [hs] using this
    refine ⟨s.takeWhile (· = 32), (c :: cs).dropWhile (· ≠ 32), ?_, rfl, ?_, ?_⟩
    · rw [List.append_assoc, List.takeWhile_append_dropWhile, ← hs, List.takeWhile_append_dropWhile]
    · simp [hc]
    · intro hmem
      simpa using List.mem_takeWhile_imp hmem

lemma strtokR_nil : strtokR [] = none := rfl

@[simp] lemma strtokLoop_nil (fuel : ℕ) : strtokLoop fuel [] = [] := by
  cases fuel <;> rfl

/-- The string left after a token is shorter than the string it was cut from. -/
lemma strtokR_length {s token rest : List UInt8} (h : strtokR s = some (token, rest)) :
    token.length + rest.length + 1 ≤ s.length + 1 ∧ (rest ≠ [] → token.length + rest.length + 1 ≤ s.length) ∧
      rest.length < s.length := by
  obtain ⟨sp, d, rfl, rfl, hne, -⟩ := strtokR_eq_some h
  have hpos : 0 < token.length := List.length_pos_iff.mpr hne
  refine ⟨by simp; omega, fun hr => ?_, by simp; omega⟩
  have hd : 1 < d.length := by
    by_contra hd
    exact hr (List.drop_eq_nil_of_le (by omega))
  simp
  omega

/-- More calls than bytes reach the NULL: past that the fuel changes nothing. -/
lemma strtokLoop_of_lt {fuel : ℕ} {s : List UInt8} (h : s.length < fuel) :
    strtokLoop (fuel + 1) s = strtokLoop fuel s := by
  induction fuel generalizing s with
  | zero => omega
  | succ fuel ih =>
      rw [strtokLoop, strtokLoop]
      cases hs : strtokR s with
      | none => rfl
      | some r =>
          obtain ⟨token, rest⟩ := r
          dsimp only
          rw [ih (s := rest) (by have := (strtokR_length hs).2.2; omega)]

/-- A call of `strtok_r` that returns a token cuts off the first of the string's tokens. -/
lemma tokens_of_strtokR {s token rest : List UInt8} (h : strtokR s = some (token, rest)) :
    Libc.tokens [32] s = token :: Libc.tokens [32] rest := by
  unfold strtokR at h
  split at h
  · cases h
  · rename_i c cs hs
    rw [Option.some.injEq, Prod.mk.injEq] at h
    obtain ⟨rfl, rfl⟩ := h
    -- the spaces in front hold no token
    have hsp : ∀ x ∈ s.takeWhile (· = 32), x ∈ ([32] : List UInt8) := fun x hx => by
      simpa using List.mem_takeWhile_imp hx
    have hc : c ≠ 32 := by
      have := List.head_dropWhile_not (fun b : UInt8 => decide (b = 32)) (l := s) (by simp [hs])
      simpa [hs] using this
    rw [← List.takeWhile_append_dropWhile (p := (· = 32)) (l := s), hs,
      Libc.tokens_of_delimiters hsp]
    have hw : (c :: cs).takeWhile (· ≠ 32) ≠ [] := by simp [hc]
    have hwD : ∀ x ∈ (c :: cs).takeWhile (· ≠ 32), x ∉ ([32] : List UInt8) := fun x hx => by
      simpa using List.mem_takeWhile_imp hx
    conv_lhs => rw [← List.takeWhile_append_dropWhile (p := (· ≠ 32)) (l := c :: cs)]
    -- the token ends at the end of the string or at a space
    rcases hd : (c :: cs).dropWhile (· ≠ 32) with _ | ⟨d, r⟩
    · rw [hd, List.append_nil, Libc.tokens_of_token hw hwD]
      simp
    · have hd32 : d = 32 := by
        have hhead := List.head?_dropWhile_not (fun b : UInt8 => decide (b ≠ 32)) (c :: cs)
        rw [hd] at hhead
        simpa using hhead
      subst hd32
      rw [hd, Libc.tokens_token_append_cons hw hwD (List.mem_singleton_self _)]
      rfl

/-- A call of `strtok_r` that returns NULL finds spaces only. -/
lemma tokens_of_strtokR_none {s : List UInt8} (h : strtokR s = none) :
    Libc.tokens [32] s = [] := by
  unfold strtokR at h
  split at h
  · rename_i hs
    have hsp : ∀ x ∈ s, x ∈ ([32] : List UInt8) := fun x hx => by
      simpa using List.dropWhile_eq_nil_iff.mp hs x hx
    simpa using Libc.tokens_of_delimiters hsp []
  · cases h

/-- With more calls than bytes, the loop of `execute_thread` returns the tokens of the string,
its maximal runs of bytes other than a space. By induction on the fuel, one token a call. -/
theorem strtokLoop_eq_tokens {fuel : ℕ} {s : List UInt8} (h : s.length < fuel) :
    strtokLoop fuel s = Libc.tokens [32] s := by
  induction fuel generalizing s with
  | zero => omega
  | succ fuel ih =>
    rw [strtokLoop]
    cases hs : strtokR s with
    | none => exact (tokens_of_strtokR_none hs).symm
    | some r =>
      obtain ⟨token, rest⟩ := r
      dsimp only
      rw [tokens_of_strtokR hs, ih (by have := (strtokR_length hs).2.2; omega)]

/-- The tokens are not empty, hold no space, and are made of the string's bytes. -/
lemma mem_strtokLoop {fuel : ℕ} {s u : List UInt8} (hu : u ∈ strtokLoop fuel s) :
    u ≠ [] ∧ 32 ∉ u ∧ ∀ b ∈ u, b ∈ s := by
  induction fuel generalizing s with
  | zero => cases hu
  | succ fuel ih =>
      rw [strtokLoop] at hu
      cases hs : strtokR s with
      | none => simp [hs] at hu
      | some r =>
          obtain ⟨token, rest⟩ := r
          obtain ⟨sp, d, rfl, rfl, hne, hsp⟩ := strtokR_eq_some hs
          simp only [hs, List.mem_cons] at hu
          rcases hu with rfl | hu
          · exact ⟨hne, hsp, fun b hb => by simp [hb]⟩
          · obtain ⟨hne', hsp', hmem⟩ := ih hu
            exact ⟨hne', hsp', fun b hb => by simp [List.mem_of_mem_drop (hmem b hb)]⟩

/-- The tokens, each with the byte behind it, fill at most the string and its NUL. -/
lemma strtokLoop_size (fuel : ℕ) (s : List UInt8) :
    ((strtokLoop fuel s).map (·.length + 1)).sum ≤ s.length + 1 := by
  induction fuel generalizing s with
  | zero => simp [strtokLoop]
  | succ fuel ih =>
      rw [strtokLoop]
      cases hs : strtokR s with
      | none => simp
      | some r =>
          obtain ⟨token, rest⟩ := r
          obtain ⟨hle, hlt, -⟩ := strtokR_length hs
          simp only [List.map_cons, List.sum_cons]
          by_cases hr : rest = []
          · subst hr
            simp only [strtokLoop_nil, List.map_nil, List.sum_nil]
            omega
          · have := ih rest
            have := hlt hr
            omega

/-- `argv[0]`, the name `execute_thread` passes to `load`, is the first token. -/
lemma loadFileName_eq {cmdline t : List UInt8} {ts : List (List UInt8)}
    (h : cmdTokens cmdline = t :: ts) : loadFileName cmdline = t := by
  unfold cmdTokens at h
  rw [strtokLoop] at h
  cases hs : strtokR (cmdlineCopy cmdline) with
  | none => simp [hs] at h
  | some r =>
      obtain ⟨token, rest⟩ := r
      simp only [hs, List.cons.injEq] at h
      rw [← h.1]
      unfold strtokR at hs
      unfold loadFileName
      split at hs
      · cases hs
      · rename_i c cs hdrop
        rw [Option.some.injEq, Prod.mk.injEq] at hs
        rw [← hs.1, ← hdrop]
        rfl

/-- The name `process_execute` opens: empty when the line starts with a space, otherwise the
first token cut to 16 bytes. -/
lemma execFileName_eq {cmdline t : List UInt8} {ts : List (List UInt8)}
    (hlen : cmdline.length < pgSize) (h : cmdTokens cmdline = t :: ts) :
    execFileName cmdline = if cmdline.head? = some 32 then [] else t.take 16 := by
  have hcopy : (cmdline.takeWhile (· ≠ 0)).take (pgSize - 1) = cmdline.takeWhile (· ≠ 0) :=
    List.take_of_length_le ((List.takeWhile_prefix _).length_le.trans (by unfold pgSize at hlen ⊢; omega))
  have hload := loadFileName_eq h
  unfold loadFileName at hload
  rw [hcopy] at hload
  cases cmdline with
  | nil => simp [cmdTokens, cmdlineCopy, strtokLoop, strtokR] at h
  | cons c cs =>
      by_cases hc : c = 32
      · subst hc
        simp [execFileName]
      · -- the line starts with the first token, which `process_execute` reads up to 16 bytes of
        rw [if_neg (by simpa using hc), ← hload]
        by_cases h0 : c = 0
        · subst h0
          simp [cmdTokens, cmdlineCopy, strtokLoop, strtokR] at h
        · simp [execFileName, hc, h0, List.takeWhile_takeWhile, and_comm]

/-! ### `argv_temp` -/

/-- The slots of `argv_temp`. -/
def argvTempSize : ℕ := 100

/-- The loop of `execute_thread` with `fuel` calls of `strtok_r` left, storing each token at
`argv_temp[count]`: the tokens, or `none` once a token would be stored past `argv_temp`. -/
def argvTempLoop : ℕ → ℕ → List UInt8 → Option (List (List UInt8))
  | 0, _, _ => some []
  | fuel + 1, count, s =>
      match strtokR s with
      | none => some []
      | some (token, rest) =>
          if count < argvTempSize then (argvTempLoop fuel (count + 1) rest).map (token :: ·)
          else none

/-- The first loop of `execute_thread` on its copy of the command line. -/
def executeThreadArgv (cmdline : List UInt8) : Option (List (List UInt8)) :=
  argvTempLoop ((cmdlineCopy cmdline).length + 1) 0 (cmdlineCopy cmdline)

/-- The loop stores the tokens, and stays inside `argv_temp` exactly when they fit. -/
lemma argvTempLoop_eq (fuel : ℕ) {count : ℕ} (s : List UInt8) (hcount : count ≤ argvTempSize) :
    argvTempLoop fuel count s =
      if count + (strtokLoop fuel s).length ≤ argvTempSize then some (strtokLoop fuel s)
      else none := by
  induction fuel generalizing count s with
  | zero => simp [argvTempLoop, strtokLoop, hcount]
  | succ fuel ih =>
      rw [argvTempLoop, strtokLoop]
      cases strtokR s with
      | none => simp [hcount]
      | some r =>
          obtain ⟨token, rest⟩ := r
          by_cases hc : count < argvTempSize
          · simp only [ih rest (show count + 1 ≤ argvTempSize by omega), List.length_cons]
            rw [if_pos hc]
            by_cases hfit : count + 1 + (strtokLoop fuel rest).length ≤ argvTempSize
            · rw [if_pos hfit, if_pos (by omega)]
              rfl
            · rw [if_neg hfit, if_neg (by omega)]
              rfl
          · simp only [List.length_cons]
            rw [if_neg hc, if_neg (by omega)]

lemma executeThreadArgv_eq (cmdline : List UInt8) :
    executeThreadArgv cmdline =
      if (cmdTokens cmdline).length ≤ argvTempSize then some (cmdTokens cmdline) else none := by
  rw [executeThreadArgv, argvTempLoop_eq _ _ (Nat.zero_le _), Nat.zero_add]
  rfl

/-! ### Stores to user memory -/

/-- Store the bytes `bs` at `a`, `a + 1`, and so on. -/
def writeBytes (mem : UserMem) (a : ℕ) : List UInt8 → UserMem
  | [] => mem
  | b :: bs => writeBytes (Function.update mem a (some b)) (a + 1) bs

/-- The four bytes of a 32-bit word, least significant first. -/
def wordBytes (v : ℕ) : List UInt8 :=
  [UInt8.ofNat v, UInt8.ofNat (v / 2 ^ 8), UInt8.ofNat (v / 2 ^ 16), UInt8.ofNat (v / 2 ^ 24)]

/-- A store of a 32-bit word: `*(uint32_t *) a = v`. -/
def writeWord (mem : UserMem) (a v : ℕ) : UserMem := writeBytes mem a (wordBytes v)

/-- The `n` bytes at `a`. -/
def readBytes (mem : UserMem) (a n : ℕ) : List (Option UInt8) :=
  (List.range n).map fun j => mem (a + j)

variable {mem mem' : UserMem} {a x : ℕ}

lemma writeBytes_of_lt_or_le {bs : List UInt8} (h : x < a ∨ a + bs.length ≤ x) :
    writeBytes mem a bs x = mem x := by
  induction bs generalizing mem a with
  | nil => rfl
  | cons b bs ih =>
      simp only [List.length_cons] at h
      rw [writeBytes, ih (by omega), Function.update_of_ne (by omega)]

lemma writeBytes_at {bs : List UInt8} {i : ℕ} (hi : i < bs.length) :
    writeBytes mem a bs (a + i) = some bs[i] := by
  induction bs generalizing mem a i with
  | nil => simp at hi
  | cons b bs ih =>
      rw [writeBytes]
      cases i with
      | zero => rw [writeBytes_of_lt_or_le (by omega), Nat.add_zero, Function.update_self]; rfl
      | succ i =>
          rw [show a + (i + 1) = a + 1 + i by omega, ih (by simpa using hi)]
          rfl

lemma readBytes_congr {n : ℕ} (h : ∀ j < n, mem' (a + j) = mem (a + j)) :
    readBytes mem' a n = readBytes mem a n :=
  List.map_congr_left fun j hj => h j (List.mem_range.mp hj)

lemma readBytes_writeBytes (bs : List UInt8) :
    readBytes (writeBytes mem a bs) a bs.length = bs.map some := by
  refine List.ext_getElem (by simp [readBytes]) fun j hj _ => ?_
  simp only [readBytes, List.length_map, List.length_range] at hj
  simp [readBytes, writeBytes_at hj]

lemma loadWord_congr (ha : a + 4 ≤ 2 ^ 32) (h : ∀ i < 4, mem' (a + i) = mem (a + i)) :
    loadWord mem' a = loadWord mem a := by
  have hw : ∀ i < 4, wrap32 (a + i) = a + i := fun i hi => Nat.mod_eq_of_lt (by omega)
  have h₀ : mem' a = mem a := h 0 (by omega)
  simp only [loadWord, hw 1 (by omega), hw 2 (by omega), hw 3 (by omega), h₀, h 1 (by omega),
    h 2 (by omega), h 3 (by omega)]

/-- A word stored is read back, to 32 bits. -/
lemma loadWord_writeWord (v : ℕ) (ha : a + 4 ≤ 2 ^ 32) :
    loadWord (writeWord mem a v) a = some (v % 2 ^ 32) := by
  have hw : ∀ i < 4, wrap32 (a + i) = a + i := fun i hi => Nat.mod_eq_of_lt (by omega)
  have hb : ∀ i (hi : i < 4), writeWord mem a v (a + i) = some (wordBytes v)[i] :=
    fun i hi => writeBytes_at (by simpa [wordBytes] using hi)
  have h₀ : writeWord mem a v a = some (UInt8.ofNat v) := by simpa [wordBytes] using hb 0 (by omega)
  simp only [loadWord, hw 1 (by omega), hw 2 (by omega), hw 3 (by omega), h₀, hb 1 (by omega),
    hb 2 (by omega), hb 3 (by omega)]
  simp [wordBytes]
  omega

/-! ### The initial stack -/

/-- `strlcpy (dst, src, size)`: at most `size - 1` bytes of the string, then a NUL. -/
def strlcpy (mem : UserMem) (dst : ℕ) (src : List UInt8) (size : ℕ) : UserMem :=
  if 0 < size then writeBytes mem dst (src.take (size - 1) ++ [0]) else mem

/-- `arg_length[i] = strlen (argv_count[i]) + 1`: a token holds no NUL, so `strlen` is its
length. -/
def argLength (arg : List UInt8) : ℕ := arg.length + 1

/-- `sum`, the bytes the copies of the arguments take. -/
def argsSize (args : List (List UInt8)) : ℕ := (args.map argLength).sum

/-- The loop copying the arguments: `strlcpy (temp, argv_count[i], arg_length[i])`, then `temp`
moves past the copy. -/
def copyArgs (mem : UserMem) (temp : ℕ) : List (List UInt8) → UserMem
  | [] => mem
  | arg :: args => copyArgs (strlcpy mem temp arg (argLength arg)) (temp + argLength arg) args

/-- The loop filling the `argv` array: at `temp2` the address `argvs_offset` of each copy, then
`*temp2 = 0`. -/
def writeArgv (mem : UserMem) (temp2 offset : ℕ) : List (List UInt8) → UserMem
  | [] => writeWord mem temp2 0
  | arg :: args => writeArgv (writeWord mem temp2 offset) (temp2 + 4) (offset + argLength arg) args

/-- `execute_thread` once `load` has succeeded: the stack it lays out below `PHYS_BASE`, and the
`esp` it starts the process with. -/
def setupArgs (mem : UserMem) (args : List (List UInt8)) : UserMem × ℕ :=
  let sum := argsSize args
  let argvStackAddress := physBase - sum
  let mem := copyArgs mem argvStackAddress args
  let numWordAlign := 4 - sum % 4
  let wordAlign := argvStackAddress - numWordAlign
  let mem := writeBytes mem wordAlign (List.replicate numWordAlign 0)
  let argvs := wordAlign - 4 * (args.length + 1)
  let mem := writeArgv mem argvs argvStackAddress args
  let argv := argvs - 4
  let mem := writeWord mem argv argvs
  let argc := argv - 4
  let mem := writeWord mem argc args.length
  (mem, argc - 4)

/-- What the new process finds on its stack: `argc` at `esp + 4`, and at `esp + 8` a
word-aligned `argv` whose entries point at NUL-terminated copies of the arguments lying above
the array, followed by NULL; no byte outside `[esp + 4, PHYS_BASE)` has changed. -/
structure StackDecodes (mem mem' : UserMem) (esp : ℕ) (args : List (List UInt8)) : Prop where
  argc : loadWord mem' (esp + 4) = some args.length
  argv : ∃ argvs, loadWord mem' (esp + 8) = some argvs ∧ argvs % 4 = 0 ∧
    (∀ i (hi : i < args.length), ∃ p, loadWord mem' (argvs + 4 * i) = some p ∧
      argvs + 4 * (args.length + 1) ≤ p ∧ readBytes mem' p (argLength args[i]) = (args[i] ++ [0]).map some) ∧
    loadWord mem' (argvs + 4 * args.length) = some 0
  frame : ∀ a, a < esp + 4 ∨ physBase ≤ a → mem' a = mem a

lemma strlcpy_argLength (mem : UserMem) (dst : ℕ) (arg : List UInt8) :
    strlcpy mem dst arg (argLength arg) = writeBytes mem dst (arg ++ [0]) := by
  simp [strlcpy, argLength]

@[simp] lemma argsSize_nil : argsSize [] = 0 := rfl

@[simp] lemma argsSize_cons (arg : List UInt8) (args : List (List UInt8)) :
    argsSize (arg :: args) = argLength arg + argsSize args := rfl

lemma copyArgs_of_lt_or_le {temp : ℕ} {args : List (List UInt8)}
    (h : x < temp ∨ temp + argsSize args ≤ x) : copyArgs mem temp args x = mem x := by
  induction args generalizing mem temp with
  | nil => rfl
  | cons arg args ih =>
      simp only [argsSize_cons] at h
      rw [copyArgs, ih (by omega), strlcpy_argLength,
        writeBytes_of_lt_or_le (by simp [argLength] at h ⊢; omega)]

/-- The `i`-th copy lies past the ones before it, and reads back as the argument and a NUL. -/
lemma readBytes_copyArgs {temp : ℕ} {args : List (List UInt8)} {i : ℕ} (hi : i < args.length) :
    readBytes (copyArgs mem temp args) (temp + argsSize (args.take i)) (argLength args[i]) =
      (args[i] ++ [0]).map some := by
  induction args generalizing mem temp i with
  | nil => simp at hi
  | cons arg args ih =>
      cases i with
      | zero =>
          -- the first copy: the later ones lie above it
          rw [List.getElem_cons_zero, List.take_zero, argsSize_nil, Nat.add_zero, copyArgs,
            readBytes_congr fun j hj => copyArgs_of_lt_or_le (Or.inl (by omega)),
            strlcpy_argLength, show argLength arg = (arg ++ [0]).length by simp [argLength]]
          exact readBytes_writeBytes _
      | succ i =>
          rw [List.getElem_cons_succ, List.take_succ_cons, argsSize_cons, copyArgs,
            ← Nat.add_assoc]
          exact ih (by simpa using hi)

lemma writeArgv_of_lt_or_le {temp2 offset : ℕ} {args : List (List UInt8)}
    (h : x < temp2 ∨ temp2 + 4 * (args.length + 1) ≤ x) :
    writeArgv mem temp2 offset args x = mem x := by
  induction args generalizing mem temp2 offset with
  | nil => exact writeBytes_of_lt_or_le (by simp [wordBytes] at h ⊢; omega)
  | cons arg args ih =>
      simp only [List.length_cons] at h
      rw [writeArgv, ih (by omega), writeWord, writeBytes_of_lt_or_le (by simp [wordBytes]; omega)]

/-- The `i`-th entry of the array is the address of the `i`-th copy. -/
lemma loadWord_writeArgv {temp2 offset : ℕ} {args : List (List UInt8)} {i : ℕ}
    (hi : i < args.length) (hbound : temp2 + 4 * (args.length + 1) ≤ 2 ^ 32) :
    loadWord (writeArgv mem temp2 offset args) (temp2 + 4 * i) =
      some ((offset + argsSize (args.take i)) % 2 ^ 32) := by
  induction args generalizing mem temp2 offset i with
  | nil => simp at hi
  | cons arg args ih =>
      simp only [List.length_cons] at hi hbound
      cases i with
      | zero =>
          simp only [Nat.mul_zero, Nat.add_zero, List.take_zero, argsSize_nil]
          rw [writeArgv,
            loadWord_congr (by omega) fun j hj => writeArgv_of_lt_or_le (Or.inl (by omega)),
            loadWord_writeWord _ (by omega)]
      | succ i =>
          rw [writeArgv, List.take_succ_cons, argsSize_cons, ← Nat.add_assoc,
            show temp2 + 4 * (i + 1) = temp2 + 4 + 4 * i by omega]
          exact ih (by omega) (by omega)

/-- The array ends in NULL. -/
lemma loadWord_writeArgv_end {temp2 offset : ℕ} {args : List (List UInt8)}
    (hbound : temp2 + 4 * (args.length + 1) ≤ 2 ^ 32) :
    loadWord (writeArgv mem temp2 offset args) (temp2 + 4 * args.length) = some 0 := by
  induction args generalizing mem temp2 offset with
  | nil => simpa [writeArgv] using @loadWord_writeWord mem temp2 0 (by simpa using hbound)
  | cons arg args ih =>
      simp only [List.length_cons] at hbound ⊢
      rw [writeArgv, show temp2 + 4 * (args.length + 1) = temp2 + 4 + 4 * args.length by omega]
      exact ih (by omega)

lemma argsSize_take_le (args : List (List UInt8)) (i : ℕ) : argsSize (args.take i) ≤ argsSize args := by
  have h : argsSize (args.take i ++ args.drop i) = argsSize (args.take i) + argsSize (args.drop i) := by
    simp [argsSize]
  rw [List.take_append_drop] at h
  omega

lemma length_le_argsSize (args : List (List UInt8)) : args.length ≤ argsSize args := by
  induction args with
  | nil => rfl
  | cons arg args ih =>
      simp only [List.length_cons, argsSize_cons, argLength]
      omega

/-- Arguments that fit below `PHYS_BASE` read back from the stack `execute_thread` builds. -/
theorem setupArgs_decodes (mem : UserMem) (args : List (List UInt8))
    (hsize : argsSize args + 4 * args.length + 24 ≤ physBase) :
    StackDecodes mem (setupArgs mem args).1 (setupArgs mem args).2 args := by
  -- the layout from `PHYS_BASE` down: the copies, the padding, the array, `argv` and `argc`
  set k := args.length with hk
  set sum := argsSize args with hsum
  set asa := physBase - sum with hasa
  set pad := 4 - sum % 4 with hpad
  set wa := asa - pad with hwa
  set argvs := wa - 4 * (k + 1) with hargvs
  set m₁ := copyArgs mem asa args
  set m₂ := writeBytes m₁ wa (List.replicate pad 0)
  set m₃ := writeArgv m₂ argvs asa args
  set m₄ := writeWord m₃ (argvs - 4) argvs
  set m₅ := writeWord m₄ (argvs - 4 - 4) k
  have hsetup : setupArgs mem args = (m₅, argvs - 4 - 4 - 4) := rfl
  have hphys : physBase = 3221225472 := rfl
  -- each store leaves the bytes outside its own range alone
  have h₅ : ∀ x, x < argvs - 8 ∨ argvs - 4 ≤ x → m₅ x = m₄ x := fun x hx =>
    writeBytes_of_lt_or_le (by simp only [wordBytes, List.length_cons, List.length_nil]; omega)
  have h₄ : ∀ x, x < argvs - 4 ∨ argvs ≤ x → m₄ x = m₃ x := fun x hx =>
    writeBytes_of_lt_or_le (by simp only [wordBytes, List.length_cons, List.length_nil]; omega)
  have h₃ : ∀ x, x < argvs ∨ wa ≤ x → m₃ x = m₂ x := fun x hx =>
    writeArgv_of_lt_or_le (by omega)
  have h₂ : ∀ x, x < wa ∨ asa ≤ x → m₂ x = m₁ x := fun x hx =>
    writeBytes_of_lt_or_le (by rw [List.length_replicate]; omega)
  have h₁ : ∀ x, x < asa ∨ physBase ≤ x → m₁ x = mem x := fun x hx =>
    copyArgs_of_lt_or_le (by omega)
  -- above `argvs` only the array and the copies were stored
  have h₅₃ : ∀ x, argvs ≤ x → m₅ x = m₃ x := fun x hx =>
    (h₅ x (Or.inr (by omega))).trans (h₄ x (Or.inr hx))
  have h₅₁ : ∀ x, asa ≤ x → m₅ x = m₁ x := fun x hx =>
    (h₅₃ x (by omega)).trans ((h₃ x (Or.inr (by omega))).trans (h₂ x (Or.inr hx)))
  rw [hsetup]
  refine ⟨?_, ⟨argvs, ?_, by omega, fun i hi => ?_, ?_⟩, fun x hx => ?_⟩
  · rw [show argvs - 4 - 4 - 4 + 4 = argvs - 4 - 4 by omega, loadWord_writeWord _ (by omega),
      Nat.mod_eq_of_lt (by omega)]
  · rw [show argvs - 4 - 4 - 4 + 8 = argvs - 4 by omega,
      loadWord_congr (by omega) fun j hj => h₅ _ (Or.inr (by omega)),
      loadWord_writeWord _ (by omega), Nat.mod_eq_of_lt (by omega)]
  · -- the `i`-th entry points at the `i`-th copy
    have htake := argsSize_take_le args i
    refine ⟨asa + argsSize (args.take i), ?_, by omega, ?_⟩
    · rw [loadWord_congr (by omega) fun j hj => h₅₃ _ (by omega), loadWord_writeArgv hi (by omega),
        Nat.mod_eq_of_lt (by omega)]
    · rw [readBytes_congr fun j hj => h₅₁ _ (by omega)]
      exact readBytes_copyArgs hi
  · rw [loadWord_congr (by omega) fun j hj => h₅₃ _ (by omega), loadWord_writeArgv_end (by omega)]
  · -- below `argc` and from `PHYS_BASE` up nothing was stored
    dsimp only at hx ⊢
    rw [h₅ x (by omega), h₄ x (by omega), h₃ x (by omega), h₂ x (by omega), h₁ x (by omega)]

/-! ### The command line, end to end -/

/-- `process_execute` and `execute_thread` on a command line of fewer than `PGSIZE` bytes whose
tokens are `t :: ts`. `load` opens `t`, while `process_execute` opens and denies writes to the
empty name when the line starts with a space, and otherwise to `t` cut to 16 bytes. The tokens
are not empty and hold no space or NUL. The loop storing them stays inside `argv_temp` exactly
when there are at most 100 of them, and then the stack `execute_thread` builds reads back to
them. -/
theorem command_line_handling (cmdline : List UInt8) (mem : UserMem) {t : List UInt8}
    {ts : List (List UInt8)} (hlen : cmdline.length < pgSize) (htok : cmdTokens cmdline = t :: ts) :
    loadFileName cmdline = t ∧
      execFileName cmdline = (if cmdline.head? = some 32 then [] else t.take 16) ∧
      (∀ u ∈ t :: ts, u ≠ [] ∧ 32 ∉ u ∧ 0 ∉ u) ∧
      (executeThreadArgv cmdline = none ↔ argvTempSize < ts.length + 1) ∧
      (ts.length + 1 ≤ argvTempSize → executeThreadArgv cmdline = some (t :: ts) ∧
        StackDecodes mem (setupArgs mem (t :: ts)).1 (setupArgs mem (t :: ts)).2 (t :: ts)) := by
  -- the tokens come from the copy, which stops at the first NUL
  have htokens : ∀ u ∈ t :: ts, u ≠ [] ∧ 32 ∉ u ∧ 0 ∉ u := by
    intro u hu
    rw [← htok] at hu
    obtain ⟨hne, hsp, hmem⟩ := mem_strtokLoop hu
    refine ⟨hne, hsp, fun h0 => ?_⟩
    have := List.mem_takeWhile_imp (List.mem_of_mem_take (hmem 0 h0))
    simp at this
  -- and with their NULs fill at most the copy and its NUL, less than a page
  have hsize : argsSize (t :: ts) ≤ (cmdlineCopy cmdline).length + 1 := by
    rw [← htok]
    exact strtokLoop_size _ _
  have hcopy : (cmdlineCopy cmdline).length ≤ pgSize - 1 := List.length_take_le _ _
  have hargv := executeThreadArgv_eq cmdline
  rw [htok, List.length_cons] at hargv
  refine ⟨loadFileName_eq htok, execFileName_eq hlen htok, htokens, ?_, fun hfit => ⟨?_, ?_⟩⟩
  · rw [hargv]
    by_cases hfit : ts.length + 1 ≤ argvTempSize
    · simp only [if_pos hfit, reduceCtorEq, false_iff]
      omega
    · simp only [if_neg hfit, true_iff]
      omega
  · rw [hargv, if_pos hfit]
  · refine setupArgs_decodes mem _ ?_
    have := length_le_argsSize (t :: ts)
    unfold physBase
    unfold pgSize at hcopy
    omega

set_option maxRecDepth 20000 in
/-- Two command lines of fewer than `PGSIZE` bytes. On `" a"`, `process_execute` opens the empty
name while `load` opens `a`. On `"a "` repeated 101 times, the loop of `execute_thread` stores a
101st token past `argv_temp`. -/
theorem command_line_failures :
    execFileName [32, 97] = [] ∧ loadFileName [32, 97] = [97] ∧
      executeThreadArgv (List.replicate 101 [97, 32]).flatten = none := by
  obtain ⟨hload, hexec, -⟩ :=
    @command_line_handling [32, 97] (fun _ => none) [97] [] (by decide) (by decide)
  have hover := (@command_line_handling (List.replicate 101 [97, 32]).flatten (fun _ => none) [97]
    (List.replicate 100 [97]) (by decide) (by decide)).2.2.2.1
  exact ⟨by simpa using hexec, hload, hover.mpr (by decide)⟩

end TinyOs
