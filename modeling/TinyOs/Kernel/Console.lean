import TinyOs.Devices.Serial
import TinyOs.Libc.Stdio

/-!
The kernel console, `lib/kernel/console.c`. `vprintf`, `puts`, `putbuf` and `putchar` hand their
characters one at a time to `putchar_have_lock`, which passes each on to `serial_putc` and
`vga_putc`, between `acquire_console` and `release_console`. These take the console lock, so
that the output of calls from different threads does not mix. A thread that calls the console
again from inside a call, as a `printf` reached from the scheduler can, counts its calls in
`console_lock_depth` instead of taking the lock it holds. Interrupt handlers take no lock, and
after `console_panic` no one does.

The system is the lock, given by its holder, `use_console_lock`, `console_lock_depth`,
`write_cnt`, the characters still to write of each call a thread is in, innermost first, and the
characters `putchar_have_lock` passed on, each with who passed it. A thread passes on one
character a step, so the threads' steps interleave between characters; a call by an interrupt
handler runs to its end in one step. `lock_acquire` on a lock another thread holds blocks, and
the call's step is taken once the lock is free. The run starts at `console_init`, outside every
console call. An assertion that fails stops the kernel, and is `none`.

* `ConsoleInv`, `ConsoleInv.step`: while the lock is in use, a thread is in a console call
  exactly when it holds the lock, and the depth is the number of its calls but one;
* `console_asserts_hold`: the assertions of `putchar_have_lock` and `lock_release` never fail,
  and a thread's call waits only while another thread holds the lock;
* `console_output_not_mixed`: while a thread is in a console call, no other thread's character
  is passed on;
* `console_call_releases`: a thread in console calls that runs on passes on the rest of its
  calls, innermost first, and then has released the lock.
-/

namespace TinyOs

namespace Kernel

open Devices

/-- A call of the console: `vprintf (format, args)`, `puts (s)` with the bytes from `s` on,
`putbuf (buffer, n)` with the `n` bytes of `buffer`, and `putchar (c)`. -/
inductive ConsoleCall
  | vprintf (format : List UInt8) (args : List Libc.VaArg)
  | puts (s : List UInt8)
  | putbuf (buffer : List UInt8)
  | putchar (c : ℤ)

/-- The characters a call hands to `putchar_have_lock`: those `__vprintf` formats, through
`vprintf_helper`; the characters of `s` before its NUL, then a new-line; the bytes of the
buffer; `c` as an `uint8_t`. -/
def ConsoleCall.bytes : ConsoleCall → Option (List UInt8)
  | .vprintf format args => Libc.vprintf format args
  | .puts s => some (s.takeWhile (· != 0) ++ [10])
  | .putbuf buffer => some buffer
  | .putchar c => some [UInt8.ofNat (c % 256).toNat]

/-- The console. -/
structure Console (τ : Type) where
  lock : Option τ
  useLock : Bool
  depth : ℕ
  writeCnt : ℕ
  calls : τ → List (List UInt8)
  out : List (Caller τ × UInt8)

variable {τ : Type} [DecidableEq τ]

namespace Console

/-- `lock_acquire (&console_lock)` by `t`, which does not hold it: `t` takes the lock when it is
free. -/
def lockAcquire (s : Console τ) (t : τ) : Option (Console τ) :=
  if s.lock = none then some { s with lock := some t } else none

/-- `lock_release (&console_lock)` by `t`, which asserts that `t` holds it. -/
def lockRelease (s : Console τ) (t : τ) : Option (Console τ) :=
  if s.lock = some t then some { s with lock := none } else none

/-- `console_init ()`: the lock initialised, and in use from now on. -/
def consoleInit (s : Console τ) : Console τ := { s with lock := none, useLock := true }

/-- `console_panic ()`: no one takes the lock from now on. -/
def consolePanic (s : Console τ) : Console τ := { s with useLock := false }

/-- `acquire_console ()`: outside interrupt context and with the lock in use, the depth counted
up by the lock's holder, the lock taken by any other thread. -/
def acquireConsole (s : Console τ) : Caller τ → Option (Console τ)
  | .intr => some s
  | .thread t =>
    if s.useLock then
      if s.lock = some t then some { s with depth := s.depth + 1 } else s.lockAcquire t
    else some s

/-- `release_console ()`: outside interrupt context and with the lock in use, the depth counted
down while it is positive, the lock released when it is `0`. -/
def releaseConsole (s : Console τ) : Caller τ → Option (Console τ)
  | .intr => some s
  | .thread t =>
    if s.useLock then
      if 0 < s.depth then some { s with depth := s.depth - 1 } else s.lockRelease t
    else some s

/-- `console_locked_by_current_thread ()`. -/
def consoleLockedByCurrentThread (s : Console τ) : Caller τ → Bool
  | .intr => true
  | .thread t => !s.useLock || s.lock = some t

/-- `putchar_have_lock (c)`: it asserts `console_locked_by_current_thread ()`, counts the
character in `write_cnt`, and passes it on to `serial_putc` and `vga_putc`. -/
def putcharHaveLock (s : Console τ) (caller : Caller τ) (c : UInt8) : Option (Console τ) :=
  if s.consoleLockedByCurrentThread caller then
    some { s with writeCnt := s.writeCnt + 1, out := s.out ++ [(caller, c)] }
  else none

/-- The loop of a call over its characters: `putchar_have_lock` of each in turn. -/
def putLoop (s : Console τ) (caller : Caller τ) : List UInt8 → Option (Console τ)
  | [] => some s
  | c :: cs => (s.putcharHaveLock caller c).bind fun s => s.putLoop caller cs

/-- Thread `t` calls the console: `acquire_console`, and the call's characters are then its
innermost call's. -/
def callThread (s : Console τ) (t : τ) (call : ConsoleCall) : Option (Console τ) := do
  let bytes ← call.bytes
  let s ← s.acquireConsole (.thread t)
  some { s with calls := Function.update s.calls t (bytes :: s.calls t) }

/-- Thread `t` passes on the next character of its innermost call. -/
def putThread (s : Console τ) (t : τ) : Option (Console τ) :=
  match s.calls t with
  | (c :: rest) :: outer =>
    (s.putcharHaveLock (.thread t) c).map fun s =>
      { s with calls := Function.update s.calls t (rest :: outer) }
  | _ => none

/-- Thread `t` ends its innermost call, every character of which is passed on:
`release_console`. -/
def finishThread (s : Console τ) (t : τ) : Option (Console τ) :=
  match s.calls t with
  | [] :: outer =>
    (s.releaseConsole (.thread t)).map fun s => { s with calls := Function.update s.calls t outer }
  | _ => none

/-- A call of an interrupt handler, from `acquire_console` to `release_console`. -/
def callIntr (s : Console τ) (call : ConsoleCall) : Option (Console τ) := do
  let bytes ← call.bytes
  let s ← s.acquireConsole .intr
  let s ← s.putLoop .intr bytes
  s.releaseConsole .intr

end Console

/-- A step of the console: a thread starts a call, passes on a character, or ends its innermost
call; an interrupt handler makes a call; the kernel panics. -/
inductive ConsoleEvent (τ : Type)
  | call (t : τ) (call : ConsoleCall)
  | put (t : τ)
  | finish (t : τ)
  | intr (call : ConsoleCall)
  | panic

/-- One step. -/
def Console.consoleStep (s : Console τ) : ConsoleEvent τ → Option (Console τ)
  | .call t call => s.callThread t call
  | .put t => s.putThread t
  | .finish t => s.finishThread t
  | .intr call => s.callIntr call
  | .panic => some s.consolePanic

/-- The steps in turn. -/
def consoleRun (s : Console τ) : List (ConsoleEvent τ) → Option (Console τ)
  | [] => some s
  | e :: es => (s.consoleStep e).bind fun s => consoleRun s es

/-- The console after `console_init` at boot: no thread in a console call, the depth `0`, and
`n` characters written before. -/
def consoleStart (n : ℕ) : Console τ :=
  Console.consoleInit ⟨none, false, 0, n, fun _ => [], []⟩

/-- The states of the console from `console_init` on. -/
inductive ConsoleReachable : Console τ → Prop
  | init (n : ℕ) : ConsoleReachable (consoleStart n)
  | step {s s' : Console τ} (e : ConsoleEvent τ) :
      ConsoleReachable s → s.consoleStep e = some s' → ConsoleReachable s'

lemma consoleRun_append (s : Console τ) (es es' : List (ConsoleEvent τ)) :
    consoleRun s (es ++ es') = (consoleRun s es).bind fun s => consoleRun s es' := by
  induction es generalizing s with
  | nil => rfl
  | cons e es ih =>
    simp only [List.cons_append, consoleRun, Option.bind_assoc]
    congr 1
    funext s₁
    exact ih s₁

lemma ConsoleReachable.run {s s' : Console τ} (h : ConsoleReachable s) :
    ∀ {es : List (ConsoleEvent τ)}, consoleRun s es = some s' → ConsoleReachable s'
  | [], hr => by
      rw [consoleRun, Option.some.injEq] at hr
      exact hr ▸ h
  | e :: es, hr => by
      obtain ⟨s₁, h₁, hr⟩ := Option.bind_eq_some_iff.mp hr
      exact (h.step e h₁).run hr

/-! ### What a step can do -/

namespace Console

variable {s s' : Console τ} {t : τ}

/-- What a thread's call can do: with the lock in use, the holder counts the depth up and a
thread finds the lock free and takes it; without, nothing but the call's characters. -/
lemma callThread_eq_some {call : ConsoleCall} (h : s.callThread t call = some s') :
    ∃ bytes, call.bytes = some bytes ∧
      ((s.useLock = true ∧ s.lock = some t ∧ s' =
          { s with
            depth := s.depth + 1
            calls := Function.update s.calls t (bytes :: s.calls t) }) ∨
        (s.useLock = true ∧ s.lock = none ∧ s' =
          { s with
            lock := some t
            calls := Function.update s.calls t (bytes :: s.calls t) }) ∨
        (s.useLock = false ∧
          s' = { s with calls := Function.update s.calls t (bytes :: s.calls t) })) := by
  obtain ⟨bytes, hb, h⟩ := Option.bind_eq_some_iff.mp h
  obtain ⟨s₁, h₁, h⟩ := Option.bind_eq_some_iff.mp h
  refine ⟨bytes, hb, ?_⟩
  cases Option.some.inj h
  simp only [acquireConsole, lockAcquire] at h₁
  split_ifs at h₁ with hl hlock hfree <;> cases h₁
  · exact .inl ⟨hl, hlock, rfl⟩
  · exact .inr (.inl ⟨hl, hfree, rfl⟩)
  · exact .inr (.inr ⟨by simpa using hl, rfl⟩)

/-- What passing on a character can do: the thread has one left in its innermost call, and
holds the lock if it is in use. -/
lemma putThread_eq_some (h : s.putThread t = some s') :
    ∃ c rest outer, s.calls t = (c :: rest) :: outer ∧ (s.useLock = true → s.lock = some t) ∧
      s' =
        { s with
          writeCnt := s.writeCnt + 1
          out := s.out ++ [(.thread t, c)]
          calls := Function.update s.calls t (rest :: outer) } := by
  unfold putThread at h
  split at h
  · rename_i c rest outer hcalls
    obtain ⟨s₁, h₁, rfl⟩ := Option.map_eq_some_iff.mp h
    rw [putcharHaveLock] at h₁
    split_ifs at h₁ with hlocked
    cases h₁
    refine ⟨c, rest, outer, hcalls, fun hl => ?_, rfl⟩
    simpa [consoleLockedByCurrentThread, hl] using hlocked
  · cases h

/-- What ending the innermost call can do: with the lock in use, count the depth down while it is
positive and release the lock, which the thread holds, when it is `0`. -/
lemma finishThread_eq_some (h : s.finishThread t = some s') :
    ∃ outer, s.calls t = [] :: outer ∧
      ((s.useLock = true ∧ 0 < s.depth ∧
          s' = { s with depth := s.depth - 1, calls := Function.update s.calls t outer }) ∨
        (s.useLock = true ∧ s.depth = 0 ∧ s.lock = some t ∧
          s' = { s with lock := none, calls := Function.update s.calls t outer }) ∨
        (s.useLock = false ∧ s' = { s with calls := Function.update s.calls t outer })) := by
  unfold finishThread at h
  split at h
  · rename_i outer hcalls
    obtain ⟨s₁, h₁, rfl⟩ := Option.map_eq_some_iff.mp h
    refine ⟨outer, hcalls, ?_⟩
    simp only [releaseConsole, lockRelease] at h₁
    split_ifs at h₁ with hl hd hlock <;> cases h₁
    · exact .inl ⟨hl, hd, rfl⟩
    · exact .inr (.inl ⟨hl, by omega, hlock, rfl⟩)
    · exact .inr (.inr ⟨by simpa using hl, rfl⟩)
  · cases h

/-- An interrupt handler's loop passes on every character, whatever the lock. -/
lemma putLoop_intr (s : Console τ) (bytes : List UInt8) :
    s.putLoop .intr bytes = some
      { s with
        writeCnt := s.writeCnt + bytes.length
        out := s.out ++ bytes.map fun c => (.intr, c) } := by
  induction bytes generalizing s with
  | nil => simp [putLoop]
  | cons c bytes ih =>
    simp only [putLoop, putcharHaveLock, consoleLockedByCurrentThread, if_true, Option.bind_some,
      ih, List.length_cons, List.map_cons, List.append_assoc, List.cons_append, List.nil_append]
    congr 2
    omega

/-- What an interrupt handler's call can do: pass on its characters. -/
lemma callIntr_eq_some {call : ConsoleCall} (h : s.callIntr call = some s') :
    ∃ bytes, call.bytes = some bytes ∧
      s' =
        { s with
          writeCnt := s.writeCnt + bytes.length
          out := s.out ++ bytes.map fun c => (.intr, c) } := by
  obtain ⟨bytes, hb, h⟩ := Option.bind_eq_some_iff.mp h
  simp only [acquireConsole, putLoop_intr, releaseConsole] at h
  exact ⟨bytes, hb, (Option.some.inj h).symm⟩

/-- A thread with a character left in its innermost call passes it on when it holds the lock,
or the lock is not in use. -/
lemma putThread_of_holds {c : UInt8} {rest : List UInt8} {outer : List (List UInt8)}
    (hcalls : s.calls t = (c :: rest) :: outer) (hlock : s.useLock = true → s.lock = some t) :
    s.putThread t = some
      { s with
        writeCnt := s.writeCnt + 1
        out := s.out ++ [(.thread t, c)]
        calls := Function.update s.calls t (rest :: outer) } := by
  have hlocked : s.consoleLockedByCurrentThread (.thread t) = true := by
    cases hl : s.useLock
    · simp [consoleLockedByCurrentThread, hl]
    · simp [consoleLockedByCurrentThread, hlock hl]
  simp only [putThread, hcalls, putcharHaveLock, hlocked, if_true, Option.map_some]

/-- A thread ends an inner call by counting the depth down. -/
lemma finishThread_of_depth {outer : List (List UInt8)} (hcalls : s.calls t = [] :: outer)
    (hl : s.useLock = true) (hd : 0 < s.depth) :
    s.finishThread t = some
      { s with depth := s.depth - 1, calls := Function.update s.calls t outer } := by
  simp only [finishThread, hcalls, releaseConsole, hl, hd, if_true, Option.map_some]

/-- A thread ends its outermost call by releasing the lock it holds. -/
lemma finishThread_of_release {outer : List (List UInt8)} (hcalls : s.calls t = [] :: outer)
    (hl : s.useLock = true) (hd : s.depth = 0) (hlock : s.lock = some t) :
    s.finishThread t = some
      { s with lock := none, calls := Function.update s.calls t outer } := by
  simp only [finishThread, hcalls, releaseConsole, hl, hd, lt_self_iff_false, if_true, if_false,
    lockRelease, hlock, Option.map_some]

end Console

/-! ### The lock accounts for the calls -/

/-- How the lock accounts for the calls: a thread is in a console call exactly when it holds the
lock, the depth is the number of its calls but one, and it is `0` while the lock is free. -/
structure LockAccount (s : Console τ) : Prop where
  held : ∀ t, s.lock = some t ↔ s.calls t ≠ []
  depth : ∀ t, s.lock = some t → s.depth + 1 = (s.calls t).length
  free : s.lock = none → s.depth = 0

/-- While the lock is in use, it accounts for the calls. -/
def ConsoleInv (s : Console τ) : Prop := s.useLock = true → LockAccount s

namespace LockAccount

variable {s : Console τ} {t : τ}

omit [DecidableEq τ] in
/-- At most one thread is in a console call. -/
lemma unique (h : LockAccount s) {u : τ} (ht : s.calls t ≠ []) (hu : s.calls u ≠ []) : t = u :=
  Option.some.inj (((h.held t).mpr ht).symm.trans ((h.held u).mpr hu))

/-- A thread in no console call that finds the lock free takes it for its call. -/
lemma take (h : LockAccount s) (hfree : s.lock = none) (bytes : List UInt8) :
    LockAccount
      { s with
        lock := some t
        calls := Function.update s.calls t (bytes :: s.calls t) } := by
  have hnone : ∀ u, s.calls u = [] := fun u => by
    by_contra hu
    have hheld := (h.held u).mpr hu
    rw [hfree] at hheld
    cases hheld
  refine ⟨fun u => ?_, fun u hu => ?_, fun hl => by cases hl⟩
  · rcases eq_or_ne u t with rfl | hne
    · simp
    · simp [Function.update_of_ne hne, hnone u, Ne.symm hne]
  · cases Option.some.inj hu
    simp [hnone t, h.free hfree]

/-- The holder's call from inside a call counts the depth up. -/
lemma nest (h : LockAccount s) (hlock : s.lock = some t) (bytes : List UInt8) :
    LockAccount
      { s with
        depth := s.depth + 1
        calls := Function.update s.calls t (bytes :: s.calls t) } := by
  refine ⟨fun u => ?_, fun u hu => ?_, fun hl => by simp [hlock] at hl⟩
  · rcases eq_or_ne u t with rfl | hne
    · simp [hlock]
    · simp only [Function.update_of_ne hne]
      exact h.held u
  · cases hlock.symm.trans hu
    simp [h.depth t hlock]

/-- Passing on a character keeps the number of calls. -/
lemma put (h : LockAccount s) {c : UInt8} {rest : List UInt8} {outer : List (List UInt8)} {x : Caller τ × UInt8}
    (hcalls : s.calls t = (c :: rest) :: outer) :
    LockAccount
      { s with
        writeCnt := s.writeCnt + 1
        out := s.out ++ [x]
        calls := Function.update s.calls t (rest :: outer) } := by
  refine ⟨fun u => ?_, fun u hu => ?_, h.free⟩
  · rcases eq_or_ne u t with rfl | hne
    · simp only [Function.update_self, ne_eq, reduceCtorEq, not_false_eq_true, iff_true]
      exact (h.held u).mpr (by simp [hcalls])
    · simp only [Function.update_of_ne hne]
      exact h.held u
  · have hd := h.depth u hu
    rcases eq_or_ne u t with rfl | hne
    · simpa [hcalls] using hd
    · simpa [Function.update_of_ne hne] using hd

/-- Ending an inner call counts the depth down. -/
lemma unnest (h : LockAccount s) {outer : List (List UInt8)} (hcalls : s.calls t = [] :: outer)
    (hd : 0 < s.depth) :
    LockAccount { s with depth := s.depth - 1, calls := Function.update s.calls t outer } := by
  have hlock : s.lock = some t := (h.held t).mpr (by simp [hcalls])
  have hlen : s.depth = outer.length := by simpa [hcalls] using h.depth t hlock
  have houter : outer ≠ [] := by
    rintro rfl
    simp at hlen
    omega
  refine ⟨fun u => ?_, fun u hu => ?_, fun hl => by simp [hlock] at hl⟩
  · rcases eq_or_ne u t with rfl | hne
    · simpa [hlock] using houter
    · simp only [Function.update_of_ne hne]
      exact h.held u
  · cases hlock.symm.trans hu
    simp only [Function.update_self]
    omega

/-- Ending the outermost call releases the lock. -/
lemma release (h : LockAccount s) {outer : List (List UInt8)} (hcalls : s.calls t = [] :: outer)
    (hd : s.depth = 0) :
    LockAccount { s with lock := none, calls := Function.update s.calls t outer } := by
  have hlock : s.lock = some t := (h.held t).mpr (by simp [hcalls])
  have houter : outer = [] := by
    have := h.depth t hlock
    rw [hcalls, hd] at this
    simpa using this.symm
  have hothers : ∀ u, u ≠ t → s.calls u = [] := fun u hne => by
    by_contra hu
    exact hne (h.unique hu (by simp [hcalls]))
  refine ⟨fun u => ?_, fun u hu => (by cases hu), fun _ => hd⟩
  rcases eq_or_ne u t with rfl | hne
  · simp [houter]
  · simp [Function.update_of_ne hne, hothers u hne]

end LockAccount

namespace ConsoleInv

variable {s s' : Console τ}

omit [DecidableEq τ] in
lemma consoleStart (n : ℕ) : ConsoleInv (consoleStart n : Console τ) := by
  intro _
  refine ⟨fun t => ?_, fun t h => ?_, fun _ => rfl⟩
  · simp [Kernel.consoleStart, Console.consoleInit]
  · simp [Kernel.consoleStart, Console.consoleInit] at h

/-- Every step keeps the lock accounting for the calls. -/
lemma step (h : ConsoleInv s) {e : ConsoleEvent τ} (hs : s.consoleStep e = some s') :
    ConsoleInv s' := by
  cases e with
  | call t call =>
    obtain ⟨bytes, -, ⟨hl, hlock, rfl⟩ | ⟨hl, hfree, rfl⟩ | ⟨hl, rfl⟩⟩ :=
      Console.callThread_eq_some hs
    · exact fun _ => (h hl).nest hlock bytes
    · exact fun _ => (h hl).take hfree bytes
    · intro hl'
      simp [hl] at hl'
  | put t =>
    obtain ⟨c, rest, outer, hcalls, -, rfl⟩ := Console.putThread_eq_some hs
    exact fun hl => (h hl).put hcalls
  | finish t =>
    obtain ⟨outer, hcalls, ⟨hl, hd, rfl⟩ | ⟨hl, hd, -, rfl⟩ | ⟨hl, rfl⟩⟩ :=
      Console.finishThread_eq_some hs
    · exact fun _ => (h hl).unnest hcalls hd
    · exact fun _ => (h hl).release hcalls hd
    · intro hl'
      simp [hl] at hl'
  | intr call =>
    obtain ⟨bytes, -, rfl⟩ := Console.callIntr_eq_some hs
    intro hl
    have h' := h hl
    exact ⟨h'.held, h'.depth, h'.free⟩
  | panic =>
    cases Option.some.inj hs
    intro hl
    simp [Console.consolePanic] at hl

end ConsoleInv

lemma ConsoleReachable.inv {s : Console τ} (h : ConsoleReachable s) : ConsoleInv s := by
  induction h with
  | init n => exact ConsoleInv.consoleStart n
  | step e _ hs ih => exact ih.step hs

/-! ### The assertions hold -/

namespace ConsoleInv

variable {s s' : Console τ} {t : τ}

omit [DecidableEq τ] in
/-- A thread in a console call holds the lock, if it is in use. -/
lemma holds (h : ConsoleInv s) (ht : s.calls t ≠ []) : s.useLock = true → s.lock = some t :=
  fun hl => ((h hl).held t).mpr ht

lemma putThread_isSome (h : ConsoleInv s) {c : UInt8} {rest : List UInt8}
    {outer : List (List UInt8)} (hcalls : s.calls t = (c :: rest) :: outer) :
    (s.putThread t).isSome := by
  rw [Console.putThread_of_holds hcalls (h.holds (by simp [hcalls]))]
  rfl

lemma finishThread_isSome (h : ConsoleInv s) {outer : List (List UInt8)}
    (hcalls : s.calls t = [] :: outer) : (s.finishThread t).isSome := by
  cases hl : s.useLock
  · rw [Console.finishThread, hcalls, Console.releaseConsole, if_neg (by simp [hl])]
    rfl
  · rcases Nat.eq_zero_or_pos s.depth with hd | hd
    · rw [Console.finishThread_of_release hcalls hl hd (h.holds (by simp [hcalls]) hl)]
      rfl
    · rw [Console.finishThread_of_depth hcalls hl hd]
      rfl

omit [DecidableEq τ] in
lemma callThread_isSome_or (s : Console τ) [DecidableEq τ] {call : ConsoleCall}
    {bytes : List UInt8} (hb : call.bytes = some bytes) :
    (s.callThread t call).isSome ∨ (s.useLock = true ∧ ∃ u, u ≠ t ∧ s.lock = some u) := by
  simp only [Console.callThread, hb, Console.acquireConsole,
    Console.lockAcquire]
  split_ifs with hl hlock hfree
  · exact .inl rfl
  · exact .inl rfl
  · obtain ⟨u, hu⟩ := Option.ne_none_iff_exists'.mp hfree
    exact .inr ⟨hl, u, fun hut => hlock (hut ▸ hu), hu⟩
  · exact .inl rfl

end ConsoleInv

/-- **The console's assertions never fail.** In every state the console reaches, a thread
passes on the next character of its innermost call without failing the assertion of
`putchar_have_lock`, ends a call whose characters are all passed on without failing the
assertion of `lock_release`, and its call of the console is taken unless the lock is in use and
another thread holds it. -/
theorem console_asserts_hold {s : Console τ} (h : ConsoleReachable s) (t : τ) :
    (∀ c rest outer, s.calls t = (c :: rest) :: outer → (s.putThread t).isSome) ∧
    (∀ outer, s.calls t = [] :: outer → (s.finishThread t).isSome) ∧
    (∀ call bytes, call.bytes = some bytes →
      (s.callThread t call).isSome ∨ (s.useLock = true ∧ ∃ u, u ≠ t ∧ s.lock = some u)) :=
  ⟨fun _ _ _ hcalls => h.inv.putThread_isSome hcalls,
    fun _ hcalls => h.inv.finishThread_isSome hcalls,
    fun _ _ hb => ConsoleInv.callThread_isSome_or s hb⟩

/-- Thread `1` in a call nested in another. -/
theorem console_asserts_hold_nested :
    ∃ s, consoleRun (consoleStart 0 : Console ℕ)
        [.call 1 (.putbuf [72, 105]), .put 1, .call 1 (.putchar 33)] = some s ∧
      (∀ c rest outer, s.calls 1 = (c :: rest) :: outer → (s.putThread 1).isSome) ∧
      (∀ outer, s.calls 1 = [] :: outer → (s.finishThread 1).isSome) ∧
      (∀ call bytes, call.bytes = some bytes →
        (s.callThread 1 call).isSome ∨ (s.useLock = true ∧ ∃ u, u ≠ 1 ∧ s.lock = some u)) := by
  have hrun : (consoleRun (consoleStart 0 : Console ℕ)
      [.call 1 (.putbuf [72, 105]), .put 1, .call 1 (.putchar 33)]).isSome := by decide
  obtain ⟨s, hs⟩ := Option.isSome_iff_exists.mp hrun
  exact ⟨s, hs, console_asserts_hold ((ConsoleReachable.init 0).run hs) 1⟩

/-! ### The output of a call does not mix with other threads' -/

namespace ConsoleInv

variable {s s' : Console τ} {t : τ}

/-- While thread `t` is in a call with the lock in use, a step passes on only `t`'s characters
and interrupt handlers'. -/
lemma out_of_step (h : ConsoleInv s) (hl : s.useLock = true) (ht : s.calls t ≠ [])
    {e : ConsoleEvent τ} (hs : s.consoleStep e = some s') :
    ∃ new, s'.out = s.out ++ new ∧ ∀ x ∈ new, x.1 = .thread t ∨ x.1 = .intr := by
  cases e with
  | call u call =>
    obtain ⟨bytes, -, ⟨-, -, rfl⟩ | ⟨-, -, rfl⟩ | ⟨-, rfl⟩⟩ := Console.callThread_eq_some hs <;>
      exact ⟨[], (List.append_nil _).symm, by simp⟩
  | put u =>
    obtain ⟨c, rest, outer, hcalls, hlock, rfl⟩ := Console.putThread_eq_some hs
    -- the lock is `t`'s, so the thread that passes on a character is `t`
    have hut : u = t := Option.some.inj ((hlock hl).symm.trans (h.holds ht hl))
    exact ⟨[(.thread u, c)], rfl, by simp [hut]⟩
  | finish u =>
    obtain ⟨outer, -, ⟨-, -, rfl⟩ | ⟨-, -, -, rfl⟩ | ⟨-, rfl⟩⟩ := Console.finishThread_eq_some hs <;>
      exact ⟨[], (List.append_nil _).symm, by simp⟩
  | intr call =>
    obtain ⟨bytes, -, rfl⟩ := Console.callIntr_eq_some hs
    exact ⟨_, rfl, by simp⟩
  | panic =>
    cases Option.some.inj hs
    exact ⟨[], (List.append_nil _).symm, by simp⟩

end ConsoleInv

/-- **The output of a console call does not mix.** Along every run from a state the console
reaches, during which thread `t` stays in a console call and the lock stays in use, every
character passed on is `t`'s or an interrupt handler's. The induction is on the run. -/
theorem console_output_not_mixed {s s' : Console τ} {t : τ} {es : List (ConsoleEvent τ)}
    (h : ConsoleReachable s) (hrun : consoleRun s es = some s')
    (hin : ∀ k s₁, consoleRun s (es.take k) = some s₁ → s₁.useLock = true ∧ s₁.calls t ≠ []) :
    ∃ new, s'.out = s.out ++ new ∧ ∀ x ∈ new, x.1 = .thread t ∨ x.1 = .intr := by
  induction es generalizing s with
  | nil =>
    cases Option.some.inj hrun
    exact ⟨[], (List.append_nil _).symm, by simp⟩
  | cons e es ih =>
    obtain ⟨s₁, h₁, hrun⟩ := Option.bind_eq_some_iff.mp hrun
    obtain ⟨hl, ht⟩ := hin 0 s rfl
    obtain ⟨new₁, hout₁, hnew₁⟩ := h.inv.out_of_step hl ht h₁
    have hin₁ : ∀ k s₂, consoleRun s₁ (es.take k) = some s₂ →
        s₂.useLock = true ∧ s₂.calls t ≠ [] := fun k s₂ hs₂ =>
      hin (k + 1) s₂ (by rw [List.take_succ_cons, consoleRun, h₁, Option.bind_some, hs₂])
    obtain ⟨new₂, hout₂, hnew₂⟩ := ih (h.step e h₁) hrun hin₁
    refine ⟨new₁ ++ new₂, by rw [hout₂, hout₁, List.append_assoc], fun x hx => ?_⟩
    rcases List.mem_append.mp hx with hx | hx
    · exact hnew₁ x hx
    · exact hnew₂ x hx

/-- Thread `1` in a call, while an interrupt handler prints and the thread goes on. -/
theorem console_output_not_mixed_intr :
    ∃ s s', consoleRun (consoleStart 0 : Console ℕ) [.call 1 (.putbuf [72, 105])] = some s ∧
      consoleRun s [.intr (.putchar 33), .put 1] = some s' ∧
      ∃ new, s'.out = s.out ++ new ∧ ∀ x ∈ new, x.1 = .thread 1 ∨ x.1 = .intr := by
  -- every prefix of the run, from boot, leaves thread `1` in its call with the lock in use
  have hall : ∀ k, (consoleRun (consoleStart 0 : Console ℕ) ([.call 1 (.putbuf [72, 105])] ++
      ([.intr (.putchar 33), .put 1] : List (ConsoleEvent ℕ)).take k)).map
        (fun s => decide (s.useLock = true ∧ s.calls 1 ≠ [])) = some true := by
    intro k
    rcases k with _ | _ | k
    · decide
    · decide
    · rw [List.take_of_length_le (by simp)]
      decide
  have hrun : (consoleRun (consoleStart 0 : Console ℕ) [.call 1 (.putbuf [72, 105])]).isSome := by
    decide
  obtain ⟨s, hs⟩ := Option.isSome_iff_exists.mp hrun
  have hsteps : ∀ k, (consoleRun s (([.intr (.putchar 33), .put 1] : List (ConsoleEvent ℕ)).take k)).map
      (fun s => decide (s.useLock = true ∧ s.calls 1 ≠ [])) = some true := fun k => by
    rw [← hall k, consoleRun_append, hs, Option.bind_some]
  obtain ⟨s', hs', -⟩ := Option.map_eq_some_iff.mp (hsteps 2)
  rw [List.take_of_length_le (by simp)] at hs'
  refine ⟨s, s', hs, hs', console_output_not_mixed ((ConsoleReachable.init 0).run hs) hs'
    fun k s₁ hs₁ => ?_⟩
  have := hsteps k
  rw [hs₁, Option.map_some, Option.some.injEq] at this
  simpa using this

/-! ### A call ends by releasing the lock -/

/-- The steps by which thread `t` ends the calls it is in: a `put` for each character left and a
`finish` for each call, innermost first. -/
def drainEvents (t : τ) (calls : List (List UInt8)) : List (ConsoleEvent τ) :=
  calls.flatMap fun bytes => bytes.map (fun _ => .put t) ++ [.finish t]

namespace Console

variable {t : τ}

/-- With the lock in use and held by `t`, the thread passes on every character left in its
innermost call. The induction is on those characters. -/
lemma run_puts {bytes : List UInt8} {outer : List (List UInt8)} :
    ∀ {s : Console τ}, s.useLock = true → s.lock = some t → s.calls t = bytes :: outer →
    ∃ s', consoleRun s (bytes.map fun _ => .put t) = some s' ∧ s'.calls t = [] :: outer ∧
      s'.lock = s.lock ∧ s'.depth = s.depth ∧ s'.useLock = s.useLock ∧
      s'.out = s.out ++ bytes.map fun c => (.thread t, c) := by
  induction bytes with
  | nil => exact fun _ _ hcalls => ⟨_, rfl, hcalls, rfl, rfl, rfl, by simp⟩
  | cons c bytes ih =>
    intro s hl hlock hcalls
    have hput := putThread_of_holds hcalls fun _ => hlock
    obtain ⟨s', hrun, hcalls', hlock', hd', hl', hout'⟩ := ih (s := { s with
        writeCnt := s.writeCnt + 1
        out := s.out ++ [(.thread t, c)]
        calls := Function.update s.calls t (bytes :: outer) }) hl hlock (by simp)
    refine ⟨s', ?_, hcalls', hlock', hd', hl', by simp [hout']⟩
    rw [List.map_cons, consoleRun, consoleStep, hput, Option.bind_some, hrun]

/-- A thread that holds the lock, with the depth the number of its calls but one, passes on the
rest of its calls, innermost first, and releases the lock. The induction is on its calls. -/
lemma run_drain : ∀ (cs : List (List UInt8)) {s : Console τ}, s.useLock = true →
    s.lock = some t → s.calls t = cs → s.depth + 1 = cs.length →
    ∃ s', consoleRun s (drainEvents t cs) = some s' ∧ s'.calls t = [] ∧ s'.lock = none ∧
      s'.out = s.out ++ cs.flatten.map fun c => (.thread t, c)
  | [], _, _, _, _, hd => by simp at hd
  | bytes :: outer, s, hl, hlock, hcalls, hd => by
    obtain ⟨s₁, hrun₁, hcalls₁, hlock₁, hd₁, hl₁, hout₁⟩ := run_puts hl hlock hcalls
    have hevents : drainEvents t (bytes :: outer) =
        bytes.map (fun _ => .put t) ++ ([.finish t] ++ drainEvents t outer) := by
      simp [drainEvents]
    rw [hevents, consoleRun_append, hrun₁, Option.bind_some]
    by_cases houter : outer = []
    · -- the outermost call: the depth is `0`, and the lock is released
      subst houter
      have hfin := finishThread_of_release hcalls₁ (hl₁.trans hl) (by simp at hd; omega)
        (hlock₁.trans hlock)
      refine ⟨_, by rw [drainEvents, List.flatMap_nil, List.append_nil, consoleRun, consoleStep,
        hfin, Option.bind_some, consoleRun], by simp, rfl, by simp [hout₁]⟩
    · -- an inner call: the depth is counted down and the calls around it go on
      have hpos : 0 < s₁.depth := by
        rw [hd₁]
        have := List.length_pos_of_ne_nil houter
        simp at hd
        omega
      have hfin := finishThread_of_depth hcalls₁ (hl₁.trans hl) hpos
      obtain ⟨s', hrun', hcalls', hlock', hout'⟩ := run_drain outer (s := { s₁ with
          depth := s₁.depth - 1
          calls := Function.update s₁.calls t outer }) (hl₁.trans hl) (hlock₁.trans hlock)
          (by simp) (by simp at hd ⊢; omega)
      refine ⟨s', ?_, hcalls', hlock', by simp [hout', hout₁]⟩
      rw [List.singleton_append, consoleRun, consoleStep, hfin, Option.bind_some, hrun']

end Console

/-- **A console call ends by releasing the lock.** From a state the console reaches with the lock
in use, a thread in console calls that runs on passes on the rest of its calls, innermost first,
without failing an assertion, and then is in no call and has released the lock: the nested calls
count the depth down and do not release the lock, and the outermost one releases it. -/
theorem console_call_releases {s : Console τ} {t : τ} (h : ConsoleReachable s)
    (hl : s.useLock = true) (ht : s.calls t ≠ []) :
    ∃ s', consoleRun s (drainEvents t (s.calls t)) = some s' ∧ s'.calls t = [] ∧
      s'.lock = none ∧ s'.out = s.out ++ (s.calls t).flatten.map fun c => (.thread t, c) := by
  have hacc := h.inv hl
  have hlock : s.lock = some t := (hacc.held t).mpr ht
  exact Console.run_drain (s.calls t) hl hlock rfl (hacc.depth t hlock)

/-- Thread `1` in a call nested in another, each with a character left. -/
theorem console_call_releases_nested :
    ∃ s s', consoleRun (consoleStart 0 : Console ℕ)
        [.call 1 (.putbuf [72, 105]), .put 1, .call 1 (.putchar 33)] = some s ∧
      consoleRun s (drainEvents 1 (s.calls 1)) = some s' ∧ s'.calls 1 = [] ∧ s'.lock = none ∧
      s'.out = s.out ++ (s.calls 1).flatten.map fun c => (.thread 1, c) := by
  have hview : (consoleRun (consoleStart 0 : Console ℕ)
      [.call 1 (.putbuf [72, 105]), .put 1, .call 1 (.putchar 33)]).map
        (fun s => (s.useLock, s.calls 1)) = some (true, [[33], [105]]) := by decide
  obtain ⟨s, hs, hv⟩ := Option.map_eq_some_iff.mp hview
  simp only [Prod.mk.injEq] at hv
  obtain ⟨s', h'⟩ := console_call_releases ((ConsoleReachable.init 0).run hs) hv.1
    (by rw [hv.2]; simp)
  exact ⟨s, s', hs, h'⟩

end Kernel

end TinyOs
