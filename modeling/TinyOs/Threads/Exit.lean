import TinyOs.Basic
import Mathlib.Data.List.Basic

/-!
The wait/exit protocol between a process and its children (`thread_exit` in
`threads/thread.c`, `process_wait` in `userprog/process.c`). A child is listed in its
parent's `children` by its `struct thread` while it runs; at exit it replaces that entry with a
`struct dead_thread` holding its exit code, under the parent's `children_lock`. A parent that
exits first clears the `parent` pointer of each running child under its own lock, and frees
the dead records left in its list.

The child reads `t->parent` three more times after deciding it has a parent: to name the lock
it acquires, to decide whether to leave a dead record, and to name the lock it releases. A
parent that exits while the child waits for that lock clears the pointer in between, and the
child then releases `&((struct thread *) NULL)->children_lock`, keeping the parent's lock.

* `ExitState`, `threadStep`, `exitStep`, `exitRun`: the threads' steps between lock
  operations, in any interleaving;
* `threadStep_exitPush`: the dead record a child leaves carries its exit code;
* `threadStep_release_parent`: the lock a child releases is named by its `parent` pointer at
  the time of the release;
* `exit_keeps_parent_lock`: a run in which the child acquires its parent's lock and is left
  to release another.
-/

namespace TinyOs

/-- An entry of a thread's `children` list: a running child's `struct thread`, or the
`struct dead_thread` an exited child left, with its exit code. -/
inductive ChildEntry where
  | live (tid : Tid)
  | dead (tid : Tid) (exitCode : ℤ)
  deriving DecidableEq, Repr

/-- `d->tid`, which a running child's `struct thread` shares with a dead record. -/
def ChildEntry.tid : ChildEntry → Tid
  | .live t => t
  | .dead t _ => t

/-- A `children_lock`: the one of a thread, or the address `&t->parent->children_lock` names
when `t->parent` is NULL (`none`). -/
abbrev LockRef := Option Tid

/-- A lock operation, as the thread that makes it names its lock. -/
inductive LockOp where
  | acquire (l : LockRef)
  | release (l : LockRef)
  deriving DecidableEq, Repr

/-- Where a thread is in `process_wait` and `thread_exit`, between their lock operations and
the reads of `t->parent` they depend on. -/
inductive ExitPc where
  /-- Running, in neither function. -/
  | idle
  /-- `process_wait (child)`: `lock_acquire (&t->children_lock)`. -/
  | waitLock (child : Tid)
  /-- Holding its own lock: looks `child` up, then releases. -/
  | waitScan (child : Tid)
  /-- `thread_exit`: `lock_acquire (&t->children_lock)`. -/
  | exitLockOwn
  /-- Holding its own lock: tells its children it is dead, then releases. -/
  | exitNotify
  /-- `if (t->parent != NULL)`. -/
  | exitCheckParent
  /-- Evaluates `&t->parent->children_lock` for `lock_acquire`. -/
  | exitLockParent
  /-- Inside `lock_acquire (l)` until `l` is free. -/
  | exitBlocked (l : LockRef)
  /-- Holding the lock: `if (t->parent != NULL)` leaves a dead record. -/
  | exitPush
  /-- `lock_release (&t->parent->children_lock)`. -/
  | exitReleaseParent
  /-- Past the protocol: the thread goes on to be destroyed. -/
  | exitFinish
  deriving DecidableEq, Repr

/-- The state of the protocol: each thread's `parent`, `children`, `exit_code`, the holder of
its `children_lock` and where it is (`none` before it is created and after its
`struct thread` is freed); the next tid `allocate_tid` gives; and the lock operations and the
results of `process_wait`, in order. -/
structure ExitState where
  parent : Tid → Option Tid
  children : Tid → List ChildEntry
  exitCode : Tid → ℤ
  holder : Tid → Option Tid
  pc : Tid → Option ExitPc
  nextTid : Tid
  lockLog : List (Tid × LockOp)
  waitLog : List (Tid × Tid × ℤ)

namespace ExitState

/-- Thread `t` moves to `q`. -/
def setPc (s : ExitState) (t : Tid) (q : ExitPc) : ExitState :=
  { s with pc := Function.update s.pc t (some q) }

/-- `lock_acquire (l)` by `t`, once `l` is free. The lock named through a NULL `parent` is not
a lock: the call faults (`none`), as it does on a lock that `t` cannot take yet. -/
def acquire (s : ExitState) (t : Tid) : LockRef → Option ExitState
  | none => none
  | some p =>
      if s.holder p = none then
        some { s with holder := Function.update s.holder p (some t),
                      lockLog := s.lockLog ++ [(t, .acquire (some p))] }
      else none

/-- `lock_release (l)` by `t`: `ASSERT (lock_held_by_current_thread (lock))` fails (`none`)
on a lock `t` does not hold, the one named through a NULL `parent` included. -/
def release (s : ExitState) (t : Tid) : LockRef → Option ExitState
  | none => none
  | some p =>
      if s.holder p = some t then
        some { s with holder := Function.update s.holder p none,
                      lockLog := s.lockLog ++ [(t, .release (some p))] }
      else none

/-- The running children of `t` lose their parent, and its list empties (`free` of each dead
record). -/
def notifyChildren (s : ExitState) (t : Tid) : ExitState :=
  { s with parent := fun c => if ChildEntry.live c ∈ s.children t then none else s.parent c,
           children := Function.update s.children t [] }

/-- `process_wait (c)` under the lock: the entry for `c` is dead, and is removed and returned;
or it is running, and the thread loops; or there is none, and `-1` is returned. -/
def scan (s : ExitState) (t c : Tid) : ExitState :=
  match (s.children t).find? (·.tid = c) with
  | none => { s.setPc t .idle with waitLog := s.waitLog ++ [(t, c, -1)] }
  | some (.dead d code) =>
      { s.setPc t .idle with children := Function.update s.children t
                               ((s.children t).erase (.dead d code)),
                             waitLog := s.waitLog ++ [(t, c, code)] }
  | some (.live _) => s.setPc t (.waitLock c)

/-- The dead record a child with parent `p` leaves in `p`'s list in place of its running
entry. -/
def pushDead (s : ExitState) (t p : Tid) : ExitState :=
  { s with children := Function.update s.children p
             ((s.children p).erase (.live t) ++ [.dead t (s.exitCode t)]) }

/-- One step of thread `t`, up to its next lock operation or read of `t->parent`; `none` when
the thread cannot move (blocked on a lock, running user code, not alive) or when the step
faults. -/
def threadStep (s : ExitState) (t : Tid) : Option ExitState :=
  match s.pc t with
  | some (.waitLock c) => (s.acquire t (some t)).map (·.setPc t (.waitScan c))
  | some (.waitScan c) => (s.scan t c).release t (some t)
  | some .exitLockOwn => (s.acquire t (some t)).map (·.setPc t .exitNotify)
  | some .exitNotify => ((s.notifyChildren t).release t (some t)).map (·.setPc t .exitCheckParent)
  | some .exitCheckParent =>
      some (s.setPc t (if (s.parent t).isSome then .exitLockParent else .exitFinish))
  | some .exitLockParent => some (s.setPc t (.exitBlocked (s.parent t)))
  | some (.exitBlocked l) => (s.acquire t l).map (·.setPc t .exitPush)
  | some .exitPush =>
      match s.parent t with
      | none => some (s.setPc t .exitReleaseParent)
      | some p => some ((s.pushDead t p).setPc t .exitReleaseParent)
  | some .exitReleaseParent => (s.release t (s.parent t)).map (·.setPc t .exitFinish)
  | some .exitFinish => some { s with pc := Function.update s.pc t none }
  | some .idle | none => none

end ExitState

/-- The events of the protocol: a running thread creates a child (`thread_create_child`),
calls `exit (code)` (a killed thread exits with the `-1` `init_thread` stored), calls
`process_wait (c)`, or a thread takes its next step. -/
inductive ExitEvent where
  | spawn (p : Tid)
  | exit (t : Tid) (code : ℤ)
  | wait (t c : Tid)
  | step (t : Tid)
  deriving DecidableEq, Repr

/-- One event; `none` when it cannot happen in this state. -/
def exitStep (s : ExitState) : ExitEvent → Option ExitState
  | .spawn p =>
      if s.pc p = some .idle then
        let c := s.nextTid
        some { s with parent := Function.update s.parent c (some p),
                      children := Function.update s.children p (s.children p ++ [.live c]),
                      exitCode := Function.update s.exitCode c (-1),
                      pc := Function.update s.pc c (some .idle),
                      nextTid := c + 1 }
      else none
  | .exit t code =>
      if s.pc t = some .idle then
        some ({ s with exitCode := Function.update s.exitCode t code }.setPc t .exitLockOwn)
      else none
  | .wait t c => if s.pc t = some .idle then some (s.setPc t (.waitLock c)) else none
  | .step t => s.threadStep t

/-- A run of events. -/
def exitRun (s : ExitState) : List ExitEvent → Option ExitState
  | [] => some s
  | e :: es => (exitStep s e).bind fun s => exitRun s es

/-- One running thread, `main` (tid 1), with no children. -/
def exitInit : ExitState :=
  { parent := fun _ => none, children := fun _ => [], exitCode := fun _ => -1,
    holder := fun _ => none, pc := Function.update (fun _ => none) 1 (some .idle), nextTid := 2,
    lockLog := [], waitLog := [] }

namespace ExitState

variable {s s' : ExitState} {t : Tid}

/-- A child leaves a dead record holding its own exit code in the list of the parent its
pointer names at that moment. -/
theorem threadStep_exitPush {p : Tid} (hpc : s.pc t = some .exitPush)
    (hp : s.parent t = some p) (h : s.threadStep t = some s') :
    s'.children p = (s.children p).erase (.live t) ++ [.dead t (s.exitCode t)] := by
  simp only [threadStep, hpc, hp, Option.some.injEq] at h
  subst h
  simp [setPc, pushDead]

/-- The lock a child releases at the end of the protocol is the lock of the thread its
`parent` pointer names at the release, whatever lock it acquired. -/
theorem threadStep_release_parent (hpc : s.pc t = some .exitReleaseParent)
    (h : s.threadStep t = some s') :
    ∃ p, s.parent t = some p ∧ s.holder p = some t ∧
      s'.lockLog = s.lockLog ++ [(t, .release (some p))] := by
  simp only [threadStep, hpc] at h
  obtain ⟨s₁, h₁, rfl⟩ := Option.map_eq_some_iff.mp h
  cases hp : s.parent t with
  | none => simp [hp, release] at h₁
  | some p =>
      rw [hp] at h₁
      simp only [release] at h₁
      split_ifs at h₁ with hh
      rw [Option.some.injEq] at h₁
      subst h₁
      exact ⟨p, rfl, hh, rfl⟩

end ExitState

/-- `main` creates a child (tid 2); the child exits and, having seen its parent, evaluates
`&t->parent->children_lock`; `main` exits, takes its own lock, and the child blocks on it;
`main` clears the child's `parent` and releases; the child acquires `main`'s lock and skips
the dead record. -/
def exitRace : List ExitEvent :=
  [.spawn 1, .exit 2 0, .step 2, .step 2, .step 2, .step 2, .exit 1 0, .step 1, .step 1,
   .step 2, .step 2]

/-- At the end of the run the child holds `main`'s `children_lock`, its `parent` is NULL, and
the release it is about to make names the lock at `&((struct thread *) NULL)->children_lock`:
the step faults, and the lock it acquired is never released. -/
theorem exit_keeps_parent_lock :
    ∃ s, exitRun exitInit exitRace = some s ∧ s.pc 2 = some .exitReleaseParent ∧
      (2, LockOp.acquire (some 1)) ∈ s.lockLog ∧ s.holder 1 = some 2 ∧ s.parent 2 = none ∧
      s.threadStep 2 = none := by
  have hrun : (exitRun exitInit exitRace).map (fun s => (s.pc 2, decide ((2, LockOp.acquire (some 1)) ∈ s.lockLog),
      s.holder 1, s.parent 2, (s.threadStep 2).isNone)) =
      some (some .exitReleaseParent, true, some 2, none, true) := by
    decide
  obtain ⟨s, hs, he⟩ := Option.map_eq_some_iff.mp hrun
  simp only [Prod.mk.injEq, decide_eq_true_eq, Option.isNone_iff_eq_none] at he
  exact ⟨s, hs, he.1, he.2.1, he.2.2.1, he.2.2.2.1, he.2.2.2.2⟩

end TinyOs
