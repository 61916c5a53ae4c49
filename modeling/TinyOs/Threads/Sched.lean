import TinyOs.Basic
import Mathlib.Data.Finset.Card

/-!
The thread system of `threads/thread.c` and `threads/synch.c`: thread states, the ready list,
`schedule`, semaphores with their waiters, and locks, as a machine whose steps are the
sections the kernel runs with interrupts off. Between two steps a timer interrupt may come
(`thread_tick`), and after `TIME_SLICE` ticks it makes the running thread yield.

A thread's code is abstract: a thread at `ThreadPc.free` may call any of the kernel's thread
and synchronization operations. The other values of `ThreadPc` are the places inside those
operations where a thread can be stopped between two steps: after `thread_unblock` in
`thread_create`, asleep in `sema_down`, woken and about to test the value again, inside
`lock_acquire` and `lock_release`, and in the idle thread.

* `SchedState`, `schedStep`, `schedRun`, `schedInit`, `SchedReachable`: the machine;
* `schedule`, `yieldCur`, `blockCur`, `unblock`, `semaTest`, `semaUp`: `schedule` and
  `schedule_tail`, `thread_yield`, `thread_block`, `thread_unblock`, one test of `sema_down`'s
  loop, `sema_up`;
* `creator_preempted_before_spt_init`: `thread_create` puts the new thread on the ready list
  before `init_supplemental_pagetable`, and a timer interrupt in between runs the new thread
  first.
-/

namespace TinyOs

/-- `enum thread_status`; a freed `struct thread` has none. -/
inductive ThreadStatus where
  | running
  | ready
  | blocked
  | dying
  deriving DecidableEq, Repr

/-- `struct semaphore`. -/
structure Semaphore where
  value : ℕ
  waiters : List Tid
  deriving DecidableEq, Repr

/-- The semaphores of the machine: a semaphore `s` of its own, or the one inside lock `l`. -/
inductive SemaRef (σ ι : Type) where
  | sema (s : σ)
  | lock (l : ι)
  deriving DecidableEq, Repr

/-- Where a thread's code is, as far as the thread system sees it. -/
inductive ThreadPc (σ ι : Type) where
  /-- Running its own code, between calls of the thread system. -/
  | free
  /-- In `thread_create` after `thread_unblock (t)`, before `init_supplemental_pagetable (t)`. -/
  | initSpt (t : Tid)
  /-- Asleep in `sema_down`, on the semaphore's waiters. -/
  | waiting (r : SemaRef σ ι)
  /-- Woken by `sema_up`, to test the value again in `sema_down`'s loop. -/
  | woken (r : SemaRef σ ι)
  /-- In `lock_acquire` or `lock_try_acquire` after the semaphore's down, before
  `lock->holder = thread_current ()`. -/
  | setHolder (l : ι)
  /-- In `lock_release` after `lock->holder = NULL`, before `sema_up`. -/
  | releaseUp (l : ι)
  /-- The idle thread before its first run; `s` is `thread_start`'s `idle_started`. -/
  | idleStart (s : σ)
  /-- The idle thread in its loop. -/
  | idleLoop
  deriving DecidableEq, Repr

/-- `TIME_SLICE`. -/
def timeSlice : ℕ := 4

/-- The tid `thread_init` gives the initial thread, which `schedule_tail` never frees. -/
def initialTid : Tid := 1

/-- The thread system. `ups`, `downs` and `owners` are bookkeeping of the model, not fields of
the source: the completed `sema_up`s and successful downs of each semaphore, and the threads
between the return of `lock_acquire` (or a successful `lock_try_acquire`) and their call of
`lock_release`. -/
structure SchedState (σ ι : Type) where
  status : Tid → Option ThreadStatus
  /-- `running_thread ()`: the thread `schedule` last switched to. -/
  cur : Tid
  ready : List Tid
  idleThread : Option Tid
  /-- `thread_start` has run. -/
  started : Bool
  /-- `thread_ticks`. -/
  ticks : ℕ
  /-- The tid `allocate_tid` hands out next. -/
  nextTid : Tid
  pc : Tid → ThreadPc σ ι
  /-- `init_supplemental_pagetable` has run for the thread: its `sup_pagetable` and
  `page_sema` are initialised. -/
  sptInit : Tid → Bool
  sema : SemaRef σ ι → Semaphore
  holder : ι → Option Tid
  ups : SemaRef σ ι → ℕ
  downs : SemaRef σ ι → ℕ
  owners : ι → List Tid

namespace SchedState

variable {σ ι : Type} [DecidableEq σ] [DecidableEq ι] (st : SchedState σ ι)

@[simps] def setStatus (t : Tid) (o : Option ThreadStatus) : SchedState σ ι :=
  { st with status := Function.update st.status t o }

@[simps] def setPc (t : Tid) (p : ThreadPc σ ι) : SchedState σ ι :=
  { st with pc := Function.update st.pc t p }

@[simps] def setSema (r : SemaRef σ ι) (m : Semaphore) : SchedState σ ι :=
  { st with sema := Function.update st.sema r m }

/-! Each setter leaves the other maps as they are, also where they stand unapplied. -/

omit [DecidableEq σ] [DecidableEq ι] in
@[simp] lemma setStatus_pc_eq (t : Tid) (o : Option ThreadStatus) :
    (st.setStatus t o).pc = st.pc := rfl

omit [DecidableEq σ] [DecidableEq ι] in
@[simp] lemma setStatus_sema_eq (t : Tid) (o : Option ThreadStatus) :
    (st.setStatus t o).sema = st.sema := rfl

omit [DecidableEq σ] [DecidableEq ι] in
@[simp] lemma setPc_status_eq (t : Tid) (p : ThreadPc σ ι) :
    (st.setPc t p).status = st.status := rfl

omit [DecidableEq σ] [DecidableEq ι] in
@[simp] lemma setPc_sema_eq (t : Tid) (p : ThreadPc σ ι) : (st.setPc t p).sema = st.sema := rfl

@[simp] lemma setSema_status_eq (r : SemaRef σ ι) (m : Semaphore) :
    (st.setSema r m).status = st.status := rfl

@[simp] lemma setSema_pc_eq (r : SemaRef σ ι) (m : Semaphore) : (st.setSema r m).pc = st.pc := rfl

/-- `next_thread_to_run`: the front of `ready_list`, or `idle_thread` when it is empty, with
the ready list left. -/
def nextThreadToRun : Option Tid × List Tid :=
  match st.ready with
  | [] => (st.idleThread, [])
  | t :: rest => (some t, rest)

/-- `schedule` and `schedule_tail`: switch to the next thread, mark it running, start a new
time slice, and free the thread switched from if it is dying and not the initial thread.
`none` when there is no thread to run (`ASSERT (is_thread (next))`). -/
def schedule : Option (SchedState σ ι) :=
  match st.nextThreadToRun with
  | (none, _) => none
  | (some next, rest) =>
      let prev := st.cur
      let st' := { st with ready := rest, cur := next, ticks := 0 }.setStatus next (some .running)
      if prev ≠ next ∧ st.status prev = some .dying ∧ prev ≠ initialTid then
        some (st'.setStatus prev none)
      else some st'

/-- `thread_yield`: the running thread goes to the back of the ready list, unless it is the
idle thread, and becomes ready. -/
def yieldCur : Option (SchedState σ ι) :=
  let st' := if st.idleThread = some st.cur then st else { st with ready := st.ready ++ [st.cur] }
  (st'.setStatus st.cur (some .ready)).schedule

/-- `thread_block`. -/
def blockCur : Option (SchedState σ ι) :=
  (st.setStatus st.cur (some .blocked)).schedule

/-- `thread_unblock (t)`: `none` unless `t` is blocked (`ASSERT (t->status ==
THREAD_BLOCKED)`). -/
def unblock (t : Tid) : Option (SchedState σ ι) :=
  if st.status t = some .blocked then
    some ({ st with ready := st.ready ++ [t] }.setStatus t (some .ready))
  else none

/-- Where a thread goes once `sema_down` on `r` returns: back to its code, or on in
`lock_acquire`. -/
def afterDown : SemaRef σ ι → ThreadPc σ ι
  | .sema _ => .free
  | .lock l => .setHolder l

/-- One test of `sema_down`'s loop by the running thread: with a positive value, take a unit
and leave the loop; otherwise join the waiters and `thread_block`. -/
def semaTest (r : SemaRef σ ι) : Option (SchedState σ ι) :=
  let m := st.sema r
  if m.value = 0 then
    ((st.setSema r { m with waiters := m.waiters ++ [st.cur] }).setPc st.cur (.waiting r)).blockCur
  else
    some { (st.setSema r { m with value := m.value - 1 }).setPc st.cur (afterDown r) with
      downs := Function.update st.downs r (st.downs r + 1) }

/-- `sema_try_down`: take a unit if the value is positive. -/
def semaTryDown (r : SemaRef σ ι) : SchedState σ ι × Bool :=
  let m := st.sema r
  if m.value = 0 then (st, false)
  else
    ({ st.setSema r { m with value := m.value - 1 } with
      downs := Function.update st.downs r (st.downs r + 1) }, true)

/-- `sema_up`: wake the first waiter, which will test the value again, and increment the
value. -/
def semaUp (r : SemaRef σ ι) : Option (SchedState σ ι) :=
  let m := st.sema r
  let st' := { st with ups := Function.update st.ups r (st.ups r + 1) }
  match m.waiters with
  | [] => some (st'.setSema r { m with value := m.value + 1 })
  | t :: ws => ((st'.setSema r ⟨m.value + 1, ws⟩).setPc t (.woken r)).unblock t

/-- Interrupts are on: everywhere but between the switch to a woken thread and its next test
of the value, which `sema_down` makes with interrupts off. -/
def intrOn : Bool :=
  match st.pc st.cur with
  | .woken _ => false
  | _ => true

/-- The running thread is in its own code. -/
def atFree : Bool := st.pc st.cur = .free

/-- `thread_create`'s new thread `t`, on the ready list (`mk_thread` and `thread_unblock`);
its supplemental page table is not initialised yet. -/
def spawnReady (p : ThreadPc σ ι) : SchedState σ ι :=
  let t := st.nextTid
  ({ st with ready := st.ready ++ [t], nextTid := t + 1 }.setStatus t (some .ready)).setPc t p

end SchedState

/-- The steps of the thread system. -/
inductive SchedEvent (σ ι : Type) where
  /-- `thread_start`: create the idle thread; `s` is its `idle_started`. -/
  | start (s : σ)
  /-- `thread_create` or `thread_create_child` up to `thread_unblock`. -/
  | create
  /-- `init_supplemental_pagetable` of the thread just created. -/
  | initSpt
  | yield
  /-- A timer interrupt: `thread_tick`, and `thread_yield` on return after `TIME_SLICE`
  ticks. -/
  | tick
  | semaDown (s : σ)
  | semaTryDown (s : σ)
  /-- `sema_up` by the running thread or by an interrupt handler. -/
  | semaUp (s : σ)
  | semaInit (s : σ) (v : ℕ)
  /-- A woken thread's next test of the value in `sema_down`. -/
  | retest
  | lockAcquire (l : ι)
  /-- `lock->holder = thread_current ()` at the end of `lock_acquire` and `lock_try_acquire`. -/
  | setHolder
  | lockTryAcquire (l : ι)
  /-- `lock_release` up to `lock->holder = NULL`. -/
  | lockRelease (l : ι)
  /-- `lock_release`'s `sema_up`. -/
  | releaseUp
  /-- The idle thread's first steps: `idle_thread = thread_current (); sema_up
  (idle_started)`. -/
  | idleInit
  /-- The idle thread's `intr_disable (); thread_block ()`. -/
  | idleBlock
  | exit

namespace SchedState

variable {σ ι : Type} [DecidableEq σ] [DecidableEq ι] (st : SchedState σ ι)

/-- One step; `none` when the step cannot be taken in this state or an assertion of the
source fails. -/
def schedStep : SchedEvent σ ι → Option (SchedState σ ι)
  | .start s =>
      if st.atFree ∧ st.started = false then
        -- interrupts are still off: the idle thread's page table is set up at once
        let t := st.nextTid
        some { st.spawnReady (.idleStart s) with
          started := true
          sptInit := Function.update st.sptInit t true }
      else none
  | .create =>
      if st.atFree then
        let t := st.nextTid
        some ({ st.spawnReady .free with sptInit := Function.update st.sptInit t false }.setPc
          st.cur (.initSpt t))
      else none
  | .initSpt =>
      match st.pc st.cur with
      | .initSpt t => some ({ st with sptInit := Function.update st.sptInit t true }.setPc st.cur .free)
      | _ => none
  | .yield => if st.atFree then st.yieldCur else none
  | .tick =>
      if st.intrOn ∧ st.started then
        let st' := { st with ticks := st.ticks + 1 }
        if timeSlice ≤ st'.ticks then st'.yieldCur else some st'
      else none
  | .semaDown s => if st.atFree then st.semaTest (.sema s) else none
  | .semaTryDown s => if st.atFree then some (st.semaTryDown (.sema s)).1 else none
  | .semaUp s => if st.intrOn then st.semaUp (.sema s) else none
  | .semaInit s v => if st.atFree then some (st.setSema (.sema s) ⟨v, []⟩) else none
  | .retest =>
      match st.pc st.cur with
      | .woken r => st.semaTest r
      | _ => none
  | .lockAcquire l =>
      if st.atFree ∧ st.holder l ≠ some st.cur then st.semaTest (.lock l) else none
  | .setHolder =>
      match st.pc st.cur with
      | .setHolder l =>
          some ({ st with
            holder := Function.update st.holder l (some st.cur)
            owners := Function.update st.owners l (st.owners l ++ [st.cur]) }.setPc st.cur .free)
      | _ => none
  | .lockTryAcquire l =>
      if st.atFree ∧ st.holder l ≠ some st.cur then
        match st.semaTryDown (.lock l) with
        | (st', true) => some (st'.setPc st.cur (.setHolder l))
        | (st', false) => some st'
      else none
  | .lockRelease l =>
      if st.atFree ∧ st.holder l = some st.cur then
        some ({ st with
          holder := Function.update st.holder l none
          owners := Function.update st.owners l ((st.owners l).erase st.cur) }.setPc st.cur
          (.releaseUp l))
      else none
  | .releaseUp =>
      match st.pc st.cur with
      | .releaseUp l => (st.setPc st.cur .free).semaUp (.lock l)
      | _ => none
  | .idleInit =>
      match st.pc st.cur with
      | .idleStart s => ({ st with idleThread := some st.cur }.setPc st.cur .idleLoop).semaUp (.sema s)
      | _ => none
  | .idleBlock => if st.pc st.cur = .idleLoop then st.blockCur else none
  | .exit => if st.atFree then (st.setStatus st.cur (some .dying)).schedule else none

end SchedState

variable {σ ι : Type} [DecidableEq σ] [DecidableEq ι]

/-- A run of steps. -/
def schedRun (st : SchedState σ ι) : List (SchedEvent σ ι) → Option (SchedState σ ι)
  | [] => some st
  | e :: es => (st.schedStep e).bind fun st => schedRun st es

/-- The thread system after `thread_init`: the initial thread runs, with tid 1; each semaphore
`s` has the value `v0 s` it was initialised with, and each lock is free. -/
def schedInit (v0 : σ → ℕ) : SchedState σ ι where
  status := Function.update (fun _ => none) initialTid (some .running)
  cur := initialTid
  ready := []
  idleThread := none
  started := false
  ticks := 0
  nextTid := initialTid + 1
  pc := fun _ => .free
  sptInit := fun _ => false
  sema := fun
    | .sema s => ⟨v0 s, []⟩
    | .lock _ => ⟨1, []⟩
  holder := fun _ => none
  ups := fun _ => 0
  downs := fun _ => 0
  owners := fun _ => []

/-- The reachable states of the thread system. -/
inductive SchedReachable : SchedState σ ι → Prop
  | init (v0 : σ → ℕ) : SchedReachable (schedInit v0)
  | step {st st' : SchedState σ ι} (e : SchedEvent σ ι) :
      SchedReachable st → st.schedStep e = some st' → SchedReachable st'

lemma SchedReachable.run {st st' : SchedState σ ι} (h : SchedReachable st) :
    ∀ {es : List (SchedEvent σ ι)}, schedRun st es = some st' → SchedReachable st'
  | [], hr => by
      rw [schedRun, Option.some.injEq] at hr
      exact hr ▸ h
  | e :: es, hr => by
      obtain ⟨st₁, h₁, hr⟩ := Option.bind_eq_some_iff.mp hr
      exact (h.step e h₁).run hr

/-! ### A thread that runs before its page table is set up -/

/-- The initial thread starts the idle thread and waits for it, creates a thread, and four
timer ticks come before its `init_supplemental_pagetable`. -/
def preemptedCreate : List (SchedEvent Unit Unit) :=
  [.start (), .semaDown (), .idleInit, .idleBlock, .retest, .create, .tick, .tick, .tick, .tick]

/-- After `preemptedCreate` the new thread 3 is running, its supplemental page table and
`page_sema` not initialised, while its creator still stands before
`init_supplemental_pagetable (t)`. -/
theorem creator_preempted_before_spt_init :
    ∃ st, schedRun (schedInit (fun _ => 0) : SchedState Unit Unit) preemptedCreate = some st ∧
      SchedReachable st ∧ st.cur = 3 ∧ st.status 3 = some .running ∧ st.sptInit 3 = false ∧
      st.pc initialTid = .initSpt 3 := by
  have hrun : (schedRun (schedInit (fun _ => 0) : SchedState Unit Unit) preemptedCreate).map
      (fun st => (st.cur, st.status 3, st.sptInit 3, decide (st.pc initialTid = .initSpt 3))) =
      some (3, some .running, false, true) := by
    decide
  obtain ⟨st, hst, he⟩ := Option.map_eq_some_iff.mp hrun
  simp only [Prod.mk.injEq, decide_eq_true_eq] at he
  obtain ⟨hcur, hstatus, hspt, hpc⟩ := he
  exact ⟨st, hst, (SchedReachable.init _).run hst, hcur, hstatus, hspt, hpc⟩

end TinyOs
