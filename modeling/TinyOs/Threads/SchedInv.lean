import TinyOs.Threads.Sched

/-!
The scheduler's invariant over every reachable state of the thread system: one thread runs,
and it is the one `schedule` last switched to; a thread other than `idle_thread` is ready
exactly when it is on `ready_list`, once; `idle_thread` is never on `ready_list`; every thread on
a semaphore's waiters is blocked; and a thread's `elem` is on at most one list.

The thread `thread_start` creates to run `idle` is on `ready_list` until it first runs, while
`idle_thread` is still `NULL`: `thread_start` puts it there with `thread_create`, as the
comment on `idle` says.

* `ListsInv`, `SchedInv`, `PreInv`: the invariant, and the one `schedule` starts from, once
  the caller has taken the running thread off `THREAD_RUNNING`;
* `PreInv.schedule`: `schedule` takes `PreInv` to `SchedInv`;
* `SchedInv.step`, `SchedReachable.schedInv`: every step keeps the invariant, so every
  reachable state has it;
* `scheduler_state_invariant`: the invariant, as the properties it states;
* `idle_thread_on_ready_list`: right after `thread_start` the idle thread is on `ready_list`.
-/

namespace TinyOs

/-- A program point outside the idle thread's code. -/
def ThreadPc.Plain {σ ι : Type} : ThreadPc σ ι → Prop
  | .idleStart _ => False
  | .idleLoop => False
  | _ => True

namespace SchedState

variable {σ ι : Type}

/-- What every state satisfies, whether a thread is running or `schedule` is about to pick
one. -/
structure ListsInv (st : SchedState σ ι) : Prop where
  ready_nodup : st.ready.Nodup
  idle_not_ready : ∀ t, st.idleThread = some t → t ∉ st.ready
  waiters_blocked : ∀ r, ∀ t ∈ (st.sema r).waiters, st.status t = some .blocked
  waiters_nodup : ∀ r, (st.sema r).waiters.Nodup
  waiters_pc : ∀ r, ∀ t ∈ (st.sema r).waiters, st.pc t = .waiting r
  fresh : ∀ t, st.nextTid ≤ t → st.status t = none ∧ st.pc t = .free
  idle_pc : ∀ t, st.idleThread = some t ↔ st.pc t = .idleLoop
  idleStart_none : ∀ t s, st.pc t = .idleStart s → st.idleThread = none
  idleStart_unique : ∀ t u s s', st.pc t = .idleStart s → st.pc u = .idleStart s' → t = u
  unstarted : st.started = false → st.idleThread = none ∧ ∀ t s, st.pc t ≠ .idleStart s

/-- The scheduler's invariant. -/
structure SchedInv (st : SchedState σ ι) : Prop extends ListsInv st where
  cur_running : st.status st.cur = some .running
  running_cur : ∀ t, st.status t = some .running → t = st.cur
  ready_iff : ∀ t, st.idleThread ≠ some t → (t ∈ st.ready ↔ st.status t = some .ready)
  idle_status : ∀ t, st.idleThread = some t →
    st.status t = some .running ∨ st.status t = some .ready ∨ st.status t = some .blocked

/-- The state `schedule` starts from: no thread is running. -/
structure PreInv (st : SchedState σ ι) : Prop extends ListsInv st where
  no_running : ∀ t, st.status t ≠ some .running
  ready_iff : ∀ t, st.idleThread ≠ some t → (t ∈ st.ready ↔ st.status t = some .ready)
  idle_status : ∀ t, st.idleThread = some t → st.status t = some .ready ∨ st.status t = some .blocked

/-! ### `schedule` -/

lemma nextThreadToRun_eq_some {st : SchedState σ ι} {next : Tid} {rest : List Tid}
    (h : st.nextThreadToRun = (some next, rest)) :
    st.ready = next :: rest ∨ st.ready = [] ∧ rest = [] ∧ st.idleThread = some next := by
  unfold nextThreadToRun at h
  split at h
  · rename_i hr
    rw [Prod.mk.injEq] at h
    exact .inr ⟨hr, h.2.symm, h.1⟩
  · rename_i t rest' hr
    simp only [Prod.mk.injEq, Option.some.injEq] at h
    obtain ⟨rfl, rfl⟩ := h
    exact .inl hr

/-- What `schedule` does: switch to `next`, taken from the front of the ready list or the idle
thread, mark it running, and free the thread switched from when it is dying and not the
initial thread. -/
lemma schedule_eq_some {st st' : SchedState σ ι} (h : st.schedule = some st') :
    ∃ next rest, st.nextThreadToRun = (some next, rest) ∧
      ∃ freed : Bool, (freed = true → st.cur ≠ next ∧ st.status st.cur = some .dying) ∧
        st' = { st with
          ready := rest
          cur := next
          ticks := 0
          status := fun u => if u = next then some .running
            else if freed ∧ u = st.cur then none else st.status u } := by
  dsimp only [schedule] at h
  split at h
  · cases h
  · rename_i next rest hn
    refine ⟨next, rest, hn, ?_⟩
    split_ifs at h with hfree
    · refine ⟨true, fun _ => ⟨hfree.1, hfree.2.1⟩, ?_⟩
      rw [← Option.some.inj h, setStatus, setStatus]
      congr 1
      funext u
      by_cases hu : u = st.cur
      · subst hu
        simp [Function.update, hfree.1]
      · simp [Function.update, hu]
    · refine ⟨false, fun h => absurd h Bool.false_ne_true, ?_⟩
      rw [← Option.some.inj h, setStatus]
      congr 1
      funext u
      simp [Function.update]

/-- The thread `schedule` switches to is off the ready list afterwards and on no waiters, and
the ready list left is the old one without it. -/
lemma PreInv.next_facts {st : SchedState σ ι} (h : st.PreInv) {next : Tid} {rest : List Tid}
    (hn : st.nextThreadToRun = (some next, rest)) :
    rest.Nodup ∧ next ∉ rest ∧ (∀ u, u ≠ next → (u ∈ rest ↔ u ∈ st.ready)) ∧
      (st.status next = some .ready ∨ st.status next = some .blocked) ∧
      ∀ r, next ∉ (st.sema r).waiters := by
  rcases nextThreadToRun_eq_some hn with hr | ⟨hr, rfl, hidle⟩
  · -- the front of the ready list, a ready thread other than the idle thread
    have hnd := h.ready_nodup
    rw [hr, List.nodup_cons] at hnd
    have hni : st.idleThread ≠ some next := fun hi => h.idle_not_ready next hi (by simp [hr])
    have hready : st.status next = some .ready := (h.ready_iff next hni).mp (by simp [hr])
    refine ⟨hnd.2, hnd.1, fun u hu => by simp [hr, hu], .inl hready, fun r hw => ?_⟩
    rw [h.waiters_blocked r next hw] at hready
    cases hready
  · -- the idle thread, at `idleLoop`, which is no semaphore's waiter
    refine ⟨List.nodup_nil, List.not_mem_nil, fun u _ => by simp [hr], h.idle_status next hidle,
      fun r hw => ?_⟩
    have hpc := h.waiters_pc r next hw
    rw [(h.idle_pc next).mp hidle] at hpc
    cases hpc

/-- `schedule` takes the state its caller leaves, with no thread running, to one with the
invariant. -/
lemma PreInv.schedule {st st' : SchedState σ ι} (h : st.PreInv) (hs : st.schedule = some st') :
    st'.SchedInv := by
  obtain ⟨next, rest, hn, freed, hfreed, rfl⟩ := schedule_eq_some hs
  obtain ⟨hnd, hnext, hrest, hnst, hnw⟩ := h.next_facts hn
  -- a freed thread was dying: not the idle thread, not on the ready list, on no waiters
  have hprev : freed = true → st.idleThread ≠ some st.cur ∧ st.cur ∉ st.ready ∧
      ∀ r, st.cur ∉ (st.sema r).waiters := by
    intro hf
    obtain ⟨-, hdying⟩ := hfreed hf
    have hni : st.idleThread ≠ some st.cur := fun hi => by
      rcases h.idle_status _ hi with hs | hs <;> rw [hdying] at hs <;> cases hs
    refine ⟨hni, fun hr => ?_, fun r hw => ?_⟩
    · rw [(h.ready_iff _ hni).mp hr] at hdying
      cases hdying
    · rw [h.waiters_blocked r _ hw] at hdying
      cases hdying
  refine ⟨⟨hnd, fun t hi hr => h.idle_not_ready t hi ((hrest t ?_).mp hr), ?_, h.waiters_nodup,
    h.waiters_pc, fun t ht => ?_, h.idle_pc, h.idleStart_none, h.idleStart_unique, h.unstarted⟩,
    by simp, fun t ht => ?_, fun t hi => ?_, fun t hi => ?_⟩
  · rintro rfl
    exact hnext hr
  · intro r t hw
    have htn : t ≠ next := fun htn => hnw r (htn ▸ hw)
    by_cases hft : freed = true ∧ t = st.cur
    · exact absurd (hft.2 ▸ hw) ((hprev hft.1).2.2 r)
    · simp only [htn, hft, if_false]
      exact h.waiters_blocked r t hw
  · -- a fresh tid is neither the thread switched to nor alive
    have hnone := (h.fresh t ht).1
    have htn : t ≠ next := by
      rintro rfl
      rcases hnst with hs | hs <;> rw [hnone] at hs <;> cases hs
    refine ⟨?_, (h.fresh t ht).2⟩
    simp only [htn, if_false]
    split_ifs <;> simp [hnone]
  · simp only at ht
    by_cases htn : t = next
    · exact htn
    by_cases hft : freed = true ∧ t = st.cur
    · obtain ⟨hf, rfl⟩ := hft
      simp [htn, hf] at ht
    · simp only [htn, hft, if_false] at ht
      exact absurd ht (h.no_running t)
  · simp only at hi ⊢
    by_cases htn : t = next
    · subst htn
      simp [hnext]
    by_cases hft : freed = true ∧ t = st.cur
    · obtain ⟨hf, rfl⟩ := hft
      have hnr : st.cur ∉ rest := fun hr => (hprev hf).2.1 ((hrest _ htn).mp hr)
      simp only [htn, hf, and_self, ↓reduceIte]
      exact ⟨fun hr => absurd hr hnr, fun h' => by cases h'⟩
    · simp only [htn, hft, if_false, hrest t htn]
      exact h.ready_iff t hi
  · simp only at hi ⊢
    by_cases htn : t = next
    · simp [htn]
    by_cases hft : freed = true ∧ t = st.cur
    · exact absurd (hft.2 ▸ hi) (hprev hft.1).1
    · simp only [htn, hft, if_false]
      exact .inr (h.idle_status t hi)

/-! ### Updates of the lists, a status, a program point or a semaphore -/

lemma ListsInv.lt_of_status {st : SchedState σ ι} {t : Tid} {o : ThreadStatus} (h : st.ListsInv)
    (ho : st.status t = some o) : t < st.nextTid := by
  by_contra hge
  rw [(h.fresh t (not_lt.mp hge)).1] at ho
  cases ho

lemma ListsInv.not_idle {st : SchedState σ ι} {t : Tid} (h : st.ListsInv)
    (hp : (st.pc t).Plain) : st.idleThread ≠ some t := fun hi => by
  rw [(h.idle_pc t).mp hi] at hp
  exact hp

lemma ListsInv.not_waiter {st : SchedState σ ι} {t : Tid} {r : SemaRef σ ι}
    (h : st.ListsInv) (hpc : st.pc t = .waiting r) (hn : t ∉ (st.sema r).waiters)
    (r' : SemaRef σ ι) : t ∉ (st.sema r').waiters := fun hw => by
  have hpc' := h.waiters_pc r' t hw
  rw [hpc] at hpc'
  cases hpc'
  exact hn hw

/-- The thread `allocate_tid` hands out next is on no list and is not the idle thread. -/
lemma ListsInv.fresh_not_waiter {st : SchedState σ ι} {t : Tid} (h : st.ListsInv)
    (ht : st.nextTid ≤ t) (r : SemaRef σ ι) : t ∉ (st.sema r).waiters := fun hw => by
  have hs := h.waiters_blocked r t hw
  rw [(h.fresh t ht).1] at hs
  cases hs

lemma ListsInv.fresh_not_idle {st : SchedState σ ι} {t : Tid} (h : st.ListsInv)
    (ht : st.nextTid ≤ t) : st.idleThread ≠ some t :=
  h.not_idle (by rw [(h.fresh t ht).2]; trivial)

lemma afterDown_plain (r : SemaRef σ ι) : (afterDown r).Plain := by
  cases r <;> trivial

/-- Replacing the ready list by another without repeats or the idle thread. -/
lemma ListsInv.setReady {st : SchedState σ ι} {R : List Tid} (h : st.ListsInv) (hR : R.Nodup)
    (hidle : ∀ t, st.idleThread = some t → t ∉ R) : { st with ready := R }.ListsInv :=
  { h with ready_nodup := hR, idle_not_ready := hidle }

section Updates

variable {st : SchedState σ ι}

/-- Giving thread `t`, below `nextTid`, a new status; a waiter stays blocked. -/
lemma ListsInv.setStatus {t : Tid} {o : Option ThreadStatus} (h : st.ListsInv)
    (ht : t < st.nextTid) (hw : ∀ r, t ∈ (st.sema r).waiters → o = some .blocked) :
    (st.setStatus t o).ListsInv := by
  refine ⟨h.ready_nodup, h.idle_not_ready, fun r u hu => ?_, h.waiters_nodup, h.waiters_pc,
    fun u hu => ?_, h.idle_pc, h.idleStart_none, h.idleStart_unique, h.unstarted⟩
  · by_cases hut : u = t
    · subst hut
      simpa using hw r hu
    · simpa [hut] using h.waiters_blocked r u hu
  · have hu' : st.nextTid ≤ u := hu
    have hut : u ≠ t := (lt_of_lt_of_le ht hu').ne'
    simpa [hut] using h.fresh u hu'

/-- Moving thread `t` between points outside the idle thread's code, where a waiter's new
point is its semaphore's. -/
lemma ListsInv.setPc {t : Tid} {p : ThreadPc σ ι} (h : st.ListsInv)
    (hw : ∀ r, t ∈ (st.sema r).waiters → p = .waiting r) (ht : t < st.nextTid)
    (hold : (st.pc t).Plain) (hnew : p.Plain) : (st.setPc t p).ListsInv := by
  have hnot : ∀ s, p ≠ .idleStart s := fun s hs => by rw [hs] at hnew; exact hnew
  refine ⟨h.ready_nodup, h.idle_not_ready, h.waiters_blocked, h.waiters_nodup, fun r u hu => ?_,
    fun u hu => ?_, fun u => ?_, fun u s hu => ?_, fun u v s s' hu hv => ?_, fun hs => ?_⟩
  · by_cases hut : u = t
    · subst hut
      simp [hw r hu]
    · simpa [hut] using h.waiters_pc r u hu
  · have hu' : st.nextTid ≤ u := hu
    have hut : u ≠ t := (lt_of_lt_of_le ht hu').ne'
    simpa [hut] using h.fresh u hu'
  · by_cases hut : u = t
    · subst hut
      simp only [setPc_pc, Function.update_self]
      refine ⟨fun hi => absurd hi (h.not_idle hold), fun hp => ?_⟩
      rw [hp] at hnew
      exact hnew.elim
    · simpa [hut] using h.idle_pc u
  · by_cases hut : u = t
    · subst hut
      simp [hnot] at hu
    · exact h.idleStart_none u s (by simpa [hut] using hu)
  · by_cases hut : u = t
    · subst hut
      simp [hnot] at hu
    by_cases hvt : v = t
    · subst hvt
      simp [hnot] at hv
    exact h.idleStart_unique u v s s' (by simpa [hut] using hu) (by simpa [hvt] using hv)
  · refine ⟨(h.unstarted hs).1, fun u s hu => ?_⟩
    by_cases hut : u = t
    · subst hut
      simp [hnot] at hu
    · exact (h.unstarted hs).2 u s (by simpa [hut] using hu)

/-- `thread_start`'s new thread `t` is the one thread at the start of `idle`, once `thread_start`
has run and while `idle_thread` is `NULL`. -/
lemma ListsInv.setPc_idleStart {t : Tid} (s : σ) (h : st.ListsInv) (hst : st.started = true)
    (hidle : st.idleThread = none) (hno : ∀ u s, st.pc u ≠ .idleStart s)
    (hw : ∀ r, t ∉ (st.sema r).waiters) (ht : t < st.nextTid) :
    (st.setPc t (.idleStart s)).ListsInv := by
  refine ⟨h.ready_nodup, h.idle_not_ready, h.waiters_blocked, h.waiters_nodup, fun r u hu => ?_,
    fun u hu => ?_, fun u => ?_, fun _ _ _ => hidle, fun u v s₁ s₂ hu hv => ?_,
    fun hs => absurd hst (by simpa using hs)⟩
  · have hut : u ≠ t := fun hut => hw r (hut ▸ hu)
    simpa [hut] using h.waiters_pc r u hu
  · have hu' : st.nextTid ≤ u := hu
    have hut : u ≠ t := (lt_of_lt_of_le ht hu').ne'
    simpa [hut] using h.fresh u hu'
  · by_cases hut : u = t
    · subst hut
      simp [hidle]
    · simpa [hut] using h.idle_pc u
  · -- no other thread is at `idleStart`
    have hut : u = t := by
      by_contra hut
      exact hno u s₁ (by simpa [hut] using hu)
    have hvt : v = t := by
      by_contra hvt
      exact hno v s₂ (by simpa [hvt] using hv)
    rw [hut, hvt]

variable [DecidableEq σ] [DecidableEq ι]

/-- Giving semaphore `r` a new value and waiters, every new one of which is a blocked thread
at `r`. -/
lemma ListsInv.setSema {r : SemaRef σ ι} {m : Semaphore} (h : st.ListsInv) (hnd : m.waiters.Nodup)
    (hw : ∀ t ∈ m.waiters, t ∉ (st.sema r).waiters →
      st.status t = some .blocked ∧ st.pc t = .waiting r) :
    (st.setSema r m).ListsInv := by
  refine ⟨h.ready_nodup, h.idle_not_ready, fun r' t ht => ?_, fun r' => ?_, fun r' t ht => ?_,
    h.fresh, h.idle_pc, h.idleStart_none, h.idleStart_unique, h.unstarted⟩
  · by_cases hr : r' = r
    · subst hr
      simp only [setSema_sema, Function.update_self] at ht
      by_cases hold : t ∈ (st.sema r').waiters
      · exact h.waiters_blocked r' t hold
      · exact (hw t ht hold).1
    · exact h.waiters_blocked r' t (by simpa [hr] using ht)
  · by_cases hr : r' = r
    · subst hr
      simpa using hnd
    · simpa [hr] using h.waiters_nodup r'
  · by_cases hr : r' = r
    · subst hr
      simp only [setSema_sema, Function.update_self] at ht
      by_cases hold : t ∈ (st.sema r').waiters
      · exact h.waiters_pc r' t hold
      · exact (hw t ht hold).2
    · exact h.waiters_pc r' t (by simpa [hr] using ht)

lemma ListsInv.setSema_sublist {r : SemaRef σ ι} {m : Semaphore} (h : st.ListsInv)
    (hsub : m.waiters.Sublist (st.sema r).waiters) : (st.setSema r m).ListsInv :=
  h.setSema (hsub.nodup (h.waiters_nodup r)) fun _ ht hn => absurd (hsub.subset ht) hn

end Updates

/-! ### The running thread -/

section Running

variable {st st' : SchedState σ ι}

lemma SchedInv.cur_lt (h : st.SchedInv) : st.cur < st.nextTid :=
  h.lt_of_status h.cur_running

lemma SchedInv.cur_not_ready (h : st.SchedInv) : st.cur ∉ st.ready := by
  intro hr
  by_cases hi : st.idleThread = some st.cur
  · exact h.idle_not_ready _ hi hr
  · have hs := (h.ready_iff _ hi).mp hr
    rw [h.cur_running] at hs
    cases hs

lemma SchedInv.cur_not_waiter (h : st.SchedInv) (r : SemaRef σ ι) :
    st.cur ∉ (st.sema r).waiters := fun hw => by
  have hs := h.waiters_blocked r _ hw
  rw [h.cur_running] at hs
  cases hs

/-- The idle thread, when it is not the running one, is ready or blocked. -/
lemma SchedInv.idle_status_ne {t : Tid} (h : st.SchedInv) (hi : st.idleThread = some t)
    (htc : t ≠ st.cur) : st.status t = some .ready ∨ st.status t = some .blocked := by
  rcases h.idle_status t hi with hs | hs
  · exact absurd (h.running_cur t hs) htc
  · exact hs

lemma SchedInv.setPc {t : Tid} {p : ThreadPc σ ι} (h : st.SchedInv)
    (hw : ∀ r, t ∈ (st.sema r).waiters → p = .waiting r) (ht : t < st.nextTid)
    (hold : (st.pc t).Plain) (hnew : p.Plain) : (st.setPc t p).SchedInv :=
  { h with toListsInv := h.toListsInv.setPc hw ht hold hnew }

/-- The running thread moves on in its own code. -/
lemma SchedInv.setPc_cur {p : ThreadPc σ ι} (h : st.SchedInv) (hold : (st.pc st.cur).Plain)
    (hnew : p.Plain) : (st.setPc st.cur p).SchedInv :=
  h.setPc (fun r hw => absurd hw (h.cur_not_waiter r)) h.cur_lt hold hnew

lemma PreInv.setPc {t : Tid} {p : ThreadPc σ ι} (h : st.PreInv)
    (hw : ∀ r, t ∈ (st.sema r).waiters → p = .waiting r) (ht : t < st.nextTid)
    (hold : (st.pc t).Plain) (hnew : p.Plain) : (st.setPc t p).PreInv :=
  { h with toListsInv := h.toListsInv.setPc hw ht hold hnew }

/-- `thread_yield`'s state before `schedule`: the running thread is ready, and on the ready list
`R` unless it is the idle thread. -/
lemma SchedInv.preInv_ready (h : st.SchedInv) {R : List Tid} (hR : R.Nodup)
    (hmem : ∀ t, t ∈ R ↔ t ∈ st.ready ∨ t = st.cur ∧ st.idleThread ≠ some st.cur) :
    ({ st with ready := R }.setStatus st.cur (some .ready)).PreInv := by
  have hidle : ∀ t, st.idleThread = some t → t ∉ R := fun t hi hr => by
    rcases (hmem t).mp hr with hr | ⟨rfl, hni⟩
    · exact h.idle_not_ready t hi hr
    · exact hni hi
  refine ⟨(h.toListsInv.setReady hR hidle).setStatus h.cur_lt
    fun r hw => absurd hw (h.cur_not_waiter r), fun t => ?_, fun t hi => ?_, fun t hi => ?_⟩
  · by_cases htc : t = st.cur
    · simp [htc]
    · simpa [htc] using fun hs => absurd (h.running_cur t hs) htc
  · have hi' : st.idleThread ≠ some t := hi
    by_cases htc : t = st.cur
    · subst htc
      simp [hmem, hi']
    · simpa [htc, hmem] using h.ready_iff t hi'
  · by_cases htc : t = st.cur
    · simp [htc]
    · simpa [htc] using h.idle_status_ne hi htc

/-- `thread_block` or `thread_exit`'s state before `schedule`: the running thread is blocked,
or dying when it is not the idle thread. -/
lemma SchedInv.preInv_leave (h : st.SchedInv) {o : ThreadStatus}
    (ho : o = .blocked ∨ o = .dying ∧ st.idleThread ≠ some st.cur) :
    (st.setStatus st.cur (some o)).PreInv := by
  have hno : o ≠ .running ∧ o ≠ .ready := by rcases ho with rfl | ⟨rfl, -⟩ <;> simp
  refine ⟨h.toListsInv.setStatus h.cur_lt fun r hw => absurd hw (h.cur_not_waiter r),
    fun t => ?_, fun t hi => ?_, fun t hi => ?_⟩
  · by_cases htc : t = st.cur
    · simp [htc, hno.1]
    · simpa [htc] using fun hs => absurd (h.running_cur t hs) htc
  · by_cases htc : t = st.cur
    · subst htc
      simp [hno.2, h.cur_not_ready]
    · simpa [htc] using h.ready_iff t hi
  · by_cases htc : t = st.cur
    · subst htc
      rcases ho with rfl | ⟨rfl, hni⟩
      · simp
      · exact absurd hi hni
    · simpa [htc] using h.idle_status_ne hi htc

/-- A thread that is neither running, nor on a list, nor the idle thread goes on the ready
list. -/
lemma SchedInv.pushReady {t : Tid} (h : st.SchedInv) (ht : t < st.nextTid)
    (hw : ∀ r, t ∉ (st.sema r).waiters) (hnr : t ∉ st.ready) (hni : st.idleThread ≠ some t)
    (hrun : st.status t ≠ some .running) :
    ({ st with ready := st.ready ++ [t] }.setStatus t (some .ready)).SchedInv := by
  have hR : (st.ready ++ [t]).Nodup := List.concat_eq_append ▸ h.ready_nodup.concat hnr
  have hidle : ∀ u, st.idleThread = some u → u ∉ st.ready ++ [t] := fun u hi hu => by
    rcases List.mem_append.mp hu with hu | hu
    · exact h.idle_not_ready u hi hu
    · rw [List.mem_singleton.mp hu] at hi
      exact hni hi
  have htc : t ≠ st.cur := fun htc => hrun (htc ▸ h.cur_running)
  refine ⟨(h.toListsInv.setReady hR hidle).setStatus ht fun r hr => absurd hr (hw r),
    by simpa [Ne.symm htc] using h.cur_running, fun u hu => ?_, fun u hi => ?_, fun u hi => ?_⟩
  · by_cases hut : u = t
    · subst hut
      simp at hu
    · simpa [hut] using h.running_cur u (by simpa [hut] using hu)
  · have hi' : st.idleThread ≠ some u := hi
    by_cases hut : u = t
    · simp [hut]
    · simpa [hut] using h.ready_iff u hi'
  · have hut : u ≠ t := fun hut => hni (hut ▸ hi)
    simpa [hut] using h.idle_status u hi

lemma SchedInv.fresh_not_ready {t : Tid} (h : st.SchedInv) (ht : st.nextTid ≤ t) :
    t ∉ st.ready := fun hr => by
  have hs := (h.ready_iff t (h.fresh_not_idle ht)).mp hr
  rw [(h.fresh t ht).1] at hs
  cases hs

/-- `thread_yield`. -/
lemma SchedInv.yieldCur (h : st.SchedInv) (hy : st.yieldCur = some st') : st'.SchedInv := by
  dsimp only [SchedState.yieldCur] at hy
  split_ifs at hy with hi
  · -- the idle thread stays off the ready list
    exact (h.preInv_ready h.ready_nodup fun t => by simp [hi]).schedule hy
  · exact (h.preInv_ready (List.concat_eq_append ▸ h.ready_nodup.concat h.cur_not_ready)
      fun t => by simp [hi]).schedule hy

/-- `thread_unblock` of a thread on no semaphore's waiters and outside the idle thread's
code. -/
lemma SchedInv.unblock {t : Tid} (h : st.SchedInv) (hw : ∀ r, t ∉ (st.sema r).waiters)
    (hp : (st.pc t).Plain) (hu : st.unblock t = some st') : st'.SchedInv := by
  unfold SchedState.unblock at hu
  split_ifs at hu with hb
  cases hu
  have hni := h.not_idle hp
  refine h.pushReady (h.lt_of_status hb) hw (fun hr => ?_) hni (by simp [hb])
  have hs := (h.ready_iff t hni).mp hr
  rw [hb] at hs
  cases hs

/-- `thread_create` up to `thread_unblock`: the new thread is ready and on the ready list, at a
point outside the idle thread's code. -/
lemma SchedInv.spawnReady {p : ThreadPc σ ι} (h : st.SchedInv) (hp : p.Plain) :
    (st.spawnReady p).SchedInv := by
  have hf := h.fresh st.nextTid le_rfl
  have hb : { st with nextTid := st.nextTid + 1 }.SchedInv :=
    { h with fresh := fun u hu => h.fresh u (Nat.le_of_succ_le hu) }
  have hq := hb.pushReady (t := st.nextTid) (Nat.lt_succ_self _) (h.fresh_not_waiter le_rfl)
    (h.fresh_not_ready le_rfl) (h.fresh_not_idle le_rfl) (by simp [hf.1])
  exact hq.setPc (fun r hw => absurd hw (h.fresh_not_waiter le_rfl r)) (Nat.lt_succ_self _)
    (show (st.pc st.nextTid).Plain by rw [hf.2]; trivial) hp

/-- `thread_start`'s `thread_create` of the idle thread. -/
lemma SchedInv.start {s : σ} {f : Tid → Bool} (h : st.SchedInv) (hns : st.started = false) :
    { st.spawnReady (.idleStart s) with started := true, sptInit := f }.SchedInv := by
  obtain ⟨hidle, hno⟩ := h.unstarted hns
  have hf := h.fresh st.nextTid le_rfl
  have hb : { st with nextTid := st.nextTid + 1, started := true }.SchedInv :=
    { h with
      fresh := fun u hu => h.fresh u (Nat.le_of_succ_le hu)
      unstarted := fun hs => nomatch hs }
  have hq := hb.pushReady (t := st.nextTid) (Nat.lt_succ_self _) (h.fresh_not_waiter le_rfl)
    (h.fresh_not_ready le_rfl) (h.fresh_not_idle le_rfl) (by simp [hf.1])
  have hl := hq.toListsInv.setPc_idleStart s rfl hidle hno (h.fresh_not_waiter le_rfl)
    (Nat.lt_succ_self _)
  exact { hq with toListsInv := { hl with } }

/-- The idle thread's `idle_thread = thread_current ()`: it leaves `idleStart`, where no other
thread is, for its loop. -/
lemma SchedInv.becomeIdle {s : σ} (h : st.SchedInv) (hp : st.pc st.cur = .idleStart s) :
    ({ st with idleThread := some st.cur }.setPc st.cur .idleLoop).SchedInv := by
  have hidle := h.idleStart_none _ _ hp
  have hst : st.started = true := by
    by_contra hs
    exact (h.unstarted (by simpa using hs)).2 _ _ hp
  -- after the update no thread is at `idleStart`
  have hnone : ∀ u s', Function.update st.pc st.cur .idleLoop u ≠ .idleStart s' := by
    intro u s' hu
    by_cases huc : u = st.cur
    · simp [huc] at hu
    · simp only [ne_eq, huc, not_false_eq_true, Function.update_of_ne] at hu
      exact huc (h.idleStart_unique u st.cur s' s hu hp)
  refine ⟨⟨h.ready_nodup, fun u hi => ?_, h.waiters_blocked, h.waiters_nodup, fun r u hu => ?_,
    fun u hu => ?_, fun u => ?_, fun u s' hu => absurd hu (hnone u s'),
    fun u _ s' _ hu => absurd hu (hnone u s'), fun hs => absurd hst (by simpa using hs)⟩,
    h.cur_running, h.running_cur, fun u hi => ?_, fun u hi => ?_⟩
  · obtain rfl : st.cur = u := Option.some.inj hi
    exact h.cur_not_ready
  · have huc : u ≠ st.cur := fun huc => h.cur_not_waiter r (huc ▸ hu)
    simpa [huc] using h.waiters_pc r u hu
  · have hu' : st.nextTid ≤ u := hu
    have huc : u ≠ st.cur := (lt_of_lt_of_le h.cur_lt hu').ne'
    simpa [huc] using h.fresh u hu'
  · by_cases huc : u = st.cur
    · simp [huc]
    · have hpu : st.pc u ≠ .idleLoop := fun hpu => by
        rw [← h.idle_pc, hidle] at hpu
        cases hpu
      simp [huc, Ne.symm huc, hpu]
  · have huc : u ≠ st.cur := fun huc => hi (huc ▸ rfl)
    exact h.ready_iff u (by simp [hidle])
  · obtain rfl : st.cur = u := Option.some.inj hi
    exact .inl h.cur_running

end Running

/-! ### The operations -/

section Operations

variable [DecidableEq σ] [DecidableEq ι] {st st' : SchedState σ ι}

lemma SchedInv.setSema_sublist {r : SemaRef σ ι} {m : Semaphore} (h : st.SchedInv)
    (hsub : m.waiters.Sublist (st.sema r).waiters) : (st.setSema r m).SchedInv :=
  { h with toListsInv := h.toListsInv.setSema_sublist hsub }

lemma PreInv.setSema {r : SemaRef σ ι} {m : Semaphore} (h : st.PreInv) (hnd : m.waiters.Nodup)
    (hw : ∀ t ∈ m.waiters, t ∉ (st.sema r).waiters →
      st.status t = some .blocked ∧ st.pc t = .waiting r) : (st.setSema r m).PreInv :=
  { h with toListsInv := h.toListsInv.setSema hnd hw }

lemma atFree_plain (h : st.atFree = true) : (st.pc st.cur).Plain := by
  simp only [atFree, decide_eq_true_eq] at h
  rw [h]
  trivial

/-- `sema_down`'s `list_push_back (&sema->waiters, &thread_current ()->elem); thread_block ()`,
up to `schedule`. -/
lemma SchedInv.preInv_wait (h : st.SchedInv) (r : SemaRef σ ι) (v : ℕ)
    (hp : (st.pc st.cur).Plain) :
    (((st.setSema r ⟨v, (st.sema r).waiters ++ [st.cur]⟩).setPc st.cur (.waiting r)).setStatus
      st.cur (some .blocked)).PreInv := by
  have hb := h.preInv_leave (o := .blocked) (.inl rfl)
  have hw := hb.setPc (t := st.cur) (p := .waiting r)
    (fun r' hw => absurd hw (h.cur_not_waiter r')) h.cur_lt hp trivial
  -- the running thread joins the waiters last
  refine hw.setSema (r := r)
    (List.concat_eq_append ▸ (h.waiters_nodup r).concat (h.cur_not_waiter r)) fun t ht hn => ?_
  have hn' : t ∉ (st.sema r).waiters := hn
  obtain rfl : t = st.cur := by simpa [hn'] using ht
  simp

/-- One test of `sema_down`'s loop by the running thread, outside the idle thread's code. -/
lemma SchedInv.semaTest {r : SemaRef σ ι} (h : st.SchedInv) (hp : (st.pc st.cur).Plain)
    (hs : st.semaTest r = some st') : st'.SchedInv := by
  dsimp only [SchedState.semaTest, blockCur] at hs
  split_ifs at hs
  · exact (h.preInv_wait r _ hp).schedule hs
  · cases hs
    have hd := h.setSema_sublist (r := r) (m := ⟨(st.sema r).value - 1, (st.sema r).waiters⟩)
      (List.Sublist.refl _)
    exact { hd.setPc_cur hp (afterDown_plain r) with }

/-- `sema_up`: the first waiter, if any, leaves the waiters, is woken and goes on the ready
list. -/
lemma SchedInv.semaUp {r : SemaRef σ ι} (h : st.SchedInv) (hs : st.semaUp r = some st') :
    st'.SchedInv := by
  have h₀ : { st with ups := Function.update st.ups r (st.ups r + 1) }.SchedInv := { h with }
  dsimp only [SchedState.semaUp] at hs
  split at hs
  · cases hs
    exact h₀.setSema_sublist (List.Sublist.refl _)
  · rename_i t ws hw
    have hmem : t ∈ (st.sema r).waiters := by simp [hw]
    have hpc := h.waiters_pc r t hmem
    have hnd := h.waiters_nodup r
    rw [hw, List.nodup_cons] at hnd
    have h₁ := h₀.setSema_sublist (r := r) (m := ⟨(st.sema r).value + 1, ws⟩) (by simp [hw])
    have hnw := h₁.toListsInv.not_waiter (t := t) (r := r) hpc (by simpa using hnd.1)
    have h₂ := h₁.setPc (t := t) (p := .woken r) (fun r' hr => absurd hr (hnw r'))
      (h.lt_of_status (h.waiters_blocked r t hmem)) (show (st.pc t).Plain by rw [hpc]; trivial)
      trivial
    exact h₂.unblock hnw (by simp [ThreadPc.Plain]) hs

lemma SchedInv.semaTryDown (h : st.SchedInv) (r : SemaRef σ ι) : (st.semaTryDown r).1.SchedInv := by
  dsimp only [SchedState.semaTryDown]
  split_ifs
  · exact h
  · exact { h.setSema_sublist (r := r) (m := ⟨(st.sema r).value - 1, (st.sema r).waiters⟩)
      (List.Sublist.refl _) with }

end Operations

/-! ### Every step keeps the invariant -/

section Step

variable [DecidableEq σ] [DecidableEq ι] {st st' : SchedState σ ι}

/-- `lock_try_acquire`: a lock taken is held from the next step. -/
lemma SchedInv.lockTryAcquire {l : ι} (h : st.SchedInv) (hp : (st.pc st.cur).Plain)
    (hs : (match st.semaTryDown (.lock l) with
      | (st', true) => some (st'.setPc st.cur (.setHolder l))
      | (st', false) => some st') = some st') : st'.SchedInv := by
  have hd := h.semaTryDown (.lock l)
  dsimp only [SchedState.semaTryDown] at hs hd
  split_ifs at hs hd
  · cases hs
    exact hd
  · cases hs
    exact hd.setPc_cur hp trivial

theorem SchedInv.step {e : SchedEvent σ ι} (h : st.SchedInv) (hs : st.schedStep e = some st') :
    st'.SchedInv := by
  cases e with
  | start s =>
    dsimp only [schedStep] at hs
    split_ifs at hs with hg
    cases hs
    exact h.start hg.2
  | create =>
    dsimp only [schedStep] at hs
    split_ifs at hs with hg
    cases hs
    have hcur : (st.spawnReady .free).pc st.cur = st.pc st.cur := by
      simp [SchedState.spawnReady, h.cur_lt.ne]
    have hsp : { st.spawnReady .free with
        sptInit := Function.update st.sptInit st.nextTid false }.SchedInv :=
      { h.spawnReady (p := .free) trivial with }
    exact hsp.setPc_cur (show ((st.spawnReady .free).pc st.cur).Plain by
      rw [hcur]; exact atFree_plain hg) trivial
  | initSpt =>
    dsimp only [schedStep] at hs
    split at hs
    · rename_i t hp
      cases hs
      exact SchedInv.setPc_cur { h with } (show (st.pc st.cur).Plain by rw [hp]; trivial) trivial
    · cases hs
  | yield =>
    dsimp only [schedStep] at hs
    split_ifs at hs
    exact h.yieldCur hs
  | tick =>
    dsimp only [schedStep] at hs
    have ht : { st with ticks := st.ticks + 1 }.SchedInv := { h with }
    split_ifs at hs
    · exact ht.yieldCur hs
    · cases hs
      exact ht
  | semaDown s =>
    dsimp only [schedStep] at hs
    split_ifs at hs with hg
    exact h.semaTest (atFree_plain hg) hs
  | semaTryDown s =>
    dsimp only [schedStep] at hs
    split_ifs at hs
    cases hs
    exact h.semaTryDown _
  | semaUp s =>
    dsimp only [schedStep] at hs
    split_ifs at hs
    exact h.semaUp hs
  | semaInit s v =>
    dsimp only [schedStep] at hs
    split_ifs at hs
    cases hs
    exact h.setSema_sublist (List.nil_sublist _)
  | retest =>
    dsimp only [schedStep] at hs
    split at hs
    · rename_i r hp
      exact h.semaTest (by rw [hp]; trivial) hs
    · cases hs
  | lockAcquire l =>
    dsimp only [schedStep] at hs
    split_ifs at hs with hg
    exact h.semaTest (atFree_plain hg.1) hs
  | setHolder =>
    dsimp only [schedStep] at hs
    split at hs
    · rename_i l hp
      cases hs
      exact SchedInv.setPc_cur { h with } (show (st.pc st.cur).Plain by rw [hp]; trivial) trivial
    · cases hs
  | lockTryAcquire l =>
    dsimp only [schedStep] at hs
    split_ifs at hs with hg
    exact h.lockTryAcquire (atFree_plain hg.1) hs
  | lockRelease l =>
    dsimp only [schedStep] at hs
    split_ifs at hs with hg
    cases hs
    exact SchedInv.setPc_cur { h with } (atFree_plain hg.1) trivial
  | releaseUp =>
    dsimp only [schedStep] at hs
    split at hs
    · rename_i l hp
      exact (h.setPc_cur (p := .free) (by rw [hp]; trivial) trivial).semaUp hs
    · cases hs
  | idleInit =>
    dsimp only [schedStep] at hs
    split at hs
    · rename_i s hp
      exact (h.becomeIdle hp).semaUp hs
    · cases hs
  | idleBlock =>
    dsimp only [schedStep, blockCur] at hs
    split_ifs at hs
    exact (h.preInv_leave (.inl rfl)).schedule hs
  | exit =>
    dsimp only [schedStep] at hs
    split_ifs at hs with hg
    exact (h.preInv_leave (.inr ⟨rfl, h.not_idle (atFree_plain hg)⟩)).schedule hs

end Step

end SchedState

/-! ### Every reachable state -/

variable {σ ι : Type}

lemma schedInit_waiters (v0 : σ → ℕ) (r : SemaRef σ ι) : ((schedInit v0).sema r).waiters = [] := by
  cases r <;> rfl

lemma schedInit_status_of_ne {v0 : σ → ℕ} {t : Tid} (ht : t ≠ initialTid) :
    (schedInit v0 : SchedState σ ι).status t = none := by
  simp [schedInit, ht]

/-- The initial thread runs, alone, and every list is empty. -/
theorem schedInit_schedInv (v0 : σ → ℕ) : (schedInit v0 : SchedState σ ι).SchedInv where
  ready_nodup := List.nodup_nil
  idle_not_ready _ hi := by cases hi
  waiters_blocked r t ht := by simp [schedInit_waiters] at ht
  waiters_nodup r := by simp [schedInit_waiters]
  waiters_pc r t ht := by simp [schedInit_waiters] at ht
  -- the tids from `nextTid` on are above the initial thread's
  fresh t ht := ⟨schedInit_status_of_ne (Nat.lt_of_lt_of_le (Nat.lt_succ_self _) ht).ne', rfl⟩
  idle_pc t := by simp [schedInit]
  idleStart_none _ _ hp := by cases hp
  idleStart_unique _ _ _ _ hp := by cases hp
  unstarted _ := ⟨rfl, fun _ _ hp => by cases hp⟩
  cur_running := by simp [schedInit]
  running_cur t ht := by
    by_contra htc
    rw [schedInit_status_of_ne htc] at ht
    cases ht
  ready_iff t _ := by
    by_cases htc : t = initialTid
    · simp [schedInit, htc]
    · rw [schedInit_status_of_ne htc]
      simp [schedInit]
  idle_status _ hi := by cases hi

variable [DecidableEq σ] [DecidableEq ι]

theorem SchedReachable.schedInv {st : SchedState σ ι} (h : SchedReachable st) : st.SchedInv := by
  induction h with
  | init v0 => exact schedInit_schedInv v0
  | step e _ hs ih => exact ih.step hs

/-- In every reachable state exactly one thread runs, the one `schedule` last switched to; a
thread other than `idle_thread` is ready exactly when it is on `ready_list`, once; `idle_thread`
is never on `ready_list`, and it is `NULL` while the thread `thread_start` created for `idle` has
not run; every waiter of a semaphore is blocked; and a thread is on at most one list. -/
theorem scheduler_state_invariant {st : SchedState σ ι} (h : SchedReachable st) :
    (st.status st.cur = some .running ∧ ∀ t, st.status t = some .running → t = st.cur) ∧
    (st.ready.Nodup ∧ ∀ t, st.idleThread ≠ some t → (t ∈ st.ready ↔ st.status t = some .ready)) ∧
    (∀ t, st.idleThread = some t → t ∉ st.ready) ∧
    (∀ t s, st.pc t = .idleStart s → st.idleThread = none) ∧
    (∀ r, ∀ t ∈ (st.sema r).waiters, st.status t = some .blocked) ∧
    (∀ r, (st.sema r).waiters.Nodup) ∧
    (∀ r t, t ∈ (st.sema r).waiters → t ∉ st.ready ∧ ∀ r', t ∈ (st.sema r').waiters → r' = r) := by
  have hi := h.schedInv
  refine ⟨⟨hi.cur_running, hi.running_cur⟩, ⟨hi.ready_nodup, hi.ready_iff⟩, hi.idle_not_ready,
    hi.idleStart_none, hi.waiters_blocked, hi.waiters_nodup, fun r t ht => ⟨fun hr => ?_, ?_⟩⟩
  · -- a waiter is blocked, so it is on the ready list only as the idle thread, which is not
    by_cases hit : st.idleThread = some t
    · exact hi.idle_not_ready t hit hr
    · have hs := (hi.ready_iff t hit).mp hr
      rw [hi.waiters_blocked r t ht] at hs
      cases hs
  · -- a waiter's program point names the one semaphore it waits on
    intro r' ht'
    have hpc := hi.waiters_pc r' t ht'
    rw [hi.waiters_pc r t ht] at hpc
    cases hpc
    rfl

/-- After `thread_start`, the initial thread's `sema_down (&idle_started)` and the idle thread's
first steps, thread 2 is `idle_thread`, off the ready list. -/
theorem scheduler_state_invariant_after_idle_start :
    ∃ st, schedRun (schedInit (fun _ => 0) : SchedState Unit Unit)
        [.start (), .semaDown (), .idleInit] = some st ∧
      st.idleThread = some 2 ∧ 2 ∉ st.ready ∧ st.status st.cur = some .running := by
  have hrun : (schedRun (schedInit (fun _ => 0) : SchedState Unit Unit)
      [.start (), .semaDown (), .idleInit]).map (·.idleThread) = some (some 2) := by
    decide
  obtain ⟨st, hs, hidle⟩ := Option.map_eq_some_iff.mp hrun
  have hinv := scheduler_state_invariant ((SchedReachable.init _).run hs)
  exact ⟨st, hs, hidle, hinv.2.2.1 2 hidle, hinv.1.1⟩

/-- Right after `thread_start`, thread 2, which becomes `idle_thread` once it runs, is ready
and on `ready_list`. -/
theorem idle_thread_on_ready_list :
    (∃ st, schedRun (schedInit (fun _ => 0) : SchedState Unit Unit) [.start ()] = some st ∧
      SchedReachable st ∧ 2 ∈ st.ready ∧ st.status 2 = some .ready ∧ st.idleThread = none) ∧
    ∃ st, schedRun (schedInit (fun _ => 0) : SchedState Unit Unit)
        [.start (), .semaDown (), .idleInit] = some st ∧ st.idleThread = some 2 := by
  have hstart : (schedRun (schedInit (fun _ => 0) : SchedState Unit Unit) [.start ()]).map
      (fun st => (decide (2 ∈ st.ready), st.status 2, st.idleThread)) =
      some (true, some .ready, none) := by
    decide
  have hidle : (schedRun (schedInit (fun _ => 0) : SchedState Unit Unit)
      [.start (), .semaDown (), .idleInit]).map (·.idleThread) = some (some 2) := by
    decide
  obtain ⟨st, hs, he⟩ := Option.map_eq_some_iff.mp hstart
  simp only [Prod.mk.injEq, decide_eq_true_eq] at he
  obtain ⟨st', hs', hi⟩ := Option.map_eq_some_iff.mp hidle
  exact ⟨⟨st, hs, (SchedReachable.init _).run hs, he.1, he.2.1, he.2.2⟩, st', hs', hi⟩

end TinyOs
