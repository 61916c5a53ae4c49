import TinyOs.Threads.SchedInv
import TinyOs.Lib.Count

/-!
Semaphores and locks over every run of the thread system. `sema_up` wakes a waiter and
increments the value in one atomic section, but the woken thread only tests the value again
when it runs, and another thread may take the unit first: the woken thread then waits again.
So no wake-up is lost only because, while a semaphore has waiters, its value is covered by the
threads woken from it that have not yet made that test.

* `pcCount`: the threads at a program point, counted below `nextTid`;
* `SemaCount`: the counting invariant of one semaphore: value and completed downs against
  the initial value and the completed ups, the waiters as the threads blocked in `sema_down`
  on it, and the value under the count of woken threads while there are waiters;
* `LockInv`: the lock's unit is in its semaphore's value, with a thread between `sema_down`
  and `lock->holder = thread_current ()`, with a thread between `lock->holder = NULL` and
  `sema_up`, or with the one thread between `lock_acquire` and `lock_release`, which
  `lock->holder` names;
* `SemaCount.step`, `LockInv.step`: every step keeps them, unless it is a `sema_init` of the
  semaphore itself;
* `upOf`, `downOf`, `runCount`: the semaphore a step calls `sema_up` on, the one on which a down
  of the step returns, and their count along a run; `Tally.step`, `Tally.run`: the model's
  counters `ups` and `downs` move by exactly those, so that
  `semaphores_count_and_locks_exclude` states the count in the calls of the run.
-/

namespace TinyOs
namespace SchedState

variable {σ ι : Type}

lemma afterDown_ne_waiting (r r' : SemaRef σ ι) : afterDown r ≠ .waiting r' := by
  cases r <;> simp [afterDown]

lemma afterDown_ne_woken (r r' : SemaRef σ ι) : afterDown r ≠ .woken r' := by
  cases r <;> simp [afterDown]

lemma afterDown_ne_setHolder {r : SemaRef σ ι} {l : ι} (hr : r ≠ .lock l) :
    afterDown r ≠ .setHolder l := by
  cases r with
  | sema s => simp [afterDown]
  | lock l' => simpa [afterDown] using hr

lemma unblock_eq_some {st st' : SchedState σ ι} {t : Tid} (hu : st.unblock t = some st') :
    st' = { st with ready := st.ready ++ [t] }.setStatus t (some .ready) := by
  unfold SchedState.unblock at hu
  split_ifs at hu
  exact (Option.some.inj hu).symm

variable [DecidableEq σ] [DecidableEq ι]

lemma pc_cur_of_atFree {st : SchedState σ ι} (h : st.atFree = true) : st.pc st.cur = .free := by
  simpa [atFree] using h

/-- The threads at program point `p`. -/
def pcCount (st : SchedState σ ι) (p : ThreadPc σ ι) : ℕ :=
  Nat.count (fun t => st.pc t = p) st.nextTid

/-! ### Counting threads at a program point -/

section PcCount

variable {st : SchedState σ ι}

lemma pcCount_setPc (st : SchedState σ ι) {t : Tid} (ht : t < st.nextTid) (q p : ThreadPc σ ι) :
    (st.setPc t q).pcCount p + (if st.pc t = p then 1 else 0) =
      st.pcCount p + (if q = p then 1 else 0) := by
  have h := Nat.count_add_ite_of_agree (p := fun u => (st.setPc t q).pc u = p)
    (q := fun u => st.pc u = p) ht fun u _ hu => by simp [hu]
  simpa [pcCount] using h

lemma pcCount_setPc_of_ne (st : SchedState σ ι) {t : Tid} {q p : ThreadPc σ ι} (hold : st.pc t ≠ p)
    (hnew : q ≠ p) :
    (st.setPc t q).pcCount p = st.pcCount p :=
  Nat.count_eq_of_agree fun u _ => by
    by_cases hu : u = t
    · subst hu
      simp [hold, hnew]
    · simp [hu]

lemma pcCount_spawnReady (q p : ThreadPc σ ι) :
    (st.spawnReady q).pcCount p = st.pcCount p + if q = p then 1 else 0 := by
  unfold pcCount
  rw [show (st.spawnReady q).nextTid = st.nextTid + 1 from rfl, Nat.count_succ]
  congr 1
  · exact Nat.count_eq_of_agree fun u hu => by simp [SchedState.spawnReady, hu.ne]
  · simp [SchedState.spawnReady]

end PcCount

/-! ### The counting invariant of one semaphore -/

/-- The counting invariant of semaphore `r`, initialised to `b`. -/
structure SemaCount (st : SchedState σ ι) (r : SemaRef σ ι) (b : ℕ) : Prop where
  value_add_downs : (st.sema r).value + st.downs r = b + st.ups r
  mem_waiters : ∀ t, t ∈ (st.sema r).waiters ↔ st.pc t = .waiting r
  value_le_woken : (st.sema r).waiters ≠ [] → (st.sema r).value ≤ st.pcCount (.woken r)

section SemaCount

variable {st st' : SchedState σ ι} {r : SemaRef σ ι} {b : ℕ}

/-- A step that leaves semaphore `r`, its counters, the threads waiting on it and the number of
threads woken from it as they are. -/
lemma SemaCount.congr (h : st.SemaCount r b) (hsema : st'.sema r = st.sema r)
    (hups : st'.ups r = st.ups r) (hdowns : st'.downs r = st.downs r)
    (hwait : ∀ t, st'.pc t = .waiting r ↔ st.pc t = .waiting r)
    (hwoken : st'.pcCount (.woken r) = st.pcCount (.woken r)) : st'.SemaCount r b where
  value_add_downs := by
    rw [hsema, hups, hdowns]
    exact h.value_add_downs
  mem_waiters t := by
    rw [hsema, hwait]
    exact h.mem_waiters t
  value_le_woken hw := by
    rw [hsema] at hw ⊢
    rw [hwoken]
    exact h.value_le_woken hw

lemma SemaCount.schedule (h : st.SemaCount r b) (hs : st.schedule = some st') :
    st'.SemaCount r b := by
  obtain ⟨_, _, -, _, -, rfl⟩ := schedule_eq_some hs
  exact { h with }

lemma SemaCount.unblock {t : Tid} (h : st.SemaCount r b) (hu : st.unblock t = some st') :
    st'.SemaCount r b := by
  rw [unblock_eq_some hu]
  exact { h with }

/-- Thread `t` moves between program points that neither wait on `r` nor were woken from it. -/
lemma SemaCount.setPc {t : Tid} {q : ThreadPc σ ι} (h : st.SemaCount r b)
    (hold : st.pc t ≠ .waiting r ∧ st.pc t ≠ .woken r) (hnew : q ≠ .waiting r ∧ q ≠ .woken r) :
    (st.setPc t q).SemaCount r b := by
  refine h.congr rfl rfl rfl (fun u => ?_) (pcCount_setPc_of_ne _ hold.2 hnew.2)
  by_cases hu : u = t
  · subst hu
    simp [hold.1, hnew.1]
  · simp [hu]

lemma SemaCount.setSema_of_ne {r' : SemaRef σ ι} {m : Semaphore} (h : st.SemaCount r b)
    (hr : r' ≠ r) : (st.setSema r' m).SemaCount r b :=
  h.congr (by simp [Ne.symm hr]) rfl rfl (fun _ => Iff.rfl) rfl

/-- A new thread, at a point that neither waits on `r` nor was woken from it. -/
lemma SemaCount.spawnReady {q : ThreadPc σ ι} (h : st.SemaCount r b) (hi : st.SchedInv)
    (hq : q ≠ .waiting r ∧ q ≠ .woken r) : (st.spawnReady q).SemaCount r b := by
  refine h.congr rfl rfl rfl (fun u => ?_) (by simp [pcCount_spawnReady, hq.2])
  by_cases hu : u = st.nextTid
  · subst hu
    simp [SchedState.spawnReady, hq.1, (hi.fresh _ le_rfl).2]
  · simp [SchedState.spawnReady, hu]

/-- `sema_down` on `r` with a zero value: the running thread joins the waiters. -/
lemma SemaCount.wait (h : st.SemaCount r b) (hv : (st.sema r).value = 0) :
    ((st.setSema r ⟨(st.sema r).value, (st.sema r).waiters ++ [st.cur]⟩).setPc st.cur
      (.waiting r)).SemaCount r b := by
  refine ⟨by simpa using h.value_add_downs, fun t => ?_, fun _ => by simp [hv]⟩
  by_cases htc : t = st.cur
  · subst htc
    simp
  · simpa [htc] using h.mem_waiters t

/-- `sema_down` on `r` with a positive value: the running thread, which came from its own code
or from a wake-up on `r`, takes a unit. -/
lemma SemaCount.take (h : st.SemaCount r b) (hi : st.SchedInv) (hv : (st.sema r).value ≠ 0) :
    { (st.setSema r ⟨(st.sema r).value - 1, (st.sema r).waiters⟩).setPc st.cur (afterDown r) with
      downs := Function.update st.downs r (st.downs r + 1) }.SemaCount r b := by
  have hcount := pcCount_setPc (st.setSema r ⟨(st.sema r).value - 1, (st.sema r).waiters⟩)
    hi.cur_lt (afterDown r) (.woken r)
  refine ⟨?_, fun t => ?_, fun hw => ?_⟩
  · have := h.value_add_downs
    simp
    omega
  · by_cases htc : t = st.cur
    · subst htc
      simp [hi.cur_not_waiter r, afterDown_ne_waiting]
    · simpa [htc] using h.mem_waiters t
  · -- one unit fewer, and at most one woken thread fewer
    have hle := h.value_le_woken (by simpa using hw)
    simp [pcCount, afterDown_ne_woken] at hcount hle ⊢
    split_ifs at hcount <;> omega

/-- One test of `sema_down`'s loop on `r'` by the running thread, which comes from its own code
or from a wake-up on `r'`. -/
lemma SemaCount.semaTest {r' : SemaRef σ ι} (h : st.SemaCount r b) (hi : st.SchedInv)
    (hp : st.pc st.cur = .free ∨ st.pc st.cur = .woken r') (hs : st.semaTest r' = some st') :
    st'.SemaCount r b := by
  -- the running thread's point is about `r` only when `r' = r`
  have hold : r' ≠ r → st.pc st.cur ≠ .waiting r ∧ st.pc st.cur ≠ .woken r := fun hr => by
    rcases hp with hp | hp <;> simp [hp, hr]
  dsimp only [SchedState.semaTest, blockCur] at hs
  split_ifs at hs with hv
  · refine SemaCount.schedule ?_ hs
    by_cases hr : r' = r
    · subst hr
      exact { h.wait hv with }
    · exact { (h.setSema_of_ne hr).setPc (hold hr) (by simp [hr]) with }
  · cases hs
    by_cases hr : r' = r
    · subst hr
      exact h.take hi hv
    · have h' := (h.setSema_of_ne (m := ⟨(st.sema r').value - 1, (st.sema r').waiters⟩) hr).setPc
        (t := st.cur) (q := afterDown r') (hold hr)
        ⟨afterDown_ne_waiting _ _, afterDown_ne_woken _ _⟩
      exact h'.congr rfl rfl (by simp [Ne.symm hr]) (fun _ => Iff.rfl) rfl

/-- `sema_up` on `r'`: the value goes up, and the first waiter, if any, is woken. -/
lemma SemaCount.semaUp {r' : SemaRef σ ι} (h : st.SemaCount r b) (hi : st.SchedInv)
    (hs : st.semaUp r' = some st') : st'.SemaCount r b := by
  dsimp only [SchedState.semaUp] at hs
  split at hs
  · rename_i hw
    cases hs
    by_cases hr : r' = r
    · subst hr
      refine ⟨?_, fun t => by simpa using h.mem_waiters t, fun hw' => by simp [hw] at hw'⟩
      have := h.value_add_downs
      simp
      omega
    · exact h.congr (by simp [Ne.symm hr]) (by simp [Ne.symm hr]) rfl (fun _ => Iff.rfl) rfl
  · rename_i t ws hw
    refine SemaCount.unblock ?_ hs
    have hmem : t ∈ (st.sema r').waiters := by simp [hw]
    have hpc := hi.waiters_pc r' t hmem
    have hlt := hi.lt_of_status (hi.waiters_blocked r' t hmem)
    by_cases hr : r' = r
    · subst hr
      -- the woken thread leaves the waiters and is one more woken thread
      have hnd := hi.waiters_nodup r'
      rw [hw, List.nodup_cons] at hnd
      have hcount := pcCount_setPc st hlt (.woken r') (.woken r')
      refine ⟨?_, fun u => ?_, fun hws => ?_⟩
      · have := h.value_add_downs
        simp
        omega
      · by_cases hut : u = t
        · subst hut
          simp [hnd.1]
        · have hu := h.mem_waiters u
          rw [hw] at hu
          simpa [hut] using hu
      · have hle := h.value_le_woken (by simp [hw])
        simp [pcCount, hpc] at hcount hle ⊢
        omega
    · have h₀ : { st with ups := Function.update st.ups r' (st.ups r' + 1) }.SemaCount r b :=
        h.congr rfl (by simp [Ne.symm hr]) rfl (fun _ => Iff.rfl) rfl
      exact (h₀.setSema_of_ne hr).setPc (by simp [hpc, hr]) (by simp [hr])

lemma SemaCount.semaTryDown {r' : SemaRef σ ι} (h : st.SemaCount r b) :
    (st.semaTryDown r').1.SemaCount r b := by
  dsimp only [SchedState.semaTryDown]
  split_ifs with hv
  · exact h
  · by_cases hr : r' = r
    · subst hr
      refine ⟨?_, fun t => by simpa using h.mem_waiters t, fun hw => ?_⟩
      · have := h.value_add_downs
        simp
        omega
      · have hle := h.value_le_woken (by simpa using hw)
        simp [pcCount] at hle ⊢
        omega
    · exact h.congr (by simp [Ne.symm hr]) rfl (by simp [Ne.symm hr]) (fun _ => Iff.rfl) rfl

lemma SemaCount.yieldCur (h : st.SemaCount r b) (hy : st.yieldCur = some st') :
    st'.SemaCount r b := by
  dsimp only [SchedState.yieldCur] at hy
  split_ifs at hy
  · refine SemaCount.schedule ?_ hy
    exact { h with }
  · refine SemaCount.schedule ?_ hy
    exact { h with }

/-- `lock_try_acquire` from the running thread's own code. -/
lemma SemaCount.lockTryAcquire {l : ι} (h : st.SemaCount r b) (hp : st.pc st.cur = .free)
    (hs : (match st.semaTryDown (.lock l) with
      | (st', true) => some (st'.setPc st.cur (.setHolder l))
      | (st', false) => some st') = some st') : st'.SemaCount r b := by
  have hd : (st.semaTryDown (.lock l)).1.SemaCount r b := h.semaTryDown
  dsimp only [SchedState.semaTryDown] at hs hd
  split_ifs at hs hd
  · cases hs
    exact hd
  · cases hs
    exact hd.setPc (by simp [hp]) (by simp)

/-- Every step keeps the count of `r`, but a `sema_init` of `r` itself. -/
theorem SemaCount.step {e : SchedEvent σ ι} (h : st.SemaCount r b) (hi : st.SchedInv)
    (hr : ∀ s v, e = .semaInit s v → r ≠ .sema s) (hs : st.schedStep e = some st') :
    st'.SemaCount r b := by
  cases e with
  | start s =>
    dsimp only [schedStep] at hs
    split_ifs at hs
    cases hs
    exact { h.spawnReady hi (q := .idleStart s) (by simp) with }
  | create =>
    dsimp only [schedStep] at hs
    split_ifs at hs with hg
    cases hs
    have h₁ : { st.spawnReady .free with
        sptInit := Function.update st.sptInit st.nextTid false }.SemaCount r b :=
      { h.spawnReady hi (q := .free) (by simp) with }
    -- the creator goes on from its own code to `init_supplemental_pagetable`
    exact h₁.setPc (by simp [SchedState.spawnReady, Function.update_apply, pc_cur_of_atFree hg])
      (by simp)
  | initSpt =>
    dsimp only [schedStep] at hs
    split at hs
    · rename_i t hp
      cases hs
      exact SemaCount.setPc { h with } (by simp [hp]) (by simp)
    · cases hs
  | yield =>
    dsimp only [schedStep] at hs
    split_ifs at hs
    exact h.yieldCur hs
  | tick =>
    dsimp only [schedStep] at hs
    have ht : { st with ticks := st.ticks + 1 }.SemaCount r b := { h with }
    split_ifs at hs
    · exact ht.yieldCur hs
    · cases hs
      exact ht
  | semaDown s =>
    dsimp only [schedStep] at hs
    split_ifs at hs with hg
    exact h.semaTest hi (.inl (pc_cur_of_atFree hg)) hs
  | semaTryDown s =>
    dsimp only [schedStep] at hs
    split_ifs at hs
    cases hs
    exact h.semaTryDown
  | semaUp s =>
    dsimp only [schedStep] at hs
    split_ifs at hs
    exact h.semaUp hi hs
  | semaInit s v =>
    dsimp only [schedStep] at hs
    split_ifs at hs
    cases hs
    exact h.setSema_of_ne (Ne.symm (hr s v rfl))
  | retest =>
    dsimp only [schedStep] at hs
    split at hs
    · rename_i r' hp
      exact h.semaTest hi (.inr hp) hs
    · cases hs
  | lockAcquire l =>
    dsimp only [schedStep] at hs
    split_ifs at hs with hg
    exact h.semaTest hi (.inl (pc_cur_of_atFree hg.1)) hs
  | setHolder =>
    dsimp only [schedStep] at hs
    split at hs
    · rename_i l hp
      cases hs
      exact SemaCount.setPc { h with } (by simp [hp]) (by simp)
    · cases hs
  | lockTryAcquire l =>
    dsimp only [schedStep] at hs
    split_ifs at hs with hg
    exact h.lockTryAcquire (pc_cur_of_atFree hg.1) hs
  | lockRelease l =>
    dsimp only [schedStep] at hs
    split_ifs at hs with hg
    cases hs
    exact SemaCount.setPc { h with } (by simp [pc_cur_of_atFree hg.1]) (by simp)
  | releaseUp =>
    dsimp only [schedStep] at hs
    split at hs
    · rename_i l hp
      have hi' := hi.setPc_cur (p := .free) (by rw [hp]; trivial) trivial
      exact (h.setPc (by simp [hp]) (by simp)).semaUp hi' hs
    · cases hs
  | idleInit =>
    dsimp only [schedStep] at hs
    split at hs
    · rename_i s hp
      have h₀ : { st with idleThread := some st.cur }.SemaCount r b := { h with }
      have h₁ := h₀.setPc (t := st.cur) (q := .idleLoop) (by simp [hp]) (by simp)
      exact h₁.semaUp (hi.becomeIdle hp) hs
    · cases hs
  | idleBlock =>
    dsimp only [schedStep, blockCur] at hs
    split_ifs at hs
    refine SemaCount.schedule ?_ hs
    exact { h with }
  | exit =>
    dsimp only [schedStep] at hs
    split_ifs at hs
    refine SemaCount.schedule ?_ hs
    exact { h with }

end SemaCount

/-! ### A lock's unit -/

/-- The unit of lock `l`: in its semaphore's value, with a thread between `sema_down` and
`lock->holder = thread_current ()`, with a thread between `lock->holder = NULL` and `sema_up`,
or with the thread between `lock_acquire` and `lock_release`, which `lock->holder` names. -/
structure LockInv (st : SchedState σ ι) (l : ι) : Prop where
  units : (st.sema (.lock l)).value + st.pcCount (.setHolder l) + st.pcCount (.releaseUp l) +
    (st.owners l).length = 1
  holder_eq : st.holder l = (st.owners l).head?

section LockInv

variable {st st' : SchedState σ ι} {l : ι}

lemma LockInv.congr (h : st.LockInv l)
    (hv : (st'.sema (.lock l)).value = (st.sema (.lock l)).value)
    (hs : st'.pcCount (.setHolder l) = st.pcCount (.setHolder l))
    (hr : st'.pcCount (.releaseUp l) = st.pcCount (.releaseUp l))
    (ho : st'.owners l = st.owners l) (hh : st'.holder l = st.holder l) : st'.LockInv l where
  units := by
    rw [hv, hs, hr, ho]
    exact h.units
  holder_eq := by
    rw [hh, ho]
    exact h.holder_eq

/-- The one thread between `lock_acquire` and `lock_release`. -/
lemma LockInv.owners_length_le (h : st.LockInv l) : (st.owners l).length ≤ 1 := by
  have := h.units
  omega

lemma LockInv.schedule (h : st.LockInv l) (hs : st.schedule = some st') : st'.LockInv l := by
  obtain ⟨_, _, -, _, -, rfl⟩ := schedule_eq_some hs
  exact { h with }

lemma LockInv.unblock {t : Tid} (h : st.LockInv l) (hu : st.unblock t = some st') :
    st'.LockInv l := by
  rw [unblock_eq_some hu]
  exact { h with }

/-- Thread `t` moves between program points that hold no unit of `l`. -/
lemma LockInv.setPc {t : Tid} {q : ThreadPc σ ι} (h : st.LockInv l)
    (hold : st.pc t ≠ .setHolder l ∧ st.pc t ≠ .releaseUp l)
    (hnew : q ≠ .setHolder l ∧ q ≠ .releaseUp l) : (st.setPc t q).LockInv l :=
  h.congr rfl (pcCount_setPc_of_ne _ hold.1 hnew.1) (pcCount_setPc_of_ne _ hold.2 hnew.2) rfl rfl

lemma LockInv.setSema_of_ne {r : SemaRef σ ι} {m : Semaphore} (h : st.LockInv l)
    (hr : r ≠ .lock l) : (st.setSema r m).LockInv l :=
  h.congr (by simp [Ne.symm hr]) rfl rfl rfl rfl

lemma LockInv.spawnReady {q : ThreadPc σ ι} (h : st.LockInv l)
    (hq : q ≠ .setHolder l ∧ q ≠ .releaseUp l) : (st.spawnReady q).LockInv l :=
  h.congr rfl (by simp [pcCount_spawnReady, hq.1]) (by simp [pcCount_spawnReady, hq.2]) rfl rfl

/-- One test of `sema_down`'s loop on `r`: on the lock's semaphore a positive value passes the
unit to the running thread, now before `lock->holder = thread_current ()`. -/
lemma LockInv.semaTest {r : SemaRef σ ι} (h : st.LockInv l) (hi : st.SchedInv)
    (hp : st.pc st.cur = .free ∨ st.pc st.cur = .woken r) (hs : st.semaTest r = some st') :
    st'.LockInv l := by
  have hold : st.pc st.cur ≠ .setHolder l ∧ st.pc st.cur ≠ .releaseUp l := by
    rcases hp with hp | hp <;> simp [hp]
  dsimp only [SchedState.semaTest, blockCur] at hs
  split_ifs at hs with hv
  · -- the running thread waits, and the value stays
    refine LockInv.schedule ?_ hs
    have h₁ : (st.setSema r ⟨(st.sema r).value, (st.sema r).waiters ++ [st.cur]⟩).LockInv l := by
      by_cases hr : r = .lock l
      · subst hr
        exact h.congr (by simp) rfl rfl rfl rfl
      · exact h.setSema_of_ne hr
    exact { h₁.setPc hold (by simp) with }
  · cases hs
    by_cases hr : r = .lock l
    · subst hr
      have hS := pcCount_setPc st hi.cur_lt (.setHolder l) (.setHolder l)
      have hR := pcCount_setPc_of_ne st (t := st.cur) (q := .setHolder l) hold.2 (by simp)
      have hu := h.units
      refine ⟨?_, by simpa using h.holder_eq⟩
      simp only [pcCount] at hS hR hu ⊢
      simp [afterDown, hold.1] at hS hR ⊢
      omega
    · have h₁ := (h.setSema_of_ne (m := ⟨(st.sema r).value - 1, (st.sema r).waiters⟩) hr).setPc
        (t := st.cur) (q := afterDown r) hold
        ⟨afterDown_ne_setHolder hr, by cases r <;> simp [afterDown]⟩
      exact { h₁ with }

/-- `sema_up` on a semaphore other than the lock's. -/
lemma LockInv.semaUp_of_ne {r : SemaRef σ ι} (h : st.LockInv l) (hi : st.SchedInv)
    (hr : r ≠ .lock l) (hs : st.semaUp r = some st') : st'.LockInv l := by
  dsimp only [SchedState.semaUp] at hs
  have h₀ : { st with ups := Function.update st.ups r (st.ups r + 1) }.LockInv l := { h with }
  split at hs
  · cases hs
    exact h₀.setSema_of_ne hr
  · rename_i t ws hw
    refine LockInv.unblock ?_ hs
    have hpc := hi.waiters_pc r t (by simp [hw])
    exact (h₀.setSema_of_ne hr).setPc (by simp [hpc]) (by simp)

/-- `sema_up` on the lock's semaphore puts one unit more in its value; the woken thread, if
any, holds none. -/
lemma semaUp_lock_units (hi : st.SchedInv) (hs : st.semaUp (.lock l) = some st') :
    (st'.sema (.lock l)).value = (st.sema (.lock l)).value + 1 ∧
      st'.pcCount (.setHolder l) = st.pcCount (.setHolder l) ∧
      st'.pcCount (.releaseUp l) = st.pcCount (.releaseUp l) ∧
      st'.owners = st.owners ∧ st'.holder = st.holder := by
  dsimp only [SchedState.semaUp] at hs
  split at hs
  · cases hs
    exact ⟨by simp, rfl, rfl, rfl, rfl⟩
  · rename_i t ws hw
    rw [unblock_eq_some hs]
    have hpc := hi.waiters_pc (.lock l) t (by simp [hw])
    exact ⟨by simp, pcCount_setPc_of_ne _ (by simp [hpc]) (by simp),
      pcCount_setPc_of_ne _ (by simp [hpc]) (by simp), rfl, rfl⟩

/-- `lock_release`'s `sema_up`: the unit goes from the releasing thread back to the value. -/
lemma LockInv.releaseUp (h : st.LockInv l) (hi : st.SchedInv)
    (hp : st.pc st.cur = .releaseUp l)
    (hs : (st.setPc st.cur .free).semaUp (.lock l) = some st') : st'.LockInv l := by
  have hR := pcCount_setPc st hi.cur_lt .free (.releaseUp l)
  simp only [hp, if_true, reduceCtorEq, if_false, add_zero] at hR
  have hS := pcCount_setPc_of_ne st (t := st.cur) (q := .free) (p := .setHolder l) (by simp [hp])
    (by simp)
  obtain ⟨hv, hS', hR', ho, hh⟩ :=
    semaUp_lock_units (hi.setPc_cur (p := .free) (by rw [hp]; trivial) trivial) hs
  have hu := h.units
  refine ⟨?_, by rw [hh, ho]; exact h.holder_eq⟩
  rw [hv, hS', hR', ho, hS]
  simp only [setPc_sema, setPc_owners] at hu ⊢
  omega

lemma LockInv.semaTryDown_of_ne {r : SemaRef σ ι} (h : st.LockInv l) (hr : r ≠ .lock l) :
    (st.semaTryDown r).1.LockInv l := by
  dsimp only [SchedState.semaTryDown]
  split_ifs
  · exact h
  · exact { h.setSema_of_ne (m := ⟨(st.sema r).value - 1, (st.sema r).waiters⟩) hr with }

/-- `lock_try_acquire` of `l'` from the running thread's own code: on `l` a taken unit goes from
the value to the thread. -/
lemma LockInv.lockTryAcquire {l' : ι} (h : st.LockInv l) (hi : st.SchedInv)
    (hp : st.pc st.cur = .free)
    (hs : (match st.semaTryDown (.lock l') with
      | (st', true) => some (st'.setPc st.cur (.setHolder l'))
      | (st', false) => some st') = some st') : st'.LockInv l := by
  dsimp only [SchedState.semaTryDown] at hs
  split_ifs at hs
  · cases hs
    exact h
  · cases hs
    by_cases hl : l' = l
    · subst hl
      have hS := pcCount_setPc st hi.cur_lt (.setHolder l') (.setHolder l')
      have hR := pcCount_setPc_of_ne st (t := st.cur) (q := .setHolder l') (p := .releaseUp l')
        (by simp [hp]) (by simp)
      have hu := h.units
      refine ⟨?_, by simpa using h.holder_eq⟩
      simp only [pcCount] at hS hR hu ⊢
      simp [hp] at hS hR ⊢
      omega
    · have h₁ := h.setSema_of_ne (r := .lock l')
        (m := ⟨(st.sema (.lock l')).value - 1, (st.sema (.lock l')).waiters⟩) (by simp [hl])
      have h₂ : { st.setSema (.lock l')
          ⟨(st.sema (.lock l')).value - 1, (st.sema (.lock l')).waiters⟩ with
          downs := Function.update st.downs (.lock l') (st.downs (.lock l') + 1) }.LockInv l :=
        { h₁ with }
      exact h₂.setPc (by simp [hp]) (by simp [hl])

/-- `lock->holder = thread_current ()`: the thread that took the unit of `l'` becomes its
owner; there was none. -/
lemma LockInv.setHolder {l' : ι} (h : st.LockInv l) (hi : st.SchedInv)
    (hp : st.pc st.cur = .setHolder l') :
    ({ st with
      holder := Function.update st.holder l' (some st.cur)
      owners := Function.update st.owners l' (st.owners l' ++ [st.cur]) }.setPc st.cur
        .free).LockInv l := by
  by_cases hl : l' = l
  · subst hl
    have hS := pcCount_setPc st hi.cur_lt .free (.setHolder l')
    have hR := pcCount_setPc_of_ne st (t := st.cur) (q := .free) (p := .releaseUp l')
      (by simp [hp]) (by simp)
    have hpos : 0 < st.pcCount (.setHolder l') := Nat.count_pos_of_lt hi.cur_lt hp
    have hu := h.units
    -- the thread at `setHolder` holds the unit, so the lock has no owner yet
    have hnil : st.owners l' = [] := List.eq_nil_of_length_eq_zero (by omega)
    refine ⟨?_, by simp [hnil]⟩
    simp only [pcCount] at hS hR hu hpos ⊢
    simp [hp, hnil] at hS hR ⊢
    omega
  · have h₁ : { st with
        holder := Function.update st.holder l' (some st.cur)
        owners := Function.update st.owners l' (st.owners l' ++ [st.cur]) }.LockInv l :=
      h.congr rfl rfl rfl (by simp [Ne.symm hl]) (by simp [Ne.symm hl])
    exact h₁.setPc (by simp [hp, hl]) (by simp)

/-- `lock_release` of `l'` up to `lock->holder = NULL`: the owner gives the unit up and moves
on to `sema_up`. -/
lemma LockInv.lockRelease {l' : ι} (h : st.LockInv l) (hi : st.SchedInv)
    (hp : st.pc st.cur = .free) (hh : st.holder l' = some st.cur) :
    ({ st with
      holder := Function.update st.holder l' none
      owners := Function.update st.owners l' ((st.owners l').erase st.cur) }.setPc st.cur
        (.releaseUp l')).LockInv l := by
  by_cases hl : l' = l
  · subst hl
    -- the holder is the lock's one owner
    have hown : st.owners l' = [st.cur] := by
      have he := h.holder_eq
      have hlen := h.owners_length_le
      rw [hh] at he
      rcases ho : st.owners l' with _ | ⟨a, rest⟩
      · rw [ho] at he
        cases he
      · rw [ho] at he hlen
        simp only [List.head?_cons, Option.some.injEq] at he
        have hrest : rest = [] := by simpa using hlen
        rw [he, hrest]
    have hS := pcCount_setPc_of_ne st (t := st.cur) (q := .releaseUp l') (p := .setHolder l')
      (by simp [hp]) (by simp)
    have hR := pcCount_setPc st hi.cur_lt (.releaseUp l') (.releaseUp l')
    have hu := h.units
    refine ⟨?_, by simp [hown]⟩
    simp only [pcCount] at hS hR hu ⊢
    simp [hp, hown] at hS hR hu ⊢
    omega
  · have h₁ : { st with
        holder := Function.update st.holder l' none
        owners := Function.update st.owners l' ((st.owners l').erase st.cur) }.LockInv l :=
      h.congr rfl rfl rfl (by simp [Ne.symm hl]) (by simp [Ne.symm hl])
    exact h₁.setPc (by simp [hp]) (by simp [hl])

lemma LockInv.yieldCur (h : st.LockInv l) (hy : st.yieldCur = some st') : st'.LockInv l := by
  dsimp only [SchedState.yieldCur] at hy
  split_ifs at hy
  · refine LockInv.schedule ?_ hy
    exact { h with }
  · refine LockInv.schedule ?_ hy
    exact { h with }

/-- Every step keeps the unit of `l` where `LockInv` says it is. -/
theorem LockInv.step {e : SchedEvent σ ι} (h : st.LockInv l) (hi : st.SchedInv)
    (hs : st.schedStep e = some st') : st'.LockInv l := by
  cases e with
  | start s =>
    dsimp only [schedStep] at hs
    split_ifs at hs
    cases hs
    exact { h.spawnReady (q := .idleStart s) (by simp) with }
  | create =>
    dsimp only [schedStep] at hs
    split_ifs at hs with hg
    cases hs
    have h₁ : { st.spawnReady .free with
        sptInit := Function.update st.sptInit st.nextTid false }.LockInv l :=
      { h.spawnReady (q := .free) (by simp) with }
    exact h₁.setPc (by simp [SchedState.spawnReady, Function.update_apply, pc_cur_of_atFree hg])
      (by simp)
  | initSpt =>
    dsimp only [schedStep] at hs
    split at hs
    · rename_i t hp
      cases hs
      exact LockInv.setPc { h with } (by simp [hp]) (by simp)
    · cases hs
  | yield =>
    dsimp only [schedStep] at hs
    split_ifs at hs
    exact h.yieldCur hs
  | tick =>
    dsimp only [schedStep] at hs
    have ht : { st with ticks := st.ticks + 1 }.LockInv l := { h with }
    split_ifs at hs
    · exact ht.yieldCur hs
    · cases hs
      exact ht
  | semaDown s =>
    dsimp only [schedStep] at hs
    split_ifs at hs with hg
    exact h.semaTest hi (.inl (pc_cur_of_atFree hg)) hs
  | semaTryDown s =>
    dsimp only [schedStep] at hs
    split_ifs at hs
    cases hs
    exact h.semaTryDown_of_ne (by simp)
  | semaUp s =>
    dsimp only [schedStep] at hs
    split_ifs at hs
    exact h.semaUp_of_ne hi (by simp) hs
  | semaInit s v =>
    dsimp only [schedStep] at hs
    split_ifs at hs
    cases hs
    exact h.setSema_of_ne (by simp)
  | retest =>
    dsimp only [schedStep] at hs
    split at hs
    · rename_i r hp
      exact h.semaTest hi (.inr hp) hs
    · cases hs
  | lockAcquire l' =>
    dsimp only [schedStep] at hs
    split_ifs at hs with hg
    exact h.semaTest hi (.inl (pc_cur_of_atFree hg.1)) hs
  | setHolder =>
    dsimp only [schedStep] at hs
    split at hs
    · rename_i l' hp
      cases hs
      exact h.setHolder hi hp
    · cases hs
  | lockTryAcquire l' =>
    dsimp only [schedStep] at hs
    split_ifs at hs with hg
    exact h.lockTryAcquire hi (pc_cur_of_atFree hg.1) hs
  | lockRelease l' =>
    dsimp only [schedStep] at hs
    split_ifs at hs with hg
    cases hs
    exact h.lockRelease hi (pc_cur_of_atFree hg.1) hg.2
  | releaseUp =>
    dsimp only [schedStep] at hs
    split at hs
    · rename_i l' hp
      by_cases hl : l' = l
      · subst hl
        exact h.releaseUp hi hp hs
      · have hi' := hi.setPc_cur (p := .free) (by rw [hp]; trivial) trivial
        exact (h.setPc (by simp [hp, hl]) (by simp)).semaUp_of_ne hi' (by simp [hl]) hs
    · cases hs
  | idleInit =>
    dsimp only [schedStep] at hs
    split at hs
    · rename_i s hp
      have h₀ : { st with idleThread := some st.cur }.LockInv l := { h with }
      exact (h₀.setPc (t := st.cur) (q := .idleLoop) (by simp [hp]) (by simp)).semaUp_of_ne
        (hi.becomeIdle hp) (by simp) hs
    · cases hs
  | idleBlock =>
    dsimp only [schedStep, blockCur] at hs
    split_ifs at hs
    refine LockInv.schedule ?_ hs
    exact { h with }
  | exit =>
    dsimp only [schedStep] at hs
    split_ifs at hs
    refine LockInv.schedule ?_ hs
    exact { h with }

end LockInv

/-! ### The calls a step completes

`ups` and `downs` are counters of the model; the steps of a run say by themselves which
semaphore they call `sema_up` on and on which a down of theirs returns. `Tally.step` shows that
the counters move by exactly those calls. -/

/-- The semaphore that step `e` from `st` calls `sema_up` on: `sema_up` itself, the `sema_up`
that ends `lock_release`, or the idle thread's `sema_up (idle_started)`. -/
def upOf (st : SchedState σ ι) : SchedEvent σ ι → Option (SemaRef σ ι)
  | .semaUp s => some (.sema s)
  | .releaseUp =>
      match st.pc st.cur with
      | .releaseUp l => some (.lock l)
      | _ => none
  | .idleInit =>
      match st.pc st.cur with
      | .idleStart s => some (.sema s)
      | _ => none
  | _ => none

/-- `r`, when a down on it finds the value positive: `sema_down`'s loop ends there, and
`sema_try_down` succeeds. -/
def takesFrom (st : SchedState σ ι) (r : SemaRef σ ι) : Option (SemaRef σ ι) :=
  if (st.sema r).value = 0 then none else some r

/-- The semaphore on which a down of step `e` from `st` returns: a test of `sema_down`'s loop,
in `sema_down`, in `lock_acquire` or by a woken thread, or `sema_try_down`, also in
`lock_try_acquire`. -/
def downOf (st : SchedState σ ι) : SchedEvent σ ι → Option (SemaRef σ ι)
  | .semaDown s => st.takesFrom (.sema s)
  | .semaTryDown s => st.takesFrom (.sema s)
  | .retest =>
      match st.pc st.cur with
      | .woken r => st.takesFrom r
      | _ => none
  | .lockAcquire l => st.takesFrom (.lock l)
  | .lockTryAcquire l => st.takesFrom (.lock l)
  | _ => none

/-- From `st` to `st'` the counters took one `sema_up` on `u` and one down on `d`, where these
are given, and nothing else. -/
structure Tally (st st' : SchedState σ ι) (u d : Option (SemaRef σ ι)) : Prop where
  ups : ∀ r, st'.ups r = st.ups r + if u = some r then 1 else 0
  downs : ∀ r, st'.downs r = st.downs r + if d = some r then 1 else 0

section Tally

variable {st st' st'' : SchedState σ ι} {u d : Option (SemaRef σ ι)}

lemma update_succ_eq (f : SemaRef σ ι → ℕ) (r r' : SemaRef σ ι) :
    Function.update f r (f r + 1) r' = f r' + if some r = some r' then 1 else 0 := by
  by_cases h : r' = r
  · subst h
    simp
  · simp [h, Ne.symm h]

lemma Tally.of_eq (hu : st'.ups = st.ups) (hd : st'.downs = st.downs) :
    Tally st st' none none where
  ups r := by simp [hu]
  downs r := by simp [hd]

/-- A tally followed by steps that leave the counters as they are. -/
lemma Tally.trans_eq (h : Tally st st' u d) (hu : st''.ups = st'.ups)
    (hd : st''.downs = st'.downs) : Tally st st'' u d where
  ups r := by rw [hu, h.ups r]
  downs r := by rw [hd, h.downs r]

/-- Steps that leave the counters as they are, followed by a tally. -/
lemma Tally.eq_trans (h : Tally st' st'' u d) (hu : st'.ups = st.ups)
    (hd : st'.downs = st.downs) : Tally st st'' u d where
  ups r := by rw [h.ups r, hu]
  downs r := by rw [h.downs r, hd]

lemma Tally.schedule (hs : st.schedule = some st') : Tally st st' none none := by
  obtain ⟨_, _, -, _, -, rfl⟩ := schedule_eq_some hs
  exact Tally.of_eq rfl rfl

lemma Tally.yieldCur (hy : st.yieldCur = some st') : Tally st st' none none := by
  dsimp only [SchedState.yieldCur] at hy
  split_ifs at hy
  · exact (Tally.schedule hy).eq_trans rfl rfl
  · exact (Tally.schedule hy).eq_trans rfl rfl

lemma Tally.semaTest {r : SemaRef σ ι} (hs : st.semaTest r = some st') :
    Tally st st' none (st.takesFrom r) := by
  dsimp only [SchedState.semaTest, blockCur] at hs
  split_ifs at hs with hv
  · -- the value is zero: the running thread blocks, and no down returns
    rw [takesFrom, if_pos hv]
    exact (Tally.schedule hs).eq_trans rfl rfl
  · cases hs
    rw [takesFrom, if_neg hv]
    exact ⟨fun _ => by simp, update_succ_eq st.downs r⟩

lemma Tally.semaUp {r : SemaRef σ ι} (hs : st.semaUp r = some st') :
    Tally st st' (some r) none := by
  have h₀ : Tally st { st with ups := Function.update st.ups r (st.ups r + 1) } (some r) none :=
    ⟨update_succ_eq st.ups r, fun _ => by simp⟩
  dsimp only [SchedState.semaUp] at hs
  split at hs
  · cases hs
    exact h₀.trans_eq rfl rfl
  · -- the first waiter is woken: `thread_unblock` touches no counter
    rw [unblock_eq_some hs]
    exact h₀.trans_eq rfl rfl

lemma Tally.semaTryDown (r : SemaRef σ ι) :
    Tally st (st.semaTryDown r).1 none (st.takesFrom r) := by
  dsimp only [SchedState.semaTryDown]
  rw [takesFrom]
  split_ifs with hv
  · exact Tally.of_eq rfl rfl
  · exact ⟨fun _ => by simp, update_succ_eq st.downs r⟩

lemma Tally.lockTryAcquire {l : ι} (hs : (match st.semaTryDown (.lock l) with
      | (st', true) => some (st'.setPc st.cur (.setHolder l))
      | (st', false) => some st') = some st') : Tally st st' none (st.takesFrom (.lock l)) := by
  have hd : Tally st (st.semaTryDown (.lock l)).1 none (st.takesFrom (.lock l)) :=
    Tally.semaTryDown _
  dsimp only [SchedState.semaTryDown] at hs hd
  split_ifs at hs hd
  · cases hs
    exact hd
  · cases hs
    exact hd.trans_eq rfl rfl

/-- **What a step counts.** The counters of the model move by the step's own `sema_up` and
returning down, and by nothing else. -/
theorem Tally.step {e : SchedEvent σ ι} (hs : st.schedStep e = some st') :
    Tally st st' (st.upOf e) (st.downOf e) := by
  cases e with
  | start s =>
    dsimp only [schedStep] at hs
    split_ifs at hs
    cases hs
    exact Tally.of_eq rfl rfl
  | create =>
    dsimp only [schedStep] at hs
    split_ifs at hs
    cases hs
    exact Tally.of_eq rfl rfl
  | initSpt =>
    dsimp only [schedStep] at hs
    split at hs
    · cases hs
      exact Tally.of_eq rfl rfl
    · cases hs
  | yield =>
    dsimp only [schedStep] at hs
    split_ifs at hs
    exact Tally.yieldCur hs
  | tick =>
    dsimp only [schedStep] at hs
    split_ifs at hs
    · exact (Tally.yieldCur hs).eq_trans rfl rfl
    · cases hs
      exact Tally.of_eq rfl rfl
  | semaDown s =>
    dsimp only [schedStep] at hs
    split_ifs at hs
    exact Tally.semaTest hs
  | semaTryDown s =>
    dsimp only [schedStep] at hs
    split_ifs at hs
    cases hs
    exact Tally.semaTryDown _
  | semaUp s =>
    dsimp only [schedStep] at hs
    split_ifs at hs
    exact Tally.semaUp hs
  | semaInit s v =>
    dsimp only [schedStep] at hs
    split_ifs at hs
    cases hs
    exact Tally.of_eq rfl rfl
  | retest =>
    dsimp only [schedStep] at hs
    split at hs
    · rename_i r hp
      simp only [upOf, downOf, hp]
      exact Tally.semaTest hs
    · cases hs
  | lockAcquire l =>
    dsimp only [schedStep] at hs
    split_ifs at hs
    exact Tally.semaTest hs
  | setHolder =>
    dsimp only [schedStep] at hs
    split at hs
    · cases hs
      exact Tally.of_eq rfl rfl
    · cases hs
  | lockTryAcquire l =>
    dsimp only [schedStep] at hs
    split_ifs at hs
    exact Tally.lockTryAcquire hs
  | lockRelease l =>
    dsimp only [schedStep] at hs
    split_ifs at hs
    cases hs
    exact Tally.of_eq rfl rfl
  | releaseUp =>
    dsimp only [schedStep] at hs
    split at hs
    · rename_i l hp
      simp only [upOf, downOf, hp]
      exact (Tally.semaUp hs).eq_trans rfl rfl
    · cases hs
  | idleInit =>
    dsimp only [schedStep] at hs
    split at hs
    · rename_i s hp
      simp only [upOf, downOf, hp]
      exact (Tally.semaUp hs).eq_trans rfl rfl
    · cases hs
  | idleBlock =>
    dsimp only [schedStep, blockCur] at hs
    split_ifs at hs
    exact (Tally.schedule hs).eq_trans rfl rfl
  | exit =>
    dsimp only [schedStep] at hs
    split_ifs at hs
    exact (Tally.schedule hs).eq_trans rfl rfl

end Tally

end SchedState

/-! ### Every run -/

variable {σ ι : Type} [DecidableEq σ] [DecidableEq ι]

/-- A run that does not initialise `r` again keeps its count. -/
theorem SchedState.SemaCount.run {r : SemaRef σ ι} {b : ℕ} {es : List (SchedEvent σ ι)} :
    ∀ {st st' : SchedState σ ι}, st.SchedInv → st.SemaCount r b →
      (∀ s v, .semaInit s v ∈ es → r ≠ .sema s) → schedRun st es = some st' →
        st'.SemaCount r b := by
  induction es with
  | nil =>
    intro st st' _ hc _ hr
    rw [schedRun, Option.some.injEq] at hr
    exact hr ▸ hc
  | cons e es ih =>
    intro st st' hi hc hno hr
    obtain ⟨st₁, h₁, hr⟩ := Option.bind_eq_some_iff.mp hr
    have hc₁ := hc.step hi (fun s v he => hno s v (he ▸ List.mem_cons_self)) h₁
    exact ih (hi.step h₁) hc₁ (fun s v hm => hno s v (List.mem_cons_of_mem _ hm)) hr

/-- The steps of the run `es` from `st` that `f` names `r` for, each judged in the state it
starts from; the count ends where the run fails. -/
def runCount (f : SchedState σ ι → SchedEvent σ ι → Option (SemaRef σ ι))
    (r : SemaRef σ ι) : SchedState σ ι → List (SchedEvent σ ι) → ℕ
  | _, [] => 0
  | st, e :: es =>
      match st.schedStep e with
      | some st' => (if f st e = some r then 1 else 0) + runCount f r st' es
      | none => 0

/-- Along a run the counters of the model count the run's `sema_up`s and returning downs. -/
theorem SchedState.Tally.run {r : SemaRef σ ι} {es : List (SchedEvent σ ι)} :
    ∀ {st st' : SchedState σ ι}, schedRun st es = some st' →
      st'.ups r = st.ups r + runCount SchedState.upOf r st es ∧
        st'.downs r = st.downs r + runCount SchedState.downOf r st es := by
  induction es with
  | nil =>
    intro st st' hr
    rw [schedRun, Option.some.injEq] at hr
    subst hr
    exact ⟨rfl, rfl⟩
  | cons e es ih =>
    intro st st' hr
    obtain ⟨st₁, h₁, hr⟩ := Option.bind_eq_some_iff.mp hr
    have hstep := SchedState.Tally.step h₁
    obtain ⟨hu, hd⟩ := ih hr
    simp only [runCount, h₁]
    exact ⟨by rw [hu, hstep.ups r]; omega, by rw [hd, hstep.downs r]; omega⟩

end TinyOs
