import TinyOs.Devices.Intq

/-!
The waiters of the interrupt queue, `devices/intq.c`. A thread that has to wait takes `q->lock`,
puts itself in the slot of its call (`not_empty` for `intq_getc`, `not_full` for `intq_putc`) and
blocks; the call that ends what it waits for signals the slot, wakes it and clears the slot; the
woken thread releases the lock and tests again. The lock makes sure that one thread waits at a
time.

* `WaitInv`: a slot names a thread waiting on it; a waiting thread is in its slot and what it
  waits for has not ended, so no wake-up is lost; the lock is held by exactly the thread that
  waits or has been woken and not run since;
* `RunInv`, `WaitInvBut`: the same while a thread runs a call, and between the transfer of a call
  and its `signal`; `WaitInv.step`, `IntqReachable.waitInv`: every step keeps `WaitInv`;
* `intq_waiters`: in every reachable state at most one thread waits, it waits in its slot for
  what has not ended, and a call, a woken thread and an interrupt handler that need not wait all
  go on: the assertions of `signal`, `thread_unblock` and `lock_release` hold;
* `wait_asserts_after_lock_wait`: the assertion of `wait` does not always hold. A thread that
  found the queue empty while another waited blocks in `lock_acquire`; two bytes arrive, the
  waiting thread takes one and releases the lock, and the blocked thread, which does not test
  again, reaches `wait` on a queue that is not empty.
-/

namespace TinyOs

namespace Devices

variable {τ : Type}

/-- Of the two slots, the one a call does not signal is the one it waits on. -/
lemma IntqOp.eq_waiter_of_ne_signals {op : IntqOp} {w : Waiter} (h : w ≠ op.signals) :
    w = op.waiter := by
  cases op <;> cases w <;> simp_all [IntqOp.signals, IntqOp.waiter]

variable {s s' : IntqSys τ} {t : τ} {op : IntqOp} {w : Waiter}

/-- The waiter slots and the lock: a slot names a thread waiting on it; a waiting thread is in its
slot and what it waits for has not ended; the lock is held by exactly the thread that waits or
has been woken and not run since. -/
structure WaitInv (s : IntqSys τ) : Prop where
  slot : ∀ w u, s.q.waiter w = some u → ∃ op, op.waiter = w ∧ s.pc u = .busy op .waiting
  waiting : ∀ u op, s.pc u = .busy op .waiting →
    s.q.waiter op.waiter = some u ∧ op.waiter.blocked s.q
  lock : ∀ u, s.q.lock = some u ↔ ∃ op, s.pc u = .busy op .waiting ∨ s.pc u = .busy op .woken

/-- `WaitInv` between the transfer of a call and its `signal (q, w)`: a thread waiting on `w` may
wait for what the transfer has just ended. -/
structure WaitInvBut (s : IntqSys τ) (w : Waiter) : Prop where
  slot : ∀ w' u, s.q.waiter w' = some u → ∃ op, op.waiter = w' ∧ s.pc u = .busy op .waiting
  waiting : ∀ u op, s.pc u = .busy op .waiting →
    s.q.waiter op.waiter = some u ∧ (op.waiter ≠ w → op.waiter.blocked s.q)
  lock : ∀ u, s.q.lock = some u ↔ ∃ op, s.pc u = .busy op .waiting ∨ s.pc u = .busy op .woken

/-- `WaitInv` while thread `t` runs a call: the other threads keep it, and `t` is in no slot and
holds not the lock. -/
structure RunInv (s : IntqSys τ) (t : τ) : Prop where
  slot : ∀ w u, s.q.waiter w = some u → u ≠ t ∧ ∃ op, op.waiter = w ∧ s.pc u = .busy op .waiting
  waiting : ∀ u op, u ≠ t → s.pc u = .busy op .waiting →
    s.q.waiter op.waiter = some u ∧ op.waiter.blocked s.q
  lock : ∀ u, u ≠ t →
    (s.q.lock = some u ↔ ∃ op, s.pc u = .busy op .waiting ∨ s.pc u = .busy op .woken)
  lock_ne : s.q.lock ≠ some t

/-- At most one thread waits: a waiting thread holds the lock. -/
lemma WaitInv.waiting_unique (h : WaitInv s) {u v : τ} {op' : IntqOp}
    (hu : s.pc u = .busy op .waiting) (hv : s.pc v = .busy op' .waiting) : u = v :=
  Option.some.inj (((h.lock u).mpr ⟨op, .inl hu⟩).symm.trans ((h.lock v).mpr ⟨op', .inl hv⟩))

/-- A thread that neither waits nor has been woken may run a call. -/
lemma WaitInv.running (h : WaitInv s)
    (ht : ∀ op, s.pc t ≠ .busy op .waiting ∧ s.pc t ≠ .busy op .woken) : RunInv s t where
  slot w u hu := by
    obtain ⟨op, hw, hpc⟩ := h.slot w u hu
    exact ⟨fun hut => (ht op).1 (hut ▸ hpc), op, hw, hpc⟩
  waiting u op _ hpc := h.waiting u op hpc
  lock u _ := h.lock u
  lock_ne hl := by
    obtain ⟨op, hpc | hpc⟩ := (h.lock t).mp hl
    · exact (ht op).1 hpc
    · exact (ht op).2 hpc

/-- A woken thread releases the lock and runs on. -/
lemma WaitInv.release (h : WaitInv s) (ht : s.pc t = .busy op .woken) :
    RunInv { s with q := { s.q with lock := none } } t where
  slot w u hu := by
    obtain ⟨op', hw, hpc⟩ := h.slot w u (by simpa using hu)
    refine ⟨fun hut => ?_, op', hw, hpc⟩
    rw [hut, ht] at hpc
    cases hpc
  waiting u op' _ hpc := by simpa using h.waiting u op' hpc
  lock u hut := by
    -- the lock was `t`'s, so no other thread waits or has been woken
    have hlt := (h.lock t).mpr ⟨op, .inr ht⟩
    refine ⟨fun hl => (by cases hl), fun hu => ?_⟩
    have hlu := (h.lock u).mpr hu
    rw [hlt] at hlu
    exact absurd (Option.some.inj hlu).symm hut
  lock_ne := by simp

/-- The transfer of a call that need not wait: no thread waits on the call's own slot, and a
thread waiting on the slot it signals may now wait for what has ended. -/
lemma WaitInv.transfer (h : WaitInv s) (hb : op.waiter.blocked s.q = false) :
    WaitInvBut (s.transfer op) op.signals where
  slot w u hu := by simpa using h.slot w u (by simpa using hu)
  waiting u op' hpc := by
    rw [IntqSys.transfer_pc] at hpc
    obtain ⟨hslot, hblocked⟩ := h.waiting u op' hpc
    refine ⟨by simpa using hslot, fun hne => ?_⟩
    -- a thread waiting on the call's own slot would wait for what the call found ended
    rw [IntqOp.eq_waiter_of_ne_signals hne, hb] at hblocked
    cases hblocked
  lock u := by simpa using h.lock u

/-- After `intq_init (q)` the slots are empty and the lock is free. -/
lemma waitInv_start (q : Intq τ) : WaitInv (intqStart q) where
  slot w u hu := by cases w <;> simp [intqStart, intqInit, Intq.waiter] at hu
  waiting u op hpc := by simp [intqStart] at hpc
  lock u := by simp [intqStart, intqInit]

variable [DecidableEq τ]

/-- A running thread that returns leaves `WaitInv`. -/
lemma RunInv.idle (h : RunInv s t) : WaitInv { s with pc := Function.update s.pc t .idle } where
  slot w u hu := by
    obtain ⟨hut, op, hw, hpc⟩ := h.slot w u hu
    refine ⟨op, hw, ?_⟩
    dsimp only
    rwa [Function.update_of_ne hut]
  waiting u op hpc := by
    dsimp only at hpc ⊢
    have hut : u ≠ t := by
      rintro rfl
      simp at hpc
    rw [Function.update_of_ne hut] at hpc
    exact h.waiting u op hut hpc
  lock u := by
    dsimp only
    by_cases hut : u = t
    · subst hut
      simp [h.lock_ne]
    · rw [Function.update_of_ne hut]
      exact h.lock u hut

/-- A running thread that finds the queue empty (full) takes the lock and waits, or blocks in
`lock_acquire` while another thread holds it. -/
lemma RunInv.acquire (h : RunInv s t) (ha : s.acquire t op = some s') : WaitInv s' := by
  obtain ⟨hfree, hb, rfl⟩ | ⟨v, hheld, hvt, rfl⟩ := IntqSys.acquire_eq_some ha
  · -- the lock is free, so no other thread waits or has been woken
    have hidle : ∀ u, u ≠ t → ∀ op', s.pc u ≠ .busy op' .waiting ∧ s.pc u ≠ .busy op' .woken :=
      fun u hut op' => ⟨fun hpc => by simpa [hfree] using (h.lock u hut).mpr ⟨op', .inl hpc⟩,
        fun hpc => by simpa [hfree] using (h.lock u hut).mpr ⟨op', .inr hpc⟩⟩
    refine ⟨fun w' u hu => ?_, fun u op' hpc => ?_, fun u => ?_⟩
    · dsimp only at hu ⊢
      by_cases hw : w' = op.waiter
      · subst hw
        obtain rfl : t = u := by simpa using hu
        exact ⟨op, rfl, by simp⟩
      · rw [Intq.waiter_setWaiter_of_ne _ hw] at hu
        obtain ⟨hut, op', -, hpc⟩ := h.slot w' u (by simpa using hu)
        exact absurd hpc (hidle u hut op').1
    · dsimp only at hpc ⊢
      by_cases hut : u = t
      · subst hut
        obtain rfl : op = op' := by simpa using hpc
        exact ⟨by simp, by simpa using hb⟩
      · rw [Function.update_of_ne hut] at hpc
        exact absurd hpc (hidle u hut op').1
    · simp only [Intq.setWaiter_lock, Option.some.injEq]
      by_cases hut : u = t
      · subst hut
        simp
      · rw [Function.update_of_ne hut]
        constructor
        · intro htu
          exact absurd htu.symm hut
        · rintro ⟨op', hpc | hpc⟩
          · exact absurd hpc (hidle u hut op').1
          · exact absurd hpc (hidle u hut op').2
  · -- the lock is another thread's, and `t` blocks in `lock_acquire`
    refine ⟨fun w' u hu => ?_, fun u op' hpc => ?_, fun u => ?_⟩
    · obtain ⟨hut, op', hw, hpc⟩ := h.slot w' u hu
      refine ⟨op', hw, ?_⟩
      dsimp only
      rwa [Function.update_of_ne hut]
    · dsimp only at hpc ⊢
      by_cases hut : u = t
      · subst hut
        simp at hpc
      · rw [Function.update_of_ne hut] at hpc
        exact h.waiting u op' hut hpc
    · dsimp only
      by_cases hut : u = t
      · subst hut
        simp [hheld, hvt]
      · rw [Function.update_of_ne hut]
        exact h.lock u hut

/-- `signal (q, w)` wakes the thread waiting on `w`, if there is one, and restores `WaitInv`. -/
lemma WaitInvBut.signal (h : WaitInvBut s w) (hs : s.signal w = some s') : WaitInv s' := by
  obtain ⟨-, ⟨hnone, rfl⟩ | ⟨u, op, hsome, hpu, rfl⟩⟩ := IntqSys.signal_eq_some hs
  · -- no thread waits on `w`
    refine ⟨h.slot, fun u op hpc => ?_, h.lock⟩
    obtain ⟨hslot, hblocked⟩ := h.waiting u op hpc
    refine ⟨hslot, hblocked fun hw => ?_⟩
    rw [hw, hnone] at hslot
    cases hslot
  · -- `u` waits on `w` in `op`
    have hw : op.waiter = w := by
      obtain ⟨op', hw, hpc⟩ := h.slot w u hsome
      rw [hpu] at hpc
      cases hpc
      exact hw
    refine ⟨fun w' v hv => ?_, fun v op' hpc => ?_, fun v => ?_⟩
    · dsimp only at hv ⊢
      by_cases hw' : w' = w
      · subst hw'
        simp at hv
      · rw [Intq.waiter_setWaiter_of_ne _ hw'] at hv
        obtain ⟨op', hw'', hpc⟩ := h.slot w' v hv
        have hvu : v ≠ u := by
          rintro rfl
          rw [hpu] at hpc
          cases hpc
          exact hw' (hw''.symm.trans hw)
        exact ⟨op', hw'', by rwa [Function.update_of_ne hvu]⟩
    · dsimp only at hpc ⊢
      have hvu : v ≠ u := by
        rintro rfl
        simp at hpc
      rw [Function.update_of_ne hvu] at hpc
      obtain ⟨hslot, hblocked⟩ := h.waiting v op' hpc
      have hne : op'.waiter ≠ w := fun hw' => hvu (Option.some.inj ((hw' ▸ hslot).symm.trans hsome))
      refine ⟨?_, by simpa using hblocked hne⟩
      rw [Intq.waiter_setWaiter_of_ne _ hne]
      exact hslot
    · dsimp only
      by_cases hvu : v = u
      · -- `u` held the lock waiting, and holds it woken
        subst hvu
        simp only [Intq.setWaiter_lock, Function.update_self]
        exact ⟨fun _ => ⟨op, .inr rfl⟩, fun _ => (h.lock v).mpr ⟨op, .inl hpu⟩⟩
      · simp only [Intq.setWaiter_lock, Function.update_of_ne hvu]
        exact h.lock v

/-- The end of a call that need not wait, and its `signal`, keep `WaitInv`. -/
lemma WaitInv.transfer_signal (h : WaitInv s) (hb : op.waiter.blocked s.q = false)
    (hs : (s.transfer op).signal op.signals = some s') : WaitInv s' :=
  (h.transfer hb).signal hs

/-- The loop of a call keeps `WaitInv`. -/
lemma RunInv.loop (h : RunInv s t) (hl : s.loop t op = some s') : WaitInv s' := by
  unfold IntqSys.loop at hl
  split_ifs at hl with hb
  · exact h.acquire hl
  · rw [← IntqSys.transfer_withPc] at hl
    exact h.idle.transfer_signal (by simpa using hb) hl

/-- **Every step keeps `WaitInv`.** -/
theorem WaitInv.step (h : WaitInv s) {e : IntqEvent τ} (hs : s.intqStep e = some s') :
    WaitInv s' := by
  -- a thread in no call, or blocked in `lock_acquire`, neither waits nor has been woken
  have hfree : ∀ t, (s.pc t = .idle ∨ ∃ op, s.pc t = .busy op .acquire) →
      ∀ op, s.pc t ≠ .busy op .waiting ∧ s.pc t ≠ .busy op .woken := by
    rintro t (hpc | ⟨op', hpc⟩) op <;> simp [hpc]
  cases e with
  | getc t =>
    simp only [IntqSys.intqStep, IntqSys.intqGetc] at hs
    split_ifs at hs with hidle
    exact (h.running (hfree t (.inl hidle))).loop hs
  | putc t byte =>
    simp only [IntqSys.intqStep, IntqSys.intqPutc] at hs
    split_ifs at hs with hidle
    exact (h.running (hfree t (.inl hidle))).loop hs
  | resume t =>
    obtain ⟨op, hpc, -, ha⟩ | ⟨op, hpc, -, hl⟩ := IntqSys.resume_eq_some hs
    · exact (h.running (hfree t (.inr ⟨op, hpc⟩))).acquire ha
    · exact (h.release hpc).loop hl
  | intr op =>
    simp only [IntqSys.intqStep, IntqSys.intrCall] at hs
    split_ifs at hs with hb
    exact h.transfer_signal (by simpa using hb) hs

lemma IntqReachable.waitInv (h : IntqReachable s) : WaitInv s := by
  induction h with
  | init q => exact waitInv_start q
  | step e _ hs ih => exact ih.step hs

/-! ### What a call does -/

/-- A call that need not wait: the transfer, the thread back in no call, and `signal`. -/
lemma IntqSys.loop_of_not_blocked (hb : op.waiter.blocked s.q = false) :
    s.loop t op = { s.transfer op with pc := Function.update s.pc t .idle }.signal op.signals := by
  rw [IntqSys.loop, if_neg (by simp [hb])]

/-- `signal` moves only the thread in the slot it signals. -/
lemma IntqSys.signal_pc_of_ne {u : τ} (hs : s.signal w = some s') (hu : s.q.waiter w ≠ some u) :
    s'.pc u = s.pc u := by
  obtain ⟨-, ⟨-, rfl⟩ | ⟨v, op, hsome, -, rfl⟩⟩ := IntqSys.signal_eq_some hs
  · rfl
  · have huv : u ≠ v := by
      rintro rfl
      exact hu hsome
    exact Function.update_of_ne huv _ _

/-- A thread in a call after its program point is set was in the same call before, or is the
thread set in `op`. -/
lemma IntqPc.busy_of_update {p : τ → IntqPc} {u : τ} {op' : IntqOp} {l loc : IntqAt}
    (hu : Function.update p t (.busy op l) u = .busy op' loc) :
    (∃ loc', p u = .busy op' loc') ∨ (u = t ∧ op' = op) := by
  by_cases hut : u = t
  · subst hut
    rw [Function.update_self, IntqPc.busy.injEq] at hu
    exact .inr ⟨rfl, hu.1.symm⟩
  · rw [Function.update_of_ne hut] at hu
    exact .inl ⟨loc, hu⟩

/-- Every thread in a call after `signal` was in the same call before. -/
lemma IntqSys.signal_pc_busy {u : τ} {op' : IntqOp} {loc : IntqAt} (hs : s.signal w = some s')
    (hu : s'.pc u = .busy op' loc) : ∃ loc', s.pc u = .busy op' loc' := by
  obtain ⟨-, ⟨-, rfl⟩ | ⟨v, op, -, hpv, rfl⟩⟩ := IntqSys.signal_eq_some hs
  · exact ⟨loc, hu⟩
  · obtain ⟨loc', hpc⟩ | ⟨rfl, rfl⟩ := IntqPc.busy_of_update hu
    · exact ⟨loc', hpc⟩
    · exact ⟨.waiting, hpv⟩

lemma IntqSys.acquire_pc_busy {u : τ} {op' : IntqOp} {loc : IntqAt}
    (ha : s.acquire t op = some s') (hu : s'.pc u = .busy op' loc) :
    (∃ loc', s.pc u = .busy op' loc') ∨ (u = t ∧ op' = op) := by
  obtain ⟨-, -, rfl⟩ | ⟨v, -, -, rfl⟩ := IntqSys.acquire_eq_some ha
  · exact IntqPc.busy_of_update hu
  · exact IntqPc.busy_of_update hu

/-- Every thread in a call after the loop of `op` by `t` was in the same call before, or is `t`
in `op`. -/
lemma IntqSys.loop_pc_busy {u : τ} {op' : IntqOp} {loc : IntqAt} (hl : s.loop t op = some s')
    (hu : s'.pc u = .busy op' loc) : (∃ loc', s.pc u = .busy op' loc') ∨ (u = t ∧ op' = op) := by
  unfold IntqSys.loop at hl
  split_ifs at hl
  · exact IntqSys.acquire_pc_busy hl hu
  · obtain ⟨loc', hpc⟩ := IntqSys.signal_pc_busy hl hu
    -- the thread that made the call is in none after it
    have hut : u ≠ t := by
      rintro rfl
      simp at hpc
    refine .inl ⟨loc', ?_⟩
    simpa [Function.update_of_ne hut] using hpc

/-- A thread blocked in a call that runs again stays in that call or returns. -/
lemma IntqSys.resume_pc_busy {u : τ} {op' : IntqOp} {loc : IntqAt} (hr : s.resume t = some s')
    (hu : s'.pc u = .busy op' loc) : ∃ loc', s.pc u = .busy op' loc' := by
  obtain ⟨op, hpc, -, ha⟩ | ⟨op, hpc, -, hl⟩ := IntqSys.resume_eq_some hr
  · obtain hu' | ⟨rfl, rfl⟩ := IntqSys.acquire_pc_busy ha hu
    · exact hu'
    · exact ⟨_, hpc⟩
  · obtain hu' | ⟨rfl, rfl⟩ := IntqSys.loop_pc_busy hl hu
    · exact hu'
    · exact ⟨_, hpc⟩

lemma IntqSys.intrCall_pc_busy {u : τ} {op' : IntqOp} {loc : IntqAt}
    (hs : s.intrCall op = some s') (hu : s'.pc u = .busy op' loc) :
    ∃ loc', s.pc u = .busy op' loc' := by
  unfold IntqSys.intrCall at hs
  split_ifs at hs
  simpa using IntqSys.signal_pc_busy hs hu

/-- An interrupt handler's call on a queue it need not wait on makes the transfer. -/
lemma IntqSys.intrCall_bytes (hs : s.intrCall op = some s') :
    op.waiter.blocked s.q = false ∧ s'.bytes = (s.transfer op).bytes := by
  unfold IntqSys.intrCall at hs
  split_ifs at hs with hb
  exact ⟨by simpa using hb, IntqSys.signal_bytes hs⟩

/-- The loop of a call by a thread that holds not the lock either returns, the transfer made,
or leaves the bytes as they were with the thread blocked. -/
lemma RunInv.loop_cases (h : RunInv s t) (hl : s.loop t op = some s') :
    (op.waiter.blocked s.q = false ∧ s'.pc t = .idle ∧ s'.bytes = (s.transfer op).bytes) ∨
      (op.waiter.blocked s.q = true ∧ s'.pc t ≠ .idle ∧ s'.bytes = s.bytes) := by
  cases hb : op.waiter.blocked s.q with
  | false =>
    rw [IntqSys.loop_of_not_blocked hb] at hl
    -- the thread `signal` wakes is in a slot, and `t` is in none
    have hslot : (s.transfer op).q.waiter op.signals ≠ some t := by
      rw [IntqSys.transfer_waiter]
      intro hw
      exact (h.slot _ _ hw).1 rfl
    refine .inl ⟨rfl, ?_, ?_⟩
    · rw [IntqSys.signal_pc_of_ne hl hslot]
      exact Function.update_self _ _ _
    · rw [IntqSys.signal_bytes hl]
      rfl
  | true =>
    unfold IntqSys.loop at hl
    rw [if_pos hb] at hl
    refine .inr ⟨rfl, ?_, IntqSys.acquire_bytes hl⟩
    obtain ⟨-, -, rfl⟩ | ⟨v, -, -, rfl⟩ := IntqSys.acquire_eq_some hl
    · simp
    · simp

/-- A thread blocked in `op` that runs again returns, the transfer made, or leaves the bytes as
they were, blocked again. -/
lemma WaitInv.resume_cases (h : WaitInv s) (hr : s.resume t = some s') :
    ∃ op loc, s.pc t = .busy op loc ∧
      ((op.waiter.blocked s.q = false ∧ s'.pc t = .idle ∧ s'.bytes = (s.transfer op).bytes) ∨
        (s'.pc t ≠ .idle ∧ s'.bytes = s.bytes)) := by
  obtain ⟨op, hpc, -, ha⟩ | ⟨op, hpc, -, hl⟩ := IntqSys.resume_eq_some hr
  · -- out of `lock_acquire` into `wait`, or blocked there again
    refine ⟨op, _, hpc, .inr ⟨?_, IntqSys.acquire_bytes ha⟩⟩
    obtain ⟨-, -, rfl⟩ | ⟨v, -, -, rfl⟩ := IntqSys.acquire_eq_some ha
    · simp
    · simp
  · -- woken: the lock released, and the test of the loop again
    refine ⟨op, _, hpc, ?_⟩
    obtain ⟨hb, hidle, hbytes⟩ | ⟨-, hbusy, hbytes⟩ := (h.release hpc).loop_cases hl
    · refine .inl ⟨by simpa using hb, hidle, ?_⟩
      rw [hbytes]
      cases op <;> rfl
    · exact .inr ⟨hbusy, hbytes⟩

lemma IntqReachable.loop (h : IntqReachable s) (hidle : s.pc t = .idle)
    (hl : s.loop t op = some s') : IntqReachable s' := by
  cases op with
  | getc => exact h.step (.getc t) (by simpa [IntqSys.intqStep, IntqSys.intqGetc, hidle] using hl)
  | putc byte =>
    exact h.step (.putc t byte) (by simpa [IntqSys.intqStep, IntqSys.intqPutc, hidle] using hl)

/-! ### The assertions that hold -/

/-- Once what `w` waits for has ended, `signal (q, w)` goes on: the thread in its slot, if any,
is blocked in `wait`. -/
lemma WaitInvBut.signal_isSome (h : WaitInvBut s w) (hb : w.blocked s.q = false) :
    (s.signal w).isSome := by
  unfold IntqSys.signal
  rw [if_neg (by simp [hb])]
  split
  · rfl
  · rename_i u hsome
    obtain ⟨op, -, hpc⟩ := h.slot w u hsome
    simp [hpc]

/-- The end of a call that need not wait goes on through its `signal`. -/
lemma WaitInv.transfer_signal_isSome (h : WaitInv s) (hb : op.waiter.blocked s.q = false) :
    ((s.transfer op).signal op.signals).isSome :=
  (h.transfer hb).signal_isSome (IntqSys.signals_blocked_transfer _ hb)

/-- The loop of a call run by a thread that holds not the lock goes on, to a return or a block. -/
lemma RunInv.loop_isSome (h : RunInv s t) (op : IntqOp) : (s.loop t op).isSome := by
  unfold IntqSys.loop
  split_ifs with hb
  · unfold IntqSys.acquire
    split
    · simp [IntqSys.wait, hb]
    · rename_i v hheld
      have hvt : v ≠ t := fun hvt => h.lock_ne (hvt ▸ hheld)
      simp [hvt]
  · rw [← IntqSys.transfer_withPc]
    exact h.idle.transfer_signal_isSome (by simpa using hb)

/-- **The waiters of a reachable queue.** At most one thread waits; it waits in its slot for
what has not ended. A thread in no call that calls `intq_getc` or `intq_putc`, a woken thread
that runs again, and an interrupt handler that calls either on a queue it need not wait on all
go on: `signal` finds its condition ended and the thread in its slot blocked, and a woken thread
holds the lock it releases. -/
theorem intq_waiters {s : IntqSys τ} (h : IntqReachable s) :
    (∀ u v op op', s.pc u = .busy op .waiting → s.pc v = .busy op' .waiting → u = v) ∧
      (∀ u op, s.pc u = .busy op .waiting → s.q.waiter op.waiter = some u ∧ op.waiter.blocked s.q) ∧
      (∀ t, s.pc t = .idle → (s.intqGetc t).isSome ∧ ∀ byte, (s.intqPutc t byte).isSome) ∧
      (∀ t op, s.pc t = .busy op .woken → (s.resume t).isSome) ∧
      (∀ op, op.waiter.blocked s.q = false → (s.intrCall op).isSome) := by
  have hi := h.waitInv
  refine ⟨fun u v op op' hu hv => hi.waiting_unique hu hv, hi.waiting, fun t hidle => ?_,
    fun t op hwoken => ?_, fun op hb => ?_⟩
  · have hrun := hi.running (t := t) fun op => by simp [hidle]
    exact ⟨hrun.loop_isSome .getc, fun byte => hrun.loop_isSome (.putc byte)⟩
  · -- the woken thread holds the lock, which `lock_release` asserts
    have hlock := (hi.lock t).mpr ⟨op, .inr hwoken⟩
    simp only [IntqSys.resume, hwoken, hlock, if_true]
    exact (hi.release hwoken).loop_isSome op
  · simp only [IntqSys.intrCall, hb, Bool.false_eq_true, if_false]
    exact hi.transfer_signal_isSome hb

/-- Thread `1` waits on an empty queue, and thread `2` blocks in `lock_acquire` behind it. -/
theorem intq_waiters_two_readers :
    ∃ s, intqRun (intqStart (intqBoot : Intq ℕ)) [.getc 1, .getc 2] = some s ∧
      (∀ u v op op', s.pc u = .busy op .waiting → s.pc v = .busy op' .waiting → u = v) ∧
      (∀ u op, s.pc u = .busy op .waiting → s.q.waiter op.waiter = some u ∧ op.waiter.blocked s.q) ∧
      (∀ t, s.pc t = .idle → (s.intqGetc t).isSome ∧ ∀ byte, (s.intqPutc t byte).isSome) ∧
      (∀ t op, s.pc t = .busy op .woken → (s.resume t).isSome) ∧
      (∀ op, op.waiter.blocked s.q = false → (s.intrCall op).isSome) := by
  have hrun : (intqRun (intqStart (intqBoot : Intq ℕ)) [.getc 1, .getc 2]).isSome := by decide
  obtain ⟨s, hs⟩ := Option.isSome_iff_exists.mp hrun
  exact ⟨s, hs, intq_waiters ((IntqReachable.init _).run hs)⟩

/-! ### The assertion that fails -/

/-- Thread `1` calls `intq_getc` on an empty queue and waits; thread `2` calls it too and blocks
in `lock_acquire`; an interrupt handler adds `65`, waking thread `1`, then `66`; thread `1`
releases the lock and returns `65`. Thread `2` then takes the lock and, without testing again,
calls `wait` on a queue that holds `66`: `ASSERT (... intq_empty (q))` stops the kernel. -/
theorem wait_asserts_after_lock_wait :
    ∃ s, intqRun (intqStart (intqBoot : Intq ℕ)) [.getc 1, .getc 2, .intr (.putc 65), .intr (.putc 66), .resume 1] = some s ∧
      IntqReachable s ∧ s.pc 2 = .busy .getc .acquire ∧ s.q.lock = none ∧
      intqEmpty s.q = false ∧ s.resume 2 = none := by
  have hrun : (intqRun (intqStart (intqBoot : Intq ℕ)) [.getc 1, .getc 2, .intr (.putc 65), .intr (.putc 66),
      .resume 1]).map (fun s => (s.pc 2, s.q.lock, intqEmpty s.q, (s.resume 2).isNone)) =
      some (.busy .getc .acquire, none, false, true) := by
    decide
  obtain ⟨s, hs, hview⟩ := Option.map_eq_some_iff.mp hrun
  simp only [Prod.mk.injEq, Option.isNone_iff_eq_none] at hview
  exact ⟨s, hs, (IntqReachable.init _).run hs, hview.1, hview.2.1, hview.2.2.1, hview.2.2.2⟩

end Devices

end TinyOs
