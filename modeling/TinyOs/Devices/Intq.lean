import TinyOs.Lib.Ring

/-!
The interrupt queue, `devices/intq.c`: a ring of `INTQ_BUFSIZE` bytes shared between kernel
threads and interrupt handlers, written at `head` by `intq_putc` and read at `tail` by
`intq_getc`. Every call runs with interrupts off, so a call is atomic up to where its thread
blocks. A thread that finds the queue empty (full) takes the queue's lock, puts itself in
`not_empty` (`not_full`) and blocks in `wait`, until the `signal` of a call that made the queue
not empty (not full) wakes it; it then releases the lock and tests again. An interrupt handler
cannot block, and asserts that it need not.

The system is the queue, where each thread stands in a call (`IntqPc`), and two logs the code
does not keep: the bytes `intq_putc` added and those `intq_getc` returned, in order. `struct
lock` is its holder: `lock_acquire` takes it when it is free and blocks otherwise, and a thread
blocked there may run again once it is free. An assertion that fails stops the kernel, and is
`none`, as is a step of a thread that is blocked.

* `ByteStep`, `intqStep_byteStep`: every step keeps the bytes, takes the byte at `tail` from a
  queue that is not empty, or stores one at `head` in a queue that is not full;
* `Fifo`, `ByteStep.fifo`: the bytes returned, then those the ring holds, are the bytes added;
  kept by every step, so it holds in every reachable state (`IntqReachable.fifo`);
* `intq_fifo`: in every state some interleaving of calls reaches, the bytes `intq_getc`
  returned are a prefix of those passed to `intq_putc`, the queue holds at most
  `INTQ_BUFSIZE - 1` of them, and `intq_empty` and `intq_full` say that it holds none and that
  it holds `INTQ_BUFSIZE - 1`.
-/

namespace TinyOs

namespace Devices

/-- `INTQ_BUFSIZE`. -/
def intqBufsize : ℕ := 64

/-- `struct intq`, its `struct lock` given by the thread that holds it. -/
structure Intq (τ : Type) where
  lock : Option τ
  notFull : Option τ
  notEmpty : Option τ
  buf : Fin intqBufsize → UInt8
  head : Fin intqBufsize
  tail : Fin intqBufsize

/-- The two waiter slots, `&q->not_full` and `&q->not_empty`. -/
inductive Waiter
  | notFull
  | notEmpty
  deriving DecidableEq

variable {τ : Type}

/-- `*waiter`. -/
def Intq.waiter (q : Intq τ) : Waiter → Option τ
  | .notFull => q.notFull
  | .notEmpty => q.notEmpty

/-- `*waiter = t`. -/
def Intq.setWaiter (q : Intq τ) (w : Waiter) (t : Option τ) : Intq τ :=
  match w with
  | .notFull => { q with notFull := t }
  | .notEmpty => { q with notEmpty := t }

@[simp] lemma Intq.setWaiter_buf (q : Intq τ) (w : Waiter) (t : Option τ) :
    (q.setWaiter w t).buf = q.buf := by
  cases w <;> rfl

@[simp] lemma Intq.setWaiter_head (q : Intq τ) (w : Waiter) (t : Option τ) :
    (q.setWaiter w t).head = q.head := by
  cases w <;> rfl

@[simp] lemma Intq.setWaiter_tail (q : Intq τ) (w : Waiter) (t : Option τ) :
    (q.setWaiter w t).tail = q.tail := by
  cases w <;> rfl

@[simp] lemma Intq.setWaiter_lock (q : Intq τ) (w : Waiter) (t : Option τ) :
    (q.setWaiter w t).lock = q.lock := by
  cases w <;> rfl

@[simp] lemma Intq.waiter_setWaiter_self (q : Intq τ) (w : Waiter) (t : Option τ) :
    (q.setWaiter w t).waiter w = t := by
  cases w <;> rfl

lemma Intq.waiter_setWaiter_of_ne (q : Intq τ) {w w' : Waiter} (h : w' ≠ w) (t : Option τ) :
    (q.setWaiter w t).waiter w' = q.waiter w' := by
  cases w <;> cases w' <;> first | rfl | exact absurd rfl h

@[simp] lemma Intq.waiter_withLock (q : Intq τ) (l : Option τ) (w : Waiter) :
    ({ q with lock := l } : Intq τ).waiter w = q.waiter w := by
  cases w <;> rfl

/-- `next (pos)`. -/
def next (pos : Fin intqBufsize) : Fin intqBufsize :=
  ⟨(pos.val + 1) % intqBufsize, Nat.mod_lt _ (by decide)⟩

/-- `intq_init (q)`: the lock free, no waiters, `head` and `tail` at `0`; `buf` keeps what it
held. -/
def intqInit (q : Intq τ) : Intq τ :=
  { q with
    lock := none
    notFull := none
    notEmpty := none
    head := ⟨0, by decide⟩
    tail := ⟨0, by decide⟩ }

/-- A queue in zeroed static storage, as the keyboard's input buffer and the serial port's
`txq` are at boot: the lock free, no waiters, `head` and `tail` at `0`, the buffer zero. -/
def intqBoot : Intq τ := ⟨none, none, none, fun _ => 0, ⟨0, by decide⟩, ⟨0, by decide⟩⟩

/-- `intq_empty (q)`. -/
def intqEmpty (q : Intq τ) : Bool := q.head = q.tail

/-- `intq_full (q)`. -/
def intqFull (q : Intq τ) : Bool := next q.head = q.tail

/-- What a thread on the slot waits for the end of: `intq_full` on `not_full`, `intq_empty` on
`not_empty`. -/
def Waiter.blocked (w : Waiter) (q : Intq τ) : Bool :=
  match w with
  | .notFull => intqFull q
  | .notEmpty => intqEmpty q

/-- A slot's condition reads `head` and `tail` alone. -/
@[simp] lemma Waiter.blocked_setWaiter (w w' : Waiter) (q : Intq τ) (t : Option τ) :
    w.blocked (q.setWaiter w' t) = w.blocked q := by
  cases w <;> cases w' <;> rfl

@[simp] lemma Waiter.blocked_withLock (w : Waiter) (q : Intq τ) (l : Option τ) :
    w.blocked ({ q with lock := l } : Intq τ) = w.blocked q := by
  cases w <;> rfl

lemma next_inj {a b : Fin intqBufsize} (h : next a = next b) : a = b := by
  have h := congrArg Fin.val h
  simp only [next, intqBufsize] at h
  exact Fin.ext (by omega)

/-- A call: `intq_getc`, or `intq_putc` with its byte. -/
inductive IntqOp
  | getc
  | putc (byte : UInt8)
  deriving DecidableEq

/-- The slot a call waits on: `not_empty` for `intq_getc`, `not_full` for `intq_putc`. -/
def IntqOp.waiter : IntqOp → Waiter
  | .getc => .notEmpty
  | .putc _ => .notFull

/-- The slot a call signals when it is done. -/
def IntqOp.signals : IntqOp → Waiter
  | .getc => .notFull
  | .putc _ => .notEmpty

/-- Where a thread blocked in a call stands. -/
inductive IntqAt
  /-- in `lock_acquire (&q->lock)`, while another thread holds the lock -/
  | acquire
  /-- in `wait`, until a `signal` wakes it -/
  | waiting
  /-- woken by `signal`, not yet run again -/
  | woken
  deriving DecidableEq

/-- What a thread is doing with the queue. -/
inductive IntqPc
  | idle
  | busy (op : IntqOp) (loc : IntqAt)
  deriving DecidableEq

/-- The queue, where each thread stands, and the bytes `intq_putc` added and `intq_getc`
returned, in order. -/
structure IntqSys (τ : Type) where
  q : Intq τ
  pc : τ → IntqPc
  puts : List UInt8
  gets : List UInt8

namespace IntqSys

/-- The end of `intq_getc`, `byte = q->buf[q->tail]; q->tail = next (q->tail);`, and of
`intq_putc`, `q->buf[q->head] = byte; q->head = next (q->head);`. -/
def transfer (s : IntqSys τ) : IntqOp → IntqSys τ
  | .getc =>
    { s with q := { s.q with tail := next s.q.tail }, gets := s.gets ++ [s.q.buf s.q.tail] }
  | .putc byte =>
    { s with
      q := { s.q with buf := Function.update s.q.buf s.q.head byte, head := next s.q.head }
      puts := s.puts ++ [byte] }

@[simp] lemma transfer_pc (s : IntqSys τ) (op : IntqOp) : (s.transfer op).pc = s.pc := by
  cases op <;> rfl

@[simp] lemma transfer_waiter (s : IntqSys τ) (op : IntqOp) (w : Waiter) :
    (s.transfer op).q.waiter w = s.q.waiter w := by
  cases op <;> cases w <;> rfl

@[simp] lemma transfer_lock (s : IntqSys τ) (op : IntqOp) : (s.transfer op).q.lock = s.q.lock := by
  cases op <;> rfl

lemma transfer_withPc (s : IntqSys τ) (op : IntqOp) (pc : τ → IntqPc) :
    ({ s with pc := pc } : IntqSys τ).transfer op = { s.transfer op with pc := pc } := by
  cases op <;> rfl

/-- Once a call that need not wait is done, what the slot it signals waits for has ended: a take
leaves the queue not full, a store leaves it not empty. -/
lemma signals_blocked_transfer (s : IntqSys τ) {op : IntqOp} (h : op.waiter.blocked s.q = false) :
    op.signals.blocked (s.transfer op).q = false := by
  cases op with
  | getc =>
    simp only [IntqOp.waiter, IntqOp.signals, Waiter.blocked, intqEmpty, intqFull, transfer,
      decide_eq_false_iff_not] at h ⊢
    exact decide_eq_false fun heq => h (next_inj heq)
  | putc byte =>
    simp only [IntqOp.waiter, IntqOp.signals, Waiter.blocked, intqEmpty, intqFull, transfer,
      decide_eq_false_iff_not] at h ⊢
    exact decide_eq_false h

variable [DecidableEq τ]

/-- `signal (q, waiter)`: it asserts that the condition now holds; a thread in the slot, which
`thread_unblock` asserts to be blocked, is woken and the slot cleared. -/
def signal (s : IntqSys τ) (w : Waiter) : Option (IntqSys τ) :=
  if w.blocked s.q then none
  else
    match s.q.waiter w with
    | none => some s
    | some u =>
      match s.pc u with
      | .busy op .waiting =>
        some { s with q := s.q.setWaiter w none, pc := Function.update s.pc u (.busy op .woken) }
      | _ => none

/-- `wait (q, waiter)` by thread `t` in `op`: it asserts that the condition holds, puts `t` in
the slot and blocks it. -/
def wait (s : IntqSys τ) (t : τ) (op : IntqOp) : Option (IntqSys τ) :=
  if op.waiter.blocked s.q then
    some { s with
      q := s.q.setWaiter op.waiter (some t)
      pc := Function.update s.pc t (.busy op .waiting) }
  else none

/-- `lock_acquire (&q->lock); wait (q, ...);` by thread `t`: with the lock free `t` takes it and
waits; held by another thread, `t` blocks in `lock_acquire`, which asserts that `t` does not
hold it already. -/
def acquire (s : IntqSys τ) (t : τ) (op : IntqOp) : Option (IntqSys τ) :=
  match s.q.lock with
  | none => wait { s with q := { s.q with lock := some t } } t op
  | some u =>
    if u = t then none else some { s with pc := Function.update s.pc t (.busy op .acquire) }

/-- The loop of `intq_getc` or `intq_putc` in thread `t` from its test on: on an empty (full)
queue the thread waits; on one that is not, the transfer, the `signal` of the other slot and the
return. -/
def loop (s : IntqSys τ) (t : τ) (op : IntqOp) : Option (IntqSys τ) :=
  if op.waiter.blocked s.q then s.acquire t op
  else { s.transfer op with pc := Function.update s.pc t .idle }.signal op.signals

/-- `intq_getc (q)` called by thread `t`. -/
def intqGetc (s : IntqSys τ) (t : τ) : Option (IntqSys τ) := s.loop t .getc

/-- `intq_putc (q, byte)` called by thread `t`. -/
def intqPutc (s : IntqSys τ) (t : τ) (byte : UInt8) : Option (IntqSys τ) := s.loop t (.putc byte)

/-- Thread `t`, blocked in a call, runs again: in `lock_acquire` once the lock is free, then
`wait`; woken from `wait`, `lock_release (&q->lock)`, which asserts that `t` holds the lock, and
the test of the loop again. -/
def resume (s : IntqSys τ) (t : τ) : Option (IntqSys τ) :=
  match s.pc t with
  | .busy op .acquire => if s.q.lock = none then s.acquire t op else none
  | .busy op .woken =>
    if s.q.lock = some t then { s with q := { s.q with lock := none } }.loop t op else none
  | _ => none

/-- `intq_getc` or `intq_putc` called by an interrupt handler, which cannot sleep: the loop's
`ASSERT (!intr_context ())` stops the kernel on an empty (full) queue. -/
def intrCall (s : IntqSys τ) (op : IntqOp) : Option (IntqSys τ) :=
  if op.waiter.blocked s.q then none else (s.transfer op).signal op.signals

end IntqSys

/-- A step of the system: a thread in no call calls `intq_getc` or `intq_putc`, a thread blocked
in a call runs again, or an interrupt handler calls one. -/
inductive IntqEvent (τ : Type)
  | getc (t : τ)
  | putc (t : τ) (byte : UInt8)
  | resume (t : τ)
  | intr (op : IntqOp)

variable [DecidableEq τ]

def IntqSys.intqStep (s : IntqSys τ) : IntqEvent τ → Option (IntqSys τ)
  | .getc t => if s.pc t = .idle then s.intqGetc t else none
  | .putc t byte => if s.pc t = .idle then s.intqPutc t byte else none
  | .resume t => s.resume t
  | .intr op => s.intrCall op

/-- A run of steps. -/
def intqRun (s : IntqSys τ) : List (IntqEvent τ) → Option (IntqSys τ)
  | [] => some s
  | e :: es => (s.intqStep e).bind fun s => intqRun s es

/-- The system after `intq_init (q)`: every thread in no call, nothing added or returned. -/
def intqStart (q : Intq τ) : IntqSys τ := ⟨intqInit q, fun _ => .idle, [], []⟩

/-- The states some interleaving of calls reaches. -/
inductive IntqReachable : IntqSys τ → Prop
  | init (q : Intq τ) : IntqReachable (intqStart q)
  | step {s s' : IntqSys τ} (e : IntqEvent τ) :
      IntqReachable s → s.intqStep e = some s' → IntqReachable s'

lemma IntqReachable.run {s s' : IntqSys τ} (h : IntqReachable s) :
    ∀ {es : List (IntqEvent τ)}, intqRun s es = some s' → IntqReachable s'
  | [], hr => by
      rw [intqRun, Option.some.injEq] at hr
      exact hr ▸ h
  | e :: es, hr => by
      obtain ⟨s₁, h₁, hr⟩ := Option.bind_eq_some_iff.mp hr
      exact (h.step e h₁).run hr

namespace IntqSys

variable {s s' : IntqSys τ} {t : τ} {op : IntqOp} {w : Waiter}

/-- What `signal (q, w)` can do, once what `w` waits for has ended: find the slot empty, or wake
the thread blocked in it and clear the slot. -/
lemma signal_eq_some (h : s.signal w = some s') :
    w.blocked s.q = false ∧
      (s.q.waiter w = none ∧ s' = s ∨
        ∃ u op, s.q.waiter w = some u ∧ s.pc u = .busy op .waiting ∧
          s' = { s with q := s.q.setWaiter w none, pc := Function.update s.pc u (.busy op .woken) }) := by
  unfold signal at h
  split_ifs at h with hb
  refine ⟨by simpa using hb, ?_⟩
  split at h
  · rename_i hnone
    cases h
    exact .inl ⟨hnone, rfl⟩
  · rename_i u hsome
    split at h
    · rename_i op hpu
      cases h
      exact .inr ⟨u, op, hsome, hpu, rfl⟩
    · cases h

/-- What `lock_acquire (&q->lock); wait (q, ...);` can do: with the lock free, take it and wait
on a queue that is empty (full); with it held by another thread, block in `lock_acquire`. -/
lemma acquire_eq_some (h : s.acquire t op = some s') :
    (s.q.lock = none ∧ op.waiter.blocked s.q = true ∧
      s' = { s with
        q := { s.q with lock := some t }.setWaiter op.waiter (some t)
        pc := Function.update s.pc t (.busy op .waiting) }) ∨
      ∃ v, s.q.lock = some v ∧ v ≠ t ∧
        s' = { s with pc := Function.update s.pc t (.busy op .acquire) } := by
  unfold acquire at h
  split at h
  · rename_i hfree
    unfold wait at h
    split_ifs at h with hb
    cases h
    exact .inl ⟨hfree, by simpa using hb, rfl⟩
  · rename_i v hheld
    split_ifs at h with hvt
    cases h
    exact .inr ⟨v, hheld, hvt, rfl⟩

/-- What a thread blocked in a call can do when it runs again: leave `lock_acquire` once the lock
is free, or, woken, release the lock it holds and test again. -/
lemma resume_eq_some (h : s.resume t = some s') :
    (∃ op, s.pc t = .busy op .acquire ∧ s.q.lock = none ∧ s.acquire t op = some s') ∨
      ∃ op, s.pc t = .busy op .woken ∧ s.q.lock = some t ∧
        { s with q := { s.q with lock := none } }.loop t op = some s' := by
  unfold resume at h
  split at h
  · rename_i op hpc
    split_ifs at h with hfree
    exact .inl ⟨op, hpc, hfree, h⟩
  · rename_i op hpc
    split_ifs at h with hheld
    exact .inr ⟨op, hpc, hheld, h⟩
  · cases h

end IntqSys

/-! ### The bytes -/

/-- What the calls read and write apart from the lock and the waiters: the ring, its positions
and the two logs. -/
structure Bytes where
  buf : Fin intqBufsize → UInt8
  head : Fin intqBufsize
  tail : Fin intqBufsize
  puts : List UInt8
  gets : List UInt8

def IntqSys.bytes (s : IntqSys τ) : Bytes := ⟨s.q.buf, s.q.head, s.q.tail, s.puts, s.gets⟩

/-- What a step can do to the bytes: nothing, take the byte at `tail` of a queue that is not
empty, or store a byte at `head` of a queue that is not full. -/
inductive ByteStep : Bytes → Bytes → Prop
  | keep (b : Bytes) : ByteStep b b
  | take (b : Bytes) : b.head ≠ b.tail →
      ByteStep b ⟨b.buf, b.head, next b.tail, b.puts, b.gets ++ [b.buf b.tail]⟩
  | store (b : Bytes) (x : UInt8) : next b.head ≠ b.tail →
      ByteStep b ⟨Function.update b.buf b.head x, next b.head, b.tail, b.puts ++ [x], b.gets⟩

/-- The bytes returned, then those the ring holds, are the bytes added. -/
def Fifo (b : Bytes) : Prop := b.gets ++ Ring.contents b.buf b.head b.tail = b.puts

lemma next_eq_shift (pos : Fin intqBufsize) : next pos = Ring.shift pos 1 := rfl

/-- Every step keeps `Fifo`. -/
lemma ByteStep.fifo {b b' : Bytes} (hs : ByteStep b b') (hf : Fifo b) : Fifo b' := by
  cases hs with
  | keep => exact hf
  | take hne =>
    -- the byte at `tail` moves from the front of the ring to the end of what was returned
    simp only [Fifo, next_eq_shift] at hf ⊢
    rw [List.append_assoc, List.singleton_append, ← Ring.contents_take _ hne, hf]
  | store x hnf =>
    rw [next_eq_shift] at hnf
    simp only [Fifo, next_eq_shift] at hf ⊢
    rw [Ring.contents_store _ hnf, ← List.append_assoc, hf]

namespace IntqSys

variable {s s' : IntqSys τ} {t : τ} {op : IntqOp}

lemma signal_bytes {w : Waiter} (h : s.signal w = some s') : s'.bytes = s.bytes := by
  obtain ⟨-, ⟨-, rfl⟩ | ⟨u, op, -, -, rfl⟩⟩ := signal_eq_some h
  · rfl
  · simp [bytes]

lemma acquire_bytes (h : s.acquire t op = some s') : s'.bytes = s.bytes := by
  obtain ⟨-, -, rfl⟩ | ⟨v, -, -, rfl⟩ := acquire_eq_some h
  · simp [bytes]
  · rfl

omit [DecidableEq τ] in
/-- The end of a call on a queue that is not empty (full) takes (stores) a byte. -/
lemma transfer_byteStep (h : op.waiter.blocked s.q = false) : ByteStep s.bytes (s.transfer op).bytes := by
  cases op with
  | getc =>
    exact ByteStep.take s.bytes
      (show s.q.head ≠ s.q.tail by simpa [IntqOp.waiter, Waiter.blocked, intqEmpty] using h)
  | putc byte =>
    exact ByteStep.store s.bytes byte
      (show next s.q.head ≠ s.q.tail by simpa [IntqOp.waiter, Waiter.blocked, intqFull] using h)

lemma loop_byteStep (h : s.loop t op = some s') : ByteStep s.bytes s'.bytes := by
  unfold loop at h
  split_ifs at h with hb
  · rw [acquire_bytes h]
    exact .keep _
  · rw [signal_bytes h]
    exact transfer_byteStep (by simpa using hb)

lemma resume_byteStep (h : s.resume t = some s') : ByteStep s.bytes s'.bytes := by
  obtain ⟨op, -, -, ha⟩ | ⟨op, -, -, hl⟩ := resume_eq_some h
  · rw [acquire_bytes ha]
    exact .keep _
  · have hstep := loop_byteStep hl
    exact hstep

lemma intrCall_byteStep (h : s.intrCall op = some s') : ByteStep s.bytes s'.bytes := by
  unfold intrCall at h
  split_ifs at h with hb
  rw [signal_bytes h]
  exact transfer_byteStep (by simpa using hb)

end IntqSys

/-- **What a step does to the bytes**: it keeps them, takes the byte at `tail` of a queue that is
not empty, or stores one at `head` of a queue that is not full. -/
theorem intqStep_byteStep {s s' : IntqSys τ} {e : IntqEvent τ} (h : s.intqStep e = some s') :
    ByteStep s.bytes s'.bytes := by
  cases e with
  | getc t =>
    simp only [IntqSys.intqStep, IntqSys.intqGetc] at h
    split_ifs at h
    exact IntqSys.loop_byteStep h
  | putc t byte =>
    simp only [IntqSys.intqStep, IntqSys.intqPutc] at h
    split_ifs at h
    exact IntqSys.loop_byteStep h
  | resume t => exact IntqSys.resume_byteStep h
  | intr op => exact IntqSys.intrCall_byteStep h

lemma IntqReachable.fifo {s : IntqSys τ} (h : IntqReachable s) : Fifo s.bytes := by
  induction h with
  | init q => simp [Fifo, IntqSys.bytes, intqStart, intqInit]
  | step e _ hs ih => exact (intqStep_byteStep hs).fifo ih

/-- **The interrupt queue is a FIFO of at most `INTQ_BUFSIZE - 1` bytes.** In every state that
an interleaving of `intq_getc` and `intq_putc` calls by threads and interrupt handlers reaches,
the bytes `intq_getc` returned are a prefix of those `intq_putc` added, the rest of which the
ring holds in order; there are at most `INTQ_BUFSIZE - 1` of them, `intq_empty` holds exactly
when there are none and `intq_full` exactly when there are `INTQ_BUFSIZE - 1`. -/
theorem intq_fifo {s : IntqSys τ} (h : IntqReachable s) :
    s.gets <+: s.puts ∧ s.puts.drop s.gets.length = Ring.contents s.q.buf s.q.head s.q.tail ∧
      s.puts.length - s.gets.length ≤ intqBufsize - 1 ∧
      (intqEmpty s.q = true ↔ s.puts.length - s.gets.length = 0) ∧
      (intqFull s.q = true ↔ s.puts.length - s.gets.length = intqBufsize - 1) := by
  have hf : s.gets ++ Ring.contents s.q.buf s.q.head s.q.tail = s.puts := h.fifo
  -- the queue holds the bytes added and not returned
  have hlen : s.puts.length - s.gets.length = Ring.count s.q.head s.q.tail := by
    rw [← hf, List.length_append, Ring.length_contents]
    omega
  refine ⟨⟨_, hf⟩, by rw [← hf, List.drop_left], ?_, ?_, ?_⟩
  · rw [hlen]
    exact Nat.le_sub_one_of_lt (Ring.count_lt _ _)
  · rw [hlen, Ring.count_eq_zero_iff]
    simp [intqEmpty]
  · rw [hlen, Ring.count_eq_iff, ← next_eq_shift]
    simp [intqFull]

/-- Thread `1` finds the queue empty and waits; thread `2` adds `65` and wakes it; thread `1`
runs again, releases the lock and returns `65`. -/
theorem intq_fifo_wake :
    ∃ s, intqRun (intqStart (intqBoot : Intq ℕ))
        [.getc 1, .putc 2 65, .resume 1] = some s ∧ s.gets = [65] ∧
      (s.gets <+: s.puts ∧ s.puts.drop s.gets.length = Ring.contents s.q.buf s.q.head s.q.tail ∧
        s.puts.length - s.gets.length ≤ intqBufsize - 1 ∧
        (intqEmpty s.q = true ↔ s.puts.length - s.gets.length = 0) ∧
        (intqFull s.q = true ↔ s.puts.length - s.gets.length = intqBufsize - 1)) := by
  have hrun : (intqRun (intqStart (intqBoot : Intq ℕ))
      [.getc 1, .putc 2 65, .resume 1]).map (·.gets) = some [65] := by
    decide
  obtain ⟨s, hs, hgets⟩ := Option.map_eq_some_iff.mp hrun
  exact ⟨s, hs, hgets, intq_fifo ((IntqReachable.init _).run hs)⟩

end Devices

end TinyOs
