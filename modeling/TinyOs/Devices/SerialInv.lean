import TinyOs.Devices.Serial

/-!
What holds of the serial port and the input buffer over every run.

* `WaitInv.callBy_cases`, `WaitInv.callBy_returns`: a call on an interrupt queue by a thread in
  no call on it, or by an interrupt handler, returns with the transfer made, or blocks its
  thread with the queue as it was; on a queue it need not wait on it returns;
* `SerialCore`, `SerialInv`: the invariant, with one lemma for each call of the driver
  (`SerialInv.pollTxq`, `SerialInv.putcTxq`, `SerialInv.flushLoop`, `SerialInv.inputPutc`,
  ...), `SerialInv.step` for a step and `SerialReachable.inv` for every run;
* `serial_wire_fifo`, `serial_putc_intr_off_returns`, `serial_ier`, `serial_flush_sends_all`.
-/

namespace TinyOs

namespace Devices

variable {τ : Type} [DecidableEq τ]

/-! ### Calls on a queue -/

section Calls

variable {q q' : IntqSys τ} {caller : Caller τ} {op : IntqOp}

omit [DecidableEq τ] in
/-- A full queue is not empty: one cell is always left free. -/
lemma intqEmpty_eq_false_of_full {Q : Intq τ} (h : intqFull Q = true) : intqEmpty Q = false := by
  simp only [intqFull, intqEmpty, decide_eq_true_eq, decide_eq_false_iff_not] at h ⊢
  intro heq
  rw [heq] at h
  have hv := congrArg Fin.val h
  have hlt := Q.tail.isLt
  simp only [next, intqBufsize] at hv hlt
  omega

omit [DecidableEq τ] in
lemma intqEmpty_eq_of_bytes (h : q'.bytes = q.bytes) : intqEmpty q'.q = intqEmpty q.q := by
  have hh : q'.q.head = q.q.head := congrArg Bytes.head h
  have ht : q'.q.tail = q.q.tail := congrArg Bytes.tail h
  simp only [intqEmpty, hh, ht]

omit [DecidableEq τ] in
lemma intqFull_eq_of_bytes (h : q'.bytes = q.bytes) : intqFull q'.q = intqFull q.q := by
  have hh : q'.q.head = q.q.head := congrArg Bytes.head h
  have ht : q'.q.tail = q.q.tail := congrArg Bytes.tail h
  simp only [intqFull, hh, ht]

omit [DecidableEq τ] in
/-- Taking a byte from a queue that is not empty leaves it not full. -/
lemma intqFull_transfer_getc (h : intqEmpty q.q = false) : intqFull (q.transfer .getc).q = false := by
  have hb : IntqOp.getc.waiter.blocked q.q = false := by simpa [IntqOp.waiter, Waiter.blocked] using h
  simpa [IntqOp.signals, Waiter.blocked] using IntqSys.signals_blocked_transfer q hb

lemma IntqReachable.callBy (h : IntqReachable q) (hc : q.CanCall caller)
    (hs : q.callBy caller op = some q') : IntqReachable q' := by
  cases caller with
  | thread t => exact h.loop hc hs
  | intr => exact h.step (.intr op) hs

lemma IntqSys.callBy_pc_busy {u : τ} {op' : IntqOp} {loc : IntqAt}
    (hs : q.callBy caller op = some q') (hu : q'.pc u = .busy op' loc) :
    (∃ loc', q.pc u = .busy op' loc') ∨ (caller = .thread u ∧ op' = op) := by
  cases caller with
  | thread t =>
    obtain hu' | ⟨rfl, rfl⟩ := IntqSys.loop_pc_busy hs hu
    · exact .inl hu'
    · exact .inr ⟨rfl, rfl⟩
  | intr => exact .inl (IntqSys.intrCall_pc_busy hs hu)

omit [DecidableEq τ] in
/-- A thread in no call neither waits nor has been woken. -/
lemma WaitInv.running_of_idle (h : WaitInv q) {t : τ} (ht : q.pc t = .idle) : RunInv q t :=
  h.running fun op => by simp [ht]

/-- A call by a caller that may call returns, the transfer made and the caller free to call
again, or blocks its thread on a queue it must wait on, the bytes as they were. -/
lemma WaitInv.callBy_cases (h : WaitInv q) (hc : q.CanCall caller)
    (hs : q.callBy caller op = some q') :
    (op.waiter.blocked q.q = false ∧ q'.CanCall caller ∧ q'.bytes = (q.transfer op).bytes) ∨
      ∃ t, caller = .thread t ∧ op.waiter.blocked q.q = true ∧ q'.pc t ≠ .idle ∧
        q'.bytes = q.bytes := by
  cases caller with
  | thread t =>
    obtain ⟨hb, hidle, hbytes⟩ | ⟨hb, hbusy, hbytes⟩ := (h.running_of_idle hc).loop_cases hs
    · exact .inl ⟨hb, hidle, hbytes⟩
    · exact .inr ⟨t, rfl, hb, hbusy, hbytes⟩
  | intr =>
    obtain ⟨hb, hbytes⟩ := IntqSys.intrCall_bytes hs
    exact .inl ⟨hb, trivial, hbytes⟩

/-- A call on a queue the caller need not wait on returns. -/
lemma WaitInv.callBy_returns (h : WaitInv q) (hc : q.CanCall caller)
    (hb : op.waiter.blocked q.q = false) :
    ∃ q', q.callBy caller op = some q' ∧ q'.CanCall caller ∧ q'.bytes = (q.transfer op).bytes := by
  have hsome : (q.callBy caller op).isSome := by
    cases caller with
    | thread t => exact (h.running_of_idle hc).loop_isSome op
    | intr =>
      simp only [IntqSys.callBy, IntqSys.intrCall, hb, Bool.false_eq_true, if_false]
      exact h.transfer_signal_isSome hb
  obtain ⟨q', hs⟩ := Option.isSome_iff_exists.mp hsome
  obtain ⟨-, hc', hbytes⟩ | ⟨t, -, hb', -, -⟩ := h.callBy_cases hc hs
  · exact ⟨q', hs, hc', hbytes⟩
  · rw [hb] at hb'
    cases hb'

end Calls

/-! ### The invariant -/

/-- Every thread in a call on the queue is in `intq_putc`. -/
def OnlyPutc (q : IntqSys τ) : Prop := ∀ u op loc, q.pc u = .busy op loc → op ≠ .getc

/-- The invariant but for the interrupt enable register: both queues are states their calls
reach; before queued mode `txq` has held nothing and no thread is in a call on it; the wire is
the polled bytes, then those taken from `txq`; a thread waits on `txq` only in `intq_putc`. -/
structure SerialCore (s : SerialSys τ) : Prop where
  txq : IntqReachable s.txq
  buffer : IntqReachable s.buffer
  unqueued : s.mode ≠ .queue → s.txq.pc = (fun _ => .idle) ∧ s.txq.puts = [] ∧ s.txq.gets = []
  wire : s.wire = s.polled ++ s.txq.gets
  onlyPutc : OnlyPutc s.txq

/-- In queued mode, the transmit interrupt is enabled for every byte in `txq`, and the receive
interrupt exactly when the input buffer has room. -/
def IerSet (s : SerialSys τ) : Prop :=
  s.mode = .queue →
    (intqEmpty s.txq.q = false → s.ier.xmit = true) ∧ s.ier.recv = !intqFull s.buffer.q

structure SerialInv (s : SerialSys τ) : Prop extends SerialCore s where
  ier : IerSet s

section Inv

variable {s s' : SerialSys τ} {caller : Caller τ} {t : τ}

/-- Before queued mode nothing is queued. -/
lemma SerialCore.queue_of_nonempty (h : SerialCore s) (hne : intqEmpty s.txq.q = false) :
    s.mode = .queue := by
  by_contra hq
  obtain ⟨-, hputs, hgets⟩ := h.unqueued hq
  have hf : s.txq.gets ++ Ring.contents s.txq.q.buf s.txq.q.head s.txq.q.tail = s.txq.puts :=
    h.txq.fifo
  rw [hputs, hgets, List.nil_append] at hf
  have hcount := congrArg List.length hf
  rw [Ring.length_contents, List.length_nil, Ring.count_eq_zero_iff] at hcount
  simp [intqEmpty, hcount] at hne

/-- `write_ier` sets the register from the queues. -/
lemma SerialCore.writeIer (h : SerialCore s) : SerialInv s.writeIer :=
  ⟨⟨h.txq, h.buffer, h.unqueued, h.wire, h.onlyPutc⟩,
    fun _ => ⟨fun he => by simpa [SerialSys.writeIer] using he, rfl⟩⟩

lemma SerialCore.serialNotify (h : SerialCore s) : SerialInv s.serialNotify := by
  unfold SerialSys.serialNotify
  split_ifs with hq
  · exact h.writeIer
  · exact ⟨h, fun hq' => absurd hq' hq⟩

/-- A queue changed with its bytes as they were keeps the register set. -/
lemma SerialInv.withTxq {txq : IntqSys τ} (h : SerialInv s) (hcore : SerialCore { s with txq })
    (hbytes : txq.bytes = s.txq.bytes) : SerialInv { s with txq } :=
  ⟨hcore, fun hq => by simpa [IerSet, intqEmpty_eq_of_bytes hbytes] using h.ier hq⟩

lemma SerialInv.withBuffer {buffer : IntqSys τ} (h : SerialInv s)
    (hcore : SerialCore { s with buffer }) (hbytes : buffer.bytes = s.buffer.bytes) :
    SerialInv { s with buffer } :=
  ⟨hcore, fun hq => by simpa [IerSet, intqFull_eq_of_bytes hbytes] using h.ier hq⟩

/-- `putc_poll (intq_getc (&txq))` on a `txq` that is not empty: the byte at `tail` moves to the
wire and the caller may call again. -/
lemma SerialInv.pollTxq (h : SerialInv s) (hne : intqEmpty s.txq.q = false)
    (hc : s.txq.CanCall caller) :
    ∃ txq, s.pollTxq caller = some { s with txq, wire := s.wire ++ [s.txq.q.buf s.txq.q.tail] } ∧
      SerialInv { s with txq, wire := s.wire ++ [s.txq.q.buf s.txq.q.tail] } ∧
      txq.CanCall caller ∧ txq.bytes = (s.txq.transfer .getc).bytes := by
  have hq := h.queue_of_nonempty hne
  have hb : IntqOp.getc.waiter.blocked s.txq.q = false := by
    simpa [IntqOp.waiter, Waiter.blocked] using hne
  obtain ⟨txq, hs, hc', hbytes⟩ := h.txq.waitInv.callBy_returns hc hb
  have hgets : txq.gets = s.txq.gets ++ [s.txq.q.buf s.txq.q.tail] := congrArg Bytes.gets hbytes
  refine ⟨txq, by simp [SerialSys.pollTxq, SerialSys.putcPoll, hs], ⟨⟨h.txq.callBy hc hs,
    h.buffer, fun hq' => absurd hq hq', ?_, ?_⟩, ?_⟩, hc', hbytes⟩
  · -- the byte taken from `txq` is the byte put on the wire
    show s.wire ++ _ = s.polled ++ txq.gets
    rw [h.wire, hgets, List.append_assoc]
  · -- the caller, back from `intq_getc`, is in no call
    intro u op' loc hu
    obtain ⟨loc', hpc⟩ | ⟨rfl, rfl⟩ := IntqSys.callBy_pc_busy hs hu
    · exact h.onlyPutc u op' loc' hpc
    · have hidle : txq.pc u = .idle := hc'
      rw [hidle] at hu
      cases hu
  · -- `txq` was not empty, so the transmit interrupt was already on
    intro _
    exact ⟨fun _ => (h.ier hq).1 hne, (h.ier hq).2⟩

/-- The `intq_putc` of `serial_putc` in queued mode: the byte is queued and `write_ier` run, or
the thread blocks with `txq` as it was; the wire keeps its bytes. -/
lemma SerialInv.putcTxq {txq : IntqSys τ} {byte : UInt8} (h : SerialInv s) (hq : s.mode = .queue)
    (hc : s.txq.CanCall caller) (hs : s.txq.callBy caller (.putc byte) = some txq) :
    SerialInv (s.afterPutc caller txq) := by
  have hcases := h.txq.waitInv.callBy_cases hc hs
  -- `intq_putc` takes no byte from `txq`
  have hgets : txq.gets = s.txq.gets := by
    obtain ⟨-, -, hbytes⟩ | ⟨-, -, -, -, hbytes⟩ := hcases
    · exact congrArg Bytes.gets hbytes
    · exact congrArg Bytes.gets hbytes
  have hcore : SerialCore { s with txq } := by
    refine ⟨h.txq.callBy hc hs, h.buffer, fun hq' => absurd hq hq', ?_, ?_⟩
    · show s.wire = s.polled ++ txq.gets
      rw [hgets, h.wire]
    · intro u op' loc hu
      obtain ⟨loc', hpc⟩ | ⟨-, rfl⟩ := IntqSys.callBy_pc_busy hs hu
      · exact h.onlyPutc u op' loc' hpc
      · simp
  cases caller with
  | thread t =>
    dsimp only [SerialSys.afterPutc]
    split_ifs with hidle
    · exact hcore.writeIer
    · obtain ⟨-, hc', -⟩ | ⟨-, -, -, -, hbytes⟩ := hcases
      · exact absurd hc' hidle
      · exact h.withTxq hcore hbytes
  | intr => exact hcore.writeIer

/-- A thread blocked in the `intq_putc` of `serial_putc` runs again. -/
lemma SerialInv.resumeTxq (h : SerialInv s) (hr : s.resumeTxq t = some s') : SerialInv s' := by
  obtain ⟨txq, hs, rfl⟩ := Option.map_eq_some_iff.mp hr
  obtain ⟨op, loc, hpc, hcases⟩ := h.txq.waitInv.resume_cases hs
  -- a thread in a call on `txq` is in queued mode, in `intq_putc`
  have hq : s.mode = .queue := by
    by_contra hq
    have hidle := congrFun (h.unqueued hq).1 t
    simp [hpc] at hidle
  obtain ⟨byte, rfl⟩ : ∃ byte, op = .putc byte := by
    cases op with
    | getc => exact absurd rfl (h.onlyPutc t _ loc hpc)
    | putc byte => exact ⟨byte, rfl⟩
  have hgets : txq.gets = s.txq.gets := by
    obtain ⟨-, -, hbytes⟩ | ⟨-, hbytes⟩ := hcases
    · exact congrArg Bytes.gets hbytes
    · exact congrArg Bytes.gets hbytes
  have hcore : SerialCore { s with txq } := by
    refine ⟨h.txq.step (.resume t) hs, h.buffer, fun hq' => absurd hq hq', ?_, ?_⟩
    · show s.wire = s.polled ++ txq.gets
      rw [hgets, h.wire]
    · intro u op' loc' hu
      obtain ⟨loc'', hpc'⟩ := IntqSys.resume_pc_busy hs hu
      exact h.onlyPutc u op' loc'' hpc'
  dsimp only [SerialSys.afterPutc]
  split_ifs with hidle
  · exact hcore.writeIer
  · obtain ⟨-, hidle', -⟩ | ⟨-, hbytes⟩ := hcases
    · exact absurd hidle' hidle
    · exact h.withTxq hcore hbytes

/-- The loop of `serial_flush`, given more rounds than `txq` holds bytes, empties `txq` onto
the wire. The induction is on the rounds, `txq` one byte shorter at each. -/
lemma SerialInv.flushLoop_empties (h : SerialInv s) (ht : s.txq.pc t = .idle) {fuel : ℕ}
    (hfuel : Ring.count s.txq.q.head s.txq.q.tail < fuel) :
    ∃ s', SerialSys.flushLoop t fuel s = some s' ∧ SerialInv s' ∧ intqEmpty s'.txq.q = true ∧
      s'.txq.puts = s.txq.puts ∧ s'.polled = s.polled := by
  induction fuel generalizing s with
  | zero => exact absurd hfuel (Nat.not_lt_zero _)
  | succ fuel ih =>
    rw [SerialSys.flushLoop]
    cases he : intqEmpty s.txq.q with
    | true => exact ⟨s, if_pos rfl, h, he, rfl, rfl⟩
    | false =>
      obtain ⟨txq, hp, hinv, hc, hbytes⟩ := h.pollTxq he (show s.txq.CanCall (.thread t) from ht)
      -- one byte fewer in `txq`
      have hcount : Ring.count txq.q.head txq.q.tail < fuel := by
        have hh : txq.q.head = s.txq.q.head := congrArg Bytes.head hbytes
        have htl : txq.q.tail = Ring.shift s.txq.q.tail 1 := congrArg Bytes.tail hbytes
        have hne : Ring.count s.txq.q.head s.txq.q.tail ≠ 0 := by
          rw [Ne, Ring.count_eq_zero_iff]
          simpa [intqEmpty] using he
        have hshift := Ring.count_shift_tail hne
        rw [hh, htl]
        omega
      obtain ⟨s', hf, hinv', hempty, hputs, hpolled⟩ := ih hinv hc hcount
      refine ⟨s', ?_, hinv', hempty, ?_, hpolled⟩
      · rw [if_neg (by simp), hp, Option.bind_some]
        exact hf
      · rw [hputs]
        exact congrArg Bytes.puts hbytes

lemma SerialInv.serialFlush (h : SerialInv s) (ht : s.txq.pc t = .idle)
    (hf : s.serialFlush t = some s') : SerialInv s' := by
  obtain ⟨s'', hf', hinv, -⟩ := h.flushLoop_empties ht (Ring.count_lt _ _)
  rw [SerialSys.serialFlush, hf', Option.some.injEq] at hf
  exact hf ▸ hinv

/-- The input buffer after the `intq_getc` of `input_getc`: returned, then `serial_notify`, or
blocked with the buffer as it was. -/
lemma SerialInv.afterGetc {buffer : IntqSys τ} (h : SerialInv s) (hreach : IntqReachable buffer)
    (hcases : buffer.pc t = .idle ∨ buffer.bytes = s.buffer.bytes) :
    SerialInv (s.afterGetc t buffer) := by
  have hcore : SerialCore { s with buffer } := ⟨h.txq, hreach, h.unqueued, h.wire, h.onlyPutc⟩
  unfold SerialSys.afterGetc
  split_ifs with hidle
  · exact hcore.serialNotify
  · exact h.withBuffer hcore (hcases.resolve_left hidle)

lemma SerialInv.inputGetc (h : SerialInv s) (ht : s.buffer.pc t = .idle)
    (hg : s.inputGetc t = some s') : SerialInv s' := by
  obtain ⟨buffer, hs, rfl⟩ := Option.map_eq_some_iff.mp hg
  refine h.afterGetc (h.buffer.loop ht hs) ?_
  obtain ⟨-, hidle, -⟩ | ⟨-, -, hbytes⟩ := (h.buffer.waitInv.running_of_idle ht).loop_cases hs
  · exact .inl hidle
  · exact .inr hbytes

lemma SerialInv.resumeBuffer (h : SerialInv s) (hr : s.resumeBuffer t = some s') :
    SerialInv s' := by
  obtain ⟨buffer, hs, rfl⟩ := Option.map_eq_some_iff.mp hr
  refine h.afterGetc (h.buffer.step (.resume t) hs) ?_
  obtain ⟨-, -, -, ⟨-, hidle, -⟩ | ⟨-, hbytes⟩⟩ := h.buffer.waitInv.resume_cases hs
  · exact .inl hidle
  · exact .inr hbytes

/-- `input_putc` from an interrupt handler. -/
lemma SerialInv.inputPutc {key : UInt8} (h : SerialInv s) (hp : s.inputPutc key = some s') :
    SerialInv s' := by
  unfold SerialSys.inputPutc at hp
  split_ifs at hp
  obtain ⟨buffer, hs, rfl⟩ := Option.map_eq_some_iff.mp hp
  exact SerialCore.serialNotify
    ⟨h.txq, h.buffer.step (.intr (.putc key)) hs, h.unqueued, h.wire, h.onlyPutc⟩

/-- `input_putc` on a buffer with room goes on: its assertion holds and `intq_putc` need not
wait. -/
lemma SerialInv.inputPutc_isSome (h : SerialInv s) (key : UInt8)
    (hfull : intqFull s.buffer.q = false) : (s.inputPutc key).isSome := by
  have hb : (IntqOp.putc key).waiter.blocked s.buffer.q = false := by
    simpa [IntqOp.waiter, Waiter.blocked] using hfull
  obtain ⟨buffer, hs, -⟩ :=
    h.buffer.waitInv.callBy_returns (show s.buffer.CanCall .intr from trivial) hb
  have hs' : s.buffer.intrCall (.putc key) = some buffer := hs
  simp [SerialSys.inputPutc, hfull, hs']

/-- The receive loop of `serial_interrupt`. The induction is on the bytes the UART presents. -/
lemma SerialInv.recvLoop {data : List UInt8} (h : SerialInv s) (hr : s.recvLoop data = some s') :
    SerialInv s' := by
  induction data generalizing s with
  | nil =>
    rw [SerialSys.recvLoop, Option.some.injEq] at hr
    exact hr ▸ h
  | cons key data ih =>
    rw [SerialSys.recvLoop] at hr
    split_ifs at hr
    · rw [Option.some.injEq] at hr
      exact hr ▸ h
    · obtain ⟨s₁, h₁, hr⟩ := Option.bind_eq_some_iff.mp hr
      exact ih (h.inputPutc h₁) hr

/-- The receive loop stores a byte only in a buffer with room: `input_putc`'s assertion
holds. -/
lemma SerialInv.recvLoop_isSome (h : SerialInv s) (data : List UInt8) :
    (s.recvLoop data).isSome := by
  induction data generalizing s with
  | nil => rfl
  | cons key data ih =>
    rw [SerialSys.recvLoop]
    split_ifs with hfull
    · rfl
    · obtain ⟨s₁, h₁⟩ := Option.isSome_iff_exists.mp (h.inputPutc_isSome key (by simpa using hfull))
      rw [h₁, Option.bind_some]
      exact ih (h.inputPutc h₁)

/-- The transmit loop of `serial_interrupt`. The induction is on the times the UART reports its
holding register empty. -/
lemma SerialInv.xmitLoop {ready : ℕ} (h : SerialInv s) (hx : s.xmitLoop ready = some s') :
    SerialInv s' := by
  induction ready generalizing s with
  | zero =>
    rw [SerialSys.xmitLoop, Option.some.injEq] at hx
    exact hx ▸ h
  | succ ready ih =>
    rw [SerialSys.xmitLoop] at hx
    split_ifs at hx with he
    · rw [Option.some.injEq] at hx
      exact hx ▸ h
    · obtain ⟨txq, hp, hinv, -, -⟩ :=
        h.pollTxq (by simpa using he) (show s.txq.CanCall .intr from trivial)
      rw [hp, Option.bind_some] at hx
      exact ih hinv hx

/-- The transmit loop takes bytes only from a `txq` that holds one: `intq_getc` from the
handler need not wait. -/
lemma SerialInv.xmitLoop_isSome (h : SerialInv s) (ready : ℕ) : (s.xmitLoop ready).isSome := by
  induction ready generalizing s with
  | zero => rfl
  | succ ready ih =>
    rw [SerialSys.xmitLoop]
    split_ifs with he
    · rfl
    · obtain ⟨txq, hp, hinv, -, -⟩ :=
        h.pollTxq (by simpa using he) (show s.txq.CanCall .intr from trivial)
      rw [hp, Option.bind_some]
      exact ih hinv

lemma SerialInv.serialInterrupt {data : List UInt8} {ready : ℕ} (h : SerialInv s)
    (hi : s.serialInterrupt data ready = some s') : SerialInv s' := by
  obtain ⟨s₂, h₂, rfl⟩ := Option.map_eq_some_iff.mp hi
  obtain ⟨s₁, h₁, h₂⟩ := Option.bind_eq_some_iff.mp h₂
  exact ((h.recvLoop h₁).xmitLoop h₂).toSerialCore.writeIer

lemma SerialInv.serialInterrupt_isSome (h : SerialInv s) (data : List UInt8) (ready : ℕ) :
    (s.serialInterrupt data ready).isSome := by
  obtain ⟨s₁, h₁⟩ := Option.isSome_iff_exists.mp (h.recvLoop_isSome data)
  obtain ⟨s₂, h₂⟩ := Option.isSome_iff_exists.mp ((h.recvLoop h₁).xmitLoop_isSome ready)
  simp [SerialSys.serialInterrupt, h₁, h₂]

lemma SerialInv.kbdPutc {c : UInt8} (h : SerialInv s) (hk : s.kbdPutc c = some s') :
    SerialInv s' := by
  unfold SerialSys.kbdPutc at hk
  split_ifs at hk
  · rw [Option.some.injEq] at hk
    exact hk ▸ h
  · exact h.inputPutc hk

/-- The keyboard interrupt stores a character only in a buffer with room. -/
lemma SerialInv.kbdPutc_isSome (h : SerialInv s) (c : UInt8) : (s.kbdPutc c).isSome := by
  unfold SerialSys.kbdPutc
  split_ifs with hfull
  · rfl
  · exact h.inputPutc_isSome c (by simpa using hfull)

/-- `init_poll` on a port not set up: `txq` initialised, as at boot. -/
lemma SerialInv.initPoll (h : SerialInv s) (hu : s.mode = .uninit) : SerialInv s.initPoll := by
  obtain ⟨hpc, hputs, hgets⟩ := h.unqueued (by rw [hu]; decide)
  have htxq : ({ s.txq with q := intqInit s.txq.q } : IntqSys τ) = intqStart s.txq.q := by
    simp only [intqStart, hpc, hputs, hgets]
  refine ⟨⟨?_, h.buffer, fun _ => ⟨hpc, hputs, hgets⟩, h.wire, h.onlyPutc⟩,
    fun hq => by simp [SerialSys.initPoll] at hq⟩
  show IntqReachable { s.txq with q := intqInit s.txq.q }
  rw [htxq]
  exact .init _

lemma SerialInv.serialInitQueue (h : SerialInv s) (hi : s.serialInitQueue = some s') :
    SerialInv s' := by
  simp only [SerialSys.serialInitQueue] at hi
  generalize hs₁ : (if s.mode = .uninit then s.initPoll else s) = s₁ at hi
  -- the port set up for polling first, if it is not yet
  have h₁ : SerialInv s₁ := by
    rw [← hs₁]
    split_ifs with hu
    · exact h.initPoll hu
    · exact h
  split_ifs at hi
  rw [Option.some.injEq] at hi
  subst hi
  exact SerialCore.writeIer ⟨h₁.txq, h₁.buffer, fun hq => absurd rfl hq, h₁.wire, h₁.onlyPutc⟩

/-- `putc_poll` of the byte before queued mode. -/
lemma SerialInv.sendPolled {byte : UInt8} (h : SerialInv s) (hq : s.mode ≠ .queue) :
    SerialInv { s.putcPoll byte with polled := s.polled ++ [byte] } := by
  obtain ⟨hpc, hputs, hgets⟩ := h.unqueued hq
  refine ⟨⟨h.txq, h.buffer, fun _ => ⟨hpc, hputs, hgets⟩, ?_, h.onlyPutc⟩, fun hq' => absurd hq' hq⟩
  show s.wire ++ [byte] = (s.polled ++ [byte]) ++ s.txq.gets
  rw [h.wire, hgets, List.append_nil, List.append_nil]

/-- `serial_putc` by a caller that may call. -/
lemma SerialInv.serialPutc {byte : UInt8} {level : IntrLevel} (h : SerialInv s)
    (hc : s.txq.CanCall caller) (hp : s.serialPutc caller byte level = some s') :
    SerialInv s' := by
  unfold SerialSys.serialPutc at hp
  split at hp
  · rename_i hq
    obtain ⟨s₁, h₁, hp⟩ := Option.bind_eq_some_iff.mp hp
    obtain ⟨txq, hs, rfl⟩ := Option.map_eq_some_iff.mp hp
    -- a byte sent by polling first, with interrupts off and `txq` full
    have hs₁ : SerialInv s₁ ∧ s₁.txq.CanCall caller ∧ s₁.mode = .queue := by
      split_ifs at h₁ with hfull
      · obtain ⟨txq₁, hp₁, hinv, hc₁, -⟩ := h.pollTxq (intqEmpty_eq_false_of_full hfull.2) hc
        rw [hp₁, Option.some.injEq] at h₁
        subst h₁
        exact ⟨hinv, hc₁, hq⟩
      · rw [Option.some.injEq] at h₁
        subst h₁
        exact ⟨h, hc, hq⟩
    exact hs₁.1.putcTxq hs₁.2.2 hs₁.2.1 hs
  · rename_i hq
    rw [Option.some.injEq] at hp
    subst hp
    exact h.sendPolled (by rw [hq]; decide)
  · rename_i hu
    rw [Option.some.injEq] at hp
    subst hp
    exact (h.initPoll hu).sendPolled (by simp [SerialSys.initPoll])

/-- `serial_putc` with interrupts off returns: with `txq` full a byte is first sent by polling,
and then `intq_putc` has room. -/
lemma SerialInv.serialPutc_off_returns (h : SerialInv s) (hc : s.txq.CanCall caller)
    (byte : UInt8) : ∃ s', s.serialPutc caller byte .off = some s' ∧ s'.txq.CanCall caller := by
  unfold SerialSys.serialPutc
  split
  · rename_i hq
    obtain ⟨s₁, hs₁, hinv₁, hc₁, hroom⟩ : ∃ s₁,
        (if IntrLevel.off = .off ∧ intqFull s.txq.q = true then s.pollTxq caller else some s) =
          some s₁ ∧ SerialInv s₁ ∧ s₁.txq.CanCall caller ∧ intqFull s₁.txq.q = false := by
      cases hfull : intqFull s.txq.q with
      | false => exact ⟨s, by simp, h, hc, hfull⟩
      | true =>
        have hne := intqEmpty_eq_false_of_full hfull
        obtain ⟨txq₁, hp₁, hinv, hc₁, hbytes⟩ := h.pollTxq hne hc
        refine ⟨_, by simpa using hp₁, hinv, hc₁, ?_⟩
        show intqFull txq₁.q = false
        rw [intqFull_eq_of_bytes hbytes]
        exact intqFull_transfer_getc hne
    have hb : (IntqOp.putc byte).waiter.blocked s₁.txq.q = false := by
      simpa [IntqOp.waiter, Waiter.blocked] using hroom
    obtain ⟨txq, hs, hc', -⟩ := hinv₁.txq.waitInv.callBy_returns hc₁ hb
    refine ⟨s₁.afterPutc caller txq, by rw [hs₁, Option.bind_some, hs, Option.map_some], ?_⟩
    -- the caller returned, and `write_ier` ran
    cases caller with
    | thread t =>
      have hidle : txq.pc t = .idle := hc'
      dsimp only [SerialSys.afterPutc]
      rw [if_pos hidle]
      exact hidle
    | intr => trivial
  · exact ⟨_, rfl, hc⟩
  · exact ⟨_, rfl, hc⟩

/-- **Every step keeps `SerialInv`.** -/
theorem SerialInv.step (h : SerialInv s) {e : SerialEvent τ} (hs : s.serialStep e = some s') :
    SerialInv s' := by
  cases e with
  | initQueue => exact h.serialInitQueue hs
  | putc t byte level =>
    simp only [SerialSys.serialStep] at hs
    split_ifs at hs with hidle
    exact h.serialPutc (show s.txq.CanCall (.thread t) from hidle.1) hs
  | intrPutc byte => exact h.serialPutc (show s.txq.CanCall .intr from trivial) hs
  | resumeTxq t => exact h.resumeTxq hs
  | flush t =>
    simp only [SerialSys.serialStep] at hs
    split_ifs at hs with hidle
    exact h.serialFlush hidle.1 hs
  | getc t =>
    simp only [SerialSys.serialStep] at hs
    split_ifs at hs with hidle
    exact h.inputGetc hidle.2 hs
  | resumeBuffer t => exact h.resumeBuffer hs
  | interrupt data ready =>
    simp only [SerialSys.serialStep] at hs
    split_ifs at hs
    exact h.serialInterrupt hs
  | key c => exact h.kbdPutc hs

end Inv

/-- At boot nothing is queued or sent, and no thread is in a call. -/
lemma serialStart_inv (txq buffer : Intq τ) : SerialInv (serialStart txq buffer) :=
  ⟨⟨.init txq, .init buffer, fun _ => ⟨rfl, rfl, rfl⟩, rfl,
    fun u op loc hu => by simp [serialStart, intqStart] at hu⟩, fun hq => by simp [serialStart] at hq⟩

lemma SerialReachable.inv {s : SerialSys τ} (h : SerialReachable s) : SerialInv s := by
  induction h with
  | init txq buffer => exact serialStart_inv txq buffer
  | step e _ hs ih => exact ih.step hs

/-! ### The serial port over every run -/

/-- **The serial wire is a FIFO.** In every state some interleaving of the driver's calls
reaches, the bytes on the wire, then those still in `txq`, are the bytes `serial_putc` handed
over: those it sent by polling before the queue was set up, then those `intq_putc` queued, in
order. The input buffer returns the keys given to it in order, the rest held. -/
theorem serial_wire_fifo {s : SerialSys τ} (h : SerialReachable s) :
    s.wire ++ Ring.contents s.txq.q.buf s.txq.q.head s.txq.q.tail = s.polled ++ s.txq.puts ∧
      s.buffer.gets ++ Ring.contents s.buffer.q.buf s.buffer.q.head s.buffer.q.tail =
        s.buffer.puts := by
  have hi := h.inv
  have htxq : s.txq.gets ++ Ring.contents s.txq.q.buf s.txq.q.head s.txq.q.tail = s.txq.puts :=
    hi.txq.fifo
  refine ⟨?_, hi.buffer.fifo⟩
  rw [hi.wire, List.append_assoc, htxq]

/-- At boot `H` is sent by polling; once the queue is set up, `i` is queued. -/
theorem serial_wire_fifo_boot :
    ∃ s, serialRun (serialStart
        (intqBoot : Intq ℕ)
        intqBoot)
        [.putc 1 72 .on, .initQueue, .putc 1 105 .on] = some s ∧
      s.wire = [72] ∧ s.txq.puts = [105] ∧
      (s.wire ++ Ring.contents s.txq.q.buf s.txq.q.head s.txq.q.tail = s.polled ++ s.txq.puts ∧
        s.buffer.gets ++ Ring.contents s.buffer.q.buf s.buffer.q.head s.buffer.q.tail =
          s.buffer.puts) := by
  have hrun : (serialRun (serialStart
      (intqBoot : Intq ℕ)
      intqBoot)
      [.putc 1 72 .on, .initQueue, .putc 1 105 .on]).map (fun s => (s.wire, s.txq.puts)) =
      some ([72], [105]) := by
    decide
  obtain ⟨s, hs, hview⟩ := Option.map_eq_some_iff.mp hrun
  simp only [Prod.mk.injEq] at hview
  exact ⟨s, hs, hview.1, hview.2, serial_wire_fifo ((SerialReachable.init _ _).run hs)⟩

/-- **With interrupts off, `serial_putc` never waits.** In every reachable state, `serial_putc`
called with interrupts off by a thread in no call returns, the thread in no call again; called
from an interrupt handler it goes on; and the serial and keyboard interrupts go on: no
assertion of `intq_getc`, `intq_putc`, `signal` or `input_putc` fails. -/
theorem serial_putc_intr_off_returns {s : SerialSys τ} (h : SerialReachable s) :
    (∀ t byte, s.txq.pc t = .idle → s.buffer.pc t = .idle →
      ∃ s', s.serialStep (.putc t byte .off) = some s' ∧ s'.txq.pc t = .idle) ∧
      (∀ byte, (s.serialStep (.intrPutc byte)).isSome) ∧
      (∀ data ready, s.mode = .queue → (s.serialStep (.interrupt data ready)).isSome) ∧
      ∀ c, (s.serialStep (.key c)).isSome := by
  have hi := h.inv
  refine ⟨fun t byte ht hb => ?_, fun byte => ?_, fun data ready hq => ?_, hi.kbdPutc_isSome⟩
  · obtain ⟨s', hp, hc⟩ := hi.serialPutc_off_returns (show s.txq.CanCall (.thread t) from ht) byte
    refine ⟨s', ?_, hc⟩
    simp only [SerialSys.serialStep]
    rw [if_pos ⟨ht, hb⟩]
    exact hp
  · obtain ⟨s', hp, -⟩ := hi.serialPutc_off_returns (show s.txq.CanCall .intr from trivial) byte
    exact Option.isSome_iff_exists.mpr ⟨s', hp⟩
  · simp only [SerialSys.serialStep]
    rw [if_pos hq]
    exact hi.serialInterrupt_isSome data ready

/-- Once the queue is set up and a byte queued, thread `1` sends another with interrupts off and
returns. -/
theorem serial_putc_intr_off_queued :
    ∃ s s', serialRun (serialStart
        (intqBoot : Intq ℕ)
        intqBoot)
        [.initQueue, .putc 2 105 .on] = some s ∧
      s.serialStep (.putc 1 33 .off) = some s' ∧ s'.txq.pc 1 = .idle := by
  have hrun : (serialRun (serialStart
      (intqBoot : Intq ℕ)
      intqBoot)
      [.initQueue, .putc 2 105 .on]).map (fun s => (s.txq.pc 1, s.buffer.pc 1)) =
      some (.idle, .idle) := by
    decide
  obtain ⟨s, hs, hview⟩ := Option.map_eq_some_iff.mp hrun
  simp only [Prod.mk.injEq] at hview
  obtain ⟨s', hstep, hidle⟩ :=
    (serial_putc_intr_off_returns ((SerialReachable.init _ _).run hs)).1 1 33 hview.1 hview.2
  exact ⟨s, s', hs, hstep, hidle⟩

/-- **The interrupt enable register.** In every reachable state in queued mode, the transmit
interrupt is enabled whenever `txq` holds a byte, so no queued byte waits for an interrupt that
cannot come, and the receive interrupt is enabled exactly when the input buffer has room. -/
theorem serial_ier {s : SerialSys τ} (h : SerialReachable s) (hq : s.mode = .queue) :
    (intqEmpty s.txq.q = false → s.ier.xmit = true) ∧ s.ier.recv = !intqFull s.buffer.q :=
  h.inv.ier hq

/-- After a byte is queued the transmit interrupt is on. -/
theorem serial_ier_queued :
    ∃ s, serialRun (serialStart
        (intqBoot : Intq ℕ)
        intqBoot)
        [.initQueue, .putc 1 105 .on] = some s ∧ s.mode = .queue ∧
      ((intqEmpty s.txq.q = false → s.ier.xmit = true) ∧ s.ier.recv = !intqFull s.buffer.q) := by
  have hrun : (serialRun (serialStart
      (intqBoot : Intq ℕ)
      intqBoot)
      [.initQueue, .putc 1 105 .on]).map (fun s => s.mode) = some .queue := by
    decide
  obtain ⟨s, hs, hq⟩ := Option.map_eq_some_iff.mp hrun
  exact ⟨s, hs, hq, serial_ier ((SerialReachable.init _ _).run hs) hq⟩

/-- **`serial_flush` sends everything.** In every reachable state, `serial_flush` by a thread in
no call returns with `txq` empty and every byte `serial_putc` handed over on the wire, in
order. -/
theorem serial_flush_sends_all {s : SerialSys τ} {t : τ} (h : SerialReachable s)
    (ht : s.txq.pc t = .idle) (hb : s.buffer.pc t = .idle) :
    ∃ s', s.serialStep (.flush t) = some s' ∧ intqEmpty s'.txq.q = true ∧
      s'.wire = s.polled ++ s.txq.puts := by
  have hi := h.inv
  obtain ⟨s', hf, hinv, hempty, hputs, hpolled⟩ := hi.flushLoop_empties ht (Ring.count_lt _ _)
  refine ⟨s', ?_, hempty, ?_⟩
  · simp only [SerialSys.serialStep]
    rw [if_pos ⟨ht, hb⟩]
    exact hf
  -- nothing is left in `txq`, so the wire holds every byte handed over
  have hfifo : s'.txq.gets ++ Ring.contents s'.txq.q.buf s'.txq.q.head s'.txq.q.tail =
      s'.txq.puts := hinv.txq.fifo
  have hnil : Ring.contents s'.txq.q.buf s'.txq.q.head s'.txq.q.tail = [] := by
    have hmeet : s'.txq.q.head = s'.txq.q.tail := by simpa [intqEmpty] using hempty
    rw [hmeet, Ring.contents_self]
  rw [hinv.wire, ← hpolled, ← hputs, ← hfifo, hnil, List.append_nil]

/-- Two bytes queued, then flushed by thread `1`: both are on the wire. -/
theorem serial_flush_two_bytes :
    ∃ s s', serialRun (serialStart
        (intqBoot : Intq ℕ)
        intqBoot)
        [.initQueue, .putc 1 105 .on, .putc 2 33 .on] = some s ∧ s.txq.puts = [105, 33] ∧
      s.serialStep (.flush 1) = some s' ∧ intqEmpty s'.txq.q = true ∧
      s'.wire = s.polled ++ s.txq.puts := by
  have hrun : (serialRun (serialStart
      (intqBoot : Intq ℕ)
      intqBoot)
      [.initQueue, .putc 1 105 .on, .putc 2 33 .on]).map
        (fun s => (s.txq.puts, s.txq.pc 1, s.buffer.pc 1)) = some ([105, 33], .idle, .idle) := by
    decide
  obtain ⟨s, hs, hview⟩ := Option.map_eq_some_iff.mp hrun
  simp only [Prod.mk.injEq] at hview
  obtain ⟨s', hf, hempty, hwire⟩ :=
    serial_flush_sends_all ((SerialReachable.init _ _).run hs) hview.2.1 hview.2.2
  exact ⟨s, s', hs, hview.1, hf, hempty, hwire⟩

end Devices

end TinyOs
