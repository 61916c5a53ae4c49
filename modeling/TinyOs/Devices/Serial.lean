import TinyOs.Devices.IntqWait

/-!
The serial port, `devices/serial.c`, and the input buffer, `devices/input.c`. Until
`serial_init_queue` the port is driven by polling; from then on `serial_putc` adds its byte to
the interrupt queue `txq`, and the serial interrupt sends the bytes of `txq` while the UART is
ready for them. With interrupts off and `txq` full, `serial_putc` first sends a byte by polling,
since waiting for room would need the interrupt. The same interrupt moves the bytes the UART
receives into the input buffer, an interrupt queue too, which the keyboard interrupt also fills
and `input_getc` empties; `write_ier` enables the transmit interrupt while `txq` holds a byte
and the receive interrupt while the input buffer has room.

The system is the mode, the register `write_ier` writes, the two queues with the threads in
their calls (`IntqSys`), the bytes sent on the wire, and a log the code does not keep: the
bytes `serial_putc` sent by polling before the queue was set up. The UART is what it reports on
each read of its line status register: the bytes it presents to the receive loop, and how many
times it reports its holding register empty to the transmit loop. Every call runs with
interrupts off up to where its thread blocks, so a step is atomic; a thread blocked in
`intq_putc` or `intq_getc` does the rest of `serial_putc` or `input_getc` when it returns.

* `SerialInv`, `SerialInv.step`: both queues are states their calls reach; before queued mode
  `txq` has held nothing; the wire is the polled bytes, then those taken from `txq`; a thread
  waits on `txq` only in `intq_putc`; in queued mode the interrupt enable register is set for
  every byte in `txq` and for room in the input buffer;
* `serial_wire_fifo`: the bytes on the wire, then those in `txq`, are the bytes `serial_putc`
  handed over, in order; the input buffer returns the keys it was given in order;
* `serial_putc_intr_off_returns`: `serial_putc` with interrupts off, from a thread or an
  interrupt handler, never waits and never fails an assertion, and neither do the serial and
  keyboard interrupts;
* `serial_ier`: in queued mode the transmit interrupt is enabled whenever `txq` holds a byte,
  and the receive interrupt exactly when the input buffer has room;
* `serial_flush_sends_all`: `serial_flush` puts every byte handed over on the wire.
-/

namespace TinyOs

namespace Devices

/-- `enum intr_level`. -/
inductive IntrLevel
  | off
  | on
  deriving DecidableEq

/-- The transmission mode, `mode`. -/
inductive SerialMode
  | uninit
  | poll
  | queue
  deriving DecidableEq

/-- The bits `write_ier` sets in the interrupt enable register: `IER_RECV` and `IER_XMIT`. -/
structure Ier where
  recv : Bool
  xmit : Bool

/-- Who makes a call: a kernel thread, or an interrupt handler. -/
inductive Caller (τ : Type)
  | thread (t : τ)
  | intr

variable {τ : Type}

/-- A caller that may start a call on the queue: a thread in no call on it, or an interrupt
handler. -/
def IntqSys.CanCall (s : IntqSys τ) : Caller τ → Prop
  | .thread t => s.pc t = .idle
  | .intr => True

/-- The serial port and the input buffer. -/
structure SerialSys (τ : Type) where
  mode : SerialMode
  ier : Ier
  txq : IntqSys τ
  buffer : IntqSys τ
  wire : List UInt8
  polled : List UInt8

variable [DecidableEq τ]

/-- `intq_getc` or `intq_putc` called by `caller`. -/
def IntqSys.callBy (s : IntqSys τ) : Caller τ → IntqOp → Option (IntqSys τ)
  | .thread t, op => s.loop t op
  | .intr, op => s.intrCall op

namespace SerialSys

/-- `write_ier ()`: transmit interrupts while `txq` holds a byte, receive interrupts while the
input buffer has room. -/
def writeIer (s : SerialSys τ) : SerialSys τ :=
  { s with ier := ⟨!intqFull s.buffer.q, !intqEmpty s.txq.q⟩ }

/-- `serial_notify ()`. -/
def serialNotify (s : SerialSys τ) : SerialSys τ :=
  if s.mode = .queue then s.writeIer else s

/-- `init_poll ()`: all interrupts off, `txq` initialised, polling mode. Both callers test that
the port is not set up yet, which it asserts. -/
def initPoll (s : SerialSys τ) : SerialSys τ :=
  { s with ier := ⟨false, false⟩, txq := { s.txq with q := intqInit s.txq.q }, mode := .poll }

/-- `putc_poll (byte)`: once the UART's holding register is empty, the byte goes out. -/
def putcPoll (s : SerialSys τ) (byte : UInt8) : SerialSys τ :=
  { s with wire := s.wire ++ [byte] }

/-- `putc_poll (intq_getc (&txq))` by `caller`, on a `txq` that is not empty, where `intq_getc`
does not block and returns the byte at `tail`. -/
def pollTxq (s : SerialSys τ) (caller : Caller τ) : Option (SerialSys τ) :=
  (s.txq.callBy caller .getc).map fun txq => { s.putcPoll (s.txq.q.buf s.txq.q.tail) with txq }

/-- `txq` after the `intq_putc` of `serial_putc` by `caller`: once the call has returned,
`write_ier`. -/
def afterPutc (s : SerialSys τ) (caller : Caller τ) (txq : IntqSys τ) : SerialSys τ :=
  match caller with
  | .thread t => if txq.pc t = .idle then { s with txq }.writeIer else { s with txq }
  | .intr => { s with txq }.writeIer

/-- `serial_putc (byte)` by `caller`, with interrupts at `level` on entry. Before the queue is
set up the byte is sent by polling, the port set up for it first. In queued mode the byte is
queued; with interrupts off and `txq` full a byte is first sent by polling. -/
def serialPutc (s : SerialSys τ) (caller : Caller τ) (byte : UInt8) (level : IntrLevel) :
    Option (SerialSys τ) :=
  match s.mode with
  | .queue =>
    (if level = .off ∧ intqFull s.txq.q = true then s.pollTxq caller else some s).bind fun s =>
      (s.txq.callBy caller (.putc byte)).map (s.afterPutc caller)
  | .poll => some { s.putcPoll byte with polled := s.polled ++ [byte] }
  | .uninit => some { s.initPoll.putcPoll byte with polled := s.polled ++ [byte] }

/-- Thread `t`, blocked in the `intq_putc` of `serial_putc`, runs again. -/
def resumeTxq (s : SerialSys τ) (t : τ) : Option (SerialSys τ) :=
  (s.txq.resume t).map (s.afterPutc (.thread t))

/-- The loop of `serial_flush ()` by thread `t`: while `txq` is not empty, a byte is sent by
polling. It is given `fuel` rounds; `serialFlush` gives it `INTQ_BUFSIZE`, more than `txq`
ever holds (`flushLoop_empties`). -/
def flushLoop (t : τ) : ℕ → SerialSys τ → Option (SerialSys τ)
  | 0, s => some s
  | fuel + 1, s =>
    if intqEmpty s.txq.q then some s else (s.pollTxq (.thread t)).bind (flushLoop t fuel)

/-- `serial_flush ()` by thread `t`. -/
def serialFlush (s : SerialSys τ) (t : τ) : Option (SerialSys τ) :=
  flushLoop t intqBufsize s

/-- `input_putc (key)` from an interrupt handler: it asserts that the buffer is not full, adds
the key and calls `serial_notify`. -/
def inputPutc (s : SerialSys τ) (key : UInt8) : Option (SerialSys τ) :=
  if intqFull s.buffer.q then none
  else (s.buffer.intrCall (.putc key)).map fun buffer => { s with buffer }.serialNotify

/-- The input buffer after the `intq_getc` of `input_getc` by `t`: once the call has returned,
`serial_notify`. -/
def afterGetc (s : SerialSys τ) (t : τ) (buffer : IntqSys τ) : SerialSys τ :=
  if buffer.pc t = .idle then { s with buffer }.serialNotify else { s with buffer }

/-- `input_getc ()` by thread `t`. -/
def inputGetc (s : SerialSys τ) (t : τ) : Option (SerialSys τ) :=
  (s.buffer.intqGetc t).map (s.afterGetc t)

/-- Thread `t`, blocked in the `intq_getc` of `input_getc`, runs again. -/
def resumeBuffer (s : SerialSys τ) (t : τ) : Option (SerialSys τ) :=
  (s.buffer.resume t).map (s.afterGetc t)

/-- The receive loop of `serial_interrupt`: while the input buffer has room and the UART has a
byte, `input_putc` of it; `data` is what the UART presents, in order. -/
def recvLoop : SerialSys τ → List UInt8 → Option (SerialSys τ)
  | s, [] => some s
  | s, key :: data =>
    if intqFull s.buffer.q then some s else (s.inputPutc key).bind (recvLoop · data)

/-- The transmit loop of `serial_interrupt`: while `txq` holds a byte and the UART's holding
register is empty, the byte at `tail` goes out; `ready` is how many times the UART reports the
register empty. -/
def xmitLoop : SerialSys τ → ℕ → Option (SerialSys τ)
  | s, 0 => some s
  | s, ready + 1 =>
    if intqEmpty s.txq.q then some s else (s.pollTxq .intr).bind (xmitLoop · ready)

/-- `serial_interrupt`: the receive loop, the transmit loop, `write_ier`. -/
def serialInterrupt (s : SerialSys τ) (data : List UInt8) (ready : ℕ) : Option (SerialSys τ) :=
  ((s.recvLoop data).bind fun s => s.xmitLoop ready).map writeIer

/-- The end of `keyboard_interrupt` for a key pressed that maps to character `c`: the
character goes to the input buffer if it has room. -/
def kbdPutc (s : SerialSys τ) (c : UInt8) : Option (SerialSys τ) :=
  if intqFull s.buffer.q then some s else s.inputPutc c

/-- `serial_init_queue ()`: the port set up for polling if it is not yet, which it asserts,
then queued mode and `write_ier`. -/
def serialInitQueue (s : SerialSys τ) : Option (SerialSys τ) :=
  let s := if s.mode = .uninit then s.initPoll else s
  if s.mode = .poll then some { s with mode := .queue }.writeIer else none

end SerialSys

/-- A step of the system: `serial_init_queue`; `serial_putc` by a thread in no call, at an
interrupt level, or by an interrupt handler, with interrupts off; a thread blocked in a call
runs again; `serial_flush` and `input_getc` by a thread in no call; the serial interrupt, once
registered, with what the UART reports; a key pressed. -/
inductive SerialEvent (τ : Type)
  | initQueue
  | putc (t : τ) (byte : UInt8) (level : IntrLevel)
  | intrPutc (byte : UInt8)
  | resumeTxq (t : τ)
  | flush (t : τ)
  | getc (t : τ)
  | resumeBuffer (t : τ)
  | interrupt (data : List UInt8) (ready : ℕ)
  | key (c : UInt8)

def SerialSys.serialStep (s : SerialSys τ) : SerialEvent τ → Option (SerialSys τ)
  | .initQueue => s.serialInitQueue
  | .putc t byte level =>
    if s.txq.pc t = .idle ∧ s.buffer.pc t = .idle then s.serialPutc (.thread t) byte level
    else none
  | .intrPutc byte => s.serialPutc .intr byte .off
  | .resumeTxq t => s.resumeTxq t
  | .flush t => if s.txq.pc t = .idle ∧ s.buffer.pc t = .idle then s.serialFlush t else none
  | .getc t => if s.txq.pc t = .idle ∧ s.buffer.pc t = .idle then s.inputGetc t else none
  | .resumeBuffer t => s.resumeBuffer t
  | .interrupt data ready => if s.mode = .queue then s.serialInterrupt data ready else none
  | .key c => s.kbdPutc c

/-- The system at boot: the port not set up, its interrupts off, both queues initialised,
nothing sent. -/
def serialStart (txq buffer : Intq τ) : SerialSys τ :=
  ⟨.uninit, ⟨false, false⟩, intqStart txq, intqStart buffer, [], []⟩

/-- A run of steps. -/
def serialRun (s : SerialSys τ) : List (SerialEvent τ) → Option (SerialSys τ)
  | [] => some s
  | e :: es => (s.serialStep e).bind fun s => serialRun s es

/-- The states some interleaving of the calls reaches. -/
inductive SerialReachable : SerialSys τ → Prop
  | init (txq buffer : Intq τ) : SerialReachable (serialStart txq buffer)
  | step {s s' : SerialSys τ} (e : SerialEvent τ) :
      SerialReachable s → s.serialStep e = some s' → SerialReachable s'

lemma SerialReachable.run {s s' : SerialSys τ} (h : SerialReachable s) :
    ∀ {es : List (SerialEvent τ)}, serialRun s es = some s' → SerialReachable s'
  | [], hr => by
      rw [serialRun, Option.some.injEq] at hr
      exact hr ▸ h
  | e :: es, hr => by
      obtain ⟨s₁, h₁, hr⟩ := Option.bind_eq_some_iff.mp hr
      exact (h.step e h₁).run hr

end Devices

end TinyOs
