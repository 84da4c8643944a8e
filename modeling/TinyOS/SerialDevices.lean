import Mathlib.Algebra.GroupWithZero.Nat
import TinyOS.Interrupts
import TinyOS.KernelWait

/-! The terminals: the io devices of `bios.c`, the loop of the PIC daemon that watches them, and
the serial driver of `kernel_dev.c`. A step is one access to a device or to a condition variable;
all interrupts of the terminals go to core 0. -/

namespace TinyOS

inductive IoDirection
  | rx
  | tx
deriving DecidableEq

/-- The fifo behind the file descriptor, the flag `ready` and the time of the last interrupt. -/
structure IoDevice where
  fifo : List UInt8
  ready : Bool
  lastInt : Nat

/-- Microseconds. -/
def serialTimeout : Nat := 300000

/-- `io_device_ready`: what `poll` and `select` say of a fifo of this capacity. -/
def ioDeviceReady (capacity : Nat) : IoDirection → IoDevice → Bool
  | .rx, d => !d.fifo.isEmpty
  | .tx, d => d.fifo.length < capacity

def ioDeviceInit (capacity : Nat) (dir : IoDirection) (fifo : List UInt8) (now : Nat) : IoDevice :=
  { fifo := fifo, ready := ioDeviceReady capacity dir ⟨fifo, false, now⟩, lastInt := now }

/-- Where a thread is in `serial_read` or `serial_write` on terminal `i`: in the loop, after a
transfer that has failed, after `bios_read_serial` or `bios_write_serial` has returned 0, or
asleep. -/
inductive SerialPc
  | user
  | reading (i size : Nat) (buf : List UInt8)
  | unread (i size : Nat) (buf : List UInt8)
  | starved (i size : Nat) (buf : List UInt8)
  | asleep (i size : Nat)
  | writing (i : Nat) (buf : List UInt8) (count : Nat)
  | unwritten (i : Nat) (buf : List UInt8) (count : Nat)
  | refused (i : Nat) (buf : List UInt8) (count : Nat)
deriving DecidableEq

/-- In `serial_read`, with preemption off. -/
def SerialPc.reads : SerialPc → Bool
  | .reading .. | .unread .. | .starved .. => true
  | _ => false

abbrev DeviceNo := IoDirection × Nat

/-- The loop of `PIC_daemon`: it collects the devices that are not ready, selects among them, and
looks at all devices in turn; `raising` is about to raise the interrupt of `dir`. -/
inductive PicPc
  | collecting (todo fds : List DeviceNo)
  | selecting (fds : List DeviceNo)
  | looking (todo selected : List DeviceNo) (now : Nat)
  | raising (dir : IoDirection) (todo selected : List DeviceNo) (now : Nat)
deriving DecidableEq

/-- The terminals `i < nterm`. `pending` is `intr_pending` of core 0, `handler` the terminal whose
readers `serial_rx_handler` signals next, and `holder` the thread that has the kernel, with its
core. What was typed, delivered, written and shown is kept as history. -/
structure Terminals where
  nterm : Nat
  capacity : Nat
  dev : IoDirection → Nat → IoDevice
  pending : Interrupt → Bool
  handler : Option Nat
  rxReady : Nat → CondVar
  holder : Option (ThreadId × Nat)
  pc : ThreadId → SerialPc
  pic : PicPc
  typed : Nat → List UInt8
  delivered : Nat → List UInt8
  written : Nat → List UInt8
  shown : Nat → List UInt8

/-- `type` and `show` are the terminal at the other end of the fifos; `picFails` is a `select` that
was interrupted; `interrupt` is core 0 taking an interrupt, and `signal` a round of its handler. -/
inductive SerialEvent
  | type (i : Nat) (bytes : List UInt8)
  | display (i n : Nat)
  | read (c : Nat) (t : ThreadId) (i size : Nat)
  | write (c : Nat) (t : ThreadId) (i : Nat) (buf : List UInt8)
  | run (c : Nat) (t : ThreadId)
  | picCollect
  | picSelect (now : Nat)
  | picFails
  | picLook
  | picRaise
  | interrupt (intno : Interrupt)
  | signal
deriving DecidableEq

structure SerialRet where
  val : Nat
  bytes : List UInt8
deriving DecidableEq

def Terminals.setDev (m : Terminals) (dir : IoDirection) (i : Nat)
    (f : IoDevice → IoDevice) : Terminals :=
  { m with dev := Function.update m.dev dir (Function.update (m.dev dir) i (f (m.dev dir i))) }

def Terminals.setPc (m : Terminals) (t : ThreadId) (pc : SerialPc) : Terminals :=
  { m with pc := Function.update m.pc t pc }

/-- A handler on core 0 runs to its end before a thread goes on there. -/
def Terminals.available (m : Terminals) (c : Nat) : Bool := c ≠ 0 ∨ m.handler = none

/-- `preempt_off` on core 0: interrupts stay pending. -/
def Terminals.masked (m : Terminals) : Bool :=
  match m.holder with
  | some (t, 0) => (m.pc t).reads
  | _ => false

def Terminals.readDone (m : Terminals) (t : ThreadId) (i : Nat) (buf : List UInt8) :
    Terminals × Option SerialRet :=
  ({ m.setPc t .user with
    holder := none
    delivered := Function.update m.delivered i (m.delivered i ++ buf) }, some ⟨buf.length, buf⟩)

def Terminals.writeDone (m : Terminals) (t : ThreadId) (i : Nat) (buf : List UInt8) (count : Nat) :
    Terminals × Option SerialRet :=
  ({ m.setPc t .user with
    holder := none
    written := Function.update m.written i (m.written i ++ buf.take count) }, some ⟨count, []⟩)

/-- A failed transfer: a device that was ready is no longer so. -/
def Terminals.mark (m : Terminals) (dir : IoDirection) (i : Nat) : Terminals :=
  m.setDev dir i fun d => { d with ready := false }

/-- `kernel_wait`: thread `t` sleeps, and gives the kernel back. -/
def Terminals.wait (m : Terminals) (t : ThreadId) (i size : Nat) : Terminals :=
  { m.setPc t (.asleep i size) with
    holder := none
    rxReady := Function.update m.rxReady i (kernelWait (m.rxReady i) t) }

def Terminals.readByte (m : Terminals) (t : ThreadId) (i size : Nat)
    (buf : List UInt8) : Terminals :=
  match (m.dev .rx i).fifo with
  | [] => m.setPc t (.unread i size buf)
  | b :: rest =>
    (m.setDev .rx i fun d => { d with fifo := rest }).setPc t (.reading i size (buf ++ [b]))

def Terminals.writeByte (m : Terminals) (t : ThreadId) (i : Nat) (buf : List UInt8)
    (count : Nat) (b : UInt8) :
    Terminals :=
  if (m.dev .tx i).fifo.length < m.capacity then
    (m.setDev .tx i fun d => { d with fifo := d.fifo ++ [b] }).setPc t (.writing i buf (count + 1))
  else m.setPc t (.unwritten i buf count)

def Terminals.inKernel (m : Terminals) (t : ThreadId) : SerialPc →
    Option (Terminals × Option SerialRet)
  | .reading i size buf =>
    if buf.length < size then some (m.readByte t i size buf, none) else some (m.readDone t i buf)
  | .unread i size buf => some ((m.mark .rx i).setPc t (.starved i size buf), none)
  | .starved i size buf =>
    if buf = [] then some (m.wait t i size, none) else some (m.readDone t i buf)
  | .writing i buf count =>
    match buf[count]? with
    | some b => some (m.writeByte t i buf count b, none)
    | none => some (m.writeDone t i buf count)
  | .unwritten i buf count => some ((m.mark .tx i).setPc t (.refused i buf count), none)
  | .refused i buf count =>
    if count = 0 then some (m.setPc t (.writing i buf count), none)
      else some (m.writeDone t i buf count)
  | .user | .asleep .. => none

/-- A step of thread `t` on core `c`. Preemption is off in `serial_read`, so it stays on its
core. -/
def Terminals.run (m : Terminals) (c : Nat) (t : ThreadId) :
    Option (Terminals × Option SerialRet) :=
  match m.holder with
  | some (u, d) =>
    if u = t ∧ ((m.pc t).reads = true → d = c) then
      { m with holder := some (t, c) }.inKernel t (m.pc t)
    else none
  | none =>
    match m.pc t with
    | .asleep i size =>
      if t ∈ (m.rxReady i).waitset then none
      else some ({ m.setPc t (.reading i size []) with holder := some (t, c) }, none)
    | _ => none

def Terminals.enter (m : Terminals) (c : Nat) (t : ThreadId) (i : Nat)
    (pc : SerialPc) : Option Terminals :=
  if m.holder = none ∧ m.pc t = .user ∧ i < m.nterm then
    some { m.setPc t pc with holder := some (t, c) }
  else none

/-! ### The PIC daemon -/

def collectOrder (nterm : Nat) : List DeviceNo := (List.range nterm).flatMap fun i =>
  [(.rx, i), (.tx, i)]

def raiseOrder (nterm : Nat) : List DeviceNo := (List.range nterm).flatMap fun i =>
  [(.tx, i), (.rx, i)]

def IoDirection.interrupt : IoDirection → Interrupt
  | .rx => .serialRxReady
  | .tx => .serialTxReady

/-- The clock is unsigned, with 64 bits. -/
def IoDevice.overdue (d : IoDevice) (now : Nat) : Bool :=
  (now + 2 ^ 64 - d.lastInt) % 2 ^ 64 > serialTimeout

def Terminals.picLook (m : Terminals) : Option Terminals :=
  match m.pic with
  | .looking ((dir, i) :: todo) selected now =>
    if (dir, i) ∈ selected ∨ (m.dev dir i).overdue now = true then
      some { m.setDev dir i (fun d => { d with ready := true, lastInt := now }) with
        pic := .raising dir todo selected now }
    else some { m with pic := .looking todo selected now }
  | .looking [] _ _ => some { m with pic := .collecting (collectOrder m.nterm) [] }
  | _ => none

def Terminals.picRaise (m : Terminals) : Option Terminals :=
  match m.pic with
  | .raising dir todo selected now =>
    some { m with
        pending := Function.update m.pending dir.interrupt true, pic := .looking todo selected now }
  | _ => none

def Terminals.picCollect (m : Terminals) : Option Terminals :=
  match m.pic with
  | .collecting ((dir, i) :: todo) fds =>
    some { m with pic := .collecting todo (if (m.dev dir i).ready then fds else (dir, i) :: fds) }
  | .collecting [] fds => some { m with pic := .selecting fds }
  | _ => none

def Terminals.picSelect (m : Terminals) (now : Nat) : Option Terminals :=
  match m.pic with
  | .selecting fds =>
    some { m with
      pic := .looking (raiseOrder m.nterm)
        (fds.filter fun d => ioDeviceReady m.capacity d.1 (m.dev d.1 d.2)) now }
  | _ => none

/-- `serial_rx_handler`, one terminal at a time. -/
def Terminals.signal (m : Terminals) : Option Terminals :=
  match m.handler with
  | none => none
  | some i =>
    if i < m.nterm then
      some { m with
          handler := some (i + 1), rxReady := Function.update m.rxReady i
            (kernelBroadcast (m.rxReady i)) }
    else some { m with handler := none }

/-- Core 0 takes an interrupt; `serial_tx_handler` has nothing to do. -/
def Terminals.interrupt (m : Terminals) (intno : Interrupt) : Option Terminals :=
  if m.pending intno = true ∧ m.masked = false ∧ m.handler = none then
    some { m with
      pending := Function.update m.pending intno false
      handler := if intno = .serialRxReady then some 0 else none }
  else none

def Terminals.stepRet (m : Terminals) : SerialEvent → Option (Terminals × Option SerialRet)
  | .type i bytes =>
    some ({ m.setDev .rx i (fun d => { d with fifo := d.fifo ++ bytes }) with
      typed := Function.update m.typed i (m.typed i ++ bytes) }, none)
  | .display i n =>
    some ({ m.setDev .tx i (fun d => { d with fifo := d.fifo.drop n }) with
      shown := Function.update m.shown i (m.shown i ++ (m.dev .tx i).fifo.take n) }, none)
  | .read c t i size =>
    if m.available c then (m.enter c t i (.reading i size [])).map (·, none) else none
  | .write c t i buf =>
    if m.available c then (m.enter c t i (.writing i buf 0)).map (·, none) else none
  | .run c t => if m.available c then m.run c t else none
  | .picCollect => m.picCollect.map (·, none)
  | .picSelect now => (m.picSelect now).map (·, none)
  | .picFails =>
    match m.pic with
    | .selecting _ => some ({ m with pic := .collecting (collectOrder m.nterm) [] }, none)
    | _ => none
  | .picLook => m.picLook.map (·, none)
  | .picRaise => m.picRaise.map (·, none)
  | .interrupt intno => (m.interrupt intno).map (·, none)
  | .signal => m.signal.map (·, none)

def Terminals.step (m : Terminals) (e : SerialEvent) : Option Terminals :=
  (m.stepRet e).map Prod.fst

/-- The terminals after `vm_run` and `initialize_devices`; `kbd` has been typed already. -/
def Terminals.boot (nterm capacity now : Nat) (kbd : Nat → List UInt8) : Terminals where
  nterm := nterm
  capacity := capacity
  dev
    | .rx, i => ioDeviceInit capacity .rx (kbd i) now
    | .tx, _ => ioDeviceInit capacity .tx [] now
  pending _ := false
  handler := none
  rxReady _ := condInit
  holder := none
  pc _ := .user
  pic := .collecting (collectOrder nterm) []
  typed := kbd
  delivered _ := []
  written _ := []
  shown _ := []

end TinyOS
