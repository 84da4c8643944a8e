import TinyOS.Lib.Transition
import TinyOS.Lib.Cyclic
import TinyOS.KernelWait

/-! The pipes of `kernel_pipe.c`: a cyclic byte buffer between two ends, and the
calls of any number of threads on it. -/

namespace TinyOS

open Transition

abbrev FcbId := Nat

def pipeBufferSize : Int := 4096

structure PipeCb where
  reader : Option FcbId
  writer : Option FcbId
  hasSpace : CondVar
  hasData : CondVar
  wPosition : Int
  rPosition : Int
  buffer : Nat → UInt8
  emptySpace : Int

/-- The control block that `sys_Pipe` fills in; `garbage` is what `xmalloc` left. -/
def PipeCb.initial (reader writer : FcbId) (garbage : Nat → UInt8) : PipeCb where
  reader := some reader
  writer := some writer
  hasSpace := condInit
  hasData := condInit
  wPosition := 0
  rPosition := 0
  buffer := garbage
  emptySpace := pipeBufferSize

/-- One round of the copying loop of `pipe_write`. -/
def PipeCb.put (p : PipeCb) (b : UInt8) : PipeCb :=
  { p with
    buffer := Function.update p.buffer p.wPosition.toNat b
    wPosition := (p.wPosition + 1).tmod pipeBufferSize
    emptySpace := p.emptySpace - 1 }

/-- One round of the copying loop of `pipe_read`. -/
def PipeCb.get (p : PipeCb) : PipeCb :=
  { p with
    rPosition := (p.rPosition + 1).tmod pipeBufferSize
    emptySpace := p.emptySpace + 1 }

/-- `while (i != n && pipe_cb->empty_space != 0)`, returning `i`; the list holds
the bytes of `buf` from index `i` on. -/
def pipeWriteCopy (p : PipeCb) : List UInt8 → PipeCb × Int
  | [] => (p, 0)
  | b :: buf =>
    if p.emptySpace ≠ 0 then
      let r := pipeWriteCopy (p.put b) buf
      (r.1, r.2 + 1)
    else (p, 0)

/-- `while (i != n && pipe_cb->empty_space != PIPE_BUFFER_SIZE)`, returning the
bytes stored in `buf`. -/
def pipeReadCopy (p : PipeCb) : Nat → PipeCb × List UInt8
  | 0 => (p, [])
  | n + 1 =>
    if p.emptySpace ≠ pipeBufferSize then
      let r := pipeReadCopy p.get n
      (r.1, p.buffer p.rPosition.toNat :: r.2)
    else (p, [])

/-- `pipe_write` from its wait loop on. The result is absent while the caller
sleeps in `kernel_wait`; it comes back here when it is woken. -/
def pipeWriteWait (p : PipeCb) (t : ThreadId) (buf : List UInt8) : PipeCb × Option Int :=
  if p.emptySpace = 0 ∧ p.reader ≠ none then
    ({ p with hasSpace := kernelWait p.hasSpace t }, none)
  else if p.reader = none then (p, some (-1))
  else
    let r := pipeWriteCopy p buf
    ({ r.1 with hasData := kernelBroadcast r.1.hasData }, some r.2)

def pipeWrite (p : PipeCb) (t : ThreadId) (buf : List UInt8) : PipeCb × Option Int :=
  if p.reader = none then (p, some (-1)) else pipeWriteWait p t buf

/-- `pipe_read` from its wait loop on, returning the count and the bytes copied. -/
def pipeReadWait (p : PipeCb) (t : ThreadId) (n : Nat) :
    PipeCb × Option (Int × List UInt8) :=
  if p.emptySpace = pipeBufferSize ∧ p.writer ≠ none then
    ({ p with hasData := kernelWait p.hasData t }, none)
  else
    let r := pipeReadCopy p n
    ({ r.1 with hasSpace := kernelBroadcast r.1.hasSpace }, some (r.2.length, r.2))

def pipeRead (p : PipeCb) (t : ThreadId) (n : Nat) : PipeCb × Option (Int × List UInt8) :=
  if p.reader = none then (p, some (-1, [])) else pipeReadWait p t n

/-- `pipe_writer_close`; the control block is absent once it has been freed. -/
def pipeWriterClose (p : PipeCb) : Option PipeCb :=
  if p.reader ≠ none then some { p with writer := none, hasData := kernelBroadcast p.hasData }
  else none

def pipeReaderClose (p : PipeCb) : Option PipeCb :=
  if p.writer ≠ none then some { p with reader := none, hasSpace := kernelBroadcast p.hasSpace }
  else none

inductive PipeCall
  | writing (buf : List UInt8)
  | reading (n : Nat)

structure PipeState where
  pipe : PipeCb
  calls : ThreadId → Option PipeCall
  accepted : List UInt8
  delivered : List UInt8

def PipeState.initial (reader writer : FcbId) (garbage : Nat → UInt8) : PipeState where
  pipe := PipeCb.initial reader writer garbage
  calls _ := none
  accepted := []
  delivered := []

def PipeState.writeResult (s : PipeState) (t : ThreadId) (buf : List UInt8) :
    PipeCb × Option Int → PipeState
  | (p, none) =>
    { s with pipe := p, calls := Function.update s.calls t (some (.writing buf)) }
  | (p, some i) =>
    { s with
      pipe := p
      calls := Function.update s.calls t none
      accepted := s.accepted ++ buf.take i.toNat }

def PipeState.readResult (s : PipeState) (t : ThreadId) (n : Nat) :
    PipeCb × Option (Int × List UInt8) → PipeState
  | (p, none) =>
    { s with pipe := p, calls := Function.update s.calls t (some (.reading n)) }
  | (p, some (_, bytes)) =>
    { s with
      pipe := p
      calls := Function.update s.calls t none
      delivered := s.delivered ++ bytes }

inductive PipeEvent
  | write (t : ThreadId) (buf : List UInt8)
  | read (t : ThreadId) (n : Nat)
  | resume (t : ThreadId)

/-- A call starts in a thread that is in no call; a blocked call goes on once its
thread has been signalled. -/
def PipeState.step (s : PipeState) : PipeEvent → Option PipeState
  | .write t buf =>
    match s.calls t with
    | none => some (s.writeResult t buf (pipeWrite s.pipe t buf))
    | some _ => none
  | .read t n =>
    match s.calls t with
    | none => some (s.readResult t n (pipeRead s.pipe t n))
    | some _ => none
  | .resume t =>
    match s.calls t with
    | none => none
    | some (.writing buf) =>
      if t ∈ s.pipe.hasSpace.waitset then none
      else some (s.writeResult t buf (pipeWriteWait s.pipe t buf))
    | some (.reading n) =>
      if t ∈ s.pipe.hasData.waitset then none
      else some (s.readResult t n (pipeReadWait s.pipe t n))

end TinyOS
