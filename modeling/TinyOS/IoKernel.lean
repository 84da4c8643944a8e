import TinyOS.Process

/-! The part of the kernel behind file descriptors: the streams of `kernel_streams.c`,
and the devices, information streams, pipes and sockets that they lead to. A call that
jumps through `NULL`, uses freed memory or takes an object for one of another type has no
result. -/

namespace TinyOS

abbrev PipeId := Nat

abbrev SockId := Nat

abbrev ReqId := Nat

def maxPort : Int := 1023

def noPort : Int := 0

inductive SocketType
  | listener
  | unbound
  | peer
deriving DecidableEq

/-- `socket_union`. The two pipes of a peer lie where a listener has the links of its
queue, whose condition variable is kept apart. -/
inductive SocketUnion
  | uninitialized
  | queue (requests : List ReqId)
  | pipes (writePipe readPipe : Option PipeId)
deriving DecidableEq

structure SocketCb where
  refcount : Int
  fcb : Option FcbId
  type : SocketType
  port : Int
  union : SocketUnion
  reqAvailable : CondVar
deriving DecidableEq

structure ConnectionRequest where
  admitted : Int
  peer : SockId
  connectedCv : CondVar
deriving DecidableEq

/-- Where a thread is: outside the kernel, asleep in a call, or gone. A thread in
`sys_Read` or `sys_Write` keeps the FCB it was called for; one in `sys_Connect` knows
whether its timeout has ended the wait. -/
inductive IoPc
  | user
  | readingPipe (f : FcbId) (pipe : PipeId) (n : Nat)
  | readingSerial (f : FcbId) (devno n : Nat)
  | writingPipe (f : FcbId) (pipe : PipeId) (buf : List UInt8)
  | accepting (sock : SockId)
  | connecting (sock : SockId) (req : ReqId) (expired : Bool)
  | exited
deriving DecidableEq

structure IoThread where
  pid : Pid
  pc : IoPc
deriving DecidableEq

/-- What the stream calls see of a PCB; index `maxFileid` of `fidt` is the word after
the array. -/
structure IoProcess where
  pstate : PidState
  fidt : Nat → Option FcbId

/-- What happens to connection requests, kept as history. -/
inductive RequestEvent
  | requested (req : ReqId)
  | accepted (req : ReqId) (fid : Int)
  | returned (req : ReqId) (val : Int)
deriving DecidableEq

structure IoKernel where
  procs : Pid → IoProcess
  files : FileTable
  sockets : List SocketCb
  pipes : List (Option PipeCb)
  requests : List ConnectionRequest
  portMap : Int → Option SockId
  serialPorts : Nat
  rxReady : Nat → CondVar
  infos : Nat
  threads : List IoThread
  faulted : Bool
  history : List RequestEvent

/-- The value a call returns, the bytes it stores in the buffer of the caller and the
fids it stores in a `pipe_t`. -/
structure IoRet where
  val : Int
  bytes : List UInt8
  fids : List Nat
deriving DecidableEq

/-- The outcome of a call: absent after a fault; without a value while the caller sleeps. -/
abbrev IoResult := Option (IoKernel × Option IoRet)

def IoKernel.ret (k : IoKernel) (v : Int) : IoResult := some (k, some ⟨v, [], []⟩)

def IoKernel.setProc (k : IoKernel) (p : Pid) (f : IoProcess → IoProcess) : IoKernel :=
  { k with procs := Function.update k.procs p (f (k.procs p)) }

def IoKernel.setFidt (k : IoKernel) (p : Pid) (i : Nat) (x : Option FcbId) : IoKernel :=
  k.setProc p fun c => { c with fidt := Function.update c.fidt i x }

def IoKernel.setSocket (k : IoKernel) (s : SockId) (f : SocketCb → SocketCb) : IoKernel :=
  { k with sockets := k.sockets.modify s f }

def IoKernel.setPc (k : IoKernel) (t : ThreadId) (pc : IoPc) : IoKernel :=
  { k with threads := k.threads.modify t fun x => { x with pc := pc } }

def FileTable.setStream (files : FileTable) (f : FcbId) (obj : StreamObj) (ops : FileOps) :
    FileTable :=
  { files with
    ft := Function.update files.ft f { files.ft f with streamobj := obj, streamfunc := some ops } }

def IoKernel.setStream (k : IoKernel) (f : FcbId) (obj : StreamObj) (ops : FileOps) : IoKernel :=
  { k with files := k.files.setStream f obj ops }

def IoKernel.record (k : IoKernel) (e : RequestEvent) : IoKernel :=
  { k with history := k.history ++ [e] }

def IoKernel.pipe? (k : IoKernel) (q : PipeId) : Option PipeCb := k.pipes[q]?.join

/-- `streamobj` taken for a `Socket_cb`. -/
def IoKernel.socketOf (k : IoKernel) : StreamObj → Option (SockId × SocketCb)
  | .socket s => k.sockets[s]?.map fun c => (s, c)
  | _ => none

def getFcb (k : IoKernel) (p : Pid) (fid : Int) : Option FcbId :=
  if fid < 0 ∨ fid ≥ maxFileid then none else (k.procs p).fidt fid.toNat

def IoKernel.reserve (k : IoKernel) (p : Pid) : IoKernel × Reservation :=
  let r := fcbReserve k.files (k.procs p).fidt 1
  ({ k.setProc p (fun c => { c with fidt := r.2.1 }) with files := r.1 }, r.2.2)

def IoKernel.unreserve (k : IoKernel) (p : Pid) (fid : Nat) (f : FcbId) : IoKernel :=
  let r := fcbUnreserve k.files (k.procs p).fidt [(fid, f)]
  { k.setProc p (fun c => { c with fidt := r.2 }) with files := r.1 }

/-! ### Closing a stream -/

/-- `pipe_reader_close` or `pipe_writer_close` on whatever the pointer leads to. -/
def closePipeEnd (k : IoKernel) (close : PipeCb → Option PipeCb) :
    StreamObj → Option (IoKernel × Int)
  | .NULL => some (k, -1)
  | .pipe q => (k.pipe? q).map fun c => ({ k with pipes := k.pipes.set q (close c) }, 0)
  | _ => none

def pipeObj : Option PipeId → StreamObj
  | none => .NULL
  | some q => .pipe q

inductive ShutdownMode
  | read
  | write
  | both
deriving DecidableEq

def shutDownSocket (k : IoKernel) (s : SockId) (how : ShutdownMode) : Option (IoKernel × Int) :=
  match k.sockets[s]? with
  | none => none
  | some c =>
    if c.type ≠ .peer then some (k, -1)
    else
      match c.union with
      | .pipes (some w) (some r) =>
        match how with
        | .read => closePipeEnd k pipeReaderClose (.pipe r)
        | .write => closePipeEnd k pipeWriterClose (.pipe w)
        | .both =>
          (closePipeEnd k pipeReaderClose (.pipe r)).bind fun (k, _) =>
            closePipeEnd k pipeWriterClose (.pipe w)
      | .pipes _ _ => some (k, -1)
      | _ => none

def sysShutDown (k : IoKernel) (p : Pid) (sock : Int) (how : ShutdownMode) :
    Option (IoKernel × Int) :=
  match getFcb k p sock with
  | none => some (k, -1)
  | some f =>
    match k.socketOf (k.files.ft f).streamobj with
    | none => none
    | some (s, _) => shutDownSocket k s how

/-- The first fid of the process that leads to the FCB; without one the variable `sock`
of `socket_close` stays uninitialised. -/
def findFid (k : IoKernel) (p : Pid) (fcb : Option FcbId) : Option Nat :=
  (List.range maxFileid).find? fun i => (k.procs p).fidt i = fcb

def socketClose (k : IoKernel) (p : Pid) : StreamObj → Option (IoKernel × Int)
  | .socket s =>
    match k.sockets[s]? with
    | none => none
    | some c =>
      match c.type with
      | .listener =>
        some ({ k.setSocket s fun c =>
            { c with reqAvailable := kernelBroadcast c.reqAvailable, fcb := none } with
          portMap := Function.update k.portMap c.port none }, 0)
      | .unbound => some (k.setSocket s fun c => { c with fcb := none }, 0)
      | .peer =>
        match c.union with
        | .pipes (some _) (some _) =>
          match findFid k p c.fcb with
          | none => none
          | some sock =>
            (sysShutDown (k.setSocket s fun c => { c with fcb := none }) p sock .both).map
              fun (k, out) => (k.setSocket s fun c => { c with union := .pipes none none }, out)
        | .pipes _ _ => some (k, -1)
        | _ => none
  | _ => none

def closeStream (k : IoKernel) (p : Pid) (ops : Option FileOps) (obj : StreamObj) :
    Option (IoKernel × Int) :=
  match ops with
  | none => none
  | some .nulldevFops | some .serialFops => some (k, 0)
  | some .procinfoOps =>
    match obj with
    | .NULL => some (k, -1)
    | .procinfo _ => some (k, 0)
    | _ => none
  | some .readerFileOps => closePipeEnd k pipeReaderClose obj
  | some .writerFileOps => closePipeEnd k pipeWriterClose obj
  | some .socketFileOps => socketClose k p obj

def IoKernel.decref (k : IoKernel) (p : Pid) (f : FcbId) : Option (IoKernel × Int) :=
  match fcbDecref k.files f with
  | (files, none) => some ({ k with files := files }, 0)
  | (files, some (ops, obj)) => closeStream { k with files := files } p ops obj

def IoKernel.incref (k : IoKernel) (f : FcbId) : IoKernel := { k with files := fcbIncref k.files f }

def sysClose (k : IoKernel) (p : Pid) (fd : Int) : IoResult :=
  match getFcb k p fd with
  | none => k.ret (if 0 ≤ fd ∧ fd < maxFileid then 0 else -1)
  | some f => ((k.setFidt p fd.toNat none).decref p f).bind fun (k, v) => k.ret v

def sysDup2 (k : IoKernel) (p : Pid) (oldfd newfd : Int) : IoResult :=
  if oldfd < 0 ∨ newfd < 0 ∨ oldfd ≥ maxFileid ∨ newfd ≥ maxFileid then k.ret (-1)
  else
    match getFcb k p oldfd with
    | none => k.ret (-1)
    | some old =>
      if getFcb k p newfd = some old then k.ret 0
      else
        let closed := match getFcb k p newfd with
          | none => some (k, (0 : Int))
          | some new => k.decref p new
        closed.bind fun (k, _) => ((k.incref old).setFidt p newfd.toNat (some old)).ret 0

/-! ### Opening streams -/

def openStream (k : IoKernel) (p : Pid) (ops : FileOps) (obj : StreamObj) (present : Bool) :
    IoResult :=
  let (k, r) := k.reserve p
  match r with
  | ⟨[fid], [some f], true⟩ =>
    if present then (k.setStream f obj ops).ret fid else (k.unreserve p fid f).ret noFile
  | _ => k.ret noFile

def sysOpenNull (k : IoKernel) (p : Pid) : IoResult := openStream k p .nulldevFops .NULL true

def sysOpenTerminal (k : IoKernel) (p : Pid) (termno : Nat) : IoResult :=
  openStream k p .serialFops (.serial termno) (termno < k.serialPorts)

def sysOpenInfo (k : IoKernel) (p : Pid) : IoResult :=
  let (k, r) := k.reserve p
  match r with
  | ⟨[fid], [some f], true⟩ =>
    ({ k.setStream f (.procinfo k.infos) .procinfoOps with infos := k.infos + 1 }).ret fid
  | _ => k.ret noFile

/-- A new pipe control block, with both FCBs set up for it; `garbage` is what `xmalloc`
left in the buffer. -/
def IoKernel.addPipe (k : IoKernel) (writer reader : FcbId) (garbage : Nat → UInt8) : IoKernel :=
  ({ k with pipes := k.pipes ++ [some (PipeCb.initial reader writer garbage)] }.setStream reader
    (.pipe k.pipes.length) .readerFileOps).setStream writer (.pipe k.pipes.length) .writerFileOps

/-- When the second `FCB_reserve` fails, what the first one did stays. A fid is stored before its
FCB is acquired, so that a failed call may have stored one too many. -/
def sysPipe (k : IoKernel) (p : Pid) (garbage : Nat → UInt8) : IoResult :=
  let (k, r) := k.reserve p
  match r with
  | ⟨[read], [some reader], true⟩ =>
    let (k, r) := k.reserve p
    match r with
    | ⟨[write], [some writer], true⟩ =>
      some (k.addPipe writer reader garbage, some ⟨0, [], [read, write]⟩)
    | r => some (k, some ⟨-1, [], read :: r.fid⟩)
  | r => some (k, some ⟨-1, [], r.fid⟩)

end TinyOS
