import TinyOS.IoKernel

/-! Reading and writing streams, and the sockets of `kernel_socket.c`. -/

namespace TinyOS

/-! ### Reading and writing -/

/-- The count of type `uint` returned as an `int`. -/
def intOfUint (n : Nat) : Int := Int.bmod n (2 ^ 32)

def storePipe (k : IoKernel) (q : PipeId) (c : PipeCb) : IoKernel :=
  { k with pipes := k.pipes.set q (some c) }

def readPipe (k : IoKernel) (t : ThreadId) (f : FcbId) (q : PipeId) (n : Nat) :
    PipeCb × Option (Int × List UInt8) → IoKernel × Option IoRet
  | (c, none) => ((storePipe k q c).setPc t (.readingPipe f q n), none)
  | (c, some (v, bytes)) => (storePipe k q c, some ⟨v, bytes, []⟩)

def writePipe (k : IoKernel) (t : ThreadId) (f : FcbId) (q : PipeId) (buf : List UInt8) :
    PipeCb × Option Int → IoKernel × Option IoRet
  | (c, none) => ((storePipe k q c).setPc t (.writingPipe f q buf), none)
  | (c, some v) => (storePipe k q c, some ⟨v, [], []⟩)

/-- `pipe_read` on whatever the pointer leads to. -/
def readPipeObj (k : IoKernel) (t : ThreadId) (f : FcbId) (n : Nat) : StreamObj → IoResult
  | .NULL => k.ret (-1)
  | .pipe q => (k.pipe? q).map fun c => readPipe k t f q n (pipeRead c t n)
  | _ => none

def writePipeObj (k : IoKernel) (t : ThreadId) (f : FcbId) (buf : List UInt8) : StreamObj → IoResult
  | .NULL => k.ret (-1)
  | .pipe q => (k.pipe? q).map fun c => writePipe k t f q buf (pipeWrite c t buf)
  | _ => none

/-- `serial_read`, from its loop on, when the device has the bytes `dev` to give. -/
def readSerial (k : IoKernel) (t : ThreadId) (f : FcbId) (devno n : Nat) (dev : List UInt8) :
    IoKernel × Option IoRet :=
  if n = 0 then (k, some ⟨0, [], []⟩)
  else
    match dev with
    | [] =>
      (({ k with
          rxReady := Function.update k.rxReady devno (kernelWait (k.rxReady devno) t) }).setPc t
        (.readingSerial f devno n), none)
    | _ => (k, some ⟨(dev.take n).length, dev.take n, []⟩)

/-- The guards of `socket_read` and `socket_write`, and the pipe chosen by `pipe`. -/
def socketPipe (k : IoKernel) (obj : StreamObj)
    (pipe : Option PipeId → Option PipeId → Option PipeId) :
    Option StreamObj :=
  match k.socketOf obj with
  | none => none
  | some (_, c) =>
    if c.fcb = none ∨ c.type ≠ .peer then some .NULL
    else
      match c.union with
      | .pipes w r => some (pipeObj (pipe w r))
      | _ => none

/-- The call of a stream's `Read` method. What an information stream finds in the process
table is, like the input of a terminal, not part of this state. -/
def readStream (k : IoKernel) (t : ThreadId) (f : FcbId) (n : Nat) (dev : List UInt8)
    (ops : FileOps) (obj : StreamObj) : IoResult :=
  match ops with
  | .nulldevFops => some (k, some ⟨intOfUint n, List.replicate n 0, []⟩)
  | .serialFops =>
    match obj with
    | .serial devno => some (readSerial k t f devno n dev)
    | _ => none
  | .procinfoOps =>
    match obj with
    | .procinfo _ => some (k, some ⟨dev.length, dev, []⟩)
    | _ => none
  | .readerFileOps => readPipeObj k t f n obj
  | .writerFileOps => k.ret (-1)
  | .socketFileOps => (socketPipe k obj fun _ r => r).bind (readPipeObj k t f n)

/-- The call of a stream's `Write` method; a terminal takes as many bytes as `dev` has. -/
def writeStream (k : IoKernel) (t : ThreadId) (f : FcbId) (buf dev : List UInt8)
    (ops : FileOps) (obj : StreamObj) : IoResult :=
  match ops with
  | .nulldevFops => k.ret (intOfUint buf.length)
  | .serialFops =>
    match obj with
    | .serial _ => k.ret (min buf.length dev.length : Nat)
    | _ => none
  | .procinfoOps | .readerFileOps => k.ret (-1)
  | .writerFileOps => writePipeObj k t f buf obj
  | .socketFileOps => (socketPipe k obj fun w _ => w).bind (writePipeObj k t f buf)

def finishIo (p : Pid) (f : FcbId) : IoResult → IoResult
  | some (k, some r) => (k.decref p f).map fun (k, _) => (k, some r)
  | r => r

def sysRead (k : IoKernel) (t : ThreadId) (p : Pid) (fd : Int) (n : Nat)
    (dev : List UInt8) : IoResult :=
  match getFcb k p fd with
  | none => k.ret (-1)
  | some f =>
    match (k.files.ft f).streamfunc with
    | none => none
    | some ops =>
      finishIo p f (readStream (k.incref f) t f n dev ops (k.files.ft f).streamobj)

def sysWrite (k : IoKernel) (t : ThreadId) (p : Pid) (fd : Int) (buf dev : List UInt8) : IoResult :=
  match getFcb k p fd with
  | none => k.ret (-1)
  | some f =>
    match (k.files.ft f).streamfunc with
    | none => none
    | some ops =>
      finishIo p f (writeStream (k.incref f) t f buf dev ops (k.files.ft f).streamobj)

/-! ### Sockets -/

def IoKernel.addSocket (k : IoKernel) (f : FcbId) (port : Int) : IoKernel :=
  let c : SocketCb := ⟨0, some f, .unbound, port, .uninitialized, condInit⟩
  { k with sockets := k.sockets ++ [c] }.setStream f (.socket k.sockets.length) .socketFileOps

/-- The array `fcb` handed to `FCB_reserve` is the word after the array `FIDT`. -/
def sysSocket (k : IoKernel) (p : Pid) (port : Int) : IoKernel × Int :=
  if port > maxPort ∨ port < noPort then (k, noFile)
  else
    let (k, r) := k.reserve p
    let k := match r.fcb with
      | f :: _ => k.setFidt p maxFileid f
      | [] => k
    match r with
    | ⟨[s], [some f], true⟩ => (k.addSocket f port, s)
    | _ => (k, noFile)

def IoKernel.installListener (k : IoKernel) (s : SockId) (port : Int) : IoKernel :=
  { k.setSocket s fun c =>
      { c with type := .listener, union := .queue [], reqAvailable := condInit } with
    portMap := Function.update k.portMap port (some s) }

def sysListen (k : IoKernel) (p : Pid) (sock : Int) : IoResult :=
  match getFcb k p sock with
  | none => k.ret (-1)
  | some f =>
    match k.socketOf (k.files.ft f).streamobj with
    | none => none
    | some (s, c) =>
      if c.port > maxPort ∨ c.port ≤ noPort then k.ret (-1)
      else if k.portMap c.port ≠ none then k.ret (-1)
      else if c.type ≠ .unbound then k.ret (-1)
      else (k.installListener s c.port).ret 0

def createPeerPipe (k : IoKernel) (peerFcb acceptedFcb : Option FcbId) (garbage : Nat → UInt8) :
    Option (IoKernel × PipeId) :=
  match peerFcb, acceptedFcb with
  | some writer, some reader => some (k.addPipe writer reader garbage, k.pipes.length)
  | _, _ => none

def IoKernel.setUnion (k : IoKernel) (s : SockId) (writePipe readPipe : PipeId) : IoKernel :=
  k.setSocket s fun c => { c with union := .pipes (some writePipe) (some readPipe) }

def IoKernel.setAdmitted (k : IoKernel) (r : ReqId) : IoKernel :=
  { k with requests := k.requests.modify r fun c =>
    { c with admitted := 1, connectedCv := kernelBroadcast c.connectedCv } }

/-- `START THE CONNECTION OF PEER SOCKETS`: the rest of `sys_Accept` once it has popped
a request. -/
def acceptRequest (k : IoKernel) (p : Pid) (port : Int) (r : ReqId) (garbage : Nat → UInt8) :
    IoResult :=
  match k.requests[r]? with
  | none => none
  | some req =>
    let (k, fid) := sysSocket k p port
    if fid = noFile then k.ret noFile
    else
      match getFcb k p fid with
      | none => none
      | some peerFcb =>
        match k.socketOf (k.files.ft peerFcb).streamobj with
        | none => none
        | some (peer, _) =>
          let k := k.setSocket peer fun c => { c with type := .peer }
          let acceptedFcb := k.sockets[req.peer]?.bind (·.fcb)
          match createPeerPipe k (some peerFcb) acceptedFcb garbage with
          | none => none
          | some (k, writer) =>
            match createPeerPipe k acceptedFcb (some peerFcb) garbage with
            | none => none
            | some (k, reader) =>
              let k := (k.setUnion peer writer reader).setUnion req.peer reader writer
              ((k.setAdmitted r).record (.accepted r fid)).ret fid

def IoKernel.addRef (k : IoKernel) (s : SockId) (n : Int) : IoKernel :=
  k.setSocket s fun c => { c with refcount := c.refcount + n }

def IoKernel.setQueue (k : IoKernel) (s : SockId) (q : List ReqId) : IoKernel :=
  k.setSocket s fun c => { c with union := .queue q }

def IoKernel.waitAccept (k : IoKernel) (t : ThreadId) (s : SockId) : IoKernel :=
  (k.setSocket s fun c => { c with reqAvailable := kernelWait c.reqAvailable t }).setPc t
    (.accepting s)

def acceptLoop (k : IoKernel) (t : ThreadId) (p : Pid) (s : SockId) (garbage : Nat → UInt8) :
    IoResult :=
  match k.sockets[s]? with
  | none => none
  | some c =>
    match c.union with
    | .queue q =>
      if q = [] ∧ k.portMap c.port ≠ none then some (k.waitAccept t s, none)
      else
        let k := k.addRef s (-1)
        if k.portMap c.port = none then k.ret noFile
        else
          match q with
          | [] => none
          | r :: rest => acceptRequest (k.setQueue s rest) p c.port r garbage
    | _ => none

def sysAccept (k : IoKernel) (t : ThreadId) (p : Pid) (lsock : Int)
    (garbage : Nat → UInt8) : IoResult :=
  match getFcb k p lsock with
  | none => k.ret noFile
  | some f =>
    if (k.files.ft f).streamobj = .NULL then k.ret noFile
    else
      match k.socketOf (k.files.ft f).streamobj with
      | none => none
      | some (s, c) =>
        if c.type ≠ .listener then k.ret noFile
        else if k.portMap c.port = none then k.ret noFile
        else acceptLoop (k.addRef s 1) t p s garbage

def connectLeave (k : IoKernel) (s : SockId) (r : ReqId) (req : ConnectionRequest) : IoResult :=
  let v : Int := if req.admitted ≠ 1 then -1 else 0
  ((k.addRef s (-1)).record (.returned r v)).ret v

def IoKernel.waitConnect (k : IoKernel) (t : ThreadId) (s : SockId) (r : ReqId) : IoKernel :=
  { k with requests := k.requests.modify r fun c =>
    { c with connectedCv := kernelWait c.connectedCv t } }.setPc t (.connecting s r false)

/-- The loop of `sys_Connect` and what follows it; `expired` tells that the last wait was
ended by the timeout. -/
def connectLoop (k : IoKernel) (t : ThreadId) (s : SockId) (r : ReqId)
    (expired : Bool) : IoResult :=
  match k.requests[r]? with
  | none => none
  | some req =>
    if req.admitted ≠ 1 ∧ expired = false then some (k.waitConnect t s r, none)
    else connectLeave k s r req

def IoKernel.addRequest (k : IoKernel) (s listener : SockId) (q : List ReqId) : IoKernel :=
  let req : ConnectionRequest := ⟨0, s, condInit⟩
  ({ k.addRef s 1 with requests := k.requests ++ [req] }.setSocket listener fun c =>
    { c with
      union := .queue (q ++ [k.requests.length])
      reqAvailable := kernelSignal c.reqAvailable }).record (.requested k.requests.length)

def sysConnect (k : IoKernel) (t : ThreadId) (p : Pid) (sock port : Int) : IoResult :=
  match getFcb k p sock with
  | none => k.ret (-1)
  | some f =>
    if port > maxPort ∨ port < noPort then k.ret (-1)
    else
      match k.portMap port with
      | none => k.ret (-1)
      | some listener =>
        match k.socketOf (k.files.ft f).streamobj, k.sockets[listener]? with
        | some (s, client), some l =>
          if client.type = .listener then k.ret (-1)
          else if client.refcount ≠ 0 then k.ret (-1)
          else if l.type ≠ .listener then k.ret (-1)
          else
            match l.union with
            | .queue q => connectLoop (k.addRequest s listener q) t s k.requests.length false
            | _ => none
        | _, _ => none

end TinyOS
