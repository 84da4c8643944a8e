import TinyOS.Lib.Transition
import TinyOS.Sockets

/-! The machine of all threads that use streams: each stretch of code between two waits
is one step. After a fault nothing is said of the run any more. -/

namespace TinyOS

open Transition

def IoKernel.addThread (k : IoKernel) (p : Pid) : IoKernel :=
  { k with threads := k.threads ++ [⟨p, .user⟩] }

/-- `sys_Exec`, for the PCB that `acquire_PCB` finds, with or without a main thread. -/
def ioExec (k : IoKernel) (p child : Pid) (call : Bool) : IoResult :=
  let k := k.setProc child fun c => { c with pstate := .alive }
  let k :=
    if child.val ≤ 1 then k
    else
      { k.setProc child (fun c =>
          { c with fidt := fun i => if i < maxFileid then (k.procs p).fidt i else c.fidt i }) with
        files := inheritStreams k.files (k.procs p).fidt }
  (if call then k.addThread child else k).ret child.val

def closeFidt (k : IoKernel) (p : Pid) : Option IoKernel :=
  (List.range maxFileid).foldlM
    (fun k i => match (k.procs p).fidt i with
      | none => some k
      | some f => (k.decref p f).map fun r => r.1.setFidt p i none) k

def IoThread.liveIn (p : Pid) (x : IoThread) : Bool := x.pid = p ∧ x.pc ≠ .exited

def ioThreadExit (k : IoKernel) (t : ThreadId) (p : Pid) : Option IoKernel :=
  if k.threads.countP (·.liveIn p) = 1 then
    (closeFidt k p).map fun k => (k.setProc p fun c => { c with pstate := .zombie }).setPc t .exited
  else some (k.setPc t .exited)

inductive IoEvent
  | openNull (t : ThreadId)
  | openTerminal (t : ThreadId) (termno : Nat)
  | openInfo (t : ThreadId)
  | pipe (t : ThreadId) (garbage : Nat → UInt8)
  | read (t : ThreadId) (fd : Int) (n : Nat) (dev : List UInt8)
  | write (t : ThreadId) (fd : Int) (buf dev : List UInt8)
  | close (t : ThreadId) (fd : Int)
  | dup2 (t : ThreadId) (oldfd newfd : Int)
  | socket (t : ThreadId) (port : Int)
  | listen (t : ThreadId) (sock : Int)
  | accept (t : ThreadId) (lsock : Int) (garbage : Nat → UInt8)
  | connect (t : ThreadId) (sock port : Int)
  | shutDown (t : ThreadId) (sock : Int) (how : ShutdownMode)
  | exec (t : ThreadId) (child : Pid) (call : Bool)
  | createThread (t : ThreadId)
  | threadExit (t : ThreadId)
  | proceed (t : ThreadId) (dev : List UInt8) (garbage : Nat → UInt8)
  | timeout (t : ThreadId)
  | serialReady
  | reap (p : Pid)

def IoEvent.thread : IoEvent → Option ThreadId
  | .openNull t | .openTerminal t _ | .openInfo t | .pipe t _ | .read t .. | .write t .. |
    .close t _ | .dup2 t .. | .socket t _ | .listen t _ | .accept t .. | .connect t .. |
    .shutDown t .. | .exec t .. | .createThread t | .threadExit t | .proceed t .. => some t
  | .timeout _ | .serialReady | .reap _ => none

/-- A system call of thread `t` of process `p`; absent if it cannot be made. -/
def IoKernel.call (k : IoKernel) (t : ThreadId) (p : Pid) : IoEvent → Option IoResult
  | .openNull _ => some (sysOpenNull k p)
  | .openTerminal _ termno => some (sysOpenTerminal k p termno)
  | .openInfo _ => some (sysOpenInfo k p)
  | .pipe _ garbage => some (sysPipe k p garbage)
  | .read _ fd n dev => some (sysRead k t p fd n dev)
  | .write _ fd buf dev => some (sysWrite k t p fd buf dev)
  | .close _ fd => some (sysClose k p fd)
  | .dup2 _ oldfd newfd => some (sysDup2 k p oldfd newfd)
  | .socket _ port => some ((sysSocket k p port).1.ret (sysSocket k p port).2)
  | .listen _ sock => some (sysListen k p sock)
  | .accept _ lsock garbage => some (sysAccept k t p lsock garbage)
  | .connect _ sock port => some (sysConnect k t p sock port)
  | .shutDown _ sock how => some ((sysShutDown k p sock how).bind fun (k, v) => k.ret v)
  | .exec _ child call =>
    if (k.procs child).pstate = .free then some (ioExec k p child call) else none
  | .createThread _ => some ((k.addThread p).ret 0)
  | .threadExit _ => some ((ioThreadExit k t p).map fun k => (k, none))
  | _ => none

def IoKernel.goOn (k : IoKernel) (t : ThreadId) (p : Pid) (pc : IoPc) (dev : List UInt8)
    (garbage : Nat → UInt8) : Option IoResult :=
  let awake := k.setPc t .user
  match pc with
  | .user | .exited => none
  | .readingPipe f q n =>
    if t ∈ (k.pipe? q).elim [] (·.hasData.waitset) then none
    else some (finishIo p f ((k.pipe? q).map fun c => readPipe awake t f q n (pipeReadWait c t n)))
  | .readingSerial f devno n =>
    if t ∈ (k.rxReady devno).waitset then none
    else some (finishIo p f (some (readSerial awake t f devno n dev)))
  | .writingPipe f q buf =>
    if t ∈ (k.pipe? q).elim [] (·.hasSpace.waitset) then none
    else some
      (finishIo p f ((k.pipe? q).map fun c => writePipe awake t f q buf (pipeWriteWait c t buf)))
  | .accepting s =>
    if t ∈ (k.sockets[s]?).elim [] (·.reqAvailable.waitset) then none
    else some (acceptLoop awake t p s garbage)
  | .connecting s r expired =>
    if t ∈ (k.requests[r]?).elim [] (·.connectedCv.waitset) then none
    else some (connectLoop awake t s r expired)

def IoKernel.settle (k : IoKernel) : IoResult → IoKernel × Option IoRet
  | some r => r
  | none => ({ k with faulted := true }, none)

def IoKernel.stepRet (k : IoKernel) (e : IoEvent) : Option (IoKernel × Option IoRet) :=
  if k.faulted then none
  else
    match e with
    | .timeout t =>
      match k.threads[t]? with
      | some ⟨_, .connecting s r false⟩ =>
        if t ∈ (k.requests[r]?).elim [] (·.connectedCv.waitset) then
          some (({ k with requests := k.requests.modify r fun c =>
            { c with connectedCv := c.connectedCv.expire t } }).setPc t
              (.connecting s r true), none)
        else none
      | _ => none
    | .serialReady => some ({ k with rxReady := fun i => kernelBroadcast (k.rxReady i) }, none)
    | .reap p =>
      if (k.procs p).pstate = .zombie then
        some (k.setProc p fun c => { c with pstate := .free }, none)
      else none
    | .proceed t dev garbage =>
      (k.threads[t]?).bind fun x => (k.goOn t x.pid x.pc dev garbage).map k.settle
    | e =>
      e.thread.bind fun t => (k.threads[t]?).bind fun x =>
        if x.pc = .user then (k.call t x.pid e).map k.settle else none

def IoKernel.step (k : IoKernel) (e : IoEvent) : Option IoKernel := (k.stepRet e).map Prod.fst

def bootIo (serialPorts : Nat) : IoKernel where
  procs p := ⟨if p.val ≤ 1 then .alive else .free, fun _ => none⟩
  files := initializeFiles
  sockets := []
  pipes := []
  requests := []
  portMap _ := none
  serialPorts := serialPorts
  rxReady _ := condInit
  infos := 0
  threads := [⟨1, .user⟩]
  faulted := false
  history := []

end TinyOS
