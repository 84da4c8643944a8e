import TinyOS.Process

/-! The machine of all processes: each stretch of code between two waits is one
step of one thread. -/

namespace TinyOS

open Transition

def ProcNode.key : ProcNode → NodeKey
  | .childrenNode p | .exitedNode p => .pcb p
  | _ => .null

/-- The free list is threaded through `parent`, from the last index down. -/
def linkFree : Nat → (Pid → PCB) × Option Pid → (Pid → PCB) × Option Pid
  | 0, s => s
  | n + 1, (pt, freelist) =>
    if h : n < maxProc then
      linkFree n (Function.update pt ⟨n, h⟩ { pt ⟨n, h⟩ with parent := freelist }, some ⟨n, h⟩)
    else (pt, freelist)

/-- The process table is static, hence zeroed, before `initialize_processes`. -/
def PCB.zeroed : PCB where
  pstate := .free
  parent := none
  exitval := 0
  mainThread := none
  mainTask := none
  argl := 0
  args := none
  childExit := condInit
  fidt _ := none
  threadCount := 0

/-- The state when `initialize_processes` is about to execute the idle process. The
node of a PTCB counts as a singleton while the PTCB is not allocated. -/
def initializeProcesses : Kernel :=
  let s := linkFree maxProc (fun _ => initializePCB PCB.zeroed, none)
  { pt := s.1
    processCount := 0
    pcbFreelist := s.2
    heap := fun n => ⟨n.key, n, n⟩
    ptcbs := fun _ => none
    threads := []
    files := initializeFiles
    panicked := false
    acquired := fun _ => 0
    reaps := []
    freed := [] }

/-- Execute the idle process, as `initialize_processes` does, and the init process. -/
def bootProcesses (k : Kernel) (task : Task) (argl : Int) (args : ExecArgs argl)
    (a : Tid) : Kernel := (sysExec (sysExec k 0 none 0 none a).1 0 (some task) argl args a).1

def bootKernel (task : Task) (argl : Int) (args : ExecArgs argl) (a : Tid) : Kernel :=
  bootProcesses initializeProcesses task argl args a

inductive ProcEvent
  | exec (t : ThreadId) (call : Option Task) (argl : Int) (args : ExecArgs argl) (a : Tid)
  | exit (t : ThreadId) (exitval : Int)
  | waitChild (t : ThreadId) (cpid : Int) (status : Bool)
  | createThread (t : ThreadId) (task : Option Task) (argl : Int) (args : Args) (a : Tid)
  | threadJoin (t : ThreadId) (tid : Tid) (status : Bool)
  | threadDetach (t : ThreadId) (tid : Tid)
  | threadExit (t : ThreadId) (exitval : Int)
  | proceed (t : ThreadId)
deriving DecidableEq

def ProcEvent.thread : ProcEvent → ThreadId
  | .exec t .. | .exit t _ | .waitChild t .. | .createThread t .. | .threadJoin t .. |
    .threadDetach t _ | .threadExit t _ | .proceed t => t

/-- The address at which `xmalloc` places a PTCB: not in use, and not `NULL`. -/
def Kernel.canAllocate (k : Kernel) (a : Tid) : Prop := k.ptcbs a = none ∧ a ≠ 0

instance (k : Kernel) (a : Tid) : Decidable (k.canAllocate a) :=
  decidable_of_iff ((k.ptcbs a).isNone = true ∧ a ≠ 0) (by simp [Kernel.canAllocate])

def Kernel.call (k : Kernel) (tcb : TCB) : ProcEvent → Option (Kernel × Option Ret)
  | .exec _ call argl args a =>
    if k.canAllocate a then
      let r := sysExec k tcb.ownerPcb call argl args a
      some (r.1, some ⟨r.2, none⟩)
    else none
  | .exit t v => tcb.ptcb.map fun ptcb => (sysExit k t tcb.ownerPcb ptcb v, none)
  | .waitChild t cpid status => some (sysWaitChild k t tcb.ownerPcb cpid status)
  | .createThread _ task argl args a =>
    if k.canAllocate a then
      let r := sysCreateThread k tcb.ownerPcb task argl args a
      some (r.1, some ⟨r.2, none⟩)
    else none
  | .threadJoin t tid status => some (sysThreadJoin k t tcb.ownerPcb tcb.ptcb tid status)
  | .threadDetach _ tid => some (sysThreadDetach k tcb.ownerPcb tid)
  | .threadExit t v => tcb.ptcb.map fun ptcb => (sysThreadExit k t tcb.ownerPcb ptcb v, none)
  | .proceed _ => none

def Kernel.goOn (k : Kernel) (t : ThreadId) (tcb : TCB) : Option (Kernel × Option Ret) :=
  match tcb.pc with
  | .user | .exited => none
  | .waitSpecific child status occupant =>
    if t ∈ (k.pt tcb.ownerPcb).childExit.waitset then none
    else some (waitForSpecificLoop k t tcb.ownerPcb child status occupant)
  | .waitAny status =>
    if t ∈ (k.pt tcb.ownerPcb).childExit.waitset then none
    else some (waitForAnyLoop k t tcb.ownerPcb status (.waitAny status) .user)
  | .exitLoop v => tcb.ptcb.map fun ptcb => (sysExitLoop k t tcb.ownerPcb ptcb v, none)
  | .exitWait v =>
    if t ∈ (k.pt tcb.ownerPcb).childExit.waitset then none
    else tcb.ptcb.map fun ptcb => (sysExitLoop k t tcb.ownerPcb ptcb v, none)
  | .joining tid status =>
    if t ∈ (k.ptcbs tid).elim [] (·.exitCv.waitset) then none
    else some (threadJoinLoop k t tid status)

def Kernel.stepRet (k : Kernel) (e : ProcEvent) : Option (Kernel × Option Ret) :=
  if k.panicked then none
  else
    match k.threads[e.thread]? with
    | none => none
    | some tcb =>
      if tcb.pc = .user then k.call tcb e
      else
        match e with
        | .proceed t => k.goOn t tcb
        | _ => none

def Kernel.step (k : Kernel) (e : ProcEvent) : Option Kernel := (k.stepRet e).map Prod.fst

end TinyOS
