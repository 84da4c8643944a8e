import TinyOS.Streams
import TinyOS.RlistSpec

/-! The process table, the threads of processes, and the system calls that work
on them, from `kernel_proc.c` and `kernel_threads.c`. -/

namespace TinyOS

open Ring

abbrev maxProc : Nat := 65536

abbrev Pid := Fin maxProc

instance (priority := 1100) Pid.neZero : NeZero maxProc := ⟨by decide⟩

def noProc : Int := -1

/-- A 64-bit address, which is what a `Tid_t` holds. -/
abbrev Tid := Fin (2 ^ 64)

instance (priority := 1100) Tid.neZero : NeZero (2 ^ 64 : Nat) := ⟨by decide⟩

abbrev Task := Nat

/-- The block of memory that an `args` pointer leads to; `none` is `NULL`. -/
abbrev Args := Option (List UInt8)

/-- What `sys_Exec` can copy `argl` bytes of: nothing is defined for a negative length or beyond
the end of the block. -/
abbrev ExecArgs (argl : Int) := Option {block : List UInt8 // 0 ≤ argl ∧ argl ≤ block.length}

inductive PidState
  | free
  | alive
  | zombie
deriving DecidableEq

/-- The nodes embedded in control blocks: of a PCB its three sentinels and its two
members of other lists, of a PTCB its one member. -/
inductive ProcNode
  | childrenList (p : Pid)
  | exitedList (p : Pid)
  | ptcbList (p : Pid)
  | childrenNode (p : Pid)
  | exitedNode (p : Pid)
  | ptcbListNode (a : Tid)
deriving DecidableEq

inductive NodeKey
  | null
  | pcb (p : Pid)
  | ptcb (a : Tid)
deriving DecidableEq

/-- The rest of a PCB; its nodes live in the heap. -/
structure PCB where
  pstate : PidState
  parent : Option Pid
  exitval : Int
  mainThread : Option ThreadId
  mainTask : Option Task
  argl : Int
  args : Args
  childExit : CondVar
  fidt : Nat → Option FcbId
  threadCount : Int

structure PTCB where
  tcb : Option ThreadId
  task : Option Task
  argl : Int
  args : Args
  exitval : Int
  exited : Int
  detached : Int
  exitCv : CondVar
  refcount : Int

inductive ThreadFunc
  | startMainThread
  | startProcessThread
deriving DecidableEq

/-- Where a thread is: outside the kernel, in one of the waits, between two rounds
of the loop of `sys_Exit`, or gone. A call carries whether the caller passed a
place for the exit value; a wait for one child remembers which occupant of the PCB
it was called for, as history. -/
inductive ThreadPc
  | user
  | waitSpecific (child : Pid) (status : Bool) (occupant : Nat)
  | waitAny (status : Bool)
  | exitLoop (exitval : Int)
  | exitWait (exitval : Int)
  | joining (tid : Tid) (status : Bool)
  | exited
deriving DecidableEq

structure TCB where
  ownerPcb : Pid
  ptcb : Option Tid
  threadFunc : ThreadFunc
  pc : ThreadPc
deriving DecidableEq

/-- One application of `cleanup_zombie`, kept as history: by a thread of which
process, to which PCB and which occupant of it, and in what state it was. -/
structure Reap where
  caller : Pid
  pcb : Pid
  occupant : Nat
  pstate : PidState
  parent : Option Pid
deriving DecidableEq

/-- One call of `free` on a PTCB, kept as history: its address and, if a PTCB was
allocated there, its count at that moment. -/
structure Freed where
  tid : Tid
  refcount : Option Int
deriving DecidableEq

/-- A failed assertion or an access through a bad pointer sets `panicked`. The
fields `acquired`, the number of times each PCB was acquired, `reaps` and `freed`
are history. -/
structure Kernel where
  pt : Pid → PCB
  processCount : Int
  pcbFreelist : Option Pid
  heap : Heap NodeKey ProcNode
  ptcbs : Tid → Option PTCB
  threads : List TCB
  files : FileTable
  panicked : Bool
  acquired : Pid → Nat
  reaps : List Reap
  freed : List Freed

def Kernel.setPCB (k : Kernel) (p : Pid) (f : PCB → PCB) : Kernel :=
  { k with pt := Function.update k.pt p (f (k.pt p)) }

def Kernel.setPTCB (k : Kernel) (a : Tid) (f : PTCB → PTCB) : Kernel :=
  { k with ptcbs := Function.update k.ptcbs a ((k.ptcbs a).map f) }

def Kernel.setPc (k : Kernel) (t : ThreadId) (pc : ThreadPc) : Kernel :=
  { k with threads := k.threads.modify t fun tcb => { tcb with pc := pc } }

def Kernel.panic (k : Kernel) : Kernel := { k with panicked := true }

/-! ### The process table -/

def getPcb (k : Kernel) (pid : Pid) : Option Pid :=
  if (k.pt pid).pstate = .free then none else some pid

def getPid : Option Pid → Int
  | none => noProc
  | some p => p.val

def initializePCB (p : PCB) : PCB :=
  { p with
    pstate := .free
    argl := 0
    args := none
    threadCount := 0
    fidt := fun i => if i < maxFileid then none else p.fidt i
    childExit := condInit }

def acquirePCB (k : Kernel) : Kernel × Option Pid :=
  match k.pcbFreelist with
  | none => (k, none)
  | some pcb =>
    let k := k.setPCB pcb fun c => { c with pstate := .alive }
    ({ k with
      pcbFreelist := (k.pt pcb).parent
      processCount := k.processCount + 1
      acquired := Function.update k.acquired pcb (k.acquired pcb + 1) }, some pcb)

def releasePCB (k : Kernel) (pcb : Pid) : Kernel :=
  let k := k.setPCB pcb fun c => { c with pstate := .free, parent := k.pcbFreelist }
  { k with pcbFreelist := some pcb, processCount := k.processCount - 1 }

/-! ### Threads and their control blocks -/

def freePtcb (k : Kernel) (a : Tid) : Kernel :=
  { k with
    ptcbs := Function.update k.ptcbs a none
    freed := k.freed ++ [⟨a, (k.ptcbs a).map (·.refcount)⟩] }

/-- A new TCB; the caller connects it to a PTCB and wakes it up. -/
def spawnThread (k : Kernel) (pcb : Pid) (func : ThreadFunc) : Kernel × ThreadId :=
  ({ k with threads := k.threads ++ [⟨pcb, none, func, .user⟩] }, k.threads.length)

def initializePtcb (tcb : Option ThreadId) (task : Option Task) (argl : Int) (args : Args) :
    PTCB where
  tcb := tcb
  task := task
  argl := argl
  args := args
  exitval := 0
  exited := 0
  detached := 0
  exitCv := condInit
  refcount := 0

def Kernel.attachPtcb (k : Kernel) (pcb : Pid) (t : ThreadId) (a : Tid) (ptcb : PTCB) : Kernel :=
  let k := { k with
    ptcbs := Function.update k.ptcbs a (some ptcb)
    threads := k.threads.modify t fun tcb => { tcb with ptcb := some a }
    heap := rlistPushBack (rlnodeInit k.heap (.ptcbListNode a) (.ptcb a)) (.ptcbList pcb)
      (.ptcbListNode a) }
  k.setPCB pcb fun c => { c with threadCount := c.threadCount + 1 }

def addTcbToProcess (k : Kernel) (pcb : Pid) (mainTcb : ThreadId) (a : Tid) : Kernel :=
  k.attachPtcb pcb mainTcb a
    (initializePtcb (some mainTcb) (k.pt pcb).mainTask (k.pt pcb).argl (k.pt pcb).args)

/-- `cur` is `CURPROC`; `a` is the address that `xmalloc` returns for the PTCB. -/
def sysExec (k : Kernel) (cur : Pid) (call : Option Task) (argl : Int)
    (args : ExecArgs argl) (a : Tid) :
    Kernel × Int :=
  match acquirePCB k with
  | (k, none) => (k, getPid none)
  | (k, some newproc) =>
    let k :=
      if newproc.val ≤ 1 then k.setPCB newproc fun c => { c with parent := none }
      else
        { k.setPCB newproc (fun c =>
            { c with
              parent := some cur
              fidt := fun i => if i < maxFileid then (k.pt cur).fidt i else c.fidt i }) with
          heap := rlistPushFront k.heap (.childrenList cur) (.childrenNode newproc)
          files := inheritStreams k.files (k.pt cur).fidt }
    let k := k.setPCB newproc fun c =>
      { c with mainTask := call, argl := argl, args := args.map (·.1.take argl.toNat) }
    match call with
    | none => (k, getPid (some newproc))
    | some _ =>
      let (k, t) := spawnThread k newproc .startMainThread
      let k := k.setPCB newproc fun c => { c with mainThread := some t }
      (addTcbToProcess k newproc t a, getPid (some newproc))

def sysCreateThread (k : Kernel) (cur : Pid) (task : Option Task) (argl : Int) (args : Args)
    (a : Tid) : Kernel × Int :=
  match task with
  | none =>
    ({ k with
      ptcbs := Function.update k.ptcbs a (some (initializePtcb none none argl args))
      heap := rlnodeInit k.heap (.ptcbListNode a) (.ptcb a) }, a.val)
  | some task =>
    let (k, t) := spawnThread k cur .startProcessThread
    (k.attachPtcb cur t a (initializePtcb (some t) (some task) argl args), a.val)

structure Ret where
  val : Int
  out : Option Int
deriving DecidableEq

/-! ### Waiting for children -/

def cleanupZombie (k : Kernel) (caller pcb : Pid) : Kernel :=
  let k := { k with
    heap := rlistRemove (rlistRemove k.heap (.childrenNode pcb)) (.exitedNode pcb)
    reaps := k.reaps ++
      [⟨caller, pcb, k.acquired pcb, (k.pt pcb).pstate, (k.pt pcb).parent⟩] }
  releasePCB k pcb

/-- The loop of `wait_for_specific_child` and what follows it; the result is absent
while the caller sleeps. -/
def waitForSpecificLoop (k : Kernel) (t : ThreadId) (parent child : Pid) (status : Bool)
    (occupant : Nat) : Kernel × Option Ret :=
  if (k.pt child).pstate = .alive then
    ((k.setPCB parent fun c => { c with childExit := kernelWait c.childExit t }).setPc t
      (.waitSpecific child status occupant), none)
  else
    ((cleanupZombie k parent child).setPc t .user,
      some ⟨child.val, if status then some (k.pt child).exitval else none⟩)

def waitForSpecificChild (k : Kernel) (t : ThreadId) (parent : Pid) (cpid : Int)
    (status : Bool) : Kernel × Option Ret :=
  if h : 0 ≤ cpid ∧ cpid < maxProc then
    let cpid : Pid := ⟨cpid.toNat, by omega⟩
    match getPcb k cpid with
    | none => (k, some ⟨noProc, none⟩)
    | some child =>
      if (k.pt child).parent ≠ some parent then (k, some ⟨noProc, none⟩)
      else waitForSpecificLoop k t parent child status (k.acquired child)
  else (k, some ⟨noProc, none⟩)

/-- The loop of `wait_for_any_child` and what follows it, for a caller that waits
at `wait` and goes on at `done`. -/
def waitForAnyLoop (k : Kernel) (t : ThreadId) (parent : Pid) (status : Bool)
    (wait done : ThreadPc) : Kernel × Option Ret :=
  if isRlistEmpty k.heap (.childrenList parent) then (k.setPc t done, some ⟨noProc, none⟩)
  else if isRlistEmpty k.heap (.exitedList parent) then
    ((k.setPCB parent fun c => { c with childExit := kernelWait c.childExit t }).setPc t wait, none)
  else
    match (k.heap (k.heap (.exitedList parent)).next).obj with
    | .pcb child =>
      if (k.pt child).pstate = .zombie then
        ((cleanupZombie k parent child).setPc t done,
          some ⟨child.val, if status then some (k.pt child).exitval else none⟩)
      else (k.panic, none)
    | _ => (k.panic, none)

def sysWaitChild (k : Kernel) (t : ThreadId) (cur : Pid) (cpid : Int) (status : Bool) :
    Kernel × Option Ret :=
  if cpid ≠ noProc then waitForSpecificChild k t cur cpid status
  else waitForAnyLoop k t cur status (.waitAny status) .user

/-! ### Joining and detaching threads -/

def rlistFindFrom (h : Heap NodeKey ProcNode) (list : ProcNode) (key : NodeKey) :
    Nat → ProcNode → Option ProcNode
  | 0, _ => none
  | fuel + 1, i =>
    if i = list then none
    else if (h i).obj = key then some i
    else rlistFindFrom h list key fuel (h i).next

/-- `rlist_find` with `fail` equal to `NULL`. A list of PTCBs has at most as many
members as there are addresses. -/
def rlistFind (h : Heap NodeKey ProcNode) (list : ProcNode) (key : NodeKey) : Option ProcNode :=
  rlistFindFrom h list key (2 ^ 64 + 1) (h list).next

def threadJoinLoop (k : Kernel) (t : ThreadId) (tid : Tid) (status : Bool) :
    Kernel × Option Ret :=
  match k.ptcbs tid with
  | none => (k.panic, none)
  | some target =>
    if target.exited = 0 ∧ target.detached = 0 then
      ((k.setPTCB tid fun c => { c with exitCv := kernelWait c.exitCv t }).setPc t
        (.joining tid status), none)
    else
      let k := (k.setPTCB tid fun c => { c with refcount := c.refcount - 1 }).setPc t .user
      if target.detached = 1 then (k, some ⟨-1, none⟩)
      else
        let ret : Ret := ⟨0, if status then some target.exitval else none⟩
        if target.refcount - 1 = 0 then
          (freePtcb { k with heap := rlistRemove k.heap (.ptcbListNode tid) } tid, some ret)
        else (k, some ret)

/-- `self` is what `sys_ThreadSelf` returns. -/
def sysThreadJoin (k : Kernel) (t : ThreadId) (cur : Pid) (self : Option Tid) (tid : Tid)
    (status : Bool) : Kernel × Option Ret :=
  if rlistFind k.heap (.ptcbList cur) (.ptcb tid) = none then (k, some ⟨-1, none⟩)
  else
    match k.ptcbs tid with
    | none => (k.panic, none)
    | some target =>
      if target.detached = 1 ∨ self = some tid then (k, some ⟨-1, none⟩)
      else threadJoinLoop (k.setPTCB tid fun c => { c with refcount := c.refcount + 1 })
        t tid status

def sysThreadDetach (k : Kernel) (cur : Pid) (tid : Tid) : Kernel × Option Ret :=
  if rlistFind k.heap (.ptcbList cur) (.ptcb tid) = none then (k, some ⟨-1, none⟩)
  else
    match k.ptcbs tid with
    | none => (k.panic, none)
    | some ptcb =>
      if ptcb.exited = 1 then (k, some ⟨-1, none⟩)
      else
        (k.setPTCB tid fun c =>
          { c with detached := 1, exitCv := kernelBroadcast c.exitCv }, some ⟨0, none⟩)

/-! ### The end of a thread -/

/-- `while (!is_rlist_empty(&curproc->children_list))`: hand the children to init. -/
def reparentChildren (curproc : Pid) (initpcb : Option Pid) : Nat → Kernel → Kernel
  | 0, k => k
  | fuel + 1, k =>
    if isRlistEmpty k.heap (.childrenList curproc) then k
    else
      let (h, child) := rlistPopFront k.heap (.childrenList curproc)
      match (h child).obj, initpcb with
      | .pcb c, some init =>
        reparentChildren curproc initpcb fuel
          { k.setPCB c (fun b => { b with parent := some init }) with
            heap := rlistPushFront h (.childrenList init) child }
      | _, _ => k.panic

/-- `while (!is_rlist_empty(&curproc->ptcb_list))`: free the PTCBs. -/
def freePtcbs (curproc : Pid) : Nat → Kernel → Kernel
  | 0, k => k
  | fuel + 1, k =>
    if isRlistEmpty k.heap (.ptcbList curproc) then k
    else
      let (h, node) := rlistPopFront k.heap (.ptcbList curproc)
      match (h node).obj with
      | .ptcb a => freePtcbs curproc fuel (freePtcb { k with heap := h } a)
      | _ => k.panic

/-- Clean up the `FIDT`. The `Close` calls made by `FCB_decref` change no field
of this model, and are left out. -/
def closeStreams (k : Kernel) (curproc : Pid) : Kernel :=
  (List.range maxFileid).foldl
    (fun k i => match (k.pt curproc).fidt i with
      | some f =>
        { k.setPCB curproc (fun c => { c with fidt := Function.update c.fidt i none }) with
          files := (fcbDecref k.files f).1 }
      | none => k) k

/-- `if (!is_rlist_empty(&curproc->exited_list))`: hand the zombie children to init. -/
def adoptExited (k : Kernel) (curproc : Pid) (initpcb : Option Pid) : Kernel :=
  if isRlistEmpty k.heap (.exitedList curproc) then k
  else
    match initpcb with
    | some init =>
      { k with heap := rlistAppend k.heap (.exitedList init) (.exitedList curproc) }.setPCB init
        fun c => { c with childExit := kernelBroadcast c.childExit }
    | none => k.panic

/-- `Put me into my parent's exited list`. -/
def joinExited (k : Kernel) (curproc : Pid) : Kernel :=
  match (k.pt curproc).parent with
  | some parent =>
    { k with heap := rlistPushFront k.heap (.exitedList parent) (.exitedNode curproc) }.setPCB
      parent fun c => { c with childExit := kernelBroadcast c.childExit }
  | none => k.panic

/-- What the last thread of a process other than init does with its relatives. -/
def leaveFamily (k : Kernel) (curproc : Pid) : Kernel :=
  if getPid (some curproc) ≠ 1 then
    let initpcb := getPcb k 1
    joinExited (adoptExited (reparentChildren curproc initpcb (maxProc + 1) k) curproc initpcb)
      curproc
  else k

/-- The rest of the clean-up by the last thread, the two assertions included. -/
def leaveProcess (k : Kernel) (curproc : Pid) : Kernel :=
  let k := leaveFamily k curproc
  if isRlistEmpty k.heap (.childrenList curproc) && isRlistEmpty k.heap (.exitedList curproc) then
    let k := freePtcbs curproc (2 ^ 64 + 1) k
    let k := k.setPCB curproc fun c => { c with args := none }
    let k := closeStreams k curproc
    k.setPCB curproc fun c => { c with mainThread := none, pstate := .zombie }
  else k.panic

def sysThreadExit (k : Kernel) (t : ThreadId) (curproc : Pid) (ptcb : Tid) (exitval : Int) :
    Kernel :=
  let k := k.setPTCB ptcb fun c =>
    { c with exited := 1, exitval := exitval, exitCv := kernelBroadcast c.exitCv }
  let k := k.setPCB curproc fun c => { c with threadCount := c.threadCount - 1 }
  let k := if (k.pt curproc).threadCount = 0 then leaveProcess k curproc else k
  k.setPc t .exited

def sysExit (k : Kernel) (t : ThreadId) (curproc : Pid) (ptcb : Tid) (exitval : Int) : Kernel :=
  let k := k.setPCB curproc fun c => { c with exitval := exitval }
  if getPid (some curproc) = 1 then k.setPc t (.exitLoop exitval)
  else sysThreadExit k t curproc ptcb exitval

/-- `while (sys_WaitChild(NOPROC, NULL) != NOPROC);` and what follows it, a round at
a time. -/
def sysExitLoop (k : Kernel) (t : ThreadId) (curproc : Pid) (ptcb : Tid) (exitval : Int) : Kernel :=
  match waitForAnyLoop k t curproc false (.exitWait exitval) (.exitLoop exitval) with
  | (k, none) => k
  | (k, some ret) => if ret.val ≠ noProc then k else sysThreadExit k t curproc ptcb exitval

end TinyOS
