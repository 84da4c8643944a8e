import TinyOS.Lib.Transition
import TinyOS.KernelWait
import TinyOS.Rlnode

/-! One condition variable, at the level of the statements of `cv_wait` and `cv_signal`: the
ring of waiters with its lock, the flags of each waiter and the states of the threads. -/

namespace TinyOS

open Transition

/-- The statement that a thread is about to execute; `all` in `Cond_Broadcast`. -/
inductive CondPc
  | user
  -- `cv_wait`
  | waitLock
  | push
  | unlockMutex
  | sleep
  | asleep
  | tidy
  | leave
  | relock
  | ret
  -- `Cond_Signal` and `Cond_Broadcast`, with the waiter at hand
  | signalLock (all : Bool)
  | scan (all : Bool)
  | detach (all : Bool) (w : ThreadId)
  | wake (all : Bool) (w : ThreadId)
  | mark (all : Bool) (w : ThreadId)
  | scanned (all : Bool)
  | signalUnlock (all : Bool)
deriving DecidableEq

/-- A thread and its `__cv_waiter`. As history, when it entered the ring, and whether its
timeout has expired in this wait. -/
structure CondThread where
  state : ThreadState
  pc : CondPc
  mutex : Nat
  timed : Bool
  signalled : Bool
  removed : Bool
  returned : Option Int
  arrival : Nat
  expired : Bool

/-- A waiter lies on the stack of its thread and is named by it. -/
structure CondState where
  waitset : Option ThreadId
  waitsetLock : Option ThreadId
  nodes : Heap ThreadId ThreadId
  mutexes : Nat → Bool
  threads : List CondThread
  entries : Nat

def CondState.put (c : CondState) (t : ThreadId) (f : CondThread → CondThread) : CondState :=
  { c with threads := c.threads.modify t f }

def CondState.goto (c : CondState) (t : ThreadId) (pc : CondPc) : CondState :=
  c.put t fun x => { x with pc := pc }

def removeFromRing (c : CondState) (w : ThreadId) : CondState :=
  let c :=
    if c.waitset = some w then
      let nextw := (c.nodes (c.nodes w).next).obj
      { c with waitset := if nextw = w then none else some nextw }
    else c
  { c with nodes := rlistRemove c.nodes w }

/-- The thread of a waiter is `STOPPED` or `INIT`, so that `wakeup` makes it `READY`. -/
def CondState.finds (c : CondState) (w : ThreadId) : Bool :=
  (c.threads[w]?).any fun y => y.state = .stopped || y.state = .init

def CondState.enter (c : CondState) (t : ThreadId) : CondState :=
  let c :=
    match c.waitset with
    | some wset => { c with nodes := rlistPushBack c.nodes wset t }
    | none => { c with waitset := some t }
  { c with entries := c.entries + 1 }.put t fun x =>
    { x with pc := .unlockMutex, arrival := c.entries }

/-- The next statement of thread `t`, which is `x`; absent while it spins. -/
def CondState.run (c : CondState) (t : ThreadId) (x : CondThread) : Option CondState :=
  match x.pc with
  | .waitLock =>
    if c.waitsetLock = none then some ({ c with waitsetLock := some t }.goto t .push) else none
  | .push => some (c.enter t)
  | .unlockMutex =>
    some ({ c with mutexes := Function.update c.mutexes x.mutex false }.goto t .sleep)
  | .sleep =>
    some ({ c with waitsetLock := none }.put t fun x => { x with pc := .asleep, state := .stopped })
  | .asleep =>
    if c.waitsetLock = none then some ({ c with waitsetLock := some t }.goto t .tidy) else none
  | .tidy => some ((if x.removed then c else removeFromRing c t).goto t .leave)
  | .leave => some ({ c with waitsetLock := none }.goto t .relock)
  | .relock =>
    if c.mutexes x.mutex then none
    else some ({ c with mutexes := Function.update c.mutexes x.mutex true }.goto t .ret)
  | .ret =>
    some (c.put t fun x => { x with pc := .user, returned := some (if x.signalled then 1 else 0) })
  | .signalLock all =>
    if c.waitsetLock = none then
      some ({ c with waitsetLock := some t }.goto t (if all then .scanned true else .scan false))
    else none
  | .scan all =>
    match c.waitset with
    | none => some (c.goto t (.scanned all))
    | some w => some (c.goto t (.detach all w))
  | .detach all w =>
    some (((removeFromRing c w).put w fun y => { y with removed := true }).goto t (.wake all w))
  | .wake all w =>
    if c.finds w then some ((c.put w fun y => { y with state := .ready }).goto t (.mark all w))
    else some (c.goto t (.scan all))
  | .mark all w => some ((c.put w fun y => { y with signalled := true }).goto t (.scanned all))
  | .scanned all =>
    some (c.goto t (if all = true ∧ c.waitset.isSome then .scan all else .signalUnlock all))
  | .signalUnlock _ => some ({ c with waitsetLock := none }.goto t .user)
  | .user => none

/-- A running thread executes a statement or calls an operation; the timeout of a stopped thread
expires; a thread gets a core or loses it. -/
inductive CondEvent
  | run (t : ThreadId)
  | wait (t : ThreadId) (mutex : Nat) (timed : Bool)
  | signal (t : ThreadId) (all : Bool)
  | lock (t : ThreadId) (mutex : Nat)
  | unlock (t : ThreadId) (mutex : Nat)
  | expire (t : ThreadId)
  | dispatch (t : ThreadId)
  | preempt (t : ThreadId)
deriving DecidableEq

def CondEvent.thread : CondEvent → ThreadId
  | .run t | .wait t _ _ | .signal t _ | .lock t _ | .unlock t _ | .expire t
  | .dispatch t | .preempt t => t

/-- The call of `cv_wait` makes a new waiter. -/
def CondState.step (c : CondState) (e : CondEvent) : Option CondState :=
  (c.threads[e.thread]?).bind fun x =>
    match e with
    | .run t => if x.state = .running then c.run t x else none
    | .wait t mutex timed =>
      if x.state = .running ∧ x.pc = .user then
        some ({ c with nodes := rlnodeInit c.nodes t t }.put t fun x =>
          { x with
            pc := .waitLock, mutex := mutex, timed := timed, signalled := false, removed := false,
            returned := none, expired := false })
      else none
    | .signal t all =>
      if x.state = .running ∧ x.pc = .user then some (c.goto t (.signalLock all)) else none
    | .lock _ mutex =>
      if x.state = .running ∧ x.pc = .user ∧ c.mutexes mutex = false then
        some { c with mutexes := Function.update c.mutexes mutex true }
      else none
    | .unlock _ mutex =>
      if x.state = .running ∧ x.pc = .user then
        some { c with mutexes := Function.update c.mutexes mutex false }
      else none
    | .expire t =>
      if x.state = .stopped ∧ x.timed = true then
        some (c.put t fun x => { x with state := .ready, expired := true })
      else none
    | .dispatch t =>
      if x.state = .ready then some (c.put t fun x => { x with state := .running }) else none
    | .preempt t =>
      if x.state = .running then some (c.put t fun x => { x with state := .ready }) else none

/-- The waiter that a step examines, and whether it finds its thread `STOPPED`. -/
def CondState.examines (c : CondState) : CondEvent → Option (ThreadId × Bool)
  | .run t =>
    (c.threads[t]?).bind fun x =>
      match x.pc with
      | .wake _ w => some (w, c.finds w)
      | _ => none
  | _ => none

def bootCond (n : Nat) : CondState where
  waitset := none
  waitsetLock := none
  nodes t := ⟨t, t, t⟩
  mutexes _ := false
  threads := List.replicate n ⟨.ready, .user, 0, false, false, false, none, 0, false⟩
  entries := 0

end TinyOS
