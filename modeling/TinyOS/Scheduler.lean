import TinyOS.Lib.Transition
import TinyOS.KernelWait
import TinyOS.Rlnode
import Mathlib.Algebra.GroupWithZero.Nat

/-! The scheduler of `kernel_sched.c` on any number of cores. A step is what a core does while it
holds `sched_spinlock`, or one access to `active_threads`, or a context switch; between two steps
of a core the others may take theirs. -/

namespace TinyOS

open Transition

/-- The thread control blocks: the idle thread of a core, and the normal threads by the order
in which they are spawned. -/
inductive TcbId
  | idle (core : Nat)
  | thread (n : Nat)
deriving DecidableEq

def TcbId.normal : TcbId → Bool
  | .idle _ => false
  | .thread _ => true

inductive SchedList
  | sched
  | timeoutList
deriving DecidableEq

inductive SchedNode
  | head (l : SchedList)
  | tcb (t : TcbId)
deriving DecidableEq

inductive ThreadPhase
  | clean
  | dirty
deriving DecidableEq

abbrev noTimeout : Nat := 2 ^ 64 - 1

/-- The thread that this one is creating, while it is inside `spawn_thread`. As history,
whether `spawn_thread` has returned it, and how often `release_TCB` was applied to it. -/
structure SchedTcb where
  state : ThreadState
  phase : ThreadPhase
  wakeupTime : Nat
  spawning : Option Nat
  published : Bool
  released : Nat
deriving DecidableEq

/-- Where a core is in `yield` and `gain`; `yielding` until the next thread is selected. -/
inductive CorePc
  | running
  | yielding
  | switching (next : TcbId)
  | gaining
  | releasing
  | left
deriving DecidableEq

structure Core where
  current : TcbId
  previous : Option TcbId
  pc : CorePc

/-- An assertion has failed, or a null pointer was followed, when `aborted`. -/
structure Sched where
  cores : Nat
  core : Nat → Core
  tcb : TcbId → SchedTcb
  nodes : Heap (Option TcbId) SchedNode
  spawned : Nat
  activeThreads : Int
  spinlock : Option Nat
  aborted : Bool

def Sched.setTcb (s : Sched) (t : TcbId) (f : SchedTcb → SchedTcb) : Sched :=
  { s with tcb := Function.update s.tcb t (f (s.tcb t)) }

def Sched.setCore (s : Sched) (c : Nat) (k : Core) : Sched :=
  { s with core := Function.update s.core c k }

/-- The entry of the timeout list before which a wakeup time belongs. -/
def seekLater (s : Sched) (wakeupTime : Nat) : Nat → SchedNode → Option SchedNode
  | 0, _ => none
  | fuel + 1, n =>
    if n = .head .timeoutList then some n
    else
      (s.nodes n).obj.bind fun u =>
        if wakeupTime < (s.tcb u).wakeupTime then some n
          else seekLater s wakeupTime fuel (s.nodes n).next

def schedRegisterTimeout (s : Sched) (t : TcbId) (timeout curtime : Nat) : Option Sched :=
  if timeout ≠ noTimeout then
    let s := s.setTcb t fun x => { x with wakeupTime := (curtime + timeout) % 2 ^ 64 }
    (seekLater s (s.tcb t).wakeupTime (s.spawned + 1)
        (s.nodes (.head .timeoutList)).next).map fun n =>
      { s with nodes := rlSplice s.nodes (s.nodes n).prev (.tcb t) }
  else some s

def schedQueueAdd (s : Sched) (t : TcbId) : Sched :=
  { s with nodes := rlistPushBack s.nodes (.head .sched) (.tcb t) }

def markReady (s : Sched) (t : TcbId) : Sched :=
  let s := s.setTcb t fun x => { x with state := .ready }
  if (s.tcb t).phase = .clean then schedQueueAdd s t else s

def schedMakeReady (s : Sched) (t : TcbId) : Option Sched :=
  if (s.tcb t).state = .stopped ∨ (s.tcb t).state = .init then
    if (s.tcb t).wakeupTime ≠ noTimeout then
      if (s.nodes (.tcb t)).next ≠ .tcb t ∧ (s.tcb t).state = .stopped then
        some (markReady ({ s with nodes := rlistRemove s.nodes (.tcb t) }.setTcb t fun x =>
          { x with wakeupTime := noTimeout }) t)
      else none
    else some (markReady s t)
  else none

def schedWakeupExpiredTimeouts (curtime : Nat) : Nat → Sched → Option Sched
  | 0, _ => none
  | fuel + 1, s =>
    if isRlistEmpty s.nodes (.head .timeoutList) then some s
    else
      (s.nodes (s.nodes (.head .timeoutList)).next).obj.bind fun t =>
        if (s.tcb t).wakeupTime > curtime then some s
        else (schedMakeReady s t).bind (schedWakeupExpiredTimeouts curtime fuel)

/-- The thread that is selected, and whether it was popped from the queue. -/
def schedQueueSelect (s : Sched) (c : Nat) (current : TcbId) : Sched × TcbId × Bool :=
  let popped := rlistPopFront s.nodes (.head .sched)
  let s := { s with nodes := popped.1 }
  match (s.nodes popped.2).obj with
  | some t => (s, t, true)
  | none => (s, if (s.tcb current).state = .ready then current else .idle c, false)

def freshTcb : SchedTcb := ⟨.init, .clean, noTimeout, none, false, 0⟩

/-- `spawn_thread` up to the point where it counts the new thread. -/
def Sched.spawnThread (s : Sched) (t : TcbId) : Sched :=
  { (s.setTcb (.thread s.spawned) fun _ => freshTcb).setTcb t fun x =>
      { x with spawning := some s.spawned } with
    nodes := rlnodeInit s.nodes (.tcb (.thread s.spawned)) (some (.thread s.spawned))
    spawned := s.spawned + 1 }

def countThread (s : Sched) (t : TcbId) (n : Nat) : Sched :=
  { (s.setTcb (.thread n) fun x => { x with published := true }).setTcb t fun x =>
      { x with spawning := none } with
    activeThreads := s.activeThreads + 1 }

def wakeup (s : Sched) (t : TcbId) : Option Sched :=
  if (s.tcb t).state = .stopped ∨ (s.tcb t).state = .init then schedMakeReady s t else some s

/-- `sleep_releasing` up to its call of `yield`. -/
def sleepReleasing (s : Sched) (c : Nat) (state : ThreadState) (timeout curtime : Nat) :
    Option Sched := let t := (s.core c).current
  let s := s.setTcb t fun x => { x with state := state }
  (if state ≠ .exited then schedRegisterTimeout s t timeout curtime else some s).map fun s =>
    s.setCore c { s.core c with pc := .yielding }

def Sched.enterYield (s : Sched) (c : Nat) : Sched :=
  let t := (s.core c).current
  let s := if (s.tcb t).state = .running then s.setTcb t fun x => { x with state := .ready } else s
  s.setCore c { s.core c with pc := .yielding }

/-- The threads whose timeouts have expired are woken up before the next one is selected. -/
def yieldExpire (s : Sched) (c : Nat) (curtime : Nat) : Option Sched :=
  schedWakeupExpiredTimeouts curtime (s.spawned + 1) (s.enterYield c)

def yieldSelect (s : Sched) (c : Nat) : Sched :=
  let t := (s.core c).current
  let r := schedQueueSelect s c t
  r.1.setCore c { current := t, previous := some t, pc := if t ≠ r.2.1 then .switching r.2.1
    else .gaining }

/-- `gain`, until a thread that has exited is to be counted out. -/
def gain (s : Sched) (c : Nat) : Option Sched :=
  let k := s.core c
  let s := s.setTcb k.current fun x => { x with state := .running, phase := .dirty }
  k.previous.bind fun prev =>
    if k.current = prev then some (s.setCore c { k with pc := .running })
    else
      let s := s.setTcb prev fun x => { x with phase := .clean }
      match (s.tcb prev).state with
      | .ready =>
        some ((if prev.normal then schedQueueAdd s prev else s).setCore c { k with pc := .running })
      | .exited =>
        some ({ s.setTcb prev fun x => { x with released := x.released + 1 } with
            spinlock := some c }.setCore c
          { k with pc := .releasing })
      | .stopped => some (s.setCore c { k with pc := .running })
      | .init | .running => none

inductive SchedEvent
  | spawn (c : Nat)
  | count (c : Nat)
  | wakeup (c : Nat) (t : TcbId)
  | sleep (c : Nat) (exit : Bool) (timeout curtime : Nat)
  | yield (c : Nat) (curtime : Nat)
  | switch (c : Nat)
  | gain (c : Nat)
  | released (c : Nat)
  | leave (c : Nat)
deriving DecidableEq

def SchedEvent.core : SchedEvent → Nat
  | .spawn c | .count c | .wakeup c _ | .sleep c _ _ _ | .yield c _ | .switch c
  | .gain c | .released c
  | .leave c => c

/-- The core runs code of a thread that is not inside `spawn_thread`. -/
def Sched.free (s : Sched) (c : Nat) : Bool :=
  (s.core c).pc = .running && (s.tcb (s.core c).current).spawning = none

/-- Where `sched_spinlock` is needed, a step waits until it is free. `wakeup` is called with a
thread that `spawn_thread` has returned and that was not released. -/
def Sched.step (s : Sched) (e : SchedEvent) : Option Sched :=
  if s.aborted = true ∨ s.cores ≤ e.core then none
  else
    let t := (s.core e.core).current
    match e with
    | .spawn c => if s.free c ∧ t.normal then some (s.spawnThread t) else none
    | .count c =>
      if (s.core c).pc = .running then (s.tcb t).spawning.map (countThread s t) else none
    | .wakeup c u =>
      if s.free c ∧ s.spinlock = none ∧ (s.tcb u).published ∧ (s.tcb u).released = 0 then
        some ((TinyOS.wakeup s u).getD { s with aborted := true })
      else none
    | .sleep c exit timeout curtime =>
      if s.free c ∧ t.normal ∧ s.spinlock = none then
        some ((sleepReleasing s c (if exit then .exited else .stopped) timeout curtime).getD
          { s with aborted := true })
      else none
    | .yield c curtime =>
      if ((s.core c).pc = .running ∨ (s.core c).pc = .yielding) ∧ s.spinlock = none then
        some (((yieldExpire s c curtime).map fun s => yieldSelect s c).getD { s with
            aborted := true })
      else none
    | .switch c =>
      match (s.core c).pc with
      | .switching next => some (s.setCore c { s.core c with current := next, pc := .gaining })
      | _ => none
    | .gain c =>
      if (s.core c).pc = .gaining ∧ s.spinlock = none then
        some ((TinyOS.gain s c).getD { s with aborted := true })
      else none
    | .released c =>
      if (s.core c).pc = .releasing then
        some ({ s with activeThreads := s.activeThreads - 1, spinlock := none }.setCore c
          { s.core c with pc := .running })
      else none
    | .leave c =>
      if (s.core c).pc = .running ∧ t = .idle c ∧ s.activeThreads = 0 then
        some (s.setCore c { s.core c with pc := .left })
      else none

def emptyLists : Heap (Option TcbId) SchedNode
  | .head l => ⟨none, .head l, .head l⟩
  | .tcb t => ⟨some t, .tcb t, .tcb t⟩

/-- Every core runs its idle thread; the main thread of init has been spawned and is ready. -/
def bootSched (cores : Nat) : Sched :=
  schedQueueAdd
    { cores := cores
      core := fun c => ⟨.idle c, none, .running⟩
      tcb := fun
        | .idle _ => ⟨.running, .dirty, noTimeout, none, false, 0⟩
        | .thread n =>
          if n = 0 then { freshTcb with state := .ready, published := true } else freshTcb
      nodes := emptyLists
      spawned := 1
      activeThreads := 1
      spinlock := none
      aborted := false }
    (.thread 0)

end TinyOS
