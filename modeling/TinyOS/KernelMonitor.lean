import TinyOS.Lib.Counting
import TinyOS.Lib.Transition
import TinyOS.KernelWait

/-! The kernel lock of `kernel_cc.c`: a semaphore, implemented as a monitor with the mutex
`kernel_mutex` and the condition variable `kernel_sem_cv`. A step is one statement of one
thread; between two of them any other thread may run. -/

namespace TinyOS

open Transition

inductive Release
  | unlock
  | wait
  | sleep
deriving DecidableEq

inductive MonitorPc
  | user
  -- `kernel_lock`, and the end of `kernel_wait_wchan`
  | lock
  | test
  | taken
  -- `Cond_Wait(& kernel_mutex, &kernel_sem_cv)`
  | enter
  | push
  | unlock
  | sleep
  | asleep
  | woken
  | tidy
  | leave
  | relock
  -- `sys_*` code
  | sys
  -- `kernel_unlock`, `kernel_wait_wchan` and `kernel_sleep`
  | release (r : Release)
  | post (r : Release)
  | signal (r : Release)
  | signalling (r : Release)
  | signalled (r : Release)
  | done (r : Release)
  -- in the `cv_wait` of `kernel_wait_wchan`, `kernel_mutex` released
  | waiting
  | exited
deriving DecidableEq

/-- A thread started by `start_process_thread`, or else by `start_main_thread`, and the flags of
its `__cv_waiter`. It holds the kernel from a `kernel_sem--` to the next `kernel_sem++`. -/
structure MonitorThread where
  created : Bool
  pc : MonitorPc
  signalled : Bool
  removed : Bool
  holds : Bool
deriving DecidableEq

/-- The ring of `kernel_sem_cv` as a list, with its lock. -/
structure Monitor where
  kernelMutex : Option ThreadId
  kernelSem : Int
  waitset : List ThreadId
  waitsetLock : Option ThreadId
  threads : List MonitorThread

def Monitor.put (m : Monitor) (t : ThreadId) (f : MonitorThread → MonitorThread) : Monitor :=
  { m with threads := m.threads.modify t f }

def Monitor.goto (m : Monitor) (t : ThreadId) (pc : MonitorPc) : Monitor :=
  m.put t fun x => { x with pc := pc }

/-- `wakeup`, which finds the thread `STOPPED` or not. -/
def Monitor.wakeup (m : Monitor) (w : ThreadId) : Option Monitor :=
  if (m.threads[w]?).any (·.pc = .asleep) then some (m.goto w .woken) else none

/-- One round of the loop of `cv_signal` by thread `t`. -/
def Monitor.cvSignal (m : Monitor) (t : ThreadId) (r : Release) : Monitor :=
  match m.waitset with
  | [] => m.goto t (.signalled r)
  | w :: ws =>
    let m := { m with waitset := ws }.put w fun y => { y with removed := true }
    match m.wakeup w with
    | some m => (m.put w fun y => { y with signalled := true }).goto t (.signalled r)
    | none => m

def Monitor.run (m : Monitor) (t : ThreadId) (x : MonitorThread) : Option Monitor :=
  match x.pc with
  | .lock | .relock =>
    if m.kernelMutex = none then some ({ m with kernelMutex := some t }.goto t .test) else none
  | .test =>
    if m.kernelSem ≤ 0 then
      some (m.put t fun x => { x with pc := .enter, signalled := false, removed := false })
    else
      some ({ m with kernelSem := m.kernelSem - 1 }.put t fun x =>
        { x with pc := .taken, signalled := false, holds := true })
  | .taken => some ({ m with kernelMutex := none }.goto t .sys)
  | .enter =>
    if m.waitsetLock = none then some ({ m with waitsetLock := some t }.goto t .push) else none
  | .push => some ({ m with waitset := m.waitset ++ [t] }.goto t .unlock)
  | .unlock => some ({ m with kernelMutex := none }.goto t .sleep)
  | .sleep => some ({ m with waitsetLock := none }.goto t .asleep)
  | .woken =>
    if m.waitsetLock = none then some ({ m with waitsetLock := some t }.goto t .tidy) else none
  | .tidy => some ((if x.removed then m else { m with waitset := m.waitset.erase t }).goto t .leave)
  | .leave => some ({ m with waitsetLock := none }.goto t .relock)
  | .release r =>
    if m.kernelMutex = none then some ({ m with kernelMutex := some t }.goto t (.post r)) else none
  | .post r =>
    some ({ m with kernelSem := m.kernelSem + 1 }.put t fun x =>
      { x with pc := .signal r, holds := false })
  | .signal r =>
    if m.waitsetLock = none then some ({ m with waitsetLock := some t }.goto t (.signalling r))
      else none
  | .signalling r => some (m.cvSignal t r)
  | .signalled r => some ({ m with waitsetLock := none }.goto t (.done r))
  | .done .unlock => some ({ m with kernelMutex := none }.goto t .user)
  | .done .wait => some ({ m with kernelMutex := none }.goto t .waiting)
  | .done .sleep => some ({ m with kernelMutex := none }.goto t .exited)
  | .user | .sys | .asleep | .waiting | .exited => none

/-- A thread executes a statement, makes a system call, returns from its task; in `sys_*` code,
it gets to one of the three routines or spawns a thread; the wait on another condition
variable ends. -/
inductive MonitorEvent
  | run (t : ThreadId)
  | call (t : ThreadId)
  | taskReturn (t : ThreadId)
  | release (t : ThreadId) (r : Release)
  | spawn (t : ThreadId) (created : Bool)
  | wake (t : ThreadId)
deriving DecidableEq

def MonitorEvent.thread : MonitorEvent → ThreadId
  | .run t | .call t | .taskReturn t | .release t _ | .spawn t _ | .wake t => t

/-- `start_main_thread` calls `Exit`, `start_process_thread` calls `sys_ThreadExit`. -/
def Monitor.step (m : Monitor) (e : MonitorEvent) : Option Monitor :=
  (m.threads[e.thread]?).bind fun x =>
    match e with
    | .run t => m.run t x
    | .call t => if x.pc = .user then some (m.goto t .lock) else none
    | .taskReturn t =>
      if x.pc = .user then some (m.goto t (if x.created then .sys else .lock)) else none
    | .release t r => if x.pc = .sys then some (m.goto t (.release r)) else none
    | .spawn _ created =>
      if x.pc = .sys then
        some { m with threads := m.threads ++ [⟨created, .user, false, false, false⟩] }
      else none
    | .wake t => if x.pc = .waiting then some (m.goto t .relock) else none

def bootMonitor : Monitor where
  kernelMutex := none
  kernelSem := 1
  waitset := []
  waitsetLock := none
  threads := [⟨false, .user, false, false, false⟩]

end TinyOS
