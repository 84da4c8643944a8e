import TinyOS.KernelWakeups

/-! One thread in the kernel: the counter of the kernel semaphore and the threads that have
decremented it, over every run in which no created task returns. -/

namespace TinyOS

open Counting Transition

/-- Between `kernel_sem--` and `kernel_sem++`. -/
def MonitorPc.inside : MonitorPc → Bool
  | .taken | .sys | .release _ | .post _ => true
  | _ => false

structure Monitor.Exclusive (m : Monitor) : Prop where
  inside : ∀ (t : ThreadId) (x : MonitorThread), m.threads[t]? = some x → x.holds = x.pc.inside
  balance : m.kernelSem + m.threads.countP (·.holds) = 1
  nonneg : 0 ≤ m.kernelSem

structure Monitor.KernelExclusion (m : Monitor) : Prop where
  balance : m.kernelMutex = none → m.kernelSem + m.threads.countP (·.holds) = 1
  holder : m.kernelMutex = none → ∀ (t : ThreadId) (x : MonitorThread), m.threads[t]? = some x →
    x.pc = .sys → x.holds = true
  alone : ∀ (t t' : ThreadId) (x x' : MonitorThread), m.threads[t]? = some x →
    m.threads[t']? = some x' →
    x.pc = .sys → x'.pc = .sys → t = t'

/-- The task of a created thread returns: `start_process_thread` calls `sys_ThreadExit`, and has
not called `kernel_lock`. -/
def Monitor.ReturnsUnlocked (m : Monitor) : MonitorEvent → Bool
  | .taskReturn t => (m.threads[t]?).any (·.created)
  | _ => false

section Exclusion

variable {m m' : Monitor} {t : ThreadId} {x : MonitorThread} {g : MonitorThread → MonitorThread}

theorem bootMonitor_exclusive : bootMonitor.Exclusive := by
  refine ⟨fun t x hx => ?_, rfl, by decide⟩
  obtain ⟨hlt, rfl⟩ := List.getElem?_eq_some_iff.mp hx
  obtain rfl : t = 0 := by simpa [bootMonitor] using hlt
  rfl

/-- Thread `t` changes, and with it the counter. -/
theorem Monitor.Exclusive.move (h : m.Exclusive) (ht : m.threads[t]? = some x)
    (hthreads : m'.threads = m.threads.modify t g) (hinside : (g x).holds = (g x).pc.inside)
    (hsem : m'.kernelSem + (if (g x).pc.inside then 1 else 0) = m.kernelSem + if x.pc.inside then 1
      else 0)
    (hnonneg : 0 ≤ m'.kernelSem) : m'.Exclusive := by
  refine ⟨fun t' y hy => ?_, ?_, hnonneg⟩
  · rw [hthreads] at hy
    rcases getElem?_modify_cases hy with ⟨rfl, x', hx', rfl⟩ | ⟨-, hold⟩
    · obtain rfl : x = x' := by simpa [ht] using hx'
      exact hinside
    · exact h.inside t' y hold
  · have hcount := countP_modify (p := fun x : MonitorThread => x.holds) (f := g) ht
    have hbal := h.balance
    rw [← hinside, ← h.inside t x ht] at hsem
    rw [hthreads]
    split at hsem <;> split at hsem <;> simp_all <;> omega

/-- A statement that neither enters nor leaves the kernel. -/
theorem Monitor.Exclusive.stay (h : m.Exclusive) (ht : m.threads[t]? = some x)
    (hthreads : m'.threads = m.threads.modify t g) (hsem : m'.kernelSem = m.kernelSem)
    (hholds : (g x).holds = x.holds) (hpc : (g x).pc.inside = x.pc.inside) : m'.Exclusive := by
  refine h.move ht hthreads ?_ (by rw [hsem, hpc]) (by rw [hsem]; exact h.nonneg)
  rw [hholds, hpc]
  exact h.inside t x ht

theorem Monitor.Exclusive.signalling {r : Release} (h : m.Exclusive) (hinv : m.Inv)
    (ht : m.threads[t]? = some x) (hpc : x.pc = .signalling r) : (m.cvSignal t r).Exclusive := by
  rcases hinv.cvSignal_eq ht hpc with ⟨-, he⟩ | ⟨w, ws, y, -, hne, hy, hasleep, he⟩
  · rw [he]
    exact h.stay (g := fun x => { x with pc := .signalled r }) ht rfl rfl rfl (by rw [hpc]; rfl)
  · have hwoken : (({ m with waitset := ws } : Monitor).put w fun y =>
        { y with pc := .woken, removed := true, signalled := true }).Exclusive :=
      h.stay (g := fun y => { y with pc := .woken, removed := true, signalled := true })
        hy rfl rfl rfl
        (by rw [hasleep]; rfl)
    have htw : (m.threads.modify w fun y =>
        { y with pc := .woken, removed := true, signalled := true })[t]? = some x := by
      rw [List.getElem?_modify_ne _ _ hne]
      exact ht
    rw [he]
    exact hwoken.stay (g := fun x => { x with pc := .signalled r }) htw rfl rfl rfl
      (by rw [hpc]; rfl)

theorem Monitor.Exclusive.test (h : m.Exclusive) (ht : m.threads[t]? = some x) (hpc : x.pc = .test)
    (hs : m.run t x = some m') : m'.Exclusive := by
  simp only [Monitor.run, hpc] at hs
  split at hs
  · obtain rfl := Option.some.inj hs
    exact h.stay ht rfl rfl rfl (by rw [hpc]; rfl)
  · obtain rfl := Option.some.inj hs
    refine h.move ht rfl rfl ?_ ?_
    · simp [Monitor.put, hpc, MonitorPc.inside]
    · simp only [Monitor.put]
      omega

theorem Monitor.Exclusive.run (h : m.Exclusive) (hinv : m.Inv) (ht : m.threads[t]? = some x)
    (hs : m.run t x = some m') : m'.Exclusive := by
  cases hpc : x.pc with
  | test => exact h.test ht hpc hs
  | signalling r =>
    simp only [Monitor.run, hpc] at hs
    obtain rfl := Option.some.inj hs
    exact h.signalling hinv ht hpc
  | post r =>
    simp only [Monitor.run, hpc] at hs
    obtain rfl := Option.some.inj hs
    have hnonneg := h.nonneg
    refine h.move ht rfl rfl ?_ ?_
    · simp [Monitor.put, hpc, MonitorPc.inside]
    · simp only [Monitor.put]
      omega
  | tidy =>
    simp only [Monitor.run, hpc] at hs
    obtain rfl := Option.some.inj hs
    split
    · exact h.stay ht rfl rfl rfl (by rw [hpc]; rfl)
    · exact h.stay ht rfl rfl rfl (by rw [hpc]; rfl)
  | lock | relock | release | enter | woken | signal =>
    simp only [Monitor.run, hpc] at hs
    split at hs
    · obtain rfl := Option.some.inj hs
      exact h.stay ht rfl rfl rfl (by rw [hpc]; rfl)
    · simp at hs
  | taken | push | unlock | sleep | leave | signalled =>
    simp only [Monitor.run, hpc] at hs
    obtain rfl := Option.some.inj hs
    exact h.stay ht rfl rfl rfl (by rw [hpc]; rfl)
  | done r =>
    cases r with
    | unlock | wait | sleep =>
      simp only [Monitor.run, hpc] at hs
      obtain rfl := Option.some.inj hs
      exact h.stay ht rfl rfl rfl (by rw [hpc]; rfl)
  | _ => simp [Monitor.run, hpc] at hs

theorem Monitor.Exclusive.spawn (h : m.Exclusive) (created : Bool) :
    ({ m with threads := m.threads ++ [⟨created, .user, false, false, false⟩] } :
      Monitor).Exclusive := by
  refine ⟨fun t y hy => ?_, ?_, h.nonneg⟩
  · rcases getElem?_concat_cases hy with ⟨-, rfl⟩ | ⟨-, hold⟩
    · rfl
    · exact h.inside t y hold
  · have hbal := h.balance
    simpa [List.countP_append] using hbal

theorem Monitor.Exclusive.step {e : MonitorEvent} (h : m.Exclusive) (hinv : m.Inv)
    (hok : ¬m.ReturnsUnlocked e = true) (hs : m.step e = some m') : m'.Exclusive := by
  obtain ⟨x, ht, hs⟩ := Option.bind_eq_some_iff.mp hs
  cases e with
  | run t => exact h.run hinv ht hs
  | call t =>
    simp only at hs
    split at hs
    · rename_i hpc
      obtain rfl := Option.some.inj hs
      exact h.stay ht rfl rfl rfl (by rw [hpc]; rfl)
    · simp at hs
  | taskReturn t =>
    simp only at hs
    split at hs
    · rename_i hpc
      obtain rfl := Option.some.inj hs
      -- the condition excludes a created thread, so that the task returns into `Exit`
      have hmain : x.created = false := by
        have ht' : m.threads[t]? = some x := ht
        simpa [Monitor.ReturnsUnlocked, ht'] using hok
      rw [hmain]
      exact h.stay ht rfl rfl rfl (by rw [hpc]; rfl)
    · simp at hs
  | release t r =>
    simp only at hs
    split at hs
    · rename_i hpc
      obtain rfl := Option.some.inj hs
      exact h.stay ht rfl rfl rfl (by rw [hpc]; rfl)
    · simp at hs
  | spawn t created =>
    simp only at hs
    split at hs
    · obtain rfl := Option.some.inj hs
      exact h.spawn created
    · simp at hs
  | wake t =>
    simp only at hs
    split at hs
    · rename_i hpc
      obtain rfl := Option.some.inj hs
      exact h.stay ht rfl rfl rfl (by rw [hpc]; rfl)
    · simp at hs

theorem exclusive_of_reach
    (h : Reach Monitor.step (fun m e => ¬m.ReturnsUnlocked e = true) bootMonitor m) :
    m.Inv ∧ m.Exclusive :=
  h.invariant (I := fun m => m.Inv ∧ m.Exclusive) ⟨bootMonitor_inv, bootMonitor_exclusive⟩
    fun _ _ _ hi hok hs => ⟨hi.1.step hs, hi.2.step hi.1 hok hs⟩

theorem Monitor.Exclusive.kernelExclusion (h : m.Exclusive) : m.KernelExclusion := by
  have hholds : ∀ (t : ThreadId) (x : MonitorThread), m.threads[t]? = some x →
      x.pc = .sys → x.holds = true := by
    intro t x hx hpc
    rw [h.inside t x hx, hpc]
    rfl
  refine ⟨fun _ => h.balance, fun _ => hholds, fun t t' x x' hx hx' hpc hpc' => ?_⟩
  by_contra hne
  have htwo := two_le_countP (p := fun x : MonitorThread => x.holds) hne hx hx' (hholds t x hx hpc)
    (hholds t' x' hx' hpc')
  have hbal := h.balance
  have hnonneg := h.nonneg
  omega

/-- While no created task returns, one thread at a time is in the kernel; when one does, it
executes `sys_ThreadExit` without the kernel. -/
theorem kernel_exclusion
    (h : Reach Monitor.step (fun m e => ¬m.ReturnsUnlocked e = true) bootMonitor m) :
    m.KernelExclusion ∧ ∀ e m', m.ReturnsUnlocked e = true → m.step e = some m' →
      ∃ x, m'.threads[e.thread]? = some x ∧ x.pc = .sys ∧ x.holds = false := by
  obtain ⟨-, hexcl⟩ := exclusive_of_reach h
  refine ⟨hexcl.kernelExclusion, fun e m' hret hs => ?_⟩
  obtain ⟨x, ht, hs⟩ := Option.bind_eq_some_iff.mp hs
  cases e with
  | taskReturn t =>
    have ht : m.threads[t]? = some x := ht
    have hcreated : x.created = true := by simpa [Monitor.ReturnsUnlocked, ht] using hret
    simp only [hcreated, if_true] at hs
    split at hs
    · rename_i hpc
      obtain rfl := Option.some.inj hs
      refine ⟨{ x with pc := .sys }, getElem?_modify_self ht, rfl, ?_⟩
      show x.holds = false
      rw [hexcl.inside t x ht, hpc]
      rfl
    · simp at hs
  | _ => simp [Monitor.ReturnsUnlocked] at hret

end Exclusion

def contendedRun : List MonitorEvent :=
  [.call 0, .run 0, .run 0, .run 0, .spawn 0 true] ++
  [.call 1, .run 1, .run 1, .run 1, .run 1, .run 1, .run 1]

theorem kernel_exclusion_contended : ∃ m,
    Reach Monitor.step (fun m e => ¬m.ReturnsUnlocked e = true) bootMonitor m ∧ m.waitset = [1] ∧
      m.KernelExclusion := by
  obtain ⟨m, hm, hp⟩ := exists_reach_of_guarded Monitor.step
    (fun m e => !m.ReturnsUnlocked e) bootMonitor
    contendedRun (fun m => m.waitset = [1]) (by decide)
  have hm' : Reach Monitor.step (fun m e => ¬m.ReturnsUnlocked e = true) bootMonitor m :=
    hm.mono fun u e hok => by simpa using hok
  exact ⟨m, hm', by simpa using hp, (kernel_exclusion hm').1⟩

/-- Thread 0 is in the kernel, the task of thread 1 returns, and `kernel_sleep` increments the
counter that thread 0 has decremented; thread 2 then gets into the kernel too. -/
def intrudedRun : List MonitorEvent :=
  [.call 0, .run 0, .run 0, .run 0, .spawn 0 true, .spawn 0 true] ++
  [.taskReturn 1, .release 1 .sleep, .run 1, .run 1, .run 1, .run 1, .run 1, .run 1] ++
  [.call 2, .run 2, .run 2, .run 2]

/-- Threads 0 and 2 both execute `sys_*` code, and the counter does not account for them. -/
def Monitor.intruded (m : Monitor) : Bool :=
  m.kernelMutex = none && (m.threads[0]?).any (·.pc = .sys) && (m.threads[2]?).any (·.pc = .sys) &&
    m.kernelSem + m.threads.countP (·.holds) = 2

theorem taskReturn_intrudes : ∃ m, Reach Monitor.step Always bootMonitor m ∧ ¬m.KernelExclusion ∧
    m.intruded = true := by
  obtain ⟨m, hm, hp⟩ := exists_reach_of_exec Monitor.step bootMonitor intrudedRun Monitor.intruded
    (by decide)
  refine ⟨m, hm, fun hexcl => ?_, hp⟩
  simp only [Monitor.intruded, Bool.and_eq_true, decide_eq_true_eq] at hp
  have hbal := hexcl.balance hp.1.1.1
  omega

end TinyOS
