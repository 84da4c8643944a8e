import TinyOS.KernelMonitor
import TinyOS.Lib.Locks

/-! The kernel semaphore strands no waiter: while threads sleep in the ring of `kernel_sem_cv`,
as many have been told as may pass. -/

namespace TinyOS

open Counting Transition

def MonitorPc.inMutex : MonitorPc → Bool
  | .test | .taken | .enter | .push | .unlock | .post _ | .signal _ | .signalling _
  | .signalled _ | .done _ => true
  | _ => false

def MonitorPc.inWaitset : MonitorPc → Bool
  | .push | .unlock | .sleep | .tidy | .leave | .signalling _ | .signalled _ => true
  | _ => false

def MonitorPc.queued : MonitorPc → Bool
  | .unlock | .sleep | .asleep => true
  | _ => false

/-- On the way from being signalled to the next test of `kernel_sem`. -/
def MonitorPc.told : MonitorPc → Bool
  | .woken | .tidy | .leave | .relock | .test => true
  | _ => false

def MonitorPc.refused : MonitorPc → Bool
  | .enter | .push => true
  | _ => false

/-- It has incremented `kernel_sem` and not signalled yet. -/
def MonitorPc.owes : MonitorPc → Bool
  | .signal _ | .signalling _ => true
  | _ => false

structure Monitor.LocalOk (m : Monitor) (t : ThreadId) (x : MonitorThread) : Prop where
  mutex : m.kernelMutex = some t ↔ x.pc.inMutex = true
  lock : m.waitsetLock = some t ↔ x.pc.inWaitset = true
  queue : t ∈ m.waitset ↔ x.pc.queued = true
  told : x.signalled = true → x.pc.told = true
  out : x.pc = .woken ∨ x.pc = .tidy → x.removed = true
  full : x.pc.refused = true → m.kernelSem ≤ 0

/-- The threads that may pass are told, or will be by the holder of the mutex. -/
def Monitor.AllTold (m : Monitor) : Prop :=
  m.waitset ≠ [] → m.kernelSem ≤ m.threads.countP (·.signalled) + m.threads.countP (·.pc.owes)

structure Monitor.Inv (m : Monitor) : Prop where
  locals : ∀ t x, m.threads[t]? = some x → m.LocalOk t x
  owner : ∀ t, m.kernelMutex = some t → t < m.threads.length
  locker : ∀ t, m.waitsetLock = some t → t < m.threads.length
  waiters : ∀ t ∈ m.waitset, t < m.threads.length
  nodup : m.waitset.Nodup
  told : m.AllTold

section Wakeups

variable {m m' : Monitor} {t w : ThreadId} {x y : MonitorThread} {g : MonitorThread → MonitorThread}

theorem bootMonitor_inv : bootMonitor.Inv := by
  refine ⟨fun t x hx => ?_, fun t ht => ?_, fun t ht => ?_, fun t ht => ?_,
    List.nodup_nil, fun hne => absurd rfl hne⟩
  · obtain ⟨hlt, rfl⟩ := List.getElem?_eq_some_iff.mp hx
    obtain rfl : t = 0 := by simpa [bootMonitor] using hlt
    exact ⟨by simp [bootMonitor, MonitorPc.inMutex], by simp [bootMonitor, MonitorPc.inWaitset],
      by simp [bootMonitor, MonitorPc.queued], by simp [bootMonitor], by simp [bootMonitor],
      by simp [bootMonitor, MonitorPc.refused]⟩
  · simp [bootMonitor] at ht
  · simp [bootMonitor] at ht
  · simp [bootMonitor] at ht

/-- A statement of thread `t` that changes no other thread. -/
theorem Monitor.Inv.move (h : m.Inv) (ht : m.threads[t]? = some x)
    (hthreads : m'.threads = m.threads.modify t g)
    (hmutex : ∀ t', t' ≠ t → (m'.kernelMutex = some t' ↔ m.kernelMutex = some t'))
    (hlock : ∀ t', t' ≠ t → (m'.waitsetLock = some t' ↔ m.waitsetLock = some t'))
    (hqueue : ∀ t', t' ≠ t → (t' ∈ m'.waitset ↔ t' ∈ m.waitset))
    (hsem : m'.kernelSem = m.kernelSem ∨ x.pc.inMutex = true) (hlocal : m'.LocalOk t (g x))
    (hnodup : m'.waitset.Nodup) (htold : m'.AllTold) : m'.Inv := by
  have hlen : m'.threads.length = m.threads.length := by rw [hthreads, List.length_modify]
  have hlt : t < m.threads.length := (List.getElem?_eq_some_iff.mp ht).1
  refine ⟨fun t' y hy => ?_, fun t' ht' => ?_, fun t' ht' => ?_, fun t' ht' => ?_, hnodup, htold⟩
  · rw [hthreads] at hy
    rcases getElem?_modify_cases hy with ⟨rfl, x', hx', rfl⟩ | ⟨hne, hold⟩
    · obtain rfl : x = x' := by simpa [ht] using hx'
      exact hlocal
    · have hloc := h.locals t' y hold
      refine ⟨(hmutex t' hne).trans hloc.mutex, (hlock t' hne).trans hloc.lock,
        (hqueue t' hne).trans hloc.queue,
        hloc.told, hloc.out, fun hr => ?_⟩
      rcases hsem with hs | hin
      · rw [hs]
        exact hloc.full hr
      · have hheld := (h.locals t x ht).mutex.mpr hin
        have hin' : y.pc.inMutex = true := by
          cases hpc : y.pc <;> simp [hpc, MonitorPc.refused, MonitorPc.inMutex] at hr ⊢
        have hheld' := hloc.mutex.mpr hin'
        rw [hheld] at hheld'
        exact absurd (Option.some.inj hheld').symm hne
  · rw [hlen]
    by_cases hne : t' = t
    · exact hne ▸ hlt
    · exact h.owner t' ((hmutex t' hne).mp ht')
  · rw [hlen]
    by_cases hne : t' = t
    · exact hne ▸ hlt
    · exact h.locker t' ((hlock t' hne).mp ht')
  · rw [hlen]
    by_cases hne : t' = t
    · exact hne ▸ hlt
    · exact h.waiters t' ((hqueue t' hne).mp ht')

/-- The balance of what is told and owed, when only thread `t` changes. -/
theorem Monitor.AllTold.move (h : m.AllTold) (ht : m.threads[t]? = some x)
    (hthreads : m'.threads = m.threads.modify t g) (hwait : m'.waitset ≠ [] → m.waitset ≠ [])
    (hsem : m'.kernelSem + (if x.signalled then 1 else 0) + (if x.pc.owes then 1 else 0) ≤
      m.kernelSem + (if (g x).signalled then 1 else 0) + (if (g x).pc.owes then 1 else 0)) :
        m'.AllTold := by
  intro hne
  have hle := h (hwait hne)
  have hsig := countP_modify (p := fun x : MonitorThread => x.signalled) (f := g) ht
  have howe := countP_modify (p := fun x : MonitorThread => x.pc.owes) (f := g) ht
  rw [hthreads]
  split at hsem <;> split at hsem <;> split at hsem <;> split at hsem <;> simp_all <;> omega

/-- A statement that takes or gives back locks and changes nothing else. -/
theorem Monitor.Inv.goto {pc : MonitorPc} {a b : Option ThreadId} (h : m.Inv)
    (ht : m.threads[t]? = some x) (hmutex : Locks.Move t m.kernelMutex a x.pc.inMutex pc.inMutex)
    (hlock : Locks.Move t m.waitsetLock b x.pc.inWaitset pc.inWaitset)
    (hqueue : pc.queued = x.pc.queued)
    (htold : x.pc.told = true → pc.told = true) (hout : pc = .woken ∨ pc = .tidy → x.removed = true)
    (hfull : pc.refused = true → x.pc.refused = true) (howes : pc.owes = x.pc.owes) :
    (({ m with kernelMutex := a, waitsetLock := b } : Monitor).goto t pc).Inv := by
  have hloc := h.locals t x ht
  refine h.move (g := fun x => { x with pc := pc }) ht rfl
    (fun _ hne => hmutex.other hloc.mutex hne)
    (fun _ hne => hlock.other hloc.lock hne) (fun _ _ => .rfl) (.inl rfl)
    ⟨hmutex.mine hloc.mutex, hlock.mine hloc.lock, ?_, fun hs => htold (hloc.told hs), hout,
      fun hr => hloc.full (hfull hr)⟩ h.nodup (h.told.move ht rfl id ?_)
  · exact hloc.queue.trans (by rw [hqueue])
  · simp [Monitor.goto, Monitor.put, howes]

theorem Monitor.Inv.push (h : m.Inv) (ht : m.threads[t]? = some x) (hpc : x.pc = .push) :
    (({ m with waitset := m.waitset ++ [t] } : Monitor).goto t .unlock).Inv := by
  have hloc := h.locals t x ht
  have hsem : m.kernelSem ≤ 0 := hloc.full (by rw [hpc]; rfl)
  have hnot : t ∉ m.waitset := by
    rw [hloc.queue, hpc]
    simp [MonitorPc.queued]
  refine h.move (g := fun x => { x with pc := .unlock }) ht rfl (fun _ _ => .rfl) (fun _ _ => .rfl)
    (fun t' hne => ?_) (.inl rfl) ⟨?_, ?_, ?_, fun hs => ?_, by simp, fun hr => ?_⟩ ?_ fun _ => ?_
  · simp [Monitor.goto, Monitor.put, hne]
  · exact hloc.mutex.trans (by rw [hpc]; rfl)
  · exact hloc.lock.trans (by rw [hpc]; rfl)
  · simp [Monitor.goto, Monitor.put, MonitorPc.queued]
  · have htold := hloc.told hs
    rw [hpc] at htold
    simp [MonitorPc.told] at htold
  · simp [MonitorPc.refused] at hr
  · refine List.nodup_append.mpr ⟨h.nodup, by simp, fun a ha b hb hab => ?_⟩
    obtain rfl := List.mem_singleton.mp hb
    exact hnot (hab ▸ ha)
  · exact Int.le_trans hsem (by omega)

theorem Monitor.Inv.test (h : m.Inv) (ht : m.threads[t]? = some x) (hpc : x.pc = .test) :
    (m.kernelSem ≤ 0 →
      (m.put t fun x => { x with pc := .enter, signalled := false, removed := false }).Inv) ∧
    (¬m.kernelSem ≤ 0 → (({ m with kernelSem := m.kernelSem - 1 } : Monitor).put t fun x =>
      { x with pc := .taken, signalled := false, holds := true }).Inv) := by
  have hloc := h.locals t x ht
  have hmutex := hloc.mutex
  have hlock := hloc.lock
  have hqueue := hloc.queue
  rw [hpc] at hmutex hlock hqueue
  constructor
  · intro hsem
    refine h.move (g := fun x => { x with pc := .enter, signalled := false, removed := false })
      ht rfl
      (fun _ _ => .rfl) (fun _ _ => .rfl) (fun _ _ => .rfl) (.inl rfl)
      ⟨hmutex, hlock, hqueue, by simp, by simp, fun _ => hsem⟩ h.nodup fun _ => ?_
    exact Int.le_trans hsem (by omega)
  · intro hsem
    refine h.move (g := fun x => { x with pc := .taken, signalled := false, holds := true }) ht rfl
      (fun _ _ => .rfl) (fun _ _ => .rfl) (fun _ _ => .rfl) (.inr (by rw [hpc]; rfl))
      ⟨hmutex, hlock, hqueue, by simp, by simp, by simp [MonitorPc.refused]⟩ h.nodup ?_
    refine h.told.move ht rfl id ?_
    simp only [Monitor.put, hpc, MonitorPc.owes]
    split <;> simp only [Bool.false_eq_true, if_false] <;> omega

theorem Monitor.Inv.post {r : Release} (h : m.Inv) (ht : m.threads[t]? = some x)
    (hpc : x.pc = .post r) :
    (({ m with kernelSem := m.kernelSem + 1 } : Monitor).put t fun x =>
      { x with pc := .signal r, holds := false }).Inv := by
  have hloc := h.locals t x ht
  have hmutex := hloc.mutex
  have hlock := hloc.lock
  have hqueue := hloc.queue
  have htold := hloc.told
  rw [hpc] at hmutex hlock hqueue htold
  refine h.move (g := fun x => { x with pc := .signal r, holds := false }) ht rfl (fun _ _ => .rfl)
    (fun _ _ => .rfl) (fun _ _ => .rfl) (.inr (by rw [hpc]; rfl))
    ⟨hmutex, hlock, hqueue, htold, by simp, by simp [MonitorPc.refused]⟩ h.nodup ?_
  refine h.told.move ht rfl id ?_
  simp only [Monitor.put, hpc, MonitorPc.owes]
  split <;> simp

theorem getElem?_modify_self {α : Type*} {l : List α} {i : Nat} {a : α}
    {f : α → α} (hi : l[i]? = some a) :
    (l.modify i f)[i]? = some (f a) := by
  rw [List.getElem?_modify_eq, hi]
  rfl

/-- With the `waitset_lock` held by the signalling thread, every waiter in the ring sleeps. -/
theorem Monitor.Inv.asleep {r : Release} (h : m.Inv) (ht : m.threads[t]? = some x)
    (hpc : x.pc = .signalling r)
    (hw : w ∈ m.waitset) : w ≠ t ∧ ∃ y, m.threads[w]? = some y ∧ y.pc = .asleep := by
  have hloc := h.locals t x ht
  have hin : x.pc.inWaitset = true := by rw [hpc]; rfl
  obtain ⟨y, hy⟩ : ∃ y, m.threads[w]? = some y := ⟨_, List.getElem?_eq_getElem (h.waiters w hw)⟩
  have hlocw := h.locals w y hy
  have hqueued := hlocw.queue.mp hw
  have hne : w ≠ t := by
    rintro rfl
    obtain rfl : x = y := by simpa [ht] using hy
    rw [hpc] at hqueued
    simp [MonitorPc.queued] at hqueued
  refine ⟨hne, y, hy, ?_⟩
  cases hwpc : y.pc <;> simp only [hwpc, MonitorPc.queued, Bool.false_eq_true] at hqueued
  · exact absurd (Locks.exclusive hlocw.lock hloc.lock (by rw [hwpc]; rfl) hin) hne
  · exact absurd (Locks.exclusive hlocw.lock hloc.lock (by rw [hwpc]; rfl) hin) hne
  · rfl

/-- `cv_signal` wakes the first waiter, if there is one. -/
theorem Monitor.Inv.cvSignal_eq {r : Release} (h : m.Inv) (ht : m.threads[t]? = some x)
    (hpc : x.pc = .signalling r) :
    (m.waitset = [] ∧ m.cvSignal t r = m.goto t (.signalled r)) ∨ ∃ w ws y,
    m.waitset = w :: ws ∧ w ≠ t ∧
      m.threads[w]? = some y ∧ y.pc = .asleep ∧
      m.cvSignal t r = (({ m with waitset := ws } : Monitor).put w fun y =>
        { y with pc := .woken, removed := true, signalled := true }).goto t (.signalled r) := by
  unfold Monitor.cvSignal
  cases hring : m.waitset with
  | nil => exact .inl ⟨rfl, rfl⟩
  | cons w ws =>
    obtain ⟨hne, y, hy, hasleep⟩ := h.asleep ht hpc (w := w)
      (by rw [hring]; exact List.mem_cons_self)
    have hstopped : (((({ m with waitset := ws } : Monitor).put w fun y =>
        { y with removed := true }).threads[w]?).any (·.pc = .asleep)) = true := by
      have hget : (({ m with waitset := ws } : Monitor).put w fun y =>
        { y with removed := true }).threads[w]? =
          some { y with removed := true } := getElem?_modify_self hy
      rw [hget]
      simp [hasleep]
    refine .inr ⟨w, ws, y, rfl, hne, hy, hasleep, ?_⟩
    simp only [Monitor.wakeup, hstopped, if_true]
    simp only [Monitor.goto, Monitor.put, List.modify_modify_eq]
    rfl

theorem Monitor.Inv.signalling {r : Release} (h : m.Inv) (ht : m.threads[t]? = some x)
    (hpc : x.pc = .signalling r) : (m.cvSignal t r).Inv := by
  have hloc := h.locals t x ht
  rcases h.cvSignal_eq ht hpc with ⟨hempty, he⟩ | ⟨w, ws, y, hring, hne, hy, hasleep, he⟩
  · have hmutex := hloc.mutex
    have hlock := hloc.lock
    have hqueue := hloc.queue
    have htold := hloc.told
    rw [hpc] at hmutex hlock hqueue htold
    rw [he]
    refine h.move (g := fun x => { x with pc := .signalled r }) ht rfl
      (fun _ _ => .rfl) (fun _ _ => .rfl)
      (fun _ _ => .rfl) (.inl rfl)
      ⟨hmutex, hlock, hqueue, htold, by simp, by simp [MonitorPc.refused]⟩ h.nodup
      fun hring => absurd hempty hring
  · have hlocw := h.locals w y hy
    have hmutexw := hlocw.mutex
    have hlockw := hlocw.lock
    rw [hasleep] at hmutexw hlockw
    have hnd : (w :: ws).Nodup := by
      rw [← hring]
      exact h.nodup
    have hwws : w ∉ ws := (List.nodup_cons.mp hnd).1
    have hsig : y.signalled = false := by
      by_contra hs
      have htold := hlocw.told (by simpa using hs)
      rw [hasleep] at htold
      simp [MonitorPc.told] at htold
    -- first the waiter leaves the ring, then the signalling thread goes on
    have hmid : ∀ t' z, (({ m with waitset := ws } : Monitor).put w fun y =>
        { y with pc := .woken, removed := true, signalled := true }).threads[t']? = some z →
        (({ m with waitset := ws } : Monitor).put w fun y =>
          { y with pc := .woken, removed := true, signalled := true }).LocalOk t' z := by
      intro t' z hz
      rcases getElem?_modify_cases hz with ⟨rfl, y', hy', rfl⟩ | ⟨hne', hold⟩
      · exact ⟨hmutexw, hlockw, by simpa [Monitor.put, MonitorPc.queued] using hwws,
          fun _ => rfl, fun _ => rfl,
          by simp [MonitorPc.refused]⟩
      · have hlocz := h.locals t' z hold
        refine ⟨hlocz.mutex, hlocz.lock, ?_, hlocz.told, hlocz.out, hlocz.full⟩
        rw [← hlocz.queue, hring, List.mem_cons, or_iff_right hne']
        rfl
    have hgain := countP_modify_gain (p := fun x : MonitorThread => x.signalled)
      (f := fun y => { y with pc := .woken, removed := true, signalled := true }) hy hsig rfl
    have howes := countP_modify_same (p := fun x : MonitorThread => x.pc.owes)
      (f := fun y => { y with pc := .woken, removed := true, signalled := true }) hy
      (by rw [hasleep]; rfl)
    have hle := h.told (by rw [hring]; exact List.cons_ne_nil w ws)
    rw [he]
    have htM : (({ m with waitset := ws } : Monitor).put w fun y =>
        { y with pc := .woken, removed := true, signalled := true }).threads[t]? = some x := by
      show (m.threads.modify w _)[t]? = some x
      rw [List.getElem?_modify_ne _ _ hne]
      exact ht
    generalize hM : (({ m with waitset := ws } : Monitor).put w fun y =>
      { y with pc := .woken, removed := true, signalled := true }) = M at hmid htM
    have hsem : M.kernelSem = m.kernelSem := by rw [← hM]; rfl
    have hwait : M.waitset = ws := by rw [← hM]; rfl
    have hlen : M.threads.length = m.threads.length := by
      rw [← hM]
      exact List.length_modify ..
    have hsigM : M.threads.countP (·.signalled) = m.threads.countP (·.signalled) + 1 := by
      rw [← hM]
      exact hgain
    have howesM : M.threads.countP (·.pc.owes) = m.threads.countP (·.pc.owes) := by
      rw [← hM]
      exact howes
    have hinv : M.Inv := by
      refine ⟨hmid, fun t' ht' => ?_, fun t' ht' => ?_, fun t' ht' => ?_, ?_, fun _ => ?_⟩
      · rw [hlen]
        exact h.owner t' (by rw [← ht', ← hM]; rfl)
      · rw [hlen]
        exact h.locker t' (by rw [← ht', ← hM]; rfl)
      · rw [hwait] at ht'
        rw [hlen]
        exact h.waiters t' (by rw [hring]; exact List.mem_cons_of_mem _ ht')
      · rw [hwait]
        exact (List.nodup_cons.mp hnd).2
      · omega
    have hlocM := hmid t x htM
    have hmutex := hlocM.mutex
    have hlock := hlocM.lock
    have hqueue := hlocM.queue
    have htold := hlocM.told
    rw [hpc] at hmutex hlock hqueue htold
    refine hinv.move (g := fun x => { x with pc := .signalled r }) htM rfl
      (fun _ _ => .rfl) (fun _ _ => .rfl)
      (fun _ _ => .rfl) (.inl rfl)
      ⟨hmutex, hlock, hqueue, htold, by simp, by simp [MonitorPc.refused]⟩ hinv.nodup
      fun _ => ?_
    have hlose := countP_modify_lose (p := fun x : MonitorThread => x.pc.owes)
      (f := fun x => { x with pc := .signalled r }) htM (by rw [hpc]; rfl) rfl
    have hsame := countP_modify_same (p := fun x : MonitorThread => x.signalled)
      (f := fun x => { x with pc := .signalled r }) htM rfl
    show M.kernelSem ≤ ((M.threads.modify t _).countP _ : Nat) +
      ((M.threads.modify t _).countP _ : Nat)
    omega

theorem Monitor.Inv.run (h : m.Inv) (ht : m.threads[t]? = some x) (hs : m.run t x = some m') :
    m'.Inv := by
  have hloc := h.locals t x ht
  cases hpc : x.pc with
  | lock | relock | release =>
    simp only [Monitor.run, hpc] at hs
    split at hs
    · rename_i hfree
      obtain rfl := Option.some.inj hs
      refine h.goto ht ?_ ?_ (by rw [hpc]; rfl) (by simp [hpc, MonitorPc.told]) (by simp)
        (by simp [MonitorPc.refused]) (by rw [hpc]; rfl)
      · rw [hfree, hpc]
        exact .take
      · rw [hpc]
        exact .keep _ _
    · simp at hs
  | enter | woken | signal =>
    simp only [Monitor.run, hpc] at hs
    split at hs
    · rename_i hfree
      obtain rfl := Option.some.inj hs
      refine h.goto ht ?_ ?_ (by rw [hpc]; rfl) (by simp [hpc, MonitorPc.told])
        (by simp [hpc, hloc.out]) (by simp [hpc, MonitorPc.refused]) (by rw [hpc]; rfl)
      · rw [hpc]
        exact .keep _ _
      · rw [hfree, hpc]
        exact .take
    · simp at hs
  | taken | unlock =>
    simp only [Monitor.run, hpc] at hs
    obtain rfl := Option.some.inj hs
    refine h.goto ht ?_ ?_ (by rw [hpc]; rfl) (by simp [hpc, MonitorPc.told]) (by simp)
      (by simp [MonitorPc.refused]) (by rw [hpc]; rfl)
    · rw [hpc]
      exact .give _
    · rw [hpc]
      exact .keep _ _
  | done r =>
    cases r <;>
    · simp only [Monitor.run, hpc] at hs
      obtain rfl := Option.some.inj hs
      refine h.goto ht ?_ ?_ (by rw [hpc]; rfl) (by simp [hpc, MonitorPc.told]) (by simp)
        (by simp [MonitorPc.refused]) (by rw [hpc]; rfl)
      · rw [hpc]
        exact .give _
      · rw [hpc]
        exact .keep _ _
  | sleep | leave | signalled =>
    simp only [Monitor.run, hpc] at hs
    obtain rfl := Option.some.inj hs
    refine h.goto ht ?_ ?_ (by rw [hpc]; rfl) (by simp [hpc, MonitorPc.told]) (by simp)
      (by simp [MonitorPc.refused]) (by rw [hpc]; rfl)
    · rw [hpc]
      exact .keep _ _
    · rw [hpc]
      exact .give _
  | tidy =>
    -- the signalling thread has taken the waiter out of the ring
    simp only [Monitor.run, hpc, hloc.out (.inr hpc), if_true] at hs
    obtain rfl := Option.some.inj hs
    refine h.goto ht ?_ ?_ (by rw [hpc]; rfl) (by simp [MonitorPc.told]) (by simp)
      (by simp [MonitorPc.refused]) (by rw [hpc]; rfl)
    · rw [hpc]
      exact .keep _ _
    · rw [hpc]
      exact .keep _ _
  | test =>
    simp only [Monitor.run, hpc] at hs
    split at hs
    · rename_i hsem
      obtain rfl := Option.some.inj hs
      exact (h.test ht hpc).1 hsem
    · rename_i hsem
      obtain rfl := Option.some.inj hs
      exact (h.test ht hpc).2 hsem
  | push =>
    simp only [Monitor.run, hpc] at hs
    obtain rfl := Option.some.inj hs
    exact h.push ht hpc
  | post r =>
    simp only [Monitor.run, hpc] at hs
    obtain rfl := Option.some.inj hs
    exact h.post ht hpc
  | signalling r =>
    simp only [Monitor.run, hpc] at hs
    obtain rfl := Option.some.inj hs
    exact h.signalling ht hpc
  | _ => simp [Monitor.run, hpc] at hs

theorem Monitor.Inv.spawn (h : m.Inv) (created : Bool) :
    ({ m with threads := m.threads ++ [⟨created, .user, false, false, false⟩] } : Monitor).Inv := by
  have hnew : ∀ {o : Option ThreadId}, (∀ t, o = some t → t < m.threads.length) →
      o ≠ some m.threads.length :=
    fun hlt he => absurd (hlt _ he) (Nat.lt_irrefl _)
  have hlen : ∀ {t : Nat}, t < m.threads.length →
      t < (m.threads ++ [(⟨created, .user, false, false, false⟩ : MonitorThread)]).length := by
    intro t ht
    rw [List.length_append]
    omega
  refine ⟨fun t y hy => ?_, fun t ht => hlen (h.owner t ht), fun t ht => hlen (h.locker t ht),
    fun t ht => hlen (h.waiters t ht), h.nodup, fun hne => ?_⟩
  · rcases getElem?_concat_cases hy with ⟨rfl, rfl⟩ | ⟨-, hold⟩
    · refine ⟨?_, ?_, ?_, by simp, by simp, by simp [MonitorPc.refused]⟩
      · simpa [MonitorPc.inMutex] using hnew h.owner
      · simpa [MonitorPc.inWaitset] using hnew h.locker
      · simpa [MonitorPc.queued] using fun hm => absurd (h.waiters _ hm) (Nat.lt_irrefl _)
    · have hloc := h.locals t y hold
      exact ⟨hloc.mutex, hloc.lock, hloc.queue, hloc.told, hloc.out, hloc.full⟩
  · have hle := h.told hne
    simpa [List.countP_append, MonitorPc.owes] using hle

theorem Monitor.Inv.step {e : MonitorEvent} (h : m.Inv) (hs : m.step e = some m') : m'.Inv := by
  obtain ⟨x, ht, hs⟩ := Option.bind_eq_some_iff.mp hs
  have hgo : ∀ {t : ThreadId} {pc pc' : MonitorPc}, m.threads[t]? = some x → x.pc = pc →
      pc'.inMutex = pc.inMutex → pc'.inWaitset = pc.inWaitset → pc'.queued = pc.queued →
        pc.told = false → pc' ≠ .woken ∧ pc' ≠ .tidy → pc'.refused = false →
        pc'.owes = pc.owes → (m.goto t pc').Inv := by
    intro t pc pc' ht hpc hmutex hlock hqueue htold hout hfull howes
    subst hpc
    refine h.goto ht ?_ ?_ hqueue (fun hy => ?_) (fun ho => absurd ho (not_or.mpr hout))
      (fun hr => ?_) howes
    · rw [hmutex]
      exact .keep _ _
    · rw [hlock]
      exact .keep _ _
    · rw [htold] at hy
      simp at hy
    · rw [hfull] at hr
      simp at hr
  cases e with
  | run t => exact h.run ht hs
  | call t =>
    simp only at hs
    split at hs
    · rename_i hpc
      obtain rfl := Option.some.inj hs
      exact hgo ht hpc rfl rfl rfl rfl (by simp) rfl rfl
    · simp at hs
  | taskReturn t =>
    simp only at hs
    split at hs
    · rename_i hpc
      obtain rfl := Option.some.inj hs
      cases x.created <;> exact hgo ht hpc rfl rfl rfl rfl (by simp) rfl rfl
    · simp at hs
  | release t r =>
    simp only at hs
    split at hs
    · rename_i hpc
      obtain rfl := Option.some.inj hs
      exact hgo ht hpc rfl rfl rfl rfl (by simp) rfl rfl
    · simp at hs
  | spawn t created =>
    simp only at hs
    split at hs
    · obtain rfl := Option.some.inj hs
      exact h.spawn created
    · simp at hs
  | wake t =>
    simp only at hs
    split at hs
    · rename_i hpc
      obtain rfl := Option.some.inj hs
      exact hgo ht hpc rfl rfl rfl rfl (by simp) rfl rfl
    · simp at hs

theorem monitor_inv_of_reach (h : Reach Monitor.step Always bootMonitor m) : m.Inv :=
  h.invariant (I := Monitor.Inv) bootMonitor_inv fun _ _ _ hi _ hs => hi.step hs

/-- A thread that owes a signal holds the mutex. -/
theorem Monitor.Inv.owes_zero (h : m.Inv) (hfree : m.kernelMutex = none) :
    m.threads.countP (·.pc.owes) = 0 := by
  rw [List.countP_eq_zero]
  intro x hx howes
  obtain ⟨t, ht⟩ := List.mem_iff_getElem?.mp hx
  have hin : x.pc.inMutex = true := by
    cases hpc : x.pc <;> simp [hpc, MonitorPc.owes, MonitorPc.inMutex] at howes ⊢
  have hheld := (h.locals t x ht).mutex.mpr hin
  rw [hfree] at hheld
  simp at hheld

/-- While the mutex is free and threads are in the ring of `kernel_sem_cv`, at least `kernel_sem`
threads have been signalled and have not tested it yet. -/
theorem kernel_sem_strands_no_waiter (h : Reach Monitor.step Always bootMonitor m)
    (hfree : m.kernelMutex = none)
    (hring : m.waitset ≠ []) :
    m.kernelSem ≤ m.threads.countP (·.signalled) ∧
      (0 < m.kernelSem → ∃ (t : ThreadId) (x : MonitorThread),
        m.threads[t]? = some x ∧ x.signalled = true ∧
        x.pc.told = true) := by
  have hinv := monitor_inv_of_reach h
  have hle := hinv.told hring
  rw [hinv.owes_zero hfree] at hle
  refine ⟨by simpa using hle, fun hpos => ?_⟩
  have hsome : 0 < m.threads.countP (·.signalled) := by omega
  obtain ⟨x, hx, hs⟩ := List.countP_pos_iff.mp hsome
  obtain ⟨t, ht⟩ := List.mem_iff_getElem?.mp hx
  exact ⟨t, x, ht, hs, (hinv.locals t x ht).told hs⟩

end Wakeups

/-- One thread in the kernel, a second and a third asleep in the ring, and the first has just
given the kernel back. -/
def strandedRun : List MonitorEvent :=
  [.call 0, .run 0, .run 0, .run 0, .spawn 0 true, .spawn 0 true] ++
  [.call 1, .run 1, .run 1, .run 1, .run 1, .run 1, .run 1] ++
  [.call 2, .run 2, .run 2, .run 2, .run 2, .run 2, .run 2] ++
  [.release 0 .unlock, .run 0, .run 0, .run 0, .run 0, .run 0, .run 0]

theorem kernel_sem_strands_no_waiter_told : ∃ m, Reach Monitor.step Always bootMonitor m ∧
    m.kernelMutex = none ∧ m.waitset = [2] ∧ m.kernelSem = 1 ∧
    m.kernelSem ≤ m.threads.countP (·.signalled) := by
  obtain ⟨m, hm, hp⟩ := exists_reach_of_exec Monitor.step bootMonitor strandedRun
    (fun m => m.kernelMutex = none ∧ m.waitset = [2] ∧ m.kernelSem = 1) (by decide +kernel)
  have hp : m.kernelMutex = none ∧ m.waitset = [2] ∧ m.kernelSem = 1 := by simpa using hp
  exact ⟨m, hm, hp.1, hp.2.1, hp.2.2,
    (kernel_sem_strands_no_waiter hm hp.1 (by rw [hp.2.1]; simp)).1⟩

end TinyOS
