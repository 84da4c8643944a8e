import TinyOS.CondAttended
import TinyOS.CondSignals

/-! A condition variable neither loses nor duplicates a signal: its ring in every state, each
`Cond_Signal` and `Cond_Broadcast` as a whole, and what a wait returns. -/

namespace TinyOS

open Counting Transition

/-- The thread has made thread `t` `READY` and is about to set its flag. -/
def CondThread.marks (x : CondThread) (t : ThreadId) : Bool :=
  match x.pc with
  | .mark _ w => w = t
  | _ => false

def CondState.Woken (c : CondState) (t : ThreadId) : Prop :=
  (∃ x, c.threads[t]? = some x ∧ x.signalled = true) ∨ ∃ (s : ThreadId) (y : CondThread),
    c.threads[s]? = some y ∧ y.marks t = true

section Waits

variable {c c' : CondState} {ws : List ThreadId} {t u w : ThreadId} {x y : CondThread}
  {e : CondEvent} {g : CondThread → CondThread} {os : List (ThreadId × Bool)}

theorem woken_modify (hu : c.threads[u]? = some x) (hthreads : c'.threads = c.threads.modify u g)
    (hmarks : (g x).marks t = x.marks t) (hsignalled : u = t → (g x).signalled = x.signalled) :
    c'.Woken t ↔ c.Woken t := by
  have hself : c'.threads[u]? = some (g x) := by
    rw [hthreads, List.getElem?_modify_eq, hu]
    rfl
  have hother : ∀ s, s ≠ u → c'.threads[s]? = c.threads[s]? := by
    intro s hs
    rw [hthreads, List.getElem?_modify_ne _ _ (Ne.symm hs)]
  apply or_congr
  · by_cases htu : t = u
    · subst htu
      rw [hself, hu]
      simp [hsignalled rfl]
    · rw [hother t htu]
  · constructor
    · rintro ⟨s, y, hy, hm⟩
      by_cases hs : s = u
      · subst hs
        obtain rfl : g x = y := Option.some.inj (hself.symm.trans hy)
        exact ⟨s, x, hu, hmarks ▸ hm⟩
      · exact ⟨s, y, (hother s hs) ▸ hy, hm⟩
    · rintro ⟨s, y, hy, hm⟩
      by_cases hs : s = u
      · subst hs
        obtain rfl : x = y := Option.some.inj (hu.symm.trans hy)
        exact ⟨s, g x, hself, hmarks.trans hm⟩
      · exact ⟨s, y, (hother s hs).trans hy, hm⟩

/-- One statement wakes thread `t` at most by finding it stopped. -/
theorem woken_run (h : c.Inv ws) (hu : c.threads[u]? = some x) (hs : c.run u x = some c') :
    c'.Woken t ↔ c.Woken t ∨ c.examines (.run u) = some (t, true) := by
  have hobs := examines_run hu
  have hstill : ∀ {d : CondState} {g : CondThread → CondThread}, d.threads = c.threads.modify u g →
      x.marks t = false → (g x).marks t = false → (g x).signalled = x.signalled →
      c.examines (.run u) ≠ some (t, true) →
        (d.Woken t ↔ c.Woken t ∨ c.examines (.run u) = some (t, true)) := by
    intro d g hthreads hx hg hsig hne
    rw [woken_modify hu hthreads (hg.trans hx.symm) fun _ => hsig]
    simp [hne]
  cases hpc : x.pc with
  | user => simp [CondState.run, hpc] at hs
  | waitLock | asleep =>
    simp only [CondState.run, hpc] at hs
    obtain ⟨-, rfl⟩ : c.waitsetLock = none ∧ _ = c' := by simpa using hs
    exact hstill rfl (by simp [CondThread.marks, hpc]) (by simp [CondThread.marks]) rfl
      (by simp [hobs, hpc])
  | signalLock all =>
    simp only [CondState.run, hpc] at hs
    obtain ⟨-, rfl⟩ : c.waitsetLock = none ∧ _ = c' := by simpa using hs
    refine hstill rfl (by simp [CondThread.marks, hpc]) ?_ rfl (by simp [hobs, hpc])
    cases all <;> simp [CondThread.marks]
  | push =>
    obtain rfl : _ = c' := by simpa [CondState.run, hpc] using hs
    exact hstill (enter_threads c u) (by simp [CondThread.marks, hpc])
      (by simp [CondThread.marks]) rfl (by simp [hobs, hpc])
  | unlockMutex | sleep | leave | signalUnlock | ret =>
    obtain rfl : _ = c' := by simpa [CondState.run, hpc] using hs
    exact hstill rfl (by simp [CondThread.marks, hpc]) (by simp [CondThread.marks]) rfl
      (by simp [hobs, hpc])
  | tidy =>
    obtain rfl : _ = c' := by simpa [CondState.run, hpc] using hs
    exact hstill (tidy_threads c u x) (by simp [CondThread.marks, hpc])
      (by simp [CondThread.marks]) rfl (by simp [hobs, hpc])
  | relock =>
    simp only [CondState.run, hpc] at hs
    obtain ⟨-, rfl⟩ : c.mutexes x.mutex = false ∧ _ = c' := by simpa using hs
    exact hstill rfl (by simp [CondThread.marks, hpc]) (by simp [CondThread.marks]) rfl
      (by simp [hobs, hpc])
  | scan all =>
    simp only [CondState.run, hpc] at hs
    split at hs
    · obtain rfl := Option.some.inj hs
      exact hstill rfl (by simp [CondThread.marks, hpc]) (by simp [CondThread.marks]) rfl
        (by simp [hobs, hpc])
    · obtain rfl := Option.some.inj hs
      exact hstill rfl (by simp [CondThread.marks, hpc]) (by simp [CondThread.marks]) rfl
        (by simp [hobs, hpc])
  | scanned all =>
    obtain rfl : _ = c' := by simpa [CondState.run, hpc] using hs
    split
    · exact hstill rfl (by simp [CondThread.marks, hpc]) (by simp [CondThread.marks]) rfl
        (by simp [hobs, hpc])
    · exact hstill rfl (by simp [CondThread.marks, hpc]) (by simp [CondThread.marks]) rfl
        (by simp [hobs, hpc])
  | detach all w =>
    obtain rfl : _ = c' := by simpa [CondState.run, hpc] using hs
    have hfirst : ws.head? = some w := by
      have hsig := (h.locals u x hu).signals
      rwa [hpc] at hsig
    obtain ⟨hwu, y, hy, -⟩ := h.asleep hu (by rw [hpc]; rfl) (by rw [hpc]; rfl)
      (List.mem_of_mem_head? hfirst)
    have hthreads : ((removeFromRing c w).put w fun y => { y with removed := true }).threads =
        c.threads.modify w fun y => { y with removed := true } := by
      simp [CondState.put]
    have hmid : ((removeFromRing c w).put w fun y => { y with removed := true }).Woken t ↔
        c.Woken t := woken_modify hy hthreads rfl fun _ => rfl
    have hux : ((removeFromRing c w).put w fun y => { y with removed := true }).threads[u]? =
        some x := by
      simp [CondState.put, List.getElem?_modify_ne _ _ hwu, hu]
    rw [CondState.goto, woken_modify hux rfl (by simp [CondThread.marks, hpc]) fun _ => rfl, hmid]
    simp [hobs, hpc]
  | wake all w =>
    have hwake : c.Signals ws x.pc := (h.locals u x hu).signals
    rw [hpc] at hwake
    obtain ⟨y, hy, hd⟩ : ∃ y, c.threads[w]? = some y ∧ y.Detached := hwake
    by_cases hfinds : c.finds w = true
    · obtain rfl : _ = c' := by simpa [CondState.run, hpc, hfinds] using hs
      have hwu : w ≠ u := sleeper_ne hu hy hd.pc (by simp [hpc])
      have hmid : (c.put w fun y => { y with state := .ready }).Woken t ↔ c.Woken t :=
        woken_modify hy rfl rfl fun _ => rfl
      have hux : (c.put w fun y => { y with state := .ready }).threads[u]? = some x := by
        simp [CondState.put, List.getElem?_modify_ne _ _ hwu, hu]
      by_cases hwt : w = t
      · subst hwt
        refine iff_of_true (.inr ⟨u, { x with pc := .mark all w }, ?_, by simp [CondThread.marks]⟩)
          (.inr ?_)
        · simp [CondState.goto, CondState.put, List.getElem?_modify_ne _ _ hwu, hu]
        · simp [hobs, hpc, hfinds]
      · rw [CondState.goto, woken_modify hux rfl (by simp [CondThread.marks, hpc, hwt]) fun _ =>
          rfl, hmid]
        simp [hobs, hpc, hwt]
    · obtain rfl : _ = c' := by simpa [CondState.run, hpc, hfinds] using hs
      exact hstill rfl (by simp [CondThread.marks, hpc]) (by simp [CondThread.marks]) rfl
        (by simp [hobs, hpc, hfinds])
  | mark all w =>
    obtain rfl : _ = c' := by simpa [CondState.run, hpc] using hs
    have hmark : c.Signals ws x.pc := (h.locals u x hu).signals
    rw [hpc] at hmark
    obtain ⟨y, hy, hd⟩ : ∃ y, c.threads[w]? = some y ∧ y.Roused := hmark
    have hwu : w ≠ u := sleeper_ne hu hy hd.pc (by simp [hpc])
    have hux : (c.put w fun y => { y with signalled := true }).threads[u]? = some x := by
      simp [CondState.put, List.getElem?_modify_ne _ _ hwu, hu]
    by_cases hwt : w = t
    · subst hwt
      refine iff_of_true (.inl ⟨{ y with signalled := true }, ?_, rfl⟩) (.inl (.inr ⟨u, x, hu, ?_⟩))
      · simp [CondState.goto, CondState.put, hy, Ne.symm hwu]
      · simp [CondThread.marks, hpc]
    · have hmid : (c.put w fun y => { y with signalled := true }).Woken t ↔ c.Woken t :=
        woken_modify hy rfl rfl fun he => absurd he hwt
      rw [CondState.goto, woken_modify hux rfl (by simp [CondThread.marks, hpc, hwt]) fun _ =>
        rfl, hmid]
      simp [hobs, hpc]

theorem woken_step (h : c.Inv ws) (hs : c.step e = some c')
    (he : ∀ mutex timed, e ≠ .wait t mutex timed) :
    c'.Woken t ↔ c.Woken t ∨ c.examines e = some (t, true) := by
  obtain ⟨x, hu, hs⟩ := Option.bind_eq_some_iff.mp hs
  cases e with
  | run u =>
    obtain ⟨-, hs⟩ := Option.ite_none_right_eq_some.mp hs
    exact woken_run h hu hs
  | wait u mutex timed =>
    obtain ⟨⟨-, hpc⟩, hs⟩ := Option.ite_none_right_eq_some.mp hs
    obtain rfl := Option.some.inj hs
    have hne : u ≠ t := fun hut => he mutex timed (by rw [hut])
    have hkeep : (({ c with nodes := rlnodeInit c.nodes u u } : CondState).put u fun x =>
        { x with
          pc := .waitLock, mutex := mutex, timed := timed, signalled := false, removed := false,
          returned := none, expired := false }).Woken t ↔ c.Woken t := by
      refine woken_modify hu rfl ?_ fun hut => absurd hut hne
      have hpcx : x.pc = .user := hpc
      simp [CondThread.marks, hpcx]
    simpa [CondState.examines] using hkeep
  | signal u all =>
    obtain ⟨⟨-, hpc⟩, hs⟩ := Option.ite_none_right_eq_some.mp hs
    obtain rfl := Option.some.inj hs
    rw [CondState.goto, woken_modify hu rfl (by simp [CondThread.marks, hpc]) fun _ => rfl]
    simp [CondState.examines]
  | lock u mutex =>
    obtain ⟨-, hs⟩ := Option.ite_none_right_eq_some.mp hs
    obtain rfl := Option.some.inj hs
    simp [CondState.examines, CondState.Woken]
  | unlock u mutex =>
    obtain ⟨-, hs⟩ := Option.ite_none_right_eq_some.mp hs
    obtain rfl := Option.some.inj hs
    simp [CondState.examines, CondState.Woken]
  | expire u | dispatch u | preempt u =>
    obtain ⟨-, hs⟩ := Option.ite_none_right_eq_some.mp hs
    obtain rfl := Option.some.inj hs
    rw [woken_modify hu rfl rfl fun _ => rfl]
    simp [CondState.examines]

theorem woken_of_trace (h : c.Inv ws)
    (htrace : Trace CondState.step (fun _ e => ∀ mutex timed, e ≠ .wait t mutex timed)
      CondState.examines c os c') :
    (∃ ws', c'.Inv ws') ∧ (c'.Woken t ↔ c.Woken t ∨ (t, true) ∈ os) := by
  induction htrace generalizing ws with
  | refl c => exact ⟨⟨ws, h⟩, by simp⟩
  | @head c d c' e os hok hs _ ih =>
    obtain ⟨hinv, hwoken⟩ := ih (h.step hs)
    refine ⟨hinv, ?_⟩
    rw [hwoken, woken_step h hs hok, or_assoc]
    apply or_congr_right
    cases hobs : c.examines e with
    | none => simp
    | some o => simp [eq_comm]

/-- A thread at the end of its wait was woken if and only if its flag says so. -/
theorem CondState.Inv.woken_ret (h : c.Inv ws) (ht : c.threads[t]? = some x)
    (hpc : x.pc ≠ .asleep) :
    c.Woken t ↔ x.signalled = true := by
  constructor
  · rintro (⟨y, hy, hsig⟩ | ⟨s, y, hy, hm⟩)
    · obtain rfl : x = y := Option.some.inj (ht.symm.trans hy)
      exact hsig
    · exfalso
      unfold CondThread.marks at hm
      split at hm
      · rename_i all w hypc
        obtain rfl : w = t := of_decide_eq_true hm
        have hsig := (h.locals s y hy).signals
        rw [hypc] at hsig
        obtain ⟨z, hz, hr⟩ : ∃ z, c.threads[w]? = some z ∧ z.Roused := hsig
        obtain rfl : x = z := Option.some.inj (ht.symm.trans hz)
        exact hpc hr.pc
      · simp at hm
  · exact fun hsig => .inl ⟨x, ht, hsig⟩

/-! ### Signals and broadcasts in whole runs -/

/-- The ring of the condition variable, from its first waiter on: each of the threads that entered
it and were not removed, once and in the order in which they entered. -/
structure CondState.InOrder (c : CondState) (ws : List ThreadId) : Prop where
  ring : c.Ring ws
  exact : ∀ t, t ∈ ws ↔ ∃ x, c.threads[t]? = some x ∧ x.queued = true
  nodup : ws.Nodup
  sorted : ws.Pairwise fun a b => c.arrivalOf a < c.arrivalOf b

theorem CondState.Inv.inOrder (h : c.Inv ws) : c.InOrder ws where
  ring := h.ring
  exact t := by
    constructor
    · intro ht
      have hx : c.threads[t]? = some _ := List.getElem?_eq_getElem (h.members t ht)
      exact ⟨_, hx, (h.locals t _ hx).queue.mp ht⟩
    · rintro ⟨x, hx, hq⟩
      exact (h.locals t x hx).queue.mpr hq
  nodup := h.ring.heap.circle.nodup
  sorted := h.sorted

/-- A signal (`all` is false) or a broadcast, from `c` to `c'`, that examined the waiters `os`. -/
structure SignalExact (c c' : CondState) (all : Bool) (os : List (ThreadId × Bool))
    (ws ws' : List ThreadId) : Prop where
  before : c.InOrder ws
  after : c'.InOrder ws'
  order : ws = os.map Prod.fst ++ ws'
  signal : all = false → Stops os ws'
  broadcast : all = true → ws' = []
  found : ∀ w, (w, true) ∈ os → ∃ y, c'.threads[w]? = some y ∧ y.signalled = true ∧
    y.state ≠ .stopped
  expired : ∀ w, (w, false) ∈ os → ∃ y, c'.threads[w]? = some y ∧ y.signalled = false ∧
    y.state ≠ .stopped ∧ y.expired = true
  left : ∀ w ∈ ws', ∃ y, c'.threads[w]? = some y ∧ y.signalled = false ∧
    (y.expired = false → y.state = .stopped)
  released : all = true → ∀ (u : ThreadId) (y : CondThread), c'.threads[u]? = some y →
    y.state ≠ .stopped

/-- At the end of the operation the thread still has `waitset_lock`, so that no other is at
`wakeup`. -/
theorem CondState.Progress.exact {all : Bool} {d : CondState} (hd : d.Inv ws)
    (ha : Attended c'.threads)
    (h : c'.Progress ws t all os ws' (.signalUnlock all)) : SignalExact d c' all os ws ws' := by
  have horder : ws = os.map Prod.fst ++ ws' := by simpa [CondPc.pending] using h.order
  have hempties : all = true → ws' = [] := by
    rintro rfl
    exact h.empties rfl
  refine ⟨hd.inOrder, h.inv.inOrder, horder, h.stops rfl, hempties, fun w hw => ?_,
    fun w hw => ?_, fun w hw => ?_,
    fun hall u y hy hstopped => ?_⟩
  · obtain ⟨y, hy, hye⟩ := h.examined w true hw
    exact ⟨y, hy, (hye.signalled rfl).resolve_right (by simp), hye.state⟩
  · obtain ⟨y, hy, hye⟩ := h.examined w false hw
    obtain ⟨hexp, hsig⟩ := hye.expired rfl
    exact ⟨y, hy, hsig, hye.state, hexp⟩
  · obtain ⟨x, hx, hpc⟩ := h.thread
    obtain ⟨-, y, hy, hasleep, hremoved⟩ := h.inv.asleep hx (by rw [hpc]; rfl) (by rw [hpc]; rfl) hw
    have hsane := (h.inv.locals w y hy).sane
    refine ⟨y, hy, ?_, fun hexp => ?_⟩
    · refine Bool.eq_false_iff.mpr fun hsig => ?_
      simp [hsane.signalled hsig] at hremoved
    · by_contra hstate
      simp [hsane.woken hasleep hremoved hstate] at hexp
  · obtain ⟨x, hx, hpc⟩ := h.thread
    have hidle : ∀ (s : ThreadId) (z : CondThread), c'.threads[s]? = some z →
        ∀ a w, z.pc ≠ .wake a w := by
      intro s z hz a w hwake
      obtain rfl : s = t := Locks.exclusive (h.inv.locals s z hz).lock (h.inv.locals t x hx).lock
        (by rw [hwake]; rfl) (by rw [hpc]; rfl)
      obtain rfl : x = z := Option.some.inj (hx.symm.trans hz)
      simp [hpc] at hwake
    have hqueued := queued_of_stopped ha h.inv hidle hy hstopped
    have hin := (h.inv.locals u y hy).queue.mpr hqueued
    simp [hempties hall] at hin

end Waits

/-- A condition variable neither loses nor duplicates a signal. -/
theorem condition_variable_exact {n : Nat} {c : CondState}
    (h : Reach CondState.step Always (bootCond n) c) :
    (∃ ws, c.InOrder ws) ∧
    (∀ (t : ThreadId) (x : CondThread), c.threads[t]? = some x →
      x.state ≠ .init ∧ (c.waitsetLock = none → x.state = .stopped → x.queued = true)) ∧
    (∀ (t : ThreadId) (all : Bool) (x x' : CondThread) (c₁ c₂ : CondState)
      (os : List (ThreadId × Bool)),
      c.threads[t]? = some x → x.pc = .signalLock all → c.step (.run t) = some c₁ →
      Trace CondState.step (fun d _ => d.waitsetLock = some t) CondState.examines c₁ os c₂ →
      c₂.threads[t]? = some x' → x'.pc = .signalUnlock all → ∃ ws ws',
      SignalExact c c₂ all os ws ws') ∧
    (∀ (t : ThreadId) (mutex : Nat) (timed : Bool) (x : CondThread) (c₁ c₂ c₃ : CondState)
      (os : List (ThreadId × Bool)), c.step (.wait t mutex timed) = some c₁ →
      Trace CondState.step (fun _ e => ∀ m b, e ≠ .wait t m b) CondState.examines c₁ os c₂ →
      c₂.threads[t]? = some x → x.pc = .ret → c₂.step (.run t) = some c₃ →
      ∃ y, c₃.threads[t]? = some y ∧ y.returned = some (if (t, true) ∈ os then 1 else 0)) := by
  obtain ⟨ws, hinv⟩ := inv_of_reach h
  have hatt := attended_of_reach h
  refine ⟨⟨ws, hinv.inOrder⟩, ?_, ?_, ?_⟩
  · intro t x ht
    refine ⟨(hinv.locals t x ht).sane.started, fun hfree => queued_of_stopped hatt hinv ?_ ht⟩
    intro s y hy all w hwake
    have hheld := (hinv.locals s y hy).lock.mpr (by rw [hwake]; rfl)
    simp [hfree] at hheld
  · intro t all x x' c₁ c₂ os ht hpc hs htrace ht' hpc'
    obtain ⟨pc, hstart⟩ := hinv.starts ht hpc hs
    obtain ⟨ws₁, hinv₂⟩ := hstart.inv.of_trace htrace
    have hlock : c₂.waitsetLock = some t := (hinv₂.locals t x' ht').lock.mpr (by rw [hpc']; rfl)
    obtain ⟨ws', pc', hend⟩ := progress_of_trace hstart htrace hlock
    obtain ⟨z, hz, hzpc⟩ := hend.thread
    obtain rfl : x' = z := Option.some.inj (ht'.symm.trans hz)
    obtain rfl : CondPc.signalUnlock all = pc' := hpc'.symm.trans hzpc
    rw [List.nil_append] at hend
    have hatt₂ := (hatt.step hinv hs).of_trace (hinv.step hs) htrace
    exact ⟨ws, ws', hend.exact hinv hatt₂⟩
  · intro t mutex timed x c₁ c₂ c₃ os hs htrace ht hpc hs'
    have hstart := hinv.step hs
    obtain ⟨hws, hwoken⟩ := woken_of_trace hstart htrace
    obtain ⟨ws', hinv'⟩ := hws
    have hfresh : ¬ c₁.Woken t := by
      obtain ⟨y, hy, hs⟩ := Option.bind_eq_some_iff.mp hs
      obtain ⟨-, hs⟩ := Option.ite_none_right_eq_some.mp hs
      obtain rfl := Option.some.inj hs
      have hself : (({ c with nodes := rlnodeInit c.nodes t t } : CondState).put t fun x =>
          { x with
            pc := .waitLock, mutex := mutex, timed := timed, signalled := false, removed := false,
            returned := none, expired := false }).threads[t]? = some { y with
            pc := .waitLock, mutex := mutex, timed := timed, signalled := false, removed := false,
            returned := none, expired := false } := by
        have hyt : c.threads[t]? = some y := hy
        simp [CondState.put, hyt]
      rw [hstart.woken_ret hself (by simp)]
      simp
    obtain ⟨z, hz, hs'⟩ := Option.bind_eq_some_iff.mp hs'
    obtain rfl : x = z := Option.some.inj (ht.symm.trans hz)
    obtain ⟨-, hs'⟩ := Option.ite_none_right_eq_some.mp hs'
    obtain rfl : _ = c₃ := by simpa [CondState.run, hpc] using hs'
    refine ⟨{ x with pc := .user, returned := some (if x.signalled then 1 else 0) }, ?_, ?_⟩
    · simp [CondState.put, ht]
    · have hret := hinv'.woken_ret ht (by rw [hpc]; simp)
      simp only [← hret, hwoken, hfresh, false_or]

theorem trace_of_exec {ok : CondState → CondEvent → Bool} {c c' : CondState} {es : List CondEvent}
    (h : exec (guarded ok CondState.step) c es = some c') :
    ∃ os, Trace CondState.step (fun d e => ok d e = true) CondState.examines c os c' := by
  induction es generalizing c with
  | nil =>
    obtain rfl : c = c' := by simpa [exec] using h
    exact ⟨[], .refl c⟩
  | cons e es ih =>
    obtain ⟨d, hs, h⟩ := Option.bind_eq_some_iff.mp h
    obtain ⟨hok, hs⟩ := Option.ite_none_right_eq_some.mp hs
    obtain ⟨os, htrace⟩ := ih h
    exact ⟨_, .head hok hs htrace⟩

/-- Thread 0 waits, and thread 1 takes it out of the ring by `Cond_Signal`. -/
theorem condition_variable_exact_signal :
    ∃ (c c' : CondState) (os : List (ThreadId × Bool)) (ws ws' : List ThreadId),
    c.waitset = some 0 ∧ c'.waitset = none ∧ SignalExact c c' false os ws ws' := by
  obtain ⟨c, hreach, hc⟩ := exists_reach_of_exec CondState.step (bootCond 2)
    [.dispatch 0, .wait 0 0 true, .run 0, .run 0, .run 0, .run 0, .dispatch 1, .signal 1 false]
    (fun c => c.waitset = some 0 && (c.threads[1]?).any (·.pc = .signalLock false) &&
      (c.step (.run 1)).any fun d =>
        (exec (guarded (fun d _ => d.waitsetLock = some 1) CondState.step) d
        [.run 1, .run 1, .run 1, .run 1, .run 1]).any fun c' =>
          c'.waitset = none && (c'.threads[1]?).any (·.pc = .signalUnlock false))
            (by decide +kernel)
  simp only [Bool.and_eq_true, Option.any_eq_true, decide_eq_true_eq] at hc
  obtain ⟨⟨hfirst, x, hx, hpc⟩, d, hs, c', hrun, hnone, x', hx', hpc'⟩ := hc
  obtain ⟨os, htrace⟩ := trace_of_exec hrun
  simp only [decide_eq_true_eq] at htrace
  obtain ⟨ws, ws', hexact⟩ := (condition_variable_exact hreach).2.2.1 1
    false x x' d c' os hx hpc hs htrace hx' hpc'
  exact ⟨c, c', os, ws, ws', hfirst, hnone, hexact⟩

end TinyOS
