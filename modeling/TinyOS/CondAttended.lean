import TinyOS.CondSteps

/-! No wakeup of a condition variable is lost: a waiter that was cut out of the ring does not stay
`STOPPED` beyond the next statement of the thread that cut it out. -/

namespace TinyOS

open Counting Transition

/-- Some thread has cut the waiter of thread `t` out of the ring and is about to wake it. -/
def Attends (ts : List CondThread) (t : ThreadId) : Prop :=
  ∃ (s : ThreadId) (y : CondThread) (all : Bool), ts[s]? = some y ∧ y.pc = .wake all t

/-- No thread is `STOPPED` with its waiter out of the ring, unless it is about to be woken. -/
def Attended (ts : List CondThread) : Prop :=
  ∀ (t : ThreadId) (x : CondThread), ts[t]? = some x → x.removed = true →
    x.state = .stopped → Attends ts t

section Attended

variable {c c' : CondState} {ws : List ThreadId} {t u w : ThreadId} {x y : CondThread}
  {e : CondEvent} {g : CondThread → CondThread} {ts : List CondThread}

theorem Attended.modify (h : Attended ts) (hu : ts[u]? = some x)
    (hself : (g x).removed = true → (g x).state = .stopped →
      x.removed = true ∧ x.state = .stopped ∨ Attends (ts.modify u g) u)
    (hwake : ∀ all w, x.pc = .wake all w → (g x).pc = .wake all w ∨
      ∀ y, (ts.modify u g)[w]? = some y → y.state ≠ .stopped) : Attended (ts.modify u g) := by
  have hkeep : ∀ {t : ThreadId} {y : CondThread}, (ts.modify u g)[t]? = some y →
      y.state = .stopped → Attends ts t → Attends (ts.modify u g) t := by
    rintro t y hy hstate ⟨s, z, all, hz, hpc⟩
    by_cases hs : s = u
    · subst hs
      obtain rfl : x = z := Option.some.inj (hu.symm.trans hz)
      rcases hwake all t hpc with hg | hg
      · exact ⟨s, g x, all, by rw [List.getElem?_modify_eq, hu]; rfl, hg⟩
      · exact absurd hstate (hg y hy)
    · exact ⟨s, z, all, by rw [List.getElem?_modify_ne _ _ (Ne.symm hs)]; exact hz, hpc⟩
  intro t y hy hremoved hstate
  by_cases ht : t = u
  · subst ht
    obtain rfl : g x = y := by simpa [List.getElem?_modify_eq, hu] using hy
    rcases hself hremoved hstate with ⟨hr, hs⟩ | hatt
    · exact hkeep hy hstate (h t x hu hr hs)
    · exact hatt
  · have hold : ts[t]? = some y := by rwa [List.getElem?_modify_ne _ _ (Ne.symm ht)] at hy
    exact hkeep hy hstate (h t y hold hremoved hstate)

/-- A change of one thread that stops nobody and leaves no `wakeup` out. -/
theorem Attended.calm (h : Attended ts) (hu : ts[u]? = some x)
    (hself : (g x).removed = true → (g x).state = .stopped → x.removed = true ∧ x.state = .stopped)
    (hwake : ∀ all w, x.pc ≠ .wake all w) : Attended (ts.modify u g) :=
  h.modify hu (fun hr hs => .inl (hself hr hs)) fun all w hpc => absurd hpc (hwake all w)

theorem enter_threads (c : CondState) (t : ThreadId) : (c.enter t).threads =
    c.threads.modify t fun x => { x with pc := .unlockMutex, arrival := c.entries } := by
  unfold CondState.enter CondState.put
  cases c.waitset <;> rfl

theorem tidy_threads (c : CondState) (t : ThreadId) (x : CondThread) :
    ((if x.removed then c else removeFromRing c t).goto t .leave).threads =
      c.threads.modify t fun x => { x with pc := .leave } := by
  show (if x.removed then c else removeFromRing c t).threads.modify t _ = _
  split
  · rfl
  · rw [removeFromRing_threads]

theorem Attended.run (ha : Attended c.threads) (h : c.Inv ws) (hu : c.threads[u]? = some x)
    (hs : c.run u x = some c') : Attended c'.threads := by
  cases hpc : x.pc with
  | user => simp [CondState.run, hpc] at hs
  | waitLock | asleep | signalLock =>
    simp only [CondState.run, hpc] at hs
    obtain ⟨-, rfl⟩ : c.waitsetLock = none ∧ _ = c' := by simpa using hs
    exact ha.calm hu (fun hr hs => ⟨hr, hs⟩) (by simp [hpc])
  | push =>
    obtain rfl : _ = c' := by simpa [CondState.run, hpc] using hs
    rw [enter_threads]
    exact ha.calm hu (fun hr hs => ⟨hr, hs⟩) (by simp [hpc])
  | sleep =>
    obtain rfl : _ = c' := by simpa [CondState.run, hpc] using hs
    refine ha.calm hu (fun hr _ => ?_) (by simp [hpc])
    have hfresh := (h.locals u x hu).sane.fresh (by rw [hpc]; rfl)
    rw [hfresh.1] at hr
    simp at hr
  | unlockMutex | leave | signalUnlock | ret =>
    obtain rfl : _ = c' := by simpa [CondState.run, hpc] using hs
    exact ha.calm hu (fun hr hs => ⟨hr, hs⟩) (by simp [hpc])
  | tidy =>
    obtain rfl : _ = c' := by simpa [CondState.run, hpc] using hs
    rw [tidy_threads]
    exact ha.calm hu (fun hr hs => ⟨hr, hs⟩) (by simp [hpc])
  | relock =>
    simp only [CondState.run, hpc] at hs
    obtain ⟨-, rfl⟩ : c.mutexes x.mutex = false ∧ _ = c' := by simpa using hs
    exact ha.calm hu (fun hr hs => ⟨hr, hs⟩) (by simp [hpc])
  | scan all =>
    simp only [CondState.run, hpc] at hs
    split at hs
    · obtain rfl := Option.some.inj hs
      exact ha.calm hu (fun hr hs => ⟨hr, hs⟩) (by simp [hpc])
    · obtain rfl := Option.some.inj hs
      exact ha.calm hu (fun hr hs => ⟨hr, hs⟩) (by simp [hpc])
  | scanned all =>
    obtain rfl : _ = c' := by simpa [CondState.run, hpc] using hs
    exact ha.calm hu (fun hr hs => ⟨hr, hs⟩) (by simp [hpc])
  | detach all w =>
    obtain rfl : _ = c' := by simpa [CondState.run, hpc] using hs
    have hfirst : ws.head? = some w := by
      have hsig := (h.locals u x hu).signals
      rwa [hpc] at hsig
    obtain ⟨hwu, y, hy, hasleep, -⟩ :=
      h.asleep hu (by rw [hpc]; rfl) (by rw [hpc]; rfl) (List.mem_of_mem_head? hfirst)
    have hthreads :
        (((removeFromRing c w).put w fun y => { y with removed := true }).goto u
          (.wake all w)).threads = (c.threads.modify u fun x => { x with pc := .wake all w }).modify
            w fun y => { y with removed := true } := by
      simp only [CondState.goto, CondState.put, removeFromRing_threads]
      exact List.modify_modify_ne _ _ _ hwu
    rw [hthreads]
    have hgone : Attended (c.threads.modify u fun x => { x with pc := .wake all w }) :=
      ha.calm hu (fun hr hs => ⟨hr, hs⟩) (by simp [hpc])
    have hyw : (c.threads.modify u fun x => { x with pc := .wake all w })[w]? = some y := by
      rw [List.getElem?_modify_ne _ _ (Ne.symm hwu)]
      exact hy
    refine hgone.modify hyw (fun _ _ => .inr ?_) (by simp [hasleep])
    refine ⟨u, { x with pc := .wake all w }, all, ?_, rfl⟩
    rw [List.getElem?_modify_ne _ _ hwu, List.getElem?_modify_eq, hu]
    rfl
  | wake all w =>
    have hwake : c.Signals ws x.pc := (h.locals u x hu).signals
    rw [hpc] at hwake
    obtain ⟨y, hy, hd⟩ : ∃ y, c.threads[w]? = some y ∧ y.Detached := hwake
    have hwu : w ≠ u := sleeper_ne hu hy hd.pc (by simp [hpc])
    by_cases hfinds : c.finds w = true
    · obtain rfl : _ = c' := by simpa [CondState.run, hpc, hfinds] using hs
      have hready : Attended (c.threads.modify w fun y => { y with state := .ready }) :=
        ha.calm hy (by simp) (by simp [hd.pc])
      have hux : (c.threads.modify w fun y => { y with state := .ready })[u]? = some x := by
        rw [List.getElem?_modify_ne _ _ hwu]
        exact hu
      refine hready.modify hux (fun hr hs => .inl ⟨hr, hs⟩) fun a v hv => .inr fun z hz => ?_
      obtain ⟨rfl, rfl⟩ : all = a ∧ w = v := by simpa [hpc] using hv
      have hzy : { y with state := .ready } = z := by
        simpa [List.getElem?_modify_ne _ _ (Ne.symm hwu), hy] using hz
      rw [← hzy]
      simp
    · obtain rfl : _ = c' := by simpa [CondState.run, hpc, hfinds] using hs
      refine ha.modify hu (fun hr hs => .inl ⟨hr, hs⟩) fun a v hv => .inr fun z hz hstopped =>
        hfinds ?_
      obtain ⟨rfl, rfl⟩ : all = a ∧ w = v := by simpa [hpc] using hv
      rw [List.getElem?_modify_ne _ _ (Ne.symm hwu)] at hz
      simp [CondState.finds, hz, hstopped]
  | mark all w =>
    obtain rfl : _ = c' := by simpa [CondState.run, hpc] using hs
    have hmark : c.Signals ws x.pc := (h.locals u x hu).signals
    rw [hpc] at hmark
    obtain ⟨y, hy, hd⟩ : ∃ y, c.threads[w]? = some y ∧ y.Roused := hmark
    have hwu : w ≠ u := sleeper_ne hu hy hd.pc (by simp [hpc])
    have hux : (c.threads.modify w fun y => { y with signalled := true })[u]? = some x := by
      rw [List.getElem?_modify_ne _ _ hwu]
      exact hu
    have hflag : Attended (c.threads.modify w fun y => { y with signalled := true }) :=
      ha.calm hy (fun hr hs => ⟨hr, hs⟩) (by simp [hd.pc])
    exact hflag.calm hux (fun hr hs => ⟨hr, hs⟩) (by simp [hpc])

theorem Attended.step (ha : Attended c.threads) (h : c.Inv ws) (hs : c.step e = some c') :
    Attended c'.threads := by
  obtain ⟨x, hu, hs⟩ := Option.bind_eq_some_iff.mp hs
  cases e with
  | run u =>
    obtain ⟨-, hs⟩ := Option.ite_none_right_eq_some.mp hs
    exact ha.run h hu hs
  | wait u mutex timed =>
    obtain ⟨⟨-, hpc⟩, hs⟩ := Option.ite_none_right_eq_some.mp hs
    obtain rfl := Option.some.inj hs
    exact ha.calm hu (by simp) (by simp [hpc])
  | signal u all =>
    obtain ⟨⟨-, hpc⟩, hs⟩ := Option.ite_none_right_eq_some.mp hs
    obtain rfl := Option.some.inj hs
    exact ha.calm hu (fun hr hs => ⟨hr, hs⟩) (by simp [hpc])
  | lock u mutex =>
    obtain ⟨-, hs⟩ := Option.ite_none_right_eq_some.mp hs
    obtain rfl := Option.some.inj hs
    exact ha
  | unlock u mutex =>
    obtain ⟨-, hs⟩ := Option.ite_none_right_eq_some.mp hs
    obtain rfl := Option.some.inj hs
    exact ha
  | expire u | dispatch u | preempt u =>
    obtain ⟨-, hs⟩ := Option.ite_none_right_eq_some.mp hs
    obtain rfl := Option.some.inj hs
    exact ha.modify hu (by simp) fun all w hpc => .inl hpc

theorem attended_of_reach {n : Nat} {ok : CondState → CondEvent → Prop}
    (h : Reach CondState.step ok (bootCond n) c) :
    Attended c.threads := by
  refine (h.invariant (I := fun c => Attended c.threads ∧ ∃ ws, c.Inv ws) ⟨?_, [], bootCond_inv n⟩
    fun u e v hu _ hs => ?_).1
  · intro t x hx hremoved
    obtain rfl := List.eq_of_mem_replicate (List.mem_of_getElem? hx)
    simp at hremoved
  · obtain ⟨ha, ws, hws⟩ := hu
    exact ⟨ha.step hws hs, _, hws.step hs⟩

theorem Attended.of_trace {ok : CondState → CondEvent → Prop} {os : List (ThreadId × Bool)}
    (ha : Attended c.threads)
    (h : c.Inv ws) (htrace : Trace CondState.step ok CondState.examines c os c') :
    Attended c'.threads := by
  induction htrace generalizing ws with
  | refl c => exact ha
  | head _ hs _ ih => exact ih (ha.step h hs) (h.step hs)

/-- With nobody at `wakeup`, every stopped thread is in the ring. -/
theorem queued_of_stopped (ha : Attended c.threads) (h : c.Inv ws)
    (hidle : ∀ (s : ThreadId) (y : CondThread), c.threads[s]? = some y → ∀ all w,
      y.pc ≠ .wake all w)
    (ht : c.threads[t]? = some x) (hstopped : x.state = .stopped) : x.queued = true := by
  have hpc := (h.locals t x ht).sane.stopped hstopped
  have hremoved : x.removed = false := by
    refine Bool.eq_false_iff.mpr fun hr => ?_
    obtain ⟨s, y, all, hy, hwake⟩ := ha t x ht hr hstopped
    exact hidle s y hy all t hwake
  simp [CondThread.queued, hpc, hremoved, CondPc.entered]

end Attended

end TinyOS
