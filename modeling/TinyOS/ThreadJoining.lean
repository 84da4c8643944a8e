import TinyOS.ProcessStep

/-! Joining, detaching and exiting threads. A thread asleep in `sys_ThreadJoin` keeps
the PTCB of its target allocated, and what it will return is settled as soon as the
target has exited or been detached. `WaitChild` calls may run in between, as long as
none of them comes back to a reaped child. -/

namespace TinyOS

open Transition Counting

def Others (t : ThreadId) (k : Kernel) (e : ProcEvent) : Prop := NotReaped k e ∧ e.thread ≠ t

/-- Thread `t` is in `sys_ThreadJoin`, and the outcome for it is settled. -/
structure Settled (k : Kernel) (t : ThreadId) (tcb : TCB) (a : Tid) (status : Bool) (ret : Ret) :
    Prop where
  running : ∃ v, Running k v
  thread : k.threads[t]? = some tcb
  pc : tcb.pc = .joining a status
  target : ∃ c, k.ptcbs a = some c ∧ (c.exited = 1 ∨ c.detached = 1) ∧ joinResult c status = ret

theorem joins_of_pc {tcb : TCB} {a : Tid} {status : Bool} (h : tcb.pc = .joining a status) :
    tcb.pc.joins a = true := by
  simp [h, ThreadPc.joins]

/-- What becomes of a joined PTCB in a step of another thread. -/
theorem Settled.of_kept {k k' : Kernel} {t u : ThreadId} {tcb : TCB} {a : Tid} {status : Bool}
    {c c' : PTCB} (hk : Kept k k' u) (hgo : (∃ w, Running k' w) ∨ Ended k') (hut : t ≠ u)
    (ht : k.threads[t]? = some tcb) (hpc : tcb.pc = .joining a status) (hc' : k'.ptcbs a = some c')
    (hdone : c'.exited = 1 ∨ c'.detached = 1) (hret : joinResult c' status = joinResult c status) :
    Settled k' t tcb a status (joinResult c status) where
  running := by
    refine hgo.resolve_right fun hend => ?_
    have hdead := hend.dead t tcb (hk.others t tcb hut ht)
    simp [ThreadPc.joins_live (joins_of_pc hpc)] at hdead
  thread := hk.others t tcb hut ht
  pc := hpc
  target := ⟨c', hc', hdone, hret⟩

theorem Settled.step {k k' : Kernel} {t : ThreadId} {tcb : TCB} {a : Tid}
    {status : Bool} {ret : Ret}
    (h : Settled k t tcb a status ret) {e : ProcEvent} (hok : Others t k e)
    (he : k.step e = some k') : Settled k' t tcb a status ret := by
  obtain ⟨⟨v, hr⟩, ht, hpc, c, hc, hdone, rfl⟩ := h
  obtain ⟨⟨k'', r⟩, hstep, rfl⟩ := Option.map_eq_some_iff.mp he
  obtain ⟨⟨hkept, hgo⟩, -⟩ := hr.stepRet hok.1 hstep
  obtain ⟨c', hc', hex, hdet⟩ := hkept.joined t tcb a c (Ne.symm hok.2) ht (joins_of_pc hpc) hc
  refine .of_kept hkept hgo (Ne.symm hok.2) ht hpc hc' ?_ ?_
  · exact hdone.imp (fun h => (hex h).1) hdet
  · by_cases hd : c.detached = 1
    · simp [joinResult, hd, hdet hd]
    · obtain ⟨_, hv, hd'⟩ := hex (hdone.resolve_right hd)
      simp [joinResult, hv, hd']

/-- The joiner can go on, and returns the settled outcome. -/
theorem Settled.returns {k : Kernel} {t : ThreadId} {tcb : TCB} {a : Tid}
    {status : Bool} {ret : Ret} (h : Settled k t tcb a status ret) (hp : k.panicked = false) :
    ∃ k', k.stepRet (.proceed t) = some (k', some ret) := by
  obtain ⟨⟨v, hr⟩, ht, hpc, c, hc, hdone, rfl⟩ := h
  have hns : ¬(c.exited = 0 ∧ c.detached = 0) := fun h => by omega
  have hawake : t ∉ c.exitCv.waitset := fun hm => hns (hr.asleep a c hc t hm)
  refine ⟨(threadJoinLoop k t a status).1, ?_⟩
  have hret := threadJoinLoop_ret (t := t) hc hns status
  simp only [Kernel.stepRet, hp, ProcEvent.thread, ht, hpc, Kernel.goOn, hc, Option.elim, hawake,
    reduceCtorEq, Bool.false_eq_true, if_false]
  rw [← hret]

/-- However the other threads go on, the joiner will return the settled outcome. -/
theorem Settled.later {k k' : Kernel} {t : ThreadId} {tcb : TCB} {a : Tid}
    {status : Bool} {ret : Ret}
    (h : Settled k t tcb a status ret) (hreach : Reach Kernel.step (Others t) k k')
    (hp : k'.panicked = false) : ∃ k'', k'.stepRet (.proceed t) = some (k'', some ret) :=
  (hreach.invariant (I := fun k => Settled k t tcb a status ret) h
    fun _ _ _ hs hok he => hs.step hok he).returns hp

section Outcome

variable {k k' : Kernel} {v : TableView} {t u : ThreadId} {tcb x : TCB} {a : Tid} {status : Bool}
  {c : PTCB}

/-- Two threads that are both live keep their process alive when one of them exits. -/
theorem Running.exit_joined (hr : Running k v) (hu : k.threads[u]? = some x) (hl : x.live = true)
    (ha : x.ptcb = some a) (ht : k.threads[t]? = some tcb) (hut : t ≠ u)
    (hpc : tcb.pc = .joining a status) (hc : k.ptcbs a = some c) (ev : Int) :
    (sysThreadExit k u x.ownerPcb a ev).ptcbs a =
      some { c with exited := 1, exitval := ev, exitCv := kernelBroadcast c.exitCv } := by
  obtain ⟨b, d, hb, hbv, -, -, -⟩ := hr.self u x hu hl
  obtain rfl : b = a := Option.some.inj (hb.symm.trans ha)
  have hown := hr.table.lists.ptcbs_disjoint (hr.joining t tcb b ht (joins_of_pc hpc)) hbv
  have htl := ThreadPc.joins_live (joins_of_pc hpc)
  have htwo := two_le_countP (p := (·.liveIn x.ownerPcb)) hut ht hu
    (by simpa [TCB.liveIn, TCB.live, hown] using htl) (by simpa [TCB.liveIn, TCB.live] using hl)
  have hcount := hr.count x.ownerPcb
  have hne : ¬((exitedKernel k x.ownerPcb b ev).pt x.ownerPcb).threadCount = 0 := by
    simp only [exitedKernel, setPCB_pt_self]
    simp only [Kernel.setPTCB]
    omega
  have hsys : sysThreadExit k u x.ownerPcb b ev =
      (if ((exitedKernel k x.ownerPcb b ev).pt x.ownerPcb).threadCount = 0
        then leaveProcess (exitedKernel k x.ownerPcb b ev) x.ownerPcb
        else exitedKernel k x.ownerPcb b ev).setPc u .exited := rfl
  rw [hsys, if_neg hne]
  simp [Kernel.setPc, exitedKernel, Kernel.setPTCB, Kernel.setPCB, hc]

/-- The target exits while it is not detached: the joiner returns 0 and its exit value. -/
theorem Running.settled_exit (hr : Running k v) {ev : Int}
    (he : k.step (.threadExit u ev) = some k') (hu : k.threads[u]? = some x) (ha : x.ptcb = some a)
    (hc : k.ptcbs a = some c) (hdet : c.detached = 0) (ht : k.threads[t]? = some tcb)
    (hpc : tcb.pc = .joining a status) :
    Settled k' t tcb a status ⟨0, if status then some ev else none⟩ := by
  obtain ⟨⟨k'', r⟩, hstep, rfl⟩ := Option.map_eq_some_iff.mp he
  obtain ⟨⟨hkept, hgo⟩, -⟩ := hr.stepRet rfl hstep
  have huser : x.pc = .user := by
    by_contra hne
    simp only [Kernel.stepRet, ProcEvent.thread, hu, hne, if_false] at hstep
    split at hstep <;> simp at hstep
  have hut : t ≠ u := fun heq => by
    subst heq
    obtain rfl : x = tcb := Option.some.inj (hu.symm.trans ht)
    simp [huser] at hpc
  have hk'' : k'' = sysThreadExit k u x.ownerPcb a ev := by
    simp only [Kernel.stepRet, ProcEvent.thread, hu, huser, if_true, Kernel.call,
      ha, Option.map] at hstep
    split at hstep
    · simp at hstep
    · exact (congrArg Prod.fst (Option.some.inj hstep)).symm
  have hc' := hr.exit_joined hu (by simp [TCB.live, huser]) ha ht hut hpc hc ev
  rw [← hk''] at hc'
  have hset := Settled.of_kept hkept hgo hut ht hpc hc' (.inl rfl)
    (c := { c with exited := 1, exitval := ev, exitCv := kernelBroadcast c.exitCv }) rfl
  simpa [joinResult, hdet] using hset

/-- The target is detached: the joiner returns -1. -/
theorem Running.settled_detach (hr : Running k v)
    (he : k.stepRet (.threadDetach u a) = some (k', some ⟨0, none⟩))
    (ht : k.threads[t]? = some tcb) (hpc : tcb.pc = .joining a status) :
    Settled k' t tcb a status ⟨-1, none⟩ := by
  obtain ⟨⟨hkept, hgo⟩, -⟩ := hr.stepRet rfl he
  simp only [Kernel.stepRet, ProcEvent.thread] at he
  split at he
  · simp at he
  cases hu : k.threads[u]? with
  | none => simp [hu] at he
  | some x =>
    by_cases huser : x.pc = .user
    · have hut : t ≠ u := fun heq => by
        subst heq
        obtain rfl : x = tcb := Option.some.inj (hu.symm.trans ht)
        simp [huser] at hpc
      obtain ⟨d, hd⟩ := hr.mem_ptcbs (hr.joining t tcb a ht (joins_of_pc hpc))
      simp only [hu, huser, if_true, Kernel.call, sysThreadDetach, hd, Option.some.injEq] at he
      split at he
      · simp at he
      · split at he
        · simp at he
        · obtain ⟨rfl, -⟩ : _ = k' ∧ True := by simpa using he
          have hc' : (k.setPTCB a fun c =>
              { c with detached := 1, exitCv := kernelBroadcast c.exitCv }).ptcbs a =
              some { d with detached := 1, exitCv := kernelBroadcast d.exitCv } := by
            simp [Kernel.setPTCB, hd]
          have hset := Settled.of_kept hkept hgo hut ht hpc hc' (.inr rfl)
            (c := { d with detached := 1, exitCv := kernelBroadcast d.exitCv }) rfl
          simpa [joinResult] using hset
    · simp [hu, huser] at he

/-- The cases in which `sysThreadJoin` refuses at once. -/
theorem Running.join_refused (hr : Running k v) (hp : k.panicked = false)
    (ht : k.threads[t]? = some tcb) (hpc : tcb.pc = .user)
    (hno : rlistFind k.heap (.ptcbList tcb.ownerPcb) (.ptcb a) = none ∨ tcb.ptcb = some a ∨
      ∃ c, k.ptcbs a = some c ∧ c.detached = 1) :
    k.stepRet (.threadJoin t a status) = some (k, some ⟨-1, none⟩) := by
  simp only [Kernel.stepRet, hp, ProcEvent.thread, ht, hpc, Kernel.call,
    if_true, Bool.false_eq_true,
    if_false, Option.some.injEq]
  by_cases hfind : rlistFind k.heap (.ptcbList tcb.ownerPcb) (.ptcb a) = none
  · simp only [sysThreadJoin, hfind, if_true]
  · obtain ⟨c, hc⟩ := hr.mem_ptcbs (not_not.mp fun h => hfind ((hr.table.find _ a).mpr h))
    have hor : c.detached = 1 ∨ tcb.ptcb = some a := by
      rcases hno with hno | hself | ⟨d, hd, hdet⟩
      · exact absurd hno hfind
      · exact .inr hself
      · obtain rfl : c = d := Option.some.inj (hc.symm.trans hd)
        exact .inl hdet
    simp only [sysThreadJoin, hfind, hc, hor, if_true, if_false]

end Outcome

/-- In order: a joined PTCB is allocated and in its process's list; whatever is found in
the caller's list is allocated; the counts; what is freed; when a join refuses; and what
a sleeping joiner returns, whenever it gets to run, once its target has exited, has been
detached, or (as the case that follows) has done either before. -/
theorem thread_join_protocol {task : Task} {argl : Int} {args : ExecArgs argl}
    {a₀ : Tid} {k : Kernel} (h : Reach Kernel.step NotReaped (bootKernel task argl args a₀) k) :
    (∀ (t : Nat) (tcb : TCB) a status, k.threads[t]? = some tcb → tcb.pc = .joining a status →
      k.ptcbs a ≠ none ∧ rlistFind k.heap (.ptcbList tcb.ownerPcb) (.ptcb a) ≠ none) ∧
    (∀ (t : Nat) (tcb : TCB) a, k.threads[t]? = some tcb → tcb.pc ≠ .exited →
      rlistFind k.heap (.ptcbList tcb.ownerPcb) (.ptcb a) ≠ none → k.ptcbs a ≠ none) ∧
    (∀ a c, k.ptcbs a = some c → c.refcount = k.threads.countP (·.pc.joins a)) ∧
    (∀ f ∈ k.freed, f.refcount = some 0) ∧
    (∀ (t : Nat) (tcb : TCB) a status, k.panicked = false → k.threads[t]? = some tcb →
      tcb.pc = .user →
      (rlistFind k.heap (.ptcbList tcb.ownerPcb) (.ptcb a) = none ∨ tcb.ptcb = some a ∨
        ∃ c, k.ptcbs a = some c ∧ c.detached = 1) →
      k.stepRet (.threadJoin t a status) = some (k, some ⟨-1, none⟩)) ∧
    (∀ (u t : Nat) (x tcb : TCB) a status c ev k1 k2, k.threads[u]? = some x →
      x.ptcb = some a → k.ptcbs a = some c → c.detached = 0 → k.threads[t]? = some tcb →
      tcb.pc = .joining a status → k.step (.threadExit u ev) = some k1 →
      Reach Kernel.step (Others t) k1 k2 → k2.panicked = false →
      ∃ k3, k2.stepRet (.proceed t) = some (k3, some ⟨0, if status then some ev else none⟩)) ∧
    (∀ (u t : Nat) (tcb : TCB) a status k1 k2, k.threads[t]? = some tcb →
      tcb.pc = .joining a status → k.stepRet (.threadDetach u a) = some (k1, some ⟨0, none⟩) →
      Reach Kernel.step (Others t) k1 k2 → k2.panicked = false →
      ∃ k3, k2.stepRet (.proceed t) = some (k3, some ⟨-1, none⟩)) ∧
    (∀ (t : Nat) (tcb : TCB) a status c k2, k.threads[t]? = some tcb →
      tcb.pc = .joining a status → k.ptcbs a = some c → c.exited = 1 ∨ c.detached = 1 →
      Reach Kernel.step (Others t) k k2 → k2.panicked = false →
      ∃ k3, k2.stepRet (.proceed t) = some (k3, some (joinResult c status))) := by
  obtain ⟨hh, hgood⟩ := reach_running h
  rcases hgood with ⟨v, hr⟩ | hend
  · have hfind : ∀ p a, rlistFind k.heap (.ptcbList p) (.ptcb a) ≠ none ↔
        a ∈ v.ptcbs p := fun p a =>
      (not_congr (hr.table.find p a)).trans not_not
    refine ⟨fun t tcb a s ht hpc => ?_, fun t tcb a ht _ hf =>
      hr.table.allocated _ a ((hfind _ a).mp hf),
      hr.refcount, hh.freed, fun t tcb a s hp ht hpc hno => hr.join_refused hp ht hpc hno,
      fun u t x tcb a s c ev k1 k2 hu ha hc hdet ht hpc he hreach hp =>
        (hr.settled_exit he hu ha hc hdet ht hpc).later hreach hp,
      fun u t tcb a s k1 k2 ht hpc he hreach hp => (hr.settled_detach he ht hpc).later hreach hp,
      fun t tcb a s c k2 ht hpc hc hdone hreach hp => ?_⟩
    · have ha := hr.joining t tcb a ht (joins_of_pc hpc)
      exact ⟨hr.table.allocated _ a ha, (hfind _ a).mpr ha⟩
    · have hset : Settled k t tcb a s (joinResult c s) := ⟨⟨v, hr⟩, ht, hpc, c, hc, hdone, rfl⟩
      exact hset.later hreach hp
  · have hdead : ∀ (t : Nat) (tcb : TCB), k.threads[t]? = some tcb → tcb.pc = .exited :=
      fun t tcb ht => by simpa [TCB.live] using hend.dead t tcb ht
    refine ⟨fun t tcb a s ht hpc => ?_, fun t tcb a ht hne _ => absurd (hdead t tcb ht) hne,
      hend.refcount, hh.freed, fun t tcb a s _ ht hpc _ => ?_,
      fun u t x tcb a s c ev k1 k2 _ _ _ _ ht hpc _ _ _ => ?_,
      fun u t tcb a s k1 k2 ht hpc _ _ _ => ?_, fun t tcb a s c k2 ht hpc _ _ _ _ => ?_⟩
    all_goals
      have hx := hdead t tcb ht
      simp [hpc] at hx

/-- Thread 2 joins thread 1, which exits with 7. -/
theorem thread_join_protocol_run : ∃ k k' : Kernel,
    k.stepRet (.proceed 2) = some (k', some ⟨0, some 7⟩) := by
  obtain ⟨k, hk, hp⟩ := exists_reach_of_guarded Kernel.step notReaped (bootKernel 0 0 none 1)
    [.createThread 0 (some 5) 0 none 2, .createThread 0 (some 6) 0 none 3, .threadJoin 2 2 true]
    (fun k => k.threads[1]? = some ⟨1, some 2, .startProcessThread, .user⟩ ∧
      k.threads[2]? = some ⟨1, some 3, .startProcessThread, .joining 2 true⟩ ∧
      (k.ptcbs 2).any (·.detached = 0) = true ∧
      (k.step (.threadExit 1 7)).any (·.panicked = false) = true)
    (by rw [bootKernel_eq]; decide +kernel)
  obtain ⟨hu, ht, hc, he⟩ := of_decide_eq_true hp
  obtain ⟨c, hc, hdet⟩ := (Option.any_eq_true _ _).mp hc
  obtain ⟨k1, he, hp⟩ := (Option.any_eq_true _ _).mp he
  obtain ⟨k', h⟩ := (thread_join_protocol hk).2.2.2.2.2.1 1 2 _ _ 2 true c 7 k1 k1 hu rfl hc
    (by simpa using hdet) ht rfl he .refl (by simpa using hp)
  exact ⟨k1, k', h⟩

end TinyOS
