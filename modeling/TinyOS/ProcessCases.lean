import TinyOS.ProcessStep

/-! What one step from a running state does to the kernel, case by case. -/

namespace TinyOS

open Ring Links Counting Transition

/-- A wait for children that has a reason: the child is alive, or there are children and none of
them has exited. -/
def WaitsFor (k : Kernel) (v : TableView) (p : Pid) (pc : ThreadPc) : Prop :=
  (∃ c s n, pc = .waitSpecific c s n ∧ (k.pt c).pstate = .alive ∧ (k.pt c).parent = some p) ∨
    ((∃ s, pc = .waitAny s) ∨ ∃ x, pc = .exitWait x) ∧ v.children p ≠ [] ∧ v.exited p = []

/-- Outside the kernel, or between two rounds of the loop of `sys_Exit`. -/
def ThreadPc.idles (pc : ThreadPc) : Prop := pc = .user ∨ ∃ x, pc = .exitLoop x

inductive ProcStep (k : Kernel) (v : TableView) (t : ThreadId) (tcb : TCB) :
    ProcEvent → Kernel → Option Ret → Prop
  | stay {e : ProcEvent} {pc : ThreadPc} {ret : Option Ret} : pc.idles →
  (∀ r, ret = some r → r.out = none) →
      ProcStep k v t tcb e (k.setPc t pc) ret
  | sleep {e : ProcEvent} {pc : ThreadPc} : WaitsFor k v tcb.ownerPcb pc →
      ProcStep k v t tcb e
        ((k.setPCB tcb.ownerPcb fun c => { c with childExit := kernelWait c.childExit t }).setPc
          t pc) none
  | reap {e : ProcEvent} {z : Pid} {pc : ThreadPc} {ret : Option Ret} (status : Bool) : pc.idles →
      (k.pt z).pstate = .zombie → (k.pt z).parent = some tcb.ownerPcb →
      (ret = none ∨ ret = some ⟨z.val, if status then some (k.pt z).exitval else none⟩) →
      ProcStep k v t tcb e ((cleanupZombie k tcb.ownerPcb z).setPc t pc) ret
  | execIdle {n : Pid} {rest : List Pid} {argl : Int} {args : ExecArgs argl} {a : Tid} :
      v.free = n :: rest →
      ProcStep k v t tcb (.exec t none argl args a) (execKernel k tcb.ownerPcb n none argl args)
        (some ⟨getPid (some n), none⟩)
  | execTask {n : Pid} {rest : List Pid} {task : Task} {argl : Int} {args : ExecArgs argl}
      {a : Tid} : v.free = n :: rest → k.canAllocate a →
      ProcStep k v t tcb (.exec t (some task) argl args a)
        (execTaskKernel k tcb.ownerPcb n task argl args a)
        (some ⟨getPid (some n), none⟩)
  | createNull {argl : Int} {args : Args} {a : Tid} : k.canAllocate a →
      ProcStep k v t tcb (.createThread t none argl args a)
        { k with
          ptcbs := Function.update k.ptcbs a (some (initializePtcb none none argl args))
          heap := rlnodeInit k.heap (.ptcbListNode a) (.ptcb a) } (some ⟨a.val, none⟩)
  | create {task : Task} {argl : Int} {args : Args} {a : Tid} : k.canAllocate a →
      ProcStep k v t tcb (.createThread t (some task) argl args a)
        (createdKernel k tcb.ownerPcb task argl args a)
        (some ⟨a.val, none⟩)
  | touch {e : ProcEvent} {a : Tid} {c c' : PTCB} {pc : ThreadPc} {ret : Option Ret} :
      k.waits e = false → (pc = .user ∨ ∃ s, pc = .joining a s) → k.ptcbs a = some c →
      c'.tcb = c.tcb → c'.exited = c.exited →
      ProcStep k v t tcb e (k.touch t a c' pc) ret
  | free {e : ProcEvent} {a : Tid} {c c' : PTCB} {ret : Option Ret} :
      k.waits e = false → k.ptcbs a = some c → c.exited = 1 →
      ProcStep k v t tcb e
        (freePtcb { k.touch t a c' .user with heap := rlistRemove k.heap (.ptcbListNode a) } a) ret
  | enterExit {x : Int} : tcb.ownerPcb = 1 →
      ProcStep k v t tcb (.exit t x)
        ((k.setPCB tcb.ownerPcb fun c => { c with exitval := x }).setPc t (.exitLoop x)) none
  | exit {x : Int} {a : Tid} : tcb.ownerPcb ≠ 1 → tcb.ptcb = some a →
      ProcStep k v t tcb (.exit t x)
        (sysThreadExit (k.setPCB tcb.ownerPcb fun c => { c with exitval := x }) t tcb.ownerPcb a x)
        none
  | threadExit {x : Int} {a : Tid} : tcb.ptcb = some a →
      ProcStep k v t tcb (.threadExit t x) (sysThreadExit k t tcb.ownerPcb a x) none
  | leaveLoop {x : Int} {a : Tid} : tcb.ptcb = some a → v.children tcb.ownerPcb = [] →
      ProcStep k v t tcb (.proceed t)
        (sysThreadExit (k.setPc t (.exitLoop x)) t tcb.ownerPcb a x) none

section Cases

variable {k k' : Kernel} {v : TableView} {t : ThreadId} {tcb : TCB} {e : ProcEvent}
  {ret : Option Ret}

/-- The loop of `sys_Exit` makes nothing of what the wait returns. -/
theorem ProcStep.unreturned {u : ThreadId} (h : ProcStep k v t tcb (.proceed u) k' ret) :
    ProcStep k v t tcb (.proceed u) k' none := by
  cases h with
  | stay hpc _ => exact .stay hpc (by simp)
  | sleep hw => exact .sleep hw
  | reap _ hpc hz hp _ => exact .reap false hpc hz hp (.inl rfl)
  | touch hw hpc hc ht hx => exact .touch hw hpc hc ht hx
  | free hw hc hx => exact .free hw hc hx
  | leaveLoop ha hc => exact .leaveLoop ha hc

theorem Running.anyCases (hr : Running k v) (ht : k.threads[t]? = some tcb)
    (hl : tcb.live = true) (status : Bool)
    {wait done : ThreadPc} (hwait : (∃ s, wait = .waitAny s) ∨ ∃ x, wait = .exitWait x)
    (hdone : done.idles) :
    ProcStep k v t tcb e (waitForAnyLoop k t tcb.ownerPcb status wait done).1
      (waitForAnyLoop k t tcb.ownerPcb status wait done).2 := by
  by_cases hc : isRlistEmpty k.heap (.childrenList tcb.ownerPcb) = true
  · simp only [waitForAnyLoop, hc, if_true]
    apply ProcStep.stay hdone
    intro r hr
    rw [← Option.some.inj hr]
  · have hchildren : v.children tcb.ownerPcb ≠ [] := fun h =>
      hc ((hr.table.lists.empty_children _).mpr h)
    by_cases he : isRlistEmpty k.heap (.exitedList tcb.ownerPcb) = true
    · have hexited := (hr.table.lists.empty_exited _).mp he
      simp only [waitForAnyLoop, hc, he, if_true, if_false, Bool.false_eq_true]
      exact .sleep (.inr ⟨hwait, hchildren, hexited⟩)
    · have hal := (hr.owner t tcb ht hl).1
      obtain ⟨z, hnext, hz, hzp⟩ := hr.table.first_exited (Family.ne_free_of_alive hal) he
      simp only [waitForAnyLoop, hc, he, hnext, hr.table.lists.key_exited z, hz, if_true, if_false,
        Bool.false_eq_true]
      exact .reap status hdone hz hzp (.inr rfl)

theorem Running.specificCases (status : Bool) {c : Pid} (n : Nat)
    (hnf : (k.pt c).pstate ≠ .free) (hp : (k.pt c).parent = some tcb.ownerPcb) :
    ProcStep k v t tcb e (waitForSpecificLoop k t tcb.ownerPcb c status n).1
      (waitForSpecificLoop k t tcb.ownerPcb c status n).2 := by
  by_cases hal : (k.pt c).pstate = .alive
  · simp only [waitForSpecificLoop, hal, if_true]
    exact .sleep (.inl ⟨c, status, n, rfl, hal, hp⟩)
  · have hz := PidState.zombie_of_ne hnf hal
    simp only [waitForSpecificLoop, hz, reduceCtorEq, if_false]
    exact .reap status (.inl rfl) hz hp (.inr rfl)

theorem stayed (ht : k.threads[t]? = some tcb) (hpc : tcb.pc = .user) {ret : Option Ret}
    (hret : ∀ r, ret = some r → r.out = none) : ProcStep k v t tcb e k ret := by
  have hsame : k.setPc t .user = k := by simp [Kernel.setPc, setPc_same ht hpc]
  have hstay : ProcStep k v t tcb e (k.setPc t .user) ret := .stay (.inl rfl) hret
  rwa [hsame] at hstay

theorem Running.waitCases (hr : Running k v) (ht : k.threads[t]? = some tcb) (hl : tcb.live = true)
    (hpc : tcb.pc = .user) (cpid : Int) (status : Bool) :
    ProcStep k v t tcb e (sysWaitChild k t tcb.ownerPcb cpid status).1
      (sysWaitChild k t tcb.ownerPcb cpid status).2 := by
  have hno : ProcStep k v t tcb e k (some ⟨noProc, none⟩) :=
    stayed ht hpc fun r hr => by rw [← Option.some.inj hr]
  by_cases hany : cpid = noProc
  · simp only [sysWaitChild, hany, ne_eq, not_true_eq_false, if_false]
    exact hr.anyCases ht hl status (.inl ⟨status, rfl⟩) (.inl rfl)
  · simp only [sysWaitChild, hany, ne_eq, not_false_eq_true, if_true, waitForSpecificChild]
    by_cases hrange : 0 ≤ cpid ∧ cpid < maxProc
    · simp only [hrange, and_self, dif_pos, getPcb]
      by_cases hfree : (k.pt ⟨cpid.toNat, by omega⟩).pstate = .free
      · simp only [hfree, if_true]
        exact hno
      · simp only [hfree, if_false]
        by_cases hp : (k.pt ⟨cpid.toNat, by omega⟩).parent = some tcb.ownerPcb
        · simp only [hp, not_true_eq_false, if_false]
          exact specificCases status _ hfree hp
        · simp only [hp, not_false_eq_true, if_true]
          exact hno
    · simp only [hrange, dif_neg, not_false_eq_true]
      exact hno

theorem Running.joinCases (hr : Running k v) {a : Tid} {c d : PTCB}
    (hwaits : k.waits e = false) (hc : k.ptcbs a = some c)
    (hd : d = { c with refcount := d.refcount }) (status : Bool) :
    ProcStep k v t tcb e (threadJoinLoop (k.counted a d) t a status).1
      (threadJoinLoop (k.counted a d) t a status).2 := by
  have hget : (k.counted a d).ptcbs a = some d := by simp [Kernel.counted]
  have hdt : d.tcb = c.tcb := by rw [hd]
  have hde : d.exited = c.exited := by rw [hd]
  have hdd : d.detached = c.detached := by rw [hd]
  obtain ⟨hex, hdet⟩ := hr.flags a c hc
  by_cases hsleep : d.exited = 0 ∧ d.detached = 0
  · rw [threadJoinLoop_sleep hget hsleep, touch_counted]
    exact .touch hwaits (.inr ⟨status, rfl⟩) hc hdt hde
  · by_cases hstay : d.detached = 1 ∨ d.refcount - 1 ≠ 0
    · rw [threadJoinLoop_leave hget hsleep hstay, touch_counted]
      exact .touch hwaits (.inl rfl) hc hdt hde
    · obtain ⟨hdet', hzero'⟩ := not_or.mp hstay
      rw [threadJoinLoop_free hget hsleep hdet' (not_not.mp hzero'), touch_counted]
      refine .free hwaits hc ?_
      rw [hdd] at hdet' hsleep
      rw [hde] at hsleep
      omega

theorem Running.threadJoinCases (hr : Running k v) (ht : k.threads[t]? = some tcb)
    (hpc : tcb.pc = .user) (tid : Tid)
    (status : Bool) : ProcStep k v t tcb (.threadJoin t tid status)
      (sysThreadJoin k t tcb.ownerPcb tcb.ptcb tid status).1
        (sysThreadJoin k t tcb.ownerPcb tcb.ptcb tid status).2 := by
  have hno : ProcStep k v t tcb (.threadJoin t tid status) k (some ⟨-1, none⟩) :=
    stayed ht hpc fun r hr => by rw [← Option.some.inj hr]
  by_cases hfind : rlistFind k.heap (.ptcbList tcb.ownerPcb) (.ptcb tid) = none
  · simp only [sysThreadJoin, hfind, if_true]
    exact hno
  · have ha : tid ∈ v.ptcbs tcb.ownerPcb := not_not.mp fun h => hfind ((hr.table.find _ tid).mpr h)
    obtain ⟨c, hc⟩ := hr.mem_ptcbs ha
    by_cases hself : c.detached = 1 ∨ tcb.ptcb = some tid
    · simp only [sysThreadJoin, hfind, hc, hself, if_true, if_false]
      exact hno
    · simp only [sysThreadJoin, hfind, hc, hself, if_false]
      have hcounted : k.setPTCB tid (fun c => { c with refcount := c.refcount + 1 }) =
          k.counted tid { c with refcount := c.refcount + 1 } := by
        simp [Kernel.setPTCB, Kernel.counted, hc]
      rw [hcounted]
      exact hr.joinCases (d := { c with refcount := c.refcount + 1 }) rfl hc rfl status

theorem Running.threadDetachCases (hr : Running k v) (ht : k.threads[t]? = some tcb)
    (hpc : tcb.pc = .user) (tid : Tid) :
    ProcStep k v t tcb (.threadDetach t tid) (sysThreadDetach k tcb.ownerPcb tid).1
      (sysThreadDetach k tcb.ownerPcb tid).2 := by
  have hno : ProcStep k v t tcb (.threadDetach t tid) k (some ⟨-1, none⟩) :=
    stayed ht hpc fun r hr => by rw [← Option.some.inj hr]
  by_cases hfind : rlistFind k.heap (.ptcbList tcb.ownerPcb) (.ptcb tid) = none
  · simp only [sysThreadDetach, hfind, if_true]
    exact hno
  · have ha : tid ∈ v.ptcbs tcb.ownerPcb := not_not.mp fun h => hfind ((hr.table.find _ tid).mpr h)
    obtain ⟨c, hc⟩ := hr.mem_ptcbs ha
    by_cases hex : c.exited = 1
    · simp only [sysThreadDetach, hfind, hc, hex, if_true, if_false]
      exact hno
    · have htouch : k.setPTCB tid (fun c =>
          { c with detached := 1, exitCv := kernelBroadcast c.exitCv }) =
          k.touch t tid { c with detached := 1, exitCv := kernelBroadcast c.exitCv } .user := by
        simp [Kernel.setPTCB, Kernel.touch, hc, setPc_same ht hpc]
      simp only [sysThreadDetach, hfind, hc, hex, if_false, htouch]
      exact .touch rfl (.inl rfl) hc rfl rfl

theorem Running.exitLoopCases (hr : Running k v) (ht : k.threads[t]? = some tcb)
    (hl : tcb.live = true) {a : Tid}
    (ha : tcb.ptcb = some a) (x : Int) :
    ProcStep k v t tcb (.proceed t) (sysExitLoop k t tcb.ownerPcb a x) none := by
  by_cases hc : isRlistEmpty k.heap (.childrenList tcb.ownerPcb) = true
  · simp only [sysExitLoop, waitForAnyLoop, hc, if_true, ne_eq, not_true_eq_false, if_false]
    exact .leaveLoop ha ((hr.table.lists.empty_children _).mp hc)
  · have hloop := hr.anyCases (e := .proceed t) ht hl false (.inr ⟨x, rfl⟩) (.inr ⟨x, rfl⟩)
    have hval : ∀ r, (waitForAnyLoop k t tcb.ownerPcb false (.exitWait x) (.exitLoop x)).2 =
        some r → r.val ≠ noProc :=
      fun r => waitForAnyLoop_val (.exitWait x) (.exitLoop x) (by simpa using hc)
    have hkernel : sysExitLoop k t tcb.ownerPcb a x =
        (waitForAnyLoop k t tcb.ownerPcb false (.exitWait x) (.exitLoop x)).1 := by
      rw [sysExitLoop]
      generalize waitForAnyLoop k t tcb.ownerPcb false (.exitWait x) (.exitLoop x) = res at hval
      obtain ⟨k1, _ | ret⟩ := res
      · rfl
      · simp only [hval ret rfl, ne_eq, not_false_eq_true, if_true]
    rw [hkernel]
    exact hloop.unreturned

theorem Running.callCases (hr : Running k v) {x : TCB} (hx : k.threads[e.thread]? = some x)
    (huser : x.pc = .user) (h : k.call x e = some (k', ret)) :
    ProcStep k v e.thread x e k' ret := by
  have hl : x.live = true := by simp [TCB.live, huser]
  cases e with
  | exec t call argl args a =>
    simp only [Kernel.call] at h
    split at h
    case isFalse => simp at h
    case isTrue ha =>
      obtain ⟨rfl, rfl⟩ : _ = k' ∧ _ = ret := by simpa using h
      obtain ⟨hal, h0⟩ := hr.owner t x hx hl
      cases hfree : v.free with
      | nil =>
        rw [sysExec_full (hr.table.freelist_none.mpr hfree)]
        exact stayed hx huser fun r hr => by rw [← Option.some.inj hr]
      | cons n rest =>
        obtain ⟨hk, hn, hn1⟩ := hr.table.freelist_cons hfree
        have hcn : x.ownerPcb ≠ n := fun he => by simp [he, hn] at hal
        cases call with
        | none =>
          rw [sysExec_idle hk hn1 hcn]
          exact .execIdle hfree
        | some task =>
          rw [sysExec_task hk hn1 hcn]
          exact .execTask hfree ha
  | exit t ev =>
    obtain ⟨a, ha, he⟩ := Option.map_eq_some_iff.mp h
    obtain ⟨rfl, rfl⟩ : _ = k' ∧ _ = ret := by simpa using he
    by_cases h1 : x.ownerPcb = 1
    · have hpid : getPid (some x.ownerPcb) = 1 := by rw [h1]; rfl
      simp only [sysExit, hpid, if_true]
      exact .enterExit h1
    · have hpid : getPid (some x.ownerPcb) ≠ 1 := by
        intro hp
        have hval : x.ownerPcb.val = 1 := by
          have : (x.ownerPcb.val : Int) = 1 := hp
          omega
        exact h1 (Fin.ext hval)
      simp only [sysExit, hpid, if_false]
      exact .exit h1 ha
  | waitChild t cpid status =>
    simp only [Kernel.call, Option.some.injEq] at h
    have hw := hr.waitCases (e := .waitChild t cpid status) hx hl huser cpid status
    simp only [ProcEvent.thread] at hw
    rwa [h] at hw
  | createThread t task argl args a =>
    simp only [Kernel.call] at h
    split at h
    case isFalse => simp at h
    case isTrue ha =>
      obtain ⟨rfl, rfl⟩ : _ = k' ∧ _ = ret := by simpa using h
      cases task with
      | none => exact .createNull ha
      | some task =>
        rw [sysCreateThread_task]
        exact .create ha
  | threadJoin t tid status =>
    simp only [Kernel.call, Option.some.injEq] at h
    have hw := hr.threadJoinCases hx huser tid status
    simp only [ProcEvent.thread] at hw
    rwa [h] at hw
  | threadDetach t tid =>
    simp only [Kernel.call, Option.some.injEq] at h
    have hw := hr.threadDetachCases hx huser tid
    simp only [ProcEvent.thread] at hw
    rwa [h] at hw
  | threadExit t ev =>
    obtain ⟨a, ha, he⟩ := Option.map_eq_some_iff.mp h
    obtain ⟨rfl, rfl⟩ : _ = k' ∧ _ = ret := by simpa using he
    exact .threadExit ha
  | proceed t => simp [Kernel.call] at h

theorem Running.goOnCases (hr : Running k v) (hok : notReaped k (.proceed t) = true) {x : TCB}
    (hx : k.threads[t]? = some x) (h : k.goOn t x = some (k', ret)) :
    x.live = true ∧ ProcStep k v t x (.proceed t) k' ret := by
  cases hpc : x.pc with
  | user => simp [Kernel.goOn, hpc] at h
  | exited => simp [Kernel.goOn, hpc] at h
  | waitSpecific c s n =>
    simp only [Kernel.goOn, hpc] at h
    split at h
    · simp at h
    · obtain ⟨hn, hnf, hp⟩ := (hr.waiting t x hx c s n hpc).2 fun r hr => by
        have hall : (k.reaps.all fun r => !(r.pcb = c && r.occupant = n)) = true := by
          simpa [notReaped, Kernel.pcOf, hx, hpc] using hok
        have hr' := List.all_eq_true.mp hall r hr
        rintro ⟨h1, h2⟩
        simp [h1, h2] at hr'
      have hw := Running.specificCases (v := v) (t := t) (e := .proceed t) s n hnf hp
      rw [Option.some.inj h] at hw
      exact ⟨by simp [TCB.live, hpc], hw⟩
  | waitAny s =>
    simp only [Kernel.goOn, hpc] at h
    split at h
    · simp at h
    · have hlive : x.live = true := by simp [TCB.live, hpc]
      have hw := hr.anyCases (e := .proceed t) hx hlive s (.inl ⟨s, rfl⟩) (.inl rfl)
      rw [Option.some.inj h] at hw
      exact ⟨hlive, hw⟩
  | exitLoop ev =>
    simp only [Kernel.goOn, hpc] at h
    obtain ⟨a, ha, he⟩ := Option.map_eq_some_iff.mp h
    obtain ⟨rfl, rfl⟩ : _ = k' ∧ _ = ret := by simpa using he
    have hlive : x.live = true := by simp [TCB.live, hpc]
    exact ⟨hlive, hr.exitLoopCases hx hlive ha ev⟩
  | exitWait ev =>
    simp only [Kernel.goOn, hpc] at h
    split at h
    · simp at h
    · obtain ⟨a, ha, he⟩ := Option.map_eq_some_iff.mp h
      obtain ⟨rfl, rfl⟩ : _ = k' ∧ _ = ret := by simpa using he
      have hlive : x.live = true := by simp [TCB.live, hpc]
      exact ⟨hlive, hr.exitLoopCases hx hlive ha ev⟩
  | joining tid s =>
    simp only [Kernel.goOn, hpc] at h
    split at h
    · simp at h
    · have hj : x.pc.joins tid = true := by simp [hpc, ThreadPc.joins]
      obtain ⟨c, hc⟩ := hr.mem_ptcbs (hr.joining t x tid hx hj)
      have hcounted : k.counted tid c = k := by simp [Kernel.counted, ← hc]
      have hquiet : k.waits (.proceed t) = false := by
        simp [Kernel.waits, Kernel.pcOf, hx, hpc]
      have hw : ProcStep k v t x (.proceed t) (threadJoinLoop (k.counted tid c) t tid s).1
          (threadJoinLoop (k.counted tid c) t tid s).2 := hr.joinCases hquiet hc rfl s
      rw [hcounted, Option.some.inj h] at hw
      exact ⟨ThreadPc.joins_live hj, hw⟩

theorem Running.stepCases (hr : Running k v) (hok : notReaped k e = true)
    (h : k.stepRet e = some (k', ret)) :
    k.panicked = false ∧ ∃ tcb, k.threads[e.thread]? = some tcb ∧ tcb.live = true ∧
      ProcStep k v e.thread tcb e k' ret := by
  simp only [Kernel.stepRet] at h
  split at h
  · exact absurd h (by simp)
  rename_i hpanic
  refine ⟨by simpa using hpanic, ?_⟩
  cases hx : k.threads[e.thread]? with
  | none => simp [hx] at h
  | some x =>
    simp only [hx] at h
    refine ⟨x, rfl, ?_⟩
    by_cases huser : x.pc = .user
    · simp only [huser, if_true] at h
      exact ⟨by simp [TCB.live, huser], hr.callCases hx huser h⟩
    · simp only [huser, if_false] at h
      cases e with
      | proceed t => exact hr.goOnCases hok hx h
      | _ => simp at h

end Cases

end TinyOS
