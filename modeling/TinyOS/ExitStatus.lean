import TinyOS.ProcessExits

/-! The status that `WaitChild` stores. Nothing resets `exitval` when a PCB is acquired,
so a process that never calls `Exit` passes on what an earlier one in its PCB left. -/

namespace TinyOS

open Transition

/-- Of each PCB, the argument of the last `Exit` called by its occupant, and that of the last one
called by an earlier occupant. -/
structure ExitLog where
  last : Pid → Option Int
  earlier : Pid → Option Int

def ExitLog.empty : ExitLog := ⟨fun _ => none, fun _ => none⟩

def ExitLog.called (l : ExitLog) (p : Pid) (x : Int) : ExitLog :=
  { l with last := Function.update l.last p (some x) }

/-- What a step from `k` to `k'` adds to the log; a PCB that is acquired has a new occupant. -/
def ExitLog.record (l : ExitLog) (k : Kernel) (e : ProcEvent) (k' : Kernel) : ExitLog :=
  let l := match e with
    | .exit t x => match k.threads[t]? with
      | some tcb => l.called tcb.ownerPcb x
      | none => l
    | _ => l
  { last := fun p => if k'.acquired p = k.acquired p then l.last p else none
    earlier := fun p => if k'.acquired p = k.acquired p then l.earlier p
      else (l.last p).or (l.earlier p) }

def stepLogged (s : Kernel × ExitLog) (e : ProcEvent) : Option (Kernel × ExitLog) :=
  (s.1.step e).map fun k => (k, s.2.record s.1 e k)

def ExitLog.value (l : ExitLog) (p : Pid) : Int := (l.last p).getD ((l.earlier p).getD 0)

section Step

variable {k k' : Kernel} {v : TableView} {t : ThreadId} {tcb : TCB} {p d : Pid}
  {e : ProcEvent} {ret : Option Ret}
  {l : ExitLog}

theorem ExitLog.value_called (l : ExitLog) (p q : Pid) (x : Int) :
    (l.called p x).value q = if q = p then x else l.value q := by
  by_cases hq : q = p <;> simp [value, called, hq]

theorem ExitLog.value_record (l : ExitLog) (k k' : Kernel) (e : ProcEvent)
    (hno : ∀ t x, e ≠ .exit t x) (p : Pid) :
    (l.record k e k').value p = l.value p := by
  have hkeep : (if k'.acquired p = k.acquired p then l.last p else none).getD
      ((if k'.acquired p = k.acquired p then l.earlier p else (l.last p).or (l.earlier p)).getD 0) =
      (l.last p).getD ((l.earlier p).getD 0) := by
    by_cases hacq : k'.acquired p = k.acquired p
    · simp [hacq]
    · cases hlast : l.last p <;> simp [hacq]
  cases e with
  | exit t x => exact absurd rfl (hno t x)
  | _ => exact hkeep

theorem ExitLog.value_exit (l : ExitLog) (k k' : Kernel) (ht : k.threads[t]? = some tcb)
    (x : Int) (p : Pid) :
    (l.record k (.exit t x) k').value p = if p = tcb.ownerPcb then x else l.value p := by
  rw [← l.value_called]
  simp only [value, record, ht]
  by_cases hacq : k'.acquired p = k.acquired p
  · simp [hacq]
  · cases hlast : (l.called tcb.ownerPcb x).last p <;> simp [hacq]

theorem ThreadEnd.exitval {a : Tid} {x : Int} (h : ThreadEnd k v t d a x k') (p : Pid) :
    (k'.pt p).exitval = (k.pt p).exitval := by
  have hk0 : ∀ p, ((exitedKernel k d a x).pt p).exitval = (k.pt p).exitval := fun p => by
    by_cases hp : p = d <;> simp [exitedKernel, Kernel.setPTCB, hp]
  have hbury : ∀ l h pt, (((exitedKernel k d a x).bury d l h pt).pt p).exitval =
      (pt p).exitval := by
    intro l h pt
    by_cases hp : p = d <;> simp [Kernel.bury, PCB.dead, hp]
  cases h with
  | more => exact hk0 p
  | abort => exact hk0 p
  | @retire h => exact (hbury (v.ptcbs d) h _).trans (hk0 p)
  | @last h pt w _ _ hsame =>
    refine (hbury (v.ptcbs d) h pt).trans (Eq.trans ?_ (hk0 p))
    obtain ⟨cv, hcv⟩ := hsame p
    rw [hcv]
    by_cases hc : p ∈ v.children d <;> simp [orphaned, hc]

theorem stepRet_exit {x : Int} (h : k.stepRet (.exit t x) = some (k', ret)) :
    ∃ tcb a, k.threads[t]? = some tcb ∧ tcb.pc = .user ∧ k' = sysExit k t tcb.ownerPcb a x ∧
    ret = none := by
  simp only [Kernel.stepRet, ProcEvent.thread] at h
  split at h
  · simp at h
  · cases hx : k.threads[t]? with
    | none => simp [hx] at h
    | some tcb =>
      simp only [hx] at h
      by_cases huser : tcb.pc = .user
      · simp only [huser, if_true, Kernel.call] at h
        obtain ⟨a, -, he⟩ := Option.map_eq_some_iff.mp h
        exact ⟨tcb, a, rfl, huser, (Prod.mk.inj he).1.symm, (Prod.mk.inj he).2.symm⟩
      · simp [huser] at h

theorem Running.exit_writes (hr : Running k v) (ht : k.threads[t]? = some tcb)
    (hl : tcb.live = true) (a : Tid)
    (x : Int) (p : Pid) : ((sysExit k t tcb.ownerPcb a x).pt p).exitval =
      if p = tcb.ownerPcb then x else (k.pt p).exitval := by
  obtain ⟨hal, h0⟩ := hr.owner t tcb ht hl
  have hset : ((k.setPCB tcb.ownerPcb fun c => { c with exitval := x }).pt p).exitval =
      if p = tcb.ownerPcb then x else (k.pt p).exitval := by
    by_cases hp : p = tcb.ownerPcb <;> simp [hp]
  by_cases h1 : getPid (some tcb.ownerPcb) = 1
  · simp only [sysExit, h1, if_true]
    exact hset
  · simp only [sysExit, h1, if_false]
    have hend := (hr.table.setExitval tcb.ownerPcb x).threadEnd (by simpa using hal) h0 t a x
    exact (hend.exitval p).trans hset

/-- No other step writes the value of a process. -/
theorem Running.exitval (hr : Running k v) (hok : notReaped k e = true)
    (h : k.stepRet e = some (k', ret))
    (hno : ∀ t x, e ≠ .exit t x) (p : Pid) : (k'.pt p).exitval = (k.pt p).exitval := by
  obtain ⟨-, tcb, ht, hl, hstep⟩ := hr.stepCases hok h
  obtain ⟨hal, h0⟩ := hr.owner _ tcb ht hl
  generalize e.thread = t at ht hstep
  cases hstep with
  | sleep => by_cases hp : p = tcb.ownerPcb <;> simp [Kernel.setPc, hp]
  | @reap e z =>
    by_cases hp : p = z <;> simp [Kernel.setPc, cleanupZombie, releasePCB, Kernel.setPCB, hp]
  | @execIdle n => by_cases hp : p = n <;> simp [execKernel, execPcb, hp]
  | @execTask n => by_cases hp : p = n <;> simp [execTaskKernel, execPcb, hp]
  | create => by_cases hp : p = tcb.ownerPcb <;> simp [createdKernel, hp]
  | @enterExit x => exact absurd rfl (hno t x)
  | @exit x => exact absurd rfl (hno t x)
  | @threadExit x a => exact (hr.table.threadEnd hal h0 t a x).exitval p
  | @leaveLoop x a => exact ((hr.table.setPc t (.exitLoop x)).threadEnd hal h0 t a x).exitval p
  | _ => rfl

/-- A wait that stores a status stores the value of the child. -/
theorem Running.stores (hr : Running k v) (hok : notReaped k e = true)
    (hw : k.waits e = true) {z : Pid} {st : Int}
    (h : k.stepRet e = some (k', some ⟨z.val, some st⟩)) : st = (k.pt z).exitval := by
  obtain ⟨-, tcb, ht, hl, hstep⟩ := hr.stepCases hok h
  generalize e.thread = t at ht hstep
  generalize hret : some (⟨z.val, some st⟩ : Ret) = ret at hstep
  cases hstep with
  | stay _ hout => exact absurd (hout _ hret.symm) (by simp)
  | @reap e y pc ret status hpc hz hp hreap =>
    rcases hreap with hreap | hreap
    · simp [hreap] at hret
    · obtain ⟨hval, hout⟩ := Ret.mk.inj (Option.some.inj (hret.trans hreap))
      obtain rfl : z = y := Fin.ext (by exact_mod_cast hval)
      by_cases hs : status = true
      · simpa [hs] using hout
      · simp [hs] at hout
  | touch hq => simp [hq] at hw
  | free hq => simp [hq] at hw
  | _ => simp at hret

end Step

abbrev NotReapedLogged (s : Kernel × ExitLog) (e : ProcEvent) : Prop := NotReaped s.1 e

theorem exitval_of_reach {task : Task} {argl : Int} {args : ExecArgs argl}
    {a : Tid} {s : Kernel × ExitLog}
    (h : Reach stepLogged NotReapedLogged (bootKernel task argl args a, ExitLog.empty) s) :
    Reach Kernel.step NotReaped (bootKernel task argl args a) s.1 ∧
      ∀ p, (s.1.pt p).exitval = s.2.value p := by
  induction h with
  | refl =>
    dsimp only
    refine ⟨.refl, fun p => ?_⟩
    show ((bootKernel task argl args a).pt p).exitval = ExitLog.empty.value p
    rw [bootKernel_eq]
    by_cases h1 : p = 1
    · simp [h1, initPcb, freePcb, initializePCB, PCB.zeroed, ExitLog.value, ExitLog.empty]
    · by_cases h0 : p = 0 <;>
        simp [h0, h1, idlePcb, freePcb, initializePCB, PCB.zeroed, ExitLog.value, ExitLog.empty]
  | @tail s s' _ hst ih =>
    obtain ⟨hprev, ih⟩ := ih
    obtain ⟨e, hok, he⟩ := hst
    obtain ⟨k', hk', rfl⟩ := Option.map_eq_some_iff.mp he
    refine ⟨hprev.tail ⟨e, hok, hk'⟩, fun p => ?_⟩
    obtain ⟨⟨k'', ret⟩, hstep, rfl⟩ := Option.map_eq_some_iff.mp hk'
    rcases (reach_running hprev).2 with ⟨v, hr⟩ | hend
    · by_cases hexit : ∃ t x, e = .exit t x
      · obtain ⟨t, x, rfl⟩ := hexit
        obtain ⟨tcb, a, ht, hpc, rfl, -⟩ := stepRet_exit hstep
        show ((sysExit s.1 t tcb.ownerPcb a x).pt p).exitval = _
        rw [hr.exit_writes ht (by simp [TCB.live, hpc]) a x p, ExitLog.value_exit _ _ _ ht, ih]
      · have hno : ∀ t x, e ≠ .exit t x := fun t x he => hexit ⟨t, x, he⟩
        show (k''.pt p).exitval = _
        rw [hr.exitval hok hstep hno, ExitLog.value_record _ _ _ _ hno, ih]
    · rw [hend.stepRet] at hstep
      simp at hstep

/-- Init executes a process that exits with `x`, reaps it, and executes one that ends by
`ThreadExit`. -/
def secondOccupant (x : Int) : List ProcEvent :=
  [.exec 0 (some 7) 0 none 3, .exit 1 x, .waitChild 0 2 false, .exec 0 (some 7) 0 none 4,
    .threadExit 2 0]

theorem secondOccupant_status : ∀ x ∈ [7, 9], ∃ k,
    Reach Kernel.step Always (bootKernel 0 0 none 1) k ∧
    exec Kernel.step (bootKernel 0 0 none 1) (secondOccupant x) = some k ∧
      ∃ k', k.stepRet (.waitChild 0 2 true) = some (k', some ⟨2, some x⟩) := by
  intro x hx
  have hrun : (exec Kernel.step (bootKernel 0 0 none 1) (secondOccupant x)).any (fun k =>
      (k.stepRet (.waitChild 0 2 true)).any fun r => r.2 = some ⟨2, some x⟩) = true := by
    rw [bootKernel_eq]
    rcases List.mem_cons.mp hx with rfl | hx
    · decide +kernel
    · obtain rfl := List.mem_singleton.mp hx
      decide +kernel
  obtain ⟨k, hk, hp⟩ := (Option.any_eq_true _ _).mp hrun
  obtain ⟨⟨k', ret⟩, hk', hret⟩ := (Option.any_eq_true _ _).mp hp
  obtain rfl : ret = some ⟨2, some x⟩ := of_decide_eq_true hret
  exact ⟨k, reach_of_exec hk, hk, k', hk'⟩

/-- The status of the second process in a PCB is the value with which the first one exited. -/
theorem waitChild_stores_earlier :
    (∃ k k', Reach Kernel.step Always (bootKernel 0 0 none 1) k ∧
      exec Kernel.step (bootKernel 0 0 none 1) (secondOccupant 7) = some k ∧
        k.stepRet (.waitChild 0 2 true) = some (k', some ⟨2, some 7⟩)) ∧
    ∃ k k', Reach Kernel.step Always (bootKernel 0 0 none 1) k ∧
      exec Kernel.step (bootKernel 0 0 none 1) (secondOccupant 9) = some k ∧
        k.stepRet (.waitChild 0 2 true) = some (k', some ⟨2, some 9⟩) := by
  obtain ⟨k, hreach, hk, k', hw⟩ := secondOccupant_status 7 (by simp)
  obtain ⟨l, hreach', hl, l', hw'⟩ := secondOccupant_status 9 (by simp)
  exact ⟨⟨k, k', hreach, hk, hw⟩, l, l', hreach', hl, hw'⟩

/-- In runs in which no thread comes back to a reaped child, a wait stores the argument of the last
`Exit` that the child called. If it called none, the status is 0, unless an earlier process in its
PCB called `Exit`, whose argument it is then. -/
theorem waitChild_status {task : Task} {argl : Int} {args : ExecArgs argl}
    {a : Tid} {k : Kernel} {l : ExitLog}
    (h : Reach stepLogged NotReapedLogged (bootKernel task argl args a, ExitLog.empty) (k, l))
    {e : ProcEvent} {k' : Kernel} {z : Pid} {st : Int} (hok : NotReaped k e) (hw : k.waits e = true)
    (hstep : k.stepRet e = some (k', some ⟨z.val, some st⟩)) :
    (l.last z ≠ none ∨ l.earlier z = none → st = (l.last z).getD 0) ∧
      ∀ x, l.last z = none → l.earlier z = some x → st = x := by
  obtain ⟨hreach, hval⟩ := exitval_of_reach h
  have hst : st = l.value z := by
    rcases (reach_running hreach).2 with ⟨v, hr⟩ | hend
    · rw [hr.stores hok hw hstep]
      exact hval z
    · rw [hend.stepRet] at hstep
      simp at hstep
  rw [hst, ExitLog.value]
  constructor
  · rintro (hlast | hearlier)
    · obtain ⟨x, hx⟩ := Option.ne_none_iff_exists'.mp hlast
      simp [hx]
    · simp [hearlier]
  · intro x hlast hearlier
    simp [hlast, hearlier]

/-- Init executes a process that exits with 7, and waits for it. -/
theorem waitChild_status_run : ∃ (k k' : Kernel) (l : ExitLog),
    k.stepRet (.waitChild 0 2 true) = some (k', some ⟨2, some 7⟩) ∧
    (7 : Int) = (l.last 2).getD 0 := by
  obtain ⟨⟨k, l⟩, hk, hp⟩ := exists_reach_of_guarded stepLogged (fun s e => notReaped s.1 e)
    (bootKernel 0 0 none 1, ExitLog.empty)
    [.exec 0 (some 7) 0 none 3, .exit 1 5, .waitChild 0 (-1) false,
      .exec 0 (some 7) 0 none 4, .exit 2 7]
    (fun s => (s.1.stepRet (.waitChild 0 2 true)).any (fun r => r.2 = some ⟨2, some 7⟩) &&
      s.2.last 2 = some 7)
    (by rw [bootKernel_eq]; decide +kernel)
  obtain ⟨hret, hlast⟩ := Bool.and_eq_true_iff.mp hp
  obtain ⟨⟨k', ret⟩, hk', hret'⟩ := (Option.any_eq_true _ _).mp hret
  obtain rfl : ret = some ⟨2, some 7⟩ := of_decide_eq_true hret'
  have hlast' : l.last 2 = some 7 := of_decide_eq_true hlast
  exact ⟨k, k', l, hk', (waitChild_status (z := 2) hk rfl rfl hk').1 (.inl (by simp [hlast']))⟩

end TinyOS
