import TinyOS.ProcessExits

/-! The assertions of `sys_ThreadExit` that the dying process has no children left. Init
does not give its children away; it reaps them in `sys_Exit`, which not every last
thread of init goes through. -/

namespace TinyOS

open Transition

/-- The last thread of init calls `ThreadExit`, or returns from its task, while init has a child. -/
def AbandonsChildren (k : Kernel) : ProcEvent → Prop
  | .threadExit t _ => (∃ tcb, k.threads[t]? = some tcb ∧ tcb.pc = .user ∧ tcb.ownerPcb = 1) ∧
      (k.pt 1).threadCount = 1 ∧ ∃ p, (k.pt p).pstate ≠ .free ∧ (k.pt p).parent = some 1
  | _ => False

section Step

variable {k k' : Kernel} {v : TableView} {t : ThreadId} {tcb : TCB} {d : Pid}
  {e : ProcEvent} {ret : Option Ret}

theorem ThreadEnd.panicked {a : Tid} {x : Int} (h : ThreadEnd k v t d a x k')
    (hk : k.panicked = false) :
    k'.panicked = true ↔ (k.pt d).threadCount = 1 ∧ d = 1 ∧ v.children d ≠ [] := by
  cases h with
  | more hne => simp [Kernel.setPc, exitedKernel, Kernel.setPTCB, Kernel.setPCB, hk, hne]
  | last _ hne =>
    simp [Kernel.setPc, Kernel.bury, exitedKernel, Kernel.setPTCB, Kernel.setPCB, hk, hne]
  | retire _ _ hch _ =>
    simp [Kernel.setPc, Kernel.bury, exitedKernel, Kernel.setPTCB, Kernel.setPCB, hk, hch]
  | abort hone hd hch => exact iff_of_true rfl ⟨hone, hd, hch⟩

theorem stepRet_threadExit {x : Int} (h : k.stepRet (.threadExit t x) = some (k', ret)) :
    ∃ tcb a, k.threads[t]? = some tcb ∧ tcb.pc = .user ∧
    k' = sysThreadExit k t tcb.ownerPcb a x := by
  simp only [Kernel.stepRet, ProcEvent.thread] at h
  split at h
  · simp at h
  · cases hx : k.threads[t]? with
    | none => simp [hx] at h
    | some tcb =>
      simp only [hx] at h
      by_cases huser : tcb.pc = .user
      · simp only [huser, if_true, Kernel.call] at h
        obtain ⟨a, -, he⟩ := Option.map_eq_some_iff.mp h
        exact ⟨tcb, a, rfl, huser, (Prod.mk.inj he).1.symm⟩
      · simp [huser] at h

/-- Only this one step makes an assertion fail. -/
theorem Running.panics_iff (hr : Running k v) (hok : notReaped k e = true)
    (h : k.stepRet e = some (k', ret)) :
    k'.panicked = true ↔ AbandonsChildren k e := by
  obtain ⟨hk, tcb, ht, hl, hstep⟩ := hr.stepCases hok h
  obtain ⟨hal, h0⟩ := hr.owner _ tcb ht hl
  have hcount : ∀ p, (k.pt p).pstate ≠ .free ∧ (k.pt p).parent = some 1 ↔
      p ∈ v.children 1 := fun p =>
    (hr.table.family.mem_children 1 (Family.ne_free_of_alive hr.table.family.one_alive) p).symm
  by_cases hexit : ∃ u x, e = .threadExit u x
  · obtain ⟨u, x, rfl⟩ := hexit
    obtain ⟨tcb', a, ht', hpc, rfl⟩ := stepRet_threadExit h
    obtain rfl : tcb = tcb' := Option.some.inj (ht.symm.trans ht')
    rw [(hr.table.threadEnd hal h0 u a x).panicked hk]
    simp only [AbandonsChildren, hcount]
    constructor
    · rintro ⟨hone, hd, hch⟩
      rw [hd] at hone hch
      exact ⟨⟨tcb, ht', hpc, hd⟩, hone, List.exists_mem_of_ne_nil _ hch⟩
    · rintro ⟨⟨tcb', ht', -, hd⟩, hone, p, hp⟩
      obtain rfl : tcb = tcb' := Option.some.inj (ht.symm.trans ht')
      exact ⟨hd.symm ▸ hone, hd, hd.symm ▸ List.ne_nil_of_mem hp⟩
  · have hno : ¬AbandonsChildren k e := by
      cases e with
      | threadExit u x => exact fun _ => hexit ⟨u, x, rfl⟩
      | _ => exact id
    refine iff_of_false ?_ hno
    rw [Bool.not_eq_true]
    generalize e.thread = t at ht hstep
    cases hstep with
    | @exit x a hd ha =>
      have hend := (hr.table.setExitval tcb.ownerPcb x).threadEnd (by simpa using hal) h0 t a x
      rw [← Bool.not_eq_true, hend.panicked hk]
      exact fun h => hd h.2.1
    | threadExit => exact absurd ⟨_, _, rfl⟩ hexit
    | @leaveLoop x a ha hch =>
      have hend := (hr.table.setPc t (.exitLoop x)).threadEnd hal h0 t a x
      rw [← Bool.not_eq_true, hend.panicked hk]
      exact fun h => h.2.2 hch
    | _ => exact hk

end Step

def KeepsChildren (k : Kernel) (e : ProcEvent) : Prop := NotReaped k e ∧ ¬AbandonsChildren k e

theorem panicked_of_reach {task : Task} {argl : Int} {args : ExecArgs argl} {a : Tid} {k : Kernel}
    (h : Reach Kernel.step KeepsChildren (bootKernel task argl args a) k) : k.panicked = false := by
  induction h with
  | refl => rw [bootKernel_eq]
  | tail hprev hst ih =>
    obtain ⟨e, ⟨hok, hno⟩, he⟩ := hst
    obtain ⟨⟨k', ret⟩, hstep, rfl⟩ := Option.map_eq_some_iff.mp he
    rcases (reach_running (Reach.mono hprev fun _ _ h => h.1)).2 with ⟨v, hr⟩ | hend
    · rw [← Bool.not_eq_true, hr.panics_iff hok hstep]
      exact hno
    · rw [hend.stepRet] at hstep
      simp at hstep

/-- Init executes a process and ends its only thread by `ThreadExit`. -/
theorem init_threadExit_aborts : ∃ k k', Reach Kernel.step Always (bootKernel 0 0 none 1) k ∧
    k.step (.threadExit 0 0) = some k' ∧ k.panicked = false ∧
      isRlistEmpty k'.heap (.childrenList 1) = false ∧ k'.panicked = true := by
  obtain ⟨k, hk, hp⟩ := exists_reach_of_exec Kernel.step
    (bootKernel 0 0 none 1) [.exec 0 (some 7) 0 none 3]
    (fun k => !k.panicked && (k.step (.threadExit 0 0)).any fun k' =>
      !isRlistEmpty k'.heap (.childrenList 1) && k'.panicked)
    (by rw [bootKernel_eq]; decide +kernel)
  obtain ⟨hno, hp⟩ := Bool.and_eq_true_iff.mp hp
  obtain ⟨k', hk', hp'⟩ := (Option.any_eq_true _ _).mp hp
  obtain ⟨hempty, hpan⟩ := Bool.and_eq_true_iff.mp hp'
  exact ⟨k, k', hk, hk', by simpa using hno, by simpa using hempty, hpan⟩

/-- In runs in which the last thread of init goes through `sys_Exit`, or leaves no child behind, no
assertion fails; and in such a run a next step makes one fail exactly if it abandons children of
init. -/
theorem exit_assertions_hold {task : Task} {argl : Int} {args : ExecArgs argl}
    {a : Tid} {k : Kernel} (h : Reach Kernel.step KeepsChildren (bootKernel task argl args a) k) :
    k.panicked = false ∧ ∀ e k', NotReaped k e → k.step e = some k' →
      (k'.panicked = true ↔ AbandonsChildren k e) := by
  refine ⟨panicked_of_reach h, fun e k' hok he => ?_⟩
  obtain ⟨⟨k'', ret⟩, hstep, rfl⟩ := Option.map_eq_some_iff.mp he
  rcases (reach_running (h.mono fun _ _ h => h.1)).2 with ⟨v, hr⟩ | hend
  · exact hr.panics_iff hok hstep
  · rw [hend.stepRet] at hstep
    simp at hstep

/-- Init executes a process, and both call `Exit`. -/
theorem exit_assertions_hold_run : ∃ k : Kernel, (k.pt 1).pstate = .zombie ∧
    k.panicked = false := by
  obtain ⟨k, hk, hp⟩ := exists_reach_of_guarded Kernel.step
    (fun k e => notReaped k e && !(e matches .threadExit ..))
    (bootKernel 0 0 none 1)
    [.exec 0 (some 7) 0 none 3, .exit 1 5, .exit 0 0, .proceed 0, .proceed 0]
    (fun k => (k.pt 1).pstate = .zombie)
    (by rw [bootKernel_eq]; decide +kernel)
  have hk' : Reach Kernel.step KeepsChildren (bootKernel 0 0 none 1) k := hk.mono fun u e hok => by
    obtain ⟨hno, he⟩ := Bool.and_eq_true_iff.mp hok
    refine ⟨hno, ?_⟩
    cases e <;> simp_all [AbandonsChildren]
  exact ⟨k, of_decide_eq_true hp, (exit_assertions_hold hk').1⟩

end TinyOS
