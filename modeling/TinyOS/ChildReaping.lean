import TinyOS.ProcessStep

/-! Which PCBs `cleanup_zombie` is applied to. A thread that waits for one child and
comes back after the child was reaped applies it to a PCB that is FREE, or to another
process; as long as that does not happen, every exited child is reaped once. -/

namespace TinyOS

open Transition

/-- Two threads of init wait for process 2: the second one reaps a FREE PCB. -/
theorem waitChild_reaps_free : ∃ k, Reach Kernel.step Always (bootKernel 0 0 none 1) k ∧
    k.reaps = [⟨1, 2, 1, .zombie, some 1⟩, ⟨1, 2, 1, .free, some 3⟩] := by
  obtain ⟨k, hk, hp⟩ := exists_reach_of_exec Kernel.step (bootKernel 0 0 none 1)
    [.createThread 0 (some 5) 0 none 2, .exec 0 (some 7) 0 none 3, .waitChild 0 2 false,
      .waitChild 1 2 false, .exit 2 9, .proceed 0, .proceed 1]
    (fun k => k.reaps = [⟨1, 2, 1, .zombie, some 1⟩, ⟨1, 2, 1, .free, some 3⟩])
    (by rw [bootKernel_eq]; decide +kernel)
  exact ⟨k, hk, of_decide_eq_true hp⟩

/-- In runs in which no thread comes back to a reaped child, `cleanup_zombie` is only
applied to zombie children of the caller, to each occupant of a PCB at most once, and
a wait returns a child exactly when it reaps it. -/
theorem exactly_once_reaping {task : Task} {argl : Int} {args : ExecArgs argl}
    {a : Tid} {k : Kernel} (h : Reach Kernel.step NotReaped (bootKernel task argl args a) k) :
    (∀ r ∈ k.reaps, r.pstate = .zombie ∧ r.parent = some r.caller) ∧
    (k.reaps.map fun r => (r.pcb, r.occupant)).Nodup ∧
    ∀ e k' ret, NotReaped k e → k.stepRet e = some (k', ret) →
      (k'.reaps = k.reaps ∨ ∃ r, k'.reaps = k.reaps ++ [r] ∧
        (k.pt r.pcb).pstate = .zombie ∧ (k.pt r.pcb).parent = some r.caller ∧
        r.occupant = k.acquired r.pcb ∧ (k'.pt r.pcb).pstate = .free) ∧
      (k.waits e = true → (k'.reaps = k.reaps ∧ ∀ r, ret = some r → r.val = noProc) ∨
        ∃ (r : Reap) (out : Option Int), k'.reaps = k.reaps ++ [r] ∧
          ret = some ⟨r.pcb.val, out⟩) := by
  obtain ⟨hh, hgood⟩ := reach_running h
  refine ⟨hh.proper, hh.once, fun e k' ret hok he => ?_⟩
  rcases hgood with ⟨v, hr⟩ | hend
  · obtain ⟨⟨hkept, _⟩, hwaited⟩ := hr.stepRet hok he
    refine ⟨hkept.reaps.imp_right fun ⟨r, hr, hp, hfree⟩ => ⟨r, hr, ?_, ?_, hp.occupant_eq, hfree⟩,
      hwaited⟩
    · rw [hp.pstate_eq, hp.zombie]
    · rw [hp.parent_eq, hp.child]
  · rw [hend.stepRet e] at he
    simp at he

theorem exactly_once_reaping_run : ∃ k : Kernel, k.reaps = [⟨1, 2, 1, .zombie, some 1⟩] ∧
    (k.reaps.map fun r => (r.pcb, r.occupant)).Nodup := by
  obtain ⟨k, hk, hp⟩ := exists_reach_of_guarded Kernel.step notReaped (bootKernel 0 0 none 1)
    [.createThread 0 (some 5) 0 none 2, .exec 0 (some 7) 0 none 3, .waitChild 0 2 false,
      .waitChild 1 (-1) false, .exit 2 9, .proceed 0, .proceed 1]
    (fun k => k.reaps = [⟨1, 2, 1, .zombie, some 1⟩])
    (by rw [bootKernel_eq]; decide +kernel)
  exact ⟨k, of_decide_eq_true hp, (exactly_once_reaping hk).2.1⟩

end TinyOS
