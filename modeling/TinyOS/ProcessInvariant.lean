import TinyOS.ProcessBoot

/-! The process table invariant, and that creating, ending and reaping a process
keep it. -/

namespace TinyOS

open Ring Links

/-- The lists and the family tree are consistent, and a FREE PCB is on no list. -/
def ProcessTableInv (k : Kernel) : Prop :=
  ∃ v, ProcessTable k v ∧ ∀ p, (k.pt p).pstate = .free →
    isRlistEmpty k.heap (.childrenNode p) = true ∧ isRlistEmpty k.heap (.exitedNode p) = true

theorem ProcessTable.inv {k : Kernel} {v : TableView} (ht : ProcessTable k v) :
    ProcessTableInv k :=
  ⟨v, ht, fun _ hp => ⟨ht.lists.childrenNode_single (ht.family.not_child hp),
    ht.lists.exitedNode_single (ht.family.not_exited (by simp [hp]))⟩⟩

theorem ProcessTable.setPc {k : Kernel} {v : TableView} (ht : ProcessTable k v) (t : ThreadId)
    (pc : ThreadPc) : ProcessTable (k.setPc t pc) v :=
  ht.frame rfl rfl rfl (fun _ => rfl) (fun _ => rfl) (fun _ _ => ⟨rfl, rfl⟩) fun _ h => h

theorem processTableInv_boot (task : Task) (argl : Int) (args : ExecArgs argl) (a : Tid) :
    ProcessTableInv (bootKernel task argl args a) := by
  obtain ⟨free, ht⟩ := ProcessTable.boot task argl args a
  exact ht.inv

theorem ProcessTable.sysExec {k : Kernel} {v : TableView} (ht : ProcessTable k v) {cur : Pid}
    (hc : (k.pt cur).pstate = .alive) (hc0 : cur ≠ 0) {n : Pid} {rest : List Pid}
    (hfree : v.free = n :: rest) (call : Option Task) (argl : Int) (args : ExecArgs argl) {a : Tid}
    (ha : k.canAllocate a) :
    (sysExec k cur call argl args a).2 = n.val ∧
      (((sysExec k cur call argl args a).1.pt n).pstate = .alive ∧
        ((sysExec k cur call argl args a).1.pt n).parent = some cur) ∧
      ∃ w, ProcessTable (sysExec k cur call argl args a).1 w := by
  obtain ⟨hk, hn, hn1⟩ := ht.freelist_cons hfree
  have hcn : cur ≠ n := fun he => by simp [he, hn] at hc
  cases call with
  | none =>
    rw [sysExec_idle hk hn1 hcn]
    exact ⟨rfl, by simp [execKernel, execPcb], _, ht.exec_idle hfree hc hc0 none argl args⟩
  | some task =>
    rw [sysExec_task hk hn1 hcn]
    exact ⟨rfl, by simp [execTaskKernel, execPcb], _, ht.exec_task hfree hc hc0 task argl args ha⟩

/-- `cur` is the process of the calling thread; the scheduler process 0 has none. -/
theorem process_table_invariant :
    (∀ k cur call argl args a, ProcessTableInv k → (k.pt cur).pstate = .alive → cur ≠ 0 →
      k.canAllocate a →
      ProcessTableInv (sysExec k cur call argl args a).1 ∧
      ((∀ p, (k.pt p).pstate ≠ .free) → sysExec k cur call argl args a = (k, noProc)) ∧
      ((∃ p, (k.pt p).pstate = .free) → ∃ n : Pid, (sysExec k cur call argl args a).2 = n.val ∧
        (k.pt n).pstate = .free ∧ ((sysExec k cur call argl args a).1.pt n).pstate = .alive ∧
        ((sysExec k cur call argl args a).1.pt n).parent = some cur)) ∧
    (∀ k t d ptcb exitval, ProcessTableInv k → (k.pt d).pstate = .alive → 1 < d.val →
      (k.pt d).threadCount = 1 →
      ProcessTableInv (sysThreadExit k t d ptcb exitval) ∧
      (sysThreadExit k t d ptcb exitval).panicked = k.panicked ∧
      ((sysThreadExit k t d ptcb exitval).pt d).pstate = .zombie ∧
      ((sysThreadExit k t d ptcb exitval).pt d).parent = (k.pt d).parent ∧
      ∀ p, (k.pt p).pstate ≠ .free → (k.pt p).parent = some d →
        ((sysThreadExit k t d ptcb exitval).pt p).pstate = (k.pt p).pstate ∧
        ((sysThreadExit k t d ptcb exitval).pt p).parent = some 1) ∧
    (∀ k caller z, ProcessTableInv k → (k.pt z).pstate = .zombie → (k.pt z).parent = some caller →
      ProcessTableInv (cleanupZombie k caller z) ∧
      ((cleanupZombie k caller z).pt z).pstate = .free) := by
  refine ⟨fun k cur call argl args a ⟨v, ht, _⟩ hc hc0 ha => ?_,
    fun k t d ptcb exitval ⟨v, ht, _⟩ hd hd1 hcount => ?_, fun k caller z ⟨v, ht, _⟩ hz _ => ?_⟩
  · cases hfree : v.free with
    | nil =>
      have hfull := sysExec_full (ht.freelist_none.mpr hfree) cur call argl args a
      refine ⟨by rw [hfull]; exact ht.inv, fun _ => hfull, fun ⟨p, hp⟩ => ?_⟩
      have hmem := (ht.family.mem_free p).mpr hp
      simp [hfree] at hmem
    | cons n rest =>
      have hn := (ht.freelist_cons hfree).2.1
      obtain ⟨hret, ⟨hst, hpar⟩, w, hw⟩ := ht.sysExec hc hc0 hfree call argl args ha
      exact ⟨hw.inv, fun hno => absurd hn (hno n), fun _ => ⟨n, hret, hn, hst, hpar⟩⟩
  · obtain ⟨k', w, hdied, hrun⟩ := sysThreadExit_last ht t hd hd1 hcount ptcb exitval
    have hpt : ∀ p, (sysThreadExit k t d ptcb exitval).pt p = k'.pt p := fun p => by
      rw [hrun]
      rfl
    have hpar0 : ((exitedKernel k d ptcb exitval).pt d).parent = (k.pt d).parent := by
      simp [exitedKernel, Kernel.setPTCB]
    refine ⟨by rw [hrun]; exact (hdied.table.setPc t _).inv, by rw [hrun]; exact hdied.panicked,
      by rw [hpt, hdied.zombie], by rw [hpt, hdied.parent, hpar0], fun p hp hpd => ?_⟩
    have hmem := (ht.family.mem_children d (by simp [hd]) p).mpr ⟨hp, hpd⟩
    have hne : p ≠ d := fun he => ht.family.parent_ne_self hd1 (by simp [hd]) (he ▸ hpd)
    obtain ⟨cv, hcv⟩ := hdied.others p hne
    simp [hpt, hcv, orphaned, hmem, exitedKernel, hne, Kernel.setPTCB]
  · exact ⟨ht.cleanup hz |>.inv, by simp [cleanupZombie, releasePCB]⟩

/-- Init executes a process, which exits and is reaped. -/
theorem process_table_invariant_run :
    ProcessTableInv (cleanupZombie (sysThreadExit
      (sysExec (bootKernel 0 0 none 1) 1 (some 0) 0 none 2).1 1 2 2 7) 1 2) := by
  have hinv := processTableInv_boot 0 0 none 1
  have hboot := bootKernel_eq 0 0 none 1
  generalize bootKernel 0 0 none 1 = k at hinv hboot ⊢
  have halloc : k.canAllocate 2 := by simp [hboot, Kernel.canAllocate]
  have halive : (k.pt 1).pstate = .alive := by simp [hboot, initPcb]
  have hexec : (sysExec k 1 (some 0) 0 none 2).1 = execTaskKernel k 1 2 0 0 none 2 := by
    rw [sysExec_task (n := 2) (by simp [hboot]) (by decide) (by decide)]
  have hzero : (k.pt 2).threadCount = 0 := by simp [hboot, freePcb, initializePCB]
  obtain ⟨hnew, hpar, hcount⟩ := execTaskKernel_new k 1 2 0 0 none 2
  rw [← hexec] at hnew hpar hcount
  rw [hzero] at hcount
  have h1 := (process_table_invariant.1 k 1 (some 0) 0 none 2 hinv halive (by decide) halloc).1
  have h2 := process_table_invariant.2.1 _ 1 2 2 7 h1 hnew (by decide) hcount
  exact (process_table_invariant.2.2 _ 1 2 h2.1 h2.2.2.1 (h2.2.2.2.1.trans hpar)).1

end TinyOS
