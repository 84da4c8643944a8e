import TinyOS.ProcessCases

/-! The end of a thread, and the end of its process when it was the last one. -/

namespace TinyOS

open Ring Links Counting Transition

/-- The streams after every slot of `fidt` has been given up once. -/
def closedFiles (files : FileTable) (fidt : Nat → Option FcbId) : FileTable :=
  ((List.range maxFileid).filterMap fidt).foldl (fun files f => (fcbDecref files f).1) files

theorem closeStreams_files (k : Kernel) (d : Pid) :
    (closeStreams k d).files = closedFiles k.files (k.pt d).fidt := by
  have hnodup := List.nodup_range (n := maxFileid)
  unfold closeStreams closedFiles
  generalize List.range maxFileid = l at hnodup
  induction l generalizing k with
  | nil => rfl
  | cons i l ih =>
    obtain ⟨hi, hl⟩ := List.nodup_cons.mp hnodup
    rw [List.foldl_cons]
    cases hf : (k.pt d).fidt i with
    | none =>
      rw [List.filterMap_cons_none hf]
      exact ih k hl
    | some f =>
      rw [List.filterMap_cons_some hf, List.foldl_cons]
      have hrest : l.filterMap (Function.update (k.pt d).fidt i none) =
          l.filterMap (k.pt d).fidt := by
        apply List.filterMap_congr
        intro j hj
        rw [Function.update_of_ne]
        rintro rfl
        exact hi hj
      rw [ih _ hl]
      simp [Kernel.setPCB, hrest]

def PCB.dead (c : PCB) : PCB :=
  { c with
    pstate := .zombie
    args := none
    mainThread := none
    fidt := fun i => if i ∈ List.range maxFileid then none else c.fidt i }

/-- The kernel when process `d`, with the PTCBs `l`, has been cleaned up. -/
def Kernel.bury (k : Kernel) (d : Pid) (l : List Tid) (h : Heap NodeKey ProcNode)
    (pt : Pid → PCB) : Kernel :=
  { k with
    heap := h
    pt := Function.update pt d (pt d).dead
    ptcbs := fun a => if a ∈ l then none else k.ptcbs a
    freed := k.freed ++ l.map fun a => ⟨a, (k.ptcbs a).map (·.refcount)⟩
    files := closedFiles k.files (pt d).fidt }

section Exits

variable {k k' : Kernel} {v w : TableView} {t : ThreadId} {tcb : TCB} {d : Pid}

theorem leaveProcess_run {h1 : Heap NodeKey ProcNode} {pt1 : Pid → PCB}
    (hrun : leaveFamily k d = { k with heap := h1, pt := pt1 }) (hl : TableLists h1 w)
    (hch : w.children d = []) (hex : w.exited d = []) (hlen : (w.ptcbs d).length < 2 ^ 64 + 1) :
    ∃ h2, leaveProcess k d = k.bury d (w.ptcbs d) h2 pt1 ∧ TableLists h2 (w.setPtcbs d []) := by
  obtain ⟨h2, hfree, hl2⟩ := freePtcbs_spec (k := { k with heap := h1, pt := pt1 }) hl rfl hlen
  generalize hk2 : ({ k with
    heap := h2
    pt := pt1
    ptcbs := fun a => if a ∈ w.ptcbs d then none else k.ptcbs a
    freed := k.freed ++ (w.ptcbs d).map fun a => ⟨a, (k.ptcbs a).map (·.refcount)⟩ } : Kernel) = k2
    at hfree
  obtain ⟨files, hclose⟩ := closeStreams_spec (k2.setPCB d fun c => { c with args := none }) d
  have hfiles := closeStreams_files (k2.setPCB d fun c => { c with args := none }) d
  rw [hclose] at hfiles
  refine ⟨h2, ?_, hl2⟩
  simp only [leaveProcess, hrun, (hl.empty_children d).mpr hch, (hl.empty_exited d).mpr hex,
    Bool.and_self, if_true, hfree, hclose]
  simp only at hfiles
  rw [hfiles, ← hk2]
  simp [Kernel.bury, PCB.dead, Kernel.setPCB, closed]

/-- Whom the death of `d` leaves waiting for children. -/
def Unheard (k : Kernel) (v : TableView) (d : Pid) (pt : Pid → PCB) : Prop :=
  ∀ p u, u ∈ (pt p).childExit.waitset →
    u ∈ (k.pt p).childExit.waitset ∧ (k.pt d).parent ≠ some p ∧ (p = 1 → v.exited d = [])

theorem adoptExited_waitset (hl : TableLists k.heap v) (p : Pid) (u : ThreadId)
    (hu : u ∈ ((adoptExited k d (some 1)).pt p).childExit.waitset) :
    u ∈ (k.pt p).childExit.waitset ∧ (p = 1 → v.exited d = []) := by
  by_cases he : isRlistEmpty k.heap (.exitedList d) = true
  · simp only [adoptExited, he, if_true] at hu
    exact ⟨hu, fun _ => (hl.empty_exited d).mp he⟩
  · simp only [adoptExited, he, if_false, Bool.false_eq_true] at hu
    by_cases hp : p = 1
    · simp [hp, kernelBroadcast] at hu
    · rw [setPCB_pt_of_ne _ _ hp] at hu
      exact ⟨hu, fun h => absurd h hp⟩

theorem joinExited_waitset {q : Pid} (hq : (k.pt d).parent = some q) (p : Pid) (u : ThreadId)
    (hu : u ∈ ((joinExited k d).pt p).childExit.waitset) : u ∈ (k.pt p).childExit.waitset ∧
    q ≠ p := by
  simp only [joinExited, hq] at hu
  by_cases hp : p = q
  · simp [hp, kernelBroadcast] at hu
  · rw [setPCB_pt_of_ne _ _ hp] at hu
    exact ⟨hu, Ne.symm hp⟩

theorem leaveFamily_unheard (ht : ProcessTable k v) (hd : (k.pt d).pstate = .alive)
    (hd1 : 1 < d.val) :
    Unheard k v d (leaveFamily k d).pt := by
  have hdn : (k.pt d).pstate ≠ .free := by simp [hd]
  obtain ⟨q, hq, -⟩ := ht.family.has_parent d hd1 hdn
  have hdne : d ≠ 1 := fun he => by simp [he] at hd1
  have hpid : getPid (some d) ≠ 1 := by
    simp only [getPid]
    omega
  have hdd : d ∉ v.children d := fun hm =>
    ht.family.parent_ne_self hd1 hdn ((ht.family.mem_children d hdn d).mp hm).2
  obtain ⟨h1, w1, hrun1, hl1, -, hex1, -, -⟩ := reparentChildren_spec hdne ht.lists rfl
    (ht.length_children_lt d)
  generalize hk1 : ({ k with heap := h1, pt := orphaned k.pt (v.children d) } : Kernel) =
    k1 at hrun1
  have hl1' : TableLists k1.heap w1 := by rw [← hk1]; exact hl1
  have hparent : (k1.pt d).parent = some q := by
    rw [← hk1]
    simp only [orphaned_parent, if_neg hdd, hq]
  obtain ⟨h2, pt2, -, hrun2, hsame2, -⟩ := adoptExited_spec hl1' hdne
  have hparent2 : ((adoptExited k1 d (some 1)).pt d).parent = some q := by
    obtain ⟨cv, hcv⟩ := hsame2 d
    rw [hrun2]
    simp only [hcv, hparent]
  intro p u hu
  simp only [leaveFamily, hpid, getPcb_one ht, ne_eq, not_false_eq_true, if_true, hrun1] at hu
  obtain ⟨hu2, hqp⟩ := joinExited_waitset hparent2 p u hu
  obtain ⟨hu1, hnone⟩ := adoptExited_waitset hl1' p u hu2
  refine ⟨?_, fun he => hqp (Option.some.inj (hq.symm.trans he)), fun hp => ?_⟩
  · rw [← hk1] at hu1
    by_cases hc : p ∈ v.children d <;> simpa [orphaned, hc] using hu1
  · rw [← hex1]
    exact hnone hp

theorem leaveProcess_dies (ht : ProcessTable k v) (hd : (k.pt d).pstate = .alive)
    (hd1 : 1 < d.val) :
    ∃ h pt, leaveProcess k d = k.bury d (v.ptcbs d) h pt ∧
    SameButExit (orphaned k.pt (v.children d)) pt ∧
      Unheard k v d pt := by
  have hdn : (k.pt d).pstate ≠ .free := by simp [hd]
  obtain ⟨q, hq, -⟩ := ht.family.has_parent d hd1 hdn
  have hqd : q ≠ d := fun he => ht.family.parent_ne_self hd1 hdn (he ▸ hq)
  obtain ⟨h1, pt1, w, hrun1, hsame, hl1, -, hpt, hch, hex⟩ := leaveFamily_spec ht hd hd1 hq
  have hunheard := leaveFamily_unheard ht hd hd1
  rw [hrun1] at hunheard
  obtain ⟨hnoch, hnoex⟩ := left_empty hqd hch hex
  have hlen := ht.length_ptcbs_lt d
  rw [← hpt] at hlen ⊢
  obtain ⟨h2, hrun2, -⟩ := leaveProcess_run hrun1 hl1 hnoch hnoex hlen
  exact ⟨h2, pt1, hrun2, hsame, hunheard⟩

/-- The death of init, if it has no children. -/
theorem leaveProcess_retires (ht : ProcessTable k v) (hch : v.children 1 = []) :
    ∃ h, leaveProcess k 1 = k.bury 1 (v.ptcbs 1) h k.pt ∧ TableLists h (v.setPtcbs 1 []) := by
  have hfam : leaveFamily k 1 = k := by
    have hpid : getPid (some (1 : Pid)) = 1 := rfl
    simp [leaveFamily, hpid]
  have hone := Family.ne_free_of_alive ht.family.one_alive
  have hex : v.exited 1 = [] := List.eq_nil_iff_forall_not_mem.mpr fun p hp => by
    obtain ⟨hz, hp⟩ := (ht.family.mem_exited 1 hone p).mp hp
    have hm := (ht.family.mem_children 1 hone p).mpr ⟨by simp [hz], hp⟩
    simp [hch] at hm
  exact leaveProcess_run hfam ht.lists hch hex (ht.length_ptcbs_lt 1)

theorem leaveProcess_aborts (ht : ProcessTable k v) (hch : v.children 1 ≠ []) :
    leaveProcess k 1 = k.panic := by
  have hfam : leaveFamily k 1 = k := by
    have hpid : getPid (some (1 : Pid)) = 1 := rfl
    simp [leaveFamily, hpid]
  have hne : isRlistEmpty k.heap (.childrenList 1) = false := by
    by_contra he
    exact hch ((ht.lists.empty_children 1).mp (by simpa using he))
  simp only [leaveProcess, hfam, hne, Bool.false_and, Bool.false_eq_true, if_false]

inductive ThreadEnd (k : Kernel) (v : TableView) (t : ThreadId) (d : Pid)
    (a : Tid) (x : Int) : Kernel → Prop
  | more : (k.pt d).threadCount ≠ 1 → ThreadEnd k v t d a x ((exitedKernel k d a x).setPc t .exited)
  | last {h : Heap NodeKey ProcNode} {pt : Pid → PCB} {w : TableView} :
      (k.pt d).threadCount = 1 → d ≠ 1 →
      SameButExit (orphaned (exitedKernel k d a x).pt (v.children d)) pt →
      Unheard (exitedKernel k d a x) v d pt →
      Died (exitedKernel k d a x) v d ((exitedKernel k d a x).bury d (v.ptcbs d) h pt) w →
      ThreadEnd k v t d a x (((exitedKernel k d a x).bury d (v.ptcbs d) h pt).setPc t .exited)
  | retire {h : Heap NodeKey ProcNode} : (k.pt d).threadCount = 1 → d = 1 → v.children d = [] →
      TableLists h (v.setPtcbs d []) →
      ThreadEnd k v t d a x
        (((exitedKernel k d a x).bury d (v.ptcbs d) h (exitedKernel k d a x).pt).setPc t .exited)
  | abort : (k.pt d).threadCount = 1 → d = 1 → v.children d ≠ [] →
      ThreadEnd k v t d a x ((exitedKernel k d a x).panic.setPc t .exited)

theorem ThreadEnd.threads {a : Tid} {x : Int} (h : ThreadEnd k v t d a x k') :
    k'.threads = k.threads.modify t fun c => { c with pc := .exited } := by
  cases h <;> rfl

theorem ProcessTable.threadEnd (ht : ProcessTable k v) (hd : (k.pt d).pstate = .alive)
    (h0 : d ≠ 0) (t : ThreadId)
    (a : Tid) (x : Int) : ThreadEnd k v t d a x (sysThreadExit k t d a x) := by
  have hcount : ((exitedKernel k d a x).pt d).threadCount = (k.pt d).threadCount - 1 := by
    simp [exitedKernel, Kernel.setPTCB]
  have hsys : sysThreadExit k t d a x =
      (if ((exitedKernel k d a x).pt d).threadCount = 0 then leaveProcess (exitedKernel k d a x) d
        else exitedKernel k d a x).setPc t .exited := rfl
  have htab := ht.exited hd a x
  have halive : ((exitedKernel k d a x).pt d).pstate = .alive := by
    simp [exitedKernel, Kernel.setPTCB, hd]
  rw [hsys]
  by_cases hone : (k.pt d).threadCount = 1
  · have hzero : ((exitedKernel k d a x).pt d).threadCount = 0 := by omega
    rw [if_pos hzero]
    by_cases h1 : d = 1
    · subst h1
      by_cases hch : v.children 1 = []
      · obtain ⟨h, hrun, hl⟩ := leaveProcess_retires htab hch
        rw [hrun]
        exact .retire hone rfl hch hl
      · rw [leaveProcess_aborts htab hch]
        exact .abort hone rfl hch
    · have hd1 := Pid.one_lt h0 h1
      obtain ⟨h, pt, hrun, hsame, hunheard⟩ := leaveProcess_dies htab halive hd1
      obtain ⟨w, hdied⟩ := leaveProcess_spec htab halive hd1 hzero
      rw [hrun] at hdied ⊢
      exact .last hone h1 hsame hunheard hdied
  · rw [if_neg (by omega)]
    exact .more hone

theorem ProcessTable.setExitval (ht : ProcessTable k v) (p : Pid) (x : Int) :
    ProcessTable (k.setPCB p fun c => { c with exitval := x }) v := by
  have hf : Unnoticed fun c => { c with exitval := x } := fun c => ⟨rfl, rfl, rfl, rfl⟩
  exact ht.frame rfl rfl rfl (fun q => (hf.pt k p q).1) (fun q => (hf.pt k p q).2.1)
    (fun q _ => (hf.pt k p q).2.2) fun _ h => h

end Exits

end TinyOS
