import TinyOS.ProcessTable

/-! The operations on the process table keep its invariant: `sys_Exec`, the exit of
the last thread of a process, and `cleanup_zombie`. -/

namespace TinyOS

open Ring Links

structure ProcessTable (k : Kernel) (v : TableView) : Prop where
  lists : TableLists k.heap v
  family : Family k.pt k.pcbFreelist k.processCount v
  allocated : ∀ p, ∀ a ∈ v.ptcbs p, k.ptcbs a ≠ none

/-- The tables agree but for the condition variables on which parents wait. -/
def SameButExit (pt pt' : Pid → PCB) : Prop :=
  ∀ p, ∃ cv, pt' p = { pt p with childExit := cv }

@[simp] theorem setPCB_pt_self (k : Kernel) (p : Pid) (f : PCB → PCB) :
    (k.setPCB p f).pt p = f (k.pt p) := by
  simp [Kernel.setPCB]

@[simp] theorem setPCB_pt_of_ne (k : Kernel) {p q : Pid} (f : PCB → PCB) (h : q ≠ p) :
    (k.setPCB p f).pt q = k.pt q := by
  simp [Kernel.setPCB, h]

theorem getPcb_one {k : Kernel} {v : TableView} (ht : ProcessTable k v) : getPcb k 1 = some 1 := by
  simp [getPcb, ht.family.one_alive]

theorem PidState.zombie_of_ne {s : PidState} (hf : s ≠ .free) (ha : s ≠ .alive) : s = .zombie := by
  cases s with
  | free => exact absurd rfl hf
  | alive => exact absurd rfl ha
  | zombie => rfl

/-- The head of an exited list that is not empty is a zombie child. -/
theorem ProcessTable.first_exited {k : Kernel} {v : TableView} (ht : ProcessTable k v) {q : Pid}
    (hq : (k.pt q).pstate ≠ .free) (he : ¬ isRlistEmpty k.heap (.exitedList q) = true) :
    ∃ z, (k.heap (.exitedList q)).next = .exitedNode z ∧ (k.pt z).pstate = .zombie ∧
      (k.pt z).parent = some q := by
  obtain ⟨z, l, hzl⟩ := List.exists_cons_of_ne_nil fun h => he ((ht.lists.empty_exited q).mpr h)
  have hnext : (k.heap (.exitedList q)).next = .exitedNode z := by
    have hn := ht.lists.hangs.next_head (.exited q)
    simpa [ProcList.head, TableView.members, hzl] using hn
  obtain ⟨hz, hzp⟩ := (ht.family.mem_exited q hq z).mp (by simp [hzl])
  exact ⟨z, hnext, hz, hzp⟩

/-! ### Creating a process -/

def execPcb (k : Kernel) (cur n : Pid) (call : Option Task) (argl : Int)
    (args : ExecArgs argl) : PCB :=
  { k.pt n with
    pstate := .alive
    parent := some cur
    fidt := fun i => if i < maxFileid then (k.pt cur).fidt i else (k.pt n).fidt i
    mainTask := call
    argl := argl
    args := args.map (·.1.take argl.toNat) }

def execKernel (k : Kernel) (cur n : Pid) (call : Option Task) (argl : Int)
    (args : ExecArgs argl) : Kernel :=
  { k with
    pt := Function.update k.pt n (execPcb k cur n call argl args)
    pcbFreelist := (k.pt n).parent
    processCount := k.processCount + 1
    acquired := Function.update k.acquired n (k.acquired n + 1)
    heap := rlistPushFront k.heap (.childrenList cur) (.childrenNode n)
    files := inheritStreams k.files (k.pt cur).fidt }

theorem sysExec_full {k : Kernel} (hk : k.pcbFreelist = none) (cur : Pid) (call : Option Task)
    (argl : Int) (args : ExecArgs argl) (a : Tid) : sysExec k cur call argl args a =
    (k, noProc) := by
  simp [sysExec, acquirePCB, hk, getPid]

/-- The same with a thread for `task`, whose PTCB is at `a`. -/
def execTaskKernel (k : Kernel) (cur n : Pid) (task : Task) (argl : Int)
    (args : ExecArgs argl) (a : Tid) :
    Kernel :=
  let k' := execKernel k cur n (some task) argl args
  let pcb := execPcb k cur n (some task) argl args
  { k' with
    pt := Function.update k.pt n
      { pcb with mainThread := some k.threads.length, threadCount := pcb.threadCount + 1 }
    ptcbs := Function.update k.ptcbs a
      (some (initializePtcb (some k.threads.length) (some task) pcb.argl pcb.args))
    threads := k.threads ++ [⟨n, some a, .startMainThread, .user⟩]
    heap := rlistPushBack (rlnodeInit k'.heap (.ptcbListNode a) (.ptcb a)) (.ptcbList n)
      (.ptcbListNode a) }

theorem sysExec_idle {k : Kernel} {n cur : Pid} (hk : k.pcbFreelist = some n) (hn : 1 < n.val)
    (hcn : cur ≠ n) (argl : Int) (args : ExecArgs argl) (a : Tid) :
    sysExec k cur none argl args a = (execKernel k cur n none argl args, getPid (some n)) := by
  have hn' : ¬ n.val ≤ 1 := by omega
  simp [sysExec, acquirePCB, hk, hn', getPid, execKernel, execPcb, Kernel.setPCB, hcn]

theorem modify_append_length {α : Type*} (l : List α) (x : α) (f : α → α) :
    (l ++ [x]).modify l.length f = l ++ [f x] := by
  induction l with
  | nil => rfl
  | cons y l ih => simpa using ih

theorem sysExec_task {k : Kernel} {n cur : Pid} (hk : k.pcbFreelist = some n) (hn : 1 < n.val)
    (hcn : cur ≠ n) (task : Task) (argl : Int) (args : ExecArgs argl) (a : Tid) :
    sysExec k cur (some task) argl args a =
      (execTaskKernel k cur n task argl args a, getPid (some n)) := by
  have hn' : ¬ n.val ≤ 1 := by omega
  simp [sysExec, acquirePCB, hk, hn', getPid, execTaskKernel, execKernel, execPcb, Kernel.setPCB,
    spawnThread, hcn, addTcbToProcess, Kernel.attachPtcb, modify_append_length]

theorem execTaskKernel_new (k : Kernel) (cur n : Pid) (task : Task) (argl : Int)
    (args : ExecArgs argl)
    (a : Tid) : ((execTaskKernel k cur n task argl args a).pt n).pstate = .alive ∧
      ((execTaskKernel k cur n task argl args a).pt n).parent = some cur ∧
      ((execTaskKernel k cur n task argl args a).pt n).threadCount = (k.pt n).threadCount + 1 := by
  simp [execTaskKernel, execPcb]

theorem ProcessTable.freelist_none {k : Kernel} {v : TableView} (ht : ProcessTable k v) :
    k.pcbFreelist = none ↔ v.free = [] :=
  ht.family.free_threaded.none_iff

theorem ProcessTable.freelist_cons {k : Kernel} {v : TableView} (ht : ProcessTable k v) {n : Pid}
    {rest : List Pid} (hfree : v.free = n :: rest) :
    k.pcbFreelist = some n ∧ (k.pt n).pstate = .free ∧ 1 < n.val := by
  have hth := ht.family.free_threaded
  rw [hfree] at hth
  have hn := (ht.family.mem_free n).mp (by simp [hfree])
  exact ⟨hth.1, hn, ht.family.one_lt (by simp [hn])⟩

def TableView.exec (v : TableView) (cur n : Pid) (rest : List Pid) (l : List Tid) : TableView :=
  { v.setChildren cur (n :: v.children cur) with
    free := rest, ptcbs := Function.update v.ptcbs n l }

theorem ProcessTable.exec_idle {k : Kernel} {v : TableView} (ht : ProcessTable k v) {n cur : Pid}
    {rest : List Pid} (hfree : v.free = n :: rest) (hc : (k.pt cur).pstate = .alive)
    (hc0 : cur ≠ 0) (call : Option Task) (argl : Int) (args : ExecArgs argl) :
    ProcessTable (execKernel k cur n call argl args) (v.exec cur n rest []) := by
  obtain ⟨-, hnf, -⟩ := ht.freelist_cons hfree
  have hpt := (ht.family.vacated n (by simp [hnf])).ptcbs
  have hw : v.exec cur n rest [] = { v.setChildren cur (n :: v.children cur) with
      free := rest } := by
    simp [TableView.exec, TableView.setChildren, ← hpt]
  have hm : Function.update v.ptcbs n [] = v.ptcbs := by rw [← hpt, Function.update_eq_self]
  refine ⟨?_, ?_, fun p a ha => ?_⟩
  · rw [hw]
    obtain ⟨hh, hkc, hke, hkp⟩ := ht.lists.push_child cur (ht.family.not_child hnf)
    exact ⟨hh, hkc, hke, hkp⟩
  · refine ht.family.spawn hfree hc hc0 ?_ ?_ (fun p hp => ?_) (fun p hp => ?_) (fun p hp _ => ?_)
      (fun p hp => ?_) <;> simp_all [execKernel, execPcb]
  · rw [hw] at ha
    exact ht.allocated p a ha

theorem ProcessTable.exec_task {k : Kernel} {v : TableView} (ht : ProcessTable k v) {n cur : Pid}
    {rest : List Pid} (hfree : v.free = n :: rest) (hc : (k.pt cur).pstate = .alive)
    (hc0 : cur ≠ 0) (task : Task) (argl : Int) (args : ExecArgs argl) {a : Tid}
    (ha : k.canAllocate a) :
    ProcessTable (execTaskKernel k cur n task argl args a) (v.exec cur n rest [a]) := by
  have hti := ht.exec_idle hfree hc hc0 (some task) argl args
  have hfresh : ∀ q, a ∉ (v.exec cur n rest []).ptcbs q := fun q hq => hti.allocated q a hq ha.1
  have hw : v.exec cur n rest [a] =
      (v.exec cur n rest []).setPtcbs n ((v.exec cur n rest []).ptcbs n ++ [a]) := by
    simp [TableView.exec, TableView.setPtcbs]
  refine ⟨?_, ?_, fun p b hb => ?_⟩
  · rw [hw]
    exact hti.lists.push_ptcb n hfresh
  · refine ht.family.spawn hfree hc hc0 ?_ ?_ (fun p hp => ?_) (fun p hp => ?_) (fun p hp _ => ?_)
      (fun p hp => ?_) <;> simp_all [execTaskKernel, execKernel, execPcb]
  · by_cases hba : b = a
    · simp [execTaskKernel, hba]
    · have hb' : b ∈ (v.exec cur n rest []).ptcbs p := by
        by_cases hp : p = n
        · subst p
          simp [TableView.exec, hba] at hb
        · simpa [TableView.exec, hp] using hb
      have hold : k.ptcbs b ≠ none := hti.allocated p b hb'
      simpa [execTaskKernel, hba] using hold

/-! ### Reaping a zombie -/

theorem ProcessTable.cleanup {k : Kernel} {v : TableView} (ht : ProcessTable k v) {z q : Pid}
    (hz : (k.pt z).pstate = .zombie) : ProcessTable (cleanupZombie k q z)
      { v.dropPid z with free := z :: v.free } := by
  refine ⟨?_, ?_, fun p a ha => ht.allocated p a ha⟩
  · obtain ⟨hh, hkc, hke, hkp⟩ := ht.lists.drop_pid z
    exact ⟨hh, hkc, hke, hkp⟩
  · refine ht.family.reap hz ?_ ?_ (fun p hp => ?_) (fun p hp => ?_) (fun p hp => ?_)
      ht.lists.nodup_children ht.lists.nodup_exited
    · simp [cleanupZombie, releasePCB]
    · simp [cleanupZombie, releasePCB, Kernel.setPCB]
    · simp [cleanupZombie, releasePCB, Kernel.setPCB, hp]
    · simp [cleanupZombie, releasePCB, Kernel.setPCB, hp]
    · by_cases hpz : p = z <;> simp [cleanupZombie, releasePCB, Kernel.setPCB, hpz]

/-! ### The exit of the last thread -/

/-- The table in which the children of `d` have become those of init. -/
def orphaned (pt : Pid → PCB) (l : List Pid) : Pid → PCB := fun p =>
  if p ∈ l then { pt p with parent := some 1 } else pt p

theorem orphaned_nil (pt : Pid → PCB) : orphaned pt [] = pt := by
  funext p
  simp [orphaned]

theorem orphaned_cons (pt : Pid → PCB) (c : Pid) (l : List Pid) :
    orphaned (Function.update pt c { pt c with parent := some 1 }) l = orphaned pt (c :: l) := by
  funext p
  by_cases hp : p = c <;> by_cases hl : p ∈ l <;> simp [orphaned, hp, hl]

theorem reparentChildren_spec {d : Pid} (hd : d ≠ 1) {l : List Pid} {k : Kernel} {v : TableView}
    (hl : TableLists k.heap v) (hc : v.children d = l) {fuel : Nat} (hfuel : l.length < fuel) :
    ∃ h w, reparentChildren d (some 1) fuel k =
        { k with heap := h, pt := orphaned k.pt l } ∧
      TableLists h w ∧ w.free = v.free ∧ w.exited = v.exited ∧ w.ptcbs = v.ptcbs ∧
      ∀ r p, p ∈ w.children r ↔ r ≠ d ∧ (p ∈ v.children r ∨ r = 1 ∧ p ∈ l) := by
  induction l generalizing k v fuel with
  | nil =>
    obtain ⟨fuel, rfl⟩ := Nat.exists_eq_succ_of_ne_zero (Nat.ne_of_gt hfuel)
    refine ⟨k.heap, v, ?_, hl, rfl, rfl, rfl, fun r p => ?_⟩
    · simp [reparentChildren, (hl.empty_children d).mpr hc, orphaned_nil]
    · by_cases hr : r = d <;> simp [hr, hc]
  | cons c l ih =>
    obtain ⟨fuel, rfl⟩ := Nat.exists_eq_succ_of_ne_zero (Nat.ne_of_gt (Nat.zero_lt_of_lt hfuel))
    have hne : isRlistEmpty k.heap (.childrenList d) = false := by
      by_contra he
      simp [(hl.empty_children d).mp (by simpa using he)] at hc
    have hnd := hl.nodup_children d
    rw [hc] at hnd
    obtain ⟨hpop, hl1⟩ := hl.pop_child hc
    have hnew : ∀ r, c ∉ (v.setChildren d l).children r := fun r hm => by
      by_cases hr : r = d
      · subst r
        exact (List.nodup_cons.mp hnd).1 (by simpa [TableView.setChildren] using hm)
      · have hm' : c ∈ v.children r := by simpa [TableView.setChildren, hr] using hm
        exact hr (hl.children_disjoint hm' (q := d) (by simp [hc]))
    have hl2 := hl1.push_child 1 hnew
    obtain ⟨h, w, hrun, hlw, hfree, hex, hpt, hch⟩ := ih
      (k := { k.setPCB c (fun b => { b with parent := some 1 }) with
        heap := rlistPushFront (rlistPopFront k.heap (.childrenList d)).1 (.childrenList 1)
          (.childrenNode c) })
      hl2 (by simp [TableView.setChildren, hd]) (Nat.succ_lt_succ_iff.mp hfuel)
    refine ⟨h, w, ?_, hlw, hfree, hex, hpt, fun r p => ?_⟩
    · simp only [reparentChildren, hne, hpop, hl1.key_children c, Bool.false_eq_true, if_false]
      rw [hrun]
      simp only [Kernel.setPCB, orphaned_cons]
    · rw [hch]
      by_cases hrd : r = d
      · simp [hrd]
      · by_cases hr1 : r = 1
        · subst r
          simp [TableView.setChildren, hrd, or_assoc, or_left_comm]
        · simp [TableView.setChildren, hrd, hr1]

theorem freePtcbs_spec {d : Pid} {l : List Tid} {k : Kernel} {v : TableView}
    (hl : TableLists k.heap v) (hc : v.ptcbs d = l) {fuel : Nat} (hfuel : l.length < fuel) :
    ∃ h, freePtcbs d fuel k =
        { k with
          heap := h
          ptcbs := fun a => if a ∈ l then none else k.ptcbs a
          freed := k.freed ++ l.map fun a => ⟨a, (k.ptcbs a).map (·.refcount)⟩ } ∧
      TableLists h (v.setPtcbs d []) := by
  induction l generalizing k v fuel with
  | nil =>
    obtain ⟨fuel, rfl⟩ := Nat.exists_eq_succ_of_ne_zero (Nat.ne_of_gt hfuel)
    have hv : v.setPtcbs d [] = v := by rw [← hc]; simp [TableView.setPtcbs]
    refine ⟨k.heap, by simp [freePtcbs, (hl.empty_ptcbs d).mpr hc], ?_⟩
    rw [hv]
    exact hl
  | cons a l ih =>
    obtain ⟨fuel, rfl⟩ := Nat.exists_eq_succ_of_ne_zero (Nat.ne_of_gt (Nat.zero_lt_of_lt hfuel))
    have hne : isRlistEmpty k.heap (.ptcbList d) = false := by
      by_contra he
      simp [(hl.empty_ptcbs d).mp (by simpa using he)] at hc
    have hnd := hl.nodup_ptcbs d
    rw [hc] at hnd
    have hal := (List.nodup_cons.mp hnd).1
    obtain ⟨hpop, hl1⟩ := hl.pop_ptcb hc
    have hkey : ((rlistPopFront k.heap (.ptcbList d)).1 (.ptcbListNode a)).obj = .ptcb a := by
      rw [rlistPopFront_obj]
      exact hl.key_ptcb d a (by simp [hc])
    obtain ⟨h, hrun, hlw⟩ := ih
      (k := freePtcb { k with heap := (rlistPopFront k.heap (.ptcbList d)).1 } a)
      hl1 (by simp [TableView.setPtcbs]) (Nat.succ_lt_succ_iff.mp hfuel)
    have hv : (v.setPtcbs d l).setPtcbs d [] = v.setPtcbs d [] := by simp [TableView.setPtcbs]
    refine ⟨h, ?_, hv ▸ hlw⟩
    simp only [freePtcbs, hne, hpop, hkey, Bool.false_eq_true, if_false]
    rw [hrun]
    have hptcbs : (fun b => if b ∈ l then none else Function.update k.ptcbs a none b) =
        fun b => if b ∈ a :: l then none else k.ptcbs b := by
      funext b
      by_cases hb : b = a <;> by_cases hbl : b ∈ l <;> simp [hb, hbl]
    have hfreed :
        (l.map fun b => (⟨b, (Function.update k.ptcbs a none b).map (·.refcount)⟩ : Freed)) =
        l.map fun b => ⟨b, (k.ptcbs b).map (·.refcount)⟩ := by
      refine List.map_congr_left fun b hb => ?_
      have hba : b ≠ a := fun he => hal (he ▸ hb)
      rw [Function.update_of_ne hba]
    simp only [freePtcb, hptcbs, hfreed, List.map_cons, List.append_assoc, List.singleton_append]

def closed (pt : Pid → PCB) (d : Pid) (l : List Nat) : Pid → PCB :=
  Function.update pt d { pt d with fidt := fun i => if i ∈ l then none else (pt d).fidt i }

theorem closeStreams_spec (k : Kernel) (d : Pid) :
    ∃ files, closeStreams k d =
      { k with pt := closed k.pt d (List.range maxFileid), files := files } := by
  unfold closeStreams
  generalize List.range maxFileid = l
  induction l generalizing k with
  | nil => exact ⟨k.files, by simp [closed]⟩
  | cons i l ih =>
    rw [List.foldl_cons]
    cases hi : (k.pt d).fidt i with
    | none =>
      obtain ⟨files, hf⟩ := ih k
      refine ⟨files, ?_⟩
      rw [hf]
      have hfun : (fun j => if j ∈ l then none else (k.pt d).fidt j) =
          fun j => if j ∈ i :: l then none else (k.pt d).fidt j := by
        funext j
        by_cases hj : j = i <;> simp [hj, hi]
      simp only [closed, hfun]
    | some f =>
      obtain ⟨files, hf⟩ :=
        ih { k.setPCB d (fun c => { c with fidt := Function.update c.fidt i none })
        with files := (fcbDecref k.files f).1 }
      refine ⟨files, ?_⟩
      rw [hf]
      have hfun : (fun j => if j ∈ l then none else Function.update (k.pt d).fidt i none j) =
          fun j => if j ∈ i :: l then none else (k.pt d).fidt j := by
        funext j
        by_cases hj : j = i <;> simp [hj]
      simp [closed, Kernel.setPCB, hfun]

theorem SameButExit.refl (pt : Pid → PCB) : SameButExit pt pt := fun p => ⟨(pt p).childExit, rfl⟩

theorem SameButExit.trans {pt pt' pt'' : Pid → PCB} (h : SameButExit pt pt')
    (h' : SameButExit pt' pt'') : SameButExit pt pt'' := fun p => by
  obtain ⟨cv, hcv⟩ := h p
  obtain ⟨cv', hcv'⟩ := h' p
  exact ⟨cv', by rw [hcv', hcv]⟩

theorem SameButExit.setPCB (k : Kernel) (p : Pid) (f : CondVar → CondVar) :
    SameButExit k.pt (k.setPCB p fun c => { c with childExit := f c.childExit }).pt := fun q => by
  by_cases hq : q = p
  · exact ⟨f (k.pt p).childExit, by simp [hq]⟩
  · exact ⟨(k.pt q).childExit, by simp [hq]⟩

theorem adoptExited_spec {k : Kernel} {v : TableView} (hl : TableLists k.heap v) {d : Pid}
    (hd : d ≠ 1) : ∃ h pt w, adoptExited k d (some 1) = { k with heap := h, pt := pt } ∧
      SameButExit k.pt pt ∧ TableLists h w ∧ w.free = v.free ∧ w.children = v.children ∧
      w.ptcbs = v.ptcbs ∧ ∀ r, w.exited r = if r = d then [] else
        if r = 1 then v.exited 1 ++ v.exited d else v.exited r := by
  cases he : isRlistEmpty k.heap (.exitedList d) with
  | true =>
    have hex := (hl.empty_exited d).mp he
    refine ⟨k.heap, k.pt, v, by simp [adoptExited, he], .refl _, hl, rfl, rfl, rfl, fun r => ?_⟩
    by_cases hr : r = d
    · simp [hr, hex]
    · by_cases hr1 : r = 1 <;> simp [hr, hr1, hex, hd.symm]
  | false =>
    refine ⟨_, _, _, by simp only [adoptExited, he, Bool.false_eq_true, if_false]; rfl,
      SameButExit.setPCB k 1 kernelBroadcast, hl.append_exited hd.symm, rfl, rfl, rfl, fun r => ?_⟩
    by_cases hr : r = d
    · simp [TableView.setExited, hr]
    · by_cases hr1 : r = 1 <;> simp [TableView.setExited, hr, hr1, hd.symm]

theorem joinExited_spec {k : Kernel} {v : TableView} (hl : TableLists k.heap v) {d q : Pid}
    (hq : (k.pt d).parent = some q) (hd : ∀ r, d ∉ v.exited r) :
    ∃ h pt, joinExited k d = { k with heap := h, pt := pt } ∧ SameButExit k.pt pt ∧
      TableLists h (v.setExited q (d :: v.exited q)) :=
  ⟨_, _, by simp only [joinExited, hq]; rfl, SameButExit.setPCB k q kernelBroadcast,
    hl.push_exited q hd⟩

theorem orphaned_parent (pt : Pid → PCB) (l : List Pid) (p : Pid) :
    (orphaned pt l p).parent = if p ∈ l then some 1 else (pt p).parent := by
  by_cases hp : p ∈ l <;> simp [orphaned, hp]

theorem ProcessTable.length_children_lt {k : Kernel} {v : TableView} (ht : ProcessTable k v)
    (d : Pid) : (v.children d).length < maxProc + 1 := by
  have hle := (ht.lists.nodup_children d).length_le_card
  rw [Fintype.card_fin] at hle
  omega

theorem ProcessTable.length_ptcbs_lt {k : Kernel} {v : TableView} (ht : ProcessTable k v)
    (d : Pid) : (v.ptcbs d).length < 2 ^ 64 + 1 := by
  have hle := (ht.lists.nodup_ptcbs d).length_le_card
  rw [Fintype.card_fin] at hle
  omega

theorem leaveFamily_spec {k : Kernel} {v : TableView} (ht : ProcessTable k v) {d q : Pid}
    (hd : (k.pt d).pstate = .alive) (hd1 : 1 < d.val) (hq : (k.pt d).parent = some q) :
    ∃ h pt w, leaveFamily k d = { k with heap := h, pt := pt } ∧
      SameButExit (orphaned k.pt (v.children d)) pt ∧ TableLists h w ∧
      w.free = v.free ∧ w.ptcbs = v.ptcbs ∧
      (∀ r p, p ∈ w.children r ↔ r ≠ d ∧ (p ∈ v.children r ∨ r = 1 ∧ p ∈ v.children d)) ∧
      ∀ r p, p ∈ w.exited r ↔
        r = q ∧ p = d ∨ r ≠ d ∧ (p ∈ v.exited r ∨ r = 1 ∧ p ∈ v.exited d) := by
  have hdn : (k.pt d).pstate ≠ .free := by simp [hd]
  have hdne : d ≠ 1 := fun he => by simp [he] at hd1
  have hpid : getPid (some d) ≠ 1 := by
    simp only [getPid]
    omega
  have hdd : d ∉ v.children d := fun hm =>
    ht.family.parent_ne_self hd1 hdn ((ht.family.mem_children d hdn d).mp hm).2
  have hqd : q ≠ d := fun he => ht.family.parent_ne_self hd1 hdn (he ▸ hq)
  obtain ⟨h1, w1, hrun1, hl1, hfree1, hex1, hpt1, hch1⟩ :=
    reparentChildren_spec hdne ht.lists rfl (ht.length_children_lt d)
  obtain ⟨h2, pt2, w2, hrun2, hsame2, hl2, hfree2, hch2, hpt2, hex2⟩ :=
    adoptExited_spec (k := { k with heap := h1, pt := orphaned k.pt (v.children d) }) hl1 hdne
  have hparent : (pt2 d).parent = some q := by
    obtain ⟨cv, hcv⟩ := hsame2 d
    rw [hcv]
    simp only [orphaned_parent, if_neg hdd, hq]
  have hnot : ∀ r, d ∉ w2.exited r := fun r hm => by
    rw [hex2, hex1] at hm
    have hno := fun r => ht.family.not_exited (p := d) (by simp [hd]) r
    by_cases hrd : r = d
    · simp [hrd] at hm
    · by_cases hr1 : r = 1 <;> simp [hrd, hr1, hno, hdne.symm] at hm
  obtain ⟨h3, pt3, hrun3, hsame3, hl3⟩ :=
    joinExited_spec (k := { k with heap := h2, pt := pt2 }) hl2 hparent hnot
  refine ⟨h3, pt3, _, ?_, hsame2.trans hsame3, hl3, hfree2.trans hfree1, hpt2.trans hpt1,
    fun r p => ?_, fun r p => ?_⟩
  · simp only [leaveFamily, hpid, getPcb_one ht, ne_eq, not_false_eq_true, if_true]
    rw [hrun1, hrun2, hrun3]
  · exact (congrFun hch2 r ▸ hch1 r p :)
  · by_cases hrq : r = q
    · subst r
      by_cases hq1 : q = 1
      · subst q
        simp [TableView.setExited, hex2, hex1, hdne.symm]
      · simp [TableView.setExited, hex2, hex1, hqd, hq1]
    · by_cases hrd : r = d
      · simp [TableView.setExited, hex2, hrd, hqd.symm]
      · by_cases hr1 : r = 1
        · subst r
          simp [TableView.setExited, hex2, hex1, hrd, hrq]
        · simp [TableView.setExited, hex2, hex1, hrd, hr1, hrq]

theorem left_empty {v w : TableView} {d q : Pid} (hqd : q ≠ d)
    (hch : ∀ r p, p ∈ w.children r ↔ r ≠ d ∧ (p ∈ v.children r ∨ r = 1 ∧ p ∈ v.children d))
    (hex : ∀ r p, p ∈ w.exited r ↔
      r = q ∧ p = d ∨ r ≠ d ∧ (p ∈ v.exited r ∨ r = 1 ∧ p ∈ v.exited d)) :
    w.children d = [] ∧ w.exited d = [] := by
  refine ⟨List.eq_nil_iff_forall_not_mem.mpr fun p hp => ((hch d p).mp hp).1 rfl,
    List.eq_nil_iff_forall_not_mem.mpr fun p hp => ?_⟩
  rcases (hex d p).mp hp with ⟨he, _⟩ | ⟨he, _⟩
  · exact hqd he.symm
  · exact he rfl

structure Died (k : Kernel) (v : TableView) (d : Pid) (k' : Kernel) (w : TableView) : Prop where
  table : ProcessTable k' w
  ptcbs_view : ∀ r, w.ptcbs r = if r = d then [] else v.ptcbs r
  others : ∀ p, p ≠ d → ∃ cv, k'.pt p = { orphaned k.pt (v.children d) p with childExit := cv }
  zombie : (k'.pt d).pstate = .zombie
  parent : (k'.pt d).parent = (k.pt d).parent
  threadCount : (k'.pt d).threadCount = 0
  exitval : (k'.pt d).exitval = (k.pt d).exitval
  ptcbs : k'.ptcbs = fun a => if a ∈ v.ptcbs d then none else k.ptcbs a
  freed : k'.freed = k.freed ++ (v.ptcbs d).map fun a => ⟨a, (k.ptcbs a).map (·.refcount)⟩
  threads : k'.threads = k.threads
  panicked : k'.panicked = k.panicked
  acquired : k'.acquired = k.acquired
  reaps : k'.reaps = k.reaps

theorem Died.pstate {k k' : Kernel} {v w : TableView} {d : Pid} (h : Died k v d k' w) (p : Pid) :
    (k'.pt p).pstate = if p = d then .zombie else (k.pt p).pstate := by
  by_cases hp : p = d
  · simp [hp, h.zombie]
  · obtain ⟨cv, hcv⟩ := h.others p hp
    by_cases hc : p ∈ v.children d <;> simp [hcv, hp, hc, orphaned]

theorem leaveProcess_spec {k : Kernel} {v : TableView} (ht : ProcessTable k v) {d : Pid}
    (hd : (k.pt d).pstate = .alive) (hd1 : 1 < d.val) (hcount : (k.pt d).threadCount = 0) :
    ∃ w, Died k v d (leaveProcess k d) w := by
  have hdn : (k.pt d).pstate ≠ .free := by simp [hd]
  obtain ⟨q, hq, hqa⟩ := ht.family.has_parent d hd1 hdn
  have hqd : q ≠ d := fun he => ht.family.parent_ne_self hd1 hdn (he ▸ hq)
  have hdd : d ∉ v.children d := fun hm =>
    ht.family.parent_ne_self hd1 hdn ((ht.family.mem_children d hdn d).mp hm).2
  obtain ⟨h1, pt1, w, hrun1, hsame, hl1, hfree, hpt, hch, hex⟩ := leaveFamily_spec ht hd hd1 hq
  obtain ⟨hnoch, hnoex⟩ := left_empty hqd hch hex
  obtain ⟨h2, hrun2, hl2⟩ := freePtcbs_spec (k := { k with heap := h1, pt := pt1 }) hl1
    (congrFun hpt d) (ht.length_ptcbs_lt d)
  generalize hk2 : ({ k with
    heap := h2
    pt := pt1
    ptcbs := fun a => if a ∈ v.ptcbs d then none else k.ptcbs a
    freed := k.freed ++ (v.ptcbs d).map fun a => ⟨a, (k.ptcbs a).map (·.refcount)⟩ } : Kernel) = k2
    at hrun2
  obtain ⟨files, hrun3⟩ := closeStreams_spec (k2.setPCB d fun c => { c with args := none }) d
  have hrun : leaveProcess k d =
      ({ k2.setPCB d fun c => { c with args := none } with
        pt := closed (k2.setPCB d fun c => { c with args := none }).pt d (List.range maxFileid)
        files := files } : Kernel).setPCB d fun c =>
          { c with mainThread := none, pstate := .zombie } := by
    simp only [leaveProcess, hrun1, (hl1.empty_children d).mpr hnoch,
      (hl1.empty_exited d).mpr hnoex,
      Bool.and_self, if_true, hrun2, hrun3]
  have hself : ∃ cv, (leaveProcess k d).pt d = { k.pt d with
      pstate := .zombie
      args := none
      mainThread := none
      childExit := cv
      fidt := fun i => if i ∈ List.range maxFileid then none else (k.pt d).fidt i } := by
    obtain ⟨cv, hcv⟩ := hsame d
    rw [hrun]
    exact ⟨cv, by simp [← hk2, closed, hcv, orphaned, hdd]⟩
  have hothers : ∀ p, p ≠ d → ∃ cv, (leaveProcess k d).pt p =
      { orphaned k.pt (v.children d) p with childExit := cv } := fun p hp => by
    obtain ⟨cv, hcv⟩ := hsame p
    rw [hrun]
    exact ⟨cv, by simp [← hk2, closed, hcv, hp]⟩
  have hptcbs : (leaveProcess k d).ptcbs = fun a => if a ∈ v.ptcbs d then none else k.ptcbs a := by
    rw [hrun, ← hk2]
    rfl
  obtain ⟨cv, hdpcb⟩ := hself
  refine ⟨w.setPtcbs d [], ⟨⟨?_, ?_, fun p a ha => ?_⟩, fun r => ?_, hothers, by rw [hdpcb],
    by rw [hdpcb], by rw [hdpcb]; exact hcount, by rw [hdpcb], hptcbs, ?_, ?_, ?_, ?_, ?_⟩⟩
  · rw [hrun, ← hk2]
    exact hl2
  · have hfl : (leaveProcess k d).pcbFreelist = k.pcbFreelist := by rw [hrun, ← hk2]; rfl
    have hpc : (leaveProcess k d).processCount = k.processCount := by rw [hrun, ← hk2]; rfl
    rw [hfl, hpc]
    refine ht.family.die hd hd1 hq (fun p => ?_) (fun p => ?_) ?_ (fun i hi => ?_) (fun p hp => ?_)
      hfree hch hex (fun r => ?_)
    · by_cases hp : p = d
      · simp [hp, hdpcb]
      · obtain ⟨cv, hcv⟩ := hothers p hp
        by_cases hc : p ∈ v.children d <;> simp [hcv, hp, hc, orphaned]
    · by_cases hp : p = d
      · simp [hp, hdpcb, hdd]
      · obtain ⟨cv, hcv⟩ := hothers p hp
        simp [hcv, orphaned_parent]
    · simp [hdpcb, hcount]
    · simp [hdpcb, hi]
    · have hpd : p ≠ d := fun he => hp (he ▸ hd)
      obtain ⟨cv, hcv⟩ := hothers p hpd
      by_cases hc : p ∈ v.children d <;> simp [hcv, hc, orphaned]
    · by_cases hr : r = d <;> simp [TableView.setPtcbs, hr, hpt]
  · have hpd : p ≠ d := fun he => by simp [TableView.setPtcbs, he] at ha
    have hav : a ∈ v.ptcbs p := by simpa [TableView.setPtcbs, hpd, hpt] using ha
    have hnd : a ∉ v.ptcbs d := fun hm => hpd (ht.lists.ptcbs_disjoint hav hm)
    simpa [hptcbs, hnd] using ht.allocated p a hav
  · by_cases hr : r = d <;> simp [TableView.setPtcbs, hr, hpt]
  all_goals rw [hrun, ← hk2]; rfl

/-- Changes outside the table, or to the threads and streams of ALIVE processes. -/
theorem ProcessTable.frame {k k' : Kernel} {v : TableView} (ht : ProcessTable k v)
    (hheap : k'.heap = k.heap) (hfl : k'.pcbFreelist = k.pcbFreelist)
    (hpc : k'.processCount = k.processCount) (hst : ∀ p, (k'.pt p).pstate = (k.pt p).pstate)
    (hpar : ∀ p, (k'.pt p).parent = (k.pt p).parent)
    (hvac : ∀ p, (k.pt p).pstate ≠ .alive →
      (k'.pt p).threadCount = (k.pt p).threadCount ∧ (k'.pt p).fidt = (k.pt p).fidt)
    (hal : ∀ a, k.ptcbs a ≠ none → k'.ptcbs a ≠ none) : ProcessTable k' v where
  lists := by rw [hheap]; exact ht.lists
  family := by
    rw [hfl, hpc]
    exact ht.family.frame hst hpar hvac fun p _ => rfl
  allocated p a ha := hal a (ht.allocated p a ha)

def exitedKernel (k : Kernel) (curproc : Pid) (ptcb : Tid) (exitval : Int) : Kernel :=
  (k.setPTCB ptcb fun c =>
    { c with exited := 1, exitval := exitval, exitCv := kernelBroadcast c.exitCv }).setPCB curproc
      fun c => { c with threadCount := c.threadCount - 1 }

theorem setPTCB_ne_none (k : Kernel) (a b : Tid) (f : PTCB → PTCB) :
    (k.setPTCB a f).ptcbs b ≠ none ↔ k.ptcbs b ≠ none := by
  by_cases hb : b = a <;> simp [Kernel.setPTCB, hb]

theorem ProcessTable.exited {k : Kernel} {v : TableView} (ht : ProcessTable k v) {d : Pid}
    (hd : (k.pt d).pstate = .alive) (ptcb : Tid) (exitval : Int) :
    ProcessTable (exitedKernel k d ptcb exitval) v := by
  have hpt : ∀ p, p ≠ d → (exitedKernel k d ptcb exitval).pt p = k.pt p := fun p hp => by
    simp [exitedKernel, hp, Kernel.setPTCB]
  refine ht.frame rfl rfl rfl (fun p => ?_) (fun p => ?_) (fun p hp => ?_)
    fun a ha => (setPTCB_ne_none k ptcb a _).mpr ha
  · by_cases hp : p = d
    · simp [exitedKernel, hp, Kernel.setPTCB]
    · rw [hpt p hp]
  · by_cases hp : p = d
    · simp [exitedKernel, hp, Kernel.setPTCB]
    · rw [hpt p hp]
  · rw [hpt p fun he => hp (he ▸ hd)]
    exact ⟨rfl, rfl⟩

theorem sysThreadExit_last {k : Kernel} {v : TableView} (ht : ProcessTable k v) (t : ThreadId)
    {d : Pid} (hd : (k.pt d).pstate = .alive) (hd1 : 1 < d.val) (hcount : (k.pt d).threadCount = 1)
    (ptcb : Tid) (exitval : Int) :
    ∃ k' w, Died (exitedKernel k d ptcb exitval) v d k' w ∧
      sysThreadExit k t d ptcb exitval = k'.setPc t .exited := by
  have hzero : ((exitedKernel k d ptcb exitval).pt d).threadCount = 0 := by
    simp [exitedKernel, Kernel.setPTCB, hcount]
  have halive : ((exitedKernel k d ptcb exitval).pt d).pstate = .alive := by
    simp [exitedKernel, Kernel.setPTCB, hd]
  obtain ⟨w, hdied⟩ := leaveProcess_spec (ht.exited hd ptcb exitval) halive hd1 hzero
  refine ⟨_, w, hdied, ?_⟩
  rw [exitedKernel] at hzero
  simp only [sysThreadExit, hzero, if_true, exitedKernel]

end TinyOS
