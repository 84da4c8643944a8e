import TinyOS.ProcessExits

/-! How long a process lives. The count of its threads, the threads and the PTCBs in its
list agree, and whichever thread is the last to exit cleans up, once. -/

namespace TinyOS

open Ring Links Counting Transition

def PtcbList (k : Kernel) (p : Pid) (l : List Tid) : Prop :=
  Walk k.heap.succ (.ptcbList p) (l.map .ptcbListNode) (.ptcbList p)

def Kernel.unexited (k : Kernel) (a : Tid) : Bool := (k.ptcbs a).any fun c => c.exited = 0

/-- The thread count of a process, its threads, its list and its state agree. A process executed
without a task has no threads from the start. -/
structure Counts (k : Kernel) : Prop where
  threads : ∀ p, (k.pt p).threadCount = k.threads.countP (·.liveIn p)
  listed : ∃ v, TableLists k.heap v ∧ ∀ p, (k.pt p).threadCount = (v.ptcbs p).countP k.unexited
  alive : ∀ p, 0 < (k.pt p).threadCount → (k.pt p).pstate = .alive
  lively : ∀ p, p ≠ 0 → (k.pt p).pstate = .alive → (k.pt p).mainTask ≠ none →
    0 < (k.pt p).threadCount

theorem TableLists.ptcbs_unique {h : Heap NodeKey ProcNode} {v w : TableView} (hv : TableLists h v)
    (hw : TableLists h w) : v.ptcbs = w.ptcbs := by
  have hinj : Function.Injective ProcNode.ptcbListNode := fun a b h => by simpa using h
  have hmembers := hv.hangs.lists.unique hw.hangs.lists
  funext p
  exact List.map_injective_iff.mpr hinj (congrFun hmembers (.ptcbs p))

section Step

variable {k k' : Kernel} {v w : TableView} {t : ThreadId} {tcb : TCB} {d q : Pid}
  {e : ProcEvent} {ret : Option Ret}

theorem Counts.view (hc : Counts k) (hl : TableLists k.heap v) (p : Pid) :
    (k.pt p).threadCount = (v.ptcbs p).countP k.unexited := by
  obtain ⟨w, hw, hcount⟩ := hc.listed
  rw [hcount, hw.ptcbs_unique hl]

/-- Steps in which no thread is created or exits. -/
theorem Counts.same (hc : Counts k) (hl : TableLists k.heap v) (hw : TableLists k'.heap w)
    (hlist : ∀ p, (w.ptcbs p).countP k'.unexited = (v.ptcbs p).countP k.unexited)
    (hthr : ∀ p, k'.threads.countP (·.liveIn p) = k.threads.countP (·.liveIn p))
    (hcount : ∀ p, (k'.pt p).threadCount = (k.pt p).threadCount)
    (hal : ∀ p, (k.pt p).pstate = .alive → (k'.pt p).pstate = .alive)
    (hback : ∀ p, (k'.pt p).pstate = .alive → (k'.pt p).mainTask ≠ none →
      (k.pt p).pstate = .alive ∧ (k.pt p).mainTask ≠ none) : Counts k' where
  threads p := by rw [hcount, hc.threads, hthr]
  listed := ⟨w, hw, fun p => by rw [hcount, hlist, hc.view hl]⟩
  alive p hp := hal p (hc.alive p (by rwa [hcount] at hp))
  lively p h0 hp hm := by
    rw [hcount]
    exact hc.lively p h0 (hback p hp hm).1 (hback p hp hm).2

theorem Counts.grow (hc : Counts k) (hl : TableLists k.heap v) (hw : TableLists k'.heap w) {a : Tid}
    (ha : ∀ p, a ∉ v.ptcbs p) {c : PTCB} (hex : c.exited = 0)
    (hptcbs : k'.ptcbs = Function.update k.ptcbs a (some c))
    (hlist : ∀ p, w.ptcbs p = if p = q then v.ptcbs p ++ [a] else v.ptcbs p)
    {x : TCB} (hthr : k'.threads = k.threads ++ [x]) (hx : x.ownerPcb = q) (hxl : x.pc = .user)
    (hcount : ∀ p, (k'.pt p).threadCount = (k.pt p).threadCount + if p = q then 1 else 0)
    (hq : (k'.pt q).pstate = .alive)
    (hst : ∀ p, p ≠ q → (k'.pt p).pstate = (k.pt p).pstate ∧
      (k'.pt p).mainTask = (k.pt p).mainTask) :
    Counts k' := by
  have hpos : ∀ p, 0 ≤ (k.pt p).threadCount := fun p => by
    rw [hc.threads]
    omega
  have hold : ∀ p, (v.ptcbs p).countP k'.unexited = (v.ptcbs p).countP k.unexited := fun p => by
    apply List.countP_congr
    intro b hb
    have hba : b ≠ a := fun he => ha p (he ▸ hb)
    simp [Kernel.unexited, hptcbs, hba]
  have hnew : k'.unexited a = true := by simp [Kernel.unexited, hptcbs, hex]
  refine ⟨fun p => ?_, ⟨w, hw, fun p => ?_⟩, fun p hp => ?_, fun p h0 hp hm => ?_⟩
  · rw [hcount, hc.threads, hthr, List.countP_append]
    by_cases hpq : p = q
    · simp [hpq, TCB.liveIn, hx, hxl]
    · simp [hpq, TCB.liveIn, hx, Ne.symm hpq]
  · rw [hcount, hc.view hl, hlist]
    by_cases hpq : p = q
    · simp [hpq, List.countP_append, hold, hnew]
    · simp [hpq, hold]
  · by_cases hpq : p = q
    · exact hpq ▸ hq
    · rw [(hst p hpq).1]
      apply hc.alive
      have hp' := hcount p
      rw [if_neg hpq] at hp'
      omega
  · by_cases hpq : p = q
    · have hp' := hcount p
      have hge := hpos p
      rw [if_pos hpq] at hp'
      omega
    · have hlt := hc.lively p h0 ((hst p hpq).1 ▸ hp) ((hst p hpq).2 ▸ hm)
      have hp' := hcount p
      rw [if_neg hpq] at hp'
      omega

/-- One PTCB of a list becomes exited. -/
theorem countP_unexited {l : List Tid} (hl : l.Nodup) {a : Tid} (ha : a ∈ l)
    {f g : Tid → Bool} (hf : f a = true)
    (hg : g a = false) (heq : ∀ b, b ≠ a → g b = f b) : (l.countP g : Int) = l.countP f - 1 := by
  have hperm := List.perm_cons_erase ha
  have hrest : (l.erase a).countP g = (l.erase a).countP f := by
    apply List.countP_congr
    intro b hb
    rw [heq b (hl.mem_erase_iff.mp hb).1]
  rw [hperm.countP_eq, hperm.countP_eq f, List.countP_cons_of_neg (by simp [hg]),
    List.countP_cons_of_pos hf, hrest]
  omega

theorem exitedKernel_threadCount (k : Kernel) (d : Pid) (a : Tid) (x : Int) (p : Pid) :
    ((exitedKernel k d a x).pt p).threadCount = (k.pt p).threadCount - if p = d then 1 else 0 := by
  by_cases hp : p = d <;> simp [exitedKernel, Kernel.setPTCB, hp]

theorem exitedKernel_pcb (k : Kernel) (d : Pid) (a : Tid) (x : Int) (p : Pid) :
    ∃ n, (exitedKernel k d a x).pt p = { k.pt p with threadCount := n } := by
  by_cases hp : p = d
  · exact ⟨(k.pt p).threadCount - 1, by simp [exitedKernel, Kernel.setPTCB, hp]⟩
  · exact ⟨(k.pt p).threadCount, by simp [exitedKernel, Kernel.setPTCB, hp]⟩

theorem Counts.exited (hc : Counts k) (hl : TableLists k.heap v) (ht : k.threads[t]? = some tcb)
    (hlive : tcb.live = true) {a : Tid} {c : PTCB} (ha : a ∈ v.ptcbs tcb.ownerPcb)
    (hca : k.ptcbs a = some c) (hex : c.exited = 0) (x : Int) (p : Pid) :
    ((exitedKernel k tcb.ownerPcb a x).pt p).threadCount =
        ((exitedKernel k tcb.ownerPcb a x).setPc t .exited).threads.countP (·.liveIn p) ∧
      ((exitedKernel k tcb.ownerPcb a x).pt p).threadCount =
        (v.ptcbs p).countP (exitedKernel k tcb.ownerPcb a x).unexited := by
  have hne : tcb.pc ≠ .exited := by simpa [TCB.live] using hlive
  have hself : (exitedKernel k tcb.ownerPcb a x).unexited a = false := by
    simp [Kernel.unexited, exitedKernel, Kernel.setPTCB, Kernel.setPCB, hca]
  have hother : ∀ b, b ≠ a → (exitedKernel k tcb.ownerPcb a x).unexited b =
      k.unexited b := fun b hb => by
    simp [Kernel.unexited, exitedKernel, Kernel.setPTCB, Kernel.setPCB, hb]
  rw [exitedKernel_threadCount]
  by_cases hp : p = tcb.ownerPcb
  · subst hp
    rw [if_pos rfl]
    constructor
    · have hlose := countP_modify_lose (p := (·.liveIn tcb.ownerPcb))
        (f := fun c => { c with pc := .exited }) ht
        (by simp [TCB.liveIn, hne]) (by simp [TCB.liveIn])
      have hcount := hc.threads tcb.ownerPcb
      show _ =
        ((k.threads.modify t fun c => { c with pc := .exited }).countP
          (·.liveIn tcb.ownerPcb) : Int)
      omega
    · rw [countP_unexited (hl.nodup_ptcbs _) ha (f := k.unexited)
        (by simp [Kernel.unexited, hca, hex]) hself hother,
        hc.view hl]
  · rw [if_neg hp, Int.sub_zero]
    constructor
    · have hsame := countP_modify_same (p := (·.liveIn p))
        (f := fun c => { c with pc := .exited }) ht
        (by simp [TCB.liveIn, Ne.symm hp])
      show _ = ((k.threads.modify t fun c => { c with pc := .exited }).countP (·.liveIn p) : Int)
      rw [hsame, hc.threads]
    · rw [hc.view hl]
      congr 1
      apply List.countP_congr
      intro b hb
      have hba : b ≠ a := fun he => hp (hl.ptcbs_disjoint (he ▸ hb) ha)
      rw [hother b hba]

structure Dies (k k' : Kernel) (d : Pid) (l : List Tid) : Prop where
  listed : PtcbList k d l
  alive : (k.pt d).pstate = .alive
  last : (k.pt d).threadCount = 1
  none_left : (k'.pt d).threadCount = 0
  zombie : (k'.pt d).pstate = .zombie
  ptcbs : ∀ a ∈ l, k'.ptcbs a = none
  freed : k'.freed = k.freed ++ l.map fun a => ⟨a, (k.ptcbs a).map (·.refcount)⟩
  args : (k'.pt d).args = none
  fidt : ∀ i < maxFileid, (k'.pt d).fidt i = none
  files : k'.files = closedFiles k.files (k.pt d).fidt
  others : ∀ p, p ≠ d → (k'.pt p).pstate = (k.pt p).pstate ∧
    (k'.pt p).threadCount = (k.pt p).threadCount ∧
    (k'.pt p).args = (k.pt p).args ∧ (k'.pt p).fidt = (k.pt p).fidt

/-- What the other steps leave to the processes. -/
structure Lives (k k' : Kernel) : Prop where
  files : k'.files = k.files ∨ ∃ p, k'.files = inheritStreams k.files (k.pt p).fidt
  freed : k'.freed = k.freed ∨ ∃ a c n, k.ptcbs a = some c ∧ c.exited = 1 ∧
    k'.freed = k.freed ++ [⟨a, n⟩]
  args : ∀ p, (k.pt p).pstate ≠ .free → (k'.pt p).args = (k.pt p).args ∧
    (k'.pt p).fidt = (k.pt p).fidt
  pstate : ∀ p, (k.pt p).pstate ≠ .zombie → (k'.pt p).pstate ≠ .zombie
  threads : ∀ p, 0 < (k.pt p).threadCount → 0 < (k'.pt p).threadCount

theorem exitedKernel_refcount (k : Kernel) (d : Pid) (a : Tid) (x : Int) (b : Tid) :
    ((exitedKernel k d a x).ptcbs b).map (·.refcount) = (k.ptcbs b).map (·.refcount) := by
  by_cases hb : b = a
  · subst hb
    cases hc : k.ptcbs b <;> simp [exitedKernel, Kernel.setPTCB, Kernel.setPCB, hc]
  · simp [exitedKernel, Kernel.setPTCB, Kernel.setPCB, hb]

/-- The table of the other processes when `d` dies. -/
theorem buried_pcb {m : List Pid} {pt : Pid → PCB} {a : Tid} {x : Int}
    (hsame : SameButExit (orphaned (exitedKernel k d a x).pt m) pt) (p : Pid) :
    ∃ cv par, pt p = { k.pt p with
      childExit := cv, parent := par, threadCount := (k.pt p).threadCount - if p = d then 1
        else 0 } := by
  obtain ⟨cv, hcv⟩ := hsame p
  have hcount := exitedKernel_threadCount k d a x p
  obtain ⟨n, hn⟩ := exitedKernel_pcb k d a x p
  rw [hn] at hcount
  by_cases hm : p ∈ m
  · exact ⟨cv, some 1, by simp [hcv, orphaned, hm, hn, ← hcount]⟩
  · exact ⟨cv, (k.pt p).parent, by simp [hcv, orphaned, hm, hn, ← hcount]⟩

theorem Counts.die (hc : Counts k) (htab : ProcessTable k v) (ht : k.threads[t]? = some tcb)
    (hlive : tcb.live = true) (hal : (k.pt tcb.ownerPcb).pstate = .alive) {a : Tid} {c : PTCB}
    (ha : a ∈ v.ptcbs tcb.ownerPcb) (hca : k.ptcbs a = some c) (hex : c.exited = 0) (x : Int)
    (hone : (k.pt tcb.ownerPcb).threadCount = 1) {m : List Pid} {pt : Pid → PCB}
    {h : Heap NodeKey ProcNode}
    (hsame : SameButExit (orphaned (exitedKernel k tcb.ownerPcb a x).pt m) pt) (hw : TableLists h w)
    (hview : ∀ r, w.ptcbs r = if r = tcb.ownerPcb then [] else v.ptcbs r) :
    Counts (((exitedKernel k tcb.ownerPcb a x).bury tcb.ownerPcb (v.ptcbs tcb.ownerPcb) h pt).setPc
      t .exited) ∧
      Dies k (((exitedKernel k tcb.ownerPcb a x).bury tcb.ownerPcb
        (v.ptcbs tcb.ownerPcb) h pt).setPc t .exited)
        tcb.ownerPcb (v.ptcbs tcb.ownerPcb) := by
  have hexited := hc.exited htab.lists ht hlive ha hca hex x
  have hpcb := buried_pcb hsame
  generalize hd : tcb.ownerPcb = d at *
  generalize hk' : ((exitedKernel k d a x).bury d (v.ptcbs d) h pt).setPc t .exited = k'
  have hother : ∀ p, p ≠ d → k'.pt p = pt p := fun p hp => by
    rw [← hk']
    simp [Kernel.setPc, Kernel.bury, hp]
  have hself : k'.pt d = (pt d).dead := by
    rw [← hk']
    simp [Kernel.setPc, Kernel.bury]
  have hcount : ∀ p, (k'.pt p).threadCount = ((exitedKernel k d a x).pt p).threadCount := fun p =>
    by
    obtain ⟨cv, par, hp⟩ := hpcb p
    rw [exitedKernel_threadCount]
    by_cases hpd : p = d
    · subst hpd
      rw [hself, hp]
      rfl
    · rw [hother p hpd, hp]
  have hothers : ∀ p, p ≠ d → (k'.pt p).pstate = (k.pt p).pstate ∧
      (k'.pt p).threadCount = (k.pt p).threadCount ∧
      (k'.pt p).args = (k.pt p).args ∧ (k'.pt p).fidt = (k.pt p).fidt ∧
      (k'.pt p).mainTask = (k.pt p).mainTask :=
    fun p hp => by
      obtain ⟨cv, par, hpt⟩ := hpcb p
      rw [hother p hp, hpt]
      simp [hp]
  have hzero : (k'.pt d).threadCount = 0 := by
    rw [hcount, exitedKernel_threadCount, if_pos rfl]
    omega
  have hzombie : (k'.pt d).pstate = .zombie := by
    rw [hself]
    rfl
  have hthreads : k'.threads = ((exitedKernel k d a x).setPc t .exited).threads := by
    rw [← hk']
    rfl
  have hptcbs : k'.ptcbs = fun b => if b ∈ v.ptcbs d then none
      else (exitedKernel k d a x).ptcbs b := by
    rw [← hk']
    rfl
  refine ⟨⟨fun p => ?_, ⟨w, ?_, fun p => ?_⟩, fun p hp => ?_, fun p h0 hp hm => ?_⟩, ?_⟩
  · rw [hcount, hthreads]
    exact (hexited p).1
  · rw [← hk']
    exact hw
  · rw [hcount, hview]
    by_cases hpd : p = d
    · subst hpd
      rw [← hcount, hzero]
      simp
    · rw [if_neg hpd, (hexited p).2]
      congr 1
      apply List.countP_congr
      intro b hb
      have hbd : b ∉ v.ptcbs d := fun hm => hpd (htab.lists.ptcbs_disjoint hb hm)
      simp [Kernel.unexited, hptcbs, hbd]
  · have hpd : p ≠ d := fun he => by
      rw [he, hzero] at hp
      omega
    rw [(hothers p hpd).1]
    exact hc.alive p (by rwa [(hothers p hpd).2.1] at hp)
  · have hpd : p ≠ d := fun he => by simp [he, hzombie] at hp
    rw [(hothers p hpd).2.1]
    exact hc.lively p h0 ((hothers p hpd).1 ▸ hp) ((hothers p hpd).2.2.2.2 ▸ hm)
  · refine ⟨htab.lists.hangs.lists.walk (.ptcbs d), hal, hone, hzero, hzombie,
      fun b hb => ?_, ?_, ?_, fun i hi => ?_, ?_,
      fun p hp =>
        ⟨(hothers p hp).1, (hothers p hp).2.1, (hothers p hp).2.2.1, (hothers p hp).2.2.2.1⟩⟩
    · simp [hptcbs, hb]
    · rw [← hk']
      simp only [Kernel.setPc, Kernel.bury, exitedKernel_refcount]
      rfl
    · rw [hself]
      rfl
    · rw [hself]
      simp [PCB.dead, hi]
    · obtain ⟨cv, par, hpt⟩ := hpcb d
      rw [← hk']
      simp only [Kernel.setPc, Kernel.bury, hpt]
      rfl

/-- The end of a thread keeps the counts, and either its process lives on or it dies of it. -/
theorem Counts.threadEnd (hc : Counts k) (htab : ProcessTable k v) (ht : k.threads[t]? = some tcb)
    (hlive : tcb.live = true) (hal : (k.pt tcb.ownerPcb).pstate = .alive) {a : Tid} {c : PTCB}
    (ha : a ∈ v.ptcbs tcb.ownerPcb) (hca : k.ptcbs a = some c) (hex : c.exited = 0) {x : Int}
    (h : ThreadEnd k v t tcb.ownerPcb a x k') (hpan : k'.panicked = false) :
    Counts k' ∧ (Lives k k' ∨ ∃ d l, Dies k k' d l) := by
  have hexited := hc.exited htab.lists ht hlive ha hca hex x
  have hcount := exitedKernel_threadCount k tcb.ownerPcb a x
  have hpcb := exitedKernel_pcb k tcb.ownerPcb a x
  have hone : 0 < (k.pt tcb.ownerPcb).threadCount := by
    have hpos := countP_pos_of_getElem? (p := (·.liveIn tcb.ownerPcb)) ht
      (by simpa [TCB.liveIn, TCB.live] using hlive)
    rw [hc.threads]
    exact_mod_cast hpos
  cases h with
  | more hne =>
    have hkeep : ∀ p, ((exitedKernel k tcb.ownerPcb a x).pt p).pstate = (k.pt p).pstate ∧
        ((exitedKernel k tcb.ownerPcb a x).pt p).mainTask = (k.pt p).mainTask ∧
        ((exitedKernel k tcb.ownerPcb a x).pt p).args = (k.pt p).args ∧
        ((exitedKernel k tcb.ownerPcb a x).pt p).fidt = (k.pt p).fidt := fun p => by
      obtain ⟨n, hn⟩ := hpcb p
      simp [hn]
    have hpos : ∀ p, 0 < (k.pt p).threadCount →
        0 < ((exitedKernel k tcb.ownerPcb a x).pt p).threadCount := by
      intro p hp
      rw [hcount]
      by_cases hpd : p = tcb.ownerPcb
      · subst hpd
        simp only [if_true]
        omega
      · rwa [if_neg hpd, Int.sub_zero]
    refine ⟨⟨fun p => (hexited p).1, ⟨v, htab.lists, fun p => (hexited p).2⟩, fun p hp => ?_,
      fun p h0 hp hm => hpos p (hc.lively p h0 ((hkeep p).1 ▸ hp) ((hkeep p).2.1 ▸ hm))⟩,
      .inl ⟨.inl rfl, .inl rfl, fun p _ => (hkeep p).2.2, fun p hz => ?_, hpos⟩⟩
    · refine (hkeep p).1.trans (hc.alive p ?_)
      have hp' : 0 < ((exitedKernel k tcb.ownerPcb a x).pt p).threadCount := hp
      rw [hcount] at hp'
      by_cases hpd : p = tcb.ownerPcb <;> simp only [hpd, if_true, if_false] at hp' ⊢ <;> omega
    · show ((exitedKernel k tcb.ownerPcb a x).pt p).pstate ≠ .zombie
      rwa [(hkeep p).1]
  | last hlast hd1 hsame _ hdied =>
    obtain ⟨hcounts, hdies⟩ := hc.die htab ht hlive hal ha hca hex x hlast
      hsame hdied.table.lists hdied.ptcbs_view
    exact ⟨hcounts, .inr ⟨_, _, hdies⟩⟩
  | @retire h hlast hd1 hch hl =>
    have hsame : SameButExit (orphaned (exitedKernel k tcb.ownerPcb a x).pt [])
        (exitedKernel k tcb.ownerPcb a x).pt := by
      rw [orphaned_nil]
      exact .refl _
    obtain ⟨hcounts, hdies⟩ := hc.die htab ht hlive hal ha hca hex x hlast hsame hl fun r => by
      by_cases hr : r = tcb.ownerPcb <;> simp [TableView.setPtcbs, hr]
    exact ⟨hcounts, .inr ⟨_, _, hdies⟩⟩
  | abort => exact absurd hpan (by simp [Kernel.setPc, Kernel.panic])

/-- Steps that touch neither the streams nor what a process owns. -/
theorem Lives.same (hfiles : k'.files = k.files) (hfreed : k'.freed = k.freed)
    (hpt : ∀ p, (k'.pt p).args = (k.pt p).args ∧ (k'.pt p).fidt = (k.pt p).fidt ∧
      ((k'.pt p).pstate = .zombie → (k.pt p).pstate = .zombie) ∧
      (k.pt p).threadCount ≤ (k'.pt p).threadCount) :
    Lives k k' where
  files := .inl hfiles
  freed := .inl hfreed
  args p _ := ⟨(hpt p).1, (hpt p).2.1⟩
  pstate p h := fun hz => h ((hpt p).2.2.1 hz)
  threads p h := lt_of_lt_of_le h (hpt p).2.2.2

/-- A step that begins with a change that concerns no owner. -/
theorem lives_or_dies_before {k1 : Kernel} (h : Lives k1 k' ∨ ∃ d l, Dies k1 k' d l)
    (hheap : k1.heap = k.heap)
    (hptcbs : k1.ptcbs = k.ptcbs) (hfreed : k1.freed = k.freed) (hfiles : k1.files = k.files)
    (hpt : ∀ p, (k1.pt p).pstate = (k.pt p).pstate ∧ (k1.pt p).threadCount = (k.pt p).threadCount ∧
      (k1.pt p).args = (k.pt p).args ∧ (k1.pt p).fidt = (k.pt p).fidt) : Lives k k' ∨ ∃ d l,
        Dies k k' d l := by
  rcases h with ⟨h1, h2, h3, h4, h5⟩ | ⟨d, l, h⟩
  · refine .inl ⟨?_, ?_, fun p hp => ?_, fun p hp => ?_, fun p hp => ?_⟩
    · rw [← hfiles]
      refine h1.imp_right fun ⟨p, hp⟩ => ⟨p, ?_⟩
      rw [← (hpt p).2.2.2]
      exact hp
    · rw [← hfreed, ← hptcbs]
      exact h2
    · rw [← (hpt p).2.2.1, ← (hpt p).2.2.2]
      exact h3 p (by rwa [(hpt p).1])
    · exact h4 p (by rwa [(hpt p).1])
    · exact h5 p (by rwa [(hpt p).2.1])
  · refine .inr
      ⟨d, l, ⟨?_, (hpt d).1.symm.trans h.alive, (hpt d).2.1.symm.trans h.last,
        h.none_left, h.zombie, h.ptcbs,
      ?_, h.args, h.fidt, ?_, fun p hp => ?_⟩⟩
    · have hlisted := h.listed
      rwa [PtcbList, hheap] at hlisted
    · rw [← hfreed, ← hptcbs]
      exact h.freed
    · rw [← hfiles, ← (hpt d).2.2.2]
      exact h.files
    · rw [← (hpt p).1, ← (hpt p).2.1, ← (hpt p).2.2.1, ← (hpt p).2.2.2]
      exact h.others p hp

theorem countP_setPc (ht : k.threads[t]? = some tcb) (hl : tcb.live = true)
    {pc : ThreadPc} (hpc : pc ≠ .exited)
    (p : Pid) : (k.threads.modify t fun c => { c with pc := pc }).countP (·.liveIn p) =
      k.threads.countP (·.liveIn p) := by
  have hne : tcb.pc ≠ .exited := by simpa [TCB.live] using hl
  exact countP_modify_same ht (by simp [TCB.liveIn, hpc, hne])

theorem ThreadPc.idles.ne_exited {pc : ThreadPc} (h : pc.idles) : pc ≠ .exited := by
  rcases h with rfl | ⟨x, rfl⟩ <;> simp

theorem WaitsFor.ne_exited {pc : ThreadPc} {p : Pid} (h : WaitsFor k v p pc) : pc ≠ .exited := by
  rcases h with ⟨c, s, n, rfl, -⟩ | ⟨⟨s, rfl⟩ | ⟨x, rfl⟩, -⟩ <;> simp

/-- Steps that only move a thread on, and PCBs in ways that do not matter here. -/
theorem Counts.quiet (hc : Counts k) (hl : TableLists k.heap v) (ht : k.threads[t]? = some tcb)
    (hlive : tcb.live = true) {pc : ThreadPc} (hpc : pc ≠ .exited) (hheap : k'.heap = k.heap)
    (hptcbs : k'.ptcbs = k.ptcbs)
    (hthr : k'.threads = k.threads.modify t fun c => { c with pc := pc })
    (hfreed : k'.freed = k.freed) (hfiles : k'.files = k.files)
    (hpt : ∀ p, (k'.pt p).pstate = (k.pt p).pstate ∧ (k'.pt p).threadCount = (k.pt p).threadCount ∧
      (k'.pt p).args = (k.pt p).args ∧ (k'.pt p).fidt = (k.pt p).fidt ∧
      (k'.pt p).mainTask = (k.pt p).mainTask) :
    Counts k' ∧ Lives k k' := by
  constructor
  · refine hc.same hl (by rw [hheap]; exact hl) (fun p => ?_) (fun p => ?_) (fun p => (hpt p).2.1)
      (fun p hp => (hpt p).1.trans hp) fun p hp hm => ⟨(hpt p).1 ▸ hp, (hpt p).2.2.2.2 ▸ hm⟩
    · apply List.countP_congr
      intro b _
      simp [Kernel.unexited, hptcbs]
    · rw [hthr]
      exact countP_setPc ht hlive hpc p
  · exact .same hfiles hfreed fun p =>
      ⟨(hpt p).2.2.1, (hpt p).2.2.2.1, fun hz => (hpt p).1 ▸ hz, (hpt p).2.1.ge⟩

/-! ### The system calls -/

theorem Counts.reap (hc : Counts k) (hlists : TableLists k.heap v) (ht : k.threads[t]? = some tcb)
    (hl : tcb.live = true) {z : Pid} {pc : ThreadPc} (hpc : pc ≠ .exited)
    (hz : (k.pt z).pstate = .zombie) : Counts ((cleanupZombie k q z).setPc t pc) ∧
      Lives k ((cleanupZombie k q z).setPc t pc) := by
  have hpt : ∀ p, p ≠ z → ((cleanupZombie k q z).setPc t pc).pt p = k.pt p := fun p hp => by
    simp [Kernel.setPc, cleanupZombie, releasePCB, Kernel.setPCB, hp]
  have hself : ((cleanupZombie k q z).setPc t pc).pt z =
      { k.pt z with pstate := .free, parent := k.pcbFreelist } := by
    simp [Kernel.setPc, cleanupZombie, releasePCB, Kernel.setPCB]
  constructor
  · refine hc.same hlists (hlists.drop_pid z) (fun _ => rfl) (fun p => ?_) (fun p => ?_)
      (fun p hp => ?_) fun p hp hm => ?_
    · exact countP_setPc ht hl hpc p
    · by_cases hpz : p = z
      · rw [hpz, hself]
      · rw [hpt p hpz]
    · have hpz : p ≠ z := fun he => by simp [he, hz] at hp
      rwa [hpt p hpz]
    · have hpz : p ≠ z := fun he => by simp [he, hself] at hp
      rw [hpt p hpz] at hp hm
      exact ⟨hp, hm⟩
  · refine .same rfl rfl fun p => ?_
    by_cases hpz : p = z
    · simp [hpz, hself, hz]
    · simp [hpt p hpz]

theorem Counts.execIdle (hc : Counts k) (htab : ProcessTable k v) {cur n : Pid} {rest : List Pid}
    (hfree : v.free = n :: rest) (hal : (k.pt cur).pstate = .alive) (h0 : cur ≠ 0) (argl : Int)
    (args : ExecArgs argl) : Counts (execKernel k cur n none argl args) ∧
      Lives k (execKernel k cur n none argl args) := by
  have hn := (htab.freelist_cons hfree).2.1
  have htab' := htab.exec_idle hfree hal h0 none argl args
  have hpt : ∀ p, p ≠ n → (execKernel k cur n none argl args).pt p = k.pt p := fun p hp => by
    simp [execKernel, hp]
  have hself : (execKernel k cur n none argl args).pt n = execPcb k cur n none argl args := by
    simp [execKernel]
  have hempty : v.ptcbs n = [] := (htab.family.vacated n (by simp [hn])).ptcbs
  constructor
  · refine hc.same htab.lists htab'.lists (fun p => ?_) (fun _ => rfl) (fun p => ?_)
      (fun p hp => ?_) fun p hp hm => ?_
    · by_cases hpn : p = n
      · simp [TableView.exec, hpn, hempty]
      · simp only [TableView.exec, Function.update_of_ne hpn]
        rfl
    · by_cases hpn : p = n
      · rw [hpn, hself]
        rfl
      · rw [hpt p hpn]
    · have hpn : p ≠ n := fun he => by simp [he, hn] at hp
      rwa [hpt p hpn]
    · have hpn : p ≠ n := fun he => by simp [he, hself, execPcb] at hm
      rw [hpt p hpn] at hp hm
      exact ⟨hp, hm⟩
  · refine ⟨.inr ⟨cur, rfl⟩, .inl rfl, fun p hp => ?_, fun p hp => ?_, fun p hp => ?_⟩
    · have hpn : p ≠ n := fun he => hp (he ▸ hn)
      rw [hpt p hpn]
      exact ⟨rfl, rfl⟩
    · by_cases hpn : p = n
      · simp [hpn, hself, execPcb]
      · rwa [hpt p hpn]
    · by_cases hpn : p = n
      · rw [hpn] at hp ⊢
        rwa [hself]
      · rwa [hpt p hpn]

theorem Counts.execTask (hc : Counts k) (htab : ProcessTable k v) {cur n : Pid} {rest : List Pid}
    (hfree : v.free = n :: rest) (hal : (k.pt cur).pstate = .alive) (h0 : cur ≠ 0) (task : Task)
    (argl : Int) (args : ExecArgs argl) {a : Tid} (ha : k.canAllocate a) :
    Counts (execTaskKernel k cur n task argl args a) ∧
      Lives k (execTaskKernel k cur n task argl args a) := by
  have hn := (htab.freelist_cons hfree).2.1
  have htab' := htab.exec_task hfree hal h0 task argl args ha
  have hpt : ∀ p, p ≠ n → (execTaskKernel k cur n task argl args a).pt p = k.pt p := fun p hp => by
    simp [execTaskKernel, hp]
  obtain ⟨hst, -, hcount⟩ := execTaskKernel_new k cur n task argl args a
  have hempty : v.ptcbs n = [] := (htab.family.vacated n (by simp [hn])).ptcbs
  have hfresh : ∀ p, a ∉ v.ptcbs p := fun p hm => htab.allocated p a hm ha.1
  constructor
  · refine hc.grow (q := n) (x := ⟨n, some a, .startMainThread, .user⟩) htab.lists htab'.lists
      hfresh rfl rfl (fun p => ?_) rfl rfl rfl (fun p => ?_) hst fun p hp => ?_
    · by_cases hpn : p = n
      · simp [TableView.exec, hpn, hempty]
      · simp [TableView.exec, hpn]
    · by_cases hpn : p = n
      · subst hpn
        simpa using hcount
      · simp [hpt p hpn, hpn]
    · rw [hpt p hp]
      exact ⟨rfl, rfl⟩
  · refine ⟨.inr ⟨cur, rfl⟩, .inl rfl, fun p hp => ?_, fun p hp => ?_, fun p hp => ?_⟩
    · have hpn : p ≠ n := fun he => hp (he ▸ hn)
      rw [hpt p hpn]
      exact ⟨rfl, rfl⟩
    · by_cases hpn : p = n
      · subst hpn
        simp [hst]
      · rwa [hpt p hpn]
    · by_cases hpn : p = n
      · subst hpn
        rw [hcount]
        omega
      · rwa [hpt p hpn]

theorem Counts.createNull (hc : Counts k) (htab : ProcessTable k v) (argl : Int) (args : Args)
    {a : Tid} (ha : k.canAllocate a) :
    Counts (sysCreateThread k q none argl args a).1 ∧
      Lives k (sysCreateThread k q none argl args a).1 := by
  have hfresh : ∀ p, a ∉ v.ptcbs p := fun p hm => htab.allocated p a hm ha.1
  constructor
  · refine hc.same htab.lists (htab.lists.init_ptcb hfresh) (fun p => ?_) (fun _ => rfl)
      (fun _ => rfl) (fun _ h => h) fun _ hp hm => ⟨hp, hm⟩
    apply List.countP_congr
    intro b hb
    have hba : b ≠ a := fun he => hfresh p (he ▸ hb)
    simp [sysCreateThread, Kernel.unexited, hba]
  · exact .same rfl rfl fun p => ⟨rfl, rfl, fun h => h, le_rfl⟩

theorem Counts.create (hc : Counts k) (htab : ProcessTable k v) {cur : Pid}
    (hal : (k.pt cur).pstate = .alive) (task : Task) (argl : Int) (args : Args) {a : Tid}
    (ha : k.canAllocate a) : Counts (createdKernel k cur task argl args a) ∧
      Lives k (createdKernel k cur task argl args a) := by
  have hfresh : ∀ p, a ∉ v.ptcbs p := fun p hm => htab.allocated p a hm ha.1
  have hpt : ∀ p, (createdKernel k cur task argl args a).pt p =
      { k.pt p with threadCount := (k.pt p).threadCount + if p = cur then 1 else 0 } := fun p => by
    by_cases hp : p = cur <;> simp [createdKernel, hp]
  constructor
  · refine hc.grow (q := cur) (x := ⟨cur, some a, .startProcessThread, .user⟩) htab.lists
      (htab.lists.push_ptcb cur hfresh) hfresh rfl rfl (fun p => ?_) rfl rfl rfl (fun p => ?_) ?_
      fun p _ => ?_
    · by_cases hp : p = cur <;> simp [TableView.setPtcbs, hp]
    · rw [hpt]
    · rw [hpt]
      exact hal
    · rw [hpt]
      exact ⟨rfl, rfl⟩
  · refine .same rfl rfl fun p => ?_
    rw [hpt]
    refine ⟨rfl, rfl, fun h => h, ?_⟩
    by_cases hp : p = cur <;> simp [hp]

theorem Counts.touch (hc : Counts k) (hlists : TableLists k.heap v)
    (ht : k.threads[t]? = some tcb) (hl : tcb.live = true) {pc : ThreadPc} (hpc : pc ≠ .exited)
    {a : Tid} {c c' : PTCB} (hca : k.ptcbs a = some c) (hxc : c'.exited = c.exited) :
    Counts (k.touch t a c' pc) ∧ Lives k (k.touch t a c' pc) := by
  constructor
  · refine hc.same hlists hlists (fun p => ?_) (countP_setPc ht hl hpc) (fun _ => rfl)
      (fun _ h => h) fun _ hp hm => ⟨hp, hm⟩
    apply List.countP_congr
    intro b _
    by_cases hba : b = a
    · subst hba
      simp [Kernel.unexited, Kernel.touch, hca, hxc]
    · simp [Kernel.unexited, Kernel.touch, hba]
  · exact .same rfl rfl fun p => ⟨rfl, rfl, fun h => h, le_rfl⟩

/-- The PTCB of a thread that has exited is freed. -/
theorem Counts.free (hc : Counts k) (hlists : TableLists k.heap v)
    (ht : k.threads[t]? = some tcb) (hl : tcb.live = true) {a : Tid} {c c' : PTCB}
    (hca : k.ptcbs a = some c) (hxc : c.exited = 1)
    (hk' : k' = freePtcb
      { k.touch t a c' .user with heap := rlistRemove k.heap (.ptcbListNode a) } a) :
    Counts k' ∧ Lives k k' := by
  have hgone : ∀ b, b ≠ a → k'.unexited b = k.unexited b := fun b hb => by
    simp [hk', Kernel.unexited, freePtcb, Kernel.touch, hb]
  have hold : k.unexited a = false := by simp [Kernel.unexited, hca, hxc]
  have herase : ∀ p, ((v.dropTid a).ptcbs p).countP k'.unexited =
      ((v.ptcbs p).erase a).countP k.unexited := fun p => by
    apply List.countP_congr
    intro b hb
    rw [hgone b ((hlists.nodup_ptcbs p).mem_erase_iff.mp hb).1]
  have hlisted : ∀ p, ((v.dropTid a).ptcbs p).countP k'.unexited =
      (v.ptcbs p).countP k.unexited := fun p => by
    rw [herase]
    by_cases hm : a ∈ v.ptcbs p
    · rw [(List.perm_cons_erase hm).countP_eq k.unexited,
        List.countP_cons_of_neg (by simp [hold])]
    · rw [List.erase_of_not_mem hm]
  subst hk'
  exact ⟨hc.same hlists (hlists.drop_tid a) hlisted (countP_setPc ht hl (by simp)) (fun _ => rfl)
      (fun _ h => h) fun _ hp hm => ⟨hp, hm⟩,
    .inl rfl, .inr ⟨a, c, _, hca, hxc, rfl⟩, fun p _ => ⟨rfl, rfl⟩, fun p h => h, fun p h => h⟩

theorem Counts.setExitval (hc : Counts k) (hlists : TableLists k.heap v) (d : Pid) (x : Int) :
    Counts (k.setPCB d fun c => { c with exitval := x }) := by
  have hpt : ∀ p, (k.setPCB d fun c => { c with exitval := x }).pt p =
      { k.pt p with exitval := if p = d then x else (k.pt p).exitval } := fun p => by
    by_cases hp : p = d <;> simp [hp]
  refine hc.same hlists hlists (fun _ => rfl) (fun _ => rfl) (fun p => ?_) (fun p hp => ?_)
    fun p hp hm => ?_
  · rw [hpt]
  · rwa [hpt]
  · rw [hpt] at hp hm
    exact ⟨hp, hm⟩

theorem Running.counts (hr : Running k v) (hok : notReaped k e = true)
    (h : k.stepRet e = some (k', ret)) (hc : Counts k) (hpan : k'.panicked = false) :
    Counts k' ∧ (Lives k k' ∨ ∃ d l, Dies k k' d l) := by
  obtain ⟨-, tcb, ht, hl, hstep⟩ := hr.stepCases hok h
  obtain ⟨hal, h0⟩ := hr.owner _ tcb ht hl
  obtain ⟨a0, c0, ha0, hm0, hc0, -, hex0⟩ := hr.self _ tcb ht hl
  have htab := hr.table
  have hlists := htab.lists
  generalize e.thread = t at ht hstep
  cases hstep with
  | stay hpc =>
    apply And.imp_right Or.inl
    exact hc.quiet hlists ht hl hpc.ne_exited rfl rfl rfl rfl rfl fun _ => ⟨rfl, rfl, rfl, rfl, rfl⟩
  | sleep hw =>
    apply And.imp_right Or.inl
    refine hc.quiet hlists ht hl hw.ne_exited rfl rfl rfl rfl rfl fun p => ?_
    by_cases hp : p = tcb.ownerPcb <;> simp [Kernel.setPc, hp]
  | @enterExit x =>
    have hne : ThreadPc.exitLoop x ≠ .exited := by simp
    apply And.imp_right Or.inl
    refine hc.quiet hlists ht hl hne rfl rfl rfl rfl rfl fun p => ?_
    by_cases hp : p = tcb.ownerPcb <;> simp [Kernel.setPc, hp]
  | reap _ hpc hz _ _ => exact And.imp_right Or.inl (hc.reap hlists ht hl hpc.ne_exited hz)
  | execIdle hfree => exact And.imp_right Or.inl (hc.execIdle htab hfree hal h0 _ _)
  | execTask hfree ha => exact And.imp_right Or.inl (hc.execTask htab hfree hal h0 _ _ _ ha)
  | createNull ha => exact And.imp_right Or.inl (hc.createNull (q := tcb.ownerPcb) htab _ _ ha)
  | create ha => exact And.imp_right Or.inl (hc.create htab hal _ _ _ ha)
  | @touch e a c c' pc ret hw hpc hca htc hxc =>
    have hne : pc ≠ .exited := by
      rcases hpc with rfl | ⟨s, rfl⟩ <;> simp
    exact And.imp_right Or.inl (hc.touch hlists ht hl hne hca hxc)
  | free _ hca hxc => exact And.imp_right Or.inl (hc.free hlists ht hl hca hxc rfl)
  | @exit x a hne ha =>
    obtain rfl : a0 = a := Option.some.inj (ha0.symm.trans ha)
    have htab' := htab.setExitval tcb.ownerPcb x
    have hal' : ((k.setPCB tcb.ownerPcb fun c => { c with exitval := x }).pt
        tcb.ownerPcb).pstate = .alive := by
      simpa using hal
    obtain ⟨hcounts, hlives⟩ := (hc.setExitval hlists tcb.ownerPcb x).threadEnd htab' ht hl hal' hm0
      hc0 hex0 (htab'.threadEnd hal' h0 t a0 x) hpan
    refine ⟨hcounts, lives_or_dies_before hlives rfl rfl rfl rfl fun p => ?_⟩
    by_cases hp : p = tcb.ownerPcb <;> simp [hp]
  | @threadExit x a ha =>
    obtain rfl : a0 = a := Option.some.inj (ha0.symm.trans ha)
    exact hc.threadEnd htab ht hl hal hm0 hc0 hex0 (htab.threadEnd hal h0 t a0 x) hpan
  | @leaveLoop x a ha hch =>
    obtain rfl : a0 = a := Option.some.inj (ha0.symm.trans ha)
    have htab' := htab.setPc t (.exitLoop x)
    have hne : ThreadPc.exitLoop x ≠ .exited := by simp
    have hquiet : Counts (k.setPc t (.exitLoop x)) ∧ Lives k (k.setPc t (.exitLoop x)) :=
      hc.quiet hlists ht hl hne rfl rfl rfl rfl rfl fun _ => ⟨rfl, rfl, rfl, rfl, rfl⟩
    have ht1 : (k.setPc t (.exitLoop x)).threads[t]? = some { tcb with pc := .exitLoop x } := by
      simp [Kernel.setPc, ht]
    obtain ⟨hcounts, hlives⟩ :=
      hquiet.1.threadEnd htab' ht1 rfl hal hm0 hc0 hex0 (htab'.threadEnd hal h0 t a0 x) hpan
    exact ⟨hcounts, lives_or_dies_before hlives rfl rfl rfl rfl fun p => ⟨rfl, rfl, rfl, rfl⟩⟩

end Step

theorem Counts.boot (task : Task) (argl : Int) (args : ExecArgs argl)
    (a : Tid) : Counts (bootKernel task argl args a) := by
  obtain ⟨v, hr⟩ := Running.boot task argl args a
  obtain ⟨free, ht⟩ := ProcessTable.boot task argl args a
  have hcount : ∀ p, ((bootKernel task argl args a).pt p).threadCount = if p = 1 then 1
      else 0 := fun p => by
    rw [bootKernel_eq]
    by_cases h1 : p = 1
    · simp [h1, initPcb]
    · by_cases h0 : p = 0 <;> simp [h0, h1, idlePcb, freePcb, initializePCB]
  have hst : ∀ p, p ≠ 0 → ((bootKernel task argl args a).pt p).pstate = if p = 1 then .alive
      else .free := fun p h0 => by
    rw [bootKernel_eq]
    by_cases h1 : p = 1 <;> simp [h0, h1, initPcb, freePcb, initializePCB]
  have hnew : (bootKernel task argl args a).unexited a = true := by
    rw [bootKernel_eq]
    simp [Kernel.unexited, initializePtcb]
  refine ⟨hr.count, ⟨bootView free a, ht.lists, fun p => ?_⟩, fun p hp => ?_, fun p h0 hp _ => ?_⟩
  · rw [hcount]
    by_cases h1 : p = 1 <;> simp [bootView, h1, hnew]
  · rw [hcount] at hp
    by_cases h1 : p = 1
    · rw [hst p (by simp [h1]), if_pos h1]
    · simp [h1] at hp
  · rw [hst p h0] at hp
    by_cases h1 : p = 1
    · simp [hcount, h1]
    · simp [h1] at hp

end TinyOS
