import TinyOS.ProcessRun

/-! One step from a running state: it leads to a running state again, or there is no
thread left, and the other threads can rely on what they wait for. -/

namespace TinyOS

open Ring Links Counting Transition

/-- The PCB reaped in `r` is, in `k`, a zombie child of the caller. -/
structure Reap.Proper (r : Reap) (k : Kernel) : Prop where
  zombie : r.pstate = .zombie
  child : r.parent = some r.caller
  pstate_eq : (k.pt r.pcb).pstate = r.pstate
  parent_eq : (k.pt r.pcb).parent = r.parent
  occupant_eq : r.occupant = k.acquired r.pcb

/-- What a step of thread `t` does to the history, and what it leaves to the others. -/
structure Kept (k k' : Kernel) (t : ThreadId) : Prop where
  others : ∀ (u : Nat) (x : TCB), u ≠ t → k.threads[u]? = some x → k'.threads[u]? = some x
  joined : ∀ (u : Nat) (x : TCB) a c, u ≠ t → k.threads[u]? = some x → x.pc.joins a = true →
    k.ptcbs a = some c → ∃ c', k'.ptcbs a = some c' ∧
      (c.exited = 1 → c'.exited = 1 ∧ c'.exitval = c.exitval ∧ c'.detached = c.detached) ∧
      (c.detached = 1 → c'.detached = 1)
  reaps : k'.reaps = k.reaps ∨ ∃ r : Reap, k'.reaps = k.reaps ++ [r] ∧ r.Proper k ∧
    (k'.pt r.pcb).pstate = .free
  freed : ∃ l, k'.freed = k.freed ++ l ∧ ∀ f ∈ l, f.refcount = some 0
  acquired : ∀ p, k.acquired p ≤ k'.acquired p ∧
    ((k.pt p).pstate = .free → k'.acquired p = k.acquired p → (k'.pt p).pstate = .free)

def Goes (k : Kernel) (t : ThreadId) (k' : Kernel) : Prop :=
  Kept k k' t ∧ ((∃ w, Running k' w) ∨ Ended k')

section Step

variable {k k' : Kernel} {v w : TableView} {t : ThreadId} {tcb : TCB} {pc : ThreadPc}

/-- Steps that touch no PTCB, no PCB state and no history. -/
theorem Kept.quiet (hthr : ∀ (u : Nat) (x : TCB), u ≠ t → k.threads[u]? = some x →
      k'.threads[u]? = some x)
    (hptcbs : k'.ptcbs = k.ptcbs) (hreaps : k'.reaps = k.reaps) (hfreed : k'.freed = k.freed)
    (hacq : k'.acquired = k.acquired) (hst : ∀ p, (k'.pt p).pstate = (k.pt p).pstate) :
    Kept k k' t where
  others := hthr
  joined u x a c _ _ _ hc := ⟨c, hptcbs ▸ hc, fun h => ⟨h, rfl, rfl⟩, fun h => h⟩
  reaps := .inl hreaps
  freed := ⟨[], by simp [hfreed], by simp⟩
  acquired p := ⟨by rw [hacq], fun h _ => (hst p).trans h⟩

theorem modify_other {l : List TCB} {f : TCB → TCB} {u : Nat} {x : TCB} (hu : u ≠ t)
    (h : l[u]? = some x) : (l.modify t f)[u]? = some x := by
  rw [List.getElem?_modify_ne _ _ (Ne.symm hu), h]

/-- A change of PCBs of which neither the table nor the threads take notice. -/
def Unnoticed (f : PCB → PCB) : Prop :=
  ∀ c : PCB, (f c).pstate = c.pstate ∧ (f c).parent = c.parent ∧
    (f c).threadCount = c.threadCount ∧ (f c).fidt = c.fidt

theorem Unnoticed.pt {f : PCB → PCB} (hf : Unnoticed f) (k : Kernel) (p q : Pid) :
    ((k.setPCB p f).pt q).pstate = (k.pt q).pstate ∧ ((k.setPCB p f).pt q).parent =
    (k.pt q).parent ∧ ((k.setPCB p f).pt q).threadCount = (k.pt q).threadCount ∧
      ((k.setPCB p f).pt q).fidt = (k.pt q).fidt := by
  by_cases hq : q = p
  · subst hq
    simpa using hf (k.pt q)
  · simp [hq]

/-- A thread blocks, or returns without having changed anything. -/
theorem Running.soft (hr : Running k v) (ht : k.threads[t]? = some tcb) (hl : tcb.live = true)
    (hpc : pc ≠ .exited) (hj : ∀ a, pc.joins a = false) (hjt : ∀ a, tcb.pc.joins a = false)
    (hw : ChildKept k tcb.ownerPcb pc) (p : Pid) {f : PCB → PCB} (hf : Unnoticed f) :
    Running ((k.setPCB p f).setPc t pc) v := by
  have hpt := hf.pt k p
  have hkept : ∀ q c, ChildKept k q c → ChildKept ((k.setPCB p f).setPc t pc) q c :=
    fun q c h z s n he => by
      have hz : ((k.setPCB p f).setPc t pc).pt z = (k.setPCB p f).pt z := rfl
      rw [hz, (hpt z).1, (hpt z).2.1]
      exact h z s n he
  refine hr.advance ht hl hpc hj hjt ?_ rfl rfl rfl (fun q hq => (hpt q).1.trans hq)
    (fun q => (hpt q).2.2.1) hkept (hkept _ _ hw)
  exact hr.table.frame rfl rfl rfl (fun q => (hpt q).1) (fun q => (hpt q).2.1)
    (fun q _ => (hpt q).2.2) fun _ h => h

theorem Running.softGoes (hr : Running k v) (ht : k.threads[t]? = some tcb) (hl : tcb.live = true)
    (hpc : pc ≠ .exited) (hj : ∀ a, pc.joins a = false) (hjt : ∀ a, tcb.pc.joins a = false)
    (hw : ChildKept k tcb.ownerPcb pc) (p : Pid) {f : PCB → PCB} (hf : Unnoticed f) :
    Goes k t ((k.setPCB p f).setPc t pc) :=
  ⟨.quiet (fun _ _ hu h => modify_other hu h) rfl rfl rfl rfl fun q => (hf.pt k p q).1,
    .inl ⟨v, hr.soft ht hl hpc hj hjt hw p hf⟩⟩

theorem Running.reap (hr : Running k v) (ht : k.threads[t]? = some tcb) (hl : tcb.live = true)
    (hpc : pc ≠ .exited) (hj : ∀ a, pc.joins a = false) (hjt : ∀ a, tcb.pc.joins a = false)
    (hnw : ∀ c s n, pc ≠ .waitSpecific c s n) {z : Pid} (hz : (k.pt z).pstate = .zombie)
    (hzp : (k.pt z).parent = some tcb.ownerPcb) :
    Goes k t ((cleanupZombie k tcb.ownerPcb z).setPc t pc) := by
  have hpt : ∀ q, q ≠ z → ((cleanupZombie k tcb.ownerPcb z).setPc t pc).pt q = k.pt q :=
    fun q hq => by simp [Kernel.setPc, cleanupZombie, releasePCB, hq, Kernel.setPCB]
  have hfree : (((cleanupZombie k tcb.ownerPcb z).setPc t pc).pt z).pstate = .free := by
    simp [Kernel.setPc, cleanupZombie, releasePCB]
  have hcount : (((cleanupZombie k tcb.ownerPcb z).setPc t pc).pt z).threadCount =
      (k.pt z).threadCount := by
    simp [Kernel.setPc, cleanupZombie, releasePCB, Kernel.setPCB]
  refine ⟨⟨fun u x hu h => modify_other hu h,
    fun u x a c _ _ _ hc => ⟨c, hc, fun h => ⟨h, rfl, rfl⟩, fun h => h⟩,
    .inr ⟨⟨tcb.ownerPcb, z, k.acquired z, (k.pt z).pstate, (k.pt z).parent⟩, rfl,
      ⟨hz, hzp, rfl, rfl, rfl⟩, hfree⟩, ⟨[], by simp [Kernel.setPc, cleanupZombie, releasePCB,
        Kernel.setPCB], by simp⟩, fun p => ⟨Nat.le_refl _, fun h _ => ?_⟩⟩,
    .inl ⟨{ v.dropPid z with free := z :: v.free }, ?_⟩⟩
  · by_cases hp : p = z
    · exact hp ▸ hfree
    · rw [hpt p hp]
      exact h
  · refine hr.advance ht hl hpc hj hjt ((hr.table.cleanup hz).setPc t pc) rfl rfl rfl
      (fun p hp => ?_) (fun p => ?_) (fun p c h y s n he => ?_)
      (fun c s n he => absurd he (hnw c s n))
    · have hne : p ≠ z := fun he => by simp [he, hz] at hp
      rw [hpt p hne]
      exact hp
    · by_cases hp : p = z
      · exact hp ▸ hcount
      · rw [hpt p hp]
    · obtain ⟨hle, hkept⟩ := h y s n he
      refine ⟨hle, fun hno => ?_⟩
      have hmem : ∀ r, r ∈ k.reaps ++ [⟨tcb.ownerPcb, z, k.acquired z, (k.pt z).pstate,
          (k.pt z).parent⟩] → ¬(r.pcb = y ∧ r.occupant = n) := hno
      obtain ⟨hn, hnf, hpar⟩ := hkept fun r hr => hmem r (List.mem_append_left _ hr)
      have hyz : y ≠ z := fun hyz => hmem _ (List.mem_append_right _ (List.mem_singleton.mpr rfl))
        ⟨hyz.symm, by rw [← hn, hyz]⟩
      rw [hpt y hyz]
      exact ⟨hn, hnf, hpar⟩

/-! ### The end of a thread -/

theorem Ended.stepRet (h : Ended k) (e : ProcEvent) : k.stepRet e = none := by
  by_cases hp : k.panicked = true
  · simp [Kernel.stepRet, hp]
  · cases hx : k.threads[e.thread]? with
    | none => simp [Kernel.stepRet, hx]
    | some x =>
      have hpc : x.pc = .exited := by simpa [TCB.live] using h.dead _ _ hx
      cases e <;> simp_all [Kernel.stepRet, Kernel.goOn, ProcEvent.thread]

/-- Without children of init there are no processes but the first two. -/
theorem Family.alone {pt : Pid → PCB} {fl : Option Pid} {n : Int} (hf : Family pt fl n v)
    (hc : v.children 1 = []) {p : Pid} (hp : (pt p).pstate ≠ .free) : p.val ≤ 1 := by
  by_contra hlt
  have hno : ∀ x, (pt x).pstate ≠ .free → (pt x).parent ≠ some 1 := fun x hx he => by
    have hm := (hf.mem_children 1 (Family.ne_free_of_alive hf.one_alive) x).mpr ⟨hx, he⟩
    simp [hc] at hm
  have hne : p ≠ 1 := fun he => by simp [he] at hlt
  have hlead := hf.descends p (by omega) hp
  clear hlt
  induction hlead using Relation.ReflTransGen.head_induction_on with
  | refl => exact hne rfl
  | @head x y hxy _ ih =>
    have hy := Family.ne_free_of_alive (hf.parent_alive hp hxy).2
    exact ih hy fun he => hno x hp (he ▸ hxy)

theorem ThreadPc.joins_live {x : TCB} {a : Tid} (h : x.pc.joins a = true) : x.live = true := by
  rw [TCB.live]
  by_contra hne
  have he : x.pc = .exited := by simpa using hne
  simp [he, ThreadPc.joins] at h

/-- No thread of a process without live threads joins anything. -/
theorem Running.refcount_zero (hr : Running k v) {d : Pid} (hd : (k.pt d).threadCount = 0)
    {a : Tid} (ha : a ∈ v.ptcbs d) {c : PTCB} (hc : k.ptcbs a = some c) : c.refcount = 0 := by
  rw [hr.refcount a c hc]
  have hzero : k.threads.countP (·.pc.joins a) = 0 := by
    rw [List.countP_eq_zero]
    intro x hx hj
    obtain ⟨u, hu⟩ := List.getElem?_of_mem hx
    have hp := hr.table.lists.ptcbs_disjoint (hr.joining u x a hu hj) ha
    have hpos := countP_pos_of_getElem? (p := (·.liveIn d)) hu (by
      have hlive := ThreadPc.joins_live hj
      simpa [TCB.liveIn, TCB.live, hp] using hlive)
    have hcount := hr.count d
    omega
  rw [hzero]
  rfl

theorem leaveProcess_init {k : Kernel} {v : TableView} (ht : ProcessTable k v) :
    leaveProcess k 1 = k.panic ∨ v.children 1 = [] ∧
      (leaveProcess k 1).threads = k.threads ∧
      (leaveProcess k 1).reaps = k.reaps ∧ (leaveProcess k 1).acquired = k.acquired ∧
      (∀ p, p ≠ 1 → (leaveProcess k 1).pt p = k.pt p) ∧
      (leaveProcess k 1).ptcbs = (fun a => if a ∈ v.ptcbs 1 then none else k.ptcbs a) ∧
      (leaveProcess k 1).freed =
        k.freed ++ (v.ptcbs 1).map fun a => ⟨a, (k.ptcbs a).map (·.refcount)⟩ := by
  have hfam : leaveFamily k 1 = k := by
    have hpid : getPid (some (1 : Pid)) = 1 := rfl
    simp [leaveFamily, hpid]
  by_cases hempty : (isRlistEmpty k.heap (.childrenList 1) && isRlistEmpty k.heap (.exitedList 1)) =
    true
  · have hc := (ht.lists.empty_children 1).mp (Bool.and_eq_true_iff.mp hempty).1
    obtain ⟨h, hfree, -⟩ := freePtcbs_spec ht.lists (d := 1) rfl (ht.length_ptcbs_lt 1)
    refine .inr ⟨hc, ?_⟩
    simp only [leaveProcess, hfam, hempty, if_true, hfree]
    generalize hk2 : ({ k with
      heap := h
      ptcbs := fun a => if a ∈ v.ptcbs 1 then none else k.ptcbs a
      freed := k.freed ++ (v.ptcbs 1).map fun a => ⟨a, (k.ptcbs a).map (·.refcount)⟩ } : Kernel) =
        k2
    obtain ⟨files, hrun⟩ := closeStreams_spec (k2.setPCB 1 fun c => { c with args := none }) 1
    rw [hrun, ← hk2]
    refine ⟨rfl, rfl, rfl, fun p hp => ?_, rfl, rfl⟩
    simp [closed, hp]
  · exact .inl (by simp only [leaveProcess, hfam, hempty, if_false, Bool.false_eq_true])

/-- When a process has one thread left, the other live threads belong to other processes. -/
theorem Running.last_thread (hr : Running k v) (ht : k.threads[t]? = some tcb)
    (hl : tcb.live = true)
    (hone : (k.pt tcb.ownerPcb).threadCount = 1) (u : Nat) (x : TCB) (hu : u ≠ t)
    (hx : k.threads[u]? = some x) (hlx : x.live = true) : x.ownerPcb ≠ tcb.ownerPcb := by
  intro he
  have htwo := two_le_countP (p := (·.liveIn tcb.ownerPcb)) hu hx ht
    (by simpa [TCB.liveIn, TCB.live, he] using hlx) (by simpa [TCB.liveIn, TCB.live] using hl)
  have hcount := hr.count tcb.ownerPcb
  omega

theorem Running.threadExit (hr : Running k v) (ht : k.threads[t]? = some tcb) (hl : tcb.live = true)
    (hjt : ∀ a, tcb.pc.joins a = false) {a : Tid} (ha : tcb.ptcb = some a) (ev : Int) :
    Goes k t (sysThreadExit k t tcb.ownerPcb a ev) := by
  have hex := hr.exited ht hl ha hjt ev
  obtain ⟨hal, h0⟩ := hr.owner t tcb ht hl
  obtain ⟨a', ca, ha', -, hca, -, hce⟩ := hr.self t tcb ht hl
  obtain rfl : a' = a := Option.some.inj (ha'.symm.trans ha)
  generalize hd : tcb.ownerPcb = d at hex hal h0 ⊢
  generalize hk0 : exitedKernel k d a' ev = k0 at hex
  have hst : ∀ p, (k0.pt p).pstate = (k.pt p).pstate := fun p => by
    rw [← hk0]
    by_cases hp : p = d <;> simp [exitedKernel, Kernel.setPTCB, hp]
  -- What the others see of the PTCBs before the process goes away.
  have hptcb : ∀ b c, k.ptcbs b = some c → ∃ c', k0.ptcbs b = some c' ∧
      (c.exited = 1 → c'.exited = 1 ∧ c'.exitval = c.exitval ∧ c'.detached = c.detached) ∧
      (c.detached = 1 → c'.detached = 1) := fun b c hc => by
    by_cases hb : b = a'
    · subst hb
      obtain rfl : ca = c := Option.some.inj (hca.symm.trans hc)
      refine ⟨{ ca with exited := 1, exitval := ev, exitCv := kernelBroadcast ca.exitCv }, ?_,
        fun h => by omega, fun h => h⟩
      rw [← hk0]
      simp [exitedKernel, Kernel.setPTCB, Kernel.setPCB, hc]
    · exact ⟨c, by rw [← hk0]; simpa [exitedKernel, Kernel.setPTCB, Kernel.setPCB, hb] using hc,
        fun h => ⟨h, rfl, rfl⟩, fun h => h⟩
  have hthr : ∀ (u : Nat) (x : TCB), u ≠ t → k.threads[u]? = some x → k0.threads[u]? = some x :=
    fun u x _ h => by rw [← hk0]; exact h
  have hsys : sysThreadExit k t d a' ev =
      (if (k0.pt d).threadCount = 0 then leaveProcess k0 d else k0).setPc t .exited := by
    rw [← hk0]
    rfl
  have hk0r : k0.reaps = k.reaps ∧ k0.freed = k.freed ∧ k0.acquired = k.acquired ∧
      k0.panicked = k.panicked := by
    rw [← hk0]
    exact ⟨rfl, rfl, rfl, rfl⟩
  obtain ⟨hreaps, hfreed, hacq, hpan⟩ := hk0r
  rw [hsys]
  by_cases hzero : (k0.pt d).threadCount = 0
  · rw [if_pos hzero]
    have htab0 : ProcessTable k0 v := hk0 ▸ hr.table.exited hal a' ev
    have hone : (k.pt tcb.ownerPcb).threadCount = 1 := by
      rw [← hk0, ← hd] at hzero
      simp [exitedKernel, Kernel.setPTCB, Kernel.setPCB] at hzero
      omega
    have hlast : ∀ (u : Nat) (x : TCB), u ≠ t → k.threads[u]? = some x →
        x.live = true → x.ownerPcb ≠ d :=
      hd ▸ hr.last_thread ht hl hone
    have hfr : ∀ f ∈ (v.ptcbs d).map fun a => (⟨a, (k0.ptcbs a).map (·.refcount)⟩ : Freed),
        f.refcount = some 0 := fun f hf => by
      obtain ⟨b, hb, rfl⟩ := List.mem_map.mp hf
      obtain ⟨c, hc⟩ := hex.mem_ptcbs hb
      have hc' : k0.ptcbs b = some c := hc
      simp [hc', hex.refcount_zero (d := d) hzero hb hc]
    by_cases hd1 : d = 1
    · subst hd1
      rcases leaveProcess_init htab0 with hpanic |
        ⟨hnoch, hthr1, hreap1, hacq1, hpt1, hptcb1, hfreed1⟩
      · rw [hpanic]
        refine ⟨⟨fun u x hu h => modify_other hu (hthr u x hu h),
          fun u x b c _ _ _ hc => hptcb b c hc, .inl hreaps,
            ⟨[], hfreed.trans (List.append_nil _).symm, by simp⟩,
          fun p => ⟨le_of_eq (congrFun hacq p).symm, fun h _ => (hst p).trans h⟩⟩,
          .inl ⟨v, hex.table.frame rfl rfl rfl (fun _ => rfl) (fun _ => rfl) (fun _ _ => ⟨rfl, rfl⟩)
            fun _ h => h, hex.owner, hex.self, hex.count, hex.waiting, hex.joining, hex.refcount,
            hex.flags, hex.asleep⟩⟩
      · have hdead : ∀ (u : Nat) (x : TCB), u ≠ t → k.threads[u]? = some x → x.live = false :=
          fun u x hu hx => by
            by_contra hlx
            have hlx' : x.live = true := by simpa using hlx
            obtain ⟨hxa, hx0⟩ := hr.owner u x hx hlx'
            have hle := hr.table.family.alone hnoch (p := x.ownerPcb) (by simp [hxa])
            have hx1 : x.ownerPcb = 1 := by
              by_contra hx1
              have := Pid.one_lt hx0 hx1
              omega
            exact hlast u x hu hx hlx' hx1
        refine ⟨⟨fun u x hu h => modify_other hu (by rw [hthr1]; exact hthr u x hu h),
          fun u x b c hu hx hj _ => ?_, .inl (hreap1.trans hreaps),
          ⟨_, hfreed1.trans (by rw [hfreed]), hfr⟩, fun p => ⟨?_, fun h _ => ?_⟩⟩,
          .inr ⟨fun u x h => ?_, fun b c hc => ?_⟩⟩
        · have hdx := hdead u x hu hx
          simp [ThreadPc.joins_live hj] at hdx
        · exact le_of_eq (congrFun (hacq1.trans hacq) p).symm
        · have hp1 : p ≠ 1 := fun he => by simp [he, hal] at h
          exact (congrArg PCB.pstate (hpt1 p hp1)).trans ((hst p).trans h)
        · have h' : (k0.threads.modify t fun c => { c with pc := .exited })[u]? = some x := by
            rw [← hthr1]
            exact h
          obtain ⟨y, hy, ⟨rfl, rfl⟩ | ⟨hut, rfl⟩⟩ := setPc_cases h'
          · rfl
          · exact hdead u x hut (by rw [← hk0] at hy; exact hy)
        · have hc' : (leaveProcess k0 1).ptcbs b = some c := hc
          have hold : k0.ptcbs b = some c := by
            rw [hptcb1] at hc'
            by_cases hb : b ∈ v.ptcbs 1 <;> simp [hb] at hc'
            exact hc'
          rw [hex.refcount b c hold]
          simp [Kernel.setPc, hthr1]
    · have hal0 : (k0.pt d).pstate = .alive := (hst d).trans hal
      obtain ⟨w, hdied⟩ := leaveProcess_spec htab0 hal0 (Pid.one_lt h0 hd1) hzero
      refine ⟨⟨fun u x hu h => modify_other hu (by rw [hdied.threads]; exact hthr u x hu h),
        fun u x b c hu hx hj hc => ?_, .inl (hdied.reaps.trans hreaps),
        ⟨_, hdied.freed.trans (by rw [hfreed]), hfr⟩, fun p => ⟨?_, fun h _ => ?_⟩⟩,
        .inl ⟨w, hex.died hdied hal0 hzero⟩⟩
      · obtain ⟨c', hc', hkeep⟩ := hptcb b c hc
        have hbv := hr.joining u x b hx hj
        have hpd := hlast u x hu hx (ThreadPc.joins_live hj)
        have hnd : b ∉ v.ptcbs d := fun hm => hpd (hr.table.lists.ptcbs_disjoint hbv hm)
        refine ⟨c', ?_, hkeep⟩
        have hpt := congrFun hdied.ptcbs b
        rw [if_neg hnd] at hpt
        exact hpt.trans hc'
      · exact le_of_eq (congrFun (hdied.acquired.trans hacq) p).symm
      · have hpd : p ≠ d := fun he => by simp [he, hal] at h
        have hpst := hdied.pstate p
        rw [if_neg hpd] at hpst
        exact hpst.trans ((hst p).trans h)
  · rw [if_neg hzero]
    exact ⟨⟨fun u x hu h => modify_other hu (hthr u x hu h),
      fun u x b c _ _ _ hc => hptcb b c hc, .inl hreaps,
        ⟨[], hfreed.trans (List.append_nil _).symm, by simp⟩,
      fun p => ⟨le_of_eq (congrFun hacq p).symm, fun h _ => (hst p).trans h⟩⟩,
      .inl ⟨v, hex⟩⟩

/-! ### Waiting for children -/

/-- A wait reaps nothing, and then returns no child, or one PCB, and then returns it. -/
def Waited (k k' : Kernel) (ret : Option Ret) : Prop :=
  (k'.reaps = k.reaps ∧ ∀ r, ret = some r → r.val = noProc) ∨
    ∃ (r : Reap) (out : Option Int), k'.reaps = k.reaps ++ [r] ∧ ret = some ⟨r.pcb.val, out⟩

theorem Goes.refl (hr : Running k v) (t : ThreadId) : Goes k t k :=
  ⟨.quiet (fun _ _ _ h => h) rfl rfl rfl rfl fun _ => rfl, .inl ⟨v, hr⟩⟩

theorem setPCB_same (k : Kernel) (p : Pid) : (k.setPCB p fun c => c) = k := by
  simp [Kernel.setPCB]

/-- Going on elsewhere in the code is such a step. -/
theorem Running.move (hr : Running k v) (ht : k.threads[t]? = some tcb) (hl : tcb.live = true)
    (hpc : pc ≠ .exited) (hj : ∀ a, pc.joins a = false) (hjt : ∀ a, tcb.pc.joins a = false)
    (hw : ∀ c s n, pc ≠ .waitSpecific c s n) : Running (k.setPc t pc) v := by
  have hsoft := hr.soft ht hl hpc hj hjt (fun c s n he => absurd he (hw c s n)) 0
    (f := fun c => c) fun c => ⟨rfl, rfl, rfl, rfl⟩
  rwa [setPCB_same] at hsoft

theorem Running.waitForAny (hr : Running k v) (ht : k.threads[t]? = some tcb) (hl : tcb.live = true)
    (hjt : ∀ a, tcb.pc.joins a = false) (status : Bool) (wait done : ThreadPc)
    (hwait : wait ≠ .exited ∧ (∀ a, wait.joins a = false) ∧ ∀ c s n, wait ≠ .waitSpecific c s n)
    (hdone : done ≠ .exited ∧ (∀ a, done.joins a = false) ∧ ∀ c s n, done ≠ .waitSpecific c s n) :
    Goes k t (waitForAnyLoop k t tcb.ownerPcb status wait done).1 ∧
      Waited k (waitForAnyLoop k t tcb.ownerPcb status wait done).1
        (waitForAnyLoop k t tcb.ownerPcb status wait done).2 := by
  by_cases hc : isRlistEmpty k.heap (.childrenList tcb.ownerPcb) = true
  · simp only [waitForAnyLoop, hc, if_true]
    exact ⟨⟨.quiet (fun _ _ hu h => modify_other hu h) rfl rfl rfl rfl fun _ => rfl,
      .inl ⟨v, hr.move ht hl hdone.1 hdone.2.1 hjt hdone.2.2⟩⟩,
      .inl ⟨rfl, fun r h => by rw [← Option.some.inj h]⟩⟩
  · by_cases he : isRlistEmpty k.heap (.exitedList tcb.ownerPcb) = true
    · simp only [waitForAnyLoop, hc, he, if_true, if_false, Bool.false_eq_true]
      exact ⟨hr.softGoes ht hl hwait.1 hwait.2.1 hjt (fun c s n h => absurd h (hwait.2.2 c s n)) _
        fun c => ⟨rfl, rfl, rfl, rfl⟩, .inl ⟨rfl, by simp⟩⟩
    · have hal := (hr.owner t tcb ht hl).1
      obtain ⟨z, hnext, hz, hzp⟩ := hr.table.first_exited (Family.ne_free_of_alive hal) he
      simp only [waitForAnyLoop, hc, he, hnext, hr.table.lists.key_exited z, hz, if_true, if_false,
        Bool.false_eq_true]
      exact ⟨hr.reap ht hl hdone.1 hdone.2.1 hjt hdone.2.2 hz hzp, .inr ⟨_, _, rfl, rfl⟩⟩

theorem Running.waitForSpecific (hr : Running k v) (ht : k.threads[t]? = some tcb)
    (hl : tcb.live = true) (hjt : ∀ a, tcb.pc.joins a = false) (status : Bool) {c : Pid} {n : Nat}
    (hn : k.acquired c = n) (hnf : (k.pt c).pstate ≠ .free)
    (hp : (k.pt c).parent = some tcb.ownerPcb) :
    Goes k t (waitForSpecificLoop k t tcb.ownerPcb c status n).1 ∧
      Waited k (waitForSpecificLoop k t tcb.ownerPcb c status n).1
        (waitForSpecificLoop k t tcb.ownerPcb c status n).2 := by
  by_cases hal : (k.pt c).pstate = .alive
  · simp only [waitForSpecificLoop, hal, if_true]
    refine ⟨hr.softGoes ht hl (by simp) (fun a => rfl) hjt (fun c' s m he => ?_) _
      fun c => ⟨rfl, rfl, rfl, rfl⟩, .inl ⟨rfl, by simp⟩⟩
    obtain ⟨rfl, rfl, rfl⟩ : c = c' ∧ status = s ∧ n = m := by simpa using he
    exact ⟨hn.ge, fun _ => ⟨hn, hnf, hp⟩⟩
  · have hz := PidState.zombie_of_ne hnf hal
    simp only [waitForSpecificLoop, hz, reduceCtorEq, if_false]
    exact ⟨hr.reap ht hl (by simp) (fun a => rfl) hjt (by simp) hz hp, .inr ⟨_, _, rfl, rfl⟩⟩

theorem Running.waitChild (hr : Running k v) (ht : k.threads[t]? = some tcb) (hl : tcb.live = true)
    (hjt : ∀ a, tcb.pc.joins a = false) (cpid : Int) (status : Bool) :
    Goes k t (sysWaitChild k t tcb.ownerPcb cpid status).1 ∧
      Waited k (sysWaitChild k t tcb.ownerPcb cpid status).1
        (sysWaitChild k t tcb.ownerPcb cpid status).2 := by
  have hno : Goes k t k ∧ Waited k k (some ⟨noProc, none⟩) :=
    ⟨.refl hr t, .inl ⟨rfl, fun r h => by rw [← Option.some.inj h]⟩⟩
  by_cases hany : cpid = noProc
  · simp only [sysWaitChild, hany, ne_eq, not_true_eq_false, if_false]
    exact hr.waitForAny ht hl hjt status _ _ ⟨by simp, fun _ => rfl, by simp⟩
      ⟨by simp, fun _ => rfl, by simp⟩
  · simp only [sysWaitChild, hany, ne_eq, not_false_eq_true, if_true, waitForSpecificChild]
    by_cases hrange : 0 ≤ cpid ∧ cpid < maxProc
    · simp only [hrange, and_self, dif_pos, getPcb]
      by_cases hfree : (k.pt ⟨cpid.toNat, by omega⟩).pstate = .free
      · simp only [hfree, if_true]
        exact hno
      · simp only [hfree, if_false]
        by_cases hp : (k.pt ⟨cpid.toNat, by omega⟩).parent = some tcb.ownerPcb
        · simp only [hp, not_true_eq_false, if_false]
          exact hr.waitForSpecific ht hl hjt status rfl hfree hp
        · simp only [hp, not_false_eq_true, if_true]
          exact hno
    · simp only [hrange, dif_neg, not_false_eq_true]
      exact hno

/-! ### Joining and detaching -/

/-- The kernel after thread `t` has changed the PTCB at `a` and moved on. -/
def Kernel.touch (k : Kernel) (t : ThreadId) (a : Tid) (c : PTCB) (pc : ThreadPc) : Kernel :=
  { k with
    ptcbs := Function.update k.ptcbs a (some c)
    threads := k.threads.modify t fun c => { c with pc := pc } }

theorem setPTCB_setPc {a : Tid} {c : PTCB} (hc : k.ptcbs a = some c) (f : PTCB → PTCB) :
    (k.setPTCB a f).setPc t pc = k.touch t a (f c) pc := by
  simp [Kernel.setPTCB, Kernel.setPc, Kernel.touch, hc]

theorem Kept.touch {a : Tid} {c c' : PTCB} (hc : k.ptcbs a = some c)
    (hkeep : (c.exited = 1 → c'.exited = 1 ∧ c'.exitval = c.exitval ∧ c'.detached = c.detached) ∧
      (c.detached = 1 → c'.detached = 1)) : Kept k (k.touch t a c' pc) t where
  others u x hu h := modify_other hu h
  joined u x b d _ _ _ hd := by
    by_cases hb : b = a
    · subst hb
      obtain rfl : c = d := Option.some.inj (hc.symm.trans hd)
      exact ⟨c', by simp [Kernel.touch], hkeep⟩
    · exact ⟨d, by simpa [Kernel.touch, hb] using hd, fun h => ⟨h, rfl, rfl⟩, fun h => h⟩
  reaps := .inl rfl
  freed := ⟨[], by simp [Kernel.touch], by simp⟩
  acquired p := ⟨Nat.le_refl _, fun h _ => h⟩

def joinResult (c : PTCB) (status : Bool) : Ret :=
  if c.detached = 1 then ⟨-1, none⟩ else ⟨0, if status then some c.exitval else none⟩

theorem threadJoinLoop_sleep {a : Tid} {c : PTCB} (hc : k.ptcbs a = some c)
    (hs : c.exited = 0 ∧ c.detached = 0) (status : Bool) : threadJoinLoop k t a status =
      (k.touch t a { c with exitCv := kernelWait c.exitCv t } (.joining a status), none) := by
  simp only [threadJoinLoop, hc, hs, and_self, if_true, setPTCB_setPc hc]

theorem threadJoinLoop_leave {a : Tid} {c : PTCB} (hc : k.ptcbs a = some c)
    (hs : ¬(c.exited = 0 ∧ c.detached = 0)) (hd : c.detached = 1 ∨ c.refcount - 1 ≠ 0)
    (status : Bool) : threadJoinLoop k t a status =
      (k.touch t a { c with refcount := c.refcount - 1 } .user, some (joinResult c status)) := by
  by_cases hdet : c.detached = 1
  · simp only [threadJoinLoop, hc, setPTCB_setPc hc, joinResult, hdet,
      one_ne_zero, and_false, if_true,
      if_false]
  · have hne := hd.resolve_left hdet
    simp only [threadJoinLoop, hc, hs, setPTCB_setPc hc, joinResult, hdet, hne, if_false]

theorem threadJoinLoop_free {a : Tid} {c : PTCB} (hc : k.ptcbs a = some c)
    (hs : ¬(c.exited = 0 ∧ c.detached = 0)) (hd : c.detached ≠ 1) (hzero : c.refcount - 1 = 0)
    (status : Bool) : threadJoinLoop k t a status =
      (freePtcb { k.touch t a { c with refcount := c.refcount - 1 } .user with
        heap := rlistRemove k.heap (.ptcbListNode a) } a, some (joinResult c status)) := by
  have hz : ({ c with refcount := c.refcount - 1 } : PTCB).refcount = 0 := hzero
  simp only [threadJoinLoop, hc, hs, setPTCB_setPc hc, joinResult, hd, hzero, if_true, if_false]
  rfl

theorem threadJoinLoop_ret {a : Tid} {c : PTCB} (hc : k.ptcbs a = some c)
    (hs : ¬(c.exited = 0 ∧ c.detached = 0)) (status : Bool) :
    (threadJoinLoop k t a status).2 = some (joinResult c status) := by
  by_cases hd : c.detached = 1 ∨ c.refcount - 1 ≠ 0
  · rw [threadJoinLoop_leave hc hs hd]
  · obtain ⟨hdet, hzero⟩ := not_or.mp hd
    rw [threadJoinLoop_free hc hs hdet (not_not.mp hzero)]

def Kernel.counted (k : Kernel) (a : Tid) (c : PTCB) : Kernel :=
  { k with ptcbs := Function.update k.ptcbs a (some c) }

theorem touch_counted (a : Tid) (c c' : PTCB) : (k.counted a c).touch t a c' pc =
    k.touch t a c' pc := by
  simp [Kernel.counted, Kernel.touch]

/-- The loop of `sysThreadJoin`, on a PTCB whose count includes the caller. -/
theorem Running.joinLoop (hr : Running k v) (ht : k.threads[t]? = some tcb) (hl : tcb.live = true)
    {a : Tid} {c d : PTCB} (hc : k.ptcbs a = some c) (ha : a ∈ v.ptcbs tcb.ownerPcb)
    (hd : d = { c with refcount := d.refcount })
    (hn : d.refcount + (if tcb.pc.joins a then 1 else 0) = c.refcount + 1)
    (hother : ∀ b, b ≠ a → tcb.pc.joins b = false) (status : Bool) :
    Goes k t (threadJoinLoop (k.counted a d) t a status).1 := by
  have hget : (k.counted a d).ptcbs a = some d := by simp [Kernel.counted]
  have hdt : d.tcb = c.tcb ∧ d.exited = c.exited ∧ d.detached = c.detached ∧
      d.exitval = c.exitval ∧ d.exitCv = c.exitCv := by
    rw [hd]
    exact ⟨rfl, rfl, rfl, rfl, rfl⟩
  obtain ⟨htcb, hde, hdd, hdv, hdcv⟩ := hdt
  obtain ⟨hex, hdet⟩ := hr.flags a c hc
  by_cases hsleep : d.exited = 0 ∧ d.detached = 0
  · rw [threadJoinLoop_sleep hget hsleep, touch_counted]
    refine ⟨.touch hc ⟨fun h => by omega, fun h => by omega⟩,
      .inl ⟨v, hr.setPtcb ht hl (by simp) (by simp) hc htcb hde (.inl hsleep.2)
        (fun u hu => hsleep) ?_ (fun b hb => ?_) (fun _ => ha)⟩⟩
    · simpa [ThreadPc.joins] using hn
    · rw [hother b hb]
      simpa [ThreadPc.joins] using hb.symm
  · have huser : ThreadPc.joins a .user = false := rfl
    have hleft : Running (k.touch t a { d with refcount := d.refcount - 1 } .user) v := by
      refine hr.setPtcb ht hl (by simp) (by simp) hc htcb hde (hdd ▸ hdet) (fun u hu => ?_) ?_
        (fun b hb => (hother b hb).symm) (fun h => by simp [ThreadPc.joins] at h)
      · have hslept := hr.asleep a c hc u (hdcv ▸ hu)
        exact absurd ⟨hde.trans hslept.1, hdd.trans hslept.2⟩ hsleep
      · rw [huser]
        simp only [Bool.false_eq_true, if_false]
        omega
    have hkept : Kept k (k.touch t a { d with refcount := d.refcount - 1 } .user) t :=
      .touch hc ⟨fun h => ⟨hde.trans h, hdv, hdd⟩, fun h => hdd.trans h⟩
    by_cases hstay : d.detached = 1 ∨ d.refcount - 1 ≠ 0
    · rw [threadJoinLoop_leave hget hsleep hstay, touch_counted]
      exact ⟨hkept, .inl ⟨v, hleft⟩⟩
    · obtain ⟨hdet', hzero'⟩ := not_or.mp hstay
      have hzero : d.refcount - 1 = 0 := not_not.mp hzero'
      rw [threadJoinLoop_free hget hsleep hdet' hzero, touch_counted]
      have hgot : (k.touch t a { d with refcount := d.refcount - 1 } .user).ptcbs a =
          some { d with refcount := d.refcount - 1 } := by simp [Kernel.touch]
      have hexit : d.exited = 1 := by
        rw [hde, hdd] at hsleep
        rw [hdd] at hdet'
        rw [hde]
        omega
      refine ⟨⟨hkept.others, fun u x b e hu hx hj hb => ?_, .inl rfl, ⟨[⟨a, some 0⟩], ?_, by simp⟩,
        fun p => ⟨Nat.le_refl _, fun h _ => h⟩⟩, .inl ⟨_, hleft.free hgot hexit hzero⟩⟩
      · have hba : b ≠ a := fun he => by
          have hpos := countP_pos_of_getElem? (p := fun x : TCB => x.pc.joins a)
            (hkept.others u x hu hx) (he ▸ hj)
          have hcount : d.refcount - 1 = _ := hleft.refcount a _ hgot
          omega
        obtain ⟨e', he', hkeep⟩ := hkept.joined u x b e hu hx hj hb
        exact ⟨e', by simpa [freePtcb, hba] using he', hkeep⟩
      · simp [freePtcb, Kernel.touch, hzero]

theorem Running.threadJoin (hr : Running k v) (ht : k.threads[t]? = some tcb) (hl : tcb.live = true)
    (hjt : ∀ a, tcb.pc.joins a = false) (tid : Tid) (status : Bool) :
    Goes k t (sysThreadJoin k t tcb.ownerPcb tcb.ptcb tid status).1 := by
  by_cases hfind : rlistFind k.heap (.ptcbList tcb.ownerPcb) (.ptcb tid) = none
  · simp only [sysThreadJoin, hfind, if_true]
    exact .refl hr t
  · have ha : tid ∈ v.ptcbs tcb.ownerPcb := not_not.mp fun h => hfind ((hr.table.find _ tid).mpr h)
    obtain ⟨c, hc⟩ := hr.mem_ptcbs ha
    by_cases hno : c.detached = 1 ∨ tcb.ptcb = some tid
    · simp only [sysThreadJoin, hfind, hc, hno, if_true, if_false]
      exact .refl hr t
    · simp only [sysThreadJoin, hfind, hc, hno, if_false]
      have hcounted : k.setPTCB tid (fun c => { c with refcount := c.refcount + 1 }) =
          k.counted tid { c with refcount := c.refcount + 1 } := by
        simp [Kernel.setPTCB, Kernel.counted, hc]
      rw [hcounted]
      exact hr.joinLoop ht hl hc ha rfl (by simp [hjt]) (fun b _ => hjt b) status

theorem Running.joinAgain (hr : Running k v) (ht : k.threads[t]? = some tcb) {tid : Tid}
    {status : Bool} (hpc : tcb.pc = .joining tid status) :
    Goes k t (threadJoinLoop k t tid status).1 := by
  have hj : tcb.pc.joins tid = true := by simp [hpc, ThreadPc.joins]
  have ha := hr.joining t tcb tid ht hj
  obtain ⟨c, hc⟩ := hr.mem_ptcbs ha
  have hcounted : k.counted tid c = k := by simp [Kernel.counted, ← hc]
  have hgoes := hr.joinLoop ht (ThreadPc.joins_live hj) hc ha (d := c) rfl (by simp [hj])
    (fun b hb => by simpa [hpc, ThreadPc.joins] using hb.symm) status
  rwa [hcounted] at hgoes

theorem setPc_same {l : List TCB} (ht : l[t]? = some tcb) (hpc : tcb.pc = pc) :
    (l.modify t fun c => { c with pc := pc }) = l := by
  refine List.ext_getElem? fun u => ?_
  by_cases hu : t = u
  · subst hu
    rw [List.getElem?_modify_eq, ht]
    simp [← hpc]
  · rw [List.getElem?_modify_ne _ _ hu]

theorem Running.threadDetach (hr : Running k v) (ht : k.threads[t]? = some tcb)
    (hl : tcb.live = true) (hpc : tcb.pc = .user) (tid : Tid) :
    Goes k t (sysThreadDetach k tcb.ownerPcb tid).1 := by
  by_cases hfind : rlistFind k.heap (.ptcbList tcb.ownerPcb) (.ptcb tid) = none
  · simp only [sysThreadDetach, hfind, if_true]
    exact .refl hr t
  · have ha : tid ∈ v.ptcbs tcb.ownerPcb := not_not.mp fun h => hfind ((hr.table.find _ tid).mpr h)
    obtain ⟨c, hc⟩ := hr.mem_ptcbs ha
    by_cases hex : c.exited = 1
    · simp only [sysThreadDetach, hfind, hc, hex, if_true, if_false]
      exact .refl hr t
    · have htouch : k.setPTCB tid (fun c =>
          { c with detached := 1, exitCv := kernelBroadcast c.exitCv }) =
          k.touch t tid { c with detached := 1, exitCv := kernelBroadcast c.exitCv } .user := by
        simp [Kernel.setPTCB, Kernel.touch, hc, setPc_same ht hpc]
      simp only [sysThreadDetach, hfind, hc, hex, if_false, htouch]
      refine ⟨.touch hc ⟨fun h => absurd h hex, fun _ => rfl⟩, .inl ⟨v, hr.setPtcb ht hl (by simp)
        (by simp) hc rfl rfl (.inr rfl) (fun u hu => by simp [kernelBroadcast] at hu) ?_
        (fun b _ => by rw [hpc]) (fun h => by simp [ThreadPc.joins] at h)⟩⟩
      simp [hpc]

/-! ### Creating, and the whole step -/

theorem getElem?_grown {l m : List TCB} {u : Nat} {x : TCB} (h : l[u]? = some x) :
    (l ++ m)[u]? = some x := by
  obtain ⟨hu, rfl⟩ := List.getElem?_eq_some_iff.mp h
  rw [List.getElem?_append_left hu, List.getElem?_eq_getElem hu]

/-- Steps that add a thread and a PTCB, and perhaps take a PCB off the free list. -/
theorem Kept.grow {a : Tid} (ha : k.ptcbs a = none) {l : List TCB}
    (hthr : k'.threads = k.threads ++ l)
    (hptcbs : ∀ b, b ≠ a → k'.ptcbs b = k.ptcbs b) (hreaps : k'.reaps = k.reaps)
    (hfreed : k'.freed = k.freed)
    (hacq : ∀ p, k.acquired p ≤ k'.acquired p ∧
      ((k.pt p).pstate = .free → k'.acquired p = k.acquired p → (k'.pt p).pstate = .free)) :
    Kept k k' t where
  others u x _ h := by rw [hthr]; exact getElem?_grown h
  joined u x b c _ _ _ hc := by
    have hb : b ≠ a := fun he => by simp [he, ha] at hc
    exact ⟨c, (hptcbs b hb).trans hc, fun h => ⟨h, rfl, rfl⟩, fun h => h⟩
  reaps := .inl hreaps
  freed := ⟨[], by simp [hfreed], by simp⟩
  acquired := hacq

theorem Running.execGoes (hr : Running k v) (ht : k.threads[t]? = some tcb) (hl : tcb.live = true)
    (call : Option Task) (argl : Int) (args : ExecArgs argl) {a : Tid} (ha : k.canAllocate a) :
    Goes k t (sysExec k tcb.ownerPcb call argl args a).1 := by
  obtain ⟨hal, h0⟩ := hr.owner t tcb ht hl
  cases hfree : v.free with
  | nil =>
    rw [sysExec_full (hr.table.freelist_none.mpr hfree)]
    exact .refl hr t
  | cons n rest =>
    obtain ⟨w, hw⟩ := hr.exec hfree hal h0 call argl args ha
    obtain ⟨hk, hn, hn1⟩ := hr.table.freelist_cons hfree
    have hcn : tcb.ownerPcb ≠ n := fun he => by simp [he, hn] at hal
    have hacq : ∀ m p, k.acquired p ≤ Function.update k.acquired n (k.acquired n + 1) p ∧
        ((k.pt p).pstate = .free →
          Function.update k.acquired n (k.acquired n + 1) p = k.acquired p →
          (Function.update k.pt n m p).pstate = .free) := fun m p => by
      by_cases hp : p = n <;> simp [hp]
    cases call with
    | none =>
      rw [sysExec_idle hk hn1 hcn] at hw ⊢
      exact ⟨.grow (l := []) ha.1 (List.append_nil _).symm (fun b _ => rfl) rfl rfl (hacq _),
        .inl ⟨w, hw⟩⟩
    | some task =>
      rw [sysExec_task hk hn1 hcn] at hw ⊢
      exact ⟨.grow ha.1 rfl (fun b hb => by simp [execTaskKernel, hb]) rfl rfl (hacq _),
        .inl ⟨w, hw⟩⟩

theorem Running.createGoes (hr : Running k v) (ht : k.threads[t]? = some tcb) (hl : tcb.live = true)
    (task : Option Task) (argl : Int) (args : Args) {a : Tid} (ha : k.canAllocate a) :
    Goes k t (sysCreateThread k tcb.ownerPcb task argl args a).1 := by
  obtain ⟨hal, h0⟩ := hr.owner t tcb ht hl
  obtain ⟨w, hw⟩ := hr.create hal h0 task argl args ha
  cases task with
  | none =>
    exact ⟨.grow (l := []) ha.1 (List.append_nil _).symm
      (fun b hb => by simp [sysCreateThread, hb]) rfl rfl fun p => ⟨Nat.le_refl _, fun h _ => h⟩,
      .inl ⟨w, hw⟩⟩
  | some task =>
    rw [sysCreateThread_task] at hw ⊢
    refine ⟨.grow ha.1 rfl (fun b hb => by simp [createdKernel, hb]) rfl rfl
      fun p => ⟨Nat.le_refl _, fun h _ => ?_⟩, .inl ⟨w, hw⟩⟩
    by_cases hp : p = tcb.ownerPcb
    · simpa [createdKernel, hp] using hp ▸ h
    · simpa [createdKernel, hp] using h

/-- A step that begins with changes that nobody can tell. -/
theorem Goes.before {k1 : Kernel} (h : Goes k1 t k')
    (hthr : ∀ (u : Nat) (x : TCB), u ≠ t → k.threads[u]? = some x → k1.threads[u]? = some x)
    (hptcbs : k1.ptcbs = k.ptcbs) (hreaps : k1.reaps = k.reaps) (hfreed : k1.freed = k.freed)
    (hacq : k1.acquired = k.acquired)
    (hst : ∀ p, (k1.pt p).pstate = (k.pt p).pstate ∧ (k1.pt p).parent = (k.pt p).parent) :
    Goes k t k' := by
  obtain ⟨⟨h1, h2, h3, h4, h5⟩, hgo⟩ := h
  refine ⟨⟨fun u x hu hx => h1 u x hu (hthr u x hu hx), fun u x a c hu hx hj hc =>
    h2 u x a c hu (hthr u x hu hx) hj (by rw [hptcbs]; exact hc), ?_, by rw [← hfreed]; exact h4,
    fun p => ?_⟩, hgo⟩
  · rw [← hreaps]
    refine h3.imp_right fun ⟨r, hr, ⟨hz, hc, hps, hpa, ho⟩, hf⟩ => ⟨r, hr, ⟨hz, hc, ?_, ?_, ?_⟩, hf⟩
    · rw [← (hst _).1, hps]
    · rw [← (hst _).2, hpa]
    · rw [← hacq, ho]
  · rw [← hacq, ← (hst p).1]
    exact h5 p

theorem Running.exit (hr : Running k v) (ht : k.threads[t]? = some tcb) (hl : tcb.live = true)
    (hpc : tcb.pc = .user) {a : Tid} (ha : tcb.ptcb = some a) (ev : Int) :
    Goes k t (sysExit k t tcb.ownerPcb a ev) := by
  have hjt : ∀ b, tcb.pc.joins b = false := fun b => by rw [hpc]; rfl
  have hf : Unnoticed fun c => { c with exitval := ev } := fun c => ⟨rfl, rfl, rfl, rfl⟩
  by_cases h1 : getPid (some tcb.ownerPcb) = 1
  · simp only [sysExit, h1, if_true]
    exact hr.softGoes ht hl (by simp) (fun _ => rfl) hjt (fun c s n h => by simp at h) _ hf
  · simp only [sysExit, h1, if_false]
    have huser :
        Running ((k.setPCB tcb.ownerPcb fun c => { c with exitval := ev }).setPc t .user) v :=
      hr.soft ht hl (by simp) (fun _ => rfl) hjt (fun c s n h => by simp at h) tcb.ownerPcb hf
    have hsame : (k.setPCB tcb.ownerPcb fun c => { c with exitval := ev }).setPc t .user =
        k.setPCB tcb.ownerPcb fun c => { c with exitval := ev } := by
      simp only [Kernel.setPc, Kernel.setPCB, setPc_same ht hpc]
    rw [hsame] at huser
    exact (huser.threadExit ht hl hjt ha ev).before (fun _ _ _ h => h) rfl rfl rfl rfl fun p =>
      ⟨(hf.pt k _ p).1, (hf.pt k _ p).2.1⟩

theorem waitForAnyLoop_val {p : Pid} {status : Bool} (wait done : ThreadPc)
    (hne : isRlistEmpty k.heap (.childrenList p) = false) {r : Ret}
    (h : (waitForAnyLoop k t p status wait done).2 = some r) : r.val ≠ noProc := by
  simp only [waitForAnyLoop, hne, Bool.false_eq_true, if_false] at h
  split at h
  · simp at h
  · split at h
    · split at h
      · rw [← Option.some.inj h]
        simp only [noProc]
        omega
      · simp at h
    · simp at h

theorem Running.exitLoop (hr : Running k v) (ht : k.threads[t]? = some tcb) (hl : tcb.live = true)
    (hjt : ∀ b, tcb.pc.joins b = false) {a : Tid} (ha : tcb.ptcb = some a) (ev : Int) :
    Goes k t (sysExitLoop k t tcb.ownerPcb a ev) := by
  by_cases hc : isRlistEmpty k.heap (.childrenList tcb.ownerPcb) = true
  · simp only [sysExitLoop, waitForAnyLoop, hc, if_true, ne_eq, not_true_eq_false, if_false]
    have hmoved : Running (k.setPc t (.exitLoop ev)) v :=
      hr.move ht hl (by simp) (fun _ => rfl) hjt (by simp)
    have ht' : (k.setPc t (.exitLoop ev)).threads[t]? = some { tcb with pc := .exitLoop ev } := by
      simp [Kernel.setPc, ht]
    exact (hmoved.threadExit ht' rfl (fun _ => rfl) ha ev).before
      (fun _ _ hu h => modify_other hu h) rfl rfl rfl rfl fun _ => ⟨rfl, rfl⟩
  · have hgo := (hr.waitForAny ht hl hjt false (.exitWait ev) (.exitLoop ev)
      ⟨by simp, fun _ => rfl, by simp⟩ ⟨by simp, fun _ => rfl, by simp⟩).1
    have hval : ∀ r, (waitForAnyLoop k t tcb.ownerPcb false (.exitWait ev) (.exitLoop ev)).2 =
        some r → r.val ≠ noProc :=
      fun r => waitForAnyLoop_val (.exitWait ev) (.exitLoop ev) (by simpa using hc)
    rw [sysExitLoop]
    generalize waitForAnyLoop k t tcb.ownerPcb false (.exitWait ev) (.exitLoop ev) = res at hgo hval
    obtain ⟨k1, _ | ret⟩ := res
    · exact hgo
    · simp only [hval ret rfl, ne_eq, not_false_eq_true, if_true]
      exact hgo

def Kernel.pcOf (k : Kernel) (t : ThreadId) : Option ThreadPc := (k.threads[t]?).map TCB.pc

/-- The thread that takes the step is in, or enters, a wait for children. -/
def Kernel.waits (k : Kernel) : ProcEvent → Bool
  | .waitChild .. => true
  | .proceed t =>
    match k.pcOf t with
    | some (.waitSpecific ..) | some (.waitAny _) => true
    | _ => false
  | _ => false

/-- No thread comes back to a child that has been reaped since it began to wait. -/
def notReaped (k : Kernel) : ProcEvent → Bool
  | .proceed t =>
    match k.pcOf t with
    | some (.waitSpecific c _ n) => k.reaps.all fun r => !(r.pcb = c && r.occupant = n)
    | _ => true
  | _ => true

theorem Running.stepRet (hr : Running k v) {e : ProcEvent} {ret : Option Ret}
    (hok : notReaped k e = true) (h : k.stepRet e = some (k', ret)) :
    Goes k e.thread k' ∧ (k.waits e = true → Waited k k' ret) := by
  simp only [Kernel.stepRet] at h
  split at h
  · exact absurd h (by simp)
  · cases hx : k.threads[e.thread]? with
    | none => simp [hx] at h
    | some x =>
      simp only [hx] at h
      by_cases huser : x.pc = .user
      · have hl : x.live = true := by simp [TCB.live, huser]
        have hjt : ∀ a, x.pc.joins a = false := fun a => by rw [huser]; rfl
        simp only [huser, if_true] at h
        cases e with
        | exec t call argl args a =>
          simp only [Kernel.call] at h
          split at h
          case isFalse => simp at h
          case isTrue ha =>
            obtain ⟨rfl, -⟩ : _ = k' ∧ _ = ret := by simpa using h
            exact ⟨hr.execGoes hx hl call argl args ha, by simp [Kernel.waits]⟩
        | exit t ev =>
          obtain ⟨a, ha, he⟩ := Option.map_eq_some_iff.mp h
          obtain ⟨rfl, -⟩ : _ = k' ∧ _ = ret := by simpa using he
          exact ⟨hr.exit hx hl huser ha ev, by simp [Kernel.waits]⟩
        | waitChild t cpid status =>
          have hw := hr.waitChild hx hl hjt cpid status
          simp only [Kernel.call, Option.some.injEq] at h
          simp only [ProcEvent.thread] at hw
          rw [h] at hw
          exact ⟨hw.1, fun _ => hw.2⟩
        | createThread t task argl args a =>
          simp only [Kernel.call] at h
          split at h
          case isFalse => simp at h
          case isTrue ha =>
            obtain ⟨rfl, -⟩ : _ = k' ∧ _ = ret := by simpa using h
            exact ⟨hr.createGoes hx hl task argl args ha, by simp [Kernel.waits]⟩
        | threadJoin t tid status =>
          have hw := hr.threadJoin hx hl hjt tid status
          simp only [Kernel.call, Option.some.injEq] at h
          simp only [ProcEvent.thread] at hw
          rw [h] at hw
          exact ⟨hw, by simp [Kernel.waits]⟩
        | threadDetach t tid =>
          have hw := hr.threadDetach hx hl huser tid
          simp only [Kernel.call, Option.some.injEq] at h
          simp only [ProcEvent.thread] at hw
          rw [h] at hw
          exact ⟨hw, by simp [Kernel.waits]⟩
        | threadExit t ev =>
          obtain ⟨a, ha, he⟩ := Option.map_eq_some_iff.mp h
          obtain ⟨rfl, -⟩ : _ = k' ∧ _ = ret := by simpa using he
          exact ⟨hr.threadExit hx hl hjt ha ev, by simp [Kernel.waits]⟩
        | proceed t => simp [Kernel.call] at h
      · simp only [huser, if_false] at h
        cases e with
        | proceed t =>
          simp only [ProcEvent.thread] at hx ⊢
          cases hpc : x.pc with
          | user => exact absurd hpc huser
          | exited => simp [Kernel.goOn, hpc] at h
          | waitSpecific c s n =>
            simp only [Kernel.goOn, hpc] at h
            split at h
            · simp at h
            · obtain ⟨hn, hnf, hp⟩ := (hr.waiting t x hx c s n hpc).2 fun r hr => by
                have hall : (k.reaps.all fun r => !(r.pcb = c && r.occupant = n)) = true := by
                  simpa [notReaped, Kernel.pcOf, hx, hpc] using hok
                have hr' := List.all_eq_true.mp hall r hr
                intro ⟨h1, h2⟩
                simp [h1, h2] at hr'
              have hw := hr.waitForSpecific hx (by simp [TCB.live, hpc])
                (fun a => by rw [hpc]; rfl) s
                hn hnf hp
              rw [Option.some.inj h] at hw
              exact ⟨hw.1, fun _ => hw.2⟩
          | waitAny s =>
            simp only [Kernel.goOn, hpc] at h
            split at h
            · simp at h
            · have hw := hr.waitForAny hx (by simp [TCB.live, hpc]) (fun a => by rw [hpc]; rfl) s
                (.waitAny s) .user ⟨by simp, fun _ => rfl, by simp⟩
                ⟨by simp, fun _ => rfl, by simp⟩
              rw [Option.some.inj h] at hw
              exact ⟨hw.1, fun _ => hw.2⟩
          | exitLoop ev =>
            simp only [Kernel.goOn, hpc] at h
            obtain ⟨a, ha, he⟩ := Option.map_eq_some_iff.mp h
            obtain ⟨rfl, -⟩ : _ = k' ∧ _ = ret := by simpa using he
            exact ⟨hr.exitLoop hx (by simp [TCB.live, hpc]) (fun a => by rw [hpc]; rfl) ha ev,
              by simp [Kernel.waits, Kernel.pcOf, hx, hpc]⟩
          | exitWait ev =>
            simp only [Kernel.goOn, hpc] at h
            split at h
            · simp at h
            · obtain ⟨a, ha, he⟩ := Option.map_eq_some_iff.mp h
              obtain ⟨rfl, -⟩ : _ = k' ∧ _ = ret := by simpa using he
              exact ⟨hr.exitLoop hx (by simp [TCB.live, hpc]) (fun a => by rw [hpc]; rfl) ha ev,
                by simp [Kernel.waits, Kernel.pcOf, hx, hpc]⟩
          | joining tid s =>
            simp only [Kernel.goOn, hpc] at h
            split at h
            · simp at h
            · have hw := hr.joinAgain hx hpc
              rw [Option.some.inj h] at hw
              exact ⟨hw, by simp [Kernel.waits, Kernel.pcOf, hx, hpc]⟩
        | _ => simp at h

end Step

abbrev NotReaped (k : Kernel) (e : ProcEvent) : Prop := notReaped k e = true

structure History (k : Kernel) : Prop where
  proper : ∀ r ∈ k.reaps, r.pstate = .zombie ∧ r.parent = some r.caller
  past : ∀ r ∈ k.reaps, r.occupant ≤ k.acquired r.pcb ∧
    (r.occupant = k.acquired r.pcb → (k.pt r.pcb).pstate = .free)
  once : (k.reaps.map fun r => (r.pcb, r.occupant)).Nodup
  freed : ∀ f ∈ k.freed, f.refcount = some 0

theorem History.boot (task : Task) (argl : Int) (args : ExecArgs argl) (a : Tid) :
    History (bootKernel task argl args a) := by
  have hr : (bootKernel task argl args a).reaps = [] := by rw [bootKernel_eq]
  have hf : (bootKernel task argl args a).freed = [] := by rw [bootKernel_eq]
  exact ⟨by simp [hr], by simp [hr], by simp [hr], by simp [hf]⟩

theorem History.step {k k' : Kernel} {t : ThreadId} (h : History k) (hk : Kept k k' t) :
    History k' := by
  have hold : ∀ r ∈ k.reaps, r.occupant ≤ k'.acquired r.pcb ∧
      (r.occupant = k'.acquired r.pcb → (k'.pt r.pcb).pstate = .free) := fun r hr => by
    obtain ⟨hle, hfree⟩ := h.past r hr
    obtain ⟨hmono, hkeep⟩ := hk.acquired r.pcb
    exact ⟨hle.trans hmono, fun he => hkeep (hfree (by omega)) (by omega)⟩
  have hfreed : ∀ f ∈ k'.freed, f.refcount = some 0 := fun f hf => by
    obtain ⟨l, hl, hall⟩ := hk.freed
    rw [hl] at hf
    rcases List.mem_append.mp hf with hf | hf
    · exact h.freed f hf
    · exact hall f hf
  rcases hk.reaps with he | ⟨r, he, hp, hfree⟩
  · exact ⟨by rw [he]; exact h.proper, by rw [he]; exact hold, by rw [he]; exact h.once, hfreed⟩
  · have hnew : (r.pcb, r.occupant) ∉ k.reaps.map fun r => (r.pcb, r.occupant) := fun hm => by
      obtain ⟨r', hr', heq⟩ := List.mem_map.mp hm
      obtain ⟨hpcb, hocc⟩ : r'.pcb = r.pcb ∧ r'.occupant = r.occupant := by simpa using heq
      have hf := (h.past r' hr').2 (by rw [hocc, hp.occupant_eq, hpcb])
      have hz := hp.pstate_eq.trans hp.zombie
      rw [hpcb, hz] at hf
      simp at hf
    refine ⟨fun r' hr' => ?_, fun r' hr' => ?_, ?_, hfreed⟩
    · rw [he] at hr'
      rcases List.mem_append.mp hr' with hr' | hr'
      · exact h.proper r' hr'
      · obtain rfl := List.mem_singleton.mp hr'
        exact ⟨hp.zombie, hp.child⟩
    · rw [he] at hr'
      rcases List.mem_append.mp hr' with hr' | hr'
      · exact hold r' hr'
      · obtain rfl := List.mem_singleton.mp hr'
        exact ⟨by rw [hp.occupant_eq]; exact (hk.acquired r'.pcb).1, fun _ => hfree⟩
    · rw [he, List.map_append]
      refine List.nodup_append.mpr ⟨h.once, by simp, fun x hx y hy hxy => hnew ?_⟩
      obtain rfl : y = (r.pcb, r.occupant) := by simpa using hy
      exact hxy ▸ hx

/-- Every state of such a run is running or the last one, and its history is in order. -/
theorem reach_running {task : Task} {argl : Int} {args : ExecArgs argl} {a : Tid} {k : Kernel}
    (h : Reach Kernel.step NotReaped (bootKernel task argl args a) k) :
    History k ∧ ((∃ v, Running k v) ∨ Ended k) := by
  refine h.invariant (I := fun k => History k ∧ ((∃ v, Running k v) ∨ Ended k))
    ⟨History.boot task argl args a, .inl (Running.boot task argl args a)⟩ ?_
  rintro k e k' ⟨hh, hgood⟩ hok he
  obtain ⟨⟨k'', ret⟩, hstep, rfl⟩ := Option.map_eq_some_iff.mp he
  rcases hgood with ⟨v, hr⟩ | hend
  · obtain ⟨⟨hkept, hgo⟩, -⟩ := hr.stepRet hok hstep
    exact ⟨hh.step hkept, hgo⟩
  · rw [hend.stepRet e] at hstep
    simp at hstep

end TinyOS
