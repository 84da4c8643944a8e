import TinyOS.ProcessExits

/-! Threads that wait for children. Every wait has a reason as long as it has not been
signalled: what ends the reason broadcasts on the condition variable of the process. -/

namespace TinyOS

open Ring Links Counting Transition

/-- A thread of process `p` in this wait has a reason to go on waiting. -/
def Expects (k : Kernel) (p : Pid) : ThreadPc → Prop
  | .waitSpecific c _ _ => (k.pt c).pstate = .alive ∧ (k.pt c).parent = some p
  | .waitAny _ | .exitWait _ => (∃ c, (k.pt c).pstate ≠ .free ∧ (k.pt c).parent = some p) ∧
      ¬∃ c, (k.pt c).pstate = .zombie ∧ (k.pt c).parent = some p
  | _ => False

/-- Who waits on the condition variable of a process is one of its threads and has a reason. -/
def Heeded (k : Kernel) : Prop :=
  ∀ p u, u ∈ (k.pt p).childExit.waitset → ∃ x, k.threads[u]? = some x ∧
    x.ownerPcb = p ∧ Expects k p x.pc

section Step

variable {k k' : Kernel} {v w : TableView} {t : ThreadId} {tcb : TCB} {p d : Pid}
  {e : ProcEvent} {ret : Option Ret}
  {pc : ThreadPc}

theorem Expects.live {x : TCB} (h : Expects k p x.pc) : x.live = true := by
  cases hpc : x.pc <;> simp_all [Expects, TCB.live]

theorem Expects.mono (h : Expects k p pc)
    (halive : ∀ c, (k.pt c).pstate = .alive → (k.pt c).parent = some p →
      (k'.pt c).pstate = .alive ∧ (k'.pt c).parent = some p)
    (hzombie : ∀ c, (k'.pt c).pstate = .zombie → (k'.pt c).parent = some p →
      (k.pt c).pstate = .zombie ∧ (k.pt c).parent = some p) : Expects k' p pc := by
  have hany (hw : (∃ c, (k.pt c).pstate ≠ .free ∧ (k.pt c).parent = some p) ∧
      ¬∃ c, (k.pt c).pstate = .zombie ∧ (k.pt c).parent = some p) :
      (∃ c, (k'.pt c).pstate ≠ .free ∧ (k'.pt c).parent = some p) ∧
        ¬∃ c, (k'.pt c).pstate = .zombie ∧ (k'.pt c).parent = some p := by
    obtain ⟨⟨c, hc, hp⟩, hno⟩ := hw
    have hal : (k.pt c).pstate = .alive := by
      cases hst : (k.pt c).pstate with
      | free => exact absurd hst hc
      | alive => rfl
      | zombie => exact absurd ⟨c, hst, hp⟩ hno
    obtain ⟨hal', hp'⟩ := halive c hal hp
    exact ⟨⟨c, by simp [hal'], hp'⟩, fun ⟨z, hz, hzp⟩ => hno ⟨z, hzombie z hz hzp⟩⟩
  cases pc with
  | waitSpecific c s n => exact halive c h.1 h.2
  | waitAny s => exact hany h
  | exitWait x => exact hany h
  | _ => exact h

theorem Expects.congr (h : Expects k p pc)
    (hst : ∀ c, (k'.pt c).pstate = (k.pt c).pstate ∧ (k'.pt c).parent = (k.pt c).parent) :
    Expects k' p pc := by
  apply h.mono
  · intro c hal hp
    exact ⟨(hst c).1.trans hal, (hst c).2.trans hp⟩
  · intro c hz hp
    exact ⟨(hst c).1.symm.trans hz, (hst c).2.symm.trans hp⟩

theorem WaitsFor.expects (hf : Family k.pt k.pcbFreelist k.processCount v)
    (hp : (k.pt p).pstate = .alive)
    (h : WaitsFor k v p pc) : Expects k p pc := by
  have hpn := Family.ne_free_of_alive hp
  rcases h with ⟨c, s, n, rfl, hal, hpar⟩ | ⟨hpc, hch, hex⟩
  · exact ⟨hal, hpar⟩
  · have hany : (∃ c, (k.pt c).pstate ≠ .free ∧ (k.pt c).parent = some p) ∧
        ¬∃ c, (k.pt c).pstate = .zombie ∧ (k.pt c).parent = some p := by
      obtain ⟨c, hc⟩ := List.exists_mem_of_ne_nil _ hch
      refine ⟨⟨c, (hf.mem_children p hpn c).mp hc⟩, fun ⟨z, hz⟩ => ?_⟩
      have hm := (hf.mem_exited p hpn z).mpr hz
      simp [hex] at hm
    rcases hpc with ⟨s, rfl⟩ | ⟨x, rfl⟩
    · exact hany
    · exact hany

theorem Heeded.awake (hh : Heeded k) (h : k.stepRet e = some (k', ret)) (p : Pid) :
    e.thread ∉ (k.pt p).childExit.waitset := by
  intro hm
  obtain ⟨x, hx, rfl, hexp⟩ := hh p _ hm
  simp only [Kernel.stepRet, hx] at h
  split at h
  · simp at h
  · cases hpc : x.pc with
    | waitSpecific c s n =>
      cases e <;> simp_all [Kernel.goOn, ProcEvent.thread]
    | waitAny s =>
      cases e <;> simp_all [Kernel.goOn, ProcEvent.thread]
    | exitWait y =>
      cases e <;> simp_all [Kernel.goOn, ProcEvent.thread]
    | _ => simp [hpc, Expects] at hexp

/-- A step of `t` that lets nobody fall asleep. -/
theorem Heeded.keep (hh : Heeded k) (hawake : ∀ p, t ∉ (k.pt p).childExit.waitset)
    (hothers : ∀ (u : Nat) (x : TCB), u ≠ t → k.threads[u]? = some x → k'.threads[u]? = some x)
    (hset : ∀ p u, u ∈ (k'.pt p).childExit.waitset → u ∈ (k.pt p).childExit.waitset)
    (hexp : ∀ (u : Nat) (x : TCB), u ≠ t → k.threads[u]? = some x →
      u ∈ (k'.pt x.ownerPcb).childExit.waitset →
      Expects k x.ownerPcb x.pc → Expects k' x.ownerPcb x.pc) : Heeded k' := by
  intro p u hu
  have hold := hset p u hu
  obtain ⟨x, hx, rfl, hex⟩ := hh p u hold
  have hne : u ≠ t := fun he => hawake _ (he ▸ hold)
  exact ⟨x, hothers u x hne hx, rfl, hexp u x hne hx hu hex⟩

theorem Heeded.quiet (hh : Heeded k) (hawake : ∀ p, t ∉ (k.pt p).childExit.waitset)
    (hothers : ∀ (u : Nat) (x : TCB), u ≠ t → k.threads[u]? = some x → k'.threads[u]? = some x)
    (hpt : ∀ c, (k'.pt c).pstate = (k.pt c).pstate ∧ (k'.pt c).parent = (k.pt c).parent ∧
      (k'.pt c).childExit = (k.pt c).childExit) : Heeded k' := by
  apply hh.keep hawake hothers
  · intro p u hu
    rwa [(hpt p).2.2] at hu
  · intro u x _ _ _ hex
    exact hex.congr fun c => ⟨(hpt c).1, (hpt c).2.1⟩

theorem Heeded.acquire {n : Pid} (hh : Heeded k) (hawake : ∀ p, t ∉ (k.pt p).childExit.waitset)
    (hothers : ∀ (u : Nat) (x : TCB), u ≠ t → k.threads[u]? = some x → k'.threads[u]? = some x)
    (hn : (k.pt n).pstate = .free) (hpt : ∀ c, c ≠ n → k'.pt c = k.pt c)
    (hst : (k'.pt n).pstate = .alive)
    (hcv : (k'.pt n).childExit = (k.pt n).childExit) : Heeded k' := by
  apply hh.keep hawake hothers
  · intro p u hu
    by_cases hp : p = n
    · subst hp
      rwa [hcv] at hu
    · rwa [hpt p hp] at hu
  · intro u x _ _ _ hexp
    apply hexp.mono
    · intro c hal hp
      have hcn : c ≠ n := fun he => by simp [he, hn] at hal
      rw [hpt c hcn]
      exact ⟨hal, hp⟩
    · intro c hz hp
      have hcn : c ≠ n := fun he => by simp [he, hst] at hz
      rw [hpt c hcn] at hz hp
      exact ⟨hz, hp⟩

theorem exitedKernel_pt (k : Kernel) (d : Pid) (a : Tid) (x : Int) (p : Pid) :
    ((exitedKernel k d a x).pt p).pstate = (k.pt p).pstate ∧
    ((exitedKernel k d a x).pt p).parent = (k.pt p).parent ∧
      ((exitedKernel k d a x).pt p).childExit = (k.pt p).childExit := by
  by_cases hp : p = d <;> simp [exitedKernel, Kernel.setPTCB, hp]

theorem ThreadEnd.heeded {a : Tid} {x : Int} (h : ThreadEnd k v t d a x k') (hh : Heeded k)
    (hf : Family k.pt k.pcbFreelist k.processCount v)
    (hawake : ∀ p, t ∉ (k.pt p).childExit.waitset) (hd : (k.pt d).pstate = .alive)
    (hlast : (k.pt d).threadCount = 1 → ∀ (u : Nat) (x : TCB),
      u ≠ t → k.threads[u]? = some x → x.live = true →
      x.ownerPcb ≠ d)
    (howner : ∀ (u : Nat) (x : TCB), k.threads[u]? = some x → x.live = true →
      (k.pt x.ownerPcb).pstate = .alive ∧ x.ownerPcb ≠ 0) : Heeded k' := by
  have hk0 := exitedKernel_pt k d a x
  have hdn := Family.ne_free_of_alive hd
  have hothers : ∀ (u : Nat) (x : TCB), u ≠ t → k.threads[u]? = some x →
      k'.threads[u]? = some x := by
    intro u x hu hx
    rw [h.threads]
    exact modify_other hu hx
  cases h with
  | more => exact hh.quiet hawake hothers hk0
  | abort => exact hh.quiet hawake hothers hk0
  | @last h pt w hone hd1 hsame hunheard hdied =>
    have hpt : ∀ p, p ≠ d → ((exitedKernel k d a x).bury d (v.ptcbs d) h pt).pt p =
        pt p := fun p hp => by
      simp [Kernel.bury, hp]
    have hcv : ∀ p, (((exitedKernel k d a x).bury d (v.ptcbs d) h pt).pt p).childExit =
        (pt p).childExit := fun p => by
      by_cases hp : p = d <;> simp [Kernel.bury, hp, PCB.dead]
    have hparent : ∀ p, (pt p).parent = if p ∈ v.children d then some 1
        else (k.pt p).parent := fun p => by
      obtain ⟨cv, hcv⟩ := hsame p
      rw [hcv]
      simp [orphaned_parent, (hk0 p).2.1]
    have hstate : ∀ p, (pt p).pstate = (k.pt p).pstate := fun p => by
      obtain ⟨cv, hcv⟩ := hsame p
      rw [hcv, ← (hk0 p).1]
      by_cases hc : p ∈ v.children d <;> simp [orphaned, hc]
    apply hh.keep hawake hothers
    · intro p u hu
      have hu' : u ∈ (pt p).childExit.waitset := by rw [← hcv p]; exact hu
      rw [← (hk0 p).2.2]
      exact (hunheard p u hu').1
    · intro u y hut hy hu hex
      have hu' : u ∈ (pt y.ownerPcb).childExit.waitset := by rw [← hcv y.ownerPcb]; exact hu
      obtain ⟨-, hnotparent, hnone⟩ := hunheard y.ownerPcb u hu'
      rw [(hk0 d).2.1] at hnotparent
      have hyd := hlast hone u y hut hy hex.live
      apply hex.mono
      · intro c hal hp
        have hcd : c ≠ d := fun he => hnotparent (he ▸ hp)
        have hnc : c ∉ v.children d := fun hm =>
          hyd (Option.some.inj (hp.symm.trans ((hf.mem_children d hdn c).mp hm).2))
        refine ⟨?_, ?_⟩
        · show (((exitedKernel k d a x).bury d (v.ptcbs d) h pt).pt c).pstate = .alive
          rw [hpt c hcd, hstate, hal]
        · show (((exitedKernel k d a x).bury d (v.ptcbs d) h pt).pt c).parent = some y.ownerPcb
          rw [hpt c hcd, hparent, if_neg hnc, hp]
      · intro c hz hp
        have hz' : (((exitedKernel k d a x).bury d (v.ptcbs d) h pt).pt c).pstate = .zombie := hz
        have hp' : (((exitedKernel k d a x).bury d (v.ptcbs d) h pt).pt c).parent =
            some y.ownerPcb := hp
        by_cases hcd : c = d
        · subst hcd
          have hparent' : (((exitedKernel k c a x).bury c (v.ptcbs c) h pt).pt c).parent =
              (pt c).parent := by
            simp [Kernel.bury, PCB.dead]
          have hnc : c ∉ v.children c := fun hm => by
            have hp := ((hf.mem_children c hdn c).mp hm).2
            exact hf.parent_ne_self (Pid.one_lt (fun h0 => by
              have hroot := (hf.roots c (by simp [h0])).2
              simp [hroot] at hp) hd1) hdn hp
          rw [hparent', hparent, if_neg hnc] at hp'
          exact absurd hp' hnotparent
        · rw [hpt c hcd] at hz' hp'
          rw [hstate] at hz'
          rw [hparent] at hp'
          by_cases hc : c ∈ v.children d
          · rw [if_pos hc] at hp'
            have hm := (hf.mem_exited d hdn c).mpr ⟨hz', ((hf.mem_children d hdn c).mp hc).2⟩
            rw [hnone (Option.some.inj hp').symm] at hm
            simp at hm
          · rw [if_neg hc] at hp'
            exact ⟨hz', hp'⟩
  | @retire h hone hd1 hch _ =>
    apply hh.keep hawake hothers
    · intro p u hu
      have hu' :
          u ∈ (((exitedKernel k d a x).bury d (v.ptcbs d) h (exitedKernel k d a x).pt).pt
            p).childExit.waitset := hu
      rw [← (hk0 p).2.2]
      by_cases hp : p = d
      · subst hp
        simpa [Kernel.bury, PCB.dead] using hu'
      · simpa [Kernel.bury, hp] using hu'
    · intro u y hut hy _ hex
      obtain ⟨hal, h0⟩ := howner u y hy hex.live
      have hle := hf.alone (hd1 ▸ hch) (Family.ne_free_of_alive hal)
      have hy1 : y.ownerPcb = 1 := by
        by_contra hne
        have hlt := Pid.one_lt h0 hne
        omega
      exact absurd (hy1.trans hd1.symm) (hlast hone u y hut hy hex.live)

theorem Running.heeded (hr : Running k v) (hok : notReaped k e = true)
    (h : k.stepRet e = some (k', ret))
    (hh : Heeded k) : Heeded k' := by
  have hawake := hh.awake h
  have hothers := (hr.stepRet hok h).1.1.others
  obtain ⟨-, tcb, ht, hl, hstep⟩ := hr.stepCases hok h
  obtain ⟨hal, h0⟩ := hr.owner _ tcb ht hl
  have hlast := hr.last_thread ht hl
  have hf := hr.table.family
  generalize e.thread = t at *
  cases hstep with
  | sleep hw =>
    rename_i pc
    intro p u hu
    by_cases hnew : u = t
    · subst hnew
      have hp : p = tcb.ownerPcb := by
        by_contra hp
        have hu' :
            u ∈ ((k.setPCB tcb.ownerPcb fun c =>
              { c with childExit := kernelWait c.childExit u }).pt p).childExit.waitset := hu
        rw [setPCB_pt_of_ne _ _ hp] at hu'
        exact hawake p hu'
      subst hp
      have hexp : Expects k tcb.ownerPcb pc := hw.expects hf hal
      refine ⟨{ tcb with pc := pc }, by simp [Kernel.setPc, Kernel.setPCB, ht],
        rfl, hexp.congr fun c => ?_⟩
      by_cases hc : c = tcb.ownerPcb <;> simp [Kernel.setPc, hc]
    · have hold : u ∈ (k.pt p).childExit.waitset := by
        by_cases hp : p = tcb.ownerPcb
        · subst hp
          simpa [Kernel.setPc, kernelWait, hnew] using hu
        · simpa [Kernel.setPc, hp] using hu
      obtain ⟨x, hx, rfl, hexp⟩ := hh p u hold
      refine ⟨x, hothers u x hnew hx, rfl, hexp.congr fun c => ?_⟩
      by_cases hc : c = tcb.ownerPcb <;> simp [Kernel.setPc, hc]
  | @reap e z pc ret status hpc hz hp hret =>
    have hpt : ∀ c, c ≠ z → ((cleanupZombie k tcb.ownerPcb z).setPc t pc).pt c =
        k.pt c := fun c hc => by
      simp [Kernel.setPc, cleanupZombie, releasePCB, Kernel.setPCB, hc]
    have hfree : (((cleanupZombie k tcb.ownerPcb z).setPc t pc).pt z).pstate = .free := by
      simp [Kernel.setPc, cleanupZombie, releasePCB]
    apply hh.keep hawake hothers
    · intro p u hu
      by_cases hp : p = z
      · subst hp
        simpa [Kernel.setPc, cleanupZombie, releasePCB, Kernel.setPCB] using hu
      · rwa [hpt p hp] at hu
    · intro u x _ _ _ hexp
      apply hexp.mono
      · intro c hal' hp'
        have hcz : c ≠ z := fun he => by simp [he, hz] at hal'
        rw [hpt c hcz]
        exact ⟨hal', hp'⟩
      · intro c hz' hp'
        have hcz : c ≠ z := fun he => by simp [he, hfree] at hz'
        rw [hpt c hcz] at hz' hp'
        exact ⟨hz', hp'⟩
  | @execIdle n rest argl args a hfree =>
    have hn := (hr.table.freelist_cons hfree).2.1
    have hpt : ∀ c, c ≠ n → (execKernel k tcb.ownerPcb n none argl args).pt c =
        k.pt c := fun c hc => by
      simp [execKernel, hc]
    exact hh.acquire hawake hothers hn hpt (by simp [execKernel, execPcb])
      (by simp [execKernel, execPcb])
  | @execTask n rest task argl args a hfree ha =>
    have hn := (hr.table.freelist_cons hfree).2.1
    have hpt : ∀ c, c ≠ n → (execTaskKernel k tcb.ownerPcb n task argl args a).pt c =
        k.pt c := fun c hc => by
      simp [execTaskKernel, hc]
    exact hh.acquire hawake hothers hn hpt (by simp [execTaskKernel, execPcb])
      (by simp [execTaskKernel, execPcb])
  | @create task argl args a ha =>
    apply hh.quiet hawake hothers
    intro c
    by_cases hc : c = tcb.ownerPcb <;> simp [createdKernel, hc]
  | enterExit =>
    apply hh.quiet hawake hothers
    intro c
    by_cases hc : c = tcb.ownerPcb <;> simp [Kernel.setPc, hc]
  | @exit x a hne ha =>
    have hpt : ∀ c,
        ((k.setPCB tcb.ownerPcb fun c => { c with exitval := x }).pt c).pstate = (k.pt c).pstate ∧
        ((k.setPCB tcb.ownerPcb fun c => { c with exitval := x }).pt c).parent = (k.pt c).parent ∧
        ((k.setPCB tcb.ownerPcb fun c => { c with exitval := x }).pt c).childExit =
          (k.pt c).childExit := fun c => by
      by_cases hc : c = tcb.ownerPcb <;> simp [hc]
    have htab := hr.table.setExitval tcb.ownerPcb x
    refine (htab.threadEnd ((hpt _).1.trans hal) h0 t a x).heeded
      (hh.quiet hawake (fun _ _ _ h => h) hpt) htab.family
      (fun p => by rw [(hpt p).2.2]; exact hawake p) ((hpt _).1.trans hal) ?_ fun u y hy hly => ?_
    · have hcount :
          ((k.setPCB tcb.ownerPcb fun c => { c with exitval := x }).pt tcb.ownerPcb).threadCount =
          (k.pt tcb.ownerPcb).threadCount := by simp
      rw [hcount]
      exact hlast
    · exact ⟨(hpt _).1.trans (hr.owner u y hy hly).1, (hr.owner u y hy hly).2⟩
  | @threadExit x a ha =>
    exact (hr.table.threadEnd hal h0 t a x).heeded hh hf hawake hal hlast hr.owner
  | @leaveLoop x a ha hch =>
    have htab := hr.table.setPc t (.exitLoop x)
    have hback : ∀ (u : Nat) (y : TCB), u ≠ t → (k.setPc t (.exitLoop x)).threads[u]? = some y →
        k.threads[u]? = some y := fun u y hu hy => by
      rwa [Kernel.setPc, List.getElem?_modify_ne _ _ (Ne.symm hu)] at hy
    refine (htab.threadEnd hal h0 t a x).heeded
      (hh.quiet hawake (fun _ _ hu h => modify_other hu h) fun _ => ⟨rfl, rfl, rfl⟩)
      htab.family hawake hal (fun hone u y hu hy => hlast hone u y hu (hback u y hu hy))
        fun u y hy hly => ?_
    by_cases hu : u = t
    · subst hu
      obtain ⟨z, hz, ⟨-, rfl⟩ | ⟨hne, -⟩⟩ := setPc_cases hy
      · obtain rfl : z = tcb := Option.some.inj (hz.symm.trans ht)
        exact ⟨hal, h0⟩
      · exact absurd rfl hne
    · exact hr.owner u y (hback u y hu hy) hly
  | _ => exact hh.quiet hawake hothers fun _ => ⟨rfl, rfl, rfl⟩

end Step

theorem heeded_of_reach {task : Task} {argl : Int} {args : ExecArgs argl} {a : Tid} {k : Kernel}
    (h : Reach Kernel.step NotReaped (bootKernel task argl args a) k) : Heeded k := by
  induction h with
  | refl =>
    intro p u hu
    rw [bootKernel_eq] at hu
    by_cases h1 : p = 1
    · simp [h1, initPcb, freePcb, initializePCB, condInit] at hu
    · by_cases h0 : p = 0 <;> simp [h0, h1, idlePcb, freePcb, initializePCB, condInit] at hu
  | tail hprev hst ih =>
    obtain ⟨e, hok, he⟩ := hst
    obtain ⟨⟨k', ret⟩, hstep, rfl⟩ := Option.map_eq_some_iff.mp he
    rcases (reach_running hprev).2 with ⟨v, hr⟩ | hend
    · exact hr.heeded hok hstep ih
    · rw [hend.stepRet] at hstep
      simp at hstep

/-- A thread of init waits for process 2 when it is reaped, and goes on waiting for the next process
in that PCB, a child of process 3. -/
theorem waitChild_waits_for_stranger : ∃ k, Reach Kernel.step Always (bootKernel 0 0 none 1) k ∧
    k.pcOf 1 = some (.waitSpecific 2 false 1) ∧ 1 ∈ (k.pt 1).childExit.waitset ∧
      (k.pt 2).parent = some 3 := by
  obtain ⟨k, hk, hp⟩ := exists_reach_of_exec Kernel.step (bootKernel 0 0 none 1)
    [.createThread 0 (some 5) 0 none 2, .exec 0 (some 7) 0 none 3, .exec 0 (some 7) 0 none 4,
      .waitChild 1 2 false, .exit 2 9, .waitChild 0 2 false, .exec 3 (some 7) 0 none 5, .proceed 1]
    (fun k => k.pcOf 1 = some (.waitSpecific 2 false 1) ∧ 1 ∈ (k.pt 1).childExit.waitset ∧
      (k.pt 2).parent = some 3)
    (by rw [bootKernel_eq]; decide +kernel)
  exact ⟨k, hk, of_decide_eq_true hp⟩

/-- In runs in which no thread comes back to a reaped child, a thread that waits and has not been
signalled waits for a child that is ALIVE, or for any of some children none of which is a ZOMBIE;
and whoever looks into an `exited_list` finds a ZOMBIE first. -/
theorem waitChild_heeds_exits {task : Task} {argl : Int} {args : ExecArgs argl}
    {a : Tid} {k : Kernel}
    (h : Reach Kernel.step NotReaped (bootKernel task argl args a) k) {t : ThreadId} {tcb : TCB}
    (ht : k.threads[t]? = some tcb) :
    (t ∈ (k.pt tcb.ownerPcb).childExit.waitset →
      (∀ c s n, tcb.pc = .waitSpecific c s n →
        (k.pt c).pstate = .alive ∧ (k.pt c).parent = some tcb.ownerPcb) ∧
      ((∃ s, tcb.pc = .waitAny s) ∨ (∃ x, tcb.pc = .exitWait x) →
        (∃ c, (k.pt c).pstate ≠ .free ∧ (k.pt c).parent = some tcb.ownerPcb) ∧
          ¬∃ c, (k.pt c).pstate = .zombie ∧ (k.pt c).parent = some tcb.ownerPcb)) ∧
    (tcb.pc ≠ .exited → isRlistEmpty k.heap (.exitedList tcb.ownerPcb) = false →
      ∃ z, (k.heap (k.heap (.exitedList tcb.ownerPcb)).next).obj = .pcb z ∧
      (k.pt z).pstate = .zombie) := by
  constructor
  · intro hm
    obtain ⟨x, hx, -, hexp⟩ := heeded_of_reach h _ t hm
    obtain rfl : x = tcb := Option.some.inj (hx.symm.trans ht)
    constructor
    · intro c s n hpc
      rw [hpc] at hexp
      exact hexp
    · rintro (⟨s, hpc⟩ | ⟨y, hpc⟩)
      · rw [hpc] at hexp
        exact hexp
      · rw [hpc] at hexp
        exact hexp
  · intro hpc hne
    rcases (reach_running h).2 with ⟨v, hr⟩ | hend
    · have hal := (hr.owner t tcb ht (by simpa [TCB.live] using hpc)).1
      obtain ⟨z, hnext, hz, -⟩ := hr.table.first_exited (Family.ne_free_of_alive hal)
        (by simp [hne])
      rw [hnext]
      exact ⟨z, hr.table.lists.key_exited z, hz⟩
    · have hdead := hend.dead t tcb ht
      simp [TCB.live, hpc] at hdead

/-- Init waits for any child; the thread is the only one. -/
theorem waitChild_heeds_exits_run : ∃ k : Kernel, 0 ∈ (k.pt 1).childExit.waitset ∧
    ∃ c, (k.pt c).pstate ≠ .free ∧ (k.pt c).parent = some 1 := by
  obtain ⟨k, hk, hp⟩ := exists_reach_of_guarded Kernel.step notReaped (bootKernel 0 0 none 1)
    [.exec 0 (some 7) 0 none 3, .waitChild 0 (-1) false]
    (fun k => k.threads[0]? = some ⟨1, some 1, .startMainThread, .waitAny false⟩ ∧
      0 ∈ (k.pt 1).childExit.waitset)
    (by rw [bootKernel_eq]; decide +kernel)
  obtain ⟨ht, hm⟩ := of_decide_eq_true hp
  exact ⟨k, hm, (((waitChild_heeds_exits hk ht).1 hm).2 (.inl ⟨false, rfl⟩)).1⟩

end TinyOS
