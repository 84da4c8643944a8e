import TinyOS.Lib.Counting
import TinyOS.ProcessInvariant

/-! What holds of the process table, the threads and their PTCBs in every run in
which no thread comes back from `WaitChild` to a child reaped in the meantime. -/

namespace TinyOS

open Ring Links Counting Transition

def ThreadPc.joins (a : Tid) : ThreadPc → Bool
  | .joining tid _ => tid = a
  | _ => false

def TCB.live (tcb : TCB) : Bool := tcb.pc ≠ .exited

def TCB.liveIn (p : Pid) (tcb : TCB) : Bool := tcb.ownerPcb = p ∧ tcb.pc ≠ .exited

/-- A thread of `p` that waits for one child still has that child, unless it has
been reaped. -/
def ChildKept (k : Kernel) (p : Pid) (pc : ThreadPc) : Prop :=
  ∀ c s n, pc = .waitSpecific c s n → n ≤ k.acquired c ∧
    ((∀ r ∈ k.reaps, ¬(r.pcb = c ∧ r.occupant = n)) →
      k.acquired c = n ∧ (k.pt c).pstate ≠ .free ∧ (k.pt c).parent = some p)

structure Running (k : Kernel) (v : TableView) : Prop where
  table : ProcessTable k v
  owner : ∀ (t : Nat) (tcb : TCB), k.threads[t]? = some tcb → tcb.live = true →
    (k.pt tcb.ownerPcb).pstate = .alive ∧ tcb.ownerPcb ≠ 0
  self : ∀ (t : Nat) (tcb : TCB), k.threads[t]? = some tcb → tcb.live = true →
    ∃ a c, tcb.ptcb = some a ∧ a ∈ v.ptcbs tcb.ownerPcb ∧ k.ptcbs a = some c ∧
      c.tcb = some t ∧ c.exited = 0
  count : ∀ p, (k.pt p).threadCount = k.threads.countP (·.liveIn p)
  waiting : ∀ (t : Nat) (tcb : TCB), k.threads[t]? = some tcb → ChildKept k tcb.ownerPcb tcb.pc
  joining : ∀ (t : Nat) (tcb : TCB) a, k.threads[t]? = some tcb → tcb.pc.joins a = true →
    a ∈ v.ptcbs tcb.ownerPcb
  refcount : ∀ a c, k.ptcbs a = some c → c.refcount = k.threads.countP (·.pc.joins a)
  flags : ∀ a c, k.ptcbs a = some c →
    (c.exited = 0 ∨ c.exited = 1) ∧ (c.detached = 0 ∨ c.detached = 1)
  asleep : ∀ a c, k.ptcbs a = some c → ∀ t ∈ c.exitCv.waitset, c.exited = 0 ∧ c.detached = 0

/-- The last thread of init, and with it the last of all, has exited. -/
structure Ended (k : Kernel) : Prop where
  dead : ∀ (t : Nat) (tcb : TCB), k.threads[t]? = some tcb → tcb.live = false
  refcount : ∀ a c, k.ptcbs a = some c → c.refcount = k.threads.countP (·.pc.joins a)

theorem Running.boot (task : Task) (argl : Int) (args : ExecArgs argl) (a : Tid) :
    ∃ v, Running (bootKernel task argl args a) v := by
  obtain ⟨free, ht⟩ := ProcessTable.boot task argl args a
  have hth : ∀ (t : Nat) (tcb : TCB), (bootKernel task argl args a).threads[t]? = some tcb →
      t = 0 ∧ tcb = ⟨1, some a, .startMainThread, .user⟩ := fun t tcb h => by
    rw [bootKernel_eq] at h
    obtain ⟨ht, he⟩ := List.getElem?_eq_some_iff.mp h
    have ht0 : t = 0 := by simpa using ht
    subst ht0
    exact ⟨rfl, he.symm⟩
  have hptcb : ∀ b c, (bootKernel task argl args a).ptcbs b = some c →
      c = initializePtcb (some 0) (some task) argl (args.map (·.1.take argl.toNat)) := fun b
        c h => by
    rw [bootKernel_eq] at h
    by_cases hb : b = a
    · simpa [hb, eq_comm] using h
    · simp [hb] at h
  refine ⟨_, ht, fun t tcb h _ => ?_, fun t tcb h _ => ?_, fun p => ?_, fun t tcb h c s n hpc => ?_,
    fun t tcb b h hj => ?_, fun b c h => ?_, fun b c h => ?_, fun b c h t hm => ?_⟩
  · obtain ⟨rfl, rfl⟩ := hth t tcb h
    have hinit : (1 : Pid) ≠ 0 := by decide
    rw [bootKernel_eq]
    exact ⟨rfl, hinit⟩
  · obtain ⟨rfl, rfl⟩ := hth t tcb h
    refine ⟨a, initializePtcb (some 0) (some task) argl (args.map (·.1.take argl.toNat)), rfl,
      by simp [bootView], by simp [bootKernel_eq], rfl, rfl⟩
  · by_cases h1 : p = 1
    · simp [bootKernel_eq, h1, initPcb, TCB.liveIn]
    · by_cases h0 : p = 0
      · simp [bootKernel_eq, h0, idlePcb, freePcb, initializePCB, TCB.liveIn]
      · simp [bootKernel_eq, h0, h1, freePcb, initializePCB, TCB.liveIn, Ne.symm h1]
  · obtain ⟨rfl, rfl⟩ := hth t tcb h
    simp at hpc
  · obtain ⟨rfl, rfl⟩ := hth t tcb h
    simp [ThreadPc.joins] at hj
  · rw [hptcb b c h, bootKernel_eq]
    simp [initializePtcb, ThreadPc.joins]
  · rw [hptcb b c h]
    exact ⟨.inl rfl, .inl rfl⟩
  · rw [hptcb b c h] at hm
    simp [initializePtcb, condInit] at hm

/-! ### What the steps do to threads -/

/-- The other threads stay as they are; this one only moves on. -/
theorem setPc_cases {l : List TCB} {t u : ThreadId} {pc : ThreadPc} {tcb' : TCB}
    (h : (l.modify t fun tcb => { tcb with pc := pc })[u]? = some tcb') :
    ∃ tcb, l[u]? = some tcb ∧
      (u = t ∧ tcb' = { tcb with pc := pc } ∨ u ≠ t ∧ tcb' = tcb) := by
  rcases getElem?_modify_cases h with ⟨rfl, tcb, hx, rfl⟩ | ⟨hne, hx⟩
  · exact ⟨tcb, hx, .inl ⟨rfl, rfl⟩⟩
  · exact ⟨tcb', hx, .inr ⟨hne, rfl⟩⟩

section Advance

variable {k k' : Kernel} {v w : TableView} {t : ThreadId} {tcb : TCB} {pc : ThreadPc}

theorem Running.mem_ptcbs (hr : Running k v) {a : Tid} {p : Pid} (ha : a ∈ v.ptcbs p) :
    ∃ c, k.ptcbs a = some c :=
  Option.ne_none_iff_exists'.mp (hr.table.allocated p a ha)

/-- Steps of a live thread that leave the PTCBs alone and do not join or end. -/
theorem Running.advance (hr : Running k v) (ht : k.threads[t]? = some tcb) (hl : tcb.live = true)
    (hpc : pc ≠ .exited) (hj : ∀ a, pc.joins a = false) (hjt : ∀ a, tcb.pc.joins a = false)
    (htab : ProcessTable k' w) (hw : w.ptcbs = v.ptcbs)
    (hthr : k'.threads = k.threads.modify t fun c => { c with pc := pc })
    (hptcbs : k'.ptcbs = k.ptcbs)
    (hal : ∀ p, (k.pt p).pstate = .alive → (k'.pt p).pstate = .alive)
    (hcount : ∀ p, (k'.pt p).threadCount = (k.pt p).threadCount)
    (hwait : ∀ p c, ChildKept k p c → ChildKept k' p c)
    (hwait' : ChildKept k' tcb.ownerPcb pc) : Running k' w := by
  have hlive : ({ tcb with pc := pc } : TCB).live = true := by simpa [TCB.live] using hpc
  refine ⟨htab, fun u x h hx => ?_, fun u x h hx => ?_, fun p => ?_, fun u x h => ?_,
    fun u x a h hjx => ?_, fun a c h => ?_, fun a c h => ?_, fun a c h => ?_⟩
  · rw [hthr] at h
    obtain ⟨y, hy, ⟨rfl, rfl⟩ | ⟨hne, rfl⟩⟩ := setPc_cases h
    · obtain rfl : y = tcb := Option.some.inj (hy.symm.trans ht)
      exact ⟨hal _ (hr.owner u y hy hl).1, (hr.owner u y hy hl).2⟩
    · exact ⟨hal _ (hr.owner u x hy hx).1, (hr.owner u x hy hx).2⟩
  · rw [hthr] at h
    rw [hw, hptcbs]
    obtain ⟨y, hy, ⟨rfl, rfl⟩ | ⟨hne, rfl⟩⟩ := setPc_cases h
    · obtain rfl : y = tcb := Option.some.inj (hy.symm.trans ht)
      exact hr.self u y hy hl
    · exact hr.self u x hy hx
  · rw [hcount, hr.count, hthr, countP_modify_same ht]
    have hne : tcb.pc ≠ .exited := by simpa [TCB.live] using hl
    simp [TCB.liveIn, hpc, hne]
  · rw [hthr] at h
    obtain ⟨y, hy, ⟨rfl, rfl⟩ | ⟨hne, rfl⟩⟩ := setPc_cases h
    · obtain rfl : y = tcb := Option.some.inj (hy.symm.trans ht)
      exact hwait'
    · exact hwait _ _ (hr.waiting u x hy)
  · rw [hthr] at h
    obtain ⟨y, hy, ⟨rfl, rfl⟩ | ⟨hne, rfl⟩⟩ := setPc_cases h
    · simp [hj] at hjx
    · rw [hw]
      exact hr.joining u x a hy hjx
  · rw [hptcbs] at h
    rw [hr.refcount a c h, hthr, countP_modify_same ht]
    simp [hj, hjt]
  · rw [hptcbs] at h
    exact hr.flags a c h
  · rw [hptcbs] at h
    exact hr.asleep a c h

theorem Running.setPtcb (hr : Running k v) (ht : k.threads[t]? = some tcb) (hl : tcb.live = true)
    (hpc : pc ≠ .exited) (hnw : ∀ c s n, pc ≠ .waitSpecific c s n) {a : Tid} {c c' : PTCB}
    (ha : k.ptcbs a = some c) (hc : c'.tcb = c.tcb) (hex : c'.exited = c.exited)
    (hdet : c'.detached = 0 ∨ c'.detached = 1)
    (hslept : ∀ u ∈ c'.exitCv.waitset, c'.exited = 0 ∧ c'.detached = 0)
    (href : c'.refcount + (if tcb.pc.joins a then 1 else 0) =
      c.refcount + if pc.joins a then 1 else 0)
    (hother : ∀ b, b ≠ a → pc.joins b = tcb.pc.joins b)
    (hin : pc.joins a = true → a ∈ v.ptcbs tcb.ownerPcb) :
    Running { k with
      ptcbs := Function.update k.ptcbs a (some c')
      threads := k.threads.modify t fun c => { c with pc := pc } } v := by
  have hne : tcb.pc ≠ .exited := by simpa [TCB.live] using hl
  refine ⟨?_, fun u x h hx => ?_, fun u x h hx => ?_, fun p => ?_, fun u x h => ?_,
    fun u x b h hjx => ?_, fun b d h => ?_, fun b d h => ?_, fun b d h => ?_⟩
  · refine hr.table.frame rfl rfl rfl (fun _ => rfl) (fun _ => rfl) (fun _ _ => ⟨rfl, rfl⟩)
      fun b hb => ?_
    by_cases hba : b = a <;> simp [hba, hb]
  · obtain ⟨y, hy, ⟨rfl, rfl⟩ | ⟨_, rfl⟩⟩ := setPc_cases h
    · obtain rfl : y = tcb := Option.some.inj (hy.symm.trans ht)
      exact hr.owner u y hy hl
    · exact hr.owner u x hy hx
  · have hself : ∃ b d, x.ptcb = some b ∧ b ∈ v.ptcbs x.ownerPcb ∧ k.ptcbs b = some d ∧
        d.tcb = some u ∧ d.exited = 0 := by
      obtain ⟨y, hy, ⟨rfl, rfl⟩ | ⟨_, rfl⟩⟩ := setPc_cases h
      · obtain rfl : y = tcb := Option.some.inj (hy.symm.trans ht)
        exact hr.self u y hy hl
      · exact hr.self u x hy hx
    obtain ⟨b, d, hb, hbv, hd, hdt, hde⟩ := hself
    by_cases hba : b = a
    · subst hba
      obtain rfl : d = c := Option.some.inj (hd.symm.trans ha)
      exact ⟨b, c', hb, hbv, by simp, hc.trans hdt, hex.trans hde⟩
    · exact ⟨b, d, hb, hbv, by simpa [hba] using hd, hdt, hde⟩
  · rw [countP_modify_same ht]
    · exact hr.count p
    · simp [TCB.liveIn, hpc, hne]
  · obtain ⟨y, hy, ⟨rfl, rfl⟩ | ⟨_, rfl⟩⟩ := setPc_cases h
    · exact fun c s n he => absurd he (hnw c s n)
    · exact hr.waiting u x hy
  · obtain ⟨y, hy, ⟨rfl, rfl⟩ | ⟨_, rfl⟩⟩ := setPc_cases h
    · obtain rfl : y = tcb := Option.some.inj (hy.symm.trans ht)
      by_cases hba : b = a
      · subst hba
        exact hin hjx
      · exact hr.joining u y b hy ((hother b hba).symm.trans hjx)
    · exact hr.joining u x b hy hjx
  · by_cases hba : b = a
    · subst hba
      obtain rfl : c' = d := by simpa using h
      have hcount := countP_modify (p := fun x : TCB => x.pc.joins b)
        (f := fun x => { x with pc := pc }) ht
      have hold := hr.refcount b c ha
      by_cases h1 : tcb.pc.joins b = true <;> by_cases h2 : pc.joins b = true <;>
        simp only [h1, h2, if_true, if_false, Bool.false_eq_true] at hcount href ⊢ <;> omega
    · rw [countP_modify_same ht (hother b hba)]
      exact hr.refcount b d (by simpa [hba] using h)
  · by_cases hba : b = a
    · subst hba
      obtain rfl : c' = d := by simpa using h
      exact ⟨hex ▸ (hr.flags b c ha).1, hdet⟩
    · exact hr.flags b d (by simpa [hba] using h)
  · by_cases hba : b = a
    · subst hba
      obtain rfl : c' = d := by simpa using h
      exact hslept
    · exact hr.asleep b d (by simpa [hba] using h)

theorem Running.free (hr : Running k v) {a : Tid} {c : PTCB} (ha : k.ptcbs a = some c)
    (hex : c.exited = 1) (href : c.refcount = 0) :
    Running (freePtcb { k with heap := rlistRemove k.heap (.ptcbListNode a) } a) (v.dropTid a) := by
  have hnone : ∀ (u : Nat) (x : TCB), k.threads[u]? = some x →
      x.pc.joins a = false := fun u x h => by
    by_contra hj
    have hpos := countP_pos_of_getElem? (p := fun x : TCB => x.pc.joins a) h (by simpa using hj)
    have hcount := hr.refcount a c ha
    omega
  have hdrop : ∀ b p, b ≠ a → b ∈ v.ptcbs p → b ∈ (v.dropTid a).ptcbs p := fun b p hb hm =>
    (List.mem_erase_of_ne hb).mpr hm
  refine ⟨⟨?_, ?_, fun p b hb => ?_⟩, hr.owner, fun u x h hx => ?_, hr.count, hr.waiting,
    fun u x b h hj => ?_, fun b d h => ?_, fun b d h => ?_, fun b d h => ?_⟩
  · exact hr.table.lists.drop_tid a
  · refine hr.table.family.frame (fun _ => rfl) (fun _ => rfl) (fun _ _ => ⟨rfl, rfl⟩)
      fun p hp => ?_
    simp [(hr.table.family.vacated p hp).ptcbs]
  · have hmem := ((hr.table.lists.nodup_ptcbs p).mem_erase_iff.mp hb)
    simpa [freePtcb, hmem.1] using hr.table.allocated p b hmem.2
  · obtain ⟨b, d, hb, hbv, hd, hdt, hde⟩ := hr.self u x h hx
    have hba : b ≠ a := fun he => by
      subst he
      obtain rfl : d = c := Option.some.inj (hd.symm.trans ha)
      omega
    exact ⟨b, d, hb, hdrop b _ hba hbv, by simpa [freePtcb, hba] using hd, hdt, hde⟩
  · have hba : b ≠ a := fun he => by simp [he, hnone u x h] at hj
    exact hdrop b _ hba (hr.joining u x b h hj)
  all_goals
    have hba : b ≠ a := fun he => by simp [freePtcb, he] at h
    have hold : k.ptcbs b = some d := by simpa [freePtcb, hba] using h
  · exact hr.refcount b d hold
  · exact hr.flags b d hold
  · exact hr.asleep b d hold

theorem exitedKernel_ptcbs (k : Kernel) (d : Pid) (a : Tid) (ev : Int) {b : Tid} {c' : PTCB}
    (h : (exitedKernel k d a ev).ptcbs b = some c') : ∃ c, k.ptcbs b = some c ∧
      (b ≠ a ∧ c' = c ∨
        b = a ∧ c' =
        { c with exited := 1, exitval := ev, exitCv := kernelBroadcast c.exitCv }) := by
  by_cases hb : b = a
  · subst hb
    obtain ⟨c, hc, he⟩ : ∃ c, k.ptcbs b = some c ∧
        { c with exited := 1, exitval := ev, exitCv := kernelBroadcast c.exitCv } = c' := by
      simpa [exitedKernel, Kernel.setPTCB, Kernel.setPCB] using h
    exact ⟨c, hc, .inr ⟨rfl, he.symm⟩⟩
  · exact ⟨c', by simpa [exitedKernel, Kernel.setPTCB, Kernel.setPCB, hb] using h, .inl ⟨hb, rfl⟩⟩

theorem Running.exited (hr : Running k v) (ht : k.threads[t]? = some tcb) (hl : tcb.live = true)
    {a : Tid} (ha : tcb.ptcb = some a) (hj : ∀ b, tcb.pc.joins b = false) (ev : Int) :
    Running ((exitedKernel k tcb.ownerPcb a ev).setPc t .exited) v := by
  have hne : tcb.pc ≠ .exited := by simpa [TCB.live] using hl
  obtain ⟨a', c, ha', hav, hc, hct, hce⟩ := hr.self t tcb ht hl
  obtain rfl : a' = a := Option.some.inj (ha'.symm.trans ha)
  have hst : ∀ p, ((exitedKernel k tcb.ownerPcb a' ev).pt p).pstate = (k.pt p).pstate ∧
      ((exitedKernel k tcb.ownerPcb a' ev).pt p).parent = (k.pt p).parent := fun p => by
    by_cases hp : p = tcb.ownerPcb <;> simp [exitedKernel, Kernel.setPTCB, hp]
  have hold : ∀ (u : Nat) (x : TCB),
      (k.threads.modify t fun c => { c with pc := .exited })[u]? = some x →
      x.live = true → u ≠ t ∧ k.threads[u]? = some x := fun u x h hx => by
    obtain ⟨y, hy, ⟨rfl, rfl⟩ | ⟨hut, rfl⟩⟩ := setPc_cases h
    · simp [TCB.live] at hx
    · exact ⟨hut, hy⟩
  refine ⟨(hr.table.exited (hr.owner t tcb ht hl).1 a' ev).setPc t .exited,
    fun u x h hx => ?_, fun u x h hx => ?_, fun p => ?_, fun u x h => ?_,
    fun u x b h hjx => ?_, fun b d h => ?_, fun b d h => ?_, fun b d h w hm => ?_⟩
  · obtain ⟨_, hy⟩ := hold u x h hx
    exact ⟨(hst x.ownerPcb).1.trans (hr.owner u x hy hx).1, (hr.owner u x hy hx).2⟩
  · obtain ⟨hut, hy⟩ := hold u x h hx
    obtain ⟨b, d, hb, hbv, hd, hdt, hde⟩ := hr.self u x hy hx
    have hba : b ≠ a' := fun he => by
      subst he
      obtain rfl : d = c := Option.some.inj (hd.symm.trans hc)
      exact hut (Option.some.inj (hdt.symm.trans hct))
    exact ⟨b, d, hb, hbv, by simpa [Kernel.setPc, exitedKernel, Kernel.setPTCB, Kernel.setPCB, hba]
      using hd, hdt, hde⟩
  · have hp := hr.count p
    by_cases hpd : p = tcb.ownerPcb
    · have hlose := countP_modify_lose (p := (·.liveIn p))
        (f := fun c => { c with pc := .exited }) ht
        (by simp [TCB.liveIn, hpd, hne]) (by simp [TCB.liveIn])
      subst hpd
      simp only [Kernel.setPc, exitedKernel, setPCB_pt_self]
      simp only [Kernel.setPTCB, Kernel.setPCB]
      omega
    · have hsame := countP_modify_same (p := (·.liveIn p))
        (f := fun c => { c with pc := .exited }) ht
        (by simp [TCB.liveIn, Ne.symm hpd])
      simp only [Kernel.setPc, exitedKernel, setPCB_pt_of_ne _ _ hpd]
      simp only [Kernel.setPTCB, Kernel.setPCB]
      omega
  · obtain ⟨y, hy, ⟨rfl, rfl⟩ | ⟨_, rfl⟩⟩ := setPc_cases h
    · exact fun c s n he => by simp at he
    · intro c s n he
      obtain ⟨hle, hkept⟩ := hr.waiting u x hy c s n he
      refine ⟨hle, fun hno => ?_⟩
      rw [Kernel.setPc, (hst c).1, (hst c).2]
      exact hkept hno
  · obtain ⟨y, hy, ⟨rfl, rfl⟩ | ⟨_, rfl⟩⟩ := setPc_cases h
    · simp [ThreadPc.joins] at hjx
    · exact hr.joining u x b hy hjx
  · have hsame := countP_modify_same (p := fun x : TCB => x.pc.joins b)
      (f := fun c => { c with pc := .exited }) ht (by rw [hj]; rfl)
    simp only [Kernel.setPc, exitedKernel, Kernel.setPTCB, Kernel.setPCB, hsame]
    obtain ⟨c', hc', ⟨_, rfl⟩ | ⟨_, rfl⟩⟩ := exitedKernel_ptcbs k tcb.ownerPcb a' ev h
    · exact hr.refcount b d hc'
    · exact hr.refcount b c' hc'
  · obtain ⟨c', hc', ⟨_, rfl⟩ | ⟨_, rfl⟩⟩ := exitedKernel_ptcbs k tcb.ownerPcb a' ev h
    · exact hr.flags b d hc'
    · exact ⟨.inr rfl, (hr.flags b c' hc').2⟩
  · obtain ⟨c', hc', ⟨_, rfl⟩ | ⟨_, rfl⟩⟩ := exitedKernel_ptcbs k tcb.ownerPcb a' ev h
    · exact hr.asleep b d hc' w hm
    · simp [kernelBroadcast] at hm

theorem Running.died {k0 : Kernel} {d : Pid} (hr : Running (k0.setPc t .exited) v)
    (hd : Died k0 v d k' w) (hda : (k0.pt d).pstate = .alive) (hzero : (k0.pt d).threadCount = 0) :
    Running (k'.setPc t .exited) w := by
  have hthr : (k'.setPc t .exited).threads = (k0.setPc t .exited).threads := by
    simp [Kernel.setPc, hd.threads]
  have hnone : ∀ (u : Nat) (x : TCB), (k0.setPc t .exited).threads[u]? = some x → x.live = true →
      x.ownerPcb ≠ d := fun u x h hx he => by
    have hpos := countP_pos_of_getElem? (p := (·.liveIn d)) h (by
      simpa [TCB.liveIn, he, TCB.live] using hx)
    have hcount := hr.count d
    rw [show ((k0.setPc t .exited).pt d).threadCount = 0 from hzero] at hcount
    omega
  have hview : ∀ p, p ≠ d → w.ptcbs p = v.ptcbs p := fun p hp => by rw [hd.ptcbs_view, if_neg hp]
  have hkeep : ∀ p b, p ≠ d → b ∈ v.ptcbs p → k'.ptcbs b = k0.ptcbs b := fun p b hp hb => by
    rw [hd.ptcbs]
    exact if_neg fun hm => hp (hr.table.lists.ptcbs_disjoint hb hm)
  have hback : ∀ b c, k'.ptcbs b = some c → k0.ptcbs b = some c := fun b c h => by
    rw [hd.ptcbs] at h
    by_cases hb : b ∈ v.ptcbs d <;> simp [hb] at h
    exact h
  refine ⟨hd.table.setPc t .exited, fun u x h hx => ?_, fun u x h hx => ?_, fun p => ?_,
    fun u x h => ?_, fun u x b h hj => ?_, fun b c h => ?_, fun b c h => ?_, fun b c h => ?_⟩
  · rw [hthr] at h
    have hnd := hnone u x h hx
    obtain ⟨hal, h0⟩ := hr.owner u x h hx
    refine ⟨?_, h0⟩
    have hst := hd.pstate x.ownerPcb
    rw [if_neg hnd] at hst
    exact hst.trans hal
  · rw [hthr] at h
    have hnd := hnone u x h hx
    obtain ⟨b, c, hb, hbv, hc, hct, hce⟩ := hr.self u x h hx
    exact ⟨b, c, hb, by rw [hview _ hnd]; exact hbv, (hkeep _ b hnd hbv).trans hc, hct, hce⟩
  · rw [hthr, ← hr.count p]
    by_cases hp : p = d
    · subst hp
      exact hd.threadCount.trans hzero.symm
    · obtain ⟨cv, hcv⟩ := hd.others p hp
      by_cases hm : p ∈ v.children d <;> simp [Kernel.setPc, hcv, orphaned, hm]
  · rw [hthr] at h
    intro c s n he
    have hx : x.live = true := by simp [TCB.live, he]
    have hnd := hnone u x h hx
    obtain ⟨hle, hkept⟩ := hr.waiting u x h c s n he
    have hacq : (k'.setPc t .exited).acquired = (k0.setPc t .exited).acquired := hd.acquired
    have hreap : (k'.setPc t .exited).reaps = (k0.setPc t .exited).reaps := hd.reaps
    rw [hacq, hreap]
    refine ⟨hle, fun hno => ?_⟩
    obtain ⟨hn, hnf, hpar⟩ := hkept hno
    refine ⟨hn, ?_, ?_⟩
    · have hst := hd.pstate c
      by_cases hcd : c = d
      · rw [if_pos hcd] at hst
        exact fun hf => absurd (hst.symm.trans hf) (by decide)
      · rw [if_neg hcd] at hst
        exact fun hf => hnf (hst.symm.trans hf)
    · by_cases hcd : c = d
      · subst hcd
        exact hd.parent.trans hpar
      · obtain ⟨cv, hcv⟩ := hd.others c hcd
        have hnm : c ∉ v.children d := fun hm => by
          have hm' := ((hr.table.family.mem_children d (by simp [Kernel.setPc, hda]) c).mp hm).2
          exact hnd (Option.some.inj (hpar.symm.trans hm'))
        simpa [Kernel.setPc, hcv, orphaned, hnm] using hpar
  · rw [hthr] at h
    have hx : x.live = true := by
      rw [TCB.live]
      by_contra hne
      have he : x.pc = .exited := by simpa using hne
      simp [he, ThreadPc.joins] at hj
    rw [hview _ (hnone u x h hx)]
    exact hr.joining u x b h hj
  · rw [hthr]
    exact hr.refcount b c (hback b c h)
  · exact hr.flags b c (hback b c h)
  · exact hr.asleep b c (hback b c h)

/-- A PTCB that is new, and a new thread to go with it if there is one. -/
theorem Running.grow (hr : Running k v) (htab : ProcessTable k' w) {a : Tid} (ha : k.ptcbs a = none)
    {q : Pid} {x : Option TCB} {c : PTCB}
    (hptcbs : k'.ptcbs = Function.update k.ptcbs a (some c))
    (hc : c.exited = 0 ∧ c.detached = 0 ∧ c.refcount = 0 ∧ c.exitCv = condInit)
    (hx : ∀ y, x = some y → y.ownerPcb = q ∧ y.ptcb = some a ∧ y.pc = .user ∧
      (k'.pt q).pstate = .alive ∧ q ≠ 0 ∧ a ∈ w.ptcbs q ∧ c.tcb = some k.threads.length)
    (hthr : k'.threads = k.threads ++ x.toList)
    (hal : ∀ p, (k.pt p).pstate = .alive → (k'.pt p).pstate = .alive)
    (hview : ∀ p b, b ∈ v.ptcbs p → b ∈ w.ptcbs p)
    (hcount : ∀ p, (k'.pt p).threadCount = (k.pt p).threadCount +
      if p = q ∧ x.isSome then 1 else 0)
    (hwait : ∀ p c, ChildKept k p c → ChildKept k' p c) : Running k' w := by
  have hne : ∀ b d, k.ptcbs b = some d → b ≠ a := fun b d hd he => by simp [he, ha] at hd
  have hcases : ∀ (u : Nat) (y : TCB), k'.threads[u]? = some y →
      (u = k.threads.length ∧ x = some y) ∨ k.threads[u]? = some y := fun u y h => by
    rw [hthr] at h
    cases x with
    | none => exact .inr (by simpa using h)
    | some z =>
      rcases getElem?_concat_cases h with ⟨hu, rfl⟩ | ⟨_, hy⟩
      · exact .inl ⟨hu, rfl⟩
      · exact .inr hy
  have hptcb : ∀ b d, k'.ptcbs b = some d → b = a ∧ d = c ∨ b ≠ a ∧ k.ptcbs b = some d :=
    fun b d h => by
      rw [hptcbs] at h
      by_cases hb : b = a
      · exact .inl ⟨hb, by simpa [hb, eq_comm] using h⟩
      · exact .inr ⟨hb, by simpa [hb] using h⟩
  have hnojoin : k.threads.countP (·.pc.joins a) = 0 := by
    rw [List.countP_eq_zero]
    intro y hy hj
    obtain ⟨u, hu⟩ := List.getElem?_of_mem hy
    obtain ⟨d, hd⟩ := hr.mem_ptcbs (hr.joining u y a hu hj)
    simp [ha] at hd
  have hgrown : ∀ p : TCB → Bool, k'.threads.countP p = k.threads.countP p + x.toList.countP p :=
    fun p => by rw [hthr, List.countP_append]
  refine ⟨htab, fun u y h hy => ?_, fun u y h hy => ?_, fun p => ?_, fun u y h => ?_,
    fun u y b h hj => ?_, fun b d h => ?_, fun b d h => ?_, fun b d h t hm => ?_⟩
  · rcases hcases u y h with ⟨_, hxy⟩ | hold
    · obtain ⟨rfl, _, _, hq, hq0, _⟩ := hx y hxy
      exact ⟨hq, hq0⟩
    · exact ⟨hal _ (hr.owner u y hold hy).1, (hr.owner u y hold hy).2⟩
  · rcases hcases u y h with ⟨hu, hxy⟩ | hold
    · obtain ⟨rfl, hya, _, _, _, haw, hct⟩ := hx y hxy
      exact ⟨a, c, hya, haw, by simp [hptcbs], hu ▸ hct, hc.1⟩
    · obtain ⟨b, d, hb, hbv, hd, hdt, hde⟩ := hr.self u y hold hy
      exact ⟨b, d, hb, hview _ b hbv, by simpa [hptcbs, hne b d hd] using hd, hdt, hde⟩
  · rw [hcount, hr.count, hgrown]
    cases x with
    | none => simp
    | some y =>
      obtain ⟨hyq, _, hpc, _⟩ := hx y rfl
      by_cases hp : p = q
      · simp [TCB.liveIn, hyq, hpc, hp]
      · simp [TCB.liveIn, hyq, hpc, hp, Ne.symm hp]
  · rcases hcases u y h with ⟨_, hxy⟩ | hold
    · obtain ⟨_, _, hpc, _⟩ := hx y hxy
      exact fun c s n he => by simp [hpc] at he
    · exact hwait _ _ (hr.waiting u y hold)
  · rcases hcases u y h with ⟨_, hxy⟩ | hold
    · obtain ⟨_, _, hpc, _⟩ := hx y hxy
      simp [hpc, ThreadPc.joins] at hj
    · exact hview _ b (hr.joining u y b hold hj)
  · have hnew : x.toList.countP (·.pc.joins b) = 0 := by
      rw [List.countP_eq_zero]
      intro y hy
      obtain ⟨_, _, hpc, _⟩ := hx y (Option.mem_toList.mp hy)
      simp [hpc, ThreadPc.joins]
    rw [hgrown, hnew, Nat.add_zero]
    rcases hptcb b d h with ⟨rfl, rfl⟩ | ⟨_, hold⟩
    · rw [hnojoin]
      exact hc.2.2.1
    · exact hr.refcount b d hold
  · rcases hptcb b d h with ⟨rfl, rfl⟩ | ⟨_, hold⟩
    · exact ⟨.inl hc.1, .inl hc.2.1⟩
    · exact hr.flags b d hold
  · rcases hptcb b d h with ⟨rfl, rfl⟩ | ⟨_, hold⟩
    · simp [hc.2.2.2, condInit] at hm
    · exact hr.asleep b d hold t hm

/-- Acquiring a PCB concerns no child that a thread waits for. -/
theorem ChildKept.exec {n : Pid} (hn : (k.pt n).pstate = .free)
    (hpt : ∀ p, p ≠ n → k'.pt p = k.pt p)
    (hacq : k'.acquired = Function.update k.acquired n (k.acquired n + 1))
    (hreap : k'.reaps = k.reaps) (p : Pid) (c : ThreadPc) (h : ChildKept k p c) :
    ChildKept k' p c := by
  intro z s m he
  obtain ⟨hle, hkept⟩ := h z s m he
  rw [hacq, hreap]
  by_cases hz : z = n
  · subst hz
    rw [Function.update_self]
    exact ⟨by omega, fun hno => absurd hn (hkept hno).2.1⟩
  · rw [Function.update_of_ne hz, hpt z hz]
    exact ⟨hle, hkept⟩

theorem Running.exec (hr : Running k v) {cur n : Pid} {rest : List Pid} (hfree : v.free = n :: rest)
    (hc : (k.pt cur).pstate = .alive) (hc0 : cur ≠ 0) (call : Option Task) (argl : Int)
    (args : ExecArgs argl) {a : Tid} (ha : k.canAllocate a) :
    ∃ w, Running (sysExec k cur call argl args a).1 w := by
  obtain ⟨hk, hn, hn1⟩ := hr.table.freelist_cons hfree
  have hcn : cur ≠ n := fun he => by simp [he, hn] at hc
  have hna : ∀ p, (k.pt p).pstate = .alive → p ≠ n := fun p hp he => by simp [he, hn] at hp
  have hempty : v.ptcbs n = [] := (hr.table.family.vacated n (by simp [hn])).ptcbs
  cases call with
  | none =>
    rw [sysExec_idle hk hn1 hcn]
    have hpt : ∀ p, p ≠ n → (execKernel k cur n none argl args).pt p = k.pt p := fun p hp => by
      simp [execKernel, hp]
    have hw : (v.exec cur n rest []).ptcbs = v.ptcbs := by
      simp [TableView.exec, ← hempty]
    have hwait : ∀ p c, ChildKept k p c → ChildKept (execKernel k cur n none argl args) p c :=
      ChildKept.exec hn hpt rfl rfl
    refine ⟨_, hr.table.exec_idle hfree hc hc0 none argl args, fun u x h hx => ?_,
      fun u x h hx => ?_, fun p => ?_, fun u x h => hwait _ _ (hr.waiting u x h),
      fun u x b h hj => ?_, hr.refcount, hr.flags, hr.asleep⟩
    · obtain ⟨hal, h0⟩ := hr.owner u x h hx
      exact ⟨by rw [hpt _ (hna _ hal)]; exact hal, h0⟩
    · rw [hw]
      exact hr.self u x h hx
    · by_cases hp : p = n
      · subst hp
        have hcount := hr.count p
        simpa [execKernel, execPcb] using hcount
      · rw [hpt p hp]
        exact hr.count p
    · rw [hw]
      exact hr.joining u x b h hj
  | some task =>
    rw [sysExec_task hk hn1 hcn]
    have hpt : ∀ p, p ≠ n → (execTaskKernel k cur n task argl args a).pt p =
        k.pt p := fun p hp => by
      simp [execTaskKernel, hp]
    obtain ⟨hst, -, hcount⟩ := execTaskKernel_new k cur n task argl args a
    refine ⟨_, hr.grow (q := n) (x := some ⟨n, some a, .startMainThread, .user⟩)
      (hr.table.exec_task hfree hc hc0 task argl args ha) ha.1 rfl ⟨rfl, rfl, rfl, rfl⟩
      (fun y hy => ?_) rfl (fun p hp => ?_) (fun p b hb => ?_) (fun p => ?_)
      (ChildKept.exec hn hpt rfl rfl)⟩
    · obtain rfl := Option.some.inj hy
      exact ⟨rfl, rfl, rfl, hst, fun he => by simp [he] at hn1, by simp [TableView.exec], rfl⟩
    · rw [hpt p (hna p hp)]
      exact hp
    · have hp : p ≠ n := fun he => by simp [he, hempty] at hb
      simpa [TableView.exec, hp] using hb
    · by_cases hp : p = n
      · subst hp
        simpa using hcount
      · simp [hpt p hp, hp]

def createdKernel (k : Kernel) (cur : Pid) (task : Task) (argl : Int) (args : Args) (a : Tid) :
    Kernel :=
  { k with
    pt := Function.update k.pt cur
      { k.pt cur with threadCount := (k.pt cur).threadCount + 1 }
    ptcbs := Function.update k.ptcbs a
      (some (initializePtcb (some k.threads.length) (some task) argl args))
    threads := k.threads ++ [⟨cur, some a, .startProcessThread, .user⟩]
    heap := rlistPushBack (rlnodeInit k.heap (.ptcbListNode a) (.ptcb a)) (.ptcbList cur)
      (.ptcbListNode a) }

theorem sysCreateThread_task (k : Kernel) (cur : Pid) (task : Task) (argl : Int) (args : Args)
    (a : Tid) :
    sysCreateThread k cur (some task) argl args a =
    (createdKernel k cur task argl args a, (a.val : Int)) := by
  simp [sysCreateThread, spawnThread, Kernel.attachPtcb, Kernel.setPCB, createdKernel,
    modify_append_length]

theorem Running.create (hr : Running k v) {cur : Pid} (hc : (k.pt cur).pstate = .alive)
    (hc0 : cur ≠ 0) (task : Option Task) (argl : Int) (args : Args) {a : Tid}
    (ha : k.canAllocate a) : ∃ w, Running (sysCreateThread k cur task argl args a).1 w := by
  have hfresh : ∀ q, a ∉ v.ptcbs q := fun q hq => hr.table.allocated q a hq ha.1
  have halloc : ∀ c b, k.ptcbs b ≠ none → Function.update k.ptcbs a (some c) b ≠
      none := fun c b hb => by
    by_cases hba : b = a <;> simp [hba, hb]
  cases task with
  | none =>
    refine ⟨v, hr.grow (q := cur) (x := none) ⟨hr.table.lists.init_ptcb hfresh, hr.table.family,
      fun p b hb => halloc _ b (hr.table.allocated p b hb)⟩ ha.1 rfl ⟨rfl, rfl, rfl, rfl⟩
      (fun y hy => by simp at hy) (by simp [sysCreateThread]) (fun _ h => h) (fun _ _ h => h)
      (fun p => by simp [sysCreateThread]) (fun _ _ h => h)⟩
  | some task =>
    rw [sysCreateThread_task]
    have hst : ∀ p, ((createdKernel k cur task argl args a).pt p).pstate = (k.pt p).pstate ∧
        ((createdKernel k cur task argl args a).pt p).parent = (k.pt p).parent := fun p => by
      by_cases hp : p = cur <;> simp [createdKernel, hp]
    have hna : ∀ p, (k.pt p).pstate ≠ .alive → p ≠ cur := fun p hp he => hp (he ▸ hc)
    have hview : ∀ p, p ≠ cur → (v.setPtcbs cur (v.ptcbs cur ++ [a])).ptcbs p = v.ptcbs p :=
      fun p hp => by simp [TableView.setPtcbs, hp]
    have htab : ProcessTable (createdKernel k cur task argl args a)
        (v.setPtcbs cur (v.ptcbs cur ++ [a])) := by
      refine ⟨hr.table.lists.push_ptcb cur hfresh, ?_, fun p b hb => ?_⟩
      · refine hr.table.family.frame (fun p => (hst p).1) (fun p => (hst p).2) (fun p hp => ?_)
          (fun p hp => hview p (hna p hp))
        simp [createdKernel, hna p hp]
      · by_cases hba : b = a
        · simp [createdKernel, hba]
        · refine halloc _ b (hr.table.allocated p b ?_)
          by_cases hp : p = cur
          · subst hp
            simpa [TableView.setPtcbs, hba] using hb
          · rwa [hview p hp] at hb
    refine ⟨_, hr.grow (q := cur) (x := some ⟨cur, some a, .startProcessThread, .user⟩)
      htab ha.1 rfl
      ⟨rfl, rfl, rfl, rfl⟩ (fun y hy => ?_) rfl (fun p hp => (hst p).1.trans hp) (fun p b hb => ?_)
      (fun p => ?_) (fun p c h => ?_)⟩
    · obtain rfl := Option.some.inj hy
      exact ⟨rfl, rfl, rfl, (hst cur).1.trans hc, hc0, by simp [TableView.setPtcbs], rfl⟩
    · by_cases hp : p = cur
      · subst hp
        simp [TableView.setPtcbs, hb]
      · rwa [hview p hp]
    · by_cases hp : p = cur <;> simp [createdKernel, hp]
    · intro z s m he
      rw [(hst z).1, (hst z).2]
      exact h z s m he

end Advance

/-! ### Looking up a thread -/

theorem rlistFindFrom_spec {h : Heap NodeKey ProcNode} {head : ProcNode} {l : List Tid}
    {pred : ProcNode} {a : Tid} {fuel : Nat}
    (hw : Walk h.succ pred (l.map .ptcbListNode) head) (hhead : ∀ b, head ≠ .ptcbListNode b)
    (hkey : ∀ b ∈ l, (h (.ptcbListNode b)).obj = .ptcb b) (hfuel : l.length < fuel) :
    rlistFindFrom h head (.ptcb a) fuel (h pred).next = none ↔ a ∉ l := by
  induction l generalizing pred fuel with
  | nil =>
    obtain ⟨fuel, rfl⟩ := Nat.exists_eq_succ_of_ne_zero (Nat.ne_of_gt hfuel)
    have hn : (h pred).next = head := hw
    simp [rlistFindFrom, hn]
  | cons b l ih =>
    obtain ⟨fuel, rfl⟩ := Nat.exists_eq_succ_of_ne_zero (Nat.ne_of_gt (Nat.zero_lt_of_lt hfuel))
    have hn : (h pred).next = .ptcbListNode b := hw.1
    have hb := hkey b List.mem_cons_self
    by_cases hba : b = a
    · subst hba
      simp [rlistFindFrom, hn, Ne.symm (hhead b), hb]
    · have hih := ih hw.2 (fun c hc => hkey c (List.mem_cons_of_mem _ hc))
        (Nat.succ_lt_succ_iff.mp hfuel)
      rw [rlistFindFrom, hn, if_neg (Ne.symm (hhead b)), hb, if_neg (by simpa using hba), hih]
      simp [Ne.symm hba]

theorem ProcessTable.find {k : Kernel} {v : TableView} (ht : ProcessTable k v) (p : Pid) (a : Tid) :
    rlistFind k.heap (.ptcbList p) (.ptcb a) = none ↔ a ∉ v.ptcbs p :=
  rlistFindFrom_spec (ht.lists.hangs.lists.walk (.ptcbs p)) (fun b => by simp)
    (ht.lists.key_ptcb p) (ht.length_ptcbs_lt p)

end TinyOS
