import TinyOS.Lib.Counting
import TinyOS.SchedSteps

/-! Runs of the scheduler: which threads exist, how many are counted, and the invariant of every
run in which no wakeup time is the value that stands for no timeout. -/

namespace TinyOS

open Transition

def Sched.counted (s : Sched) (n : Nat) : Bool :=
  (s.tcb (.thread n)).published && (s.tcb (.thread n)).released = 0

/-- The threads that are being created, and the counter of the others. -/
structure Sched.Threads (s : Sched) : Prop where
  spawner : ∀ t n, (s.tcb t).spawning = some n →
    n < s.spawned ∧ (s.tcb (.thread n)).published = false ∧ t.normal = true ∧
      (s.tcb t).state ≠ .init ∧ (s.tcb t).state ≠ .exited ∧ (s.tcb t).released = 0
  unique : ∀ t u n, (s.tcb t).spawning = some n → (s.tcb u).spawning = some n → t = u
  unpublished : ∀ n, n < s.spawned → (s.tcb (.thread n)).published = false →
    ∃ t, (s.tcb t).spawning = some n
  unstarted : ∀ n, (s.tcb (.thread n)).published = false → (s.tcb (.thread n)).state = .init
  active : s.activeThreads = ((List.range s.spawned).countP s.counted : Nat) +
    if s.spinlock = none then 0 else 1
  releasing : ∀ c, s.spinlock = some c ↔ (s.core c).pc = .releasing

/-- The sum of the clock and a timeout, modulo the size of `TimerDuration`, is `NO_TIMEOUT`. -/
def Sched.HitsNoTimeout : SchedEvent → Bool
  | .sleep _ exit timeout curtime =>
    exit = false && timeout ≠ noTimeout && (curtime + timeout) % 2 ^ 64 = noTimeout
  | _ => false

structure Sched.Sound (s : Sched) : Prop where
  inv : ∃ q ts place, s.Inv q ts place
  threads : s.Threads
  running : s.aborted = false
  off : ∀ c, s.cores ≤ c → s.core c = ⟨.idle c, none, .running⟩

section Run

variable {s s' : Sched} {q ts l : List TcbId} {place : TcbId → Place} {t : TcbId} {c curtime : Nat}

theorem Sched.Inv.published_of_state (hth : s.Threads) {n : Nat}
    (hs : (s.tcb (.thread n)).state ≠ .init) :
    (s.tcb (.thread n)).published = true := by
  by_contra hp
  exact hs (hth.unstarted n (by simpa using hp))

/-- Steps that create, count and release nobody. -/
theorem Sched.Threads.keep (h : s.Threads) (hspawned : s'.spawned = s.spawned)
    (hactive : s'.activeThreads = s.activeThreads) (hlock : s'.spinlock = s.spinlock)
    (hpc : ∀ c, (s'.core c).pc = .releasing ↔ (s.core c).pc = .releasing)
    (htcb : ∀ u, (s'.tcb u).spawning = (s.tcb u).spawning ∧
      (s'.tcb u).published = (s.tcb u).published ∧
      (s'.tcb u).released = (s.tcb u).released)
    (hstate : ∀ u, (s'.tcb u).state = .init ∨ (s.tcb u).state = .init →
      (s'.tcb u).state = (s.tcb u).state ∨ (s.tcb u).published = true ∧ (s.tcb u).state = .init)
    (hexit : ∀ u, (s'.tcb u).state = .exited → (s.tcb u).state = .exited ∨
      (s.tcb u).spawning = none) :
    s'.Threads := by
  refine ⟨fun t n hn => ?_, fun t u n ht hu => ?_, fun n hn hp => ?_, fun n hp => ?_,
    ?_, fun c => ?_⟩
  · rw [(htcb t).1] at hn
    obtain ⟨hlt, hp, hnormal, hs, hx, hr⟩ := h.spawner t n hn
    refine ⟨by rw [hspawned]; exact hlt, by rw [(htcb _).2.1]; exact hp,
      hnormal, fun hi => ?_, fun he => ?_,
      by rw [(htcb t).2.2]; exact hr⟩
    · rcases hstate t (.inl hi) with he | he
      · exact hs (he ▸ hi)
      · exact hs he.2
    · rcases hexit t he with he | he
      · exact hx he
      · rw [hn] at he
        cases he
  · exact h.unique t u n ((htcb t).1 ▸ ht) ((htcb u).1 ▸ hu)
  · rw [hspawned] at hn
    obtain ⟨t, ht⟩ := h.unpublished n hn ((htcb _).2.1 ▸ hp)
    exact ⟨t, by rw [(htcb t).1]; exact ht⟩
  · have hp' : (s.tcb (.thread n)).published = false := (htcb _).2.1 ▸ hp
    have hs := h.unstarted n hp'
    rcases hstate (.thread n) (.inr hs) with he | he
    · exact he.trans hs
    · rw [hp'] at he
      cases he.1
  · have hcounted : s'.counted = s.counted := by
      funext n
      simp [Sched.counted, (htcb _).2.1, (htcb _).2.2]
    rw [hactive, hspawned, hlock, hcounted]
    exact h.active
  · rw [hlock, hpc]
    exact h.releasing c

theorem Sched.Wakes.threads (hw : s.Wakes s' l) (h : s.Threads)
    (hl : ∀ u ∈ l, (s.tcb u).state ≠ .init ∨ (s.tcb u).published = true) : s'.Threads := by
  have hcases : ∀ u, s'.tcb u = s.tcb u ∨
      u ∈ l ∧ s'.tcb u = { s.tcb u with state := .ready, wakeupTime := noTimeout } := by
    intro u
    by_cases hu : u ∈ l
    · exact .inr ⟨hu, hw.ready u hu⟩
    · exact .inl (hw.same u hu)
  refine h.keep hw.spawned hw.activeThreads hw.spinlock (fun c => by rw [hw.core])
    (fun u => ?_) (fun u hu => ?_)
    fun u hu => ?_
  · rcases hcases u with he | ⟨-, he⟩
    · rw [he]
      exact ⟨rfl, rfl, rfl⟩
    · rw [he]
      exact ⟨rfl, rfl, rfl⟩
  · rcases hcases u with he | ⟨hm, he⟩
    · exact .inl (by rw [he])
    · rw [he] at hu ⊢
      have hinit : (s.tcb u).state = .init := by
        rcases hu with hu | hu
        · cases hu
        · exact hu
      rcases hl u hm with hne | hp
      · exact absurd hinit hne
      · exact .inr ⟨hp, hinit⟩
  · rcases hcases u with he | ⟨-, he⟩
    · exact .inl (he ▸ hu)
    · rw [he] at hu
      cases hu

theorem gain_cases (h : TinyOS.gain s c = some s') : ∃ p nodes, (s.core c).previous = some p ∧
    ((s.core c).current = p ∧
      s' = ((s.setTcb p fun x => { x with state := .running, phase := .dirty }).setCore c
        { s.core c with pc := .running }) ∨
    (s.core c).current ≠ p ∧ (s.tcb p).state ≠ .exited ∧
      s' = { ((s.setTcb (s.core c).current fun x =>
        { x with state := .running, phase := .dirty }).setTcb p
        fun x => { x with phase := .clean }).setCore c
          { s.core c with pc := .running } with nodes := nodes } ∨
    (s.core c).current ≠ p ∧ (s.tcb p).state = .exited ∧
      s' = { ((s.setTcb (s.core c).current fun x =>
        { x with state := .running, phase := .dirty }).setTcb p
        fun x => { x with phase := .clean, released := x.released + 1 }).setCore c
          { s.core c with pc := .releasing } with spinlock := some c }) := by
  unfold TinyOS.gain at h
  obtain ⟨p, hp, h⟩ := Option.bind_eq_some_iff.mp h
  dsimp only at h
  split at h
  · rename_i he
    obtain rfl := Option.some.inj h
    subst he
    exact ⟨_, s.nodes, hp, .inl ⟨rfl, rfl⟩⟩
  · rename_i hne
    have hget :
        (((s.setTcb (s.core c).current fun x =>
          { x with state := .running, phase := .dirty }).setTcb p
        fun x => { x with phase := .clean }).tcb p).state = (s.tcb p).state := by
      simp [Sched.setTcb, Ne.symm hne]
    split at h
    · rename_i hs
      rw [hget] at hs
      obtain rfl := Option.some.inj h
      have hstate : (s.tcb p).state ≠ .exited := by
        rw [hs]
        decide
      cases p.normal with
      | false =>
        exact ⟨p, s.nodes, hp, .inr (.inl ⟨hne, hstate, by simp [Sched.setCore, Sched.setTcb]⟩)⟩
      | true =>
        exact ⟨p, rlistPushBack s.nodes (.head .sched) (.tcb p), hp,
          .inr (.inl ⟨hne, hstate, by simp [Sched.setCore, Sched.setTcb, schedQueueAdd]⟩)⟩
    · rename_i hs
      rw [hget] at hs
      obtain rfl := Option.some.inj h
      refine ⟨p, s.nodes, hp, .inr (.inr ⟨hne, hs, ?_⟩)⟩
      simp [Sched.setCore, Sched.setTcb]
    · rename_i hs
      rw [hget] at hs
      obtain rfl := Option.some.inj h
      exact ⟨p, s.nodes, hp, .inr (.inl ⟨hne, by rw [hs]; decide, rfl⟩)⟩
    · simp at h
    · simp at h

theorem range_countP_update (p p' : Nat → Bool) {m n : Nat} (hn : n < m)
    (hsame : ∀ i, i ≠ n → p' i = p i) :
    (List.range m).countP p' + (if p n then 1 else 0) = (List.range m).countP p + if p' n then 1
      else 0 := by
  induction m with
  | zero => omega
  | succ m ih =>
    rw [List.range_succ, List.countP_append, List.countP_append, List.countP_singleton,
      List.countP_singleton]
    by_cases hm : n = m
    · subst hm
      have hrest : (List.range n).countP p' = (List.range n).countP p := by
        apply List.countP_congr
        intro i hi
        have hlt := List.mem_range.mp hi
        rw [hsame i (by omega)]
      omega
    · rw [hsame m (Ne.symm hm)]
      have hih := ih (by omega)
      omega

theorem Sched.Threads.spawn (h : s.Threads)
    (hfresh : ∀ n, s.spawned ≤ n → s.tcb (.thread n) = freshTcb)
    (hnone : (s.tcb t).spawning = none) (hn : t.normal = true) (hrun : (s.tcb t).state = .running)
    (hr : (s.tcb t).released = 0) : (s.spawnThread t).Threads := by
  have hs : (s.tcb t).state ≠ .init := by
    rw [hrun]
    decide
  have hnew := hfresh s.spawned (Nat.le_refl _)
  have hne : t ≠ .thread s.spawned := by
    rintro rfl
    rw [hnew] at hs
    exact hs rfl
  have htcb : (s.spawnThread t).tcb = Function.update s.tcb t { s.tcb t with
      spawning := some s.spawned } := by
    have hself : Function.update s.tcb (.thread s.spawned) freshTcb = s.tcb := by
      rw [← hnew, Function.update_eq_self]
    simp [Sched.spawnThread, Sched.setTcb, hself]
  have hself : (s.spawnThread t).tcb t = { s.tcb t with spawning := some s.spawned } := by
    simp [htcb]
  have hother : ∀ u, u ≠ t → (s.spawnThread t).tcb u = s.tcb u := by
    intro u hu
    simp [htcb, hu]
  have hfields : ∀ u, ((s.spawnThread t).tcb u).published = (s.tcb u).published ∧
      ((s.spawnThread t).tcb u).released = (s.tcb u).released ∧
      ((s.spawnThread t).tcb u).state = (s.tcb u).state := by
    intro u
    by_cases hu : u = t
    · rw [hu, hself]
      exact ⟨rfl, rfl, rfl⟩
    · rw [hother u hu]
      exact ⟨rfl, rfl, rfl⟩
  have hspawning : ∀ u n, ((s.spawnThread t).tcb u).spawning = some n →
      u = t ∧ n = s.spawned ∨ u ≠ t ∧ (s.tcb u).spawning = some n := by
    intro u n hu
    by_cases hut : u = t
    · rw [hut, hself] at hu
      exact .inl ⟨hut, (Option.some.inj hu).symm⟩
    · rw [hother u hut] at hu
      exact .inr ⟨hut, hu⟩
  refine ⟨fun u n hu => ?_, fun u v n hu hv => ?_, fun n hlt hp => ?_,
    fun n hp => ?_, ?_, h.releasing⟩
  · rw [(hfields _).1, (hfields u).2.1, (hfields u).2.2]
    show n < s.spawned + 1 ∧ _
    rcases hspawning u n hu with ⟨rfl, rfl⟩ | ⟨-, hold⟩
    · exact ⟨Nat.lt_succ_self _, by rw [hnew]; rfl, hn, hs, by rw [hrun]; decide, hr⟩
    · obtain ⟨hlt, hrest⟩ := h.spawner u n hold
      exact ⟨Nat.lt_succ_of_lt hlt, hrest⟩
  · rcases hspawning u n hu with ⟨rfl, rfl⟩ | ⟨-, hold⟩
    · rcases hspawning v _ hv with ⟨rfl, -⟩ | ⟨-, hold'⟩
      · rfl
      · exact absurd (h.spawner v _ hold').1 (Nat.lt_irrefl _)
    · rcases hspawning v n hv with ⟨rfl, rfl⟩ | ⟨-, hold'⟩
      · exact absurd (h.spawner u _ hold).1 (Nat.lt_irrefl _)
      · exact h.unique u v n hold hold'
  · by_cases he : n = s.spawned
    · exact ⟨t, by rw [hself, he]⟩
    · have hlt' : n < s.spawned + 1 := hlt
      obtain ⟨u, hu⟩ := h.unpublished n (by omega) ((hfields _).1 ▸ hp)
      refine ⟨u, ?_⟩
      rw [hother u]
      · exact hu
      · rintro rfl
        rw [hnone] at hu
        cases hu
  · rw [(hfields _).2.2]
    exact h.unstarted n ((hfields _).1 ▸ hp)
  · have hcounted : (s.spawnThread t).counted = s.counted := by
      funext n
      simp [Sched.counted, (hfields _).1, (hfields _).2.1]
    have hnot : s.counted s.spawned = false := by simp [Sched.counted, hnew, freshTcb]
    rw [hcounted]
    show s.activeThreads = ((List.range (s.spawned + 1)).countP s.counted : Nat) +
      if s.spinlock = none then 0 else 1
    rw [List.range_succ, List.countP_append, List.countP_singleton, hnot]
    simpa using h.active

theorem Sched.Threads.count (h : s.Threads) {n : Nat} (hn : (s.tcb t).spawning = some n)
    (hr : (s.tcb (.thread n)).released = 0) : (countThread s t n).Threads := by
  obtain ⟨hlt, hunp, hnormal, hs, -, hrel⟩ := h.spawner t n hn
  have hne : t ≠ .thread n := by
    rintro rfl
    exact hs (h.unstarted n hunp)
  have htcb : (countThread s t n).tcb = Function.update (Function.update s.tcb (.thread n)
      { s.tcb (.thread n) with published := true }) t { s.tcb t with spawning := none } := by
    simp [countThread, Sched.setTcb, hne]
  have hself : (countThread s t n).tcb t = { s.tcb t with spawning := none } := by simp [htcb]
  have hnew : (countThread s t n).tcb (.thread n) = { s.tcb (.thread n) with
      published := true } := by
    simp [htcb, Ne.symm hne]
  have hother : ∀ u, u ≠ t → u ≠ .thread n → (countThread s t n).tcb u = s.tcb u := by
    intro u hu hun
    simp [htcb, hu, hun]
  have hfields : ∀ u, ((countThread s t n).tcb u).released = (s.tcb u).released ∧
      ((countThread s t n).tcb u).state = (s.tcb u).state ∧
      (u ≠ .thread n → ((countThread s t n).tcb u).published = (s.tcb u).published) ∧
      (u ≠ t → ((countThread s t n).tcb u).spawning = (s.tcb u).spawning) := by
    intro u
    by_cases hu : u = t
    · rw [hu, hself]
      exact ⟨rfl, rfl, fun _ => rfl, fun hne => absurd rfl hne⟩
    · by_cases hun : u = .thread n
      · rw [hun, hnew]
        exact ⟨rfl, rfl, fun hne => absurd rfl hne, fun _ => rfl⟩
      · rw [hother u hu hun]
        exact ⟨rfl, rfl, fun _ => rfl, fun _ => rfl⟩
  have hspawning : ∀ u m, ((countThread s t n).tcb u).spawning = some m →
      u ≠ t ∧ (s.tcb u).spawning = some m ∧ m ≠ n := by
    intro u m hu
    have hut : u ≠ t := by
      rintro rfl
      rw [hself] at hu
      cases hu
    rw [(hfields u).2.2.2 hut] at hu
    refine ⟨hut, hu, ?_⟩
    rintro rfl
    exact hut (h.unique u t m hu hn)
  refine ⟨fun u m hu => ?_, fun u v m hu hv => ?_, fun m hm hp => ?_, fun m hp => ?_,
    ?_, h.releasing⟩
  · obtain ⟨hut, hold, hmn⟩ := hspawning u m hu
    obtain ⟨hlt', hp, hnormal', hs', hx', hr'⟩ := h.spawner u m hold
    refine ⟨hlt', ?_, hnormal', ?_, ?_, ?_⟩
    · rw [(hfields _).2.2.1 (by simpa using hmn)]
      exact hp
    · rw [(hfields u).2.1]
      exact hs'
    · rw [(hfields u).2.1]
      exact hx'
    · rw [(hfields u).1]
      exact hr'
  · exact h.unique u v m (hspawning u m hu).2.1 (hspawning v m hv).2.1
  · have hmn : m ≠ n := by
      rintro rfl
      rw [hnew] at hp
      cases hp
    rw [(hfields _).2.2.1 (by simpa using hmn)] at hp
    obtain ⟨u, hu⟩ := h.unpublished m hm hp
    have hut : u ≠ t := by
      rintro rfl
      rw [hn] at hu
      exact hmn (Option.some.inj hu).symm
    exact ⟨u, by rw [(hfields u).2.2.2 hut]; exact hu⟩
  · have hmn : m ≠ n := by
      rintro rfl
      rw [hnew] at hp
      cases hp
    rw [(hfields _).2.2.1 (by simpa using hmn)] at hp
    rw [(hfields _).2.1]
    exact h.unstarted m hp
  · have hup := range_countP_update s.counted (countThread s t n).counted hlt (fun i hi => by
      simp [Sched.counted, (hfields _).1, (hfields (.thread i)).2.2.1 (by simpa using hi)])
    have h0 : s.counted n = false := by simp [Sched.counted, hunp]
    have h1 : (countThread s t n).counted n = true := by simp [Sched.counted, hnew, hr]
    have hact := h.active
    simp only [h0, h1, if_true, Bool.false_eq_true, if_false] at hup
    show s.activeThreads + 1 = ((List.range s.spawned).countP _ : Nat) + if s.spinlock = none then 0
      else 1
    omega

/-- The thread whose core takes a step is not new. -/
theorem Sched.Inv.started (h : s.Inv q ts place) (ht : place t = .onCore c) :
    (s.tcb t).state ≠ .init ∧ (s.tcb t).released = 0 := by
  have hok := h.thread t
  rw [ht] at hok
  exact ⟨hok.2.1, hok.2.2.1⟩

theorem Sched.Threads.enterYield (h : s.Threads) (hinv : s.Inv q ts place)
    (hpc : (s.core c).pc = .running ∨ (s.core c).pc = .yielding) : (s.enterYield c).Threads := by
  have hstarted := (hinv.started (hinv.current hpc)).1
  obtain ⟨-, hspawned, -, hactive, hlock, -⟩ := enterYield_rest s c
  refine h.keep hspawned hactive hlock (fun d => ?_) (fun u => ?_) (fun u hu => ?_) fun u hu => ?_
  · rw [enterYield_core]
    by_cases hd : d = c
    · subst hd
      rcases hpc with hpc | hpc <;> simp [hpc]
    · simp [hd]
  · rw [enterYield_tcb]
    by_cases hu : u = (s.core c).current
    · subst hu
      simp
    · simp [hu]
  · rw [enterYield_tcb] at hu ⊢
    by_cases hne : u = (s.core c).current
    · subst hne
      simp only [Function.update_self] at hu ⊢
      split at hu
      · rcases hu with hu | hu
        · cases hu
        · exact absurd hu hstarted
      · rcases hu with hu | hu <;> exact absurd hu hstarted
    · simp [hne]
  · rw [enterYield_tcb] at hu
    by_cases hne : u = (s.core c).current
    · subst hne
      rw [Function.update_self] at hu
      dsimp only at hu
      split at hu
      · cases hu
      · exact .inl hu
    · rw [Function.update_of_ne hne] at hu
      exact .inl hu

theorem Sched.Threads.yieldSelect (h : s.Threads) (hpc : (s.core c).pc = .yielding) :
    (TinyOS.yieldSelect s c).Threads := by
  obtain ⟨htcb, hspawned, -, hactive, hlock, -⟩ := yieldSelect_rest s c
  refine h.keep hspawned hactive hlock (fun d => ?_) (fun u => by rw [htcb]; exact ⟨rfl, rfl, rfl⟩)
    (fun u _ => .inl (by rw [htcb])) fun u hu => .inl (by rwa [htcb] at hu)
  rw [yieldSelect_core]
  by_cases hd : d = c
  · subst hd
    rw [Function.update_self, hpc]
    dsimp only
    split <;> simp
  · rw [Function.update_of_ne hd]

/-- The exited thread is counted out in two steps: it is freed, then the counter goes down. -/
theorem Sched.Threads.free {n : Nat} {k : Core} (h : s.Threads) (hlt : n < s.spawned)
    (hpub : (s.tcb (.thread n)).published = true) (hrel : (s.tcb (.thread n)).released = 0)
    (hfree : s.spinlock = none) (hspawn : (s.tcb (.thread n)).spawning = none)
    (hcore : s'.core = Function.update s.core c k) (hk : k.pc = .releasing)
    (hlock : s'.spinlock = some c)
    (hspawned : s'.spawned = s.spawned) (hactive : s'.activeThreads = s.activeThreads)
    (htcb : ∀ u, (s'.tcb u).spawning = (s.tcb u).spawning ∧
      (s'.tcb u).published = (s.tcb u).published)
    (hrel' : ∀ u, u ≠ .thread n → (s'.tcb u).released = (s.tcb u).released)
    (hself : (s'.tcb (.thread n)).released = 1)
    (hstate : ∀ u, (s'.tcb u).state = (s.tcb u).state ∨ (s.tcb u).state ≠ .init ∧
      (s'.tcb u).state = .running) :
    s'.Threads := by
  have hlocks : ∀ d, (s.core d).pc ≠ .releasing := by
    intro d hd
    rw [(h.releasing d).mpr hd] at hfree
    cases hfree
  refine ⟨fun t m hm => ?_, fun t u m ht hu => ?_, fun m hm hp => ?_, fun m hp => ?_,
    ?_, fun d => ?_⟩
  · rw [(htcb t).1] at hm
    obtain ⟨hlt', hp, hnormal, hs, hx, hr⟩ := h.spawner t m hm
    have hne : t ≠ .thread n := by
      rintro rfl
      rw [hspawn] at hm
      cases hm
    refine ⟨by rw [hspawned]; exact hlt', by rw [(htcb _).2]; exact hp,
      hnormal, fun hi => ?_, fun he => ?_,
      by rw [hrel' t hne]; exact hr⟩
    · rcases hstate t with he | ⟨-, he⟩
      · exact hs (he ▸ hi)
      · rw [hi] at he
        cases he
    · rcases hstate t with he' | ⟨-, he'⟩
      · exact hx (he' ▸ he)
      · rw [he] at he'
        cases he'
  · exact h.unique t u m ((htcb t).1 ▸ ht) ((htcb u).1 ▸ hu)
  · rw [hspawned] at hm
    obtain ⟨t, ht⟩ := h.unpublished m hm ((htcb _).2 ▸ hp)
    exact ⟨t, by rw [(htcb t).1]; exact ht⟩
  · have hs := h.unstarted m ((htcb _).2 ▸ hp)
    rcases hstate (.thread m) with he | ⟨hi, -⟩
    · exact he.trans hs
    · exact absurd hs hi
  · have hup := range_countP_update s.counted s'.counted hlt (fun i hi => by
      simp [Sched.counted, (htcb _).2, hrel' (.thread i) (by simpa using hi)])
    have h1 : s.counted n = true := by simp [Sched.counted, hpub, hrel]
    have h0 : s'.counted n = false := by simp [Sched.counted, hself]
    have hact := h.active
    simp only [h0, h1, if_true, Bool.false_eq_true, if_false] at hup
    rw [hfree, if_pos rfl] at hact
    rw [hactive, hspawned, hlock, if_neg (by simp)]
    omega
  · rw [hcore, hlock]
    by_cases hd : d = c
    · subst hd
      simp [hk]
    · rw [Function.update_of_ne hd]
      exact iff_of_false (by simpa using Ne.symm hd) (hlocks d)

theorem Sched.Threads.gain (h : s.Threads) (hinv : s.Inv q ts place)
    (hpc : (s.core c).pc = .gaining)
    (hfree : s.spinlock = none) (hs : TinyOS.gain s c = some s') : s'.Threads := by
  obtain ⟨p, nodes, hprev, hcases⟩ := gain_cases hs
  have hok := hinv.cores c
  unfold Sched.CoreOk at hok
  simp only [hpc] at hok
  have hcur : (s.tcb (s.core c).current).state ≠ .init := by
    rw [hok.1]
    decide
  have hplaceP : place p = .onCore c := by
    rw [← hinv.stack]
    simp [Core.stack, hpc, hprev]
  obtain ⟨hstP, hrelP⟩ := hinv.started hplaceP
  have hlocks : ∀ d, (s.core d).pc ≠ .releasing := by
    intro d hd
    rw [(h.releasing d).mpr hd] at hfree
    cases hfree
  rcases hcases with ⟨he, rfl⟩ | ⟨hne, -, rfl⟩ | ⟨hne, hexit, rfl⟩
  · refine h.keep rfl rfl rfl (fun d => ?_) (fun u => ?_) (fun u hu => ?_) fun u hu => ?_
    · by_cases hd : d = c
      · subst hd
        simp [Sched.setCore, Sched.setTcb, hpc]
      · simp [Sched.setCore, Sched.setTcb, hd]
    · by_cases hu : u = p
      · subst hu
        simp [Sched.setCore, Sched.setTcb]
      · simp [Sched.setCore, Sched.setTcb, hu]
    · by_cases hup : u = p
      · subst hup
        rcases hu with hu | hu
        · simp [Sched.setCore, Sched.setTcb] at hu
        · exact absurd hu hstP
      · simp [Sched.setCore, Sched.setTcb, hup]
    · by_cases hup : u = p
      · subst hup
        simp [Sched.setCore, Sched.setTcb] at hu
      · exact .inl (by simpa [Sched.setCore, Sched.setTcb, hup] using hu)
  · refine h.keep rfl rfl rfl (fun d => ?_) (fun u => ?_) (fun u hu => ?_) fun u hu => ?_
    · by_cases hd : d = c
      · subst hd
        simp [Sched.setCore, hpc]
      · simp [Sched.setCore, Sched.setTcb, hd]
    · by_cases hup : u = p
      · subst hup
        simp [Sched.setCore, Sched.setTcb, Ne.symm hne]
      · by_cases huc : u = (s.core c).current
        · subst huc
          simp [Sched.setCore, Sched.setTcb, hup]
        · simp [Sched.setCore, Sched.setTcb, hup, huc]
    · by_cases hup : u = p
      · subst hup
        simp [Sched.setCore, Sched.setTcb, Ne.symm hne]
      · by_cases huc : u = (s.core c).current
        · subst huc
          rcases hu with hu | hu
          · simp [Sched.setCore, Sched.setTcb, hup] at hu
          · exact absurd hu hcur
        · simp [Sched.setCore, Sched.setTcb, hup, huc]
    · by_cases hup : u = p
      · subst hup
        exact .inl (by simpa [Sched.setCore, Sched.setTcb, Ne.symm hne] using hu)
      · by_cases huc : u = (s.core c).current
        · subst huc
          simp [Sched.setCore, Sched.setTcb, hup] at hu
        · exact .inl (by simpa [Sched.setCore, Sched.setTcb, hup, huc] using hu)
  · have hok' := hinv.thread p
    rw [hplaceP] at hok'
    obtain ⟨n, rfl⟩ : ∃ n, p = .thread n := by
      cases p with
      | thread n => exact ⟨n, rfl⟩
      | idle d => rcases hok'.2.2.2.2 rfl with hr | hr <;> · rw [hexit] at hr; cases hr
    have hpub : (s.tcb (.thread n)).published = true := Sched.Inv.published_of_state h hstP
    have hlt : n < s.spawned := by
      by_contra hge
      exact hinv.allocated hstP n (Nat.le_of_not_lt hge) rfl
    have hspawn : (s.tcb (.thread n)).spawning = none := by
      by_contra hsome
      obtain ⟨m, hm⟩ := Option.ne_none_iff_exists'.mp hsome
      exact (h.spawner _ m hm).2.2.2.2.1 hexit
    refine h.free hlt hpub hok'.2.2.1 hfree hspawn rfl rfl rfl rfl rfl
      (fun u => ?_) (fun u hun => ?_) ?_ fun u => ?_
    · by_cases hun : u = .thread n
      · subst hun
        simp [Sched.setCore, Sched.setTcb, Ne.symm hne]
      · by_cases huc : u = (s.core c).current
        · subst huc
          simp [Sched.setCore, Sched.setTcb, hun]
        · simp [Sched.setCore, Sched.setTcb, hun, huc]
    · by_cases huc : u = (s.core c).current
      · subst huc
        simp [Sched.setCore, Sched.setTcb, hun]
      · simp [Sched.setCore, Sched.setTcb, hun, huc]
    · simp [Sched.setCore, Sched.setTcb, Ne.symm hne, hok'.2.2.1]
    · by_cases huc : u = (s.core c).current
      · subst huc
        refine .inr ⟨hcur, ?_⟩
        simp [Sched.setCore, Sched.setTcb, hne]
      · by_cases hun : u = .thread n
        · subst hun
          exact .inl (by simp [Sched.setCore, Sched.setTcb, Ne.symm hne])
        · exact .inl (by simp [Sched.setCore, Sched.setTcb, hun, huc])

theorem Sched.Threads.release (h : s.Threads) (hpc : (s.core c).pc = .releasing) :
    ({ s with activeThreads := s.activeThreads - 1, spinlock := none }.setCore c
      { s.core c with pc := .running }).Threads := by
  have hlock := (h.releasing c).mpr hpc
  have hact := h.active
  rw [hlock, if_neg (by simp)] at hact
  refine ⟨h.spawner, h.unique, h.unpublished, h.unstarted, ?_, fun d => ?_⟩
  · show s.activeThreads - 1 = ((List.range s.spawned).countP s.counted : Nat) +
      if none = none then 0 else 1
    rw [if_pos rfl]
    omega
  · by_cases hd : d = c
    · subst hd
      simp [Sched.setCore]
    · have hother : (s.core d).pc ≠ .releasing := by
        intro he
        rw [(h.releasing d).mpr he] at hlock
        exact hd (Option.some.inj hlock)
      simpa [Sched.setCore, hd] using hother

theorem Sched.Threads.setCore {k : Core} (h : s.Threads) (hpc : (s.core c).pc ≠ .releasing)
    (hk : k.pc ≠ .releasing) :
    (s.setCore c k).Threads := by
  refine h.keep rfl rfl rfl (fun d => ?_) (fun _ => ⟨rfl, rfl, rfl⟩) (fun _ _ => .inl rfl)
    fun _ he => .inl he
  by_cases hd : d = c
  · subst hd
    simp [Sched.setCore, hpc, hk]
  · simp [Sched.setCore, hd]

theorem Sched.Threads.sleep {x : SchedTcb} (h : s.Threads) (hpc : (s.core c).pc = .running)
    (hcore : s'.core = Function.update s.core c { s.core c with pc := .yielding })
    (htcb : s'.tcb = Function.update s.tcb t x) (hspawned : s'.spawned = s.spawned)
    (hactive : s'.activeThreads = s.activeThreads) (hlock : s'.spinlock = s.spinlock)
    (hsame : x.spawning = (s.tcb t).spawning ∧ x.published = (s.tcb t).published ∧
      x.released = (s.tcb t).released)
    (hnone : (s.tcb t).spawning = none) (hrun : (s.tcb t).state = .running)
    (hx : x.state ≠ .init) : s'.Threads := by
  refine h.keep hspawned hactive hlock (fun d => ?_) (fun u => ?_) (fun u hu => ?_) fun u hu => ?_
  · rw [hcore]
    by_cases hd : d = c
    · subst hd
      simp [hpc]
    · simp [hd]
  · rw [htcb]
    by_cases hu : u = t
    · subst hu
      simpa using hsame
    · simp [hu]
  · rw [htcb] at hu ⊢
    by_cases hut : u = t
    · subst hut
      rcases hu with hu | hu
      · exact absurd (by simpa using hu) hx
      · rw [hrun] at hu
        cases hu
    · simp [hut]
  · rw [htcb] at hu
    by_cases hut : u = t
    · subst hut
      exact .inr hnone
    · exact .inl (by simpa [hut] using hu)

theorem Sched.Inv.countThread (h : s.Inv q ts place) (hth : s.Threads)
    {n : Nat} (hn : (s.tcb t).spawning = some n) :
    (TinyOS.countThread s t n).Inv q ts place := by
  obtain ⟨hlt, hunp, -, hs, -⟩ := hth.spawner t n hn
  have hne : t ≠ .thread n := by
    rintro rfl
    exact hs (hth.unstarted n hunp)
  have hcases : ∀ u, (TinyOS.countThread s t n).tcb u = s.tcb u ∨ u = t ∧
      (TinyOS.countThread s t n).tcb u = { s.tcb u with spawning := none } ∨ u = .thread n ∧
      (TinyOS.countThread s t n).tcb u = { s.tcb u with published := true } := by
    intro u
    by_cases hu : u = t
    · subst hu
      exact .inr (.inl ⟨rfl, by simp [TinyOS.countThread, Sched.setTcb, hne]⟩)
    · by_cases hun : u = .thread n
      · subst hun
        exact .inr (.inr ⟨rfl, by simp [TinyOS.countThread, Sched.setTcb, Ne.symm hne]⟩)
      · exact .inl (by simp [TinyOS.countThread, Sched.setTcb, hu, hun])
  refine h.frame rfl rfl (fun u => ?_) fun m hm => ?_
  · rcases hcases u with he | ⟨-, he⟩ | ⟨-, he⟩ <;> rw [he] <;> exact ⟨rfl, rfl, rfl, rfl⟩
  · have hm' : s.spawned ≤ m := hm
    rcases hcases (.thread m) with he | ⟨he, -⟩ | ⟨he, -⟩
    · rw [he]
      exact h.fresh m hm'
    · exact absurd he.symm (h.allocated hs m hm')
    · have := TcbId.thread.inj he
      omega

/-- How a step changes the queue: at its end, and a `yield` then pops its first thread. -/
def Sched.QueueStep (s : Sched) (e : SchedEvent) (q q' : List TcbId) : Prop :=
  match e with
  | .yield c curtime => ∃ r q₁ ts place, yieldExpire s c curtime = some r ∧ r.Inv q₁ ts place ∧
      (r.core c).pc = .yielding ∧ q <+: q₁ ∧ q' = q₁.tail
  | _ => q <+: q'

/-- Only core `c` moves. -/
def Sched.Apart (s s' : Sched) (c : Nat) : Prop :=
  s'.cores = s.cores ∧ ∀ d, d ≠ c → s'.core d = s.core d

theorem Sched.Apart.setCore (s : Sched) (k : Core) : s.Apart (s.setCore c k) c :=
  ⟨rfl, fun d hd => by simp [Sched.setCore, hd]⟩

theorem Sched.Inv.yield (curtime : Nat) (h : s.Inv q ts place) (hth : s.Threads)
    (hpc : (s.core c).pc = .running ∨ (s.core c).pc = .yielding) :
    ∃ r q₁ ts₁ place₁ place₂, yieldExpire s c curtime = some r ∧ r.Inv q₁ ts₁ place₁ ∧
    (r.core c).pc = .yielding ∧
      q <+: q₁ ∧ (TinyOS.yieldSelect r c).Inv q₁.tail ts₁ place₂ ∧
      (TinyOS.yieldSelect r c).Threads ∧
      (TinyOS.yieldSelect r c).aborted = s.aborted ∧ s.Apart (TinyOS.yieldSelect r c) c := by
  obtain ⟨r, q₁, place₁, l, ts₁, he, hinv, hwakes, hq, hts, -⟩ := h.expire curtime hpc
  have henter := h.enterYield hpc
  have hpc₁ : (r.core c).pc = .yielding := by
    rw [hwakes.core, enterYield_core]
    simp
  have hth₁ : r.Threads := by
    apply hwakes.threads (hth.enterYield h hpc)
    intro u hu
    have hst := henter.stopped u (by rw [hts]; exact List.mem_append_left _ hu)
    left
    rw [hst]
    decide
  obtain ⟨place₂, hinv₂⟩ := hinv.yieldSelect hpc₁
  refine ⟨r, q₁, ts₁, place₁, place₂, he, hinv, hpc₁, hq, hinv₂, hth₁.yieldSelect hpc₁,
    ?_, ?_, fun d hd => ?_⟩
  · rw [(yieldSelect_rest r c).2.2.2.2.2, hwakes.aborted, (enterYield_rest s c).2.2.2.2.2]
  · rw [(yieldSelect_rest r c).2.2.1, hwakes.cores, (enterYield_rest s c).2.2.1]
  · rw [yieldSelect_core, hwakes.core, enterYield_core]
    simp [hd]

/-- A step whose wakeup time, if it sets one, is not `NO_TIMEOUT`. -/
theorem Sched.Inv.step {e : SchedEvent} (h : s.Inv q ts place) (hth : s.Threads)
    (ha : s.aborted = false) (hok : ¬Sched.HitsNoTimeout e = true) (hs : s.step e = some s') :
    ∃ q' ts' place', s'.Inv q' ts' place' ∧ s'.Threads ∧ s'.aborted = false ∧ s.QueueStep e q q' ∧
      s.Apart s' e.core := by
  unfold Sched.step at hs
  replace hs := (Option.ite_none_left_eq_some.mp hs).2
  cases e with
  | spawn c =>
    simp only [SchedEvent.core] at hs
    obtain ⟨hg, hs⟩ := Option.ite_none_right_eq_some.mp hs
    obtain rfl := Option.some.inj hs
    obtain ⟨hfree, hn⟩ := hg
    obtain ⟨hpc, hnone⟩ : (s.core c).pc = .running ∧
        (s.tcb (s.core c).current).spawning = none := by
      simpa [Sched.free] using hfree
    have hplace := h.current (.inl hpc)
    have hrun := h.cores c
    unfold Sched.CoreOk at hrun
    simp only [hpc] at hrun
    exact ⟨q, ts, place, h.spawn (by rw [hplace]; simp),
      hth.spawn h.fresh hnone hn hrun (h.started hplace).2, ha, List.prefix_rfl,
        rfl, fun _ _ => rfl⟩
  | count c =>
    simp only [SchedEvent.core] at hs
    obtain ⟨-, hs⟩ := Option.ite_none_right_eq_some.mp hs
    obtain ⟨n, hn, rfl⟩ := Option.map_eq_some_iff.mp hs
    have hinit := hth.unstarted n (hth.spawner _ n hn).2.1
    have hrel : (s.tcb (.thread n)).released = 0 := by
      have hok' := h.thread (.thread n)
      cases hp : place (.thread n) <;> rw [hp] at hok'
      case gone => cases hinit.symm.trans hok'.1
      all_goals exact hok'.2.2.1
    exact ⟨q, ts, place, h.countThread hth hn, hth.count hn hrel, ha, List.prefix_rfl, rfl,
      fun _ _ => rfl⟩
  | wakeup c u =>
    obtain ⟨hg, hs⟩ := Option.ite_none_right_eq_some.mp hs
    have hold : ∀ n, s.spawned ≤ n → u ≠ .thread n := by
      rintro n hn rfl
      have hp := hg.2.2.1
      rw [h.fresh n hn] at hp
      cases hp
    obtain ⟨r, q', ts', place', l, he, hinv, hwakes, hl, hq, -⟩ := h.wakeup hold
    rw [he, Option.getD_some] at hs
    obtain rfl := Option.some.inj hs
    refine ⟨q', ts', place', hinv, hwakes.threads hth fun v hv => ?_, hwakes.aborted.trans ha,
      ?_, hwakes.cores, fun _ _ => by rw [hwakes.core]⟩
    · rw [hl v hv]
      exact .inr hg.2.2.1
    · rcases hq with rfl | rfl
      · exact List.prefix_rfl
      · exact List.prefix_append _ _
  | sleep c exit timeout curtime =>
    simp only [SchedEvent.core] at hs
    obtain ⟨hg, hs⟩ := Option.ite_none_right_eq_some.mp hs
    obtain ⟨hpc, hnone⟩ : (s.core c).pc = .running ∧
        (s.tcb (s.core c).current).spawning = none := by
      simpa [Sched.free] using hg.1
    have hrun := h.cores c
    unfold Sched.CoreOk at hrun
    simp only [hpc] at hrun
    have hno : exit = false → timeout ≠ noTimeout → (curtime + timeout) % 2 ^ 64 ≠ noTimeout := by
      intro he ht hc
      apply hok
      simp only [Sched.HitsNoTimeout, hc]
      simp [he, ht]
    obtain ⟨r, ts', he, hinv, hr⟩ := h.sleep timeout curtime hpc rfl hg.2.1 exit hno
    rw [he, Option.getD_some] at hs
    obtain rfl := Option.some.inj hs
    refine ⟨q, ts', place, hinv, hth.sleep hpc (congrArg Sched.core hr) (congrArg Sched.tcb hr)
      (by rw [hr]) (by rw [hr]) (by rw [hr]) ⟨rfl, rfl, rfl⟩ hnone hrun ?_,
      (congrArg Sched.aborted hr).trans ha,
      List.prefix_rfl, by rw [hr], fun d hd => ?_⟩
    · cases exit <;> simp
    · have hd' : d ≠ c := hd
      rw [hr]
      simp [hd']
  | yield c curtime =>
    obtain ⟨hg, hs⟩ := Option.ite_none_right_eq_some.mp hs
    obtain ⟨r, q₁, ts₁, place₁, place₂, he, hinv, hpc₁, hq, hinv₂, hth₂, hab, hapart⟩ :=
      h.yield curtime hth hg.1
    rw [he, Option.map_some, Option.getD_some] at hs
    obtain rfl := Option.some.inj hs
    exact ⟨q₁.tail, ts₁, place₂, hinv₂, hth₂, hab.trans ha,
      ⟨r, q₁, ts₁, place₁, he, hinv, hpc₁, hq, rfl⟩, hapart⟩
  | switch c =>
    dsimp only at hs
    split at hs
    · rename_i hpc
      obtain rfl := Option.some.inj hs
      exact ⟨q, ts, place, h.switch hpc, hth.setCore (by rw [hpc]; simp) (by simp),
        ha, List.prefix_rfl, .setCore s _⟩
    · cases hs
  | gain c =>
    obtain ⟨hg, hs⟩ := Option.ite_none_right_eq_some.mp hs
    obtain ⟨r, q', place', he, hinv, hq⟩ := h.gain hg.1
    have hth' := hth.gain h hg.1 hg.2 he
    obtain ⟨hab, hapart⟩ : r.aborted = s.aborted ∧ s.Apart r c := by
      obtain ⟨p, nodes, -, ⟨-, rfl⟩ | ⟨-, -, rfl⟩ | ⟨-, -, rfl⟩⟩ := gain_cases he <;>
        exact ⟨rfl, rfl, fun d hd => by simp [Sched.setCore, Sched.setTcb, hd]⟩
    rw [he, Option.getD_some] at hs
    obtain rfl := Option.some.inj hs
    refine ⟨q', ts, place', hinv, hth', hab.trans ha, ?_, hapart⟩
    rcases hq with rfl | ⟨u, rfl⟩
    · exact List.prefix_rfl
    · exact List.prefix_append _ _
  | released c =>
    obtain ⟨hpc, hs⟩ := Option.ite_none_right_eq_some.mp hs
    obtain rfl := Option.some.inj hs
    have hinv := h.setPc .running (.inr hpc) (.inl rfl)
    refine ⟨q, ts, place, hinv.frame rfl rfl (fun _ => ⟨rfl, rfl, rfl, rfl⟩) h.fresh,
      hth.release hpc, ha, List.prefix_rfl, rfl, fun d hd => ?_⟩
    have hd' : d ≠ c := hd
    simp [Sched.setCore, hd']
  | leave c =>
    simp only [SchedEvent.core] at hs
    obtain ⟨hg, hs⟩ := Option.ite_none_right_eq_some.mp hs
    obtain rfl := Option.some.inj hs
    exact ⟨q, ts, place, h.setPc .left (.inl hg.1) (.inr rfl),
      hth.setCore (by rw [hg.1]; simp) (by simp), ha,
      List.prefix_rfl, .setCore s _⟩

theorem Sched.Sound.step {e : SchedEvent} (h : s.Sound) (hok : ¬Sched.HitsNoTimeout e = true)
    (hs : s.step e = some s') : s'.Sound := by
  obtain ⟨q, ts, place, hinv⟩ := h.inv
  obtain ⟨q', ts', place', hinv', hth, ha, -, hcores, hcore⟩ := hinv.step h.threads h.running hok hs
  refine ⟨⟨q', ts', place', hinv'⟩, hth, ha, fun c hc => ?_⟩
  rw [hcores] at hc
  have hlt : e.core < s.cores := by
    by_contra hge
    unfold Sched.step at hs
    rw [if_pos (.inr (Nat.le_of_not_lt hge))] at hs
    cases hs
  rw [hcore c (by omega)]
  exact h.off c hc

theorem bootSched_inv (cores : Nat) : (bootSched cores).Inv [.thread 0] [] (fun
    | .idle c => .onCore c
    | .thread n => if n = 0 then .queued else .fresh) := by
  have hl : SchedLists (bootSched cores).nodes ([] ++ [.thread 0]) [] :=
    emptyLists_lists.push (by simp) (by simp)
  refine ⟨hl, fun c t => ?_, fun c t => ?_, fun t => ?_, fun t => ?_, fun t => ?_,
    by simp, by simp, fun c => rfl,
    fun n hn => ?_⟩
  · cases t with
    | idle d => simp [bootSched, schedQueueAdd, Core.stack, eq_comm]
    | thread n => by_cases hn : n = 0 <;> simp [bootSched, schedQueueAdd, Core.stack, hn]
  · cases t with
    | idle d => simp [bootSched, schedQueueAdd, Core.next]
    | thread n => by_cases hn : n = 0 <;> simp [bootSched, schedQueueAdd, Core.next, hn]
  · cases t with
    | idle d => simp
    | thread n => by_cases hn : n = 0 <;> simp [hn]
  · cases t with
    | idle d => simp [Place.Ok, bootSched, schedQueueAdd, TcbId.fits]
    | thread n =>
      by_cases hn : n = 0 <;> simp [Place.Ok, bootSched, schedQueueAdd, freshTcb, TcbId.normal, hn]
  · cases t with
    | idle d => simp [bootSched, schedQueueAdd]
    | thread n => by_cases hn : n = 0 <;> simp [bootSched, schedQueueAdd, freshTcb, hn]
  · have hn' : 1 ≤ n := hn
    have hne : n ≠ 0 := by omega
    simp [bootSched, schedQueueAdd, hne]

theorem bootSched_threads (cores : Nat) : (bootSched cores).Threads := by
  have hnone : ∀ t, ((bootSched cores).tcb t).spawning = none := by
    intro t
    cases t with
    | idle d => rfl
    | thread n => by_cases hn : n = 0 <;> simp [bootSched, schedQueueAdd, freshTcb, hn]
  refine ⟨fun t n hn => ?_, fun t u n ht _ => ?_, fun n hn hp => ?_, fun n hp => ?_,
    rfl, fun c => by
    simp [bootSched, schedQueueAdd]⟩
  · rw [hnone t] at hn
    cases hn
  · rw [hnone t] at ht
    cases ht
  · have hn' : n < 1 := hn
    obtain rfl : n = 0 := by omega
    cases hp
  · by_cases hn : n = 0
    · subst hn
      cases hp
    · simp [bootSched, schedQueueAdd, freshTcb, hn]

theorem sched_sound_of_reach {cores : Nat}
    (h : Reach Sched.step (fun _ e => ¬Sched.HitsNoTimeout e = true) (bootSched cores) s) :
    s.Sound := h.invariant ⟨⟨_, _, _, bootSched_inv cores⟩, bootSched_threads cores,
      rfl, fun _ _ => rfl⟩ fun _ _ _ hI hok hs => hI.step hok hs

end Run

end TinyOS
