import Mathlib.Data.List.Perm.Subperm
import TinyOS.SchedInvariant

/-! The operations of the scheduler keep every thread in its place. -/

namespace TinyOS

open Transition

structure Sched.Wakes (s s' : Sched) (l : List TcbId) : Prop where
  cores : s'.cores = s.cores
  core : s'.core = s.core
  spawned : s'.spawned = s.spawned
  activeThreads : s'.activeThreads = s.activeThreads
  spinlock : s'.spinlock = s.spinlock
  aborted : s'.aborted = s.aborted
  same : ∀ u, u ∉ l → s'.tcb u = s.tcb u
  ready : ∀ u, u ∈ l → s'.tcb u = { s.tcb u with state := .ready, wakeupTime := noTimeout }

section Steps

variable {s s' : Sched} {q ts l m : List TcbId} {place : TcbId → Place}
  {t u : TcbId} {c n fuel curtime : Nat}

theorem Sched.Wakes.refl (s : Sched) : s.Wakes s [] :=
  ⟨rfl, rfl, rfl, rfl, rfl, rfl, fun _ _ => rfl, fun _ hu => absurd hu List.not_mem_nil⟩

theorem Sched.Wakes.cons {s₁ : Sched} (h : s.Wakes s₁ [t]) (h' : s₁.Wakes s' l) (ht : t ∉ l) :
    s.Wakes s' (t :: l) := by
  refine ⟨h'.cores.trans h.cores, h'.core.trans h.core, h'.spawned.trans h.spawned,
    h'.activeThreads.trans h.activeThreads, h'.spinlock.trans h.spinlock,
      h'.aborted.trans h.aborted,
    fun u hu => ?_, fun u hu => ?_⟩
  · have hne : u ≠ t := fun he => hu (he ▸ List.mem_cons_self)
    rw [h'.same u fun hm => hu (List.mem_cons_of_mem _ hm), h.same u (by simpa using hne)]
  · rcases List.mem_cons.mp hu with rfl | hu
    · rw [h'.same u ht, h.ready u List.mem_cons_self]
    · have hne : u ≠ t := fun he => ht (he ▸ hu)
      rw [h'.ready u hu, h.same u (by simpa using hne)]

theorem Sched.Inv.allocated (h : s.Inv q ts place) (hs : (s.tcb t).state ≠ .init) :
    ∀ n, s.spawned ≤ n → t ≠ .thread n := by
  rintro n hn rfl
  rw [h.fresh n hn] at hs
  exact hs rfl

theorem Sched.Inv.makeReady (h : s.Inv q ts place)
    (hs : (s.tcb t).state = .stopped ∨ (s.tcb t).state = .init)
    (hold : ∀ n, s.spawned ≤ n → t ≠ .thread n) :
    ∃ s' q' place', schedMakeReady s t = some s' ∧ s'.Inv q' (ts.erase t) place' ∧ s.Wakes s' [t] ∧
      (q' = q ∨ q' = q ++ [t]) := by
  obtain ⟨nodes, he, hl⟩ := schedMakeReady_eq h hs
  refine ⟨_, _, _, he, h.ready hs hold rfl rfl rfl hl,
    ⟨rfl, rfl, rfl, rfl, rfl, rfl, fun u hu => ?_, fun u hu => ?_⟩, ?_⟩
  · have hne : u ≠ t := by simpa using hu
    simp [hne]
  · obtain rfl := List.mem_singleton.mp hu
    simp
  · split
    · exact .inr rfl
    · exact .inl rfl

/-- The loop wakes up the threads whose time has come: they are the first ones of the list. -/
theorem Sched.Inv.wakeupExpired (h : s.Inv q ts place) (hfuel : ts.length < fuel) :
    ∃ s' q' place' l ts', schedWakeupExpiredTimeouts curtime fuel s = some s' ∧
    s'.Inv q' ts' place' ∧ s.Wakes s' l ∧ q <+: q' ∧ ts = l ++ ts' ∧
    (∀ u ∈ l, (s.tcb u).wakeupTime ≤ curtime) ∧
      ∀ u ∈ ts', curtime < (s.tcb u).wakeupTime := by
  induction ts generalizing s q place fuel with
  | nil =>
    obtain ⟨fuel, rfl⟩ : ∃ f, fuel = f + 1 := ⟨fuel - 1, by simp at hfuel; omega⟩
    refine ⟨s, q, place, [], [], ?_, h, .refl s, List.prefix_rfl, rfl, by simp, by simp⟩
    simp only [schedWakeupExpiredTimeouts]
    rw [if_pos (h.lists.empty_iff.mpr rfl)]
  | cons t ts ih =>
    obtain ⟨fuel, rfl⟩ : ∃ f, fuel = f + 1 := ⟨fuel - 1, by simp at hfuel; omega⟩
    have hlen : ts.length < fuel := by simpa using hfuel
    have hne : ¬isRlistEmpty s.nodes (.head .timeoutList) = true := by
      rw [h.lists.empty_iff]
      simp
    have hobj : (s.nodes (s.nodes (.head .timeoutList)).next).obj = some t := by
      rw [h.lists.first]
      exact h.lists.obj_tcb t
    have hsort := List.pairwise_cons.mp h.sorted
    simp only [schedWakeupExpiredTimeouts]
    rw [if_neg hne, hobj, Option.bind_some]
    by_cases hlate : (s.tcb t).wakeupTime > curtime
    · rw [if_pos hlate]
      refine ⟨s, q, place, [], t :: ts, rfl, h, .refl s, List.prefix_rfl,
        rfl, by simp, fun u hu => ?_⟩
      rcases List.mem_cons.mp hu with rfl | hu
      · exact hlate
      · exact Nat.lt_of_lt_of_le hlate (hsort.1 u hu)
    · rw [if_neg hlate]
      have hst := h.stopped t List.mem_cons_self
      obtain ⟨s₁, q₁, place₁, he, hinv, hwakes, hq⟩ :=
        h.makeReady (.inl hst) (h.allocated (by rw [hst]; decide))
      rw [List.erase_cons_head] at hinv
      have hnot : t ∉ ts := (List.nodup_cons.mp h.lists.nodup_timeouts).1
      have hkeep : ∀ u ∈ ts, s₁.tcb u = s.tcb u := by
        intro u hu
        apply hwakes.same
        simp only [List.mem_singleton]
        rintro rfl
        exact hnot hu
      obtain ⟨s', q', place', l, ts', he', hinv', hwakes', hq', hts, hdue, hrest⟩ := ih hinv hlen
      have hmem : ∀ u, u ∈ l ∨ u ∈ ts' → u ∈ ts := by
        intro u hu
        rw [hts]
        exact List.mem_append.mpr hu
      have htl : t ∉ l := fun hm => hnot (hmem t (.inl hm))
      refine ⟨s', q', place', t :: l, ts', by rw [he, Option.bind_some, he'],
        hinv', hwakes.cons hwakes' htl, ?_,
        by rw [hts]; rfl, fun u hu => ?_, fun u hu => ?_⟩
      · rcases hq with rfl | rfl
        · exact hq'
        · exact (List.prefix_append q [t]).trans hq'
      · rcases List.mem_cons.mp hu with rfl | hu
        · exact Nat.le_of_not_lt hlate
        · rw [← hkeep u (hmem u (.inl hu))]
          exact hdue u hu
      · rw [← hkeep u (hmem u (.inr hu))]
        exact hrest u hu

/-- A thread that sleeps is a normal one. -/
theorem Sched.Inv.normal_of_stopped (h : s.Inv q ts place) (hs : (s.tcb t).state = .stopped) :
    t.normal = true := by
  have hok := h.thread t
  cases hp : place t with
  | parked =>
    rw [hp] at hok
    exact hok.2.2.2
  | onCore c =>
    rw [hp] at hok
    cases hn : t.normal with
    | true => rfl
    | false =>
      rcases hok.2.2.2.2 hn with hr | hr <;> · rw [hs] at hr; cases hr
  | _ =>
    rw [hp] at hok
    have hst := hok.1
    rw [hs] at hst
    cases hst

theorem Sched.Inv.length_timeouts (h : s.Inv q ts place) : ts.length ≤ s.spawned := by
  have hsub : ts ⊆ (List.range s.spawned).map TcbId.thread := by
    intro t ht
    have hst := h.stopped t ht
    have hnormal := h.normal_of_stopped hst
    cases t with
    | idle c => simp [TcbId.normal] at hnormal
    | thread n =>
      apply List.mem_map_of_mem
      rw [List.mem_range]
      by_contra hn
      exact h.allocated (by rw [hst]; decide) n (Nat.le_of_not_lt hn) rfl
  have hlen := (h.lists.nodup_timeouts.subperm hsub).length_le
  simpa using hlen

/-- The search stops before the first entry that is later. -/
theorem seekLater_spec (hl : SchedLists s.nodes q (l ++ m)) (hfuel : m.length < fuel) :
    ∃ m₁ m₂, m = m₁ ++ m₂ ∧ seekLater s n fuel (nodeOf m) = some (nodeOf m₂) ∧
      (∀ u ∈ m₁, (s.tcb u).wakeupTime ≤ n) ∧ ∀ u ∈ m₂.head?, n < (s.tcb u).wakeupTime := by
  induction m generalizing l fuel with
  | nil =>
    obtain ⟨fuel, rfl⟩ : ∃ f, fuel = f + 1 := ⟨fuel - 1, by simp at hfuel; omega⟩
    refine ⟨[], [], rfl, ?_, by simp, by simp⟩
    simp [seekLater, nodeOf]
  | cons t m ih =>
    obtain ⟨fuel, rfl⟩ : ∃ f, fuel = f + 1 := ⟨fuel - 1, by simp at hfuel; omega⟩
    have hlen : m.length < fuel := by simpa using hfuel
    have hhead : nodeOf (t :: m) = .tcb t := rfl
    have hstep : seekLater s n (fuel + 1) (nodeOf (t :: m)) =
        if n < (s.tcb t).wakeupTime then some (.tcb t) else seekLater s n fuel (nodeOf m) := by
      rw [hhead, seekLater, if_neg (tcb_ne_head t _), hl.obj_tcb, Option.bind_some, hl.next]
    rw [hstep]
    by_cases hlt : n < (s.tcb t).wakeupTime
    · refine ⟨[], t :: m, rfl, by rw [if_pos hlt]; rfl, by simp, fun u hu => ?_⟩
      obtain rfl : t = u := by simpa using hu
      exact hlt
    · have hl' : SchedLists s.nodes q ((l ++ [t]) ++ m) := by simpa using hl
      obtain ⟨m₁, m₂, hm, he, hle, hgt⟩ := ih hl' hlen
      refine ⟨t :: m₁, m₂, by rw [hm]; rfl, by rw [if_neg hlt, he], fun u hu => ?_, hgt⟩
      rcases List.mem_cons.mp hu with rfl | hu
      · exact Nat.le_of_not_lt hlt
      · exact hle u hu

/-- What `sched_register_timeout` does to the list. -/
theorem schedRegisterTimeout_spec (timeout curtime : Nat) (hlists : SchedLists s.nodes q ts)
    (hsort : ts.Pairwise fun a b => (s.tcb a).wakeupTime ≤ (s.tcb b).wakeupTime)
    (hlen : ts.length ≤ s.spawned) (ht : t ∉ q) (hts : t ∉ ts)
    (hst : (s.tcb t).wakeupTime = noTimeout) :
    ∃ s' ts', schedRegisterTimeout s t timeout curtime = some s' ∧ SchedLists s'.nodes q ts' ∧
      s' = { s with
        tcb := Function.update s.tcb t { s.tcb t with
          wakeupTime := if timeout ≠ noTimeout then (curtime + timeout) % 2 ^ 64 else noTimeout }
        nodes := s'.nodes } ∧
      (∀ u, u ∈ ts' ↔ u ∈ ts ∨ timeout ≠ noTimeout ∧ u = t) ∧
      ts'.Pairwise fun a b => (s'.tcb a).wakeupTime ≤ (s'.tcb b).wakeupTime := by
  unfold schedRegisterTimeout
  by_cases htime : timeout ≠ noTimeout
  · rw [if_pos htime]
    have hkeep : ∀ u ∈ ts,
      ((s.setTcb t fun x => { x with wakeupTime := (curtime + timeout) % 2 ^ 64 }).tcb u) =
        s.tcb u := by
      intro u hu
      have hne : u ≠ t := fun he => hts (he ▸ hu)
      simp [Sched.setTcb, hne]
    have hself :
        ((s.setTcb t fun x => { x with wakeupTime := (curtime + timeout) % 2 ^ 64 }).tcb
          t).wakeupTime = (curtime + timeout) % 2 ^ 64 := by simp [Sched.setTcb]
    have hl : SchedLists
      (s.setTcb t fun x => { x with wakeupTime := (curtime + timeout) % 2 ^ 64 }).nodes q
        ([] ++ ts) := hlists
    obtain ⟨m₁, m₂, hm, he, hle, hgt⟩ := seekLater_spec (n := (curtime + timeout) % 2 ^ 64) hl
      (Nat.lt_succ_of_le hlen)
    have hfirst : ((s.setTcb t fun x => { x with wakeupTime := (curtime + timeout) % 2 ^ 64 }).nodes
        (.head .timeoutList)).next = nodeOf ts := hlists.first
    have hspawned :
        (s.setTcb t fun x => { x with wakeupTime := (curtime + timeout) % 2 ^ 64 }).spawned =
        s.spawned := rfl
    simp only [hself, hspawned, hfirst]
    rw [he]
    have hlists' : SchedLists s.nodes q (m₁ ++ m₂) := hm ▸ hlists
    refine ⟨_, m₁ ++ t :: m₂, rfl, hlists'.insert ht (hm ▸ hts), by simp [Sched.setTcb, htime],
      fun u => ?_, ?_⟩
    · rw [hm]
      simp only [List.mem_append, List.mem_cons]
      tauto
    · rw [hm] at hsort hkeep
      have hsorted : (m₁ ++ m₂).Pairwise fun a b =>
          ((s.setTcb t fun x => { x with wakeupTime := (curtime + timeout) % 2 ^ 64 }).tcb
            a).wakeupTime ≤
          ((s.setTcb t fun x => { x with wakeupTime := (curtime + timeout) % 2 ^ 64 }).tcb
            b).wakeupTime := by
        refine hsort.imp_of_mem fun {a b} ha hb hab => ?_
        rw [hkeep a ha, hkeep b hb]
        exact hab
      have hparts := List.pairwise_append.mp hsorted
      refine List.pairwise_append.mpr
        ⟨hparts.1, List.pairwise_cons.mpr ⟨fun u hu => ?_, hparts.2.1⟩,
        fun a ha b hb => ?_⟩
      · -- the first entry behind the new one is later, and the others are not earlier than that
        rw [hself]
        cases m₂ with
        | nil => simp at hu
        | cons v m₂ =>
          have hv := hgt v (by simp)
          rcases List.mem_cons.mp hu with rfl | hu
          · exact Nat.le_of_lt hv
          · exact Nat.le_of_lt (Nat.lt_of_lt_of_le hv ((List.pairwise_cons.mp hparts.2.1).1 u hu))
      · rcases List.mem_cons.mp hb with rfl | hb
        · rw [hself]
          exact hle a ha
        · exact hparts.2.2 a ha b hb
  · rw [if_neg htime]
    refine ⟨s, ts, rfl, hlists, ?_, fun u => ?_, hsort⟩
    · rw [if_neg htime, ← hst, Function.update_eq_self]
    · simp [htime]

/-- A core knows only of the threads that are placed with it. -/
theorem Sched.Inv.coreOk (h : s.Inv q ts place) {d : Nat} (hcore : s'.core d = s.core d)
    (hsame : ∀ u, place u = .onCore d ∨ place u = .selected d → s'.tcb u = s.tcb u) :
    s'.CoreOk d := by
  have hok := h.cores d
  have hstack : ∀ u, (s.core d).stack = some u → s'.tcb u = s.tcb u :=
    fun u hu => hsame u (.inl ((h.stack d u).mp hu))
  have hnext : ∀ u, (s.core d).next = some u → s'.tcb u = s.tcb u :=
    fun u hu => hsame u (.inr ((h.next d u).mp hu))
  unfold Sched.CoreOk at hok ⊢
  rw [hcore]
  cases hpc : (s.core d).pc with
  | gaining =>
    simp only [hpc] at hok ⊢
    obtain ⟨hcur, p, hp, hstate⟩ := hok
    have hprev : s'.tcb p = s.tcb p := hstack p (by simpa [Core.stack, hpc] using hp)
    have hself : s'.tcb (s.core d).current = s.tcb (s.core d).current := by
      by_cases he : (s.core d).previous = some (s.core d).current
      · exact hstack _ (by simpa [Core.stack, hpc] using he)
      · exact hnext _ (by simp [Core.next, hpc, he])
    rw [hself]
    exact ⟨hcur, p, hp, by rw [hprev]; exact hstate⟩
  | _ =>
    have hself : s'.tcb (s.core d).current = s.tcb (s.core d).current :=
      hstack _ (by simp [Core.stack, hpc])
    simp only [hpc] at hok ⊢
    rw [hself]
    exact hok

/-- The running thread changes and its core goes on, still on the same stack. -/
theorem Sched.Inv.onStack {k : Core} {x : SchedTcb} {ts' : List TcbId} (h : s.Inv q ts place)
    (ht : place t = .onCore c) (hcore : s'.core = Function.update s.core c k)
    (hstack : k.stack = (s.core c).stack) (hnext : k.next = (s.core c).next)
    (htcb : s'.tcb = Function.update s.tcb t x) (hspawned : s'.spawned = s.spawned)
    (hok : (Place.onCore c).Ok t x) (hcoreOk : s'.CoreOk c) (hlists : SchedLists s'.nodes q ts')
    (hmem : ∀ u, u ≠ t → (u ∈ ts' ↔ u ∈ ts)) (htime : t ∈ ts' ↔ x.wakeupTime ≠ noTimeout)
    (hstopped : t ∈ ts' → x.state = .stopped)
    (hsorted : ts'.Pairwise fun a b => (s'.tcb a).wakeupTime ≤ (s'.tcb b).wakeupTime) :
    s'.Inv q ts' place := by
  have hself : s'.tcb t = x := by simp [htcb]
  have hother : ∀ u, u ≠ t → s'.tcb u = s.tcb u := by
    intro u hu
    simp [htcb, hu]
  refine ⟨hlists, fun d u => ?_, fun d u => ?_, h.queue, fun u => ?_, fun u => ?_,
    fun u hu => ?_, hsorted, fun d => ?_,
    fun n hn => ?_⟩
  · by_cases hd : d = c
    · subst hd
      rw [hcore, Function.update_self, hstack]
      exact h.stack d u
    · rw [hcore, Function.update_of_ne hd]
      exact h.stack d u
  · by_cases hd : d = c
    · subst hd
      rw [hcore, Function.update_self, hnext]
      exact h.next d u
    · rw [hcore, Function.update_of_ne hd]
      exact h.next d u
  · by_cases hu : u = t
    · rw [hu, hself, ht]
      exact hok
    · rw [hother u hu]
      exact h.thread u
  · by_cases hu : u = t
    · rw [hu, hself]
      exact htime
    · rw [hother u hu, hmem u hu]
      exact h.timeouts u
  · by_cases hut : u = t
    · rw [hut, hself]
      exact hstopped (hut ▸ hu)
    · rw [hother u hut]
      exact h.stopped u ((hmem u hut).mp hu)
  · by_cases hd : d = c
    · rw [hd]
      exact hcoreOk
    · apply h.coreOk
      · rw [hcore, Function.update_of_ne hd]
      · intro u hu
        apply hother
        rintro rfl
        rw [ht] at hu
        rcases hu with hu | hu
        · exact hd (Place.onCore.inj hu).symm
        · cases hu
  · rw [hspawned] at hn
    rw [hother]
    · exact h.fresh n hn
    · rintro rfl
      have hok' := h.thread (.thread n)
      rw [ht, h.fresh n hn] at hok'
      exact hok'.2.1 rfl

theorem Sched.Inv.current (h : s.Inv q ts place)
    (hpc : (s.core c).pc = .running ∨ (s.core c).pc = .yielding) :
    place (s.core c).current = .onCore c := by
  rw [← h.stack]
  rcases hpc with hpc | hpc <;> simp [Core.stack, hpc]

/-- The stretch of `sleep_releasing` under the lock, where the sum of the clock and the timeout is
not the value that stands for no timeout. -/
theorem Sched.Inv.sleep (timeout curtime : Nat) (h : s.Inv q ts place)
    (hpc : (s.core c).pc = .running)
    (ht : (s.core c).current = t) (hn : t.normal = true) (exit : Bool)
    (hok : exit = false → timeout ≠ noTimeout → (curtime + timeout) % 2 ^ 64 ≠ noTimeout) :
    ∃ s' ts', sleepReleasing s c (if exit then .exited else .stopped) timeout curtime = some s' ∧
      s'.Inv q ts' place ∧
      s' = { s with
        core := Function.update s.core c { s.core c with pc := .yielding }
        tcb := Function.update s.tcb t { s.tcb t with
          state := if exit then .exited else .stopped
          wakeupTime := if exit = false ∧ timeout ≠ noTimeout then (curtime + timeout) % 2 ^ 64
            else noTimeout }
        nodes := s'.nodes } := by
  subst ht
  have hplace := h.current (.inl hpc)
  have hrun : (s.tcb (s.core c).current).state = .running := by
    have hc := h.cores c
    unfold Sched.CoreOk at hc
    simpa only [hpc] using hc
  have hq : (s.core c).current ∉ q := h.notMem_sched (by rw [hrun]; decide)
  have hts : (s.core c).current ∉ ts := h.notMem_timeouts (by rw [hrun]; decide)
  have hw : (s.tcb (s.core c).current).wakeupTime = noTimeout := by
    by_contra hw
    exact hts ((h.timeouts _).mpr hw)
  have hcoreStack : ({ s.core c with pc := .yielding } : Core).stack = (s.core c).stack := by
    simp [Core.stack, hpc]
  have hcoreNext : ({ s.core c with pc := .yielding } : Core).next = (s.core c).next := by
    simp [Core.next, hpc]
  have hthread := h.thread (s.core c).current
  rw [hplace] at hthread
  have hkeep : ∀ (x : SchedTcb) (u : TcbId), u ∈ ts → Function.update s.tcb (s.core c).current x u =
      s.tcb u := by
    intro x u hu
    have hne : u ≠ (s.core c).current := fun he => hts (he ▸ hu)
    simp [hne]
  cases exit with
  | true =>
    refine ⟨_, ts, rfl, h.onStack (t := (s.core c).current)
      (x := { s.tcb (s.core c).current with state := .exited })
      hplace rfl hcoreStack hcoreNext rfl rfl ?_ ?_ h.lists (fun _ _ => .rfl) ?_
        (fun hm => absurd hm hts) ?_, ?_⟩
    · refine ⟨hthread.1, by simp, hthread.2.2.1, hthread.2.2.2.1, fun hi => ?_⟩
      rw [hn] at hi
      cases hi
    · simp [Sched.CoreOk, Sched.setCore, Sched.setTcb]
    · exact h.timeouts _
    · refine h.sorted.imp_of_mem fun {a b} ha hb hab => ?_
      show (Function.update s.tcb _ _ a).wakeupTime ≤ (Function.update s.tcb _ _ b).wakeupTime
      rw [hkeep _ a ha, hkeep _ b hb]
      exact hab
    · simp [Sched.setTcb, Sched.setCore, ← hw]
  | false =>
    have hsort : ts.Pairwise fun a b =>
        ((s.setTcb (s.core c).current fun x => { x with state := .stopped }).tcb a).wakeupTime ≤
        ((s.setTcb (s.core c).current fun x => { x with state := .stopped }).tcb b).wakeupTime := by
      refine h.sorted.imp_of_mem fun {a b} ha hb hab => ?_
      show (Function.update s.tcb _ _ a).wakeupTime ≤ (Function.update s.tcb _ _ b).wakeupTime
      rw [hkeep _ a ha, hkeep _ b hb]
      exact hab
    obtain ⟨s₁, ts', he, hl, hs₁, hmem, hsorted⟩ := schedRegisterTimeout_spec timeout curtime
      (t := (s.core c).current)
      (s := s.setTcb (s.core c).current fun x => { x with state := .stopped })
      h.lists hsort h.length_timeouts hq hts
      (by simpa [Sched.setTcb] using hw)
    have htcb₁ : s₁.tcb = Function.update s.tcb (s.core c).current { s.tcb (s.core c).current with
        state := .stopped
        wakeupTime := if timeout ≠ noTimeout then (curtime + timeout) % 2 ^ 64
          else noTimeout } := by
      rw [hs₁]
      simp [Sched.setTcb]
    have hcore₁ : s₁.core = s.core := by rw [hs₁]; rfl
    have hspawned₁ : s₁.spawned = s.spawned := by rw [hs₁]; rfl
    have he' : sleepReleasing s c .stopped timeout curtime =
        some (s₁.setCore c { s.core c with pc := .yielding }) := by
      unfold sleepReleasing
      simp only [ne_eq, reduceCtorEq, not_false_eq_true, if_true]
      rw [he, Option.map_some, hcore₁]
    refine ⟨_, ts', he', h.onStack (t := (s.core c).current) hplace
      (by rw [← hcore₁]; rfl) hcoreStack hcoreNext
      htcb₁ hspawned₁ ?_ ?_ hl (fun u hu => ?_) ?_ (fun _ => rfl) hsorted, ?_⟩
    · refine ⟨hthread.1, by simp, hthread.2.2.1, hthread.2.2.2.1, fun hi => ?_⟩
      rw [hn] at hi
      cases hi
    · simp [Sched.CoreOk, Sched.setCore, htcb₁]
    · rw [hmem]
      simp [hu]
    · rw [hmem]
      by_cases htime : timeout ≠ noTimeout
      · simpa [htime] using hok rfl htime
      · simp [htime, hts]
    · rw [hs₁]
      simp [Sched.setCore, Sched.setTcb]

theorem enterYield_core (s : Sched) (c : Nat) :
    (s.enterYield c).core = Function.update s.core c { s.core c with pc := .yielding } := by
  by_cases hr : (s.tcb (s.core c).current).state = .running
  · simp [Sched.enterYield, Sched.setCore, Sched.setTcb, hr]
  · simp [Sched.enterYield, Sched.setCore, hr]

theorem enterYield_tcb (s : Sched) (c : Nat) :
    (s.enterYield c).tcb = Function.update s.tcb (s.core c).current
      { s.tcb (s.core c).current with
        state := if (s.tcb (s.core c).current).state = .running then .ready
          else (s.tcb (s.core c).current).state } := by
  by_cases hr : (s.tcb (s.core c).current).state = .running
  · simp [Sched.enterYield, Sched.setCore, Sched.setTcb, hr]
  · simp [Sched.enterYield, Sched.setCore, hr]

theorem enterYield_rest (s : Sched) (c : Nat) :
    (s.enterYield c).nodes = s.nodes ∧ (s.enterYield c).spawned = s.spawned ∧
    (s.enterYield c).cores = s.cores ∧
      (s.enterYield c).activeThreads = s.activeThreads ∧ (s.enterYield c).spinlock = s.spinlock ∧
      (s.enterYield c).aborted = s.aborted := by
  by_cases hr : (s.tcb (s.core c).current).state = .running
  · simp [Sched.enterYield, Sched.setCore, Sched.setTcb, hr]
  · simp [Sched.enterYield, Sched.setCore, hr]

theorem Sched.Inv.enterYield (h : s.Inv q ts place)
    (hpc : (s.core c).pc = .running ∨ (s.core c).pc = .yielding) :
    (s.enterYield c).Inv q ts place := by
  have hplace := h.current hpc
  obtain ⟨hnodes, hspawned, -⟩ := enterYield_rest s c
  have hthread := h.thread (s.core c).current
  rw [hplace] at hthread
  have hstack : ({ s.core c with pc := .yielding } : Core).stack = (s.core c).stack := by
    rcases hpc with hpc | hpc <;> simp [Core.stack, hpc]
  have hnext : ({ s.core c with pc := .yielding } : Core).next = (s.core c).next := by
    rcases hpc with hpc | hpc <;> simp [Core.next, hpc]
  have hstate : ((s.enterYield c).tcb (s.core c).current).state ≠ .running := by
    rw [enterYield_tcb, Function.update_self]
    dsimp only
    split
    · decide
    · rename_i hr
      exact hr
  refine h.onStack hplace (enterYield_core s c) hstack hnext (enterYield_tcb s c) hspawned ?_ ?_
    (by rw [hnodes]; exact h.lists) (fun _ _ => .rfl) (h.timeouts _) (fun hm => ?_) ?_
  · refine ⟨hthread.1, ?_, hthread.2.2.1, hthread.2.2.2.1, fun hi => ?_⟩
    · dsimp only
      split
      · decide
      · exact hthread.2.1
    · dsimp only
      split
      · exact .inr rfl
      · exact hthread.2.2.2.2 hi
  · unfold Sched.CoreOk
    rw [enterYield_core, Function.update_self]
    exact hstate
  · have hst := h.stopped _ hm
    dsimp only
    rw [if_neg (by rw [hst]; decide)]
    exact hst
  · refine h.sorted.imp fun {a b} hab => ?_
    have hwake : ∀ u, ((s.enterYield c).tcb u).wakeupTime = (s.tcb u).wakeupTime := by
      intro u
      rw [enterYield_tcb]
      by_cases hu : u = (s.core c).current
      · subst hu
        simp
      · simp [hu]
    rw [hwake, hwake]
    exact hab

theorem Sched.Inv.expire (curtime : Nat) (h : s.Inv q ts place)
    (hpc : (s.core c).pc = .running ∨ (s.core c).pc = .yielding) :
    ∃ s' q' place' l ts', yieldExpire s c curtime = some s' ∧ s'.Inv q' ts' place' ∧
      (s.enterYield c).Wakes s' l ∧ q <+: q' ∧ ts = l ++ ts' ∧
      (∀ u ∈ l, ((s.enterYield c).tcb u).wakeupTime ≤ curtime) ∧
      ∀ u ∈ ts', curtime < ((s.enterYield c).tcb u).wakeupTime := by
  have hinv := h.enterYield hpc
  have hlen := hinv.length_timeouts
  rw [(enterYield_rest s c).2.1] at hlen
  exact hinv.wakeupExpired (Nat.lt_succ_of_le hlen)

theorem schedQueueSelect_cons (hl : SchedLists s.nodes (t :: q) ts) (u : TcbId) :
    (schedQueueSelect s c u).2 = (t, true) ∧ SchedLists (schedQueueSelect s c u).1.nodes q ts := by
  obtain ⟨hsel, hpop⟩ := hl.pop
  have hobj :
      ((rlistPopFront s.nodes (.head .sched)).1 (rlistPopFront s.nodes (.head .sched)).2).obj =
      some t := by
    rw [hsel]
    exact hpop.obj_tcb t
  unfold schedQueueSelect
  simp only [hobj]
  exact ⟨trivial, hpop⟩

theorem schedQueueSelect_nil (hl : SchedLists s.nodes [] ts) (u : TcbId) :
    (schedQueueSelect s c u).2 = (if (s.tcb u).state = .ready then u else .idle c, false) ∧
      SchedLists (schedQueueSelect s c u).1.nodes [] ts := by
  obtain ⟨hsel, hpop⟩ := hl.pop_nil
  have hobj :
      ((rlistPopFront s.nodes (.head .sched)).1 (rlistPopFront s.nodes (.head .sched)).2).obj =
      none := by
    rw [hsel]
    exact hpop.obj_head _
  unfold schedQueueSelect
  simp only [hobj]
  exact ⟨trivial, hpop⟩

theorem schedQueueSelect_rest (s : Sched) (c : Nat) (u : TcbId) :
    (schedQueueSelect s c u).1 = { s with nodes := (schedQueueSelect s c u).1.nodes } := by
  unfold schedQueueSelect
  dsimp only
  split <;> rfl

theorem Sched.Inv.select (h : s.Inv q ts place) (hpc : (s.core c).pc = .yielding)
    (hcore : s'.core =
      Function.update s.core c ⟨(s.core c).current, some (s.core c).current, .switching t⟩)
    (htcb : s'.tcb = s.tcb) (hspawned : s'.spawned = s.spawned) {q' : List TcbId}
    (hq : ∀ u, u ∈ q' ↔ u ∈ q ∧ u ≠ t) (hl : SchedLists s'.nodes q' ts)
    (ht : place t = .queued ∨ place t = .resting ∧ t = .idle c) :
    s'.Inv q' ts (Function.update place t (.selected c)) := by
  have hplace := h.current (.inr hpc)
  have hthread := h.thread t
  have hne : t ≠ (s.core c).current := by
    rintro rfl
    rw [hplace] at ht
    rcases ht with ht | ⟨ht, -⟩ <;> cases ht
  refine ⟨hl, fun d u => ?_, fun d u => ?_, fun u => ?_, fun u => ?_,
    by rw [htcb]; exact h.timeouts, by rw [htcb]; exact h.stopped, by rw [htcb]; exact h.sorted,
    fun d => ?_, by rw [htcb, hspawned]; exact h.fresh⟩
  · have hold : (s'.core d).stack = (s.core d).stack := by
      rw [hcore]
      by_cases hd : d = c
      · subst hd
        simp [Core.stack, hpc]
      · simp [hd]
    rw [hold, h.stack]
    by_cases hu : u = t
    · subst hu
      rcases ht with ht | ⟨ht, -⟩ <;> simp [ht]
    · simp [hu]
  · rw [hcore]
    by_cases hd : d = c
    · subst hd
      have hnone : (s.core d).next = none := by simp [Core.next, hpc]
      have hold := h.next d u
      rw [hnone] at hold
      by_cases hu : u = t
      · simp [Core.next, hu]
      · simpa [Core.next, hu, Ne.symm hu] using hold
    · rw [Function.update_of_ne hd, h.next]
      by_cases hu : u = t
      · subst hu
        rcases ht with ht | ⟨ht, -⟩ <;> simp [ht, Ne.symm hd]
      · simp [hu]
  · rw [hq]
    by_cases hu : u = t
    · simp [hu]
    · simp [hu, h.queue]
  · rw [htcb]
    by_cases hu : u = t
    · subst hu
      rw [Function.update_self]
      rcases ht with ht | ⟨ht, hidle⟩
      · rw [ht] at hthread
        refine ⟨hthread.1, hthread.2.1, hthread.2.2.1, ?_⟩
        cases u with
        | idle d => cases hthread.2.2.2
        | thread n => rfl
      · rw [ht] at hthread
        exact ⟨hthread.1, hthread.2.1, hthread.2.2.1, by rw [hidle]; simp [TcbId.fits]⟩
    · rw [Function.update_of_ne hu]
      exact h.thread u
  · by_cases hd : d = c
    · subst hd
      have hok := h.cores d
      unfold Sched.CoreOk at hok ⊢
      simp only [hpc] at hok
      rw [hcore, Function.update_self, htcb]
      exact ⟨hok, rfl⟩
    · apply h.coreOk
      · rw [hcore, Function.update_of_ne hd]
      · intro u _
        rw [htcb]

theorem yieldSelect_rest (s : Sched) (c : Nat) :
    (yieldSelect s c).tcb = s.tcb ∧ (yieldSelect s c).spawned = s.spawned ∧
    (yieldSelect s c).cores = s.cores ∧
      (yieldSelect s c).activeThreads = s.activeThreads ∧ (yieldSelect s c).spinlock = s.spinlock ∧
      (yieldSelect s c).aborted = s.aborted := by
  have hrest := schedQueueSelect_rest s c (s.core c).current
  unfold yieldSelect
  dsimp only
  rw [hrest]
  exact ⟨rfl, rfl, rfl, rfl, rfl, rfl⟩

theorem yieldSelect_core (s : Sched) (c : Nat) : (yieldSelect s c).core = Function.update s.core c
    ⟨(s.core c).current, some (s.core c).current,
      if (s.core c).current ≠ (schedQueueSelect s c (s.core c).current).2.1 then
        .switching (schedQueueSelect s c (s.core c).current).2.1 else .gaining⟩ := by
  have hrest := schedQueueSelect_rest s c (s.core c).current
  unfold yieldSelect
  dsimp only
  rw [hrest]
  rfl

/-- The first thread of the queue is selected; if there is none, the core stays with its thread when
that is ready, and turns to its idle thread otherwise. -/
theorem Sched.Inv.yieldSelect (h : s.Inv q ts place) (hpc : (s.core c).pc = .yielding) :
    ∃ place', (TinyOS.yieldSelect s c).Inv q.tail ts place' := by
  have hplace := h.current (.inr hpc)
  have hcore := yieldSelect_core s c
  obtain ⟨htcb, hspawned, -⟩ := yieldSelect_rest s c
  cases q with
  | cons t q =>
    obtain ⟨hsel, hl⟩ := schedQueueSelect_cons (c := c) h.lists (s.core c).current
    have hqueued : place t = .queued := (h.queue t).mp List.mem_cons_self
    have hne : (s.core c).current ≠ t := by
      rintro rfl
      rw [hplace] at hqueued
      cases hqueued
    have hnot := (List.nodup_cons.mp h.lists.nodup_sched).1
    rw [hsel, if_pos hne] at hcore
    refine ⟨_, h.select hpc hcore htcb hspawned (fun u => ?_) hl (.inl hqueued)⟩
    constructor
    · intro hu
      refine ⟨List.mem_cons_of_mem _ hu, ?_⟩
      rintro rfl
      exact hnot hu
    · rintro ⟨hu, hne'⟩
      exact (List.mem_cons.mp hu).resolve_left hne'
  | nil =>
    obtain ⟨hsel, hl⟩ := schedQueueSelect_nil (c := c) h.lists (s.core c).current
    have hthread := h.thread (s.core c).current
    rw [hplace] at hthread
    have hok := h.cores c
    unfold Sched.CoreOk at hok
    simp only [hpc] at hok
    rw [hsel] at hcore
    by_cases hready : (s.tcb (s.core c).current).state = .ready
    · rw [if_pos hready, if_neg (not_not.mpr rfl)] at hcore
      have hself : Function.update s.tcb (s.core c).current (s.tcb (s.core c).current) = s.tcb :=
        Function.update_eq_self _ _
      refine ⟨place, h.onStack (x := s.tcb (s.core c).current) hplace hcore ?_ ?_
        (by rw [htcb, hself]) hspawned
        hthread ?_ hl (fun _ _ => .rfl) (h.timeouts _) (h.stopped _) (by rw [htcb]; exact h.sorted)⟩
      · simp [Core.stack, hpc]
      · simp [Core.next, hpc]
      · unfold Sched.CoreOk
        rw [hcore, Function.update_self, htcb]
        exact ⟨hready, _, rfl, hok⟩
    · -- a thread that is not ready is not the idle one, which rests
      have hne : (s.core c).current ≠ .idle c := by
        intro he
        rcases hthread.2.2.2.2 (by rw [he]; rfl) with hr | hr
        · exact hok hr
        · exact hready hr
      rw [if_neg hready, if_pos hne] at hcore
      refine ⟨_, h.select hpc hcore htcb hspawned (fun u => by simp) hl (.inr ⟨?_, rfl⟩)⟩
      have hidle := h.thread (.idle c)
      cases hp : place (.idle c) with
      | resting => rfl
      | onCore d =>
        rw [hp] at hidle
        obtain rfl : c = d := by simpa [TcbId.fits] using hidle.2.2.2.1
        have hst := (h.stack c _).mpr hp
        have hst' := (h.stack c _).mpr hplace
        rw [hst] at hst'
        exact absurd (Option.some.inj hst').symm hne
      | selected d =>
        rw [hp] at hidle
        obtain rfl : c = d := by simpa [TcbId.fits] using hidle.2.2.2
        have hnx := (h.next c _).mpr hp
        simp [Core.next, hpc] at hnx
      | fresh | queued | parked | gone =>
        rw [hp] at hidle
        cases hidle.2.2.2

theorem Sched.Inv.switch (h : s.Inv q ts place) (hpc : (s.core c).pc = .switching t) :
    (s.setCore c { s.core c with current := t, pc := .gaining }).Inv q ts place := by
  have hok := h.cores c
  unfold Sched.CoreOk at hok
  simp only [hpc] at hok
  have hold : place (s.core c).current = .onCore c := by
    rw [← h.stack]
    simp [Core.stack, hpc]
  have hsel : place t = .selected c := by
    rw [← h.next]
    simp [Core.next, hpc]
  have hne : (s.core c).current ≠ t := by
    rintro rfl
    rw [hold] at hsel
    cases hsel
  have hthread := h.thread t
  rw [hsel] at hthread
  refine ⟨h.lists, fun d u => ?_, fun d u => ?_, h.queue, h.thread, h.timeouts,
    h.stopped, h.sorted, fun d => ?_,
    h.fresh⟩
  · rw [← h.stack d u]
    by_cases hd : d = c
    · subst hd
      simp [Sched.setCore, Core.stack, hpc, hok.2]
    · simp [Sched.setCore, hd]
  · rw [← h.next d u]
    by_cases hd : d = c
    · subst hd
      simp [Sched.setCore, Core.next, hpc, hok.2, hne]
    · simp [Sched.setCore, hd]
  · by_cases hd : d = c
    · subst hd
      simp only [Sched.CoreOk, Sched.setCore, Function.update_self]
      exact ⟨hthread.1, _, hok.2, hok.1⟩
    · exact h.coreOk (by simp [Sched.setCore, hd]) fun _ _ => rfl

section Handover

/-! Core `c` takes up thread `t`, which was selected for it, and the thread `p` that was on it
goes to the place `pl`. -/

variable {p : TcbId} {pl : Place} {k : Core}

theorem Sched.Inv.handover_stack (h : s.Inv q ts place) (hp : place p = .onCore c)
    (ht : place t = .selected c) (hne : t ≠ p) (hcore : s'.core = Function.update s.core c k)
    (hk : k.stack = some t) (hpl : ∀ d, pl ≠ .onCore d) (d : Nat) (u : TcbId) :
    (s'.core d).stack = some u ↔
      Function.update (Function.update place t (.onCore c)) p pl u = .onCore d := by
  have hold : (s.core c).stack = some p := (h.stack c p).mpr hp
  by_cases hd : d = c
  · subst hd
    rw [hcore, Function.update_self, hk]
    by_cases hup : u = p
    · subst hup
      rw [Function.update_self]
      exact iff_of_false (by simpa using hne) (hpl d)
    · rw [Function.update_of_ne hup]
      by_cases hu : u = t
      · subst hu
        rw [Function.update_self]
        exact iff_of_true rfl rfl
      · rw [Function.update_of_ne hu, ← h.stack, hold]
        simp [Ne.symm hu, Ne.symm hup]
  · rw [hcore, Function.update_of_ne hd, h.stack]
    by_cases hup : u = p
    · subst hup
      rw [Function.update_self, hp]
      exact iff_of_false (by simpa using Ne.symm hd) (hpl d)
    · rw [Function.update_of_ne hup]
      by_cases hu : u = t
      · subst hu
        rw [Function.update_self, ht]
        simpa using Ne.symm hd
      · rw [Function.update_of_ne hu]

theorem Sched.Inv.handover_next (h : s.Inv q ts place) (hp : place p = .onCore c)
    (ht : place t = .selected c) (hcore : s'.core = Function.update s.core c k)
    (hk : k.next = none) (hpl : ∀ d, pl ≠ .selected d) (d : Nat) (u : TcbId) :
    (s'.core d).next = some u ↔
      Function.update (Function.update place t (.onCore c)) p pl u = .selected d := by
  have hold : (s.core c).next = some t := (h.next c t).mpr ht
  by_cases hd : d = c
  · subst hd
    rw [hcore, Function.update_self, hk]
    refine iff_of_false (by simp) fun hu => ?_
    by_cases hup : u = p
    · subst hup
      rw [Function.update_self] at hu
      exact hpl d hu
    · rw [Function.update_of_ne hup] at hu
      by_cases hut : u = t
      · subst hut
        rw [Function.update_self] at hu
        cases hu
      · rw [Function.update_of_ne hut, ← h.next, hold] at hu
        exact hut (Option.some.inj hu).symm
  · rw [hcore, Function.update_of_ne hd, h.next]
    by_cases hup : u = p
    · subst hup
      rw [Function.update_self, hp]
      exact iff_of_false (by simp) (hpl d)
    · rw [Function.update_of_ne hup]
      by_cases hu : u = t
      · subst hu
        rw [Function.update_self, ht]
        simpa using Ne.symm hd
      · rw [Function.update_of_ne hu]

theorem Sched.Inv.handover_queue {q' : List TcbId} (h : s.Inv q ts place)
    (hp : place p = .onCore c) (ht : place t = .selected c) (hne : t ≠ p)
    (hq : ∀ u, u ∈ q' ↔ u ∈ q ∨ u = p ∧ pl = .queued) (u : TcbId) :
    u ∈ q' ↔ Function.update (Function.update place t (.onCore c)) p pl u = .queued := by
  rw [hq, h.queue]
  by_cases hup : u = p
  · subst hup
    rw [Function.update_self, hp]
    simp
  · rw [Function.update_of_ne hup]
    by_cases hu : u = t
    · subst hu
      rw [Function.update_self, ht]
      simp [hne]
    · rw [Function.update_of_ne hu]
      simp [hup]

end Handover

/-- The core takes up the selected thread, and the thread it has left finds its place. -/
theorem Sched.Inv.gained {p : TcbId} (pl : Place) {k : Core} {x y : SchedTcb} {q' : List TcbId}
    (h : s.Inv q ts place) (hpc : (s.core c).pc = .gaining) (hprev : (s.core c).previous = some p)
    (hne : (s.core c).current ≠ p) (hcore : s'.core = Function.update s.core c k)
    (hk : k.current = (s.core c).current) (hkpc : k.pc = .running ∨ k.pc = .releasing)
    (hx : x = { s.tcb (s.core c).current with state := .running, phase := .dirty })
    (hy : y.state = (s.tcb p).state ∧ y.wakeupTime = (s.tcb p).wakeupTime)
    (htcb : s'.tcb = Function.update (Function.update s.tcb (s.core c).current x) p y)
    (hspawned : s'.spawned = s.spawned) (hpl : pl.Ok p y)
    (hfree : ∀ d, pl ≠ .onCore d ∧ pl ≠ .selected d) (hl : SchedLists s'.nodes q' ts)
    (hq : ∀ u, u ∈ q' ↔ u ∈ q ∨ u = p ∧ pl = .queued) :
    s'.Inv q' ts
      (Function.update (Function.update place (s.core c).current (.onCore c)) p pl) := by
  have hplaceP : place p = .onCore c := by
    rw [← h.stack]
    simp [Core.stack, hpc, hprev]
  have hplaceC : place (s.core c).current = .selected c := by
    rw [← h.next]
    simp [Core.next, hpc, hprev, Ne.symm hne]
  have hthreadC := h.thread (s.core c).current
  rw [hplaceC] at hthreadC
  have hself : s'.tcb (s.core c).current = x := by simp [htcb, hne]
  have hselfP : s'.tcb p = y := by simp [htcb]
  have hother : ∀ u, u ≠ (s.core c).current → u ≠ p → s'.tcb u = s.tcb u := by
    intro u hu hup
    simp [htcb, hu, hup]
  have hnotC : (s.core c).current ∉ ts := h.notMem_timeouts (by rw [hthreadC.1]; decide)
  have hwake : ∀ u, (s'.tcb u).wakeupTime = (s.tcb u).wakeupTime := by
    intro u
    by_cases hup : u = p
    · rw [hup, hselfP, hy.2]
    · by_cases hu : u = (s.core c).current
      · rw [hu, hself, hx]
      · rw [hother u hu hup]
  have hkstack : k.stack = some (s.core c).current := by
    rcases hkpc with hkpc | hkpc <;> simp [Core.stack, hkpc, hk]
  have hknext : k.next = none := by
    rcases hkpc with hkpc | hkpc <;> simp [Core.next, hkpc]
  refine ⟨hl, h.handover_stack hplaceP hplaceC hne hcore hkstack fun d => (hfree d).1,
    h.handover_next hplaceP hplaceC hcore hknext fun d => (hfree d).2,
    h.handover_queue hplaceP hplaceC hne hq, fun u => ?_, fun u => ?_, fun u hu => ?_, ?_,
    fun d => ?_, fun n hn => ?_⟩
  · by_cases hup : u = p
    · rw [hup, Function.update_self, hselfP]
      exact hpl
    · rw [Function.update_of_ne hup]
      by_cases hu : u = (s.core c).current
      · rw [hu, Function.update_self, hself, hx]
        exact ⟨rfl, by simp, hthreadC.2.2.1, hthreadC.2.2.2, fun _ => .inl rfl⟩
      · rw [Function.update_of_ne hu, hother u hu hup]
        exact h.thread u
  · rw [hwake]
    exact h.timeouts u
  · have hst := h.stopped u hu
    by_cases hup : u = p
    · rw [hup, hselfP, hy.1, ← hup]
      exact hst
    · rw [hother u (fun he => hnotC (he ▸ hu)) hup]
      exact hst
  · refine h.sorted.imp fun {a b} hab => ?_
    rw [hwake, hwake]
    exact hab
  · by_cases hd : d = c
    · subst hd
      unfold Sched.CoreOk
      rw [hcore, Function.update_self]
      have hrun : (s'.tcb k.current).state = .running := by rw [hk, hself, hx]
      rcases hkpc with hkpc | hkpc
      · simpa only [hkpc] using hrun
      · simpa only [hkpc] using hrun
    · apply h.coreOk
      · rw [hcore, Function.update_of_ne hd]
      · intro u hu
        apply hother
        · rintro rfl
          rw [hplaceC] at hu
          rcases hu with hu | hu
          · cases hu
          · exact hd (Place.selected.inj hu).symm
        · rintro rfl
          rw [hplaceP] at hu
          rcases hu with hu | hu
          · exact hd (Place.onCore.inj hu).symm
          · cases hu
  · rw [hspawned] at hn
    have hfresh := h.fresh n hn
    rw [hother]
    · exact hfresh
    · intro he
      rw [← he, hfresh] at hthreadC
      cases hthreadC.1
    · intro he
      have hokP := h.thread p
      rw [hplaceP, ← he, hfresh] at hokP
      cases hokP.1

theorem Sched.Inv.gain (h : s.Inv q ts place) (hpc : (s.core c).pc = .gaining) :
    ∃ s' q' place', TinyOS.gain s c = some s' ∧ s'.Inv q' ts place' ∧
    (q' = q ∨ ∃ u, q' = q ++ [u]) := by
  have hok := h.cores c
  unfold Sched.CoreOk at hok
  simp only [hpc] at hok
  obtain ⟨hready, p, hprev, hstate⟩ := hok
  have hplaceP : place p = .onCore c := by
    rw [← h.stack]
    simp [Core.stack, hpc, hprev]
  have hthreadP := h.thread p
  rw [hplaceP] at hthreadP
  unfold TinyOS.gain
  simp only [hprev, Option.bind_some]
  by_cases hne : (s.core c).current = p
  · -- the core goes on with its own thread
    rw [if_pos hne]
    subst hne
    have hnot : (s.core c).current ∉ ts := h.notMem_timeouts (by rw [hready]; decide)
    refine ⟨_, q, place, rfl, h.onStack hplaceP rfl ?_ ?_ rfl rfl
      ⟨rfl, by simp, hthreadP.2.2.1, hthreadP.2.2.2.1, fun _ => .inl rfl⟩ ?_ h.lists
      (fun _ _ => .rfl) (h.timeouts _) (fun hm => absurd hm hnot) ?_, .inl rfl⟩
    · simp [Core.stack, hpc, hprev]
    · simp [Core.next, hpc, hprev]
    · simp [Sched.CoreOk, Sched.setCore, Sched.setTcb]
    · refine h.sorted.imp_of_mem fun {a b} ha hb hab => ?_
      have hna : a ≠ (s.core c).current := fun he => hnot (he ▸ ha)
      have hnb : b ≠ (s.core c).current := fun he => hnot (he ▸ hb)
      simpa [Sched.setCore, Sched.setTcb, hna, hnb] using hab
  · rw [if_neg hne]
    have hget :
        (((s.setTcb (s.core c).current fun x =>
          { x with state := .running, phase := .dirty }).setTcb p
        fun x => { x with phase := .clean }).tcb p) = { s.tcb p with phase := .clean } := by
      simp [Sched.setTcb, Ne.symm hne]
    have hqueue : p ∉ q := by
      rw [h.queue, hplaceP]
      simp
    rw [hget]
    cases hst : (s.tcb p).state with
    | init => exact absurd hst hthreadP.2.1
    | running => exact absurd hst hstate
    | stopped =>
      have hnormal := h.normal_of_stopped hst
      refine ⟨_, q, _, rfl, h.gained .parked hpc hprev hne rfl rfl (.inl rfl) rfl ⟨?_, ?_⟩
        (by simp [Sched.setCore, Sched.setTcb]; rfl) rfl ⟨?_, ?_, ?_, hnormal⟩
        (fun d => by simp) h.lists
        (fun u => by simp), .inl rfl⟩
      · simp [Ne.symm hne]
      · simp [Ne.symm hne]
      · simp [Ne.symm hne, hst]
      · rfl
      · simpa [Sched.setTcb, Ne.symm hne] using hthreadP.2.2.1
    | exited =>
      have hnormal : p.normal = true := by
        by_contra hn
        rcases hthreadP.2.2.2.2 (by simpa using hn) with hr | hr <;> · rw [hst] at hr; cases hr
      refine ⟨_, q, _, rfl, h.gained .gone hpc hprev hne rfl rfl (.inr rfl) rfl
        (y := { s.tcb p with phase := .clean, released := (s.tcb p).released + 1 }) ⟨rfl, rfl⟩
        (by simp [Sched.setCore, Sched.setTcb, Ne.symm hne]) rfl ⟨hst, rfl, ?_, hnormal⟩
        (fun d => by simp) h.lists
        (fun u => by simp), .inl rfl⟩
      show (s.tcb p).released + 1 = 1
      rw [hthreadP.2.2.1]
    | ready =>
      have hnot : p ∉ ts := h.notMem_timeouts (by rw [hst]; decide)
      cases hnormal : p.normal with
      | true =>
        simp only [if_true]
        refine ⟨_, q ++ [p], _, rfl, h.gained .queued hpc hprev hne rfl rfl (.inl rfl) rfl
          (y := { s.tcb p with phase := .clean }) ⟨rfl, rfl⟩ ?_ rfl
          ⟨hst, rfl, hthreadP.2.2.1, hnormal⟩
          (fun d => by simp) (h.lists.push hqueue hnot) (fun u => by simp), .inr ⟨p, rfl⟩⟩
        simp [Sched.setCore, Sched.setTcb, schedQueueAdd, Ne.symm hne]
      | false =>
        simp only [Bool.false_eq_true, if_false]
        refine ⟨_, q, _, rfl, h.gained .resting hpc hprev hne rfl rfl (.inl rfl) rfl
          (y := { s.tcb p with phase := .clean }) ⟨rfl, rfl⟩ ?_ rfl
          ⟨hst, rfl, hthreadP.2.2.1, hnormal⟩
          (fun d => by simp) h.lists (fun u => by simp), .inl rfl⟩
        simp [Sched.setCore, Sched.setTcb, Ne.symm hne]

/-- Fields of a thread, and of the scheduler, that no place depends on. -/
theorem Sched.Inv.frame (h : s.Inv q ts place) (hcore : s'.core = s.core)
    (hnodes : s'.nodes = s.nodes)
    (htcb : ∀ u, (s'.tcb u).state = (s.tcb u).state ∧ (s'.tcb u).phase = (s.tcb u).phase ∧
      (s'.tcb u).wakeupTime = (s.tcb u).wakeupTime ∧ (s'.tcb u).released = (s.tcb u).released)
    (hfresh : ∀ n, s'.spawned ≤ n → s'.tcb (.thread n) = freshTcb) : s'.Inv q ts place := by
  refine ⟨by rw [hnodes]; exact h.lists, by rw [hcore]; exact h.stack,
    by rw [hcore]; exact h.next, h.queue,
    fun u => ?_, fun u => ?_, fun u hu => ?_, ?_, fun d => ?_, hfresh⟩
  · obtain ⟨hs, hp, hw, hr⟩ := htcb u
    have hok := h.thread u
    cases hpl : place u <;> rw [hpl] at hok <;> simpa [Place.Ok, hs, hp, hr] using hok
  · rw [(htcb u).2.2.1]
    exact h.timeouts u
  · rw [(htcb u).1]
    exact h.stopped u hu
  · refine h.sorted.imp fun {a b} hab => ?_
    rw [(htcb a).2.2.1, (htcb b).2.2.1]
    exact hab
  · have hok := h.cores d
    unfold Sched.CoreOk at hok ⊢
    rw [hcore]
    cases hpc : (s.core d).pc with
    | gaining =>
      simp only [hpc] at hok ⊢
      obtain ⟨hcur, p, hp, hst⟩ := hok
      exact ⟨(htcb _).1.trans hcur, p, hp, by rw [(htcb p).1]; exact hst⟩
    | _ =>
      simp only [hpc] at hok ⊢
      rw [(htcb _).1]
      exact hok

/-- A core goes on between statements that concern neither its thread nor the lists. -/
theorem Sched.Inv.setPc (pc : CorePc) (h : s.Inv q ts place)
    (hpc : (s.core c).pc = .running ∨ (s.core c).pc = .releasing)
    (hpc' : pc = .running ∨ pc = .left) :
    (s.setCore c { s.core c with pc := pc }).Inv q ts place := by
  refine ⟨h.lists, fun d u => ?_, fun d u => ?_, h.queue, h.thread, h.timeouts,
    h.stopped, h.sorted, fun d => ?_, h.fresh⟩
  · rw [← h.stack d u]
    by_cases hd : d = c
    · subst hd
      rcases hpc with hpc | hpc <;> rcases hpc' with rfl | rfl <;>
        simp [Sched.setCore, Core.stack, hpc]
    · simp [Sched.setCore, hd]
  · rw [← h.next d u]
    by_cases hd : d = c
    · subst hd
      rcases hpc with hpc | hpc <;> rcases hpc' with rfl | rfl <;>
        simp [Sched.setCore, Core.next, hpc]
    · simp [Sched.setCore, hd]
  · by_cases hd : d = c
    · subst hd
      have hok := h.cores d
      unfold Sched.CoreOk at hok ⊢
      rcases hpc with hpc | hpc <;> rcases hpc' with rfl | rfl <;>
        simpa [Sched.setCore, hpc] using hok
    · exact h.coreOk (by simp [Sched.setCore, hd]) fun _ _ => rfl

theorem Sched.Inv.wakeup (h : s.Inv q ts place) (hold : ∀ n, s.spawned ≤ n → t ≠ .thread n) :
    ∃ s' q' ts' place' l, TinyOS.wakeup s t = some s' ∧ s'.Inv q' ts' place' ∧ s.Wakes s' l ∧
      (∀ u ∈ l, u = t) ∧ (q' = q ∨ q' = q ++ [t]) ∧ ((s.tcb t).state = .stopped → l = [t]) := by
  unfold TinyOS.wakeup
  split
  · rename_i hs
    obtain ⟨s', q', place', he, hinv, hwakes, hq⟩ := h.makeReady hs hold
    exact ⟨s', q', _, place', [t], he, hinv, hwakes, by simp, hq, fun _ => rfl⟩
  · rename_i hs
    exact ⟨s, q, ts, place, [], rfl, h, .refl s, by simp, .inl rfl, fun hst => absurd (.inl hst) hs⟩

theorem Sched.Inv.place_fresh (h : s.Inv q ts place) {n : Nat} (hn : s.spawned ≤ n) :
    place (.thread n) = .fresh := by
  have hok := h.thread (.thread n)
  rw [h.fresh n hn] at hok
  cases hp : place (.thread n) with
  | fresh => rfl
  | onCore d =>
    rw [hp] at hok
    cases hok.1
  | _ =>
    rw [hp] at hok
    cases hok.1

theorem Sched.Inv.spawn (h : s.Inv q ts place) (ht : place t ≠ .fresh) :
    (s.spawnThread t).Inv q ts place := by
  have hnew := h.fresh s.spawned (Nat.le_refl _)
  have hplace := h.place_fresh (Nat.le_refl s.spawned)
  have hq : TcbId.thread s.spawned ∉ q := by
    rw [h.queue, hplace]
    simp
  have hts : TcbId.thread s.spawned ∉ ts := by
    rw [h.timeouts, hnew]
    simp [freshTcb]
  have hinit : ({ s with nodes := (s.spawnThread t).nodes } : Sched).Inv q ts place :=
    ⟨h.lists.init hq hts, h.stack, h.next, h.queue, h.thread, h.timeouts,
      h.stopped, h.sorted, h.cores, h.fresh⟩
  have hne : t ≠ .thread s.spawned := by
    rintro rfl
    exact ht hplace
  refine hinit.frame rfl rfl (fun u => ?_) fun n hn => ?_
  · by_cases hu : u = t
    · subst hu
      simp [Sched.spawnThread, Sched.setTcb, hne]
    · by_cases hus : u = .thread s.spawned
      · rw [hus]
        simp [Sched.spawnThread, Sched.setTcb, Ne.symm hne, hnew, freshTcb]
      · simp [Sched.spawnThread, Sched.setTcb, hu, hus]
  · have hn' : s.spawned < n := hn
    have hnt : TcbId.thread n ≠ t := by
      rintro rfl
      exact ht (h.place_fresh (Nat.le_of_lt hn'))
    have hns : TcbId.thread n ≠ .thread s.spawned := by
      intro he
      have := TcbId.thread.inj he
      omega
    simp [Sched.spawnThread, Sched.setTcb, hnt, hns, h.fresh n (Nat.le_of_lt hn')]

end Steps

end TinyOS
