import TinyOS.SchedQueues

/-! Where a thread is while the cores run, and what follows for its state, its phase and the two
lists. Each thread is in one place, so no thread is on two cores. -/

namespace TinyOS

open Transition

/-- The place of a thread: not started, in the queue, selected by a core that has not run `gain`
for it, on a core, asleep, an idle thread off its core, released. -/
inductive Place
  | fresh
  | queued
  | selected (c : Nat)
  | onCore (c : Nat)
  | parked
  | resting
  | gone
deriving DecidableEq

def TcbId.fits : TcbId → Nat → Bool
  | .idle d, c => d = c
  | .thread _, _ => true

def Place.Ok (t : TcbId) (x : SchedTcb) : Place → Prop
  | .fresh => x.state = .init ∧ x.phase = .clean ∧ x.released = 0 ∧ t.normal = true
  | .queued => x.state = .ready ∧ x.phase = .clean ∧ x.released = 0 ∧ t.normal = true
  | .selected c => x.state = .ready ∧ x.phase = .clean ∧ x.released = 0 ∧ t.fits c = true
  | .onCore c =>
    x.phase = .dirty ∧ x.state ≠ .init ∧ x.released = 0 ∧ t.fits c = true ∧
      (t.normal = false → x.state = .running ∨ x.state = .ready)
  | .parked => x.state = .stopped ∧ x.phase = .clean ∧ x.released = 0 ∧ t.normal = true
  | .resting => x.state = .ready ∧ x.phase = .clean ∧ x.released = 0 ∧ t.normal = false
  | .gone => x.state = .exited ∧ x.phase = .clean ∧ x.released = 1 ∧ t.normal = true

/-- The thread on whose stack the core is, or was until the context switch. -/
def Core.stack (k : Core) : Option TcbId :=
  match k.pc with
  | .gaining => k.previous
  | _ => some k.current

/-- The thread that the core has selected. -/
def Core.next (k : Core) : Option TcbId :=
  match k.pc with
  | .switching next => some next
  | .gaining => if k.previous = some k.current then none else some k.current
  | _ => none

def Sched.CoreOk (s : Sched) (c : Nat) : Prop :=
  match (s.core c).pc with
  | .running | .releasing | .left => (s.tcb (s.core c).current).state = .running
  | .yielding => (s.tcb (s.core c).current).state ≠ .running
  | .switching _ =>
    (s.tcb (s.core c).current).state ≠ .running ∧ (s.core c).previous = some (s.core c).current
  | .gaining =>
    (s.tcb (s.core c).current).state = .ready ∧
      ∃ p, (s.core c).previous = some p ∧ (s.tcb p).state ≠ .running

structure Sched.Inv (s : Sched) (q ts : List TcbId) (place : TcbId → Place) : Prop where
  lists : SchedLists s.nodes q ts
  stack : ∀ c t, (s.core c).stack = some t ↔ place t = .onCore c
  next : ∀ c t, (s.core c).next = some t ↔ place t = .selected c
  queue : ∀ t, t ∈ q ↔ place t = .queued
  thread : ∀ t, (place t).Ok t (s.tcb t)
  timeouts : ∀ t, t ∈ ts ↔ (s.tcb t).wakeupTime ≠ noTimeout
  stopped : ∀ t ∈ ts, (s.tcb t).state = .stopped
  sorted : ts.Pairwise fun a b => (s.tcb a).wakeupTime ≤ (s.tcb b).wakeupTime
  cores : ∀ c, s.CoreOk c
  fresh : ∀ n, s.spawned ≤ n → s.tcb (.thread n) = freshTcb

section Ready

variable {s s' : Sched} {q ts : List TcbId} {place : TcbId → Place} {t u : TcbId} {c : Nat}

theorem Place.Ok.clean {pl : Place} {x : SchedTcb} (h : pl.Ok t x) (hc : x.phase = .clean) :
    ∀ c, pl ≠ .onCore c := by
  intro c he
  rw [he] at h
  rw [h.1] at hc
  cases hc

theorem Place.Ok.dirty {pl : Place} {x : SchedTcb} (h : pl.Ok t x) (hd : x.phase = .dirty) :
    ∃ c, pl = .onCore c := by
  cases pl with
  | onCore c => exact ⟨c, rfl⟩
  | _ =>
    have hc := h.2.1
    rw [hd] at hc
    cases hc

theorem Sched.Inv.notMem_sched (h : s.Inv q ts place) (hs : (s.tcb t).state ≠ .ready) : t ∉ q := by
  intro hm
  have hok := h.thread t
  rw [(h.queue t).mp hm] at hok
  exact hs hok.1

theorem Sched.Inv.notMem_timeouts (h : s.Inv q ts place) (hs : (s.tcb t).state ≠ .stopped) :
    t ∉ ts := fun hm => hs (h.stopped t hm)

theorem schedMakeReady_eq (h : s.Inv q ts place)
    (hs : (s.tcb t).state = .stopped ∨ (s.tcb t).state = .init) :
    ∃ nodes, schedMakeReady s t = some { s with
        tcb := Function.update s.tcb t { s.tcb t with state := .ready, wakeupTime := noTimeout }
        nodes := nodes } ∧
      SchedLists nodes (if (s.tcb t).phase = .clean then q ++ [t] else q) (ts.erase t) := by
  have hready : (s.tcb t).state ≠ .ready := by
    rcases hs with hs | hs <;> rw [hs] <;> decide
  have hq : t ∉ q := h.notMem_sched hready
  have hmark : ∀ (r : Sched) (l : List TcbId), SchedLists r.nodes q l → t ∉ l →
      (r.tcb t).phase = (s.tcb t).phase →
      ∃ nodes, markReady r t = { r with
          tcb := Function.update r.tcb t { r.tcb t with state := .ready }
          nodes := nodes } ∧
        SchedLists nodes (if (s.tcb t).phase = .clean then q ++ [t] else q) l := by
    intro r l hl hnot hphase
    have hset : ((r.setTcb t fun x => { x with state := .ready }).tcb t).phase =
        (s.tcb t).phase := by
      simpa [Sched.setTcb] using hphase
    unfold markReady
    simp only [hset]
    split
    · exact ⟨_, rfl, hl.push hq hnot⟩
    · exact ⟨_, rfl, hl⟩
  unfold schedMakeReady
  rw [if_pos hs]
  by_cases hw : (s.tcb t).wakeupTime = noTimeout
  · have hnot : t ∉ ts := fun hm => (h.timeouts t).mp hm hw
    have hsame : ({ s.tcb t with state := .ready, wakeupTime := noTimeout } : SchedTcb) =
        { s.tcb t with state := .ready } := by rw [← hw]
    obtain ⟨nodes, he, hl⟩ := hmark s ts h.lists hnot rfl
    refine ⟨nodes, ?_, by rwa [List.erase_of_not_mem hnot]⟩
    rw [if_neg (not_not.mpr hw), he, hsame]
  · have hmem := (h.timeouts t).mpr hw
    have hst := h.stopped t hmem
    obtain ⟨l, m, hlm⟩ := List.append_of_mem hmem
    have hnd := h.lists.nodup_timeouts
    have hlists := h.lists
    rw [hlm] at hnd hlists
    have hnl : t ∉ l := fun hm => List.disjoint_left.mp
      (List.disjoint_of_nodup_append hnd) hm List.mem_cons_self
    have herase : ts.erase t = l ++ m := by
      rw [hlm, List.erase_append_right _ hnl, List.erase_cons_head]
    have hnot : t ∉ l ++ m := (List.nodup_cons.mp (List.nodup_middle.mp hnd)).1
    rw [if_pos hw, if_pos ⟨h.lists.linked hmem, hst⟩, herase]
    obtain ⟨nodes, he, hl⟩ :=
      hmark ({ s with nodes := rlistRemove s.nodes (.tcb t) }.setTcb t fun x =>
      { x with wakeupTime := noTimeout }) (l ++ m) hlists.remove hnot (by simp [Sched.setTcb])
    refine ⟨nodes, ?_, hl⟩
    rw [he]
    simp [Sched.setTcb]

/-- A core does not notice that a sleeping thread becomes ready. -/
theorem Sched.CoreOk.ready (h : s.CoreOk c)
    (hs : (s.tcb t).state = .stopped ∨ (s.tcb t).state = .init)
    (hcore : s'.core = s.core) (hself : (s'.tcb t).state = .ready)
    (hother : ∀ u, u ≠ t → s'.tcb u = s.tcb u) :
    s'.CoreOk c := by
  have hkeep : ∀ u, (s.tcb u).state ≠ .stopped → (s.tcb u).state ≠ .init → s'.tcb u = s.tcb u := by
    intro u h1 h2
    apply hother
    rintro rfl
    exact hs.elim h1 h2
  have hrun : ∀ u, (s.tcb u).state ≠ .running → (s'.tcb u).state ≠ .running := by
    intro u hu
    by_cases hut : u = t
    · rw [hut, hself]
      decide
    · rw [hother u hut]
      exact hu
  unfold Sched.CoreOk at h ⊢
  rw [hcore]
  cases hpc : (s.core c).pc with
  | running | releasing | left =>
    simp only [hpc] at h ⊢
    rw [hkeep _ (by rw [h]; decide) (by rw [h]; decide)]
    exact h
  | yielding =>
    simp only [hpc] at h ⊢
    exact hrun _ h
  | switching n =>
    simp only [hpc] at h ⊢
    exact ⟨hrun _ h.1, h.2⟩
  | gaining =>
    simp only [hpc] at h ⊢
    obtain ⟨hcur, p, hp, hstate⟩ := h
    rw [hkeep _ (by rw [hcur]; decide) (by rw [hcur]; decide)]
    exact ⟨hcur, p, hp, hrun p hstate⟩

/-- A thread that is woken up is in the queue, unless it is still on its core. -/
theorem Sched.Inv.ready (h : s.Inv q ts place)
    (hs : (s.tcb t).state = .stopped ∨ (s.tcb t).state = .init)
    (hold : ∀ n, s.spawned ≤ n → t ≠ .thread n) (hcore : s'.core = s.core)
    (hspawned : s'.spawned = s.spawned)
    (htcb : s'.tcb = Function.update s.tcb t { s.tcb t with
        state := .ready, wakeupTime := noTimeout })
    (hl : SchedLists s'.nodes (if (s.tcb t).phase = .clean then q ++ [t] else q) (ts.erase t)) :
    s'.Inv (if (s.tcb t).phase = .clean then q ++ [t] else q) (ts.erase t)
      (if (s.tcb t).phase = .clean then Function.update place t .queued else place) := by
  have hself : s'.tcb t = { s.tcb t with state := .ready, wakeupTime := noTimeout } := by
    simp [htcb]
  have hother : ∀ u, u ≠ t → s'.tcb u = s.tcb u := by
    intro u hu
    simp [htcb, hu]
  have hok := h.thread t
  have hnd := h.lists.nodup_timeouts
  -- the place of `t` before the step is not one of those that a core or the queue knows
  have hplace : (s.tcb t).phase = .clean → place t = .fresh ∨ place t = .parked := by
    intro hc
    cases hp : place t with
    | fresh => exact .inl rfl
    | parked => exact .inr rfl
    | queued | selected | resting | gone =>
      rw [hp] at hok
      rcases hs with hs | hs <;> · rw [hok.1] at hs; cases hs
    | onCore d => exact absurd hp (hok.clean hc d)
  refine ⟨hl, fun c u => ?_, fun c u => ?_, fun u => ?_, fun u => ?_, fun u => ?_,
    fun u hu => ?_, ?_, fun c => (h.cores c).ready hs hcore (by rw [hself]) hother, fun n hn => ?_⟩
  · rw [hcore, h.stack]
    split
    · rename_i hc
      by_cases hu : u = t
      · subst hu
        rcases hplace hc with hp | hp <;> simp [hp]
      · simp [hu]
    · exact .rfl
  · rw [hcore, h.next]
    split
    · rename_i hc
      by_cases hu : u = t
      · subst hu
        rcases hplace hc with hp | hp <;> simp [hp]
      · simp [hu]
    · exact .rfl
  · split
    · by_cases hu : u = t
      · simp [hu]
      · simp [hu, h.queue u]
    · exact h.queue u
  · by_cases hu : u = t
    · subst hu
      rw [hself]
      split
      · rename_i hc
        rw [Function.update_self]
        rcases hplace hc with hp | hp <;> rw [hp] at hok
        · exact ⟨rfl, hok.2.1, hok.2.2.1, hok.2.2.2⟩
        · exact ⟨rfl, hok.2.1, hok.2.2.1, hok.2.2.2⟩
      · rename_i hc
        have hd : (s.tcb u).phase = .dirty := by
          cases hph : (s.tcb u).phase with
          | clean => exact absurd hph hc
          | dirty => rfl
        obtain ⟨d, hp⟩ := hok.dirty hd
        rw [hp] at hok ⊢
        exact ⟨hok.1, by simp, hok.2.2.1, hok.2.2.2.1, fun _ => .inr rfl⟩
    · rw [hother u hu]
      split
      · rw [Function.update_of_ne hu]
        exact h.thread u
      · exact h.thread u
  · by_cases hu : u = t
    · subst hu
      simp [hself, List.Nodup.mem_erase_iff hnd]
    · rw [hother u hu, List.Nodup.mem_erase_iff hnd, h.timeouts u]
      simp [hu]
  · have hut := (List.Nodup.mem_erase_iff hnd).mp hu
    rw [hother u hut.1]
    exact h.stopped u hut.2
  · refine (h.sorted.sublist List.erase_sublist).imp_of_mem fun {a b} ha hb hab => ?_
    have hat := (List.Nodup.mem_erase_iff hnd).mp ha
    have hbt := (List.Nodup.mem_erase_iff hnd).mp hb
    rw [hother a hat.1, hother b hbt.1]
    exact hab
  · rw [hspawned] at hn
    rw [hother _ (fun he => hold n hn he.symm)]
    exact h.fresh n hn

end Ready

end TinyOS
