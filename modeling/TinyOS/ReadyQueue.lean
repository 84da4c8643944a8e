import TinyOS.SchedRun

/-! The queue `SCHED`: what it holds whenever the lock is free, and how often a waiting thread
is overtaken. -/

namespace TinyOS

open Ring Transition

def Sched.holds (s : Sched) (l : SchedList) (t : TcbId) : Prop := ∃ n,
    s.nodes.succ^[n] (.head l) = .tcb t

def Core.uses (k : Core) (t : TcbId) : Prop := k.current = t ∨ k.pc = .switching t

structure Sched.ReadyQueue (s : Sched) : Prop where
  once : ∃ q : List TcbId, q.Nodup ∧ Walk s.nodes.succ (.head .sched) (q.map .tcb) (.head .sched)
  queued : ∀ t, t.normal = true → s.holds .sched t → (s.tcb t).state = .ready ∧
    (s.tcb t).phase = .clean ∧
    ∀ c, ¬(s.core c).uses t
  selected : ∀ t, t.normal = true → (s.tcb t).state = .ready → (s.tcb t).phase = .clean →
    ¬s.holds .sched t → ∃ c, c < s.cores ∧ (s.core c).next = some t ∧
    ∀ d, (s.core d).next = some t → d = c
  apart : ∀ c d t, (s.core c).uses t → (s.core d).uses t → c = d
  target : ∀ c t, (s.core c).pc = .switching t → (s.tcb t).phase = .clean
  gains : ∀ c, (s.core c).pc = .gaining → (gain s c).isSome = true
  running : s.aborted = false

section Queue

variable {s s' : Sched} {q ts : List TcbId} {place : TcbId → Place} {t u : TcbId} {c : Nat}

theorem SchedLists.holds_iff (hl : SchedLists s.nodes q ts) (l : SchedList) (t : TcbId) :
    s.holds l t ↔ .tcb t ∈ schedLists q ts l := by
  have hw := hl.hangs.lists.walk l
  constructor
  · rintro ⟨n, hn⟩
    have hm := hw.iterate_mem n
    rw [hn] at hm
    exact (List.mem_cons.mp hm).resolve_left (tcb_ne_head t l)
  · intro hm
    exact hw.exists_iterate hm

theorem SchedLists.holds_sched (hl : SchedLists s.nodes q ts) : s.holds .sched t ↔ t ∈ q := by
  rw [hl.holds_iff]
  exact tcb_mem_map

theorem SchedLists.holds_timeouts (hl : SchedLists s.nodes q ts) : s.holds .timeoutList t ↔
    t ∈ ts := by
  rw [hl.holds_iff]
  exact tcb_mem_map

theorem Sched.Inv.place_of_uses (h : s.Inv q ts place) (hu : (s.core c).uses t) :
    place t = .onCore c ∨ place t = .selected c := by
  rcases hu with rfl | hpc
  · cases hpc : (s.core c).pc with
    | gaining =>
      by_cases he : (s.core c).previous = some (s.core c).current
      · left
        rw [← h.stack]
        simp [Core.stack, hpc, he]
      · right
        rw [← h.next]
        simp [Core.next, hpc, he]
    | _ =>
      left
      rw [← h.stack]
      simp [Core.stack, hpc]
  · right
    rw [← h.next]
    simp [Core.next, hpc]

theorem Sched.Sound.readyQueue (h : s.Sound) : s.ReadyQueue := by
  obtain ⟨q, ts, place, hinv⟩ := h.inv
  refine ⟨⟨q, hinv.lists.nodup_sched, hinv.lists.hangs.lists.walk .sched⟩, fun t _ ht => ?_,
    fun t hn hs hp ht => ?_, fun c d t hc hd => ?_, fun c t hpc => ?_, fun c hpc => ?_, h.running⟩
  · have hplace := (hinv.queue t).mp (hinv.lists.holds_sched.mp ht)
    have hok := hinv.thread t
    rw [hplace] at hok
    refine ⟨hok.1, hok.2.1, fun c hu => ?_⟩
    rcases hinv.place_of_uses hu with hp | hp
    · rw [hplace] at hp
      cases hp
    · rw [hplace] at hp
      cases hp
  · have hok := hinv.thread t
    cases hplace : place t with
    | selected c =>
      have hnext := (hinv.next c t).mpr hplace
      refine ⟨c, ?_, hnext, fun d hd => ?_⟩
      · by_contra hge
        rw [h.off c (Nat.le_of_not_lt hge)] at hnext
        cases hnext
      · have hd' := (hinv.next d t).mp hd
        rw [hplace] at hd'
        exact (Place.selected.inj hd').symm
    | queued => exact absurd (hinv.lists.holds_sched.mpr ((hinv.queue t).mpr hplace)) ht
    | onCore c =>
      rw [hplace] at hok
      cases hok.1.symm.trans hp
    | resting =>
      rw [hplace] at hok
      cases hok.2.2.2.symm.trans hn
    | fresh | parked | gone =>
      rw [hplace] at hok
      cases hok.1.symm.trans hs
  · rcases hinv.place_of_uses hc with hpc | hpc
    · rcases hinv.place_of_uses hd with hpd | hpd
      · exact Place.onCore.inj (hpc.symm.trans hpd)
      · cases hpc.symm.trans hpd
    · rcases hinv.place_of_uses hd with hpd | hpd
      · cases hpc.symm.trans hpd
      · exact Place.selected.inj (hpc.symm.trans hpd)
  · have hplace : place t = .selected c := by
      rw [← hinv.next]
      simp [Core.next, hpc]
    have hok := hinv.thread t
    rw [hplace] at hok
    exact hok.2.1
  · obtain ⟨s', -, -, he, -⟩ := hinv.gain hpc
    rw [he]
    rfl

/-- Whatever the cores do, `SCHED` is in order as long as no thread goes to sleep until
`NO_TIMEOUT`. -/
theorem sched_queue_invariant {cores : Nat}
    (h : Reach Sched.step (fun _ e => ¬Sched.HitsNoTimeout e = true) (bootSched cores) s) :
    s.ReadyQueue := (sched_sound_of_reach h).readyQueue

end Queue

def runNext (curtime : Nat) : List SchedEvent := [.yield 0 curtime, .switch 0, .gain 0]

/-- The main thread creates two threads and goes to sleep for 10 microseconds; the first of them
goes to sleep for `timeout` at time 101, and the second one runs. -/
def twoSleepers (timeout : Nat) : List SchedEvent :=
  runNext 100 ++ [.spawn 0, .count 0, .wakeup 0 (.thread 1), .spawn 0,
    .count 0, .wakeup 0 (.thread 2),
    .sleep 0 false 10 100] ++ runNext 100 ++ [.sleep 0 false timeout 101] ++ runNext 101

theorem sched_queue_invariant_two_sleepers : ∃ s, Reach Sched.step
    (fun _ e => ¬Sched.HitsNoTimeout e = true) (bootSched 1) s ∧ s.ReadyQueue ∧
    s.holds .sched (.thread 1) := by
  obtain ⟨s, hs, hp⟩ := exists_reach_of_guarded Sched.step (fun _ e => !Sched.HitsNoTimeout e)
    (bootSched 1) (twoSleepers 20 ++ [.wakeup 0 (.thread 1)])
    (fun s => s.nodes.succ^[1] (.head .sched) = .tcb (.thread 1)) (by decide +kernel)
  have hs' : Reach Sched.step (fun _ e => ¬Sched.HitsNoTimeout e = true) (bootSched 1) s :=
    hs.mono fun _ _ hok => by simpa using hok
  exact ⟨s, hs', sched_queue_invariant hs', 1, of_decide_eq_true hp⟩

/-- A thread that sleeps until `NO_TIMEOUT` is in the timeout list and counts as one that is not, so
`sched_make_ready` puts its node into a second ring: `SCHED` then holds a stopped thread. -/
theorem sentinel_sleeper_joins_rings : ∃ s, Reach Sched.step Always (bootSched 1) s ∧
    s.spinlock = none ∧
    s.holds .sched (.thread 0) ∧ (s.tcb (.thread 0)).state = .stopped ∧ ¬s.ReadyQueue := by
  obtain ⟨s, hs, hp⟩ := exists_reach_of_exec Sched.step (bootSched 1)
    (twoSleepers (2 ^ 64 - 102) ++ [.wakeup 0 (.thread 1)])
    (fun s => s.spinlock = none ∧ s.nodes.succ^[2] (.head .sched) = .tcb (.thread 0) ∧
      (s.tcb (.thread 0)).state = .stopped) (by decide +kernel)
  obtain ⟨hlock, hnext, hst⟩ := of_decide_eq_true hp
  refine ⟨s, hs, hlock, ⟨2, hnext⟩, hst, fun hq => ?_⟩
  have hready := (hq.queued (.thread 0) rfl ⟨2, hnext⟩).1
  rw [hst] at hready
  cases hready

end TinyOS
