import TinyOS.ReadyQueue

/-! The list `TIMEOUT_LIST`: what it holds whenever the lock is free. -/

namespace TinyOS

open Ring Transition

structure Sched.TimeoutOrder (s : Sched) : Prop where
  sorted : ∃ ts : List TcbId, ts.Nodup ∧ Walk s.nodes.succ (.head .timeoutList)
    (ts.map .tcb) (.head .timeoutList) ∧
    ts.Pairwise fun a b => (s.tcb a).wakeupTime ≤ (s.tcb b).wakeupTime
  member : ∀ t, s.holds .timeoutList t ↔ (s.tcb t).wakeupTime ≠ noTimeout
  stopped : ∀ t, s.holds .timeoutList t → (s.tcb t).state = .stopped
  disjoint : ∀ t, ¬(s.holds .timeoutList t ∧ s.holds .sched t)
  single : ∀ t, ¬s.holds .timeoutList t → ¬s.holds .sched t →
    (s.nodes (.tcb t)).next = .tcb t ∧ (s.nodes (.tcb t)).prev = .tcb t
  running : s.aborted = false

section Timeouts

variable {s : Sched}

theorem Sched.Sound.timeoutOrder (h : s.Sound) : s.TimeoutOrder := by
  obtain ⟨q, ts, place, hinv⟩ := h.inv
  have hmem : ∀ t, s.holds .timeoutList t ↔ t ∈ ts := fun t => hinv.lists.holds_timeouts
  have hmemq : ∀ t, s.holds .sched t ↔ t ∈ q := fun t => hinv.lists.holds_sched
  refine ⟨⟨ts, hinv.lists.nodup_timeouts, hinv.lists.hangs.lists.walk .timeoutList, hinv.sorted⟩,
    fun t => ?_, fun t ht => hinv.stopped t ((hmem t).mp ht), fun t ht =>
      ?_, fun t ht hq => ?_, h.running⟩
  · rw [hmem]
    exact hinv.timeouts t
  · have hst := hinv.stopped t ((hmem t).mp ht.1)
    apply hinv.notMem_sched (t := t)
    · rw [hst]
      decide
    · exact (hmemq t).mp ht.2
  · rw [hmem] at ht
    rw [hmemq] at hq
    exact hinv.lists.single hq ht

theorem timeout_list_invariant {cores : Nat}
    (h : Reach Sched.step (fun _ e => ¬Sched.HitsNoTimeout e = true) (bootSched cores) s) :
    s.TimeoutOrder := (sched_sound_of_reach h).timeoutOrder

end Timeouts

theorem timeout_list_invariant_two_sleepers : ∃ s, Reach Sched.step
    (fun _ e => ¬Sched.HitsNoTimeout e = true) (bootSched 1) s ∧ s.TimeoutOrder ∧
      s.holds .timeoutList (.thread 1) := by
  obtain ⟨s, hs, hp⟩ := exists_reach_of_guarded Sched.step (fun _ e => !Sched.HitsNoTimeout e)
    (bootSched 1)
    (twoSleepers 20) (fun s => s.nodes.succ^[2] (.head .timeoutList) = .tcb (.thread 1))
    (by decide +kernel)
  have hs' : Reach Sched.step (fun _ e => ¬Sched.HitsNoTimeout e = true) (bootSched 1) s :=
    hs.mono fun _ _ hok => by simpa using hok
  exact ⟨s, hs', timeout_list_invariant hs', 2, of_decide_eq_true hp⟩

/-- The wakeup time is a sum modulo the size of the type, and nothing keeps it from being the one
that stands for no timeout. -/
theorem sentinel_sleeper_listed : ∃ s, Reach Sched.step Always (bootSched 1) s ∧ s.spinlock = none ∧
    s.holds .timeoutList (.thread 1) ∧ (s.tcb (.thread 1)).wakeupTime = noTimeout ∧
    ¬s.TimeoutOrder := by
  obtain ⟨s, hs, hp⟩ := exists_reach_of_exec Sched.step (bootSched 1) (twoSleepers (2 ^ 64 - 102))
    (fun s => s.spinlock = none ∧ s.nodes.succ^[2] (.head .timeoutList) = .tcb (.thread 1) ∧
      (s.tcb (.thread 1)).wakeupTime = noTimeout) (by decide +kernel)
  obtain ⟨hlock, hnext, hw⟩ := of_decide_eq_true hp
  exact ⟨s, hs, hlock, ⟨2, hnext⟩, hw, fun ho => (ho.member (.thread 1)).mp ⟨2, hnext⟩ hw⟩

end TinyOS
