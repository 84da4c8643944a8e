import TinyOS.Overtaking

/-! When a core goes idle: only when there is nothing to run. -/

namespace TinyOS

open Transition

section Idle

variable {s s' r : Sched} {q ts : List TcbId} {place : TcbId → Place} {t : TcbId} {c curtime : Nat}

/-- The idle thread is selected from the empty queue, and not instead of a thread that is ready. -/
theorem Sched.Inv.idle_selected (h : r.Inv q ts place)
    (hidle : (schedQueueSelect r c (r.core c).current).2.1 = .idle c) :
    q = [] ∧ ((r.core c).current = .idle c ∨ (r.tcb (r.core c).current).state ≠ .ready) := by
  cases q with
  | nil =>
    rw [(schedQueueSelect_nil h.lists _).1] at hidle
    refine ⟨rfl, ?_⟩
    by_cases hready : (r.tcb (r.core c).current).state = .ready
    · exact .inl (by simpa [hready] using hidle)
    · exact .inr hready
  | cons t q =>
    have hplace := (h.queue t).mp List.mem_cons_self
    have hok := h.thread t
    rw [hplace] at hok
    rw [(schedQueueSelect_cons h.lists _).1] at hidle
    obtain rfl : t = .idle c := hidle
    cases hok.2.2.2

/-- A thread that is ready and not queued is on its way to a core, or off it. -/
theorem Sched.Inv.ready_placed (h : r.Inv [] ts place) (hn : t.normal = true)
    (hready : (r.tcb t).state = .ready) :
    ∃ d, (r.core d).stack = some t ∨ (r.core d).next = some t := by
  have hok := h.thread t
  cases hplace : place t with
  | queued => exact absurd ((h.queue t).mpr hplace) List.not_mem_nil
  | selected d => exact ⟨d, .inr ((h.next d t).mpr hplace)⟩
  | onCore d => exact ⟨d, .inl ((h.stack d t).mpr hplace)⟩
  | resting =>
    rw [hplace] at hok
    cases hok.2.2.2.symm.trans hn
  | fresh | parked | gone =>
    rw [hplace] at hok
    cases hok.1.symm.trans hready

/-- Those still in the timeout list have time left. -/
theorem Sched.Inv.unexpired (h : s.Inv q ts place)
    (hpc : (s.core c).pc = .running ∨ (s.core c).pc = .yielding)
    (hr : yieldExpire s c curtime = some r) :
    (∃ q₁ ts₁ place₁, r.Inv q₁ ts₁ place₁) ∧ (r.core c).pc = .yielding ∧
      ∀ u, (r.tcb u).wakeupTime ≠ noTimeout → curtime < (r.tcb u).wakeupTime := by
  obtain ⟨r', q₁, place₁, l, ts₁, he, hinv, hwakes, -, -, -, hlater⟩ := h.expire curtime hpc
  obtain rfl := Option.some.inj (hr.symm.trans he)
  refine ⟨⟨q₁, ts₁, place₁, hinv⟩, ?_, fun u hu => ?_⟩
  · rw [hwakes.core, enterYield_core]
    simp
  · have hnot : u ∉ l := fun hmem => hu (by rw [hwakes.ready u hmem])
    rw [hwakes.same u hnot]
    exact hlater u ((hinv.timeouts u).mpr hu)

/-- A core that turns to its idle thread leaves nothing to run: at that moment `SCHED` is empty,
every thread that is ready is on another core or selected by it, and no timeout has expired. -/
theorem idle_only_without_work {cores : Nat}
    (h : Reach Sched.step (fun _ e => ¬Sched.HitsNoTimeout e = true) (bootSched cores) s)
    (hs : s.step (.yield c curtime) = some s') :
    ∃ r, yieldExpire s c curtime = some r ∧
    ((schedQueueSelect r c (r.core c).current).2.1 = .idle c →
      (∀ t, ¬r.holds .sched t) ∧
      (∀ t, t.normal = true → (r.tcb t).state = .ready →
        ∃ d, d ≠ c ∧ ((r.core d).stack = some t ∨ (r.core d).next = some t)) ∧
      ∀ t, (r.tcb t).wakeupTime ≠ noTimeout → curtime < (r.tcb t).wakeupTime) := by
  obtain ⟨q, ts, place, hinv⟩ := (sched_sound_of_reach h).inv
  have hpc : (s.core c).pc = .running ∨ (s.core c).pc = .yielding := by
    unfold Sched.step at hs
    replace hs := (Option.ite_none_left_eq_some.mp hs).2
    exact (Option.ite_none_right_eq_some.mp hs).1.1
  obtain ⟨r, q₁, ts₁, place₁, -, hr, -⟩ := hinv.yield curtime (sched_sound_of_reach h).threads hpc
  refine ⟨r, hr, fun hidle => ?_⟩
  obtain ⟨⟨q₁, ts₁, place₁, hinv₁⟩, hyields, hlater⟩ := hinv.unexpired hpc hr
  obtain ⟨rfl, hcurrent⟩ := hinv₁.idle_selected hidle
  refine ⟨fun t ht => absurd (hinv₁.lists.holds_sched.mp ht) List.not_mem_nil,
    fun t hn hready => ?_, hlater⟩
  obtain ⟨d, hd⟩ := hinv₁.ready_placed hn hready
  refine ⟨d, ?_, hd⟩
  rintro rfl
  rcases hd with hstack | hnext
  · obtain rfl : (r.core d).current = t := by simpa [Core.stack, hyields] using hstack
    rcases hcurrent with hidle | hne
    · rw [hidle] at hn
      cases hn
    · exact hne hready
  · simp [Core.next, hyields] at hnext

end Idle

/-- The main thread sleeps for 10 microseconds, and the core goes idle. -/
theorem idle_only_without_work_sleeper : ∃ s r : Sched, Reach Sched.step
    (fun _ e => ¬Sched.HitsNoTimeout e = true) (bootSched 1) s ∧ yieldExpire s 0 100 = some r ∧
      (schedQueueSelect r 0 (r.core 0).current).2.1 = .idle 0 ∧
      (r.tcb (.thread 0)).wakeupTime = 110 ∧
      ∀ t, ¬r.holds .sched t := by
  obtain ⟨s, hs, hp⟩ := exists_reach_of_guarded Sched.step (fun _ e => !Sched.HitsNoTimeout e)
    (bootSched 1) (runNext 100 ++ [.sleep 0 false 10 100])
    (fun s => (s.step (.yield 0 100)).isSome && (yieldExpire s 0 100).any fun r =>
      (schedQueueSelect r 0 (r.core 0).current).2.1 = .idle 0 ∧
        (r.tcb (.thread 0)).wakeupTime = 110) (by decide +kernel)
  obtain ⟨hstep, hp⟩ := Bool.and_eq_true_iff.mp hp
  obtain ⟨s', hs'⟩ := Option.isSome_iff_exists.mp hstep
  obtain ⟨r, hr, hp⟩ := (Option.any_eq_true ..).mp hp
  obtain ⟨hidle, hwake⟩ := of_decide_eq_true hp
  have hreach : Reach Sched.step (fun _ e => ¬Sched.HitsNoTimeout e = true) (bootSched 1) s :=
    hs.mono fun _ _ hok => by simpa using hok
  obtain ⟨r', hr', hwork⟩ := idle_only_without_work hreach hs'
  obtain rfl := Option.some.inj (hr.symm.trans hr')
  exact ⟨s, r, hreach, hr, hidle, hwake, (hwork hidle).1⟩

end TinyOS
