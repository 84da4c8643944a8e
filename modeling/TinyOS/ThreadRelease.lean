import TinyOS.ReadyQueue
import TinyOS.SchedEffects

/-! Threads are released once, after they have exited and when no core and no list knows them; the
scheduler is left when all of them have been. -/

namespace TinyOS

open Transition

section Release

variable {s : Sched} {q ts : List TcbId} {place : TcbId → Place}

structure Sched.Releases (s : Sched) : Prop where
  frees : ∀ e s' t, ¬Sched.HitsNoTimeout e = true → s.step e = some s' →
    (s'.tcb t).released ≠ (s.tcb t).released →
    (∃ c, e = .gain c ∧ s.Frees c t) ∧ (s.tcb t).released = 0 ∧ (s'.tcb t).released = 1 ∧
    ¬s.holds .sched t ∧ ¬s.holds .timeoutList t ∧
      ∀ c, ¬(s.core c).uses t
  exited : ∀ t, (s.tcb t).state = .exited → (s.tcb t).phase = .clean → (s.tcb t).released = 1
  active : s.spinlock = none → (∀ t, (s.tcb t).spawning = none) →
    s.activeThreads =
      ((List.range s.spawned).countP fun n => (s.tcb (.thread n)).released = 0 : Nat)
  nonneg : 0 ≤ s.activeThreads
  left : ∀ c s', s.step (.leave c) = some s' → ∀ n, n < s.spawned → (s.tcb (.thread n)).released = 1

theorem Sched.Inv.released_le (h : s.Inv q ts place) (t : TcbId) :
    (s.tcb t).released = 0 ∨ (s.tcb t).released = 1 := by
  have hok := h.thread t
  cases hp : place t with
  | gone =>
    rw [hp] at hok
    exact .inr hok.2.2.1
  | _ =>
    rw [hp] at hok
    exact .inl hok.2.2.1

/-- Nobody is being created when no thread is counted. -/
theorem Sched.Threads.none_left (h : s.Threads)
    (hfresh : ∀ n, s.spawned ≤ n → s.tcb (.thread n) = freshTcb)
    (hzero : s.activeThreads = 0) {n : Nat} (hn : n < s.spawned) :
    (s.tcb (.thread n)).released ≠ 0 := by
  have hact := h.active
  have hcount : (List.range s.spawned).countP s.counted = 0 := by
    split at hact <;> omega
  have hnone : ∀ m, m < s.spawned → s.counted m = false := by
    intro m hm
    simpa using List.countP_eq_zero.mp hcount m (List.mem_range.mpr hm)
  intro hr
  cases hp : (s.tcb (.thread n)).published with
  | true =>
    have hc := hnone n hn
    simp [Sched.counted, hp, hr] at hc
  | false =>
    -- the thread that creates this one is counted
    obtain ⟨t, ht⟩ := h.unpublished n hn hp
    obtain ⟨-, -, hnormal, hinit, -, hrel⟩ := h.spawner t n ht
    cases t with
    | idle c => cases hnormal
    | thread m =>
      have hpub := Sched.Inv.published_of_state h hinit
      have hc : s.counted m = true := by simp [Sched.counted, hpub, hrel]
      have hm : m < s.spawned := by
        by_contra hge
        rw [hfresh m (Nat.le_of_not_lt hge)] at hinit
        exact hinit rfl
      rw [hnone m hm] at hc
      cases hc

theorem Sched.Sound.releases (h : s.Sound) : s.Releases := by
  obtain ⟨q, ts, place, hinv⟩ := h.inv
  refine ⟨fun e s' t hok hs hne => ?_, fun t hx hc => ?_, fun hlock hspawn => ?_,
    ?_, fun c s' hs n hn => ?_⟩
  · obtain hsame | ⟨⟨c, he, hfrees⟩, hrel⟩ := (hinv.tcb_step hok hs t).released
    · exact absurd hsame hne
    · obtain ⟨hpc, hprev, hcur, hexit⟩ := hfrees
      have hplace : place t = .onCore c := by
        rw [← hinv.stack]
        simp [Core.stack, hpc, hprev]
      have hzero := (hinv.started hplace).2
      refine ⟨⟨c, he, hpc, hprev, hcur, hexit⟩, hzero, by rw [hrel, hzero], ?_, ?_, fun d hd => ?_⟩
      · rw [hinv.lists.holds_sched]
        exact hinv.notMem_sched (by rw [hexit]; decide)
      · rw [hinv.lists.holds_timeouts]
        exact hinv.notMem_timeouts (by rw [hexit]; decide)
      · have hdc : d = c := by
          rcases hinv.place_of_uses hd with hp | hp
          · exact Place.onCore.inj (hp.symm.trans hplace)
          · cases hp.symm.trans hplace
        subst hdc
        rcases hd with hd | hd
        · exact hcur hd
        · cases hd.symm.trans hpc
  · have hok := hinv.thread t
    cases hp : place t with
    | gone =>
      rw [hp] at hok
      exact hok.2.2.1
    | onCore c => exact absurd hp (hok.clean hc c)
    | _ =>
      rw [hp] at hok
      cases hok.1.symm.trans hx
  · have hact := h.threads.active
    rw [if_pos hlock] at hact
    have hcounted : (List.range s.spawned).countP s.counted =
        (List.range s.spawned).countP fun n => (s.tcb (.thread n)).released = 0 := by
      apply List.countP_congr
      intro n hn
      have hpub : (s.tcb (.thread n)).published = true := by
        by_contra hp
        obtain ⟨t, ht⟩ := h.threads.unpublished n (List.mem_range.mp hn) (by simpa using hp)
        rw [hspawn t] at ht
        cases ht
      simp [Sched.counted, hpub]
    rw [hact, hcounted]
    simp
  · have hact := h.threads.active
    split at hact <;> omega
  · unfold Sched.step at hs
    replace hs := (Option.ite_none_left_eq_some.mp hs).2
    obtain ⟨⟨-, -, hzero⟩, -⟩ := Option.ite_none_right_eq_some.mp hs
    exact (hinv.released_le _).resolve_left (h.threads.none_left hinv.fresh hzero hn)

/-- `kernel_sleep` passes `NO_TIMEOUT`, so none of its steps is left out here. -/
theorem threads_released_once {cores : Nat}
    (h : Reach Sched.step (fun _ e => ¬Sched.HitsNoTimeout e = true) (bootSched cores) s) :
    s.Releases := (sched_sound_of_reach h).releases

end Release

/-- The main thread exits after the thread that it has created; the idle thread then releases it. -/
theorem threads_released_once_two_exits : ∃ s, Reach Sched.step
    (fun _ e => ¬Sched.HitsNoTimeout e = true) (bootSched 1) s ∧ s.Releases ∧ s.spawned = 2 ∧
      (s.tcb (.thread 1)).released = 1 ∧ (s.step (.leave 0)).isSome = true := by
  obtain ⟨s, hs, hp⟩ := exists_reach_of_guarded Sched.step (fun _ e => !Sched.HitsNoTimeout e)
    (bootSched 1) (runNext 100 ++ [.spawn 0, .count 0, .wakeup 0 (.thread 1)] ++ runNext 100 ++
      [.sleep 0 true noTimeout 100] ++ runNext 100 ++ [.released 0, .sleep 0 true noTimeout 100] ++
      runNext 100 ++ [.released 0])
    (fun s => s.spawned = 2 ∧ (s.tcb (.thread 1)).released = 1 ∧ (s.step (.leave 0)).isSome)
      (by decide +kernel)
  have hs' : Reach Sched.step (fun _ e => ¬Sched.HitsNoTimeout e = true) (bootSched 1) s :=
    hs.mono fun _ _ hok => by simpa using hok
  exact ⟨s, hs', threads_released_once hs', of_decide_eq_true hp⟩

end TinyOS
