import TinyOS.ReadyQueue
import TinyOS.SchedEffects

/-! Timed waits: when a thread that sleeps with a timeout is woken up by it. -/

namespace TinyOS

open Transition

/-- `Cond_TimedWait` and `sys_Connect` turn milliseconds into microseconds. -/
def timedWait (c timeout curtime : Nat) : SchedEvent :=
  .sleep c false (timeout * 1000 % 2 ^ 64) curtime

/-- The step does not wake up `t`, and no clock is read that shows `deadline` or more. -/
def SchedEvent.Before (t : TcbId) (deadline : Nat) (e : SchedEvent) : Prop :=
  (∀ c, e ≠ .wakeup c t) ∧ ∀ c curtime, e = .yield c curtime → curtime < deadline

/-- From here on, unless it is woken up before, `t` sleeps until the first `yield` that reads a
clock of `deadline` or more. -/
def Sched.ExpiresAt (s : Sched) (t : TcbId) (deadline : Nat) : Prop :=
  ∀ u, Reach Sched.step (fun _ e => ¬Sched.HitsNoTimeout e = true ∧ e.Before t deadline) s u →
    (u.tcb t).state = .stopped ∧ ∀ c curtime v, curtime < 2 ^ 64 →
    u.step (.yield c curtime) = some v →
      (v.tcb t).state = if deadline ≤ curtime then .ready else .stopped

def Sched.NeverExpires (s : Sched) (t : TcbId) : Prop :=
  ∀ u, Reach Sched.step (fun _ e => ¬Sched.HitsNoTimeout e = true ∧ ∀ c, e ≠ .wakeup c t) s u →
    (u.tcb t).state = .stopped

/-- What is asked of a timed wait that begins at `curtime`: a negative timeout of `Connect` is
infinite. -/
def Sched.TimesOut (s : Sched) (t : TcbId) (connect : Bool) (timeout curtime : Nat) : Prop :=
  if connect = true ∧ 2 ^ 63 ≤ timeout then s.NeverExpires t
    else s.ExpiresAt t (curtime + 1000 * timeout)

section Timed

variable {s s' u v : Sched} {t : TcbId} {c timeout curtime deadline : Nat}

structure Sched.Asleep (s : Sched) (t : TcbId) (w : Nat) : Prop where
  sound : s.Sound
  stopped : (s.tcb t).state = .stopped
  wakeupTime : (s.tcb t).wakeupTime = w

theorem Sched.Asleep.step {e : SchedEvent} {w : Nat} (h : s.Asleep t w) (hw : w ≠ noTimeout)
    (hok : ¬Sched.HitsNoTimeout e = true) (hwake : ∀ c, e ≠ .wakeup c t) (hs : s.step e = some s') :
    s'.Asleep t w ∧ (∀ c curtime, e = .yield c curtime → curtime < w) ∨
      ∃ c curtime, e = .yield c curtime ∧ w ≤ curtime ∧ (s'.tcb t).state = .ready := by
  obtain ⟨q, ts, place, hinv⟩ := h.sound.inv
  have hstep := (hinv.tcb_step hok hs t).sleeping h.stopped (by rw [h.wakeupTime]; exact hw) hwake
  rw [h.wakeupTime] at hstep
  rcases hstep with ⟨hst, hwx, hlater⟩ | hexp
  · exact .inl ⟨⟨h.sound.step hok hs, hst, hwx⟩, hlater⟩
  · exact .inr hexp

theorem Sched.Asleep.run {w : Nat} (h : s.Asleep t w) (hw : w ≠ noTimeout)
    (hr : Reach Sched.step (fun _ e => ¬Sched.HitsNoTimeout e = true ∧ e.Before t w) s u) :
    u.Asleep t w := by
  refine hr.invariant (I := fun u => u.Asleep t w) h fun u e v hI hok hs => ?_
  rcases hI.step hw hok.1 hok.2.1 hs with ⟨hv, -⟩ | ⟨c, curtime, he, hle, -⟩
  · exact hv
  · exact absurd (hok.2.2 c curtime he) (Nat.not_lt.mpr hle)

/-- The thread wakes up at its time, whatever that is. -/
theorem Sched.Asleep.expiresAt {w : Nat} (h : s.Asleep t w) (hw : w ≠ noTimeout) :
    s.ExpiresAt t w := by
  intro u hu
  have hasleep := h.run hw hu
  refine ⟨hasleep.stopped, fun c curtime v _ hv => ?_⟩
  rcases hasleep.step hw (by simp [Sched.HitsNoTimeout]) (by simp) hv with ⟨hv', hlater⟩ |
    ⟨c', curtime', he, hle, hst⟩
  · rw [if_neg (Nat.not_le.mpr (hlater c curtime rfl))]
    exact hv'.stopped
  · cases he
    rw [if_pos hle]
    exact hst

theorem Sched.Sound.timedWait (h : s.Sound) (hs : s.step (timedWait c timeout curtime) = some s')
    (hne : (curtime + timeout * 1000) % 2 ^ 64 ≠ noTimeout) :
    s'.Asleep (s.core c).current ((curtime + timeout * 1000) % 2 ^ 64) ∧
    (s'.core c).pc = .yielding ∧
      s'.spinlock = none ∧ c < s'.cores := by
  have hmod : (curtime + timeout * 1000 % 2 ^ 64) % 2 ^ 64 =
      (curtime + timeout * 1000) % 2 ^ 64 := by omega
  have htime : timeout * 1000 % 2 ^ 64 ≠ noTimeout := by
    -- the product is even
    unfold noTimeout
    omega
  have hok : ¬Sched.HitsNoTimeout (TinyOS.timedWait c timeout curtime) = true := by
    simp only [TinyOS.timedWait, Sched.HitsNoTimeout, hmod]
    simpa using fun _ => hne
  have hsound := h.step hok hs
  obtain ⟨q, ts, place, hinv⟩ := h.inv
  unfold Sched.step TinyOS.timedWait at hs
  obtain ⟨hcore, hs⟩ := Option.ite_none_left_eq_some.mp hs
  simp only [SchedEvent.core] at hs hcore
  obtain ⟨hg, hs⟩ := Option.ite_none_right_eq_some.mp hs
  have hpc : (s.core c).pc = .running ∧ (s.tcb (s.core c).current).spawning = none := by
    simpa [Sched.free] using hg.1
  obtain ⟨r, -, he, -, hr⟩ := hinv.sleep (timeout * 1000 % 2 ^ 64) curtime hpc.1 rfl hg.2.1
    false (fun _ _ => by rw [hmod]; exact hne)
  simp only [Bool.false_eq_true, if_false] at he hs
  rw [he, Option.getD_some] at hs
  obtain rfl := Option.some.inj hs
  refine ⟨⟨hsound, ?_, ?_⟩, ?_, ?_, ?_⟩
  · rw [hr]
    simp
  · rw [hr]
    simp only [hmod]
    simp
    intro he
    exact absurd he htime
  · rw [hr]
    simp
  · rw [hr]
    exact hg.2.2
  · rw [hr]
    have hlt := not_or.mp hcore
    exact Nat.lt_of_not_le hlt.2

/-- After a timed wait has begun, the core may reach its `yield` at any time. -/
theorem Sched.Sound.yields (h : s.Sound) (hpc : (s.core c).pc = .yielding)
    (hlock : s.spinlock = none)
    (hc : c < s.cores) (curtime : Nat) : ∃ v, s.step (.yield c curtime) = some v := by
  unfold Sched.step
  rw [if_neg (by simp [h.running, SchedEvent.core, hc])]
  exact ⟨_, if_pos ⟨.inr hpc, hlock⟩⟩

theorem Sched.Sound.timesOut_iff (h : s.Sound)
    (hs : s.step (TinyOS.timedWait c timeout curtime) = some s')
    (hne : (curtime + timeout * 1000) % 2 ^ 64 ≠ noTimeout) (connect : Bool) :
    s'.TimesOut (s.core c).current connect timeout curtime ↔ curtime + 1000 * timeout < 2 ^ 64 := by
  obtain ⟨hasleep, hpc, hlock, hc⟩ := h.timedWait hs hne
  have hexp := hasleep.expiresAt hne
  -- a `yield` of the same core at the largest clock reading
  obtain ⟨v, hv⟩ := hasleep.sound.yields hpc hlock hc (2 ^ 64 - 1)
  have hready : (v.tcb (s.core c).current).state = .ready := by
    rw [(hexp s' .refl).2 c _ v (by omega) hv, if_pos (by omega)]
  unfold Sched.TimesOut
  by_cases hconnect : connect = true ∧ 2 ^ 63 ≤ timeout
  · rw [if_pos hconnect]
    refine iff_of_false (fun hnever => ?_) (by omega)
    have hstopped := hnever v (.single ⟨_, ⟨by simp [Sched.HitsNoTimeout], by simp⟩, hv⟩)
    rw [hready] at hstopped
    cases hstopped
  · rw [if_neg hconnect]
    constructor
    · intro hexp'
      by_contra hge
      have hstopped := (hexp' s' .refl).2 c _ v (by omega) hv
      rw [if_neg (by omega), hready] at hstopped
      cases hstopped
    · intro hlt
      have hdeadline : (curtime + timeout * 1000) % 2 ^ 64 = curtime + 1000 * timeout := by omega
      rwa [hdeadline] at hexp

/-- The timeouts of one run are kept as long as no sum of a clock reading and a timeout leaves the
range of `TimerDuration` or is `NO_TIMEOUT`. -/
theorem timed_wait_expires {cores : Nat}
    (h : Reach Sched.step (fun _ e => ¬Sched.HitsNoTimeout e = true) (bootSched cores) s)
    (hs : s.step (TinyOS.timedWait c timeout curtime) = some s')
    (hne : (curtime + timeout * 1000) % 2 ^ 64 ≠ noTimeout) (connect : Bool) :
    s'.TimesOut (s.core c).current connect timeout curtime ↔ curtime + 1000 * timeout < 2 ^ 64 :=
  (sched_sound_of_reach h).timesOut_iff hs hne connect

end Timed

theorem timed_wait_expires_after_20 : ∃ s s', Reach Sched.step
    (fun _ e => ¬Sched.HitsNoTimeout e = true) (bootSched 1) s ∧
    s.step (timedWait 0 20 100) = some s' ∧
      s'.TimesOut (s.core 0).current true 20 100 := by
  obtain ⟨s, hs, hp⟩ := exists_reach_of_guarded Sched.step (fun _ e => !Sched.HitsNoTimeout e)
    (bootSched 1) (runNext 100) (fun s => (s.step (timedWait 0 20 100)).isSome) (by decide +kernel)
  have hs' : Reach Sched.step (fun _ e => ¬Sched.HitsNoTimeout e = true) (bootSched 1) s :=
    hs.mono fun _ _ hok => by simpa using hok
  obtain ⟨s', hstep⟩ := Option.isSome_iff_exists.mp hp
  exact ⟨s, s', hs', hstep, (timed_wait_expires hs' hstep (by decide) true).mpr (by decide)⟩

/-- A thread that is to wait forever, or for 2 ^ 64 - 1 milliseconds, is woken up at once: its
wakeup time is a millisecond before the time at which it begins to wait. -/
theorem infinite_connect_expires : ∃ s s', Reach Sched.step Always (bootSched 1) s ∧
    s.step (timedWait 0 (2 ^ 64 - 1) 5000) = some s' ∧
      (s'.tcb (s.core 0).current).wakeupTime = 4000 ∧
        ¬s'.TimesOut (s.core 0).current true (2 ^ 64 - 1) 5000 ∧
          ¬s'.TimesOut (s.core 0).current false (2 ^ 64 - 1) 5000 := by
  obtain ⟨s, hs, hp⟩ := exists_reach_of_guarded Sched.step (fun _ e => !Sched.HitsNoTimeout e)
    (bootSched 1)
    (runNext 100) (fun s => (s.step (timedWait 0 (2 ^ 64 - 1) 5000)).isSome) (by decide +kernel)
  have hs' : Reach Sched.step (fun _ e => ¬Sched.HitsNoTimeout e = true) (bootSched 1) s :=
    hs.mono fun _ _ hok => by simpa using hok
  obtain ⟨s', hstep⟩ := Option.isSome_iff_exists.mp hp
  have hsound := sched_sound_of_reach hs'
  refine ⟨s, s', hs'.always, hstep, ?_, fun ht => ?_, fun ht => ?_⟩
  · exact (hsound.timedWait hstep (by decide)).1.wakeupTime.trans (by decide)
  · exact absurd ((hsound.timesOut_iff hstep (by decide) true).mp ht) (by decide)
  · exact absurd ((hsound.timesOut_iff hstep (by decide) false).mp ht) (by decide)

end TinyOS
