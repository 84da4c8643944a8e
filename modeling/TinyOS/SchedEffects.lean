import TinyOS.SchedRun

/-! What one step of a core can do to one thread. -/

namespace TinyOS

open Transition

def Sched.Frees (s : Sched) (c : Nat) (t : TcbId) : Prop :=
  (s.core c).pc = .gaining ∧ (s.core c).previous = some t ∧ (s.core c).current ≠ t ∧
    (s.tcb t).state = .exited

inductive Sched.TcbStep (s : Sched) (t : TcbId) : SchedEvent → SchedTcb → Prop
  | same {e : SchedEvent} {x : SchedTcb} : x.state = (s.tcb t).state →
      x.wakeupTime = (s.tcb t).wakeupTime → x.released = (s.tcb t).released →
      (∀ c curtime, e = .yield c curtime → (s.tcb t).wakeupTime ≠ noTimeout →
        curtime < (s.tcb t).wakeupTime) →
      TcbStep s t e x
  | preempted {c curtime : Nat} {x : SchedTcb} :
      t = (s.core c).current → (s.tcb t).state = .running →
      x.released = (s.tcb t).released → TcbStep s t (.yield c curtime) x
  | expired {c curtime : Nat} {x : SchedTcb} : (s.tcb t).wakeupTime ≤ curtime → x.state = .ready →
      x.released = (s.tcb t).released → TcbStep s t (.yield c curtime) x
  | woken {c : Nat} {x : SchedTcb} : x.released = (s.tcb t).released → TcbStep s t (.wakeup c t) x
  | slept {c timeout curtime : Nat} {exit : Bool} {x : SchedTcb} : t = (s.core c).current →
      (s.tcb t).state = .running →
      x = { s.tcb t with
        state := if exit then .exited else .stopped
        wakeupTime := if exit = false ∧ timeout ≠ noTimeout then (curtime + timeout) % 2 ^ 64
          else noTimeout } → TcbStep s t (.sleep c exit timeout curtime) x
  | resumed {c : Nat} {x : SchedTcb} : (s.tcb t).state = .ready → x.released = (s.tcb t).released →
      TcbStep s t (.gain c) x
  | freed {c : Nat} {x : SchedTcb} :
      s.Frees c t → x.released = (s.tcb t).released + 1 → TcbStep s t (.gain c) x

section Effects

variable {s s' : Sched} {q ts : List TcbId} {place : TcbId → Place} {t : TcbId} {e : SchedEvent}

/-- A field that every update of the thread keeps. -/
theorem setTcb_field {α : Type*} (s : Sched) (u t : TcbId) {f : SchedTcb → SchedTcb}
    {g : SchedTcb → α}
    (hf : g (f (s.tcb u)) = g (s.tcb u)) : g ((s.setTcb u f).tcb t) = g (s.tcb t) := by
  by_cases ht : t = u
  · subst ht
    simp [Sched.setTcb, hf]
  · simp [Sched.setTcb, ht]

theorem countThread_field {α : Type*} (s : Sched) (u t : TcbId) (n : Nat) {g : SchedTcb → α}
    (hp : ∀ x : SchedTcb, g { x with published := true } = g x)
    (hs : ∀ x : SchedTcb, g { x with spawning := none } = g x) :
    g ((countThread s u n).tcb t) = g (s.tcb t) := by
  have hfirst := setTcb_field s (.thread n) t (f := fun x => { x with published := true }) (hp _)
  have hsecond := setTcb_field (s.setTcb (.thread n) fun x => { x with published := true }) u t
    (f := fun x => { x with spawning := none }) (hs _)
  exact hsecond.trans hfirst

theorem spawnThread_field {α : Type*} (s : Sched) (u t : TcbId) {g : SchedTcb → α}
    (hnew : s.tcb (.thread s.spawned) = freshTcb)
    (hs : ∀ (x : SchedTcb) (n : Nat), g { x with spawning := some n } = g x) :
    g ((s.spawnThread u).tcb t) = g (s.tcb t) := by
  have hfirst := setTcb_field s (.thread s.spawned) t (f := fun _ => freshTcb)
    (g := g) (by rw [hnew])
  have hsecond := setTcb_field (s.setTcb (.thread s.spawned) fun _ => freshTcb) u t
    (f := fun x => { x with spawning := some s.spawned }) (hs _ _)
  exact hsecond.trans hfirst

theorem Sched.TcbStep.unchanged {x : SchedTcb} (hx : x = s.tcb t)
    (he : ∀ c curtime, e ≠ .yield c curtime) : s.TcbStep t e x := by
  subst hx
  exact .same rfl rfl rfl fun c curtime heq => absurd heq (he c curtime)

theorem tcbStep_wakeup {u : TcbId} (h : s.Inv q ts place)
    (hold : ∀ n, s.spawned ≤ n → u ≠ .thread n) (t : TcbId) :
    ∃ r, wakeup s u = some r ∧ s.TcbStep t (.wakeup c u) (r.tcb t) := by
  obtain ⟨r, -, -, -, l, he, -, hwakes, hl, -⟩ := h.wakeup hold
  refine ⟨r, he, ?_⟩
  by_cases ht : t ∈ l
  · obtain rfl := hl t ht
    exact .woken (by rw [hwakes.ready t ht])
  · exact .unchanged (hwakes.same t ht) (by simp)

theorem enterYield_kept (s : Sched) (c : Nat) (u : TcbId) :
    ((s.enterYield c).tcb u).wakeupTime = (s.tcb u).wakeupTime ∧
    ((s.enterYield c).tcb u).released = (s.tcb u).released := by
  rw [enterYield_tcb]
  by_cases hu : u = (s.core c).current
  · subst hu
    simp
  · simp [hu]

theorem tcbStep_yield (h : s.Inv q ts place) (curtime : Nat)
    (hpc : (s.core c).pc = .running ∨ (s.core c).pc = .yielding) (t : TcbId) :
    ∃ r, yieldExpire s c curtime = some r ∧
      s.TcbStep t (.yield c curtime) ((yieldSelect r c).tcb t) := by
  obtain ⟨r, -, -, l, ts', he, -, hwakes, -, hts, hdue, hlater⟩ := h.expire curtime hpc
  refine ⟨r, he, ?_⟩
  rw [(yieldSelect_rest r c).1]
  obtain ⟨hwake, hrel⟩ := enterYield_kept s c t
  by_cases ht : t ∈ l
  · refine .expired ?_ (by rw [hwakes.ready t ht]) (by rw [hwakes.ready t ht]; exact hrel)
    rw [← hwake]
    exact hdue t ht
  · rw [hwakes.same t ht]
    by_cases hrun : t = (s.core c).current ∧ (s.tcb t).state = .running
    · exact .preempted hrun.1 hrun.2 hrel
    · refine .same ?_ hwake hrel fun c' curtime' heq hw => ?_
      · rw [enterYield_tcb]
        by_cases hu : t = (s.core c).current
        · subst hu
          simp only [true_and] at hrun
          simp [hrun]
        · simp [hu]
      · cases heq
        have hmem := (h.timeouts t).mpr hw
        rw [hts] at hmem
        rw [← hwake]
        exact hlater t ((List.mem_append.mp hmem).resolve_left ht)

theorem tcbStep_gain (h : s.Inv q ts place) (hpc : (s.core c).pc = .gaining) (t : TcbId) :
    ∃ r, gain s c = some r ∧ s.TcbStep t (.gain c) (r.tcb t) := by
  have hready := h.cores c
  unfold Sched.CoreOk at hready
  simp only [hpc] at hready
  obtain ⟨r, -, -, he, -⟩ := h.gain hpc
  refine ⟨r, he, ?_⟩
  obtain ⟨p, nodes, hprev, ⟨hcur, rfl⟩ | ⟨hne, -, rfl⟩ | ⟨hne, hexit, rfl⟩⟩ := gain_cases he
  · by_cases ht : t = p
    · subst ht
      exact .resumed (by rw [← hcur]; exact hready.1) (by simp [Sched.setCore, Sched.setTcb])
    · exact .unchanged (by simp [Sched.setCore, Sched.setTcb, ht]) (by simp)
  · by_cases htc : t = (s.core c).current
    · subst htc
      exact .resumed hready.1 (by simp [Sched.setCore, Sched.setTcb, hne])
    · by_cases ht : t = p
      · subst ht
        exact .same (by simp [Sched.setCore, Sched.setTcb, htc])
          (by simp [Sched.setCore, Sched.setTcb, htc])
          (by simp [Sched.setCore, Sched.setTcb, htc]) (by simp)
      · exact .unchanged (by simp [Sched.setCore, Sched.setTcb, ht, htc]) (by simp)
  · by_cases htc : t = (s.core c).current
    · subst htc
      exact .resumed hready.1 (by simp [Sched.setCore, Sched.setTcb, hne])
    · by_cases ht : t = p
      · subst ht
        exact .freed ⟨hpc, hprev, hne, hexit⟩ (by simp [Sched.setCore, Sched.setTcb, htc])
      · exact .unchanged (by simp [Sched.setCore, Sched.setTcb, ht, htc]) (by simp)

theorem Sched.Inv.tcb_step (h : s.Inv q ts place) (hok : ¬Sched.HitsNoTimeout e = true)
    (hs : s.step e = some s') (t : TcbId) : s.TcbStep t e (s'.tcb t) := by
  unfold Sched.step at hs
  replace hs := (Option.ite_none_left_eq_some.mp hs).2
  cases e with
  | spawn c =>
    obtain ⟨-, hs⟩ := Option.ite_none_right_eq_some.mp hs
    obtain rfl := Option.some.inj hs
    have hnew := h.fresh s.spawned (Nat.le_refl _)
    exact .same (spawnThread_field s _ t hnew fun _ _ => rfl)
      (spawnThread_field s _ t hnew fun _ _ => rfl)
      (spawnThread_field s _ t hnew fun _ _ => rfl) (by simp)
  | count c =>
    obtain ⟨-, hs⟩ := Option.ite_none_right_eq_some.mp hs
    obtain ⟨n, -, rfl⟩ := Option.map_eq_some_iff.mp hs
    exact .same (countThread_field s _ t n (fun _ => rfl) fun _ => rfl)
      (countThread_field s _ t n (fun _ => rfl) fun _ => rfl)
      (countThread_field s _ t n (fun _ => rfl) fun _ => rfl) (by simp)
  | wakeup c u =>
    obtain ⟨hg, hs⟩ := Option.ite_none_right_eq_some.mp hs
    have hold : ∀ n, s.spawned ≤ n → u ≠ .thread n := by
      rintro n hn rfl
      have hp := hg.2.2.1
      rw [h.fresh n hn] at hp
      cases hp
    obtain ⟨r, he, ht⟩ := tcbStep_wakeup (c := c) h hold t
    rw [he, Option.getD_some] at hs
    obtain rfl := Option.some.inj hs
    exact ht
  | sleep c exit timeout curtime =>
    simp only [SchedEvent.core] at hs
    obtain ⟨hg, hs⟩ := Option.ite_none_right_eq_some.mp hs
    have hpc : (s.core c).pc = .running ∧ (s.tcb (s.core c).current).spawning = none := by
      simpa [Sched.free] using hg.1
    have hrun := h.cores c
    unfold Sched.CoreOk at hrun
    simp only [hpc.1] at hrun
    have hno : exit = false → timeout ≠ noTimeout → (curtime + timeout) % 2 ^ 64 ≠ noTimeout := by
      intro he ht hc
      apply hok
      simp only [Sched.HitsNoTimeout, hc]
      simp [he, ht]
    obtain ⟨r, -, he, -, hr⟩ := h.sleep timeout curtime hpc.1 rfl hg.2.1 exit hno
    rw [he, Option.getD_some] at hs
    obtain rfl := Option.some.inj hs
    have htcb := congrArg (fun r : Sched => r.tcb t) hr
    by_cases ht : t = (s.core c).current
    · subst ht
      exact .slept rfl hrun (by simpa using htcb)
    · exact .unchanged (by simpa [ht] using htcb) (by simp)
  | yield c curtime =>
    obtain ⟨hg, hs⟩ := Option.ite_none_right_eq_some.mp hs
    obtain ⟨r, he, ht⟩ := tcbStep_yield h curtime hg.1 t
    rw [he, Option.map_some, Option.getD_some] at hs
    obtain rfl := Option.some.inj hs
    exact ht
  | switch c =>
    dsimp only at hs
    split at hs
    · obtain rfl := Option.some.inj hs
      exact .unchanged rfl (by simp)
    · cases hs
  | gain c =>
    obtain ⟨hg, hs⟩ := Option.ite_none_right_eq_some.mp hs
    obtain ⟨r, he, ht⟩ := tcbStep_gain h hg.1 t
    rw [he, Option.getD_some] at hs
    obtain rfl := Option.some.inj hs
    exact ht
  | released c =>
    obtain ⟨-, hs⟩ := Option.ite_none_right_eq_some.mp hs
    obtain rfl := Option.some.inj hs
    exact .unchanged rfl (by simp)
  | leave c =>
    obtain ⟨-, hs⟩ := Option.ite_none_right_eq_some.mp hs
    obtain rfl := Option.some.inj hs
    exact .unchanged rfl (by simp)

/-- Only `gain` releases, and only the thread that it has left. -/
theorem Sched.TcbStep.released {x : SchedTcb} (h : s.TcbStep t e x) :
    x.released = (s.tcb t).released ∨
    (∃ c, e = .gain c ∧ s.Frees c t) ∧ x.released = (s.tcb t).released + 1 := by
  cases h with
  | same _ _ hr _ => exact .inl hr
  | preempted _ _ hr => exact .inl hr
  | expired _ _ hr => exact .inl hr
  | woken hr => exact .inl hr
  | slept _ _ hx => exact .inl (by rw [hx])
  | resumed _ hr => exact .inl hr
  | freed hf hr => exact .inr ⟨⟨_, rfl, hf⟩, hr⟩

/-- A sleeping thread goes on sleeping unless it is woken up or its time has come. -/
theorem Sched.TcbStep.sleeping {x : SchedTcb} (h : s.TcbStep t e x)
    (hst : (s.tcb t).state = .stopped)
    (hw : (s.tcb t).wakeupTime ≠ noTimeout) (hwake : ∀ c, e ≠ .wakeup c t) :
    x.state = .stopped ∧ x.wakeupTime = (s.tcb t).wakeupTime ∧
        (∀ c curtime, e = .yield c curtime → curtime < (s.tcb t).wakeupTime) ∨
      ∃ c curtime, e = .yield c curtime ∧ (s.tcb t).wakeupTime ≤ curtime ∧ x.state = .ready := by
  cases h with
  | same hx hwx _ hlater =>
    exact .inl ⟨hx.trans hst, hwx, fun c curtime he => hlater c curtime he hw⟩
  | preempted _ hrun _ => cases hst.symm.trans hrun
  | expired hle hx _ => exact .inr ⟨_, _, rfl, hle, hx⟩
  | woken _ => exact absurd rfl (hwake _)
  | slept _ hrun _ => cases hst.symm.trans hrun
  | resumed hready _ => cases hst.symm.trans hready
  | freed hf _ => cases hst.symm.trans hf.2.2.2

end Effects

end TinyOS
