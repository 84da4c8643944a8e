import TinyOS.ReadyQueue

/-! Bounded overtaking: while a thread waits in `SCHED`, every other thread is popped at most
once. -/

namespace TinyOS

open Transition

/-- What `sched_queue_select` is called with and returns, and whether that was popped from
`SCHED`. -/
structure Selection where
  core : Nat
  current : TcbId
  thread : TcbId
  popped : Bool
deriving DecidableEq

/-- A `yield` makes one selection, after it has woken up the threads whose timeouts have expired. -/
def Sched.selects (s : Sched) : SchedEvent → Option Selection
  | .yield c curtime => (yieldExpire s c curtime).map fun r =>
      let t := (r.core c).current
      ⟨c, t, (schedQueueSelect r c t).2.1, (schedQueueSelect r c t).2.2⟩
  | _ => none

/-- If the step makes a selection, then `t` is in `SCHED` at that moment and another thread is
returned. -/
def Sched.PassesOver (s : Sched) (t : TcbId) (e : SchedEvent) : Prop :=
  match e with
  | .yield c curtime => ∀ r, yieldExpire s c curtime = some r →
      r.holds .sched t ∧ (schedQueueSelect r c (r.core c).current).2.1 ≠ t
  | _ => True

section Overtaking

variable {s s' r : Sched} {q q' ts : List TcbId} {place : TcbId → Place}
  {t x : TcbId} {c : Nat} {e : SchedEvent}
  {os : List Selection}

theorem Sched.Inv.select_pops (h : r.Inv (x :: q) ts place) (hpc : (r.core c).pc = .yielding) :
    (schedQueueSelect r c (r.core c).current).2 = (x, true) ∧ x ≠ .idle c ∧
    x ≠ (r.core c).current := by
  have hplace := (h.queue x).mp List.mem_cons_self
  have hok := h.thread x
  rw [hplace] at hok
  refine ⟨(schedQueueSelect_cons h.lists _).1, ?_, ?_⟩
  · rintro rfl
    cases hok.2.2.2
  · rintro rfl
    rw [h.current (.inr hpc)] at hplace
    cases hplace

theorem selects_pop {curtime : Nat} (he : yieldExpire s c curtime = some r)
    (hsel : (schedQueueSelect r c (r.core c).current).2 = (x, true)) :
    s.selects (.yield c curtime) = some ⟨c, (r.core c).current, x, true⟩ := by
  rw [Sched.selects, he, Option.map_some]
  simp only [hsel]

/-- A thread that is queued stays so until it is selected. -/
theorem Sched.QueueStep.waits (h : s.QueueStep e q q') (ht : t ∈ q) :
    t ∈ q' ∨ ∃ o, s.selects e = some o ∧ o.thread = t ∧ o.popped = true := by
  cases e with
  | yield c curtime =>
    obtain ⟨r, q₁, ts, place, he, hinv, hpc, hq, rfl⟩ := h
    have hmem := hq.subset ht
    cases q₁ with
    | nil => cases hmem
    | cons x q₁ =>
      rcases List.mem_cons.mp hmem with rfl | hmem
      · right
        exact ⟨_, selects_pop he (hinv.select_pops hpc).1, rfl, rfl⟩
      · exact .inl hmem
  | _ => exact .inl (h.subset ht)

/-- The threads that are selected while `t` waits are different; if `t` waits from the beginning,
they are the ones before it. -/
theorem Sched.Sound.passed (h : s.Inv q ts place) (hth : s.Threads) (ha : s.aborted = false)
    (ho : Trace Sched.step (fun u e => ¬Sched.HitsNoTimeout e = true ∧ u.PassesOver t e)
      Sched.selects s os s') :
    (os.map Selection.thread).Nodup ∧
      (t ∈ q → os.map Selection.thread <+: q ∧ t ∉ os.map Selection.thread) ∧
      ∀ o ∈ os, o.popped = true ∧ o.thread ≠ .idle o.core ∧ o.thread ≠ o.current := by
  induction ho generalizing q ts place with
  | refl s => exact ⟨List.nodup_nil, fun _ => ⟨List.nil_prefix, List.not_mem_nil⟩,
    fun _ hm => absurd hm List.not_mem_nil⟩
  | @head s u v e os hok hstep _ ih =>
    obtain ⟨q', ts', place', hinv, hth', ha', hqueue, -⟩ := h.step hth ha hok.1 hstep
    obtain ⟨hnd, hpre, hpop⟩ := ih hinv hth' ha'
    -- a list of threads other than `t` that begins the longer queue begins the shorter one
    have hshort : ∀ {m q₁ : List TcbId}, q <+: q₁ → m <+: q₁ → t ∉ m → t ∈ q → m <+: q := by
      intro m q₁ hq hm hnot ht
      rcases List.prefix_or_prefix_of_prefix hm hq with hle | hle
      · exact hle
      · exact absurd (hle.subset ht) hnot
    cases e with
    | yield c curtime =>
      obtain ⟨r, q₁, ts₁, place₁, he, hinv₁, hpc, hq, rfl⟩ := hqueue
      obtain ⟨hholds, hne⟩ := hok.2 r he
      have hmem := hinv₁.lists.holds_sched.mp hholds
      cases q₁ with
      | nil => cases hmem
      | cons x q₁ =>
        obtain ⟨hsel, hidle, hcur⟩ := hinv₁.select_pops hpc
        rw [hsel] at hne
        have hmem₁ : t ∈ q₁ := (List.mem_cons.mp hmem).resolve_left (Ne.symm hne)
        obtain ⟨hle, hnot⟩ := hpre hmem₁
        have hx := (List.nodup_cons.mp hinv₁.lists.nodup_sched).1
        have hnot' : t ∉ x :: os.map Selection.thread := by
          intro hm
          rcases List.mem_cons.mp hm with he | hm
          · exact hne he.symm
          · exact hnot hm
        rw [selects_pop he hsel]
        refine ⟨List.nodup_cons.mpr ⟨fun hm => hx (hle.subset hm), hnd⟩,
          fun ht => ⟨?_, hnot'⟩, fun o hm => ?_⟩
        · exact hshort hq (List.cons_prefix_cons.mpr ⟨rfl, hle⟩) hnot' ht
        · rcases List.mem_cons.mp hm with rfl | hm
          · exact ⟨rfl, hidle, hcur⟩
          · exact hpop o hm
    | _ =>
      refine ⟨hnd, fun ht => ?_, hpop⟩
      obtain ⟨hle, hnot⟩ := hpre (hqueue.subset ht)
      exact ⟨hshort hqueue hle hnot ht, hnot⟩

/-- From the moment at which a thread is in `SCHED`, it stays there until it is selected; of the
selections up to then each is a pop, and no two are of the same thread. -/
theorem waiting_thread_overtaken_once {cores : Nat}
    (h : Reach Sched.step (fun _ e => ¬Sched.HitsNoTimeout e = true) (bootSched cores) s) :
    (∀ t e s', ¬Sched.HitsNoTimeout e = true → s.step e = some s' → s.holds .sched t →
      s'.holds .sched t ∨ ∃ o, s.selects e = some o ∧ o.thread = t ∧ o.popped = true) ∧
    ∀ t os s',
      Trace Sched.step (fun u e => ¬Sched.HitsNoTimeout e = true ∧
        u.PassesOver t e) Sched.selects s os s' →
      (os.map Selection.thread).Nodup ∧
        ∀ o ∈ os, o.popped = true ∧ o.thread ≠ .idle o.core ∧ o.thread ≠ o.current := by
  have hs := sched_sound_of_reach h
  obtain ⟨q, ts, place, hinv⟩ := hs.inv
  refine ⟨fun t e s' hok he ht => ?_, fun t os s' ho => ?_⟩
  · obtain ⟨q', ts', place', hinv', -, -, hqueue, -⟩ := hinv.step hs.threads hs.running hok he
    rcases hqueue.waits (hinv.lists.holds_sched.mp ht) with hm | hsel
    · exact .inl (hinv'.lists.holds_sched.mpr hm)
    · exact .inr hsel
  · obtain ⟨hnd, -, hpop⟩ := Sched.Sound.passed hinv hs.threads hs.running ho
    exact ⟨hnd, hpop⟩

end Overtaking

/-- The main thread creates two threads, and when it yields, thread 2 is passed over. -/
theorem waiting_thread_overtaken_once_by_one : ∃ s s' os, Reach Sched.step
    (fun _ e => ¬Sched.HitsNoTimeout e = true) (bootSched 1) s ∧
      Trace Sched.step (fun u e => ¬Sched.HitsNoTimeout e = true ∧
        u.PassesOver (.thread 2) e) Sched.selects s os s' ∧
      os = [⟨0, .thread 0, .thread 1, true⟩] ∧ (os.map Selection.thread).Nodup ∧
        ∀ o ∈ os, o.popped = true ∧ o.thread ≠ .idle o.core ∧ o.thread ≠ o.current := by
  obtain ⟨s, hs, hp⟩ := exists_reach_of_guarded Sched.step (fun _ e => !Sched.HitsNoTimeout e)
    (bootSched 1)
    (runNext 100 ++ [.spawn 0, .count 0, .wakeup 0 (.thread 1), .spawn 0,
      .count 0, .wakeup 0 (.thread 2)])
    (fun s => (s.step (.yield 0 100)).isSome ∧
      s.selects (.yield 0 100) = some ⟨0, .thread 0, .thread 1, true⟩ ∧
      ∀ r ∈ yieldExpire s 0 100, r.nodes.succ^[2] (.head .sched) = .tcb (.thread 2) ∧
        (schedQueueSelect r 0 (r.core 0).current).2.1 ≠ .thread 2) (by decide +kernel)
  obtain ⟨hstep, hsel, hpass⟩ := of_decide_eq_true hp
  obtain ⟨s', hs'⟩ := Option.isSome_iff_exists.mp hstep
  have hreach : Reach Sched.step (fun _ e => ¬Sched.HitsNoTimeout e = true) (bootSched 1) s :=
    hs.mono fun _ _ hok => by simpa using hok
  have htrace :
      Trace Sched.step (fun u e => ¬Sched.HitsNoTimeout e = true ∧ u.PassesOver (.thread 2) e)
      Sched.selects s [⟨0, .thread 0, .thread 1, true⟩] s' := by
    have hone :
        Trace Sched.step (fun u e => ¬Sched.HitsNoTimeout e = true ∧ u.PassesOver (.thread 2) e)
        Sched.selects s ((s.selects (.yield 0 100)).toList ++ []) s' := by
      refine .head ⟨by simp [Sched.HitsNoTimeout], fun r hr => ?_⟩ hs' (.refl s')
      obtain ⟨hq, hne⟩ := hpass r hr
      exact ⟨⟨2, hq⟩, hne⟩
    rwa [hsel] at hone
  exact ⟨s, s', _, hreach, htrace, rfl, (waiting_thread_overtaken_once hreach).2 _ _ _ htrace⟩

/-- Once the two rings are one, the queue begins with the head of the timeout list, and the core
stays with its own thread although another one waits. -/
theorem sentinel_sleeper_not_selected : ∃ s s', Reach Sched.step Always (bootSched 1) s ∧
    s.holds .sched (.thread 1) ∧
    Trace Sched.step (fun u e => u.PassesOver (.thread 1) e) Sched.selects s
      [⟨0, .thread 2, .thread 2, false⟩] s' := by
  obtain ⟨s, hs, hp⟩ := exists_reach_of_exec Sched.step (bootSched 1)
    (twoSleepers (2 ^ 64 - 102) ++ [.wakeup 0 (.thread 1)])
    (fun s => s.nodes.succ^[3] (.head .sched) = .tcb (.thread 1) ∧ (s.step (.yield 0 101)).isSome ∧
      s.selects (.yield 0 101) = some ⟨0, .thread 2, .thread 2, false⟩ ∧
      ∀ r ∈ yieldExpire s 0 101, r.nodes.succ^[3] (.head .sched) = .tcb (.thread 1) ∧
        (schedQueueSelect r 0 (r.core 0).current).2.1 ≠ .thread 1) (by decide +kernel)
  obtain ⟨hnext, hstep, hsel, hpass⟩ := of_decide_eq_true hp
  obtain ⟨s', hs'⟩ := Option.isSome_iff_exists.mp hstep
  refine ⟨s, s', hs, ⟨3, hnext⟩, ?_⟩
  have hone : Trace Sched.step (fun u e => u.PassesOver (.thread 1) e) Sched.selects s
      ((s.selects (.yield 0 101)).toList ++ []) s' := by
    refine .head (fun r hr => ?_) hs' (.refl s')
    obtain ⟨hq, hne⟩ := hpass r hr
    exact ⟨⟨3, hq⟩, hne⟩
  rwa [hsel] at hone

end TinyOS
