import TinyOS.ThreadJoining

/-! When a `ThreadJoin` may still succeed after another one has. The PTCB of the target
stays in the list of its process until the last thread inside `sys_ThreadJoin` leaves. -/

namespace TinyOS

open Transition Counting

/-- The kernel and, as history, the tids whose present thread a `ThreadJoin` has
returned 0 for. -/
structure JoinHistory where
  kernel : Kernel
  joined : Tid → Bool

def Kernel.joinTarget (k : Kernel) : ProcEvent → Option Tid
  | .threadJoin _ tid _ => some tid
  | .proceed t =>
    match k.pcOf t with
    | some (.joining tid _) => some tid
    | _ => none
  | _ => none

/-- A tid is recycled when a PTCB is allocated at it. -/
def JoinHistory.step (s : JoinHistory) (e : ProcEvent) : Option JoinHistory :=
  (s.kernel.stepRet e).map fun r =>
    { kernel := r.1
      joined := fun a =>
        if (s.kernel.ptcbs a).isNone && (r.1.ptcbs a).isSome then false
        else s.joined a || s.kernel.joinTarget e = some a && r.2.any (·.val = 0) }

def JoinHistory.start (k : Kernel) : JoinHistory where
  kernel := k
  joined _ := false

abbrev JoinHistory.NotReaped (s : JoinHistory) (e : ProcEvent) : Prop := notReaped s.kernel e = true

/-- The targets joined so far have exited, and those still allocated have joiners left. -/
def Consumed (k : Kernel) (joined : Tid → Bool) : Prop :=
  ∀ a c, joined a = true → k.ptcbs a = some c → c.exited = 1 ∧ c.detached = 0 ∧ c.refcount ≠ 0

section Consume

variable {k k' : Kernel} {v w : TableView} {t : ThreadId} {tcb : TCB} {a : Tid} {c : PTCB}
  {status : Bool} {ret : Ret}

theorem Running.exists_joiner (hr : Running k v) (hc : k.ptcbs a = some c) (hn : c.refcount ≠ 0) :
    ∃ (u : Nat) (x : TCB), k.threads[u]? = some x ∧ x.pc.joins a = true := by
  have hcount := hr.refcount a c hc
  have hpos : 0 < k.threads.countP (·.pc.joins a) := by omega
  obtain ⟨x, hx, hj⟩ := List.countP_pos_iff.mp hpos
  obtain ⟨u, hu⟩ := List.getElem?_of_mem hx
  exact ⟨u, x, hu, hj⟩

/-- A joiner that leaves with 0 frees the PTCB unless others are left. -/
theorem threadJoinLoop_zero (hc : k.ptcbs a = some c)
    (hf : (c.exited = 0 ∨ c.exited = 1) ∧ (c.detached = 0 ∨ c.detached = 1))
    (h : threadJoinLoop k t a status = (k', some ret)) (hz : ret.val = 0) {d : PTCB}
    (hd : k'.ptcbs a = some d) : d.exited = 1 ∧ d.detached = 0 ∧ d.refcount ≠ 0 := by
  by_cases hs : c.exited = 0 ∧ c.detached = 0
  · rw [threadJoinLoop_sleep hc hs] at h
    simp at h
  have hret := threadJoinLoop_ret (t := t) hc hs status
  rw [h] at hret
  have hdet : c.detached ≠ 1 := by
    intro hdet
    obtain rfl : ret = joinResult c status := by simpa using hret
    simp [joinResult, hdet] at hz
  by_cases hzero : c.refcount - 1 = 0
  · rw [threadJoinLoop_free hc hs hdet hzero] at h
    obtain ⟨rfl, -⟩ : _ = k' ∧ _ = ret := by simpa using h
    simp [freePtcb] at hd
  · rw [threadJoinLoop_leave hc hs (.inr hzero)] at h
    obtain ⟨rfl, -⟩ : _ = k' ∧ _ = ret := by simpa using h
    obtain rfl : { c with refcount := c.refcount - 1 } = d := by simpa [Kernel.touch] using hd
    refine ⟨?_, ?_, hzero⟩
    · show c.exited = 1
      omega
    · show c.detached = 0
      omega

/-- A joiner that stays keeps what holds of the target. -/
theorem Kept.consumed (hk : Kept k k' t) (hw : Running k' w) {u : ThreadId} {x : TCB} (hut : u ≠ t)
    (hu : k.threads[u]? = some x) (hj : x.pc.joins a = true) (hc : k.ptcbs a = some c)
    (hx : c.exited = 1 ∧ c.detached = 0) {d : PTCB} (hd : k'.ptcbs a = some d) :
    d.exited = 1 ∧ d.detached = 0 ∧ d.refcount ≠ 0 := by
  obtain ⟨d', hd', hex, -⟩ := hk.joined u x a c hut hu hj hc
  obtain rfl : d = d' := Option.some.inj (hd.symm.trans hd')
  have hpos := countP_pos_of_getElem? (p := fun x : TCB => x.pc.joins a) (hk.others u x hut hu) hj
  have hcount := hw.refcount a d hd
  obtain ⟨he, -, hdet⟩ := hex hx.1
  exact ⟨he, hdet.trans hx.2, by omega⟩

theorem Running.join_returns (hr : Running k v) {e : ProcEvent}
    (h : k.stepRet e = some (k', some ret))
    (ha : k.joinTarget e = some a) (hz : ret.val = 0) {d : PTCB} (hd : k'.ptcbs a = some d) :
    d.exited = 1 ∧ d.detached = 0 ∧ d.refcount ≠ 0 := by
  simp only [Kernel.stepRet] at h
  split at h
  · simp at h
  cases hx : k.threads[e.thread]? with
  | none => simp [hx] at h
  | some x =>
    simp only [hx] at h
    cases e with
    | threadJoin u b s =>
      obtain rfl : b = a := by simpa [Kernel.joinTarget] using ha
      split at h
      · simp only [Kernel.call, sysThreadJoin, Option.some.injEq] at h
        split at h
        · obtain ⟨-, rfl⟩ : _ = k' ∧ _ = ret := by simpa using h
          simp at hz
        rename_i hfind
        obtain ⟨c, hc⟩ := hr.mem_ptcbs (not_not.mp fun h => hfind ((hr.table.find _ b).mpr h))
        simp only [hc] at h
        split at h
        · obtain ⟨-, rfl⟩ : _ = k' ∧ _ = ret := by simpa using h
          simp at hz
        · refine threadJoinLoop_zero (c := { c with refcount := c.refcount + 1 }) ?_
            (hr.flags b c hc) h hz hd
          simp [Kernel.setPTCB, hc]
      · simp at h
    | proceed u =>
      simp only [ProcEvent.thread] at hx
      simp only [Kernel.joinTarget, Kernel.pcOf, hx, Option.map_some] at ha
      split at ha
      · rename_i tid s hpc
        obtain rfl : tid = a := by simpa using ha
        have hpc : x.pc = .joining tid s := by simpa using hpc
        obtain ⟨c, hc⟩ := hr.mem_ptcbs (hr.joining u x tid hx (joins_of_pc hpc))
        simp only [hpc, reduceCtorEq, if_false, Kernel.goOn] at h
        split at h
        · simp at h
        · exact threadJoinLoop_zero hc (hr.flags tid c hc) (Option.some.inj h) hz hd
      · simp at ha
    | _ => simp [Kernel.joinTarget] at ha

/-- A thread that wakes up in `sys_ThreadJoin` on an exited target returns 0. -/
theorem join_leaves {e : ProcEvent} {r : Option Ret}
    (h : k.stepRet e = some (k', r)) (ht : k.threads[e.thread]? = some tcb)
    (hj : tcb.pc.joins a = true) (hc : k.ptcbs a = some c) (hx : c.exited = 1 ∧ c.detached = 0) :
    k.joinTarget e = some a ∧ ∃ ret, r = some ret ∧ ret.val = 0 := by
  obtain ⟨s, hpc⟩ : ∃ s, tcb.pc = .joining a s := by
    cases hp : tcb.pc with
    | joining b s =>
      obtain rfl : b = a := by simpa [hp, ThreadPc.joins] using hj
      exact ⟨s, rfl⟩
    | _ => simp [hp, ThreadPc.joins] at hj
  have hs : ¬(c.exited = 0 ∧ c.detached = 0) := by omega
  simp only [Kernel.stepRet, ht, hpc, reduceCtorEq, if_false] at h
  split at h
  · simp at h
  cases e with
  | proceed u =>
    simp only [ProcEvent.thread] at ht
    refine ⟨by simp [Kernel.joinTarget, Kernel.pcOf, ht, hpc], joinResult c s, ?_, ?_⟩
    · simp only [Kernel.goOn, hpc] at h
      split at h
      · simp at h
      · have hret := threadJoinLoop_ret (t := u) hc hs s
        rw [Option.some.inj h] at hret
        exact hret
    · simp [joinResult, hx.2]
  | _ => simp at h

theorem Consumed.step {s s' : JoinHistory} {e : ProcEvent} (hr : Running s.kernel v)
    (hcons : Consumed s.kernel s.joined) (hok : s.NotReaped e) (he : s.step e = some s')
    (hw : Running s'.kernel w) : Consumed s'.kernel s'.joined := by
  obtain ⟨⟨k', r⟩, hstep, rfl⟩ := Option.map_eq_some_iff.mp he
  obtain ⟨⟨hkept, -⟩, -⟩ := hr.stepRet hok hstep
  intro a d hj hd
  have hd : k'.ptcbs a = some d := hd
  simp only [hd, Option.isSome_some, Bool.and_true] at hj
  cases hc : s.kernel.ptcbs a with
  | none => simp [hc] at hj
  | some c =>
    simp only [hc, Option.isNone_some, Bool.false_eq_true, if_false, Bool.or_eq_true] at hj
    rcases hj with hj | hj
    · obtain ⟨hex, hdet, hn⟩ := hcons a c hj hc
      obtain ⟨u, x, hu, hx⟩ := hr.exists_joiner hc hn
      by_cases hut : u = e.thread
      · subst hut
        obtain ⟨ha, ret, rfl, hz⟩ := join_leaves hstep hu hx hc ⟨hex, hdet⟩
        exact hr.join_returns hstep ha hz hd
      · exact hkept.consumed hw hut hu hx hc ⟨hex, hdet⟩ hd
    · obtain ⟨ha, hz⟩ : s.kernel.joinTarget e = some a ∧ r.any (·.val = 0) = true := by
        simpa using hj
      obtain ⟨ret, rfl, hz⟩ := (Option.any_eq_true _ _).mp hz
      exact hr.join_returns hstep ha (by simpa using hz) hd

end Consume

theorem JoinHistory.reach {task : Task} {argl : Int} {args : ExecArgs argl}
    {a : Tid} {s : JoinHistory}
    (h : Reach JoinHistory.step JoinHistory.NotReaped (.start (bootKernel task argl args a)) s) :
    (∃ v, Running s.kernel v ∧ Consumed s.kernel s.joined) ∨ Ended s.kernel := by
  refine h.invariant
    (I := fun s => (∃ v, Running s.kernel v ∧ Consumed s.kernel s.joined) ∨ Ended s.kernel) ?_ ?_
  · obtain ⟨v, hr⟩ := Running.boot task argl args a
    generalize bootKernel task argl args a = k at hr
    refine .inl ⟨v, hr, ?_⟩
    intro b c hj
    simp [JoinHistory.start] at hj
  · intro s e s' hgood hok he
    obtain ⟨⟨k', r⟩, hstep, rfl⟩ := Option.map_eq_some_iff.mp he
    rcases hgood with ⟨v, hr, hcons⟩ | hend
    · obtain ⟨⟨-, ⟨w, hw⟩ | hend⟩, -⟩ := hr.stepRet hok hstep
      · exact .inl ⟨w, hw, hcons.step hr hok he hw⟩
      · exact .inr hend
    · rw [hend.stepRet e] at hstep
      simp at hstep

/-- Two threads of init join a third one, which exits; one of them returns 0 and joins
again before the other has been resumed. -/
theorem threadJoin_succeeds_again : ∃ s, Reach JoinHistory.step JoinHistory.NotReaped
    (.start (bootKernel 0 0 none 1)) s ∧ s.joined 2 = true ∧
    ∃ k, s.kernel.stepRet (.threadJoin 0 2 true) = some (k, some ⟨0, some 7⟩) := by
  obtain ⟨s, hs, hp⟩ := exists_reach_of_guarded JoinHistory.step (fun s e => notReaped s.kernel e)
    (.start (bootKernel 0 0 none 1))
    [.createThread 0 (some 5) 0 none 2, .createThread 0 (some 6) 0 none 3, .threadJoin 0 2 true,
      .threadJoin 2 2 true, .threadExit 1 7, .proceed 0]
    (fun s => s.joined 2 = true ∧
      (s.kernel.stepRet (.threadJoin 0 2 true)).any (·.2 = some ⟨0, some 7⟩) = true)
    (by rw [bootKernel_eq]; decide +kernel)
  obtain ⟨hj, hr⟩ := of_decide_eq_true hp
  obtain ⟨⟨k, r⟩, hk, hr⟩ := (Option.any_eq_true _ _).mp hr
  obtain rfl : r = some ⟨0, some 7⟩ := by simpa using hr
  exact ⟨s, hs, hj, k, hk⟩

/-- After a successful `ThreadJoin`, another one is refused if and only if no thread of
the caller's process is still inside `sys_ThreadJoin` for the same target. -/
theorem join_consumes {task : Task} {argl : Int} {args : ExecArgs argl} {b : Tid} {s : JoinHistory}
    (h : Reach JoinHistory.step JoinHistory.NotReaped (.start (bootKernel task argl args b)) s)
    (hp : s.kernel.panicked = false) {t : ThreadId} {tcb : TCB}
    (ht : s.kernel.threads[t]? = some tcb) (hpc : tcb.pc = .user) {a : Tid}
    (ha : s.joined a = true) (status : Bool) :
    s.kernel.stepRet (.threadJoin t a status) = some (s.kernel, some ⟨-1, none⟩) ↔
      ∀ (u : Nat) (x : TCB), s.kernel.threads[u]? = some x → x.ownerPcb = tcb.ownerPcb →
        x.pc.joins a = false := by
  have hl : tcb.live = true := by simp [TCB.live, hpc]
  rcases JoinHistory.reach h with ⟨v, hr, hcons⟩ | hend
  · constructor
    · intro hret u x hu hown
      by_contra hj
      have hav := hr.joining u x a hu (by simpa using hj)
      rw [hown] at hav
      obtain ⟨c, hc⟩ := hr.mem_ptcbs hav
      obtain ⟨hex, hdet, -⟩ := hcons a c ha hc
      have hfind := mt (hr.table.find tcb.ownerPcb a).mp (not_not.mpr hav)
      have hself : tcb.ptcb ≠ some a := by
        intro hself
        obtain ⟨a', d, ha', -, hd, -, h0⟩ := hr.self t tcb ht hl
        obtain rfl : a = a' := Option.some.inj (hself.symm.trans ha')
        obtain rfl : c = d := Option.some.inj (hc.symm.trans hd)
        omega
      have hno : ¬(c.detached = 1 ∨ tcb.ptcb = some a) := by
        rintro (h1 | h1)
        · omega
        · exact hself h1
      have hd : (s.kernel.setPTCB a fun c => { c with refcount := c.refcount + 1 }).ptcbs a =
          some { c with refcount := c.refcount + 1 } := by
        simp [Kernel.setPTCB, hc]
      have hloop := threadJoinLoop_ret (t := t) hd
        (show ¬(c.exited = 0 ∧ c.detached = 0) by omega) status
      simp only [Kernel.stepRet, hp, ht, ProcEvent.thread, hpc, Bool.false_eq_true,
        if_true, if_false, Kernel.call, sysThreadJoin, hfind, hc, hno, Option.some.injEq] at hret
      rw [hret] at hloop
      simp [joinResult, hdet] at hloop
    · intro hall
      apply hr.join_refused hp ht hpc
      by_cases hfind : rlistFind s.kernel.heap (.ptcbList tcb.ownerPcb) (.ptcb a) = none
      · exact .inl hfind
      · have hav : a ∈ v.ptcbs tcb.ownerPcb := not_not.mp fun h => hfind ((hr.table.find _ a).mpr h)
        obtain ⟨c, hc⟩ := hr.mem_ptcbs hav
        obtain ⟨-, -, hn⟩ := hcons a c ha hc
        obtain ⟨u, x, hu, hj⟩ := hr.exists_joiner hc hn
        have hown := hr.table.lists.ptcbs_disjoint (hr.joining u x a hu hj) hav
        rw [hall u x hu hown] at hj
        exact absurd hj (by simp)
  · have hdead := hend.dead t tcb ht
    simp [hl] at hdead

/-- Once the last of the joiners has left, the next call is refused. -/
theorem join_consumes_run : ∃ s : JoinHistory, s.joined 2 = true ∧
    s.kernel.stepRet (.threadJoin 0 2 true) = some (s.kernel, some ⟨-1, none⟩) := by
  obtain ⟨s, hs, hp⟩ := exists_reach_of_guarded JoinHistory.step (fun s e => notReaped s.kernel e)
    (.start (bootKernel 0 0 none 1))
    [.createThread 0 (some 5) 0 none 2, .createThread 0 (some 6) 0 none 3, .threadJoin 0 2 true,
      .threadJoin 2 2 true, .threadExit 1 7, .proceed 0, .proceed 2]
    (fun s => s.joined 2 = true ∧ s.kernel.panicked = false ∧
      s.kernel.threads =
        [⟨1, some 1, .startMainThread, .user⟩, ⟨1, some 2, .startProcessThread, .exited⟩,
        ⟨1, some 3, .startProcessThread, .user⟩])
    (by rw [bootKernel_eq]; decide +kernel)
  obtain ⟨hj, hp, hth⟩ := of_decide_eq_true hp
  have ht : s.kernel.threads[0]? = some ⟨1, some 1, .startMainThread, .user⟩ := by simp [hth]
  refine ⟨s, hj, (join_consumes hs hp ht rfl hj true).mpr ?_⟩
  intro u x hu _
  have hx : x ∈ s.kernel.threads := List.mem_of_getElem? hu
  rw [hth] at hx
  simp only [List.mem_cons, List.not_mem_nil, or_false] at hx
  rcases hx with rfl | rfl | rfl <;> rfl

end TinyOS
