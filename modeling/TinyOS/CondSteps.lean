import TinyOS.CondInvariant

/-! What each statement of `cv_wait` and `cv_signal` does to the ring of waiters. -/

namespace TinyOS

open Counting Transition

def CondState.ringAfter (c : CondState) (ws : List ThreadId) : CondEvent → List ThreadId
  | .run t =>
    (c.threads[t]?).elim ws fun x =>
      match x.pc with
      | .push => ws ++ [t]
      | .tidy => if x.removed then ws else ws.erase t
      | .detach _ w => ws.erase w
      | _ => ws
  | _ => ws

section Steps

variable {c c' : CondState} {ws ws' : List ThreadId} {t w : ThreadId} {x y : CondThread}
  {pc : CondPc} {f : CondThread → CondThread} {e : CondEvent}

theorem CondThread.Sane.goto (h : x.Sane) (hstate : x.state ≠ .stopped) (hpc : pc ≠ .asleep)
    (hfresh : pc.fresh = true → x.pc.fresh = true) : ({ x with pc := pc } : CondThread).Sane where
  stopped hs := absurd hs hstate
  started := h.started
  fresh hf := h.fresh (hfresh hf)
  signalled := h.signalled
  woken ha := absurd ha hpc

/-- A statement of a running thread that changes its place, and no waiter or ring. -/
theorem CondState.Inv.goto (h : c.Inv ws) (ht : c.threads[t]? = some x)
    (hstate : x.state ≠ .stopped)
    (hthreads : c'.threads = c.threads.modify t fun x => { x with pc := pc })
    (hnodes : c'.nodes = c.nodes)
    (hwaitset : c'.waitset = c.waitset) (hentries : c'.entries = c.entries)
    (hlock : Locks.Move t c.waitsetLock c'.waitsetLock x.pc.inWaitset pc.inWaitset)
    (hasleep : x.pc = .asleep → c.waitsetLock = none) (hpc : pc ≠ .asleep)
    (hqueue : (pc.entered && !x.removed) = (x.pc.entered && !x.removed))
    (hfresh : pc.fresh = true → x.pc.fresh = true) (hsignals : c'.Signals ws pc) : c'.Inv ws := by
  have hring := h.ring.same hnodes hwaitset
  refine h.move ht hthreads hring hlock hentries (fun _ => rfl) ?_ hqueue
    ((h.locals t x ht).sane.goto hstate hpc hfresh) hsignals
  by_cases ha : x.pc = .asleep
  · exact .inl (hasleep ha)
  · exact .inr fun hx => absurd hx ha

/-- A statement of `cv_signal` that changes the waiter at hand. -/
theorem CondState.Inv.touch (h : c.Inv ws) (ht : c.threads[t]? = some x)
    (hin : x.pc.inWaitset = true)
    (hout : x.pc.entered = false) (hstate : x.state ≠ .stopped) (hw : c.threads[w]? = some y)
    (hwt : w ≠ t)
    (hthreads : c'.threads = (c.threads.modify w f).modify t fun x => { x with pc := pc })
    (hlock : c'.waitsetLock = c.waitsetLock) (hring : c'.Ring ws')
    (hentries : c'.entries = c.entries)
    (harr : (f y).arrival = y.arrival) (hpc : (f y).pc = y.pc) (hsane : (f y).Sane)
    (hqueue : w ∈ ws' ↔ (f y).queued = true) (hsub : ws'.Sublist ws)
    (hrest : ∀ u, u ≠ w → u ∈ ws → u ∈ ws')
    (hin' : pc.inWaitset = true) (hout' : pc.entered = false) (hfresh : pc.fresh = false)
    (hsignals : c'.Signals ws' pc) : c'.Inv ws' := by
  have hself : c'.threads[t]? = some { x with pc := pc } := by
    rw [hthreads, List.getElem?_modify_eq, List.getElem?_modify_ne _ _ hwt, ht]
    rfl
  have hother : ∀ u, u ≠ t → c'.threads[u]? = (c.threads.modify w f)[u]? := by
    intro u hu
    rw [hthreads, List.getElem?_modify_ne _ _ (Ne.symm hu)]
  have harrival : ∀ u, c'.arrivalOf u = c.arrivalOf u := by
    intro u
    unfold CondState.arrivalOf
    by_cases hut : u = t
    · rw [hut, hself, ht]
      rfl
    · rw [hother u hut]
      by_cases huw : u = w
      · rw [huw, List.getElem?_modify_eq, hw]
        exact harr
      · rw [List.getElem?_modify_ne _ _ (Ne.symm huw)]
  have hloc := h.locals t x ht
  have hne : pc ≠ .asleep := by
    rintro rfl
    simp [CondPc.entered] at hout'
  refine h.holder ht hin hlock hring (by rw [hthreads, List.length_modify, List.length_modify])
    (fun u z hu hz => ?_) (fun x' hx' => ?_) (fun u hu => h.members u (hsub.subset hu)) ?_
    fun u hu => ?_
  · rw [hother u hu] at hz
    rcases getElem?_modify_cases hz with ⟨rfl, y', hy', rfl⟩ | ⟨huw, hold⟩
    · obtain rfl : y = y' := by simpa [hw] using hy'
      exact ⟨y, hw, hpc, hsane, hqueue⟩
    · have hl := h.locals u z hold
      exact ⟨z, hold, rfl, hl.sane,
        ⟨fun hm => hl.queue.mp (hsub.subset hm), fun hq => hrest u huw (hl.queue.mpr hq)⟩⟩
  · obtain rfl : _ = x' := Option.some.inj (hself.symm.trans hx')
    refine ⟨hin', ?_, hloc.sane.goto hstate hne (fun hf => by simp [hfresh] at hf), hsignals⟩
    have hnot : t ∉ ws := by
      rw [hloc.queue, CondThread.queued, hout]
      simp
    simp only [CondThread.queued, hout', Bool.false_and, Bool.false_eq_true, iff_false]
    exact fun hm => hnot (hsub.subset hm)
  · refine (h.sorted.sublist hsub).imp fun {a b} hab => ?_
    rw [harrival, harrival]
    exact hab
  · rw [harrival, hentries]
    exact h.recent u (hsub.subset hu)

theorem CondState.Inv.tidy (h : c.Inv ws) (ht : c.threads[t]? = some x)
    (hstate : x.state ≠ .stopped) (hpc : x.pc = .tidy) (hremoved : x.removed = false) :
    ((removeFromRing c t).goto t .leave).Inv (ws.erase t) := by
  have hloc := h.locals t x ht
  have hmem : t ∈ ws := by
    rw [hloc.queue, CondThread.queued, hpc, hremoved]
    rfl
  have hsub : (ws.erase t).Sublist ws := List.erase_sublist
  have hthreads : ((removeFromRing c t).goto t .leave).threads =
      c.threads.modify t fun x => { x with pc := .leave } := by
    simp [CondState.goto, CondState.put]
  have harr : ∀ u, ((removeFromRing c t).goto t .leave).arrivalOf u = c.arrivalOf u :=
    arrivalOf_modify hthreads fun _ => rfl
  have hring : ((removeFromRing c t).goto t .leave).Ring (ws.erase t) :=
    ⟨(h.ring.remove hmem).heap, (h.ring.remove hmem).first, (h.ring.remove hmem).obj⟩
  refine h.holder ht (by rw [hpc]; rfl) (by simp [CondState.goto, CondState.put]) hring
    (by rw [hthreads, List.length_modify]) (fun u z hu hz => ?_) (fun x' hx' => ?_)
    (fun u hu => h.members u (hsub.subset hu)) ?_ fun u hu => ?_
  · rw [hthreads, List.getElem?_modify_ne _ _ (Ne.symm hu)] at hz
    have hl := h.locals u z hz
    exact ⟨z, hz, rfl, hl.sane, by rw [List.mem_erase_of_ne hu]; exact hl.queue⟩
  · rw [hthreads, List.getElem?_modify_eq, ht] at hx'
    obtain rfl : _ = x' := Option.some.inj hx'
    refine ⟨rfl, ?_, hloc.sane.goto hstate (by simp) (by simp [CondPc.fresh]), trivial⟩
    simp only [CondThread.queued, CondPc.entered, Bool.false_and, Bool.false_eq_true, iff_false]
    exact fun hm => ((h.ring.heap.circle.nodup.mem_erase_iff).mp hm).1 rfl
  · refine (h.sorted.sublist hsub).imp fun {a b} hab => ?_
    rw [harr, harr]
    exact hab
  · rw [harr]
    have hentries : ((removeFromRing c t).goto t .leave).entries = c.entries := by
      simp [CondState.goto, CondState.put]
    rw [hentries]
    exact h.recent u (hsub.subset hu)

theorem CondThread.Calm.refl (x : CondThread) : x.Calm x :=
  ⟨rfl, rfl, rfl, id, fun hs => .inr ⟨hs, rfl⟩⟩

/-- A change of the thread outside its waiter: its flags and its place stay. -/
theorem CondState.Inv.calm (h : c.Inv ws) (ht : c.threads[t]? = some x)
    (hthreads : c'.threads = c.threads.modify t f) (hnodes : c'.nodes = c.nodes)
    (hwaitset : c'.waitset = c.waitset)
    (hlock : c'.waitsetLock = c.waitsetLock) (hentries : c'.entries = c.entries)
    (harrival : ∀ x, (f x).arrival = x.arrival) (hcalm : x.Calm (f x))
    (hsane : (f x).Sane) : c'.Inv ws := by
  have hring := h.ring.same hnodes hwaitset
  have hmove : Locks.Move t c.waitsetLock c'.waitsetLock x.pc.inWaitset (f x).pc.inWaitset := by
    rw [hlock, hcalm.pc]
    exact .keep _ _
  refine h.move ht hthreads hring hmove hentries harrival (.inr fun _ => hcalm) ?_ hsane ?_
  · simp only [CondThread.queued, hcalm.pc, hcalm.removed]
  · rw [hcalm.pc]
    exact (h.locals t x ht).signals.frame ht hthreads fun _ => hcalm

theorem CondState.Inv.sleep (h : c.Inv ws) (ht : c.threads[t]? = some x) (hpc : x.pc = .sleep) :
    (({ c with waitsetLock := none } : CondState).put t fun x =>
      { x with pc := .asleep, state := .stopped }).Inv ws := by
  have hs := (h.locals t x ht).sane
  have hfresh := hs.fresh (by rw [hpc]; rfl)
  refine h.move ht rfl ⟨h.ring.heap, h.ring.first, h.ring.obj⟩ ?_ rfl (fun _ => rfl)
    (.inr fun ha => by rw [hpc] at ha; simp at ha) ?_ ?_ trivial
  · rw [hpc]
    exact .give _
  · simp [CondThread.queued, hpc, CondPc.entered]
  · exact ⟨fun _ => rfl, by simp, by simp [CondPc.fresh], fun hx => by simp [hfresh.2] at hx,
      fun _ _ hx => absurd rfl hx⟩

theorem CondState.Inv.detach (h : c.Inv ws) {all : Bool} (ht : c.threads[t]? = some x)
    (hstate : x.state ≠ .stopped) (hpc : x.pc = .detach all w) :
    (((removeFromRing c w).put w fun y => { y with removed := true }).goto t (.wake all w)).Inv
      (ws.erase w) := by
  have hfirst : ws.head? = some w := by
    have hsig := (h.locals t x ht).signals
    rwa [hpc] at hsig
  have hmem : w ∈ ws := List.mem_of_mem_head? hfirst
  obtain ⟨hwt, y, hy, hya, hyr⟩ := h.asleep ht (by rw [hpc]; rfl) (by rw [hpc]; rfl) hmem
  have hsane := (h.locals w y hy).sane
  have hysig : y.signalled = false := by
    by_contra hsig
    have hrem := hsane.signalled (by simpa using hsig)
    simp [hyr] at hrem
  have hring := h.ring.remove hmem
  have hthreads :
      (((removeFromRing c w).put w fun y => { y with removed := true }).goto t
        (.wake all w)).threads = (c.threads.modify w fun y => { y with removed := true }).modify t
          fun x => { x with pc := .wake all w } := by
    simp [CondState.goto, CondState.put]
  refine h.touch ht (by rw [hpc]; rfl) (by rw [hpc]; rfl) hstate hy hwt hthreads ?_
    ⟨hring.heap, hring.first, hring.obj⟩ ?_ rfl rfl ?_ ?_ List.erase_sublist
    (fun u hu hm => (List.mem_erase_of_ne hu).mpr hm) rfl rfl rfl ?_
  · simp [CondState.goto, CondState.put]
  · simp [CondState.goto, CondState.put]
  · exact ⟨hsane.stopped, hsane.started, fun hf => by simp [hya, CondPc.fresh] at hf,
      fun _ => rfl, by simp⟩
  · simp only [CondThread.queued, Bool.not_true, Bool.and_false, Bool.false_eq_true, iff_false]
    exact fun hm => ((h.ring.heap.circle.nodup.mem_erase_iff).mp hm).1 rfl
  · refine ⟨{ y with removed := true }, ?_, hya, rfl, hysig, fun hs => hsane.woken hya hyr hs⟩
    simp [CondState.goto, CondState.put, hy, Ne.symm hwt]

theorem sleeper_ne (ht : c.threads[t]? = some x) (hy : c.threads[w]? = some y)
    (hasleep : y.pc = .asleep) (hpc : x.pc ≠ .asleep) : w ≠ t := by
  rintro rfl
  obtain rfl : x = y := Option.some.inj (ht.symm.trans hy)
  exact hpc hasleep

theorem CondState.Inv.wake (h : c.Inv ws) {all : Bool} (ht : c.threads[t]? = some x)
    (hstate : x.state ≠ .stopped) (hpc : x.pc = .wake all w) :
    ((c.put w fun y => { y with state := .ready }).goto t (.mark all w)).Inv ws := by
  obtain ⟨y, hy, hd⟩ : ∃ y, c.threads[w]? = some y ∧ y.Detached := by
    have hsig := (h.locals t x ht).signals
    rwa [hpc] at hsig
  have hwt : w ≠ t := sleeper_ne ht hy hd.pc (by simp [hpc])
  have hl := h.locals w y hy
  refine h.touch ht (by rw [hpc]; rfl) (by rw [hpc]; rfl) hstate hy hwt rfl rfl
    ⟨h.ring.heap, h.ring.first, h.ring.obj⟩ rfl rfl rfl ?_ hl.queue (List.Sublist.refl ws)
    (fun u _ hm => hm)
    rfl rfl rfl ?_
  · exact ⟨by simp, by simp, hl.sane.fresh, hl.sane.signalled,
      fun _ hr => by simp [hd.removed] at hr⟩
  · refine ⟨{ y with state := .ready }, ?_, hd.pc, hd.removed, hd.signalled, by simp⟩
    simp [CondState.goto, CondState.put, hy, Ne.symm hwt]

theorem CondState.Inv.mark (h : c.Inv ws) {all : Bool} (ht : c.threads[t]? = some x)
    (hstate : x.state ≠ .stopped) (hpc : x.pc = .mark all w) :
    ((c.put w fun y => { y with signalled := true }).goto t (.scanned all)).Inv ws := by
  obtain ⟨y, hy, hd⟩ : ∃ y, c.threads[w]? = some y ∧ y.Roused := by
    have hsig := (h.locals t x ht).signals
    rwa [hpc] at hsig
  have hwt : w ≠ t := sleeper_ne ht hy hd.pc (by simp [hpc])
  have hl := h.locals w y hy
  refine h.touch ht (by rw [hpc]; rfl) (by rw [hpc]; rfl) hstate hy hwt rfl rfl
    ⟨h.ring.heap, h.ring.first, h.ring.obj⟩ rfl rfl rfl ?_ hl.queue (List.Sublist.refl ws)
    (fun u _ hm => hm)
    rfl rfl rfl trivial
  exact ⟨hl.sane.stopped, hl.sane.started, fun hf => by simp [hd.pc, CondPc.fresh] at hf,
    fun _ => hd.removed, hl.sane.woken⟩

theorem CondState.Inv.run (h : c.Inv ws) (ht : c.threads[t]? = some x)
    (hrunning : x.state = .running)
    (hs : c.run t x = some c') : c'.Inv (c.ringAfter ws (.run t)) := by
  have hstate : x.state ≠ .stopped := by simp [hrunning]
  have hloc := h.locals t x ht
  have hafter : c.ringAfter ws (.run t) = match x.pc with
      | .push => ws ++ [t]
      | .tidy => if x.removed then ws else ws.erase t
      | .detach _ w => ws.erase w
      | _ => ws := by
    simp only [CondState.ringAfter, ht, Option.elim_some]
  rw [hafter]
  have hkeep : ∀ {b : Bool}, x.pc.inWaitset = b →
      Locks.Move t c.waitsetLock c.waitsetLock x.pc.inWaitset b := by
    rintro b rfl
    exact .keep _ _
  cases hpc : x.pc with
  | user => simp [CondState.run, hpc] at hs
  | waitLock | asleep =>
    simp only [CondState.run, hpc] at hs
    obtain ⟨hfree, rfl⟩ : c.waitsetLock = none ∧ _ = c' := by simpa using hs
    refine h.goto ht hstate rfl rfl rfl rfl ?_ (fun _ => hfree) (by simp)
      (by simp [hpc, CondPc.entered])
      (by simp [hpc, CondPc.fresh]) trivial
    rw [hpc, hfree]
    exact .take
  | signalLock all =>
    simp only [CondState.run, hpc] at hs
    obtain ⟨hfree, rfl⟩ : c.waitsetLock = none ∧ _ = c' := by simpa using hs
    refine h.goto ht hstate rfl rfl rfl rfl ?_ (fun _ => hfree) ?_ ?_ ?_ ?_
    · rw [hpc, hfree]
      split <;> exact .take
    · split <;> simp
    · split <;> simp [hpc, CondPc.entered]
    · split <;> simp [hpc, CondPc.fresh]
    · split <;> trivial
  | push =>
    obtain rfl : _ = c' := by simpa [CondState.run, hpc] using hs
    exact h.enter ht hpc
  | unlockMutex =>
    obtain rfl : _ = c' := by simpa [CondState.run, hpc] using hs
    exact h.goto ht hstate rfl rfl rfl rfl (hkeep (by rw [hpc]; rfl)) (by simp [hpc]) (by simp)
      (by simp [hpc, CondPc.entered]) (by simp [hpc, CondPc.fresh]) trivial
  | sleep =>
    obtain rfl : _ = c' := by simpa [CondState.run, hpc] using hs
    exact h.sleep ht hpc
  | tidy =>
    by_cases hrem : x.removed = true
    · obtain rfl : _ = c' := by simpa [CondState.run, hpc, hrem] using hs
      rw [if_pos hrem]
      exact h.goto ht hstate rfl rfl rfl rfl (hkeep (by rw [hpc]; rfl)) (by simp [hpc]) (by simp)
        (by simp [hpc, hrem]) (by simp [CondPc.fresh]) trivial
    · obtain rfl : _ = c' := by simpa [CondState.run, hpc, hrem] using hs
      rw [if_neg hrem]
      exact h.tidy ht hstate hpc (by simpa using hrem)
  | leave | signalUnlock =>
    obtain rfl : _ = c' := by simpa [CondState.run, hpc] using hs
    refine h.goto ht hstate rfl rfl rfl rfl ?_ (by simp [hpc]) (by simp)
      (by simp [hpc, CondPc.entered])
      (by simp [CondPc.fresh]) trivial
    rw [hpc]
    exact .give _
  | relock =>
    simp only [CondState.run, hpc] at hs
    obtain ⟨-, rfl⟩ : c.mutexes x.mutex = false ∧ _ = c' := by simpa using hs
    exact h.goto ht hstate rfl rfl rfl rfl (hkeep (by rw [hpc]; rfl)) (by simp [hpc]) (by simp)
      (by simp [hpc, CondPc.entered]) (by simp [CondPc.fresh]) trivial
  | ret =>
    obtain rfl : _ = c' := by simpa [CondState.run, hpc] using hs
    refine h.move ht rfl ⟨h.ring.heap, h.ring.first, h.ring.obj⟩ (hkeep (by rw [hpc]; rfl)) rfl
      (fun _ => rfl)
      (.inr fun ha => by simp [hpc] at ha) (by simp [CondThread.queued, hpc, CondPc.entered])
      ?_ trivial
    exact ⟨fun hs => absurd hs hstate, hloc.sane.started, by simp [CondPc.fresh],
      hloc.sane.signalled, by simp⟩
  | scan all =>
    simp only [CondState.run, hpc] at hs
    split at hs
    · obtain rfl := Option.some.inj hs
      exact h.goto ht hstate rfl rfl rfl rfl (hkeep (by rw [hpc]; rfl)) (by simp [hpc]) (by simp)
        (by simp [hpc, CondPc.entered]) (by simp [CondPc.fresh]) trivial
    · rename_i w hw
      obtain rfl := Option.some.inj hs
      refine h.goto ht hstate rfl rfl rfl rfl (hkeep (by rw [hpc]; rfl)) (by simp [hpc]) (by simp)
        (by simp [hpc, CondPc.entered]) (by simp [CondPc.fresh]) ?_
      exact h.ring.first.symm.trans hw
  | detach all w =>
    obtain rfl : _ = c' := by simpa [CondState.run, hpc] using hs
    exact h.detach ht hstate hpc
  | wake all w =>
    by_cases hfinds : c.finds w = true
    · obtain rfl : _ = c' := by simpa [CondState.run, hpc, hfinds] using hs
      exact h.wake ht hstate hpc
    · obtain rfl : _ = c' := by simpa [CondState.run, hpc, hfinds] using hs
      exact h.goto ht hstate rfl rfl rfl rfl (hkeep (by rw [hpc]; rfl)) (by simp [hpc]) (by simp)
        (by simp [hpc, CondPc.entered]) (by simp [CondPc.fresh]) trivial
  | mark all w =>
    obtain rfl : _ = c' := by simpa [CondState.run, hpc] using hs
    exact h.mark ht hstate hpc
  | scanned all =>
    obtain rfl : _ = c' := by simpa [CondState.run, hpc] using hs
    split
    · exact h.goto ht hstate rfl rfl rfl rfl (hkeep (by rw [hpc]; rfl)) (by simp [hpc]) (by simp)
        (by simp [hpc, CondPc.entered]) (by simp [CondPc.fresh]) trivial
    · exact h.goto ht hstate rfl rfl rfl rfl (hkeep (by rw [hpc]; rfl)) (by simp [hpc]) (by simp)
        (by simp [hpc, CondPc.entered]) (by simp [CondPc.fresh]) trivial

theorem CondState.Inv.wait (h : c.Inv ws) (ht : c.threads[t]? = some x)
    (hrunning : x.state = .running)
    (hpc : x.pc = .user) (mutex : Nat) (timed : Bool) :
    (({ c with nodes := rlnodeInit c.nodes t t } : CondState).put t fun x =>
      { x with
        pc := .waitLock, mutex := mutex, timed := timed, signalled := false, removed := false,
        returned := none, expired := false }).Inv ws := by
  have hloc := h.locals t x ht
  have hnot : t ∉ ws := by
    rw [hloc.queue, CondThread.queued, hpc]
    simp [CondPc.entered]
  have hring := h.ring.init hnot
  refine h.move ht rfl ⟨hring.heap, hring.first, hring.obj⟩ ?_ rfl (fun _ => rfl)
    (.inr fun ha => by simp [hpc] at ha) (by simp [CondThread.queued, hpc, CondPc.entered])
    ?_ trivial
  · rw [hpc]
    exact .keep _ _
  · exact ⟨fun hs => by simp [hrunning] at hs, hloc.sane.started, fun _ => ⟨rfl, rfl⟩,
      by simp, by simp⟩

theorem CondState.Inv.step (h : c.Inv ws) (hs : c.step e = some c') :
    c'.Inv (c.ringAfter ws e) := by
  obtain ⟨x, ht, hs⟩ := Option.bind_eq_some_iff.mp hs
  cases e with
  | run t =>
    obtain ⟨hrunning, hs⟩ := Option.ite_none_right_eq_some.mp hs
    exact h.run ht hrunning hs
  | wait t mutex timed =>
    obtain ⟨⟨hrunning, hpc⟩, hs⟩ := Option.ite_none_right_eq_some.mp hs
    obtain rfl := Option.some.inj hs
    exact h.wait ht hrunning hpc mutex timed
  | signal t all =>
    obtain ⟨⟨hrunning, hpc⟩, hs⟩ := Option.ite_none_right_eq_some.mp hs
    obtain rfl := Option.some.inj hs
    refine h.goto ht (by simp [hrunning]) rfl rfl rfl rfl ?_ (by simp [hpc]) (by simp)
      (by simp [hpc, CondPc.entered]) (by simp [CondPc.fresh]) trivial
    rw [hpc]
    exact .keep _ _
  | lock t mutex =>
    obtain ⟨-, hs⟩ := Option.ite_none_right_eq_some.mp hs
    obtain rfl := Option.some.inj hs
    have hx := (h.locals t x ht).sane
    exact h.calm (f := id) ht (List.modify_id ..).symm rfl rfl rfl rfl (fun _ => rfl) (.refl x) hx
  | unlock t mutex =>
    obtain ⟨-, hs⟩ := Option.ite_none_right_eq_some.mp hs
    obtain rfl := Option.some.inj hs
    have hx := (h.locals t x ht).sane
    exact h.calm (f := id) ht (List.modify_id ..).symm rfl rfl rfl rfl (fun _ => rfl) (.refl x) hx
  | expire t =>
    obtain ⟨⟨hstopped, -⟩, hs⟩ := Option.ite_none_right_eq_some.mp hs
    obtain rfl := Option.some.inj hs
    have hx := (h.locals t x ht).sane
    exact h.calm ht rfl rfl rfl rfl rfl (fun _ => rfl) ⟨rfl, rfl, rfl, by simp, fun _ => .inl rfl⟩
      ⟨by simp, by simp, hx.fresh, hx.signalled, fun _ _ _ => rfl⟩
  | dispatch t =>
    obtain ⟨hready, hs⟩ := Option.ite_none_right_eq_some.mp hs
    obtain rfl := Option.some.inj hs
    have hx := (h.locals t x ht).sane
    have hstate : x.state ≠ .stopped := by simp [hready]
    exact h.calm ht rfl rfl rfl rfl rfl (fun _ => rfl)
      ⟨rfl, rfl, rfl, by simp, fun _ => .inr ⟨hstate, rfl⟩⟩
      ⟨by simp, by simp, hx.fresh, hx.signalled, fun ha hr _ => hx.woken ha hr hstate⟩
  | preempt t =>
    obtain ⟨hrunning, hs⟩ := Option.ite_none_right_eq_some.mp hs
    obtain rfl := Option.some.inj hs
    have hx := (h.locals t x ht).sane
    have hstate : x.state ≠ .stopped := by simp [hrunning]
    exact h.calm ht rfl rfl rfl rfl rfl (fun _ => rfl)
      ⟨rfl, rfl, rfl, by simp, fun _ => .inr ⟨hstate, rfl⟩⟩
      ⟨by simp, by simp, hx.fresh, hx.signalled, fun ha hr _ => hx.woken ha hr hstate⟩

theorem inv_of_reach {n : Nat} {ok : CondState → CondEvent → Prop}
    (h : Reach CondState.step ok (bootCond n) c) :
    ∃ ws, c.Inv ws := by
  refine h.invariant (I := fun c => ∃ ws, c.Inv ws) ⟨[], bootCond_inv n⟩ fun u e v hu _ hs => ?_
  obtain ⟨ws, hws⟩ := hu
  exact ⟨_, hws.step hs⟩

end Steps

end TinyOS
