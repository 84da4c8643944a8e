import TinyOS.Lib.Counting
import TinyOS.Lib.Locks
import TinyOS.CondRing

/-! What holds of a condition variable between any two statements: who is in its ring, and in
which order, and what the thread that signals may rely on. -/

namespace TinyOS

open Counting Transition

def CondPc.inWaitset : CondPc → Bool
  | .push | .unlockMutex | .sleep | .tidy | .leave => true
  | .scan _ | .detach _ _ | .wake _ _ | .mark _ _ | .scanned _ | .signalUnlock _ => true
  | _ => false

def CondPc.entered : CondPc → Bool
  | .unlockMutex | .sleep | .asleep | .tidy => true
  | _ => false

def CondPc.fresh : CondPc → Bool
  | .waitLock | .push | .unlockMutex | .sleep => true
  | _ => false

def CondThread.queued (x : CondThread) : Bool := x.pc.entered && !x.removed

structure CondThread.Sane (x : CondThread) : Prop where
  stopped : x.state = .stopped → x.pc = .asleep
  started : x.state ≠ .init
  fresh : x.pc.fresh = true → x.removed = false ∧ x.signalled = false
  signalled : x.signalled = true → x.removed = true
  woken : x.pc = .asleep → x.removed = false → x.state ≠ .stopped → x.expired = true

structure CondThread.Detached (x : CondThread) : Prop where
  pc : x.pc = .asleep
  removed : x.removed = true
  signalled : x.signalled = false
  expired : x.state ≠ .stopped → x.expired = true

structure CondThread.Roused (x : CondThread) : Prop where
  pc : x.pc = .asleep
  removed : x.removed = true
  signalled : x.signalled = false
  state : x.state ≠ .stopped

/-- What a signalling thread relies on about the waiter at hand. -/
def CondState.Signals (c : CondState) (ws : List ThreadId) : CondPc → Prop
  | .detach _ w => ws.head? = some w
  | .wake _ w => ∃ y, c.threads[w]? = some y ∧ y.Detached
  | .mark _ w => ∃ y, c.threads[w]? = some y ∧ y.Roused
  | _ => True

structure CondState.LocalOk (c : CondState) (ws : List ThreadId) (t : ThreadId)
    (x : CondThread) : Prop where
  lock : c.waitsetLock = some t ↔ x.pc.inWaitset = true
  queue : t ∈ ws ↔ x.queued = true
  sane : x.Sane
  signals : c.Signals ws x.pc

def CondState.arrivalOf (c : CondState) (t : ThreadId) : Nat := (c.threads[t]?).elim 0 (·.arrival)

structure CondState.Inv (c : CondState) (ws : List ThreadId) : Prop where
  ring : c.Ring ws
  locals : ∀ t x, c.threads[t]? = some x → c.LocalOk ws t x
  locker : ∀ t, c.waitsetLock = some t → t < c.threads.length
  members : ∀ t ∈ ws, t < c.threads.length
  sorted : ws.Pairwise fun a b => c.arrivalOf a < c.arrivalOf b
  recent : ∀ t ∈ ws, c.arrivalOf t < c.entries

/-- A change of a sleeping thread that no signalling thread notices. -/
structure CondThread.Calm (x y : CondThread) : Prop where
  pc : y.pc = x.pc
  removed : y.removed = x.removed
  signalled : y.signalled = x.signalled
  stopped : y.state = .stopped → x.state = .stopped
  expired : y.state ≠ .stopped → y.expired = true ∨ x.state ≠ .stopped ∧ y.expired = x.expired

section Invariant

variable {c c' : CondState} {ws ws' : List ThreadId} {t w : ThreadId} {x y : CondThread}
  {pc : CondPc} {f g : CondThread → CondThread}

theorem bootCond_inv (n : Nat) : (bootCond n).Inv [] := by
  refine ⟨bootCond_ring n, fun t x hx => ?_, fun t ht => ?_, by simp, List.Pairwise.nil, by simp⟩
  · obtain rfl := List.eq_of_mem_replicate (List.mem_of_getElem? hx)
    exact ⟨by simp [bootCond, CondPc.inWaitset], by simp [CondThread.queued, CondPc.entered],
      ⟨by simp, by simp, by simp, by simp, by simp⟩, trivial⟩
  · simp [bootCond] at ht

theorem CondThread.Calm.detached (h : x.Calm y) (hx : x.Detached) : y.Detached := by
  refine ⟨h.pc.trans hx.pc, h.removed.trans hx.removed, h.signalled.trans hx.signalled,
    fun hs => ?_⟩
  rcases h.expired hs with he | ⟨hxs, he⟩
  · exact he
  · exact he.trans (hx.expired hxs)

theorem CondThread.Calm.roused (h : x.Calm y) (hx : x.Roused) : y.Roused :=
  ⟨h.pc.trans hx.pc, h.removed.trans hx.removed, h.signalled.trans hx.signalled,
    fun hs => hx.state (h.stopped hs)⟩

theorem signals_of_out (h : pc.inWaitset = false) : c.Signals ws pc := by
  cases pc with
  | detach | wake | mark => simp [CondPc.inWaitset] at h
  | _ => trivial

theorem CondState.Signals.frame (h : c.Signals ws pc) (ht : c.threads[t]? = some x)
    (hthreads : c'.threads = c.threads.modify t g) (hcalm : x.pc = .asleep → x.Calm (g x)) :
    c'.Signals ws pc := by
  have hkeep : ∀ {w : ThreadId} {y : CondThread}, c.threads[w]? = some y → y.pc = .asleep →
      ∃ y', c'.threads[w]? = some y' ∧ (y' = y ∨ y.Calm y') := by
    intro w y hy hpc
    by_cases hwt : w = t
    · subst hwt
      obtain rfl : x = y := by simpa [ht] using hy
      exact ⟨g x, by rw [hthreads, List.getElem?_modify_eq, ht]; rfl, .inr (hcalm hpc)⟩
    · exact ⟨y, by rw [hthreads, List.getElem?_modify_ne _ _ (Ne.symm hwt)]; exact hy, .inl rfl⟩
  cases pc with
  | detach all w => exact h
  | wake all w =>
    obtain ⟨y, hy, hd⟩ := h
    obtain ⟨y', hy', rfl | hc⟩ := hkeep hy hd.pc
    · exact ⟨y', hy', hd⟩
    · exact ⟨y', hy', hc.detached hd⟩
  | mark all w =>
    obtain ⟨y, hy, hd⟩ := h
    obtain ⟨y', hy', rfl | hc⟩ := hkeep hy hd.pc
    · exact ⟨y', hy', hd⟩
    · exact ⟨y', hy', hc.roused hd⟩
  | _ => trivial

theorem arrivalOf_modify (hthreads : c'.threads = c.threads.modify t g)
    (hg : ∀ x, (g x).arrival = x.arrival)
    (u : ThreadId) : c'.arrivalOf u = c.arrivalOf u := by
  unfold CondState.arrivalOf
  rw [hthreads, List.getElem?_modify]
  by_cases hu : t = u
  · cases hx : c.threads[u]? with
    | none => simp
    | some x => simp [hu, hg]
  · simp [hu]

/-- A step that changes thread `t` only, and leaves the ring as it is. -/
theorem CondState.Inv.move (h : c.Inv ws) (ht : c.threads[t]? = some x)
    (hthreads : c'.threads = c.threads.modify t g) (hring : c'.Ring ws)
    (hlock : Locks.Move t c.waitsetLock c'.waitsetLock x.pc.inWaitset (g x).pc.inWaitset)
    (hentries : c'.entries = c.entries) (harrival : ∀ x, (g x).arrival = x.arrival)
    (hcalm : c.waitsetLock = none ∨ (x.pc = .asleep → x.Calm (g x)))
    (hqueue : (g x).queued = x.queued)
    (hsane : (g x).Sane) (hsignals : c'.Signals ws (g x).pc) : c'.Inv ws := by
  have hloc := h.locals t x ht
  have hlen : c'.threads.length = c.threads.length := by rw [hthreads, List.length_modify]
  have harr := arrivalOf_modify hthreads harrival
  refine ⟨hring, fun t' y hy => ?_, fun t' ht' => ?_, fun t' ht' => ?_, ?_, fun t' ht' => ?_⟩
  · rw [hthreads] at hy
    rcases getElem?_modify_cases hy with ⟨rfl, x', hx', rfl⟩ | ⟨hne, hold⟩
    · obtain rfl : x = x' := by simpa [ht] using hx'
      exact ⟨hlock.mine hloc.lock, hloc.queue.trans (by rw [hqueue]), hsane, hsignals⟩
    · have hl := h.locals t' y hold
      refine ⟨(hlock.other hloc.lock hne).trans hl.lock, hl.queue, hl.sane, ?_⟩
      rcases hcalm with hfree | hcalm
      · refine signals_of_out (Bool.eq_false_iff.mpr fun hin => ?_)
        have hheld := hl.lock.mpr hin
        rw [hfree] at hheld
        simp at hheld
      · exact hl.signals.frame ht hthreads hcalm
  · rw [hlen]
    by_cases hne : t' = t
    · rw [hne]
      exact (List.getElem?_eq_some_iff.mp ht).1
    · exact h.locker t' ((hlock.other hloc.lock hne).mp ht')
  · rw [hlen]
    exact h.members t' ht'
  · exact h.sorted.imp fun {a b} hab => by rw [harr, harr]; exact hab
  · rw [harr, hentries]
    exact h.recent t' ht'

/-- A step of the thread that has `waitset_lock` and keeps it. -/
theorem CondState.Inv.holder (h : c.Inv ws) (ht : c.threads[t]? = some x)
    (hin : x.pc.inWaitset = true)
    (hlock : c'.waitsetLock = c.waitsetLock) (hring : c'.Ring ws')
    (hlen : c'.threads.length = c.threads.length)
    (hother : ∀ (t' : ThreadId) (y : CondThread), t' ≠ t → c'.threads[t']? = some y →
      ∃ y₀, c.threads[t']? = some y₀ ∧ y.pc = y₀.pc ∧ y.Sane ∧ (t' ∈ ws' ↔ y.queued = true))
    (hself : ∀ x', c'.threads[t]? = some x' →
      x'.pc.inWaitset = true ∧ (t ∈ ws' ↔ x'.queued = true) ∧ x'.Sane ∧ c'.Signals ws' x'.pc)
    (hmembers : ∀ t' ∈ ws', t' < c.threads.length)
    (hsorted : ws'.Pairwise fun a b => c'.arrivalOf a < c'.arrivalOf b)
    (hrecent : ∀ t' ∈ ws', c'.arrivalOf t' < c'.entries) : c'.Inv ws' := by
  have hloc := h.locals t x ht
  refine ⟨hring, fun t' y hy => ?_, fun t' ht' => ?_, fun t' ht' => ?_, hsorted, hrecent⟩
  · by_cases hne : t' = t
    · subst hne
      obtain ⟨hin', hqueue, hsane, hsig⟩ := hself y hy
      refine ⟨?_, hqueue, hsane, hsig⟩
      rw [hlock, hin', hloc.lock, hin]
    · obtain ⟨y₀, hy₀, hpc, hsane, hqueue⟩ := hother t' y hne hy
      have hl := h.locals t' y₀ hy₀
      have hout : y₀.pc.inWaitset = false :=
        Bool.eq_false_iff.mpr fun hin' => hne (Locks.exclusive hl.lock hloc.lock hin' hin)
      refine ⟨?_, hqueue, hsane, ?_⟩
      · rw [hlock, hpc]
        exact hl.lock
      · rw [hpc]
        exact signals_of_out hout
  · rw [hlen]
    exact h.locker t' (hlock ▸ ht')
  · rw [hlen]
    exact hmembers t' ht'

/-- With `waitset_lock` held by a thread that is not in the ring, every member sleeps. -/
theorem CondState.Inv.asleep (h : c.Inv ws) (ht : c.threads[t]? = some x)
    (hin : x.pc.inWaitset = true) (hout : x.pc.entered = false) (hw : w ∈ ws) :
    w ≠ t ∧ ∃ y, c.threads[w]? = some y ∧ y.pc = .asleep ∧ y.removed = false := by
  have hloc := h.locals t x ht
  obtain ⟨y, hy⟩ : ∃ y, c.threads[w]? = some y := ⟨_, List.getElem?_eq_getElem (h.members w hw)⟩
  have hl := h.locals w y hy
  have hq := hl.queue.mp hw
  simp only [CondThread.queued, Bool.and_eq_true, Bool.not_eq_true'] at hq
  have hne : w ≠ t := by
    rintro rfl
    obtain rfl : x = y := by simpa [ht] using hy
    rw [hout] at hq
    simp at hq
  have hfree : y.pc.inWaitset = false :=
    Bool.eq_false_iff.mpr fun hin' => hne (Locks.exclusive hl.lock hloc.lock hin' hin)
  refine ⟨hne, y, hy, ?_, hq.2⟩
  have hentered := hq.1
  cases hpc : y.pc <;> simp [hpc, CondPc.entered, CondPc.inWaitset] at hentered hfree ⊢

theorem CondState.Inv.enter (h : c.Inv ws) (ht : c.threads[t]? = some x) (hpc : x.pc = .push) :
    (c.enter t).Inv (ws ++ [t]) := by
  have hloc := h.locals t x ht
  have hnot : t ∉ ws := by
    rw [hloc.queue, CondThread.queued, hpc]
    simp [CondPc.entered]
  have hfresh := hloc.sane.fresh (by rw [hpc]; rfl)
  have hthreads : (c.enter t).threads =
      c.threads.modify t fun x => { x with pc := .unlockMutex, arrival := c.entries } := by
    unfold CondState.enter CondState.put
    cases c.waitset <;> rfl
  have hlock : (c.enter t).waitsetLock = c.waitsetLock := by
    unfold CondState.enter CondState.put
    cases c.waitset <;> rfl
  have hentries : (c.enter t).entries = c.entries + 1 := by
    unfold CondState.enter CondState.put
    cases c.waitset <;> rfl
  have hself : (c.enter t).threads[t]? = some { x with
      pc := .unlockMutex, arrival := c.entries } := by
    rw [hthreads, List.getElem?_modify_eq, ht]
    rfl
  have harr : ∀ u, u ≠ t → (c.enter t).arrivalOf u = c.arrivalOf u := by
    intro u hu
    unfold CondState.arrivalOf
    rw [hthreads, List.getElem?_modify_ne _ _ (Ne.symm hu)]
  have harrt : (c.enter t).arrivalOf t = c.entries := by
    unfold CondState.arrivalOf
    rw [hself]
    rfl
  have hne : ∀ {u}, u ∈ ws → u ≠ t := fun hu he => hnot (he ▸ hu)
  refine h.holder ht (by rw [hpc]; rfl) hlock (h.ring.enter hnot)
    (by rw [hthreads, List.length_modify])
    (fun t' y hne' hy => ?_) (fun x' hx' => ?_) (fun t' ht' => ?_) ?_ fun t' ht' => ?_
  · rw [hthreads, List.getElem?_modify_ne _ _ (Ne.symm hne')] at hy
    have hl := h.locals t' y hy
    exact ⟨y, hy, rfl, hl.sane, by simpa [hne'] using hl.queue⟩
  · obtain rfl : _ = x' := Option.some.inj (hself.symm.trans hx')
    refine ⟨rfl, by simp [CondThread.queued, CondPc.entered, hfresh.1],
      ⟨fun hs => ?_, hloc.sane.started, fun _ => hfresh,
      hloc.sane.signalled, by simp⟩, trivial⟩
    have hasleep := hloc.sane.stopped hs
    rw [hpc] at hasleep
    simp at hasleep
  · rcases List.mem_append.mp ht' with ht' | ht'
    · exact h.members t' ht'
    · rw [List.mem_singleton.mp ht']
      exact (List.getElem?_eq_some_iff.mp ht).1
  · refine List.pairwise_append.mpr ⟨?_, List.pairwise_singleton _ _, fun a ha b hb => ?_⟩
    · refine h.sorted.imp_of_mem fun {a b} ha hb hab => ?_
      rw [harr a (hne ha), harr b (hne hb)]
      exact hab
    · rw [List.mem_singleton.mp hb, harr a (hne ha), harrt]
      exact h.recent a ha
  · rw [hentries]
    rcases List.mem_append.mp ht' with ht' | ht'
    · rw [harr t' (hne ht')]
      exact Nat.lt_succ_of_lt (h.recent t' ht')
    · rw [List.mem_singleton.mp ht', harrt]
      exact Nat.lt_succ_self _

end Invariant

end TinyOS
