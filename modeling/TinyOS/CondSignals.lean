import TinyOS.CondSteps

/-! A whole `Cond_Signal` or `Cond_Broadcast`, from the statement that takes `waitset_lock` to the
one that gives it back, with the steps of all other threads in between. -/

namespace TinyOS

open Counting Transition

def CondPc.pending : CondPc → List ThreadId
  | .wake _ w => [w]
  | _ => []

/-- The thread is inside `cv_signal`, or the loop around it, and goes on to examine waiters. -/
def CondPc.scanning : CondPc → Bool
  | .scan _ | .detach _ _ | .wake _ _ => true
  | _ => false

def CondPc.broadcast : CondPc → Option Bool
  | .scan all | .detach all _ | .wake all _ | .mark all _ | .scanned all
  | .signalUnlock all => some all
  | _ => none

/-- The waiters examined by one `cv_signal`: the last one only was found stopped, or none was and
the ring is empty. -/
def Stops (os : List (ThreadId × Bool)) (ws : List ThreadId) : Prop :=
  (∃ qs w, os = qs ++ [(w, true)] ∧ ∀ o ∈ qs, o.2 = false) ∨ ws = [] ∧ ∀ o ∈ os, o.2 = false

/-- Thread `y` has been examined, found stopped or not, by a thread at `pc`. -/
structure CondThread.Examined (y : CondThread) (pc : CondPc) (w : ThreadId)
    (found : Bool) : Prop where
  asleep : y.pc = .asleep
  removed : y.removed = true
  state : y.state ≠ .stopped
  expired : found = false → y.expired = true ∧ y.signalled = false
  signalled : found = true → y.signalled = true ∨ ∃ all, pc = .mark all w

/-- Thread `t` at `pc` has examined `os` of the ring `ws₀`, and `ws` is left of it. -/
structure CondState.Progress (c : CondState) (ws₀ : List ThreadId) (t : ThreadId) (all : Bool)
    (os : List (ThreadId × Bool)) (ws : List ThreadId) (pc : CondPc) : Prop where
  inv : c.Inv ws
  thread : ∃ x, c.threads[t]? = some x ∧ x.pc = pc
  operation : pc.broadcast = some all
  order : ws₀ = os.map Prod.fst ++ pc.pending ++ ws
  scans : pc.scanning = true → all = false → ∀ o ∈ os, o.2 = false
  stops : pc.scanning = false → all = false → Stops os ws
  empties : pc = .signalUnlock true → ws = []
  nodup : ws₀.Nodup
  marking : ∀ w, pc = .mark all w → (w, true) ∈ os
  examined : ∀ w found, (w, found) ∈ os → ∃ y, c.threads[w]? = some y ∧ y.Examined pc w found

section Operation

variable {c c' : CondState} {ws ws₀ : List ThreadId} {t w : ThreadId} {x y : CondThread}
  {pc : CondPc} {e : CondEvent} {all found : Bool} {os : List (ThreadId × Bool)}

theorem CondThread.Calm.examined (h : x.Calm y) (hx : x.Examined pc w found) :
    y.Examined pc w found where
  asleep := h.pc.trans hx.asleep
  removed := h.removed.trans hx.removed
  state hs := hx.state (h.stopped hs)
  expired hf := by
    refine ⟨?_, h.signalled.trans (hx.expired hf).2⟩
    by_cases hs : y.state = .stopped
    · exact absurd (h.stopped hs) hx.state
    · rcases h.expired hs with he | ⟨-, he⟩
      · exact he
      · exact he.trans (hx.expired hf).1
  signalled hf := by
    rw [h.signalled]
    exact hx.signalled hf

/-- While thread `t` has `waitset_lock`, the other threads leave the ring and the sleepers alone. -/
theorem CondState.Inv.others (h : c.Inv ws) (hlock : c.waitsetLock = some t)
    (hs : c.step e = some c')
    (hne : e ≠ .run t) : c.ringAfter ws e = ws ∧ c.examines e = none ∧
    ∀ (u : ThreadId) (y : CondThread), c.threads[u]? = some y →
      (y.pc = .asleep ∨ y.pc.inWaitset = true) → ∃ y', c'.threads[u]? = some y' ∧ y.Calm y' := by
  obtain ⟨x, ht, hs⟩ := Option.bind_eq_some_iff.mp hs
  have hkeep : ∀ {d : CondState} {g : CondThread → CondThread},
      d.threads = c.threads.modify e.thread g →
      ((x.pc = .asleep ∨ x.pc.inWaitset = true) → x.Calm (g x)) →
      ∀ (u : ThreadId) (y : CondThread), c.threads[u]? = some y →
        (y.pc = .asleep ∨ y.pc.inWaitset = true) → ∃ y', d.threads[u]? = some y' ∧ y.Calm y' := by
    intro d g hthreads hcalm u y hy hpc
    by_cases hu : u = e.thread
    · subst hu
      obtain rfl : x = y := Option.some.inj (ht.symm.trans hy)
      exact ⟨g x, by rw [hthreads, List.getElem?_modify_eq, ht]; rfl, hcalm hpc⟩
    · exact ⟨y, by rw [hthreads, List.getElem?_modify_ne _ _ (Ne.symm hu)]; exact hy, .refl y⟩
  have hcalm : ∀ {y : CondThread}, x.pc = .user ∨ x.pc = .relock ∨ x.pc = .ret →
      (x.pc = .asleep ∨ x.pc.inWaitset = true) → x.Calm y := by
    intro y hpc hsleeps
    rcases hpc with hpc | hpc | hpc <;> simp [hpc, CondPc.inWaitset] at hsleeps
  cases e with
  | run s =>
    obtain ⟨-, hs⟩ := Option.ite_none_right_eq_some.mp hs
    have hsx : c.threads[s]? = some x := ht
    have hout : x.pc.inWaitset = false := by
      refine Bool.eq_false_iff.mpr fun hin => hne ?_
      have hheld := (h.locals s x hsx).lock.mpr hin
      rw [hlock] at hheld
      rw [Option.some.inj hheld]
    cases hpc : x.pc with
    | relock =>
      obtain ⟨-, rfl⟩ : c.mutexes x.mutex = false ∧ _ = c' := by simpa [CondState.run, hpc] using hs
      exact ⟨by simp [CondState.ringAfter, hsx, hpc], by simp [CondState.examines, hsx, hpc],
        hkeep rfl (hcalm (.inr (.inl hpc)))⟩
    | ret =>
      obtain rfl : _ = c' := by simpa [CondState.run, hpc] using hs
      exact ⟨by simp [CondState.ringAfter, hsx, hpc], by simp [CondState.examines, hsx, hpc],
        hkeep rfl (hcalm (.inr (.inr hpc)))⟩
    | user | waitLock | asleep | signalLock => simp [CondState.run, hpc, hlock] at hs
    | _ => simp [hpc, CondPc.inWaitset] at hout
  | wait s mutex timed =>
    obtain ⟨⟨-, hpc⟩, hs⟩ := Option.ite_none_right_eq_some.mp hs
    obtain rfl := Option.some.inj hs
    exact ⟨rfl, rfl, hkeep rfl (hcalm (.inl hpc))⟩
  | signal s all =>
    obtain ⟨⟨-, hpc⟩, hs⟩ := Option.ite_none_right_eq_some.mp hs
    obtain rfl := Option.some.inj hs
    exact ⟨rfl, rfl, hkeep rfl (hcalm (.inl hpc))⟩
  | lock s mutex =>
    obtain ⟨-, hs⟩ := Option.ite_none_right_eq_some.mp hs
    obtain rfl := Option.some.inj hs
    exact ⟨rfl, rfl, fun u y hy _ => ⟨y, hy, .refl y⟩⟩
  | unlock s mutex =>
    obtain ⟨-, hs⟩ := Option.ite_none_right_eq_some.mp hs
    obtain rfl := Option.some.inj hs
    exact ⟨rfl, rfl, fun u y hy _ => ⟨y, hy, .refl y⟩⟩
  | expire s =>
    obtain ⟨-, hs⟩ := Option.ite_none_right_eq_some.mp hs
    obtain rfl := Option.some.inj hs
    exact ⟨rfl, rfl, hkeep rfl fun _ => ⟨rfl, rfl, rfl, by simp, fun _ => .inl rfl⟩⟩
  | dispatch s =>
    obtain ⟨hready, hs⟩ := Option.ite_none_right_eq_some.mp hs
    obtain rfl := Option.some.inj hs
    exact ⟨rfl, rfl, hkeep rfl fun _ =>
      ⟨rfl, rfl, rfl, by simp, fun _ => .inr ⟨by simp [hready], rfl⟩⟩⟩
  | preempt s =>
    obtain ⟨hrunning, hs⟩ := Option.ite_none_right_eq_some.mp hs
    obtain rfl := Option.some.inj hs
    exact ⟨rfl, rfl, hkeep rfl fun _ =>
      ⟨rfl, rfl, rfl, by simp, fun _ => .inr ⟨by simp [hrunning], rfl⟩⟩⟩

theorem inWaitset_of_broadcast (h : pc.broadcast = some all) : pc.inWaitset = true := by
  cases pc with
  | scan | detach | wake | mark | scanned | signalUnlock => rfl
  | _ => simp [CondPc.broadcast] at h

theorem CondState.Progress.others (h : c.Progress ws₀ t all os ws pc) (hs : c.step e = some c')
    (hne : e ≠ .run t) :
    c.examines e = none ∧ c'.Progress ws₀ t all os ws pc := by
  obtain ⟨x, ht, hpc⟩ := h.thread
  have hin : x.pc.inWaitset = true := by rw [hpc]; exact inWaitset_of_broadcast h.operation
  have hlock := (h.inv.locals t x ht).lock.mpr hin
  obtain ⟨hring, hobs, hcalm⟩ := h.inv.others hlock hs hne
  have hinv := h.inv.step hs
  rw [hring] at hinv
  refine ⟨hobs, hinv, ?_, h.operation, h.order, h.scans, h.stops, h.empties, h.nodup,
    h.marking, fun w found hw => ?_⟩
  · obtain ⟨x', hx', hxc⟩ := hcalm t x ht (.inr hin)
    exact ⟨x', hx', hxc.pc.trans hpc⟩
  · obtain ⟨y, hy, hye⟩ := h.examined w found hw
    obtain ⟨y', hy', hyc⟩ := hcalm w y hy (.inl hye.asleep)
    exact ⟨y', hy', hyc.examined hye⟩

theorem CondThread.Examined.goto {pc' : CondPc} (h : y.Examined pc w found)
    (hpc : ∀ all, pc ≠ .mark all w) :
    y.Examined pc' w found :=
  ⟨h.asleep, h.removed, h.state, h.expired, fun hf => (h.signalled hf).imp_right fun ⟨all, he⟩ =>
    absurd he (hpc all)⟩

theorem CondState.Progress.sleeper (h : c.Progress ws₀ t all os ws pc) (hw : (w, found) ∈ os) :
    w ≠ t ∧ ∃ y, c.threads[w]? = some y ∧ y.Examined pc w found := by
  obtain ⟨y, hy, hye⟩ := h.examined w found hw
  obtain ⟨x, hx, hpc⟩ := h.thread
  refine ⟨?_, y, hy, hye⟩
  rintro rfl
  obtain rfl : x = y := Option.some.inj (hx.symm.trans hy)
  have hin := inWaitset_of_broadcast h.operation
  rw [← hpc, hye.asleep] at hin
  simp [CondPc.inWaitset] at hin

theorem CondState.Progress.goto {pc' : CondPc} (h : c.Progress ws₀ t all os ws pc)
    (hmark : ∀ all w, pc ≠ .mark all w) (w : ThreadId) (found : Bool) (hw : (w, found) ∈ os) :
    ∃ y, (c.goto t pc').threads[w]? = some y ∧ y.Examined pc' w found := by
  obtain ⟨hwt, y, hy, hye⟩ := h.sleeper hw
  refine ⟨y, ?_, hye.goto fun all => hmark all w⟩
  simp [CondState.goto, CondState.put, List.getElem?_modify_ne _ _ (Ne.symm hwt), hy]

/-- A statement that changes thread `u`, which was not examined before. -/
theorem CondState.Progress.touch {pc' : CondPc} {u : ThreadId} {f : CondThread → CondThread}
    (h : c.Progress ws₀ t all os ws pc) (hw : (w, found) ∈ os) (hu : w ≠ u)
    (hmark : ∀ all, pc ≠ .mark all w)
    (hthreads : c'.threads = (c.threads.modify u f).modify t fun x => { x with pc := pc' }) :
    ∃ y, c'.threads[w]? = some y ∧ y.Examined pc' w found := by
  obtain ⟨hwt, y, hy, hye⟩ := h.sleeper hw
  refine ⟨y, ?_, hye.goto hmark⟩
  rw [hthreads, List.getElem?_modify_ne _ _ (Ne.symm hwt), List.getElem?_modify_ne _ _ (Ne.symm hu)]
  exact hy

theorem goto_thread {d : CondState} {pc' : CondPc} (hy : d.threads[t]? = some y) :
    ∃ x', (d.goto t pc').threads[t]? = some x' ∧ x'.pc = pc' := by
  refine ⟨{ y with pc := pc' }, ?_, rfl⟩
  show (d.threads.modify t _)[t]? = _
  rw [List.getElem?_modify_eq, hy]
  rfl

theorem CondState.Progress.runScan (h : c.Progress ws₀ t all os ws (.scan all))
    (ht : c.threads[t]? = some x)
    (hpc : x.pc = .scan all) (hinv : c'.Inv ws) (hs : c.run t x = some c') :
    ∃ pc', c'.Progress ws₀ t all os ws pc' := by
  simp only [CondState.run, hpc] at hs
  have horder := h.order
  split at hs
  · rename_i hempty
    obtain rfl := Option.some.inj hs
    have hws : ws = [] := List.head?_eq_none_iff.mp (h.inv.ring.first.symm.trans hempty)
    exact ⟨.scanned all, hinv, goto_thread ht, rfl, horder, by simp [CondPc.scanning],
      fun _ hall => .inr ⟨hws, h.scans rfl hall⟩, by simp, h.nodup, by simp, h.goto (by simp)⟩
  · rename_i w hw
    obtain rfl := Option.some.inj hs
    exact ⟨.detach all w, hinv, goto_thread ht, rfl, horder, fun _ => h.scans rfl,
      by simp [CondPc.scanning],
      by simp, h.nodup, by simp, h.goto (by simp)⟩

theorem CondState.Progress.runDetach (h : c.Progress ws₀ t all os ws (.detach all w))
    (ht : c.threads[t]? = some x)
    (hpc : x.pc = .detach all w) (hinv : c'.Inv (ws.erase w)) (hs : c.run t x = some c') :
    c'.Progress ws₀ t all os (ws.erase w) (.wake all w) := by
  obtain rfl : _ = c' := by simpa [CondState.run, hpc] using hs
  have hfirst : ws.head? = some w := by
    have hsig := (h.inv.locals t x ht).signals
    rwa [hpc] at hsig
  obtain ⟨hwt, y, hy, -, hyr⟩ := h.inv.asleep ht (by rw [hpc]; rfl) (by rw [hpc]; rfl)
    (List.mem_of_mem_head? hfirst)
  have hthreads :
      (((removeFromRing c w).put w fun y => { y with removed := true }).goto t
        (.wake all w)).threads = (c.threads.modify w fun y => { y with removed := true }).modify t
          fun x => { x with pc := .wake all w } := by
    simp [CondState.goto, CondState.put]
  refine ⟨hinv, ?_, rfl, ?_, fun _ => h.scans rfl, by simp [CondPc.scanning],
    by simp, h.nodup, by simp,
    fun u found hu => ?_⟩
  · refine ⟨{ x with pc := .wake all w }, ?_, rfl⟩
    rw [hthreads, List.getElem?_modify_eq, List.getElem?_modify_ne _ _ hwt, ht]
    rfl
  · have horder := h.order
    cases ws with
    | nil => simp at hfirst
    | cons a l =>
      obtain rfl : a = w := Option.some.inj hfirst
      simpa [CondPc.pending] using horder
  · refine h.touch hu ?_ (by simp) hthreads
    rintro rfl
    obtain ⟨-, z, hz, hze⟩ := h.sleeper hu
    obtain rfl : y = z := Option.some.inj (hy.symm.trans hz)
    simp [hze.removed] at hyr

theorem CondState.Progress.runWake (h : c.Progress ws₀ t all os ws (.wake all w))
    (ht : c.threads[t]? = some x)
    (hpc : x.pc = .wake all w) (hinv : c'.Inv ws) (hs : c.run t x = some c') :
    ∃ pc', c'.Progress ws₀ t all (os ++ [(w, c.finds w)]) ws pc' := by
  have horder : ws₀ = (os ++ [(w, c.finds w)]).map Prod.fst ++ ws := by
    have horder := h.order
    simpa [CondPc.pending] using horder
  obtain ⟨y, hy, hd⟩ : ∃ y, c.threads[w]? = some y ∧ y.Detached := by
    have hsig := (h.inv.locals t x ht).signals
    rwa [hpc] at hsig
  have hwt : w ≠ t := by
    rintro rfl
    obtain rfl : x = y := Option.some.inj (ht.symm.trans hy)
    have hasleep := hd.pc
    rw [hpc] at hasleep
    simp at hasleep
  have hnew : ∀ u found, (u, found) ∈ os → u ≠ w := by
    rintro u found hu rfl
    have hnd := h.nodup
    rw [horder, List.map_append, List.append_assoc] at hnd
    have hdis := List.disjoint_of_nodup_append hnd
    exact hdis (List.mem_map_of_mem hu) (by simp)
  by_cases hfinds : c.finds w = true
  · obtain rfl : _ = c' := by simpa [CondState.run, hpc, hfinds] using hs
    rw [hfinds] at horder ⊢
    refine ⟨.mark all w, hinv, ?_, rfl, by simpa [CondPc.pending] using horder,
      by simp [CondPc.scanning],
      fun _ hall => .inl ⟨os, w, rfl, h.scans rfl hall⟩,
        by simp, h.nodup, by simp, fun u found hu => ?_⟩
    · apply goto_thread
      show (c.threads.modify w _)[t]? = _
      rw [List.getElem?_modify_ne _ _ hwt]
      exact ht
    · rcases List.mem_append.mp hu with hu | hu
      · exact h.touch hu (hnew u found hu) (by simp) rfl
      · obtain ⟨rfl, rfl⟩ : u = w ∧ found = true := by simpa using hu
        refine ⟨{ y with state := .ready }, ?_, hd.pc, hd.removed, by simp,
          by simp, fun _ => .inr ⟨all, rfl⟩⟩
        simp [CondState.goto, CondState.put, hy, Ne.symm hwt]
  · obtain rfl : _ = c' := by simpa [CondState.run, hpc, hfinds] using hs
    have hfalse : c.finds w = false := by simpa using hfinds
    rw [hfalse] at horder ⊢
    have hstate : y.state ≠ .stopped := by
      intro hstopped
      simp [CondState.finds, hy, hstopped] at hfinds
    refine ⟨.scan all, hinv, goto_thread ht, rfl, by simpa [CondPc.pending] using horder,
      fun _ hall o ho =>
        ?_, by simp [CondPc.scanning], by simp, h.nodup, by simp, fun u found hu => ?_⟩
    · rcases List.mem_append.mp ho with ho | ho
      · exact h.scans rfl hall o ho
      · rw [List.mem_singleton.mp ho]
    · rcases List.mem_append.mp hu with hu | hu
      · exact h.goto (by simp) u found hu
      · obtain ⟨rfl, rfl⟩ : u = w ∧ found = false := by simpa using hu
        refine ⟨y, ?_, hd.pc, hd.removed, hstate, fun _ => ⟨hd.expired hstate, hd.signalled⟩,
          by simp⟩
        simp [CondState.goto, CondState.put, hy, Ne.symm hwt]

theorem CondState.Progress.runMark (h : c.Progress ws₀ t all os ws (.mark all w))
    (ht : c.threads[t]? = some x)
    (hpc : x.pc = .mark all w) (hinv : c'.Inv ws) (hs : c.run t x = some c') :
    c'.Progress ws₀ t all os ws (.scanned all) := by
  obtain rfl : _ = c' := by simpa [CondState.run, hpc] using hs
  have hmark := h.marking w rfl
  obtain ⟨hwt, -⟩ := h.sleeper hmark
  refine ⟨hinv, ?_, rfl, h.order, by simp [CondPc.scanning], fun _ => h.stops rfl,
    by simp, h.nodup, by simp,
    fun u found hu => ?_⟩
  · apply goto_thread
    show (c.threads.modify w _)[t]? = _
    rw [List.getElem?_modify_ne _ _ hwt]
    exact ht
  · by_cases huw : u = w
    · subst huw
      obtain rfl : found = true := by
        have hnd : (os.map Prod.fst).Nodup := by
          have hnd := h.nodup
          rw [h.order, List.append_assoc] at hnd
          exact (List.nodup_append.mp hnd).1
        have hinj := List.inj_on_of_nodup_map hnd hu hmark rfl
        exact congrArg Prod.snd hinj
      obtain ⟨-, y, hy, hye⟩ := h.sleeper hu
      refine ⟨{ y with signalled := true }, ?_, hye.asleep, hye.removed,
        hye.state, by simp, fun _ => .inl rfl⟩
      simp [CondState.goto, CondState.put, hy, Ne.symm hwt]
    · exact h.touch hu huw (by simpa using Ne.symm huw) rfl

theorem CondState.Progress.runScanned (h : c.Progress ws₀ t all os ws (.scanned all))
    (ht : c.threads[t]? = some x)
    (hpc : x.pc = .scanned all) (hinv : c'.Inv ws) (hs : c.run t x = some c') :
    ∃ pc', c'.Progress ws₀ t all os ws pc' := by
  obtain rfl : _ = c' := by simpa [CondState.run, hpc] using hs
  have horder := h.order
  split
  · rename_i hmore
    refine ⟨.scan all, ?_, goto_thread ht, rfl, horder, fun _ hall => by simp [hmore.1] at hall,
      by simp [CondPc.scanning], by simp, h.nodup, by simp, h.goto (by simp)⟩
    rwa [if_pos hmore] at hinv
  · rename_i hdone
    rw [if_neg hdone] at hinv
    refine ⟨.signalUnlock all, hinv, goto_thread ht, rfl, horder, by simp [CondPc.scanning],
      fun _ => h.stops rfl, fun he => ?_, h.nodup, by simp, h.goto (by simp)⟩
    obtain rfl : all = true := by simpa using he
    have hfirst := h.inv.ring.first
    cases ws with
    | nil => rfl
    | cons a l => simp [hfirst] at hdone

theorem examines_run (ht : c.threads[t]? = some x) : c.examines (.run t) =
    match x.pc with
    | .wake _ w => some (w, c.finds w)
    | _ => none := by
  cases hpc : x.pc <;> simp [CondState.examines, ht, hpc]

theorem CondState.Progress.run (h : c.Progress ws₀ t all os ws pc) (hpc : pc ≠ .signalUnlock all)
    (hs : c.step (.run t) = some c') :
    ∃ ws' pc', c'.Progress ws₀ t all (os ++ (c.examines (.run t)).toList) ws' pc' := by
  obtain ⟨x, ht, hxpc⟩ := h.thread
  have hinv := h.inv.step hs
  obtain ⟨x', ht', hs⟩ := Option.bind_eq_some_iff.mp hs
  obtain rfl : x = x' := Option.some.inj (ht.symm.trans ht')
  obtain ⟨-, hs⟩ := Option.ite_none_right_eq_some.mp hs
  have hop := h.operation
  simp only [CondState.ringAfter, ht, Option.elim_some, hxpc] at hinv
  rw [examines_run ht, hxpc]
  cases pc with
  | scan a =>
    obtain rfl : a = all := Option.some.inj hop
    obtain ⟨pc', h'⟩ := h.runScan ht hxpc hinv hs
    exact ⟨ws, pc', by simpa using h'⟩
  | detach a w =>
    obtain rfl : a = all := Option.some.inj hop
    exact ⟨_, _, by simpa using h.runDetach ht hxpc hinv hs⟩
  | wake a w =>
    obtain rfl : a = all := Option.some.inj hop
    obtain ⟨pc', h'⟩ := h.runWake ht hxpc hinv hs
    exact ⟨ws, pc', h'⟩
  | mark a w =>
    obtain rfl : a = all := Option.some.inj hop
    exact ⟨_, _, by simpa using h.runMark ht hxpc hinv hs⟩
  | scanned a =>
    obtain rfl : a = all := Option.some.inj hop
    obtain ⟨pc', h'⟩ := h.runScanned ht hxpc hinv hs
    exact ⟨ws, pc', by simpa using h'⟩
  | signalUnlock a =>
    obtain rfl : a = all := Option.some.inj hop
    exact absurd rfl hpc
  | _ => simp [CondPc.broadcast] at hop

/-- The steps of all threads, for as long as thread `t` has `waitset_lock`. -/
theorem progress_of_trace {os' : List (ThreadId × Bool)} (h : c.Progress ws₀ t all os ws pc)
    (htrace : Trace CondState.step (fun c _ => c.waitsetLock = some t) CondState.examines c os' c')
    (hlock : c'.waitsetLock = some t) : ∃ ws' pc', c'.Progress ws₀ t all (os ++ os') ws' pc' := by
  induction htrace generalizing os ws pc with
  | refl c => exact ⟨ws, pc, by simpa using h⟩
  | @head c d c'' e os' hok hs htrace ih =>
    by_cases he : e = .run t
    · subst he
      by_cases hpc : pc = .signalUnlock all
      · have hgone : d.waitsetLock = none := by
          obtain ⟨x, ht, hxpc⟩ := h.thread
          obtain ⟨x', ht', hs⟩ := Option.bind_eq_some_iff.mp hs
          obtain rfl : x = x' := Option.some.inj (ht.symm.trans ht')
          obtain ⟨-, hs⟩ := Option.ite_none_right_eq_some.mp hs
          obtain rfl : _ = d := by simpa [CondState.run, hxpc, hpc] using hs
          rfl
        cases htrace with
        | refl => simp [hgone] at hlock
        | head hok' => simp [hgone] at hok'
      · obtain ⟨ws', pc', h'⟩ := h.run hpc hs
        obtain ⟨ws'', pc'', h''⟩ := ih h' hlock
        exact ⟨ws'', pc'', by rwa [← List.append_assoc]⟩
    · obtain ⟨hobs, h'⟩ := h.others hs he
      obtain ⟨ws', pc', h''⟩ := ih h' hlock
      exact ⟨ws', pc', by simpa [hobs] using h''⟩

theorem CondState.Inv.of_trace {ok : CondState → CondEvent → Prop} {ws : List ThreadId}
    (h : c.Inv ws)
    (htrace : Trace CondState.step ok CondState.examines c os c') : ∃ ws', c'.Inv ws' := by
  induction htrace generalizing ws with
  | refl c => exact ⟨ws, h⟩
  | head _ hs _ ih => exact ih (h.step hs)

theorem CondState.Inv.starts (h : c.Inv ws) (ht : c.threads[t]? = some x)
    (hpc : x.pc = .signalLock all)
    (hs : c.step (.run t) = some c') : ∃ pc, c'.Progress ws t all [] ws pc := by
  have hinv := h.step hs
  obtain ⟨x', ht', hs⟩ := Option.bind_eq_some_iff.mp hs
  obtain rfl : x = x' := Option.some.inj (ht.symm.trans ht')
  obtain ⟨-, hs⟩ := Option.ite_none_right_eq_some.mp hs
  simp only [CondState.ringAfter, ht, Option.elim_some, hpc] at hinv
  simp only [CondState.run, hpc] at hs
  obtain ⟨-, rfl⟩ : c.waitsetLock = none ∧ _ = c' := by simpa using hs
  have hthread : ∀ {pc' : CondPc}, ∃ x',
    (({ c with waitsetLock := some t } : CondState).goto t pc').threads[t]? =
      some x' ∧ x'.pc = pc' := goto_thread ht
  have hnd := h.ring.heap.circle.nodup
  cases all with
  | false => exact ⟨.scan false, hinv, hthread, rfl, rfl, by simp, by simp [CondPc.scanning],
    by simp, hnd, by simp, by simp⟩
  | true =>
    exact ⟨.scanned true, hinv, hthread, rfl, rfl, by simp, by simp, by simp, hnd, by simp, by simp⟩

end Operation

end TinyOS
