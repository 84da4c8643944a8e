import TinyOS.IoCounts

/-! What `Exec` and the end of a process do to the streams, and from it that the counts of
the FCBs are exact in every run. -/

namespace TinyOS

open Counting Transition

section Exec

variable {k k' : IoKernel} {p child : Pid} {f : FcbId} {t : ThreadId} {y : IoThread}

/-- The first `n` streams of `p`, handed to `child` one by one. -/
def IoKernel.inherit (k : IoKernel) (p child : Pid) : Nat → IoKernel
  | 0 => k
  | n + 1 =>
    match (k.procs p).fidt n with
    | none => k.inherit p child n
    | some f => ((k.inherit p child n).incref f).setFidt child n (some f)

theorem inherit_procs (k : IoKernel) {p child : Pid} (n : Nat) {q : Pid} (hq : q ≠ child) :
    (k.inherit p child n).procs q = k.procs q := by
  induction n with
  | zero => rfl
  | succ n ih =>
    simp only [IoKernel.inherit]
    split
    · exact ih
    · simp only [IoKernel.setFidt, IoKernel.setProc, Function.update_of_ne hq]
      exact ih

theorem inherit_pstate (k : IoKernel) (p child : Pid) (n : Nat) :
    ((k.inherit p child n).procs child).pstate = (k.procs child).pstate := by
  induction n with
  | zero => rfl
  | succ n ih =>
    simp only [IoKernel.inherit]
    split
    · exact ih
    · rw [pstate_setFidt]
      exact ih

theorem inherit_fidt (k : IoKernel) (p child : Pid) (n i : Nat) (hi : n ≤ i) :
    ((k.inherit p child n).procs child).fidt i = (k.procs child).fidt i := by
  induction n with
  | zero => rfl
  | succ n ih =>
    have hne : i ≠ n := by omega
    simp only [IoKernel.inherit]
    split
    · exact ih (by omega)
    · simp only [IoKernel.setFidt, IoKernel.setProc, Function.update_self,
        Function.update_of_ne hne]
      exact ih (by omega)

theorem IoKernel.Counted.inherit (h : k.Counted none) (hne : p ≠ child)
    (hc : (k.procs child).pstate = .alive)
    (hempty : ∀ i, i < maxFileid → (k.procs child).fidt i = none)
    (n : Nat) (hn : n ≤ maxFileid) : (k.inherit p child n).Counted none := by
  induction n with
  | zero => exact h
  | succ n ih =>
    have hlt : n < maxFileid := by omega
    have hcount := ih (by omega)
    simp only [IoKernel.inherit]
    split
    · exact hcount
    · rename_i f hf
      have hslot : ((k.inherit p child n).procs p).fidt n = some f := by
        rw [inherit_procs k n hne]
        exact hf
      have hslotc : ((k.inherit p child n).procs child).fidt n = none := by
        rw [inherit_fidt k p child n n (Nat.le_refl n)]
        exact hempty n hlt
      have hpos := refs_pos_of_slot hlt hslot
      exact (hcount.incref hpos).fillSlot ((inherit_pstate k p child n).trans hc) hlt hslotc

/-- What `sys_Exec` does at once is the same as handing the streams over one by one. -/
theorem inherit_eq (hempty : ∀ i, i < maxFileid → (k.procs child).fidt i = none) (n : Nat)
    (hn : n ≤ maxFileid) :
    k.inherit p child n = { k.setProc child (fun c =>
      { c with fidt := fun i => if i < n then (k.procs p).fidt i else c.fidt i }) with
      files := (List.range n).foldl (fun files i => match (k.procs p).fidt i with
        | some f => fcbIncref files f
        | none => files) k.files } := by
  induction n with
  | zero => simp [IoKernel.inherit, IoKernel.setProc]
  | succ n ih =>
    have hlt : n < maxFileid := by omega
    have hfidt : ∀ x, (k.procs p).fidt n = x →
        (fun i => if i < n + 1 then (k.procs p).fidt i else (k.procs child).fidt i) =
        Function.update (fun i => if i < n then (k.procs p).fidt i else (k.procs child).fidt i)
          n x := by
      intro x hx
      funext i
      by_cases hi : i = n
      · subst hi
        simp [hx]
      · have hiff : i < n + 1 ↔ i < n := by omega
        simp [hi, hiff]
    simp only [IoKernel.inherit]
    rw [ih (by omega), List.range_succ, List.foldl_append]
    cases hx : (k.procs p).fidt n with
    | none =>
      have hsame :
          Function.update (fun i => if i < n then (k.procs p).fidt i else (k.procs child).fidt i)
          n none = fun i => if i < n then (k.procs p).fidt i else (k.procs child).fidt i := by
        rw [Function.update_eq_self_iff]
        simp [hempty n hlt]
      simp only [IoKernel.setProc, hfidt none hx, hsame]
      simp [hx]
    | some f =>
      simp only [IoKernel.setProc, IoKernel.setFidt, IoKernel.incref, hfidt (some f) hx]
      simp [hx]

theorem IoKernel.Counted.addThread (h : k.Counted none) (hp : (k.procs p).pstate = .alive) :
    (k.addThread p).Counted none := by
  refine h.move (fun _ => rfl) rfl (fun g => ?_) h.idle fun x hx hpc => ?_
  · have hslots : (k.addThread p).slots g = k.slots g := rfl
    have husers : (k.addThread p).users g = k.users g := by
      simp [IoKernel.users, IoKernel.addThread, IoPc.uses]
    simp only [IoKernel.refs, hslots, husers]
  · rcases List.mem_append.mp hx with hx | hx
    · exact h.owner x hx hpc
    · obtain rfl : x = ⟨p, .user⟩ := by simpa using hx
      exact hp

theorem IoKernel.Counted.revive (h : k.Counted none) (hc : (k.procs child).pstate = .free) :
    (k.setProc child fun c => { c with pstate := .alive }).Counted none := by
  have hslot : (k.setProc child fun c => { c with pstate := .alive }).slot = k.slot := by
    funext ⟨q, i⟩
    by_cases hq : q = child
    · subst hq
      simp [IoKernel.slot, IoKernel.setProc]
    · simp [IoKernel.slot, IoKernel.setProc, hq]
  refine h.move (fun _ => rfl) rfl (fun g => ?_) (fun q hq i hi => ?_) fun x hx hpc => ?_
  · simp only [IoKernel.refs, IoKernel.slots, hslot]
    rfl
  · by_cases hqc : q = child
    · subst hqc
      simp [IoKernel.setProc] at hq
    · simp only [IoKernel.setProc, Function.update_of_ne hqc] at hq ⊢
      exact h.idle q hq i hi
  · have halive := h.owner x hx hpc
    have hxc : x.pid ≠ child := by
      intro he
      rw [he, hc] at halive
      simp at halive
    simp only [IoKernel.setProc, Function.update_of_ne hxc]
    exact halive

theorem ioExec_cases {ret : Option IoRet} {call : Bool} (h : k.Counted none)
    (hp : (k.procs p).pstate = .alive) (hc : (k.procs child).pstate = .free)
    (he : ioExec k p child call = some (k', ret)) :
    ∃ n, n ≤ maxFileid ∧
      k' = if call then
        ((k.setProc child fun c => { c with pstate := .alive }).inherit p child n).addThread
        child else (k.setProc child fun c => { c with pstate := .alive }).inherit p child n := by
  have hne : p ≠ child := by
    intro he
    rw [he, hc] at hp
    simp at hp
  have hempty : ∀ i, i < maxFileid →
      ((k.setProc child fun c => { c with pstate := .alive }).procs child).fidt i = none := by
    intro i hi
    simpa [IoKernel.setProc] using h.idle child (by simp [hc]) i hi
  by_cases hboot : child.val ≤ 1
  · refine ⟨0, Nat.zero_le _, ?_⟩
    simp only [ioExec, hboot, if_true, IoKernel.ret, Option.some.injEq, Prod.mk.injEq] at he
    exact he.1.symm
  · refine ⟨maxFileid, Nat.le_refl _, ?_⟩
    rw [inherit_eq hempty maxFileid (Nat.le_refl _)]
    simp only [ioExec, hboot, if_false, IoKernel.ret, Option.some.injEq, Prod.mk.injEq] at he
    exact he.1.symm

theorem IoKernel.Counted.exec (h : k.Counted none) (hp : (k.procs p).pstate = .alive)
    (hc : (k.procs child).pstate = .free) (call : Bool) :
    (ioExec k p child call).All AllCounted := by
  intro k' ret hr
  obtain ⟨n, hn, rfl⟩ := ioExec_cases h hp hc hr
  have hne : p ≠ child := by
    intro he
    rw [he, hc] at hp
    simp at hp
  have halive : ((k.setProc child fun c => { c with pstate := .alive }).procs child).pstate =
      .alive := by
    simp [IoKernel.setProc]
  have hcount := (h.revive hc).inherit hne halive
    (fun i hi => by simpa [IoKernel.setProc] using h.idle child (by simp [hc]) i hi) n hn
  cases call with
  | false => exact hcount
  | true => exact hcount.addThread ((inherit_pstate _ p child n).trans halive)

end Exec

section Exit

variable {k k' : IoKernel} {p : Pid} {t : ThreadId} {y : IoThread}

/-- What holds once the first `n` slots of `p` have been closed. -/
structure ClosedUpTo (k : IoKernel) (p : Pid) (n : Nat) (k' : IoKernel) : Prop where
  counted : k'.Counted none
  threads : k'.threads = k.threads
  pstate : ∀ q, (k'.procs q).pstate = (k.procs q).pstate
  others : ∀ q, q ≠ p → k'.procs q = k.procs q
  empty : ∀ i, i < n → (k'.procs p).fidt i = none

/-- The clean-up of the `FIDT` closes one stream after the other. -/
theorem closeFidt_induct {I : IoKernel → Prop} (h : k.Counted none)
    (hp : (k.procs p).pstate = .alive)
    (hI : I k) (hstep : ∀ k i f k1 v, k.Counted none → (k.procs p).pstate = .alive → i < maxFileid →
      (k.procs p).fidt i = some f → k.decref p f = some (k1, v) → I k → I (k1.setFidt p i none))
    (hc : closeFidt k p = some k') : ClosedUpTo k p maxFileid k' ∧ I k' := by
  have hall : ∀ n, n ≤ maxFileid → ∀ k', (List.range n).foldlM
      (fun k i => match (k.procs p).fidt i with
        | none => some k
        | some f => (k.decref p f).map fun r => r.1.setFidt p i none) k = some k' →
      ClosedUpTo k p n k' ∧ I k' := by
    intro n
    induction n with
    | zero =>
      intro _ k' hk'
      obtain rfl : k = k' := by simpa using hk'
      exact ⟨⟨h, rfl, fun q => rfl, fun q _ => rfl, fun i hi => absurd hi (Nat.not_lt_zero i)⟩, hI⟩
    | succ n ih =>
      intro hn k' hk'
      rw [List.range_succ, List.foldlM_append] at hk'
      obtain ⟨k1, hk1, hlast⟩ := Option.bind_eq_some_iff.mp hk'
      obtain ⟨hclosed, hI1⟩ := ih (by omega) k1 hk1
      simp only [List.foldlM_cons, List.foldlM_nil] at hlast
      cases hf : (k1.procs p).fidt n with
      | none =>
        obtain rfl : k1 = k' := by simpa [hf] using hlast
        refine ⟨⟨hclosed.counted, hclosed.threads, hclosed.pstate, hclosed.others, fun i hi => ?_⟩,
          hI1⟩
        by_cases hin : i = n
        · subst hin
          exact hf
        · exact hclosed.empty i (by omega)
      | some f =>
        have hdrop : (k1.decref p f).map (fun r => r.1.setFidt p n none) = some k' := by
          simpa [hf] using hlast
        obtain ⟨⟨k2, v⟩, hd, rfl⟩ := Option.map_eq_some_iff.mp hdrop
        have hp1 : (k1.procs p).pstate = .alive := (hclosed.pstate p).trans hp
        obtain ⟨hcount, hprocs, hthr⟩ := hclosed.counted.dropSlot hp1 (by omega) hf hd
        refine ⟨⟨hcount, hthr.trans hclosed.threads, fun q => ?_, fun q hq => ?_, fun i hi => ?_⟩,
          hstep k1 n f k2 v hclosed.counted hp1 (by omega) hf hd hI1⟩
        · rw [pstate_setFidt, hprocs]
          exact hclosed.pstate q
        · simp only [IoKernel.setFidt, IoKernel.setProc, Function.update_of_ne hq, hprocs]
          exact hclosed.others q hq
        · by_cases hin : i = n
          · subst hin
            simp [IoKernel.setFidt, IoKernel.setProc]
          · simp only [IoKernel.setFidt, IoKernel.setProc, Function.update_self,
              Function.update_of_ne hin, hprocs]
            exact hclosed.empty i (by omega)
  exact hall maxFileid (Nat.le_refl _) k' hc

theorem IoKernel.Counted.exitThread (h : k.Counted none) (ht : k.threads[t]? = some y)
    (hy : y.pc = .user) : (k.setPc t .exited).Counted none :=
  h.moveThread ht (by simp [hy]) (by simp [hy, IoPc.uses]) (by simp [IoPc.uses])

/-- The last live thread of a process is the one that exits. -/
theorem liveIn_unique {x : IoThread} {i : ThreadId} (hone : k.threads.countP (·.liveIn p) = 1)
    (ht : k.threads[t]? = some y) (hy : y.pc = .user) (hyp : y.pid = p)
    (hx : k.threads[i]? = some x) (hxp : x.pid = p) (hxpc : x.pc ≠ .exited) : i = t := by
  by_contra hne
  have htwo := two_le_countP (p := fun x : IoThread => x.liveIn p) hne hx ht
    (by simp [IoThread.liveIn, hxp, hxpc]) (by simp [IoThread.liveIn, hyp, hy])
  omega

theorem IoKernel.Counted.threadExit (h : k.Counted none) (hp : (k.procs p).pstate = .alive)
    (ht : k.threads[t]? = some y) (hy : y.pc = .user) (hyp : y.pid = p) :
    IoResult.All AllCounted ((ioThreadExit k t p).map fun k => (k, none)) := by
  refine .map fun k' hk' => ?_
  simp only [ioThreadExit] at hk'
  split at hk'
  · rename_i hone
    obtain ⟨k1, hk1, rfl⟩ := Option.map_eq_some_iff.mp hk'
    obtain ⟨hclosed, -⟩ := closeFidt_induct (I := fun _ => True) h hp trivial
      (fun _ _ _ _ _ _ _ _ _ _ _ => trivial) hk1
    have ht1 : k1.threads[t]? = some y := by rw [hclosed.threads]; exact ht
    have hslot : (k1.setProc p fun c => { c with pstate := .zombie }).slot = k1.slot := by
      funext ⟨q, i⟩
      by_cases hq : q = p
      · subst hq
        simp [IoKernel.slot, IoKernel.setProc]
      · simp [IoKernel.slot, IoKernel.setProc, hq]
    refine hclosed.counted.move (fun _ => rfl) rfl (fun g => ?_) (fun q hq i hi => ?_)
      fun z hz hpc => ?_
    · have hu := users_setPc ht1 .exited g
      have hyg : y.pc.uses g = false := by rw [hy]; rfl
      have hexit : IoPc.exited.uses g = false := rfl
      simp only [hyg, hexit] at hu
      have hslots : ((k1.setProc p fun c => { c with pstate := .zombie }).setPc t .exited).slots g =
          k1.slots g := by
        rw [IoKernel.slots, IoKernel.slots, ← hslot]
        rfl
      have husers : ((k1.setProc p fun c => { c with pstate := .zombie }).setPc t .exited).users g =
          (k1.setPc t .exited).users g := rfl
      simp only [IoKernel.refs, hslots, husers]
      simpa using hu
    · by_cases hqp : q = p
      · subst hqp
        simpa [IoKernel.setPc, IoKernel.setProc] using hclosed.empty i hi
      · simp only [IoKernel.setPc, IoKernel.setProc, Function.update_of_ne hqp] at hq ⊢
        exact hclosed.counted.idle q hq i hi
    · have hz' : z ∈ (k1.setPc t .exited).threads := hz
      obtain ⟨i, hi⟩ := List.getElem?_of_mem hz'
      rcases getElem?_modify_cases hi with ⟨-, x, -, rfl⟩ | ⟨hit, hx⟩
      · simp at hpc
      · have hzp : z.pid ≠ p := by
          intro he
          rw [hclosed.threads] at hx
          exact hit (liveIn_unique hone ht hy hyp hx he hpc)
        simp only [IoKernel.setPc, IoKernel.setProc, Function.update_of_ne hzp]
        exact hclosed.counted.owner z (List.mem_of_getElem? hx) hpc
  · obtain rfl : k.setPc t .exited = k' := by simpa using hk'
    exact h.exitThread ht hy

end Exit

end TinyOS
