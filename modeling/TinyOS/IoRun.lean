import TinyOS.IoProcesses

/-! Runs of the machine: what a step can be, and that the counts of the FCBs stay exact. -/

namespace TinyOS

open Transition

/-- The thread has given up waiting on the request, by its timeout. -/
def IoKernel.expire (k : IoKernel) (t : ThreadId) (s : SockId) (r : ReqId) : IoKernel :=
  { k with requests := k.requests.modify r fun c =>
    { c with connectedCv := c.connectedCv.expire t } }.setPc t (.connecting s r true)

inductive Stepped (k : IoKernel) : IoEvent → IoKernel → Option IoRet → Prop
  | fault (e : IoEvent) : Stepped k e { k with faulted := true } none
  | timeout (t : ThreadId) (p : Pid) (s : SockId) (r : ReqId)
    (ht : k.threads[t]? = some ⟨p, .connecting s r false⟩)
    (hcv : t ∈ (k.requests[r]?).elim [] (·.connectedCv.waitset)) :
    Stepped k (.timeout t) (k.expire t s r) none
  | serialReady : Stepped k .serialReady { k with
      rxReady := fun i => kernelBroadcast (k.rxReady i) } none
  | reap (p : Pid) (hp : (k.procs p).pstate = .zombie) :
    Stepped k (.reap p) (k.setProc p fun c => { c with pstate := .free }) none
  | proceed (t : ThreadId) (y : IoThread) (dev : List UInt8) (garbage : Nat → UInt8) (k' : IoKernel)
    (ret : Option IoRet) (ht : k.threads[t]? = some y)
    (h : k.goOn t y.pid y.pc dev garbage = some (some (k', ret))) :
    Stepped k (.proceed t dev garbage) k' ret
  | call (e : IoEvent) (t : ThreadId) (y : IoThread) (k' : IoKernel) (ret : Option IoRet)
    (he : e.thread = some t) (ht : k.threads[t]? = some y) (hy : y.pc = .user)
    (h : k.call t y.pid e = some (some (k', ret))) : Stepped k e k' ret

section Step

variable {k k' : IoKernel} {p : Pid} {t : ThreadId} {y : IoThread} {e : IoEvent}
  {ret : Option IoRet}

theorem settle_cases {res : IoResult} (h : k.settle res = (k', ret)) :
    res = some (k', ret) ∨ (k' = { k with faulted := true } ∧ ret = none) := by
  cases res with
  | none =>
    obtain ⟨rfl, rfl⟩ : _ = k' ∧ _ = ret := by simpa [IoKernel.settle] using h
    exact .inr ⟨rfl, rfl⟩
  | some r => exact .inl (congrArg some h)

theorem stepRet_cases (h : k.stepRet e = some (k', ret)) : k.faulted = false ∧
    Stepped k e k' ret := by
  unfold IoKernel.stepRet at h
  split at h
  · simp at h
  rename_i hfault
  refine ⟨by simpa using hfault, ?_⟩
  split at h
  · rename_i t
    split at h
    · rename_i p s r ht
      split at h
      · rename_i hcv
        obtain ⟨rfl, rfl⟩ : _ = k' ∧ _ = ret := by simpa using h
        exact .timeout t p s r ht hcv
      · simp at h
    · simp at h
  · obtain ⟨rfl, rfl⟩ : _ = k' ∧ _ = ret := by simpa using h
    exact .serialReady
  · rename_i p
    split at h
    · rename_i hp
      obtain ⟨rfl, rfl⟩ : _ = k' ∧ _ = ret := by simpa using h
      exact .reap p hp
    · simp at h
  · rename_i t dev garbage
    obtain ⟨y, ht, h⟩ := Option.bind_eq_some_iff.mp h
    obtain ⟨res, hgo, hres⟩ := Option.map_eq_some_iff.mp h
    rcases settle_cases hres with rfl | ⟨rfl, rfl⟩
    · exact .proceed t y dev garbage k' ret ht hgo
    · exact .fault _
  · obtain ⟨t, he, h⟩ := Option.bind_eq_some_iff.mp h
    obtain ⟨y, ht, h⟩ := Option.bind_eq_some_iff.mp h
    split at h
    · rename_i hy
      obtain ⟨res, hcall, hres⟩ := Option.map_eq_some_iff.mp h
      rcases settle_cases hres with rfl | ⟨rfl, rfl⟩
      · exact .call _ t y k' ret he ht hy hcall
      · exact .fault _
    · simp at h

theorem step_cases_io (h : k.step e = some k') : k.faulted = false ∧ ∃ ret, Stepped k e k' ret := by
  obtain ⟨⟨k1, ret⟩, hr, rfl⟩ := Option.map_eq_some_iff.mp h
  obtain ⟨hf, hs⟩ := stepRet_cases hr
  exact ⟨hf, ret, hs⟩

/-! ### The counts -/

theorem IoKernel.Counted.call {res : IoResult} (h : k.Counted none) (ht : k.threads[t]? = some y)
    (hy : y.pc = .user) (hc : k.call t y.pid e = some res) : res.All AllCounted := by
  have hp : (k.procs y.pid).pstate = .alive := h.owner y (List.mem_of_getElem? ht) (by simp [hy])
  cases e with
  | openNull =>
    obtain rfl := Option.some.inj hc
    exact h.openStream hp
  | openTerminal =>
    obtain rfl := Option.some.inj hc
    exact h.openStream hp
  | openInfo =>
    obtain rfl := Option.some.inj hc
    exact h.openInfo hp
  | pipe _ garbage =>
    obtain rfl := Option.some.inj hc
    exact h.pipe hp garbage
  | read _ fd n dev =>
    obtain rfl := Option.some.inj hc
    exact h.read ht hy fd n dev
  | write _ fd buf dev =>
    obtain rfl := Option.some.inj hc
    exact h.write ht hy fd buf dev
  | close _ fd =>
    obtain rfl := Option.some.inj hc
    exact h.close hp fd
  | dup2 _ oldfd newfd =>
    obtain rfl := Option.some.inj hc
    exact h.dup2 hp oldfd newfd
  | socket _ port =>
    obtain rfl := Option.some.inj hc
    exact .ret (h.socket hp port)
  | listen _ sock =>
    obtain rfl := Option.some.inj hc
    exact h.listen sock
  | accept _ lsock garbage =>
    obtain rfl := Option.some.inj hc
    exact h.accept hp ht hy lsock garbage
  | connect _ sock port =>
    obtain rfl := Option.some.inj hc
    exact h.connect ht hy sock port
  | shutDown _ sock how =>
    obtain rfl := Option.some.inj hc
    exact h.shutDown sock how
  | exec _ child call =>
    simp only [IoKernel.call] at hc
    split at hc
    · rename_i hfree
      obtain rfl := Option.some.inj hc
      exact h.exec hp hfree call
    · simp at hc
  | createThread =>
    obtain rfl := Option.some.inj hc
    exact .ret (h.addThread hp)
  | threadExit =>
    obtain rfl := Option.some.inj hc
    exact h.threadExit hp ht hy rfl
  | _ => simp [IoKernel.call] at hc

/-- A thread that goes on takes the reference of its call back. -/
theorem IoKernel.Counted.wake {f : FcbId} (h : k.Counted none) (ht : k.threads[t]? = some y)
    (hy : y.pc ≠ .exited) (hu : ∀ g, y.pc.uses g = decide (f = g)) :
    (k.setPc t .user).Counted (some f) := by
  refine h.setPc ht hy .user fun g => ?_
  have huser : IoPc.user.uses g = false := rfl
  simp [hu, huser]

theorem getElem?_setPc (ht : k.threads[t]? = some y) (pc : IoPc) :
    (k.setPc t pc).threads[t]? = some { y with pc := pc } := by
  simp [IoKernel.setPc, ht]

theorem IoKernel.Counted.goOn {dev : List UInt8} {garbage : Nat → UInt8} {res : IoResult}
    (h : k.Counted none) (ht : k.threads[t]? = some y)
    (hg : k.goOn t y.pid y.pc dev garbage = some res) : res.All AllCounted := by
  have ht' := getElem?_setPc ht .user
  obtain ⟨pid, pc⟩ := y
  cases pc with
  | user => simp [IoKernel.goOn] at hg
  | exited => simp [IoKernel.goOn] at hg
  | readingPipe f q n =>
    have hw : (k.setPc t .user).Counted (some f) := h.wake ht (by simp) fun g => rfl
    simp only [IoKernel.goOn] at hg
    split at hg
    · simp at hg
    · obtain rfl := Option.some.inj hg
      exact .finishIo (.map fun c _ => (readPipe_outcome q n _).keeps hw ht' rfl)
  | readingSerial f devno n =>
    have hw : (k.setPc t .user).Counted (some f) := h.wake ht (by simp) fun g => rfl
    simp only [IoKernel.goOn] at hg
    split at hg
    · simp at hg
    · obtain rfl := Option.some.inj hg
      exact .finishIo (.some ((readSerial_outcome devno n dev).keeps hw ht' rfl))
  | writingPipe f q buf =>
    have hw : (k.setPc t .user).Counted (some f) := h.wake ht (by simp) fun g => rfl
    simp only [IoKernel.goOn] at hg
    split at hg
    · simp at hg
    · obtain rfl := Option.some.inj hg
      exact .finishIo (.map fun c _ => (writePipe_outcome q buf _).keeps hw ht' rfl)
  | accepting s =>
    have hw : (k.setPc t .user).Counted none :=
      h.moveThread ht (by simp) (fun g => rfl) fun g => rfl
    have hp : ((k.setPc t .user).procs pid).pstate = .alive :=
      h.owner _ (List.mem_of_getElem? ht) (by simp)
    simp only [IoKernel.goOn] at hg
    split at hg
    · simp at hg
    · obtain rfl := Option.some.inj hg
      exact hw.acceptLoop hp ht' rfl s garbage
  | connecting s r expired =>
    have hw : (k.setPc t .user).Counted none :=
      h.moveThread ht (by simp) (fun g => rfl) fun g => rfl
    simp only [IoKernel.goOn] at hg
    split at hg
    · simp at hg
    · obtain rfl := Option.some.inj hg
      exact hw.connectLoop ht' rfl s r expired

theorem IoKernel.Counted.reap (h : k.Counted none) (hp : (k.procs p).pstate = .zombie) :
    (k.setProc p fun c => { c with pstate := .free }).Counted none := by
  have hslot : (k.setProc p fun c => { c with pstate := .free }).slot = k.slot := by
    funext ⟨q, i⟩
    by_cases hq : q = p
    · subst hq
      simp [IoKernel.slot, IoKernel.setProc]
    · simp [IoKernel.slot, IoKernel.setProc, hq]
  refine h.move (fun _ => rfl) rfl (fun g => ?_) (fun q hq i hi => ?_) fun x hx hpc => ?_
  · simp only [IoKernel.refs, IoKernel.slots, hslot]
    rfl
  · by_cases hqp : q = p
    · subst hqp
      simpa [IoKernel.setProc] using h.idle q (by simp [hp]) i hi
    · simp only [IoKernel.setProc, Function.update_of_ne hqp] at hq ⊢
      exact h.idle q hq i hi
  · have halive := h.owner x hx hpc
    have hxp : x.pid ≠ p := by
      intro he
      rw [he, hp] at halive
      simp at halive
    simp only [IoKernel.setProc, Function.update_of_ne hxp]
    exact halive

theorem IoKernel.Counted.step (h : k.Counted none) (he : k.step e = some k') : k'.Counted none := by
  obtain ⟨-, ret, hs⟩ := step_cases_io he
  cases hs with
  | fault => exact h.same (fun _ => rfl) rfl rfl rfl
  | timeout t p s r ht =>
    have hcv : ({ k with requests := k.requests.modify r fun c =>
        { c with connectedCv := c.connectedCv.expire t } } : IoKernel).Counted
          none := h.withRequests _
    exact hcv.moveThread ht (by simp) (fun g => rfl) fun g => rfl
  | serialReady => exact h.same (fun _ => rfl) rfl rfl rfl
  | reap p hp => exact h.reap hp
  | proceed t y dev garbage k1 ret ht hgo => exact h.goOn ht hgo _ _ rfl
  | call e t y k1 ret he ht hy hc => exact h.call ht hy hc _ _ rfl

theorem bootIo_counted (serialPorts : Nat) : (bootIo serialPorts).Counted none := by
  have hrefs : ∀ f, (bootIo serialPorts).refs f = 0 := by
    intro f
    have hslots : (bootIo serialPorts).slots f = 0 :=
      Counting.occurrences_eq_zero fun i => by simp [IoKernel.slot, bootIo]
    have husers : (bootIo serialPorts).users f = 0 := rfl
    simp only [IoKernel.refs, hslots, husers]
  have hfree : (bootIo serialPorts).files.fcbFreelist = List.range maxFiles := by
    simp only [bootIo, initializeFiles]
  have hmem : ∀ n f, f ∈ List.range n ↔ f < n := fun n f => List.mem_range
  refine ⟨?_, fun p _ i _ => rfl, fun x hx _ => ?_⟩
  · simp only [FileTable.Exact, hfree, hrefs, reduceCtorEq, if_false]
    exact RefCount.Exact.initial _ List.nodup_range (hmem maxFiles)
  · obtain rfl : x = ⟨1, .user⟩ := List.mem_singleton.mp hx
    rfl

theorem counted_of_reach {ok : IoKernel → IoEvent → Prop} {serialPorts : Nat}
    (h : Reach IoKernel.step ok (bootIo serialPorts) k) : k.Counted none :=
  h.invariant (I := fun k => k.Counted none) (bootIo_counted serialPorts) fun _ _ _ hI _ hs =>
    hI.step hs

end Step

end TinyOS
