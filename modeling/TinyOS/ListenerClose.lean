import TinyOS.PortTable

/-! The acceptors of a listener after its last file has been closed. A thread woken from
`sys_Accept` asks `port_map` whether its listener is alive, so it is lost when the port
has another listener by then. -/

namespace TinyOS

open Counting Transition Relation

/-- Socket `s` listened, and no open file leads to it any more. -/
structure IoKernel.ClosedListener (k : IoKernel) (s : SockId) : Prop where
  listener : k.isListener s
  unopened : ∀ f, ¬k.Leads f s

/-- An `Accept` at a closed listener goes on while its port is bound to another one. -/
def ResumesRebound (k : IoKernel) (e : IoEvent) : Prop :=
  ∃ t dev garbage s c, e = .proceed t dev garbage ∧ k.waits t = some (.accepting s) ∧
    k.ClosedListener s ∧ k.core s = some c ∧ k.portMap c.port ≠ none

abbrev ClosesCleanly (k : IoKernel) (e : IoEvent) : Prop := NoListenerTaken k e ∧
    ¬ResumesRebound k e

/-- Nobody sleeps at a closed listener. -/
def AcceptorsReleased (k : IoKernel) : Prop := ∀ s, k.ClosedListener s → k.waiters s = []

section Close

variable {k k' : IoKernel} {s : SockId} {t : ThreadId} {p : Pid} {e : IoEvent} {f : FcbId}
  {ret : Option IoRet} {L : FcbId → Prop}

/-- A listener that is closed now was so before. -/
theorem AcceptorsReleased.keep (h : AcceptorsReleased k)
    (hlist : ∀ s, k'.isListener s → k.isListener s)
    (hleads : ∀ f s, k.isListener s → k.Leads f s → k'.Leads f s)
    (hwaiters : ∀ s, k.waiters s = [] → k'.waiters s = []) : AcceptorsReleased k' := by
  intro s hs
  have hl := hlist s hs.listener
  exact hwaiters s (h s ⟨hl, fun f hf => hs.unopened f (hleads f s hl hf)⟩)

theorem AcceptorsReleased.same (h : AcceptorsReleased k) (hcore : k'.core = k.core)
    (hfree : k'.files.fcbFreelist = k.files.fcbFreelist)
    (hstream : ∀ g, k'.files.stream g = k.files.stream g)
    (hwaiters : ∀ s, k.waiters s = [] → k'.waiters s = []) : AcceptorsReleased k' :=
  h.keep (fun _ => (isListener_core hcore).mp)
    (fun f _ _ hl => hl.keep (fun hf => hfree ▸ hf) (hstream f)) hwaiters

theorem AcceptorsReleased.closing {v : Int} (h : AcceptorsReleased k) (hr : SocketRoles k)
    (hv : f < maxFiles) (hf : f ∉ k.files.fcbFreelist) (hlast : (k.files.ft f).refcount - 1 = 0)
    (hd : k.decref p f = some (k', v)) : AcceptorsReleased k' := by
  obtain ⟨hfree, hstream⟩ := decref_last_files hlast hd
  have hkept := decref_kept hr hlast hd
  intro s hs
  obtain ⟨c', hc', htype'⟩ := hs.listener
  obtain ⟨c, hc, htype, -⟩ := hkept.back s c' hc'
  by_cases hl : k.Leads f s
  · have hcase := decref_closing hlast hd
    have hsock : ∀ {s0 : SockId}, k.files.stream f = (.socket s0, some .socketFileOps) →
        s0 = s := by
      intro s0 hst
      simpa using hst.symm.trans hl.stream
    cases hcase with
    | plain hops => exact absurd (congrArg Prod.snd hl.stream) hops
    | listener s0 c0 hst hc0 _ hs0 =>
      obtain rfl := hsock hst
      have hcv := field_setSocket_of (φ := (·.reqAvailable)) hs0 hc0 s0
      rw [if_pos rfl] at hcv
      simp [IoKernel.waiters, hcv, SocketCb.hangUp, kernelBroadcast]
    | unbound s0 c0 hst hc0 htype0 =>
      obtain rfl := hsock hst
      obtain rfl : c0.core = c := Option.some.inj ((core_of_get hc0).symm.trans hc)
      have hunbound : c0.core.type = .unbound := htype0
      rw [← htype, hunbound] at htype'
      simp at htype'
    | peer s0 c0 hst hc0 htype0 => exact absurd htype0 (hr.notPeer s0 c0 hst hc0)
  · have hold : k.waiters s = [] := by
      refine h s ⟨⟨c, hc, htype.trans htype'⟩, fun g hg => ?_⟩
      have hgf : g ≠ f := by
        rintro rfl
        exact hl hg
      exact hs.unopened g
        (hg.keep (fun hm => by rw [hfree] at hm; simpa [hgf] using hm) (hstream g))
    rcases hkept.waiters s with hw | hw
    · rw [hw, hold]
    · exact hw

theorem AcceptorsReleased.fileEffect (h : AcceptorsReleased k) (hr : SocketRoles k)
    {L : FcbId → Prop} (he : FileEffect L k k') : AcceptorsReleased k' := by
  cases he with
  | same k' hv =>
    refine h.same (core_congr hv.sockets) hv.free hv.stream fun s hs => ?_
    rw [← hs]
    exact waiters_congr (congrFun (field_congr hv.sockets) s)
  | opened p i f rest obj ops hf =>
    refine h.keep (fun _ hl => hl) (fun g s _ hl => hl.keep (fun hm => mem_of_rest hf hm) ?_)
      fun _ hs => hs
    have hfiles : ((k.grab p i f rest).setStream f obj ops).files =
        (k.grab p i f rest).files.setStream f obj ops := rfl
    rw [hfiles, stream_setStream, if_neg (grabbed_ne hf hl), stream_grab]
  | undone p i f rest hf =>
    refine h.keep (fun _ hl => hl) (fun g s _ hl => hl.keep (fun hm => ?_)
      (stream_grab (p := p) (i := i) g)) fun _ hs => hs
    have hm' : g ∈ rest ++ [f] := hm
    rw [hf.free]
    simpa [or_comm] using hm'
  | closed p f k' v hL hv hf hlast hd => exact h.closing hr hv hf hlast hd

theorem AcceptOutcome.released {c : SocketCore} (h : AcceptorsReleased k) (hok : ¬TakesListener k e)
    (hwait : k.portMap c.port ≠ none → k.isListener s → ∃ f, k.Leads f s)
    (hout : AcceptOutcome k t p s e c k' ret) : AcceptorsReleased k' := by
  cases hout with
  | waits hk hreq hempty hport hunion hwaiters =>
    intro x hx
    have hl := (isListener_core hk.core).mp hx.listener
    have hstay : ∀ g, k.Leads g x → k'.Leads g x := fun g hg =>
      hg.keep (fun hm => hk.free ▸ hm) (hk.stream g)
    rw [hwaiters]
    split
    · rename_i hxs
      obtain ⟨f, hf⟩ := hwait hport (hxs ▸ hl)
      exact absurd (hstay f (hxs.symm ▸ hf)) (hx.unopened f)
    · exact h x ⟨hl, fun g hg => hx.unopened g (hstay g hg)⟩
  | refused hk hreq hport hunion hwaiters =>
    exact h.same hk.core hk.free hk.stream fun s hs => by rw [hwaiters]; exact hs
  | dropped r rest hk hreq hpops hq hport hroom hunion hwaiters =>
    exact h.same hk.core hk.free hk.stream fun s hs => by rw [hwaiters]; exact hs
  | admitted r rest req i f rest' a hpops hadmits hq hport hreq hf hacc
      hcore hnew hpeer hunion hwaiters hreqs hmap hhist hwaits hfree hkeep hover =>
    refine h.keep (fun x hx => ?_) (fun g x hx hg => ?_) fun x hx => by rw [hwaiters]; exact hx
    · obtain ⟨d, hd, hdt⟩ := hx
      rw [hcore] at hd
      split at hd
      · obtain rfl := Option.some.inj hd
        simp at hdt
      · exact ⟨d, hd, hdt⟩
    · have hga : g ≠ a := by
        rintro rfl
        exact hok ⟨s, r, req, hadmits, hreq, .inr ⟨g, x, hacc, hg, hx⟩⟩
      exact hg.keep (fun hm => mem_of_rest hf (hfree ▸ hm)) (hkeep g (grabbed_ne hf hg) hga)

theorem AcceptorsReleased.socketStep (h : AcceptorsReleased k) (hr : SocketRoles k)
    (hok : ClosesCleanly k e) (he : SocketStep k e k' ret) : AcceptorsReleased k' := by
  cases he with
  | files hchain => exact files_induct hr h (fun k k' hr he hp => hp.fileEffect hr he) hchain
  | socket t p i f rest port hf h0 hmax hv =>
    simp only [IoKernel.view, SocketView.mk.injEq] at hv
    obtain ⟨hcore, -, hwaiters, -, -, -, -, hfree, hstream⟩ := hv
    refine h.keep (fun x hx => ?_) (fun g x _ hl => ?_) fun x hx => by rw [hwaiters]; exact hx
    · obtain ⟨d, hd, hdt⟩ := hx
      rw [hcore, Function.update_apply] at hd
      split at hd
      · obtain rfl := Option.some.inj hd
        simp at hdt
      · exact ⟨d, hd, hdt⟩
    · refine hl.keep (fun hm => mem_of_rest hf (hfree ▸ hm)) ?_
      rw [hstream, Function.update_of_ne (grabbed_ne hf hl)]
  | half t p garbage f rest ht hhalf hf hv =>
    simp only [IoKernel.view, SocketView.mk.injEq] at hv
    obtain ⟨hcore, -, hwaiters, -, -, -, -, hfree, hstream⟩ := hv
    refine h.keep (fun _ => (isListener_core hcore).mp) (fun g x _ hl => hl.keep (fun hm => ?_)
      (congrFun hstream g)) fun x hx => by rw [hwaiters]; exact hx
    rw [hf]
    exact List.mem_cons_of_mem f (hfree ▸ hm)
  | listen t sock f s c hl hc h0 hmax hport htype hv =>
    simp only [IoKernel.view, SocketView.mk.injEq] at hv
    obtain ⟨hcore, -, hwaiters, -, -, -, -, hfree, hstream⟩ := hv
    have hleads : ∀ g x, k.Leads g x → k'.Leads g x := fun g x hg =>
      hg.keep (fun hm => hfree ▸ hm) (congrFun hstream g)
    intro x hx
    rw [hwaiters, Function.update_apply]
    split
    · rfl
    · rename_i hxs
      obtain ⟨d, hd, hdt⟩ := hx.listener
      rw [hcore, Function.update_of_ne hxs] at hd
      exact h x ⟨⟨d, hd, hdt⟩, fun g hg => hx.unopened g (hleads g x hg)⟩
  | accept t p s c hc hstart hout =>
    refine hout.released h hok.1.2 fun hport hl => ?_
    rcases hstart with ⟨-, hopen⟩ | ⟨hwait, -, dev, garbage, rfl⟩
    · exact hopen
    · by_contra hclosed
      exact hok.2 ⟨t, dev, garbage, s, c, rfl, hwait, ⟨hl, not_exists.mp hclosed⟩, hc, hport⟩
  | connect t sock port f s l c lc q hwait hl hc htype hport hlc hlt hq hv =>
    simp only [IoKernel.view, SocketView.mk.injEq] at hv
    obtain ⟨hcore, -, hwaiters, -, -, -, -, hfree, hstream⟩ := hv
    refine h.same hcore hfree (congrFun hstream) fun x hx => ?_
    rw [hwaiters, Function.update_apply]
    split
    · rename_i hxl
      rw [← hxl, hx]
      rfl
    · exact hx
  | retry t s r dev garbage req hwait hwake hreq hadm hv =>
    simp only [IoKernel.view, SocketView.mk.injEq] at hv
    obtain ⟨hcore, -, hwaiters, -, -, -, -, hfree, hstream⟩ := hv
    exact h.same hcore hfree (congrFun hstream) fun x hx => by rw [hwaiters]; exact hx
  | leave t s r expired dev garbage req v hwait hwake hreq hdone hval hv =>
    simp only [IoKernel.view, SocketView.mk.injEq] at hv
    obtain ⟨hcore, -, hwaiters, -, -, -, -, hfree, hstream⟩ := hv
    exact h.same hcore hfree (congrFun hstream) fun x hx => by rw [hwaiters]; exact hx
  | expire t s r hwait hsleep hv =>
    simp only [IoKernel.view, SocketView.mk.injEq] at hv
    obtain ⟨hcore, -, hwaiters, -, -, -, -, hfree, hstream⟩ := hv
    exact h.same hcore hfree (congrFun hstream) fun x hx => by rw [hwaiters]; exact hx

theorem acceptorsReleased_of_reach {serialPorts : Nat}
    (h : Reach IoKernel.step ClosesCleanly (bootIo serialPorts) k) : AcceptorsReleased k := by
  refine (socket_invariant h (fun s hs => ?_) fun _ _ _ _ hs hI hok _ he =>
    hI.socketStep hs.roles hok he).2
  obtain ⟨c, hc, -⟩ := hs.listener
  exact absurd (core_lt hc) (by simp [bootIo])

/-! ### Every later state -/

theorem AcceptOutcome.listener {c : SocketCore} {x : SockId}
    (hout : AcceptOutcome k t p x e c k' ret)
    (hl : k.isListener s) : k'.isListener s := by
  obtain ⟨d, hd, htype⟩ := hl
  cases hout with
  | waits hk => exact ⟨d, by rw [hk.core]; exact hd, htype⟩
  | refused hk => exact ⟨d, by rw [hk.core]; exact hd, htype⟩
  | dropped r rest hk => exact ⟨d, by rw [hk.core]; exact hd, htype⟩
  | admitted r rest req i f rest' a _ _ _ _ _ _ _ hcore =>
    exact ⟨d, by rw [hcore, if_neg (Nat.ne_of_lt (core_lt hd))]; exact hd, htype⟩

/-- No listener becomes another kind of socket. -/
theorem SocketStep.listener (hr : SocketRoles k) (he : SocketStep k e k' ret)
    (hl : k.isListener s) :
    k'.isListener s := by
  have hcore : k'.core = k.core → k'.isListener s := fun hcore => (isListener_core hcore).mpr hl
  cases he with
  | files hchain =>
    obtain ⟨d, hd, htype⟩ := hl
    obtain ⟨d', hd', htype', -⟩ := (kept_of_files hr hchain).core s d hd
    exact ⟨d', hd', htype'.trans htype⟩
  | socket t p i f rest port hf h0 hmax hv =>
    obtain ⟨d, hd, htype⟩ := hl
    have hnew : k'.core = Function.update k.core _ _ := congrArg SocketView.core hv
    exact ⟨d, by rw [hnew, Function.update_of_ne (Nat.ne_of_lt (core_lt hd))]; exact hd, htype⟩
  | half t p garbage f rest ht hhalf hf hv => exact hcore (congrArg SocketView.core hv)
  | listen t sock f x c hl' hc h0 hmax hport htype hv =>
    obtain ⟨d, hd, hdt⟩ := hl
    have hnew : k'.core = Function.update k.core _ _ := congrArg SocketView.core hv
    rw [IoKernel.isListener, hnew, Function.update_apply]
    split
    · exact ⟨_, rfl, rfl⟩
    · exact ⟨d, hd, hdt⟩
  | accept t p x c hc hstart hout => exact hout.listener hl
  | connect t sock port f x l c lc q _ _ _ _ _ _ _ _ hv => exact hcore (congrArg SocketView.core hv)
  | retry t x r dev garbage req _ _ _ _ hv => exact hcore (congrArg SocketView.core hv)
  | leave t x r expired dev garbage req v _ _ _ _ _ hv => exact hcore (congrArg SocketView.core hv)
  | expire t x r _ _ hv => exact hcore (congrArg SocketView.core hv)

theorem IoKernel.ClosedListener.socketStep (hs : k.ClosedListener s) (hr : SocketRoles k)
    (hok : noHalfPipe k e = true) (he : SocketStep k e k' ret) : k'.ClosedListener s where
  listener := he.listener hr hs.listener
  unopened f hf := by
    obtain ⟨c, hc, -⟩ := hs.listener
    rcases he.leads hok hf with hf' | ⟨port, hnew, -⟩
    · exact hs.unopened f hf'
    · exact Nat.ne_of_lt (core_lt hc) hnew

/-- No fid of a closed listener is left to call `Accept` with. -/
theorem pops_closed (hsound : Sound k) (hs : k.ClosedListener s) (hok : ¬ResumesRebound k e)
    (r : ReqId) :
    k.pops e ≠ some (s, r) := by
  intro hp
  have hhead : ∀ {x}, k.head x = some (s, r) → x = s ∧ ∃ c, k.core s = some c ∧
      k.portMap c.port ≠ none := by
    intro x hx
    obtain ⟨c, hc, hif⟩ := Option.bind_eq_some_iff.mp hx
    split at hif
    · simp at hif
    · rename_i hport
      obtain ⟨r', -, hr'⟩ := Option.map_eq_some_iff.mp hif
      obtain ⟨rfl, rfl⟩ : x = s ∧ r' = r := by simpa using hr'
      exact ⟨rfl, c, hc, hport⟩
  unfold IoKernel.pops at hp
  split at hp
  · rename_i t lsock garbage
    split at hp
    · obtain ⟨f, hf, hobj⟩ := Option.bind_eq_some_iff.mp hp
      split at hobj
      · rename_i x hx
        obtain ⟨c, -, hif⟩ := Option.bind_eq_some_iff.mp hobj
        split at hif
        · obtain ⟨rfl, -⟩ := hhead hif
          exact hs.unopened f (leads_of_getFcb hsound.roles hsound.counted hf hx)
        · simp at hif
      · simp at hobj
    · simp at hp
  · rename_i t dev garbage
    split at hp
    · rename_i q x ht
      split at hp
      · simp at hp
      · obtain ⟨rfl, c, hc, hport⟩ := hhead hp
        exact hok ⟨t, dev, garbage, x, c, rfl, waits_some ht rfl rfl, hs, hc, hport⟩
    · simp at hp
  · simp at hp

theorem accept_of_waits (hw : k.waits t = some (.accepting s)) :
    ∃ p, k.threads[t]? = some ⟨p, .accepting s⟩ := by
  obtain ⟨⟨p, pc⟩, ht, hpc⟩ := Option.bind_eq_some_iff.mp hw
  cases pc <;> simp [IoPc.socketWait] at hpc
  exact ⟨p, hpc ▸ ht⟩

/-- The acceptor of a closed listener goes on and returns `NOFILE`. -/
theorem stepRet_closed (hports : PortTable k) (hw : k.waiters s = []) (hs : k.ClosedListener s)
    (hrun : k.faulted = false) (ht : k.waits t = some (.accepting s)) (dev : List UInt8)
    (garbage : Nat → UInt8) (hok : ¬ResumesRebound k (.proceed t dev garbage)) :
    ∃ k', k.stepRet (.proceed t dev garbage) = some (k', some ⟨noFile, [], []⟩) := by
  obtain ⟨p, hp⟩ := accept_of_waits ht
  obtain ⟨d, hd, -⟩ := hs.listener
  obtain ⟨c, hc, rfl⟩ := Option.map_eq_some_iff.mp hd
  obtain ⟨q, hq⟩ := hports.rings s hs.listener
  have hunion : c.union = .queue q := by simpa [IoKernel.union, IoKernel.field, hc] using hq
  have hport : k.portMap c.port = none := by
    by_contra hport
    exact hok ⟨t, dev, garbage, s, c.core, rfl, ht, hs, hd, hport⟩
  have hwake : t ∉ (k.sockets[s]?).elim [] (·.reqAvailable.waitset) := by
    rw [← waiters_eq, hw]
    exact List.not_mem_nil
  have hget : (k.setPc t .user).sockets[s]? = some c := hc
  have hmap : (k.setPc t .user).portMap c.port = none := hport
  have hloop : acceptLoop (k.setPc t .user) t p s garbage =
      ((k.setPc t .user).addRef s (-1)).ret noFile := by
    have hmap' : ((k.setPc t .user).addRef s (-1)).portMap c.port = none := hport
    simp [acceptLoop, hget, hunion, hmap, hmap']
  refine ⟨(k.setPc t .user).addRef s (-1), ?_⟩
  have hgo : k.goOn t p (.accepting s) dev garbage =
      some (((k.setPc t .user).addRef s (-1)).ret noFile) := by
    simp only [IoKernel.goOn, if_neg hwake, hloop]
  simp [IoKernel.stepRet, hrun, hp, hgo, IoKernel.ret, IoKernel.settle]

/-- In runs in which no `Accept` resumes at a closed listener while another one has its port,
and listeners keep their files: once a listener is closed, no thread is ever asleep at it
again, each `Accept` left there returns `NOFILE`, and none takes a request. -/
theorem listener_close_releases {serialPorts : Nat}
    {k0 : IoKernel} (h0 : Reach IoKernel.step ClosesCleanly (bootIo serialPorts) k0)
    (hs : k0.ClosedListener s) (h : Reach IoKernel.step ClosesCleanly k0 k) :
    k.waiters s = [] ∧
    (∀ t dev garbage, k.faulted = false → k.waits t = some (.accepting s) →
      ClosesCleanly k (.proceed t dev garbage) →
      ∃ k', k.stepRet (.proceed t dev garbage) = some (k', some ⟨noFile, [], []⟩)) ∧
    ∀ e r, ClosesCleanly k e → k.pops e ≠ some (s, r) := by
  have hclosed : Sound k ∧ k.ClosedListener s := by
    refine h.invariant (I := fun k => Sound k ∧ k.ClosedListener s)
      ⟨(portTable_of_reach (Reach.mono h0 fun _ _ hok => hok.1)).1, hs⟩ fun u e v hu hok hue => ?_
    obtain ⟨⟨v', ret⟩, hr, rfl⟩ := Option.map_eq_some_iff.mp hue
    obtain ⟨hsound, hstep⟩ := hu.1.stepRet hr
    exact ⟨hsound, hu.2.socketStep hu.1.roles hok.1.1 hstep⟩
  have hreach : Reach IoKernel.step ClosesCleanly (bootIo serialPorts) k := h0.trans h
  have hports := (portTable_of_reach (hreach.mono fun _ _ hok => hok.1)).2.2
  have hw := acceptorsReleased_of_reach hreach s hclosed.2
  refine ⟨hw, fun t dev garbage hrun ht hok => ?_, fun e r hok =>
    pops_closed hclosed.1 hclosed.2 hok.2 r⟩
  exact stepRet_closed hports hw hclosed.2 hrun ht dev garbage hok.2

theorem closedListener_of_core (htable : SocketTable k) {port : Int}
    (hc : k.core s = some ⟨.listener, none, port⟩) : k.ClosedListener s where
  listener := ⟨_, hc, rfl⟩
  unopened f hf := by simpa using htable.fcb f s _ hf hc

theorem listener_close_releases_run : ∃ k : IoKernel, k.ClosedListener 0 ∧
    k.waits 1 = some (.accepting 0) ∧ k.waiters 0 = [] ∧
    ∃ k', k.stepRet (.proceed 1 [] fun _ => 0) = some (k', some ⟨noFile, [], []⟩) := by
  obtain ⟨k, hk, hp⟩ := exists_reach_of_guarded IoKernel.step
    (fun k e => noHalfPipe k e && (k.admits e).isNone && !(e matches .proceed ..)) (bootIo 0)
    [.createThread 0, .socket 0 5, .listen 0 0, .accept 1 0 fun _ => 0, .close 0 0]
    (fun k => k.core 0 = some ⟨.listener, none, 5⟩ ∧ k.waits 1 = some (.accepting 0) ∧
      k.faulted = false ∧ k.portMap 5 = none ∧ (k.admits (.proceed 1 [] fun _ => 0)).isNone)
    (by decide +kernel)
  obtain ⟨hcore, hwait, hrun, hport, hadm⟩ := of_decide_eq_true hp
  have hreach : Reach IoKernel.step ClosesCleanly (bootIo 0) k := by
    refine hk.mono fun u e hok => ?_
    obtain ⟨⟨hhalf, hnone⟩, hgo⟩ : (noHalfPipe u e = true ∧ u.admits e = none) ∧
      _ := by simpa using hok
    refine ⟨⟨hhalf, fun ⟨s, r, req, hadm, _⟩ => by simp [hnone] at hadm⟩, ?_⟩
    rintro ⟨t, dev, garbage, s, c, rfl, -⟩
    simp at hgo
  have hclosed := closedListener_of_core
    (portTable_of_reach (hreach.mono fun _ _ hok => hok.1)).2.1 hcore
  have hok : ClosesCleanly k (.proceed 1 [] fun _ => 0) := by
    refine ⟨⟨rfl, fun ⟨s, r, req, hr, _⟩ => by simp [hr] at hadm⟩, ?_⟩
    rintro ⟨t, dev, garbage, s, c, he, ht, -, hc, hbound⟩
    obtain rfl : 1 = t := Option.some.inj (congrArg IoEvent.thread he)
    obtain rfl : 0 = s := by simpa using hwait.symm.trans ht
    obtain rfl := Option.some.inj (hcore.symm.trans hc)
    exact hbound hport
  obtain ⟨hw, hret, -⟩ := listener_close_releases hreach hclosed .refl
  exact ⟨k, hclosed, hwait, hw, hret 1 [] _ hrun hwait hok⟩

/-- `Close` wakes the acceptor, but another listener has the port before it runs: it goes back
to sleep at the closed one. -/
theorem acceptor_stranded : ∃ k, Reach IoKernel.step Always (bootIo 0) k ∧ k.ClosedListener 0 ∧
    k.portMap 5 = some 1 ∧ k.waits 1 = some (.accepting 0) ∧ k.waiters 0 = [1] := by
  obtain ⟨k, hk, hp⟩ := exists_reach_of_guarded IoKernel.step
    (fun k e => noHalfPipe k e && (k.admits e).isNone) (bootIo 0)
    [.createThread 0, .socket 0 5, .listen 0 0, .accept 1 0 fun _ => 0, .close 0 0, .socket 0 5,
      .listen 0 0, .proceed 1 [] fun _ => 0]
    (fun k => k.core 0 = some ⟨.listener, none, 5⟩ ∧ k.portMap 5 = some 1 ∧
      k.waits 1 = some (.accepting 0) ∧ k.waiters 0 = [1]) (by decide +kernel)
  obtain ⟨hcore, hport, hwait, hw⟩ := of_decide_eq_true hp
  have hreach : Reach IoKernel.step NoListenerTaken (bootIo 0) k := by
    refine hk.mono fun u e hok => ?_
    obtain ⟨hhalf, hnone⟩ : noHalfPipe u e = true ∧ u.admits e = none := by simpa using hok
    exact ⟨hhalf, fun ⟨s, r, req, hadm, _⟩ => by simp [hnone] at hadm⟩
  exact ⟨k, hreach.always, closedListener_of_core (portTable_of_reach hreach).2.1 hcore,
    hport, hwait, hw⟩

end Close

end TinyOS
