import TinyOS.SocketSteps

/-! Which open files lead to which sockets, and which sockets are bound to which ports. -/

namespace TinyOS

open Counting Transition Relation

section Roles

variable {k k' : IoKernel} {p : Pid} {f : FcbId} {s : SockId} {t : ThreadId} {e : IoEvent}
  {ret : Option IoRet} {L : FcbId → Prop}

theorem SocketRoles.notPeer (h : SocketRoles k) (s : SockId) (c : SocketCb)
    (hst : k.files.stream f = (.socket s, some .socketFileOps)) (hc : k.sockets[s]? = some c) :
    c.type ≠ .peer := by
  obtain ⟨d, hd, hdt⟩ := h.role f s (congrArg Prod.fst hst)
  obtain rfl : c.core = d := Option.some.inj ((core_of_get hc).symm.trans hd)
  exact hdt

/-- Sockets keep their roles and ports, and FCBs their sockets or none. -/
theorem SocketRoles.keep (h : SocketRoles k)
    (hcore : ∀ s c, k.core s = some c → ∃ c', k'.core s = some c' ∧ c'.type = c.type ∧
      c'.port = c.port)
    (hmap : ∀ port s, k'.portMap port = some s → k.portMap port = some s)
    (hstream : ∀ g s, (k'.files.stream g).1 = .socket s → k'.files.stream g = k.files.stream g) :
    SocketRoles k' := by
  refine ⟨fun g s hs => ?_, fun g s hs => ?_, fun port s hp => ?_⟩
  · have he := hstream g s hs
    rw [he] at hs ⊢
    exact h.ops g s hs
  · have he := hstream g s hs
    rw [he] at hs
    obtain ⟨c, hc, htype⟩ := h.role g s hs
    obtain ⟨c', hc', ht', -⟩ := hcore s c hc
    exact ⟨c', hc', ht' ▸ htype⟩
  · obtain ⟨c, hc, htype, hport, hrange⟩ := h.bound port s (hmap port s hp)
    obtain ⟨c', hc', ht', hp'⟩ := hcore s c hc
    exact ⟨c', hc', ht'.trans htype, hp'.trans hport, hrange⟩

theorem core_keep (hcore : k'.core = k.core) (s : SockId) (c : SocketCore)
    (hc : k.core s = some c) :
    ∃ c', k'.core s = some c' ∧ c'.type = c.type ∧ c'.port = c.port :=
  ⟨c, by rw [hcore]; exact hc, rfl, rfl⟩

theorem SocketRoles.quiet (h : SocketRoles k) (hcore : k'.core = k.core)
    (hmap : k'.portMap = k.portMap) (hstream : ∀ g, k'.files.stream g = k.files.stream g) :
    SocketRoles k' :=
  h.keep (core_keep hcore) (fun port s hq => by rw [← hmap]; exact hq) fun g _ _ => hstream g

/-- What closing a file does to sockets, at any time. -/
structure Closed (k k' : IoKernel) : Prop where
  union : k'.union = k.union
  core : ∀ s c, k.core s = some c → ∃ c', k'.core s = some c' ∧ c'.type = c.type ∧ c'.port = c.port
  portMap : ∀ port s, k'.portMap port = some s → k.portMap port = some s

theorem Closing.closed (h : SocketRoles k) (hcl : Closing k f k') : Closed k k' := by
  cases hcl with
  | plain hops hs hp =>
    exact ⟨field_congr hs, core_keep (core_congr hs), fun port s hq => by rw [← hp]; exact hq⟩
  | listener s0 c hst hc htype hs hp =>
    refine ⟨(field_congr (k := k.setSocket s0 SocketCb.hangUp) hs).trans
      (field_setSocket_same fun _ => rfl),
      fun x d hd => ?_, fun port x hq => ?_⟩
    · rw [core_setSocket_of hs hc]
      split
      · rename_i hx
        obtain rfl : c.core = d := Option.some.inj ((core_of_get hc).symm.trans (hx ▸ hd))
        exact ⟨_, rfl, rfl, rfl⟩
      · exact ⟨d, hd, rfl, rfl⟩
    · rw [hp, Function.update_apply] at hq
      split at hq
      · simp at hq
      · exact hq
  | unbound s0 c hst hc htype hs hp =>
    refine ⟨(field_congr (k := k.setSocket s0 fun c => { c with fcb := none }) hs).trans
      (field_setSocket_same fun _ => rfl), fun x d hd => ?_, fun port x hq =>
        by rw [← hp]; exact hq⟩
    rw [core_setSocket_of hs hc]
    split
    · rename_i hx
      obtain rfl : c.core = d := Option.some.inj ((core_of_get hc).symm.trans (hx ▸ hd))
      exact ⟨_, rfl, rfl, rfl⟩
    · exact ⟨d, hd, rfl, rfl⟩
  | peer s0 c hst hc htype => exact absurd htype (h.notPeer s0 c hst hc)

theorem stream_opened {i : Nat} {rest : List FcbId} {obj : StreamObj} {ops : FileOps}
    (hobj : ∀ s, obj ≠ .socket s) {g : FcbId}
    (hg : (((k.grab p i f rest).setStream f obj ops).files.stream g).1 = .socket s) :
    ((k.grab p i f rest).setStream f obj ops).files.stream g = k.files.stream g ∧ g ≠ f := by
  have hfiles : ((k.grab p i f rest).setStream f obj ops).files =
      (k.grab p i f rest).files.setStream f obj ops := rfl
  rw [hfiles, stream_setStream] at hg ⊢
  split
  · rename_i hgf
    rw [if_pos hgf] at hg
    exact absurd hg (hobj s)
  · rename_i hgf
    exact ⟨stream_grab g, hgf⟩

theorem SocketRoles.fileEffect (h : SocketRoles k) {L : FcbId → Prop}
    (he : FileEffect L k k') : SocketRoles k' := by
  cases he with
  | same k' hv => exact h.quiet (core_congr hv.sockets) hv.portMap hv.stream
  | opened p i f rest obj ops hf _ hobj =>
    exact h.keep (core_keep rfl) (fun _ _ hq => hq) fun g s hg => (stream_opened hobj hg).1
  | undone p i f rest hf => exact h.quiet rfl rfl (stream_grab (p := p) (i := i))
  | closed p f k' v hL hv hf hlast hd =>
    have hcl := (decref_closing hlast hd).closed h
    exact h.keep hcl.core hcl.portMap fun g s _ => (decref_last_files hlast hd).2 g

/-- What opening and closing files leave of sockets and their requests. -/
structure SocketsKept (k k' : IoKernel) : Prop where
  union : k'.union = k.union
  requests : k'.requests = k.requests
  history : k'.history = k.history
  waits : k'.waits = k.waits
  core : ∀ s c, k.core s = some c → ∃ c', k'.core s = some c' ∧ c'.type = c.type ∧ c'.port = c.port
  back : ∀ s c', k'.core s = some c' → ∃ c, k.core s = some c ∧ c.type = c'.type ∧ c.port = c'.port
  portMap : ∀ port s, k'.portMap port = some s → k.portMap port = some s
  waiters : ∀ s, k'.waiters s = k.waiters s ∨ k'.waiters s = []

theorem SocketsKept.trans {k'' : IoKernel} (h : SocketsKept k k') (h' : SocketsKept k' k'') :
    SocketsKept k k'' where
  union := h'.union.trans h.union
  requests := h'.requests.trans h.requests
  history := h'.history.trans h.history
  waits := h'.waits.trans h.waits
  core s c hc := by
    obtain ⟨c1, hc1, ht1, hp1⟩ := h.core s c hc
    obtain ⟨c2, hc2, ht2, hp2⟩ := h'.core s c1 hc1
    exact ⟨c2, hc2, ht2.trans ht1, hp2.trans hp1⟩
  back s c hc := by
    obtain ⟨c1, hc1, ht1, hp1⟩ := h'.back s c hc
    obtain ⟨c2, hc2, ht2, hp2⟩ := h.back s c1 hc1
    exact ⟨c2, hc2, ht2.trans ht1, hp2.trans hp1⟩
  portMap port s hp := h.portMap port s (h'.portMap port s hp)
  waiters s := by
    rcases h'.waiters s with hs | hs
    · rw [hs]
      exact h.waiters s
    · exact .inr hs

theorem kept_of_sockets (hs : k'.sockets = k.sockets) (hreq : k'.requests = k.requests)
    (hhist : k'.history = k.history) (hwaits : k'.waits = k.waits) (hmap : k'.portMap = k.portMap) :
    SocketsKept k k' where
  union := field_congr hs
  requests := hreq
  history := hhist
  waits := hwaits
  core := core_keep (core_congr hs)
  back := core_keep (core_congr hs.symm)
  portMap _ _ hp := hmap ▸ hp
  waiters s := .inl (waiters_congr (congrFun (field_congr hs) s))

theorem SocketsKept.refl (k : IoKernel) : SocketsKept k k := kept_of_sockets rfl rfl rfl rfl rfl

theorem decref_kept {v : Int} (h : SocketRoles k) (hlast : (k.files.ft f).refcount - 1 = 0)
    (hd : k.decref p f = some (k', v)) : SocketsKept k k' := by
  have hsame := decref_same hd
  have hwaits : k'.waits = k.waits := waits_congr hsame.threads
  have hset : ∀ {s0 : SockId} {c : SocketCb} {g : SocketCb → SocketCb}, k.sockets[s0]? = some c →
      k'.sockets = (k.setSocket s0 g).sockets → (∀ c, (g c).type = c.type ∧ (g c).port = c.port) →
      ∀ x c', k'.core x = some c' → ∃ d, k.core x = some d ∧ d.type = c'.type ∧
        d.port = c'.port := by
    intro s0 c g hc hs hg x c' hx
    rw [core_setSocket_of hs hc] at hx
    split at hx
    · rename_i hxs
      obtain rfl := Option.some.inj hx
      exact ⟨c.core, hxs ▸ core_of_get hc, (hg c).1.symm, (hg c).2.symm⟩
    · exact ⟨c', hx, rfl, rfl⟩
  have hcl := decref_closing hlast hd
  have hclosed := hcl.closed h
  cases hcl with
  | plain hops hs hp => exact kept_of_sockets hs hsame.requests hsame.history hwaits hp
  | listener s0 c hst hc htype hs hp =>
    refine ⟨hclosed.union, hsame.requests, hsame.history, hwaits, hclosed.core,
      hset hc hs fun _ => ⟨rfl, rfl⟩, hclosed.portMap, fun x => ?_⟩
    have hcv := field_setSocket_of (φ := (·.reqAvailable)) hs hc x
    by_cases hx : x = s0
    · rw [if_pos hx] at hcv
      exact .inr (by simp [IoKernel.waiters, hcv, SocketCb.hangUp, kernelBroadcast])
    · rw [if_neg hx] at hcv
      exact .inl (waiters_congr hcv)
  | unbound s0 c hst hc htype hs hp =>
    refine ⟨hclosed.union, hsame.requests, hsame.history, hwaits, hclosed.core,
      hset hc hs fun _ => ⟨rfl, rfl⟩, hclosed.portMap, fun x => .inl (waiters_congr ?_)⟩
    have hset : (k.setSocket s0 fun c => { c with fcb := none }).field (·.reqAvailable) =
        k.field (·.reqAvailable) := field_setSocket_same fun _ => rfl
    exact congrFun ((field_congr hs).trans hset) x
  | peer s0 c hst hc htype => exact absurd htype (h.notPeer s0 c hst hc)

theorem FileEffect.kept (h : SocketRoles k) {L : FcbId → Prop} (he : FileEffect L k k') :
    SocketsKept k k' := by
  cases he with
  | same k' hv =>
    exact kept_of_sockets hv.sockets hv.requests hv.history (funext hv.waits) hv.portMap
  | opened p i f rest obj ops hf => exact kept_of_sockets rfl rfl rfl rfl rfl
  | undone p i f rest hf => exact kept_of_sockets rfl rfl rfl rfl rfl
  | closed p f k' v hL hv hf hlast hd => exact decref_kept h hlast hd

theorem kept_of_files (h : SocketRoles k) (hc : ReflTransGen (FileEffect L) k k') :
    SocketsKept k k' := by
  have hall : SocketRoles k' ∧ SocketsKept k k' := by
    induction hc with
    | refl => exact ⟨h, .refl k⟩
    | tail _ hlast ih => exact ⟨ih.1.fileEffect hlast, ih.2.trans (hlast.kept ih.1)⟩
  exact hall.2

theorem AcceptOutcome.roles {c : SocketCore} (h : SocketRoles k)
    (hout : AcceptOutcome k t p s e c k' ret) :
    SocketRoles k' := by
  cases hout with
  | waits hk => exact h.quiet hk.core hk.portMap hk.stream
  | refused hk => exact h.quiet hk.core hk.portMap hk.stream
  | dropped r rest hk => exact h.quiet hk.core hk.portMap hk.stream
  | admitted r rest req i f rest' a hpops hadmits hq hport hreq hf hacc
      hcore hnew hpeer hunion hwaiters hreqs hmap hhist hwaits hfree hkeep hover =>
    refine h.keep (fun x d hd => ?_) (fun port x hq => by rw [← hmap]; exact hq) fun g x hg => ?_
    · rw [hcore, if_neg (Nat.ne_of_lt (core_lt hd))]
      exact ⟨d, hd, rfl, rfl⟩
    · by_cases hgo : g = f ∨ g = a
      · exact absurd hg (hover g hgo x)
      · obtain ⟨hgf, hga⟩ := not_or.mp hgo
        exact hkeep g hgf hga

theorem SocketRoles.socketStep (h : SocketRoles k) (he : SocketStep k e k' ret)
    (hfiles : ∀ k', ReflTransGen (FileEffect (k.Frees e)) k k' → SocketRoles k') :
    SocketRoles k' := by
  cases he with
  | files hchain => exact hfiles k' hchain
  | socket t p i f rest port hf h0 hmax hv =>
    simp only [IoKernel.view, SocketView.mk.injEq] at hv
    obtain ⟨hcore, -, -, -, hmap, -, -, -, hstream⟩ := hv
    refine ⟨fun g s hs => ?_, fun g s hs => ?_, fun q s hq => ?_⟩
    · rw [hstream, Function.update_apply] at hs ⊢
      split at hs
      · rename_i hg
        rw [if_pos hg]
      · rename_i hg
        rw [if_neg hg]
        exact h.ops g s hs
    · rw [hstream, Function.update_apply] at hs
      rw [hcore, Function.update_apply]
      split at hs
      · obtain rfl : k.sockets.length = s := by simpa using hs
        exact ⟨_, if_pos rfl, by simp⟩
      · obtain ⟨c, hc, htype⟩ := h.role g s hs
        exact ⟨c, by rw [if_neg (Nat.ne_of_lt (core_lt hc))]; exact hc, htype⟩
    · rw [hmap] at hq
      obtain ⟨c, hc, hrest⟩ := h.bound q s hq
      exact ⟨c, by rw [hcore, Function.update_of_ne (Nat.ne_of_lt (core_lt hc))]; exact hc, hrest⟩
  | half t p garbage f rest ht hhalf hf hv =>
    exact h.quiet (congrArg SocketView.core hv) (congrArg SocketView.portMap hv)
      (congrFun (congrArg SocketView.stream hv))
  | listen t sock f s c hl hc h0 hmax hport htype hv =>
    simp only [IoKernel.view, SocketView.mk.injEq] at hv
    obtain ⟨hcore, -, -, -, hmap, -, -, -, hstream⟩ := hv
    refine ⟨fun g x hs => ?_, fun g x hs => ?_, fun q x hq => ?_⟩
    · rw [hstream] at hs ⊢
      exact h.ops g x hs
    · rw [hstream] at hs
      rw [hcore, Function.update_apply]
      obtain ⟨d, hd, hdt⟩ := h.role g x hs
      split
      · exact ⟨_, rfl, by simp⟩
      · exact ⟨d, hd, hdt⟩
    · rw [hmap, Function.update_apply] at hq
      rw [hcore, Function.update_apply]
      split at hq
      · rename_i hqp
        obtain rfl : s = x := Option.some.inj hq
        exact ⟨_, if_pos rfl, rfl, hqp.symm, hqp ▸ h0, hqp ▸ hmax⟩
      · rename_i hqp
        obtain ⟨d, hd, hdt, hdp, hrest⟩ := h.bound q x hq
        have hxs : x ≠ s := by
          rintro rfl
          obtain rfl : c = d := Option.some.inj (hc.symm.trans hd)
          exact hqp hdp.symm
        exact ⟨d, by rw [if_neg hxs]; exact hd, hdt, hdp, hrest⟩
  | accept t p s c hc hstart hout => exact hout.roles h
  | connect t sock port f s l c lc q hwait hl hc htype hport hlc hlt hq hv =>
    exact h.quiet (congrArg SocketView.core hv) (congrArg SocketView.portMap hv)
      (congrFun (congrArg SocketView.stream hv))
  | retry t s r dev garbage req hwait hwake hreq hadm hv =>
    exact h.quiet (congrArg SocketView.core hv) (congrArg SocketView.portMap hv)
      (congrFun (congrArg SocketView.stream hv))
  | leave t s r expired dev garbage req v hwait hwake hreq hdone hval hv =>
    exact h.quiet (congrArg SocketView.core hv) (congrArg SocketView.portMap hv)
      (congrFun (congrArg SocketView.stream hv))
  | expire t s r hwait hsleep hv =>
    exact h.quiet (congrArg SocketView.core hv) (congrArg SocketView.portMap hv)
      (congrFun (congrArg SocketView.stream hv))

end Roles

end TinyOS
