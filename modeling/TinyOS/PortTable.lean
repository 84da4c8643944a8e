import TinyOS.RequestQueues

/-! The port table against the open listeners, and the runs in which the two agree. -/

namespace TinyOS

open Counting Transition Relation

def IoKernel.isListener (k : IoKernel) (s : SockId) : Prop := ∃ c,
    k.core s = some c ∧ c.type = .listener

/-- The step connects a request of a listener, or one whose FCB is that of a listener now. -/
def TakesListener (k : IoKernel) (e : IoEvent) : Prop :=
  ∃ s r req, k.admits e = some (s, r) ∧ k.requests[r]? = some req ∧
    (k.isListener req.peer ∨
      ∃ a l, (k.core req.peer).bind (·.fcb) = some a ∧ k.Leads a l ∧ k.isListener l)

abbrev NoListenerTaken (k : IoKernel) (e : IoEvent) : Prop :=
  noHalfPipe k e = true ∧ ¬TakesListener k e

/-- Each open socket knows its file, and each open listener is the one bound to its port. -/
structure SocketTable (k : IoKernel) : Prop where
  fcb : ∀ f s c, k.Leads f s → k.core s = some c → c.fcb = some f
  registered : ∀ f s c, k.Leads f s → k.core s = some c → c.type = .listener →
    k.portMap c.port = some s

/-- Bound ports have open listeners, and listeners have queues. -/
structure PortTable (k : IoKernel) : Prop where
  opened : ∀ port s, k.portMap port = some s → ∃ f, k.Leads f s
  rings : ∀ s, k.isListener s → ∃ q, k.union s = some (.queue q)

section Ports

variable {k k' : IoKernel} {s : SockId} {t : ThreadId} {p : Pid} {e : IoEvent} {f : FcbId}
  {ret : Option IoRet} {L : FcbId → Prop}

theorem isListener_core (h : k'.core = k.core) : k'.isListener s ↔ k.isListener s := by
  simp only [IoKernel.isListener, h]

/-- Listeners keep their queues, and ports their open sockets. -/
theorem PortTable.keep (h : PortTable k) (hmap : k'.portMap = k.portMap)
    (hlist : ∀ s, k'.isListener s → k.isListener s)
    (hleads : ∀ f s, k.isListener s → k.Leads f s → k'.Leads f s)
    (hunion : ∀ s, k.isListener s → ∀ q, k.union s = some (.queue q) → ∃ q',
      k'.union s = some (.queue q'))
    (hr : SocketRoles k) : PortTable k' where
  opened port s hp := by
    rw [hmap] at hp
    obtain ⟨c, hc, htype, -⟩ := hr.bound port s hp
    obtain ⟨f, hf⟩ := h.opened port s hp
    exact ⟨f, hleads f s ⟨c, hc, htype⟩ hf⟩
  rings s hs := by
    obtain ⟨q, hq⟩ := h.rings s (hlist s hs)
    exact hunion s (hlist s hs) q hq

/-- The same, when no socket and no file changes. -/
theorem PortTable.same (h : PortTable k) (hr : SocketRoles k) (hmap : k'.portMap = k.portMap)
    (hcore : k'.core = k.core) (hfree : k'.files.fcbFreelist = k.files.fcbFreelist)
    (hstream : ∀ g, k'.files.stream g = k.files.stream g)
    (hunion : ∀ s q, k.union s = some (.queue q) → ∃ q', k'.union s = some (.queue q')) :
    PortTable k' := h.keep hmap (fun _ => (isListener_core hcore).mp)
    (fun f _ _ hl => hl.keep (fun hf => hfree ▸ hf) (hstream f)) (fun x _ => hunion x) hr

theorem PortTable.quiet (h : PortTable k) (hr : SocketRoles k) (hmap : k'.portMap = k.portMap)
    (hcore : k'.core = k.core) (hunion : k'.union = k.union)
    (hfree : k'.files.fcbFreelist = k.files.fcbFreelist)
    (hstream : ∀ g, k'.files.stream g = k.files.stream g) : PortTable k' :=
  h.same hr hmap hcore hfree hstream fun x q hq => ⟨q, by rw [hunion]; exact hq⟩

theorem isListener_of_bound (hr : SocketRoles k) {port : Int} (hp : k.portMap port = some s) :
    k.isListener s := by
  obtain ⟨c, hc, htype, -⟩ := hr.bound port s hp
  exact ⟨c, hc, htype⟩

/-- The closed file is not the one of a port that stays bound. -/
theorem PortTable.closing {v : Int} (h : PortTable k) (hr : SocketRoles k) (hv : f < maxFiles)
    (hf : f ∉ k.files.fcbFreelist) (hlast : (k.files.ft f).refcount - 1 = 0)
    (hd : k.decref p f = some (k', v)) : PortTable k' := by
  obtain ⟨hfree, hstream⟩ := decref_last_files hlast hd
  have hclosing := decref_closing hlast hd
  have hcl := hclosing.closed hr
  refine ⟨fun port s hp => ?_, fun s hl => ?_⟩
  · have hp' := hcl.portMap port s hp
    obtain ⟨g, hg⟩ := h.opened port s hp'
    have hgf : g ≠ f := by
      rintro rfl
      obtain ⟨d, hd', hdt, hdp, -⟩ := hr.bound port s hp'
      have hsame : ∀ {s0 : SockId} {c : SocketCb},
          k.files.stream g = (.socket s0, some .socketFileOps) → k.sockets[s0]? = some c →
          s0 = s ∧ c.core = d := by
        intro s0 c hst hc
        obtain rfl : s0 = s := by simpa using hst.symm.trans hg.stream
        exact ⟨rfl, Option.some.inj ((core_of_get hc).symm.trans hd')⟩
      cases hclosing with
      | plain hops => exact hops (congrArg Prod.snd hg.stream)
      | listener s0 c hst hc htype hs hmap =>
        obtain ⟨rfl, rfl⟩ := hsame hst hc
        have hport : c.port = port := hdp
        rw [hmap, hport, Function.update_self] at hp
        simp at hp
      | unbound s0 c hst hc htype =>
        obtain ⟨rfl, rfl⟩ := hsame hst hc
        exact absurd (htype.symm.trans hdt) (by simp)
      | peer s0 c hst hc htype => exact hr.notPeer s0 c hst hc htype
    exact ⟨g, hg.keep (fun hm => by rw [hfree] at hm; simpa [hgf] using hm) (hstream g)⟩
  · rw [hcl.union]
    obtain ⟨c', hc', htype'⟩ := hl
    obtain ⟨x, hx, -⟩ := Option.map_eq_some_iff.mp hc'
    have hlen : k'.sockets.length = k.sockets.length := by
      cases hclosing with
      | plain _ hs => rw [hs]
      | listener s0 c _ _ _ hs => rw [hs]; exact List.length_modify ..
      | unbound s0 c _ _ _ hs => rw [hs]; exact List.length_modify ..
      | peer s0 c hst hc htype => exact absurd htype (hr.notPeer s0 c hst hc)
    have hlt : s < k.sockets.length := hlen ▸ (List.getElem?_eq_some_iff.mp hx).1
    obtain ⟨d, hd', htype, -⟩ := hcl.core s _ (core_of_get (List.getElem?_eq_getElem hlt))
    obtain rfl : c' = d := Option.some.inj (hc'.symm.trans hd')
    exact h.rings s ⟨_, core_of_get (List.getElem?_eq_getElem hlt), htype.symm.trans htype'⟩

theorem PortTable.fileEffect (h : PortTable k) (hr : SocketRoles k) {L : FcbId → Prop}
    (he : FileEffect L k k') :
    PortTable k' := by
  cases he with
  | same k' hv =>
    refine h.same hr hv.portMap (core_congr hv.sockets) hv.free hv.stream fun s q hq => ⟨q, ?_⟩
    rw [← hq]
    exact congrFun (field_congr hv.sockets) s
  | opened p i f rest obj ops hf =>
    refine h.keep rfl (fun _ hl => hl) (fun g s _ hl => hl.keep (fun hm => mem_of_rest hf hm) ?_)
      (fun s _ q hq => ⟨q, hq⟩) hr
    have hfiles : ((k.grab p i f rest).setStream f obj ops).files =
        (k.grab p i f rest).files.setStream f obj ops := rfl
    rw [hfiles, stream_setStream, if_neg (grabbed_ne hf hl), stream_grab]
  | undone p i f rest hf =>
    refine h.keep rfl (fun _ hl => hl) (fun g s _ hl => hl.keep (fun hm => ?_)
      (stream_grab (p := p) (i := i) g)) (fun s _ q hq => ⟨q, hq⟩) hr
    have hm' : g ∈ rest ++ [f] := hm
    rw [hf.free]
    simpa [or_comm] using hm'
  | closed p f k' v hL hv hf hlast hd => exact h.closing hr hv hf hlast hd

theorem AcceptOutcome.ports {c : SocketCore} (h : PortTable k) (hr : SocketRoles k)
    (hok : ¬TakesListener k e) (hout : AcceptOutcome k t p s e c k' ret) : PortTable k' := by
  cases hout with
  | waits hk hreq hempty hport hunion =>
    exact h.quiet hr hk.portMap hk.core hunion hk.free hk.stream
  | refused hk hreq hport hunion =>
    exact h.quiet hr hk.portMap hk.core hunion hk.free hk.stream
  | dropped r rest hk hreq hpops hq hport hroom hunion =>
    refine h.same hr hk.portMap hk.core hk.free hk.stream fun x q hx => ?_
    rw [hunion]
    split
    · exact ⟨rest, rfl⟩
    · exact ⟨q, hx⟩
  | admitted r rest req i f rest' a hpops hadmits hq hport hreq hf hacc
      hcore hnew hpeer hunion hwaiters hreqs hmap hhist hwaits hfree hkeep hover =>
    refine ⟨fun port x hx => ?_, fun x hx => ?_⟩
    · rw [hmap] at hx
      obtain ⟨g, hg⟩ := h.opened port x hx
      have hga : g ≠ a := by
        rintro rfl
        exact hok ⟨s, r, req, hadmits, hreq, .inr ⟨g, x, hacc, hg, isListener_of_bound hr hx⟩⟩
      exact ⟨g, hg.keep (fun hm => mem_of_rest hf (hfree ▸ hm)) (hkeep g (grabbed_ne hf hg) hga)⟩
    · obtain ⟨d, hd, hdt⟩ := hx
      rw [hcore] at hd
      split at hd
      · obtain rfl := Option.some.inj hd
        simp at hdt
      · rename_i hxn
        have hxp : x ≠ req.peer := by
          rintro rfl
          exact hok ⟨s, r, req, hadmits, hreq, .inl ⟨d, hd, hdt⟩⟩
        rw [hunion x hxn hxp]
        split
        · exact ⟨rest, rfl⟩
        · exact h.rings x ⟨d, hd, hdt⟩

theorem PortTable.socketStep (h : PortTable k) (hr : SocketRoles k) (hok : ¬TakesListener k e)
    (he : SocketStep k e k' ret) : PortTable k' := by
  cases he with
  | files hchain => exact files_induct hr h (fun k k' hr he hp => hp.fileEffect hr he) hchain
  | socket t p i f rest port hf h0 hmax hv =>
    simp only [IoKernel.view, SocketView.mk.injEq] at hv
    obtain ⟨hcore, hunion, -, -, hmap, -, -, hfree, hstream⟩ := hv
    refine h.keep hmap (fun x hx => ?_) (fun g x _ hl => ?_) (fun x hx q hq => ?_) hr
    · obtain ⟨d, hd, hdt⟩ := hx
      rw [hcore, Function.update_apply] at hd
      split at hd
      · obtain rfl := Option.some.inj hd
        simp at hdt
      · exact ⟨d, hd, hdt⟩
    · refine hl.keep (fun hm => mem_of_rest hf (hfree ▸ hm)) ?_
      rw [hstream, Function.update_of_ne (grabbed_ne hf hl)]
    · obtain ⟨d, hd, -⟩ := hx
      rw [hunion, Function.update_of_ne (Nat.ne_of_lt (core_lt hd))]
      exact ⟨q, hq⟩
  | half t p garbage f rest ht hhalf hf hv =>
    simp only [IoKernel.view, SocketView.mk.injEq] at hv
    obtain ⟨hcore, hunion, -, -, hmap, -, -, hfree, hstream⟩ := hv
    refine h.keep hmap (fun x => (isListener_core hcore).mp) (fun g x _ hl => hl.keep (fun hm => ?_)
      (congrFun hstream g)) (fun x _ q hq => ⟨q, by rw [hunion]; exact hq⟩) hr
    rw [hf]
    exact List.mem_cons_of_mem f (hfree ▸ hm)
  | listen t sock f s c hl hc h0 hmax hport htype hv =>
    simp only [IoKernel.view, SocketView.mk.injEq] at hv
    obtain ⟨hcore, hunion, -, -, hmap, -, -, hfree, hstream⟩ := hv
    have hleads : ∀ g x, k.Leads g x → k'.Leads g x := fun g x hg =>
      hg.keep (fun hm => hfree ▸ hm) (congrFun hstream g)
    refine ⟨fun port x hx => ?_, fun x hx => ?_⟩
    · rw [hmap, Function.update_apply] at hx
      split at hx
      · obtain rfl := Option.some.inj hx
        exact ⟨f, hleads f s hl⟩
      · obtain ⟨g, hg⟩ := h.opened port x hx
        exact ⟨g, hleads g x hg⟩
    · rw [hunion, Function.update_apply]
      split
      · exact ⟨[], rfl⟩
      · rename_i hxs
        obtain ⟨d, hd, hdt⟩ := hx
        rw [hcore, Function.update_of_ne hxs] at hd
        exact h.rings x ⟨d, hd, hdt⟩
  | accept t p s c hc hstart hout => exact hout.ports h hr hok
  | connect t sock port f s l c lc q hwait hl hc htype hport hlc hlt hq hv =>
    simp only [IoKernel.view, SocketView.mk.injEq] at hv
    obtain ⟨hcore, hunion, -, -, hmap, -, -, hfree, hstream⟩ := hv
    refine h.same hr hmap hcore hfree (congrFun hstream) fun x q' hx => ?_
    rw [hunion, Function.update_apply]
    split
    · exact ⟨_, rfl⟩
    · exact ⟨q', hx⟩
  | retry t s r dev garbage req hwait hwake hreq hadm hv =>
    exact h.quiet hr (congrArg SocketView.portMap hv) (congrArg SocketView.core hv)
      (congrArg SocketView.union hv) (congrArg SocketView.free hv)
      (congrFun (congrArg SocketView.stream hv))
  | leave t s r expired dev garbage req v hwait hwake hreq hdone hval hv =>
    exact h.quiet hr (congrArg SocketView.portMap hv) (congrArg SocketView.core hv)
      (congrArg SocketView.union hv) (congrArg SocketView.free hv)
      (congrFun (congrArg SocketView.stream hv))
  | expire t s r hwait hsleep hv =>
    exact h.quiet hr (congrArg SocketView.portMap hv) (congrArg SocketView.core hv)
      (congrArg SocketView.union hv) (congrArg SocketView.free hv)
      (congrFun (congrArg SocketView.stream hv))

/-! ### Open sockets -/

theorem IoKernel.Leads.sameFiles (hl : k'.Leads f s)
    (hfree : k'.files.fcbFreelist = k.files.fcbFreelist)
    (hstream : k'.files.stream f = k.files.stream f) : k.Leads f s :=
  hl.keep (fun hm => hfree.symm ▸ hm) hstream.symm

/-- Files become sockets by `Socket` only. -/
theorem FileEffect.leads {L : FcbId → Prop} (he : FileEffect L k k')
    (hl : k'.Leads f s) : k.Leads f s := by
  cases he with
  | same k' hv => exact hl.sameFiles hv.free (hv.stream f)
  | opened p i g rest obj ops hf _ hobj =>
    obtain ⟨hst, hfg⟩ := stream_opened hobj (congrArg Prod.fst hl.stream)
    exact ⟨hl.valid, not_mem_of_rest hf hl.used hfg, hst ▸ hl.stream⟩
  | undone p i g rest hf =>
    have hused : f ∉ rest ++ [g] := hl.used
    obtain ⟨hrest, hfg⟩ : f ∉ rest ∧ f ≠ g := by simpa using hused
    exact ⟨hl.valid, not_mem_of_rest hf hrest hfg,
      (stream_grab (p := p) (i := i) f).symm.trans hl.stream⟩
  | closed p g k' v hL hv hf hlast hd =>
    obtain ⟨hfree, hstream⟩ := decref_last_files hlast hd
    apply hl.keep
    · intro hm
      rw [hfree]
      exact List.mem_append_left _ hm
    · exact (hstream f).symm

theorem leads_of_files (hc : ReflTransGen (FileEffect L) k k') (hl : k'.Leads f s) :
    k.Leads f s := by
  induction hc with
  | refl => exact hl
  | tail _ hlast ih => exact ih (hlast.leads hl)

theorem AcceptOutcome.leads {c : SocketCore} {x : SockId} (hout : AcceptOutcome k t p x e c k' ret)
    (hl : k'.Leads f s) : k.Leads f s := by
  cases hout with
  | waits hk => exact hl.sameFiles hk.free (hk.stream f)
  | refused hk => exact hl.sameFiles hk.free (hk.stream f)
  | dropped r rest hk => exact hl.sameFiles hk.free (hk.stream f)
  | admitted r rest req i g rest' a hpops hadmits hq hport hreq hf hacc
      hcore hnew hpeer hunion hwaiters hreqs hmap hhist hwaits hfree hkeep hover =>
    have hnot : ¬(f = g ∨ f = a) := fun ho => hover f ho s (congrArg Prod.fst hl.stream)
    obtain ⟨hfg, hfa⟩ := not_or.mp hnot
    exact ⟨hl.valid, not_mem_of_rest hf (hfree ▸ hl.used) hfg,
      (hkeep f hfg hfa).symm.trans hl.stream⟩

theorem SocketStep.leads (hok : noHalfPipe k e = true) (he : SocketStep k e k' ret)
    (hl : k'.Leads f s) :
    k.Leads f s ∨ ∃ port, s = k.sockets.length ∧ k'.core s = some ⟨.unbound, some f, port⟩ := by
  cases he with
  | files hchain => exact .inl (leads_of_files hchain hl)
  | socket t p i g rest port hf h0 hmax hv =>
    simp only [IoKernel.view, SocketView.mk.injEq] at hv
    obtain ⟨hcore, -, -, -, -, -, -, hfree, hstream⟩ := hv
    have hst := hl.stream
    rw [hstream, Function.update_apply] at hst
    split at hst
    · rename_i hfg
      obtain rfl : k.sockets.length = s := by simpa using hst
      rw [hcore, Function.update_self, hfg]
      exact .inr ⟨port, rfl, rfl⟩
    · rename_i hfg
      exact .inl ⟨hl.valid, not_mem_of_rest hf (hfree ▸ hl.used) hfg, hst⟩
  | half t p garbage g rest ht hhalf hf hv =>
    rw [noHalfPipe_iff ht, hhalf] at hok
    simp at hok
  | listen t sock g x c hg hc h0 hmax hport htype hv =>
    exact .inl (hl.sameFiles (congrArg SocketView.free hv)
      (congrFun (congrArg SocketView.stream hv) f))
  | accept t p x c hc hstart hout => exact .inl (hout.leads hl)
  | connect t sock port g x l c lc q hwait hg hc htype hport hlc hlt hq hv =>
    exact .inl (hl.sameFiles (congrArg SocketView.free hv)
      (congrFun (congrArg SocketView.stream hv) f))
  | retry t x r dev garbage req hwait hwake hreq hadm hv =>
    exact .inl (hl.sameFiles (congrArg SocketView.free hv)
      (congrFun (congrArg SocketView.stream hv) f))
  | leave t x r expired dev garbage req v hwait hwake hreq hdone hval hv =>
    exact .inl (hl.sameFiles (congrArg SocketView.free hv)
      (congrFun (congrArg SocketView.stream hv) f))
  | expire t x r hwait hsleep hv =>
    exact .inl (hl.sameFiles (congrArg SocketView.free hv)
      (congrFun (congrArg SocketView.stream hv) f))

/-- A port is unbound when the last file of a listener of that port is closed. -/
theorem unbound_of_files (hr : SocketRoles k) (hc : ReflTransGen (FileEffect L) k k') {port : Int}
    {l : SockId} (hp : k.portMap port = some l) (hp' : k'.portMap port ≠ some l) :
    ∃ f s c, L f ∧ k.Leads f s ∧ k.core s = some c ∧ c.type = .listener ∧ c.port = port := by
  induction hc with
  | refl => exact absurd hp hp'
  | @tail k1 k2 hfirst hlast ih =>
    by_cases hp1 : k1.portMap port = some l
    · cases hlast with
      | same k2 hv => exact absurd (hv.portMap ▸ hp1) hp'
      | opened => exact absurd hp1 hp'
      | undone => exact absurd hp1 hp'
      | closed p f k2 v hL hv hf hlast hd =>
        cases decref_closing hlast hd with
        | plain _ _ hmap => exact absurd (hmap ▸ hp1) hp'
        | listener s c hst hc htype _ hmap =>
          have hport : port = c.port := by
            by_contra hne
            rw [hmap, Function.update_of_ne hne] at hp'
            exact hp' hp1
          obtain ⟨d, hd, hdt, hdp⟩ := (kept_of_files hr hfirst).back s c.core (core_of_get hc)
          exact ⟨f, s, d, hL, leads_of_files hfirst ⟨hv, hf, hst⟩, hd, hdt.trans htype,
            hdp.trans hport.symm⟩
        | unbound _ _ _ _ _ _ hmap => exact absurd (hmap ▸ hp1) hp'
        | peer s c hst hc htype =>
          have hr1 : SocketRoles k1 := by
            refine files_induct (L := L) hr hr (fun k k' _ he hr => hr.fileEffect he) hfirst
          exact absurd htype (hr1.notPeer s c hst hc)
    · exact ih hp1

/-- No file becomes a socket, and no open socket changes its core or its port. -/
theorem SocketTable.keep (h : SocketTable k) (hl : ∀ g x, k'.Leads g x → k.Leads g x)
    (hcore : ∀ g x, k'.Leads g x → k'.core x = k.core x)
    (hmap : ∀ g x c, k'.Leads g x → k.core x = some c → c.type = .listener →
      k'.portMap c.port = k.portMap c.port) : SocketTable k' where
  fcb g x c hg hc := by
    rw [hcore g x hg] at hc
    exact h.fcb g x c (hl g x hg) hc
  registered g x c hg hc htype := by
    rw [hcore g x hg] at hc
    rw [hmap g x c hg hc htype]
    exact h.registered g x c (hl g x hg) hc htype

theorem SocketTable.same (h : SocketTable k) (hmap : k'.portMap = k.portMap)
    (hcore : k'.core = k.core) (hfree : k'.files.fcbFreelist = k.files.fcbFreelist)
    (hstream : ∀ g, k'.files.stream g = k.files.stream g) : SocketTable k' :=
  h.keep (fun g _ hg => hg.sameFiles hfree (hstream g))
    (fun _ x _ => congrFun hcore x) fun _ _ c _ _ _ => congrFun hmap c.port

/-- Two open files are never the same socket. -/
theorem SocketTable.leads_unique (h : SocketTable k) (hr : SocketRoles k)
    {g : FcbId} (hf : k.Leads f s)
    (hg : k.Leads g s) : g = f := by
  obtain ⟨c, hc, -⟩ := hr.leads hf
  exact Option.some.inj ((h.fcb g s c hg hc).symm.trans (h.fcb f s c hf hc))

theorem SocketTable.closing {v : Int} (h : SocketTable k) (hr : SocketRoles k) (hv : f < maxFiles)
    (hf : f ∉ k.files.fcbFreelist) (hlast : (k.files.ft f).refcount - 1 = 0)
    (hd : k.decref p f = some (k', v)) : SocketTable k' := by
  obtain ⟨hfree, hstream⟩ := decref_last_files hlast hd
  have hleads : ∀ g x, k'.Leads g x → g ≠ f ∧ k.Leads g x := by
    intro g x hg
    have hused := hg.used
    rw [hfree] at hused
    refine ⟨fun hgf => hused (by simp [hgf]), hg.keep (fun hm => ?_) (hstream g).symm⟩
    rw [hfree]
    exact List.mem_append_left _ hm
  have hne : ∀ {g x s0}, k'.Leads g x → k.files.stream f = (.socket s0, some .socketFileOps) →
      x ≠ s0 := by
    rintro g x s0 hg hst rfl
    exact (hleads g x hg).1 (h.leads_unique hr ⟨hv, hf, hst⟩ (hleads g x hg).2)
  cases decref_closing hlast hd with
  | plain hops hs hp =>
    exact h.keep (fun g x hg => (hleads g x hg).2) (fun _ x _ => congrFun (core_congr hs) x)
      fun _ _ c _ _ _ => congrFun hp c.port
  | listener s0 c hst hc htype hs hp =>
    refine h.keep (fun g x hg => (hleads g x hg).2) (fun g x hg => ?_) fun g x d hg hd hdt => ?_
    · rw [core_setSocket_of hs hc, if_neg (hne hg hst)]
    · have hreg := h.registered g x d (hleads g x hg).2 hd hdt
      have hreg0 := h.registered f s0 c.core ⟨hv, hf, hst⟩ (core_of_get hc) htype
      have hport : d.port ≠ c.port := by
        intro he
        rw [he] at hreg
        exact hne hg hst (Option.some.inj (hreg.symm.trans hreg0))
      rw [hp, Function.update_of_ne hport]
  | unbound s0 c hst hc htype hs hp =>
    refine h.keep (fun g x hg => (hleads g x hg).2) (fun g x hg => ?_) fun _ _ d _ _ _ =>
      congrFun hp d.port
    rw [core_setSocket_of hs hc, if_neg (hne hg hst)]
  | peer s0 c hst hc htype => exact absurd htype (hr.notPeer s0 c hst hc)

theorem SocketTable.fileEffect (h : SocketTable k) (hr : SocketRoles k)
    {L : FcbId → Prop} (he : FileEffect L k k') :
    SocketTable k' := by
  have hleads := fun g x (hg : k'.Leads g x) => he.leads hg
  cases he with
  | same k' hv => exact h.same hv.portMap (core_congr hv.sockets) hv.free hv.stream
  | opened p i f rest obj ops hf hops hobj =>
    exact h.keep hleads (fun _ _ _ => rfl) fun _ _ _ _ _ _ => rfl
  | undone p i f rest hf =>
    exact h.keep hleads (fun _ _ _ => rfl) fun _ _ _ _ _ _ => rfl
  | closed p f k' v hL hv hf hlast hd => exact h.closing hr hv hf hlast hd

theorem SocketTable.socketStep (h : SocketTable k) (hr : SocketRoles k)
    (hok : noHalfPipe k e = true) (he : SocketStep k e k' ret) : SocketTable k' := by
  have hnew := fun g x (hg : k'.Leads g x) => he.leads hok hg
  have hleads : ∀ {g x c}, k'.Leads g x → k.core x = some c → k.Leads g x := by
    intro g x c hg hc
    rcases hnew g x hg with hg' | ⟨port, hnew, -⟩
    · exact hg'
    · exact absurd hnew (Nat.ne_of_lt (core_lt hc))
  cases he with
  | files hchain => exact files_induct hr h (fun k k' hr he hp => hp.fileEffect hr he) hchain
  | socket t p i f rest port hf h0 hmax hv =>
    have hview := hv
    simp only [IoKernel.view, SocketView.mk.injEq] at hview
    obtain ⟨hcore, -, -, -, hmap, -, -, -, -⟩ := hview
    have hnew : ∀ {g}, k'.Leads g k.sockets.length → g = f := by
      intro g hg
      rcases hnew g _ hg with hg' | ⟨_, -, hc⟩
      · obtain ⟨d, hd, -⟩ := hr.leads hg'
        exact absurd rfl (Nat.ne_of_lt (core_lt hd))
      · rw [hcore, Function.update_self] at hc
        exact (by simpa using hc : f = g ∧ _).1.symm
    refine ⟨fun g x c hg hc => ?_, fun g x c hg hc htype => ?_⟩
    · rw [hcore, Function.update_apply] at hc
      split at hc
      · rename_i hx
        obtain rfl := Option.some.inj hc
        exact congrArg some (hnew (hx ▸ hg)).symm
      · exact h.fcb g x c (hleads hg hc) hc
    · rw [hcore, Function.update_apply] at hc
      rw [hmap]
      split at hc
      · obtain rfl := Option.some.inj hc
        simp at htype
      · exact h.registered g x c (hleads hg hc) hc htype
  | half t p garbage f rest ht hhalf hf hv =>
    rw [noHalfPipe_iff ht, hhalf] at hok
    simp at hok
  | listen t sock f s c hl hc h0 hmax hport htype hv =>
    simp only [IoKernel.view, SocketView.mk.injEq] at hv
    obtain ⟨hcore, hunion, -, -, hmap, -, -, hfree, hstream⟩ := hv
    refine ⟨fun g x d hg hd => ?_, fun g x d hg hd hdt => ?_⟩
    · rw [hcore, Function.update_apply] at hd
      split at hd
      · rename_i hx
        obtain rfl := Option.some.inj hd
        exact h.fcb g x c (hleads hg (hx ▸ hc)) (hx ▸ hc)
      · exact h.fcb g x d (hleads hg hd) hd
    · rw [hcore, Function.update_apply] at hd
      rw [hmap]
      split at hd
      · rename_i hx
        obtain rfl := Option.some.inj hd
        rw [Function.update_self, hx]
      · have hreg := h.registered g x d (hleads hg hd) hd hdt
        rw [Function.update_of_ne (fun he => by rw [he, hport] at hreg; simp at hreg)]
        exact hreg
  | accept t p s c hc hstart hout =>
    cases hout with
    | waits hk => exact h.same hk.portMap hk.core hk.free hk.stream
    | refused hk => exact h.same hk.portMap hk.core hk.free hk.stream
    | dropped r rest hk => exact h.same hk.portMap hk.core hk.free hk.stream
    | admitted r rest req i f rest' a hpops hadmits hq hport hreq hf hacc
      hcore hnew hpeer hunion hwaiters
        hreqs hmap hhist hwaits hfree hkeep hover =>
      have hadm := AcceptOutcome.admitted k' r rest req i f rest' a hpops
        hadmits hq hport hreq hf hacc hcore
        hnew hpeer hunion hwaiters hreqs hmap hhist hwaits hfree hkeep hover
      refine h.keep (fun g x hg => hadm.leads hg) (fun g x hg => ?_) fun _ _ d _ _ _ =>
        congrFun hmap d.port
      obtain ⟨d, hd, -⟩ := hr.leads (hadm.leads hg)
      rw [hcore, if_neg (Nat.ne_of_lt (core_lt hd))]
  | connect t sock port f s l c lc q hwait hl hc htype hport hlc hlt hq hv =>
    simp only [IoKernel.view, SocketView.mk.injEq] at hv
    obtain ⟨hcore, hunion, -, -, hmap, -, -, hfree, hstream⟩ := hv
    exact h.same hmap hcore hfree (congrFun hstream)
  | retry t s r dev garbage req hwait hwake hreq hadm hv =>
    simp only [IoKernel.view, SocketView.mk.injEq] at hv
    obtain ⟨hcore, hunion, -, -, hmap, -, -, hfree, hstream⟩ := hv
    exact h.same hmap hcore hfree (congrFun hstream)
  | leave t s r expired dev garbage req v hwait hwake hreq hdone hval hv =>
    simp only [IoKernel.view, SocketView.mk.injEq] at hv
    obtain ⟨hcore, hunion, -, -, hmap, -, -, hfree, hstream⟩ := hv
    exact h.same hmap hcore hfree (congrFun hstream)
  | expire t s r hwait hsleep hv =>
    simp only [IoKernel.view, SocketView.mk.injEq] at hv
    obtain ⟨hcore, hunion, -, -, hmap, -, -, hfree, hstream⟩ := hv
    exact h.same hmap hcore hfree (congrFun hstream)

theorem bootIo_not_leads {serialPorts : Nat} : ¬(bootIo serialPorts).Leads f s := by
  intro hl
  have hst := congrArg Prod.fst hl.stream
  simp [bootIo, initializeFiles, FileTable.stream] at hst

theorem bootIo_socketTable (serialPorts : Nat) : SocketTable (bootIo serialPorts) :=
  ⟨fun _ _ _ hl => absurd hl bootIo_not_leads, fun _ _ _ hl => absurd hl bootIo_not_leads⟩

theorem bootIo_portTable (serialPorts : Nat) : PortTable (bootIo serialPorts) where
  opened port s hp := by simp [bootIo] at hp
  rings s hs := by
    obtain ⟨c, hc, -⟩ := hs
    exact absurd (core_lt hc) (by simp [bootIo])

theorem socketTable_of_reach {ok : IoKernel → IoEvent → Prop} {serialPorts : Nat}
    (h : Reach IoKernel.step ok (bootIo serialPorts) k)
    (hok : ∀ u e, ok u e → noHalfPipe u e = true) :
    Sound k ∧ SocketTable k :=
  socket_invariant h (bootIo_socketTable serialPorts)
    fun _ _ _ _ hs hI hue _ he => hI.socketStep hs.roles (hok _ _ hue) he

theorem portTable_of_reach {serialPorts : Nat}
    (h : Reach IoKernel.step NoListenerTaken (bootIo serialPorts) k) :
    Sound k ∧ SocketTable k ∧ PortTable k :=
  socket_invariant (I := fun k => SocketTable k ∧ PortTable k) h
    ⟨bootIo_socketTable serialPorts, bootIo_portTable serialPorts⟩
    fun _ _ _ _ hs hI hok _ he =>
      ⟨hI.1.socketStep hs.roles hok.1 he, hI.2.socketStep hs.roles hok.2 he⟩

/-- In runs in which no request of a listener, or over a listener's file, is connected: a
port is bound exactly when an open listener has it, and listeners have well-formed queues. -/
theorem port_table_invariant {serialPorts : Nat}
    (h : Reach IoKernel.step NoListenerTaken (bootIo serialPorts) k) {port : Int} (h0 : 0 < port)
    (hmax : port ≤ maxPort) :
    (k.portMap port ≠ none ↔
      ∃ f s c, k.Leads f s ∧ k.core s = some c ∧ c.type = .listener ∧ c.port = port) ∧
    (∀ f s c, k.Leads f s → k.core s = some c → c.type = .listener → c.port = port →
      k.portMap port = some s) ∧
    ∀ s, k.isListener s → ∃ q, k.union s = some (.queue q) ∧ q.Nodup ∧
      ∀ r ∈ q, (∃ req, k.requests[r]? = some req) ∧ ∀ s', r ∈ k.queue s' → s' = s := by
  obtain ⟨hsound, htable, hport⟩ := portTable_of_reach h
  refine ⟨⟨fun hp => ?_, ?_⟩, ?_, fun s hs => ?_⟩
  · obtain ⟨s, hs⟩ := Option.ne_none_iff_exists'.mp hp
    obtain ⟨f, hf⟩ := hport.opened port s hs
    obtain ⟨c, hc, htype, hcp, -⟩ := hsound.roles.bound port s hs
    exact ⟨f, s, c, hf, hc, htype, hcp⟩
  · rintro ⟨f, s, c, hf, hc, htype, rfl⟩
    rw [htable.registered f s c hf hc htype]
    exact Option.some_ne_none s
  · rintro f s c hf hc htype rfl
    exact htable.registered f s c hf hc htype
  · obtain ⟨q, hq⟩ := hport.rings s hs
    have hqs : k.queue s = q := queue_of_union hq
    refine ⟨q, hq, hqs ▸ hsound.queues.nodup s, fun r hr => ?_⟩
    rw [← hqs] at hr
    exact ⟨⟨_, List.getElem?_eq_getElem (hsound.queues.valid r s hr)⟩, fun s' hs' =>
      hsound.queues.disjoint r s' s hs' hr⟩

/-- A socket with a queued request is made a listener before the request is accepted: it
stays bound to its port while its file is a pipe and its queue has been overwritten. -/
theorem listener_overwritten : ∃ k, Reach IoKernel.step Always (bootIo 0) k ∧
    k.portMap 6 = some 1 ∧ k.isListener 1 ∧ (∀ q, k.union 1 ≠ some (.queue q)) ∧
    (k.files.ft 1).streamobj = .pipe 1 ∧ k.core 1 = some ⟨.listener, some 1, 6⟩ := by
  obtain ⟨k, hk, hp⟩ := exists_reach_of_exec IoKernel.step (bootIo 0)
    [.socket 0 5, .listen 0 0, .createThread 0, .socket 0 6, .connect 0 1 5, .listen 1 1,
      .accept 1 0 fun _ => 0]
    (fun k => k.portMap 6 = some 1 ∧ k.union 1 = some (.pipes (some 1) (some 0)) ∧
      (k.files.ft 1).streamobj = .pipe 1 ∧ k.core 1 = some ⟨.listener, some 1, 6⟩)
        (by decide +kernel)
  obtain ⟨hmap, hunion, hobj, hcore⟩ := of_decide_eq_true hp
  exact ⟨k, hk, hmap, ⟨_, hcore, rfl⟩, fun q hq => by simp [hunion] at hq, hobj, hcore⟩

theorem port_table_invariant_run : ∃ k : IoKernel, k.portMap 5 ≠ none ∧
    ∃ f s c, k.Leads f s ∧ k.core s = some c ∧ c.type = .listener ∧ c.port = 5 := by
  obtain ⟨k, hk, hp⟩ := exists_reach_of_guarded IoKernel.step
    (fun k e => noHalfPipe k e && (k.admits e).isNone) (bootIo 0) [.socket 0 5, .listen 0 0]
    (fun k => k.portMap 5 = some 0) (by decide +kernel)
  have hbound : k.portMap 5 ≠ none := by simp [of_decide_eq_true hp]
  have hreach : Reach IoKernel.step NoListenerTaken (bootIo 0) k := by
    refine hk.mono fun u e hok => ?_
    obtain ⟨hhalf, hnone⟩ : noHalfPipe u e = true ∧ u.admits e = none := by simpa using hok
    exact ⟨hhalf, fun ⟨s, r, req, hadm, _⟩ => by simp [hnone] at hadm⟩
  exact ⟨k, hbound, (port_table_invariant hreach (by decide) (by decide)).1.mp hbound⟩

end Ports

end TinyOS
