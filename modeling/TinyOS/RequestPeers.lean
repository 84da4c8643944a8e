import TinyOS.RequestLoss

/-! The sockets whose requests `Accept` pops. `Connect` keeps no reference to its FCB, so
the socket may have been closed, or connected by another request, before its request is
popped. -/

namespace TinyOS

open Counting Transition Relation

def IoKernel.Requested (k : IoKernel) (x : SockId) : Prop :=
  ∃ s r req, r ∈ k.queue s ∧ k.requests[r]? = some req ∧ req.peer = x

/-- While a request of the socket is queued, its last file is closed, it becomes a listener or it
asks for another connection; or a socket asks that does not know its file. -/
inductive Disturbs (k : IoKernel) (e : IoEvent) : Prop
  | closes (f : FcbId) (x : SockId) (hf : k.Frees e f) (hl : k.Leads f x) (hx : k.Requested x)
  | listens (x : SockId) (h : k.Listens e x) (hx : k.Requested x)
  | asks (f : FcbId) (x : SockId) (h : k.Asks e f x) (hx : k.Requested x)
  | strays (f : FcbId) (x : SockId) (c : SocketCore) (h : k.Asks e f x) (hc : k.core x = some c)
    (hf : c.fcb ≠ some f)

/-- Socket `x` is unbound, and open as the file that it knows. -/
def IoKernel.OpenUnbound (k : IoKernel) (x : SockId) : Prop :=
  ∃ c f, k.core x = some c ∧ c.type = .unbound ∧ c.fcb = some f ∧ k.Leads f x

/-- Each queued request is one of an open, unbound socket, and the only one of it. -/
structure OpenPeers (k : IoKernel) : Prop where
  opened : ∀ s r req, r ∈ k.queue s → k.requests[r]? = some req → k.OpenUnbound req.peer
  distinct : ∀ s s' r r' req req', r ∈ k.queue s → r' ∈ k.queue s' → k.requests[r]? = some req →
    k.requests[r']? = some req' → req.peer = req'.peer → r = r'

section Peers

variable {k k' : IoKernel} {s x : SockId} {t : ThreadId} {p : Pid} {e : IoEvent} {f : FcbId}
  {ret : Option IoRet} {L : FcbId → Prop}

theorem IoKernel.OpenUnbound.keep (h : k.OpenUnbound x) (hcore : k'.core x = k.core x)
    (hleads : ∀ f, k.Leads f x → k'.Leads f x) : k'.OpenUnbound x := by
  obtain ⟨c, f, hc, htype, hf, hl⟩ := h
  exact ⟨c, f, hcore.trans hc, htype, hf, hleads f hl⟩

/-- Requests leave queues, and the sockets of those that stay are left alone. -/
theorem OpenPeers.keep (h : OpenPeers k) (hqueue : ∀ s r, r ∈ k'.queue s → r ∈ k.queue s)
    (hreq : ∀ (r : ReqId) (req : ConnectionRequest), k'.requests[r]? = some req →
      ∃ req', k.requests[r]? = some req' ∧ req'.peer = req.peer)
    (hopen : ∀ s r req, r ∈ k'.queue s → k.requests[r]? = some req → k.OpenUnbound req.peer →
      k'.OpenUnbound req.peer) : OpenPeers k' where
  opened s r req hr hget := by
    obtain ⟨req', hget', hpeer⟩ := hreq r req hget
    rw [← hpeer]
    exact hopen s r req' hr hget' (h.opened s r req' (hqueue s r hr) hget')
  distinct s s' r r' req req' hr hr' hget hget' hp := by
    obtain ⟨q, hq, hqp⟩ := hreq r req hget
    obtain ⟨q', hq', hqp'⟩ := hreq r' req' hget'
    exact h.distinct s s' r r' q q' (hqueue s r hr) (hqueue s' r' hr') hq hq'
      (hqp.trans (hp.trans hqp'.symm))

theorem OpenPeers.same (h : OpenPeers k) (hqueue : ∀ s r, r ∈ k'.queue s → r ∈ k.queue s)
    (hreq : ∀ (r : ReqId) (req : ConnectionRequest), k'.requests[r]? = some req →
      ∃ req', k.requests[r]? = some req' ∧ req'.peer = req.peer)
    (hcore : k'.core = k.core) (hfree : k'.files.fcbFreelist = k.files.fcbFreelist)
    (hstream : ∀ g, k'.files.stream g = k.files.stream g) : OpenPeers k' :=
  h.keep hqueue hreq fun _ _ req _ _ hopen => hopen.keep (congrFun hcore req.peer)
    fun f hl => hl.keep (fun hm => hfree ▸ hm) (hstream f)

/-- Files that do not lead to a socket may be closed without harm to it. -/
theorem open_of_files (hr : SocketRoles k) (hc : ReflTransGen (FileEffect L) k k')
    (hx : ∀ f, L f → ¬k.Leads f x) (hopen : k.OpenUnbound x) : k'.OpenUnbound x := by
  suffices hall : SocketRoles k' ∧ k'.OpenUnbound x from hall.2
  induction hc with
  | refl => exact ⟨hr, hopen⟩
  | @tail k1 k2 hfirst hlast ih =>
    obtain ⟨hr1, hopen1⟩ := ih
    refine ⟨hr1.fileEffect hlast, ?_⟩
    cases hlast with
    | same k2 hv =>
      exact hopen1.keep (congrFun (core_congr hv.sockets) x) fun f hl =>
        hl.keep (fun hm => hv.free ▸ hm) (hv.stream f)
    | opened p i g rest obj ops hf =>
      refine hopen1.keep rfl fun f hl => hl.keep (fun hm => mem_of_rest hf hm) ?_
      have hfiles : ((k1.grab p i g rest).setStream g obj ops).files =
          (k1.grab p i g rest).files.setStream g obj ops := rfl
      rw [hfiles, stream_setStream, if_neg (grabbed_ne hf hl), stream_grab]
    | undone p i g rest hf =>
      refine hopen1.keep rfl fun f hl => hl.keep (fun hm => ?_) (stream_grab (p := p) (i := i) f)
      have hm' : f ∈ rest ++ [g] := hm
      rw [hf.free]
      simpa [or_comm] using hm'
    | closed p g k2 v hL hv hf hlast hd =>
      obtain ⟨hfree, hstream⟩ := decref_last_files hlast hd
      have hne : ∀ {s0}, k1.files.stream g = (.socket s0, some .socketFileOps) → x ≠ s0 := by
        rintro s0 hst rfl
        exact hx g hL (leads_of_files hfirst ⟨hv, hf, hst⟩)
      refine hopen1.keep ?_ fun f hl => hl.keep (fun hm => ?_) (hstream f)
      · cases decref_closing hlast hd with
        | plain _ hs => exact congrFun (core_congr hs) x
        | listener s0 c hst hc _ hs => rw [core_setSocket_of hs hc, if_neg (hne hst)]
        | unbound s0 c hst hc _ hs => rw [core_setSocket_of hs hc, if_neg (hne hst)]
        | peer s0 c hst hc htype => exact absurd htype (hr1.notPeer s0 c hst hc)
      · have hfg : f ≠ g := by
          rintro rfl
          exact hne hl.stream rfl
        rw [hfree] at hm
        simpa [hfg] using hm

theorem not_mem_of_popped {r : ReqId} {rest : List ReqId} (h : RequestQueues k)
    (hq : k.union s = some (.queue (r :: rest))) (hsub : ∀ x, (k'.queue x).Sublist (k.queue x))
    (hrest : (k'.queue s).Sublist rest) (x : SockId) : r ∉ k'.queue x := by
  intro hx
  have hqs : k.queue s = r :: rest := queue_of_union hq
  obtain rfl : x = s := h.disjoint r x s ((hsub x).subset hx) (hqs ▸ List.mem_cons_self)
  have hnd := h.nodup x
  rw [hqs] at hnd
  exact (List.nodup_cons.mp hnd).1 (hrest.subset hx)

/-- The queue a request has been popped from is shorter, or overwritten by the pipes of its own
connection. -/
theorem queue_popped {r : ReqId} {rest : List ReqId} {peer : SockId}
    (hq : k.union s = some (.queue (r :: rest))) (hpeer : ∃ w r, k'.union peer = some (.pipes w r))
    (hunion : ∀ x, x ≠ k.sockets.length → x ≠ peer →
      k'.union x = if x = s then some (.queue rest) else k.union x) :
        (k'.queue s).Sublist rest := by
  by_cases hsp : s = peer
  · obtain ⟨w, r', hu⟩ := hpeer
    rw [hsp, queue_of_union hu]
    exact List.nil_sublist _
  · have hlt : s < k.sockets.length := by
      have hu : k.field (·.union) s = some _ := hq
      exact field_lt hu
    have hs := hunion s (Nat.ne_of_lt hlt) hsp
    rw [if_pos rfl] at hs
    rw [queue_of_union hs]
    exact List.Sublist.refl _

theorem requests_same (hreq : k'.requests = k.requests) (r : ReqId) (req : ConnectionRequest)
    (hr : k'.requests[r]? = some req) : ∃ req', k.requests[r]? = some req' ∧ req'.peer = req.peer :=
  ⟨req, by rw [← hreq]; exact hr, rfl⟩

theorem AcceptOutcome.openPeers {c : SocketCore} (h : OpenPeers k) (hqs : RequestQueues k)
    (hout : AcceptOutcome k t p s e c k' ret) : OpenPeers k' := by
  have hsub := hout.queue_sublist
  have hqueue : ∀ s r, r ∈ k'.queue s → r ∈ k.queue s := fun s r hr => (hsub s).subset hr
  cases hout with
  | waits hk hreq => exact h.same hqueue (requests_same hreq) hk.core hk.free hk.stream
  | refused hk hreq => exact h.same hqueue (requests_same hreq) hk.core hk.free hk.stream
  | dropped r rest hk hreq => exact h.same hqueue (requests_same hreq) hk.core hk.free hk.stream
  | admitted r rest req i f rest' a hpops hadmits hq hport hreq hf hacc
      hcore hnew hpeer hunion hwaiters hreqs hmap hhist hwaits hfree hkeep hover =>
    have hmem : r ∈ k.queue s := by
      rw [queue_of_union hq]
      exact List.mem_cons_self
    have hrest : (k'.queue s).Sublist rest := queue_popped hq hpeer hunion
    refine h.keep hqueue (fun r' req' hr' => ?_) fun x r' req' hr' hget hopen => ?_
    · rw [hreqs] at hr'
      exact peers_modify hr' fun _ => rfl
    have hne : req'.peer ≠ req.peer := by
      intro hp
      obtain rfl := h.distinct x s r' r req' req (hqueue x r' hr') hmem hget hreq hp
      exact not_mem_of_popped hqs hq hsub hrest x hr'
    obtain ⟨d, g, hd, -, hdf, hl⟩ := h.opened s r req hmem hreq
    have hga : g = a := by
      rw [hd] at hacc
      exact Option.some.inj (hdf.symm.trans hacc)
    refine hopen.keep ?_ fun g' hl' => hl'.keep (fun hm => mem_of_rest hf (hfree ▸ hm))
      (hkeep g' (grabbed_ne hf hl') ?_)
    · obtain ⟨d', -, hd', -⟩ := hopen
      rw [hcore, if_neg (Nat.ne_of_lt (core_lt hd'))]
    · rintro rfl
      rw [hga] at hl
      exact hne (by simpa using (congrArg Prod.fst (hl'.stream.symm.trans hl.stream)))

theorem OpenPeers.socketStep (h : OpenPeers k) (hsound : Sound k) (hok : ¬Disturbs k e)
    (he : SocketStep k e k' ret) : OpenPeers k' := by
  cases he with
  | files hchain =>
    have hkept := kept_of_files hsound.roles hchain
    refine h.keep (fun s r hr => by rw [← queue_of_unions hkept.union]; exact hr)
      (requests_same hkept.requests) fun s r req hr hget hopen => ?_
    rw [queue_of_unions hkept.union] at hr
    exact open_of_files hsound.roles hchain
      (fun f hf hl => hok (.closes f _ hf hl ⟨s, r, req, hr, hget, rfl⟩))
      hopen
  | socket t p i f rest port hf h0 hmax hv =>
    simp only [IoKernel.view, SocketView.mk.injEq] at hv
    obtain ⟨hcore, hunion, -, hreqs, -, -, -, hfree, hstream⟩ := hv
    have hqueue : ∀ s r, r ∈ k'.queue s → r ∈ k.queue s := fun x r hr =>
      (sublist_of_update hunion rfl x).subset hr
    refine h.keep hqueue (requests_same hreqs) fun x r req hr hget hopen =>
      hopen.keep ?_ fun g hl =>
      hl.keep (fun hm => mem_of_rest hf (hfree ▸ hm)) ?_
    · obtain ⟨d, -, hd, -⟩ := hopen
      rw [hcore, Function.update_of_ne (Nat.ne_of_lt (core_lt hd))]
    · rw [hstream, Function.update_of_ne (grabbed_ne hf hl)]
  | half t p garbage f rest ht hhalf hf hv =>
    simp only [IoKernel.view, SocketView.mk.injEq] at hv
    obtain ⟨hcore, hunion, -, hreqs, -, -, -, hfree, hstream⟩ := hv
    refine h.keep (fun x r hr => mem_queue_congr (congrFun hunion x).symm hr) (requests_same hreqs)
      fun x r req hr hget hopen => hopen.keep (congrFun hcore req.peer) fun g hl =>
        hl.keep (fun hm => ?_) (congrFun hstream g)
    rw [hf]
    exact List.mem_cons_of_mem f (hfree ▸ hm)
  | listen t sock f s c hl hc h0 hmax hport htype hv hcall =>
    simp only [IoKernel.view, SocketView.mk.injEq] at hv
    obtain ⟨hcore, hunion, -, hreqs, -, -, -, hfree, hstream⟩ := hv
    have hqueue : ∀ s r, r ∈ k'.queue s → r ∈ k.queue s := fun x r hr =>
      (sublist_of_update hunion rfl x).subset hr
    refine h.keep hqueue (requests_same hreqs) fun x r req hr hget hopen =>
      hopen.keep ?_ fun g hg =>
      hg.keep (fun hm => hfree ▸ hm) (congrFun hstream g)
    have hne : req.peer ≠ s := by
      rintro rfl
      exact hok (.listens req.peer hcall ⟨x, r, req, hqueue x r hr, hget, rfl⟩)
    rw [hcore, Function.update_of_ne hne]
  | accept t p s c hc hstart hout => exact hout.openPeers h hsound.queues
  | connect t sock port f s l c lc q hwait hl hc htype hport hlc hlt hq hv hcall =>
    simp only [IoKernel.view, SocketView.mk.injEq] at hv
    obtain ⟨hcore, hunion, -, hreqs, -, -, -, hfree, hstream⟩ := hv
    have hfcb : c.fcb = some f := by
      by_contra hne
      exact hok (.strays f s c hcall hc hne)
    have hleads : ∀ g x, k.Leads g x → k'.Leads g x := fun g x hg =>
      hg.keep (fun hm => hfree ▸ hm) (congrFun hstream g)
    -- a queued request is an old one, or the new one of `s`
    have hold : ∀ x r req, r ∈ k'.queue x → k'.requests[r]? = some req →
        (r ∈ k.queue x ∧ k.requests[r]? = some req) ∨ (r = k.requests.length ∧ req.peer = s) := by
      intro x r req hr hget
      rw [hreqs] at hget
      rcases getElem?_concat_cases hget with ⟨hr', rfl⟩ | ⟨hne, hget⟩
      · exact .inr ⟨hr', rfl⟩
      refine .inl ⟨?_, hget⟩
      have hx := congrFun hunion x
      rw [Function.update_apply] at hx
      split at hx
      · rename_i hxl
        rw [queue_of_union hx] at hr
        rw [hxl, queue_of_union hq]
        rcases List.mem_append.mp hr with hr | hr
        · exact hr
        · exact absurd (List.mem_singleton.mp hr) hne
      · exact mem_queue_congr hx.symm hr
    refine ⟨fun x r req hr hget => ?_, fun x x' r r' req req' hr hr' hget hget' hp => ?_⟩
    · rcases hold x r req hr hget with ⟨hr, hget⟩ | ⟨-, hp⟩
      · exact (h.opened x r req hr hget).keep (congrFun hcore _) fun g hg => hleads g _ hg
      · rw [hp]
        exact ⟨c, f, by rw [hcore]; exact hc, htype, hfcb, hleads f s hl⟩
    · rcases hold x r req hr hget with ⟨hr, hget⟩ | ⟨hn, hps⟩ <;>
        rcases hold x' r' req' hr' hget' with ⟨hr', hget'⟩ | ⟨hn', hps'⟩
      · exact h.distinct x x' r r' req req' hr hr' hget hget' hp
      · exact absurd (.asks f s hcall ⟨x, r, req, hr, hget, hp.trans hps'⟩) hok
      · exact absurd (.asks f s hcall ⟨x', r', req', hr', hget', hp.symm.trans hps⟩) hok
      · exact hn.trans hn'.symm
  | retry t s r dev garbage req hwait hwake hreq hadm hv =>
    simp only [IoKernel.view, SocketView.mk.injEq] at hv
    obtain ⟨hcore, hunion, -, hreqs, -, -, -, hfree, hstream⟩ := hv
    refine h.same (fun x r hr => mem_queue_congr (congrFun hunion x).symm hr)
      (fun r' req' hr' => ?_) hcore
      hfree (congrFun hstream)
    rw [hreqs] at hr'
    exact peers_modify hr' fun _ => rfl
  | leave t s r expired dev garbage req v hwait hwake hreq hdone hval hv =>
    simp only [IoKernel.view, SocketView.mk.injEq] at hv
    obtain ⟨hcore, hunion, -, hreqs, -, -, -, hfree, hstream⟩ := hv
    exact h.same (fun x r hr => mem_queue_congr (congrFun hunion x).symm hr)
      (requests_same hreqs) hcore
      hfree (congrFun hstream)
  | expire t s r hwait hsleep hv =>
    simp only [IoKernel.view, SocketView.mk.injEq] at hv
    obtain ⟨hcore, hunion, -, hreqs, -, -, -, hfree, hstream⟩ := hv
    refine h.same (fun x r hr => mem_queue_congr (congrFun hunion x).symm hr)
      (fun r' req' hr' => ?_) hcore
      hfree (congrFun hstream)
    rw [hreqs] at hr'
    exact peers_modify hr' fun _ => rfl

theorem mem_queue_of_pops {r : ReqId} (hp : k.pops e = some (s, r)) : r ∈ k.queue s := by
  have hhead : ∀ {x}, k.head x = some (s, r) → r ∈ k.queue s := by
    intro x hx
    obtain ⟨c, -, hif⟩ := Option.bind_eq_some_iff.mp hx
    split at hif
    · simp at hif
    · obtain ⟨r', hr', he⟩ := Option.map_eq_some_iff.mp hif
      obtain ⟨rfl, rfl⟩ : x = s ∧ r' = r := by simpa using he
      exact List.mem_of_head? hr'
  unfold IoKernel.pops at hp
  split at hp
  · split at hp
    · obtain ⟨f, -, hobj⟩ := Option.bind_eq_some_iff.mp hp
      split at hobj
      · obtain ⟨c, -, hif⟩ := Option.bind_eq_some_iff.mp hobj
        split at hif
        · exact hhead hif
        · simp at hif
      · simp at hobj
    · simp at hp
  · split at hp
    · split at hp
      · simp at hp
      · exact hhead hp
    · simp at hp
  · simp at hp

/-- In runs that disturb no socket with a queued request: whenever `Accept` pops a request, the
socket of the request is unbound, and its FCB is in use and leads to it. -/
theorem popped_socket_open {serialPorts : Nat}
    (h : Reach IoKernel.step (fun k e => ¬Disturbs k e) (bootIo serialPorts) k) {r : ReqId}
    (hp : k.pops e = some (s, r)) :
    ∃ req c f, k.requests[r]? = some req ∧ k.core req.peer = some c ∧ c.fcb = some f ∧
      f ∉ k.files.fcbFreelist ∧ (k.files.ft f).streamobj = .socket req.peer ∧
      c.type = .unbound := by
  obtain ⟨hsound, hopen⟩ := socket_invariant (I := OpenPeers) h
    ⟨fun s r req hr => absurd hr List.not_mem_nil, fun s s' r r' req req' hr =>
      absurd hr List.not_mem_nil⟩
    fun _ _ _ _ hs hI hok _ he => hI.socketStep hs hok he
  have hr := mem_queue_of_pops hp
  have hget := List.getElem?_eq_getElem (hsound.queues.valid r s hr)
  obtain ⟨c, f, hc, htype, hf, hl⟩ := hopen.opened s r _ hr hget
  exact ⟨_, c, f, hget, hc, hf, hl.used, congrArg Prod.fst hl.stream, htype⟩

theorem popped_socket_open_run : ∃ k : IoKernel, k.pops (.accept 0 0 fun _ => 0) = some (0, 0) ∧
    ∃ req c f, k.requests[0]? = some req ∧ k.core req.peer = some c ∧ c.fcb = some f ∧
      f ∉ k.files.fcbFreelist ∧ (k.files.ft f).streamobj = .socket req.peer ∧
      c.type = .unbound := by
  obtain ⟨k, hk, hp⟩ := exists_reach_of_guarded IoKernel.step
    (fun k e => noHalfPipe k e && decide (k.requests = [])) (bootIo 0)
    [.socket 0 5, .listen 0 0, .socket 0 0, .createThread 0, .connect 1 1 5]
    (fun k => k.pops (.accept 0 0 fun _ => 0) = some (0, 0)) (by decide +kernel)
  have hpops := of_decide_eq_true hp
  have hreach : Reach IoKernel.step (fun k e => ¬Disturbs k e) (bootIo 0) k := by
    refine hk.strengthen fun u e hu hok => ?_
    obtain ⟨-, htable⟩ := socketTable_of_reach hu fun u e hok => (Bool.and_eq_true_iff.mp hok).1
    have hnone : u.requests = [] := of_decide_eq_true (Bool.and_eq_true_iff.mp hok).2
    have hreq : ∀ x, ¬u.Requested x := by
      rintro x ⟨s, r, req, -, hr, -⟩
      simp [hnone] at hr
    intro hd
    cases hd with
    | closes f x _ _ hx => exact hreq x hx
    | listens x _ hx => exact hreq x hx
    | asks f x _ hx => exact hreq x hx
    | strays f x c ha hc hf =>
      cases ha with
      | mk t p sock port f s l d ht hg hl => exact hf (htable.fcb f x c hl hc)
  exact ⟨k, hpops, popped_socket_open hreach hpops⟩

/-- A `Connect` times out and its socket is closed, but the request is still queued: `Accept`
pops it, and `create_peer_pipe` goes through the FCB pointer, which is `NULL`. -/
theorem closed_socket_popped : ∃ k, Reach IoKernel.step Always (bootIo 0) k ∧
    k.pops (.accept 0 0 fun _ => 0) = some (0, 0) ∧ k.requests[0]? = some ⟨0, 1, condInit⟩ ∧
    k.core 1 = some ⟨.unbound, none, 0⟩ ∧
    (k.step (.accept 0 0 fun _ => 0)).any (·.faulted) = true := by
  obtain ⟨k, hk, hp⟩ := exists_reach_of_exec IoKernel.step (bootIo 0)
    [.socket 0 5, .listen 0 0, .socket 0 0, .createThread 0, .connect 1 1 5, .timeout 1,
      .proceed 1 [] fun _ => 0, .close 0 1]
    (fun k => k.pops (.accept 0 0 fun _ => 0) = some (0, 0) ∧ k.requests = [⟨0, 1, condInit⟩] ∧
      k.core 1 = some ⟨.unbound, none, 0⟩ ∧ (k.step (.accept 0 0 fun _ => 0)).any
        (·.faulted) = true) (by decide +kernel)
  obtain ⟨hpops, hreq, hcore, hfault⟩ := of_decide_eq_true hp
  exact ⟨k, hk, hpops, by simp [hreq], hcore, hfault⟩

end Peers

end TinyOS
