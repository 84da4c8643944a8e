import TinyOS.SocketRoles

/-! Every connection request is in at most one queue, and in it once. -/

namespace TinyOS

open Counting Transition Relation

structure RequestQueues (k : IoKernel) : Prop where
  nodup : ∀ s, (k.queue s).Nodup
  disjoint : ∀ r s s', r ∈ k.queue s → r ∈ k.queue s' → s = s'
  valid : ∀ (r : Nat) s, r ∈ k.queue s → r < k.requests.length
  peers : k.PeersValid

section Queues

variable {k k' : IoKernel} {s : SockId} {t : ThreadId} {p : Pid} {e : IoEvent} {f : FcbId}
  {ret : Option IoRet} {L : FcbId → Prop}

/-- Requests leave queues, and sockets stay. -/
theorem RequestQueues.shrink (h : RequestQueues k) (hqueue : ∀ s, (k'.queue s).Sublist (k.queue s))
    (hlen : k'.requests.length = k.requests.length)
    (hpeers : ∀ (r : ReqId) (req : ConnectionRequest), k'.requests[r]? = some req →
      ∃ req', k.requests[r]? = some req' ∧ req'.peer = req.peer)
    (hcore : ∀ s c, k.core s = some c → ∃ c', k'.core s = some c') : RequestQueues k' where
  nodup s := (h.nodup s).sublist (hqueue s)
  disjoint r s s' hs hs' := h.disjoint r s s' ((hqueue s).subset hs) ((hqueue s').subset hs')
  valid r s hs := by
    rw [hlen]
    exact h.valid r s ((hqueue s).subset hs)
  peers r req hr := by
    obtain ⟨req', hr', hp⟩ := hpeers r req hr
    obtain ⟨c, hc⟩ := h.peers r req' hr'
    exact hcore req.peer c (hp ▸ hc)

/-- The same, when the requests stay as they are. -/
theorem RequestQueues.keep (h : RequestQueues k) (hqueue : ∀ s, (k'.queue s).Sublist (k.queue s))
    (hreq : k'.requests = k.requests)
    (hcore : ∀ s c, k.core s = some c → ∃ c', k'.core s = some c') :
    RequestQueues k' :=
  h.shrink hqueue (by rw [hreq]) (fun r req hr => ⟨req, by rw [← hreq]; exact hr, rfl⟩) hcore

theorem peers_modify {g : ConnectionRequest → ConnectionRequest} {l : List ConnectionRequest}
    {i r : ReqId} {req : ConnectionRequest} (hr : (l.modify i g)[r]? = some req)
    (hg : ∀ c, (g c).peer = c.peer) : ∃ req', l[r]? = some req' ∧ req'.peer = req.peer := by
  rcases getElem?_modify_cases hr with ⟨rfl, x, hx, rfl⟩ | ⟨-, hx⟩
  · exact ⟨x, hx, (hg x).symm⟩
  · exact ⟨req, hx, rfl⟩

theorem RequestQueues.modify {g : ConnectionRequest → ConnectionRequest}
    {i : ReqId} (h : RequestQueues k)
    (hqueue : ∀ s, (k'.queue s).Sublist (k.queue s)) (hreq : k'.requests = k.requests.modify i g)
    (hg : ∀ c, (g c).peer = c.peer) (hcore : ∀ s c, k.core s = some c → ∃ c', k'.core s = some c') :
    RequestQueues k' := by
  refine h.shrink hqueue (by rw [hreq]; exact List.length_modify ..) (fun r req hr => ?_) hcore
  rw [hreq] at hr
  exact peers_modify hr hg

theorem queue_of_unions (h : k'.union = k.union) : k'.queue = k.queue := by
  funext s
  exact queue_congr (congrFun h s)

theorem RequestQueues.fileEffect (h : RequestQueues k) (hr : SocketRoles k)
    {L : FcbId → Prop} (he : FileEffect L k k') :
    RequestQueues k' := by
  have hsub : ∀ {k' : IoKernel}, k'.union = k.union → ∀ s, (k'.queue s).Sublist (k.queue s) := by
    intro k' hu s
    rw [queue_of_unions hu]
  cases he with
  | same k' hv =>
    refine h.keep (hsub (field_congr hv.sockets)) hv.requests fun s c hc => ⟨c, ?_⟩
    rw [core_congr hv.sockets]
    exact hc
  | opened p i f rest obj ops hf => exact h.keep (hsub rfl) rfl fun s c hc => ⟨c, hc⟩
  | undone p i f rest hf => exact h.keep (hsub rfl) rfl fun s c hc => ⟨c, hc⟩
  | closed p f k' v hL hv hf hlast hd =>
    have hcl := (decref_closing hlast hd).closed hr
    refine h.keep (hsub hcl.union) (decref_same hd).requests fun s c hc => ?_
    obtain ⟨c', hc', -⟩ := hcl.core s c hc
    exact ⟨c', hc'⟩

theorem AcceptOutcome.core_mono {c : SocketCore} (h : AcceptOutcome k t p s e c k' ret) (x : SockId)
    (d : SocketCore) (hd : k.core x = some d) : ∃ d', k'.core x = some d' := by
  cases h with
  | waits hk => exact ⟨d, by rw [hk.core]; exact hd⟩
  | refused hk => exact ⟨d, by rw [hk.core]; exact hd⟩
  | dropped r rest hk => exact ⟨d, by rw [hk.core]; exact hd⟩
  | admitted r rest req i f rest' a _ _ _ _ _ _ _ hcore =>
    rw [hcore]
    split
    · exact ⟨_, rfl⟩
    · exact ⟨d, hd⟩

theorem sublist_of_update {u : SocketUnion} (hunion : k'.union = Function.update k.union s (some u))
    (hu : u.requests = []) (x : SockId) : (k'.queue x).Sublist (k.queue x) := by
  have hx := congrFun hunion x
  rw [Function.update_apply] at hx
  split at hx
  · rw [queue_of_union hx, hu]
    exact List.nil_sublist _
  · rw [queue_congr hx]

/-- A queue from which the first request is taken. -/
theorem sublist_of_popped {x : SockId} {r : ReqId} {rest : List ReqId}
    (hq : k.union s = some (.queue (r :: rest)))
    (hx : k'.union x = if x = s then some (.queue rest) else k.union x) :
    (k'.queue x).Sublist (k.queue x) := by
  by_cases hxs : x = s
  · subst hxs
    rw [if_pos rfl] at hx
    rw [queue_of_union hx, queue_of_union hq]
    exact List.sublist_cons_self r rest
  · rw [if_neg hxs] at hx
    rw [queue_congr hx]

theorem AcceptOutcome.queue_sublist {c : SocketCore} (h : AcceptOutcome k t p s e c k' ret)
    (x : SockId) :
    (k'.queue x).Sublist (k.queue x) := by
  cases h with
  | waits hk hreq hempty hport hunion => rw [queue_of_unions hunion]
  | refused hk hreq hport hunion => rw [queue_of_unions hunion]
  | dropped r rest hk hreq hpops hq hport hroom hunion =>
    exact sublist_of_popped hq (hunion x)
  | admitted r rest req i f rest' a hpops hadmits hq hport hreq hf hacc hcore hnew hpeer hunion =>
    by_cases hxn : x = k.sockets.length
    · rw [hxn, hnew]
      exact List.nil_sublist _
    · by_cases hxp : x = req.peer
      · obtain ⟨w, r', hu⟩ := hpeer
        rw [hxp, queue_of_union hu]
        exact List.nil_sublist _
      · exact sublist_of_popped hq (hunion x hxn hxp)

theorem AcceptOutcome.requests_cases {c : SocketCore} (h : AcceptOutcome k t p s e c k' ret) :
    k'.requests = k.requests ∨ ∃ r, k'.requests = (k.setAdmitted r).requests := by
  cases h with
  | waits hk hreq => exact .inl hreq
  | refused hk hreq => exact .inl hreq
  | dropped r rest hk hreq => exact .inl hreq
  | admitted r rest req i f rest' a _ _ _ _ _ _ _ _ _ _ _ _ hreqs => exact .inr ⟨r, hreqs⟩

theorem RequestQueues.socketStep (h : RequestQueues k) (he : SocketStep k e k' ret)
    (hfiles : ∀ k', ReflTransGen (FileEffect (k.Frees e)) k k' → RequestQueues k') :
    RequestQueues k' := by
  have hadd : ∀ (n : SockId) (x : SocketCore), k'.core = Function.update k.core n (some x) →
      ∀ s c, k.core s = some c → ∃ c', k'.core s = some c' := by
    intro n x hx s c hc
    rw [hx, Function.update_apply]
    split
    · exact ⟨x, rfl⟩
    · exact ⟨c, hc⟩
  cases he with
  | files hchain => exact hfiles k' hchain
  | socket t p i f rest port hf h0 hmax hv =>
    have hunion : k'.union = Function.update k.union k.sockets.length (some .uninitialized) :=
      congrArg SocketView.union hv
    exact h.keep (sublist_of_update hunion rfl) (congrArg SocketView.requests hv)
      (hadd _ _ (congrArg SocketView.core hv))
  | half t p garbage f rest ht hhalf hf hv =>
    simp only [IoKernel.view, SocketView.mk.injEq] at hv
    obtain ⟨hcore, hunion, -, hreqs, -⟩ := hv
    exact h.keep (fun x => by rw [queue_of_unions hunion]) hreqs fun x c hc =>
      ⟨c, by rw [hcore]; exact hc⟩
  | listen t sock f s c hl hc h0 hmax hport htype hv =>
    have hunion : k'.union = Function.update k.union s (some (.queue [])) :=
      congrArg SocketView.union hv
    exact h.keep (sublist_of_update hunion rfl) (congrArg SocketView.requests hv)
      (hadd _ _ (congrArg SocketView.core hv))
  | accept t p s c hc hstart hout =>
    rcases hout.requests_cases with hreq | ⟨r, hreq⟩
    · exact h.keep hout.queue_sublist hreq hout.core_mono
    · refine h.shrink hout.queue_sublist ?_ (fun r' req hr => ?_) hout.core_mono
      · rw [hreq]
        exact List.length_modify ..
      · rw [hreq] at hr
        exact peers_modify hr fun _ => rfl
  | connect t sock port f s l c lc q hwait hl hc htype hport hlc hlt hq hv =>
    have hunion : k'.union = Function.update k.union l (some (.queue (q ++ [k.requests.length]))) :=
      congrArg SocketView.union hv
    have hreq : k'.requests = k.requests ++ [⟨0, s, ⟨[t]⟩⟩] := congrArg SocketView.requests hv
    have hcore : k'.core = k.core := congrArg SocketView.core hv
    have hmem : ∀ r x, r ∈ k'.queue x → r ∈ k.queue x ∨ (r = k.requests.length ∧ x = l) := by
      intro r x hr
      have hx := congrFun hunion x
      rw [Function.update_apply] at hx
      split at hx
      · rename_i hxl
        rw [queue_of_union hx] at hr
        rcases List.mem_append.mp hr with hr | hr
        · exact .inl (by rw [hxl, queue_of_union hq]; exact hr)
        · exact .inr ⟨List.mem_singleton.mp hr, hxl⟩
      · rw [queue_congr hx] at hr
        exact .inl hr
    have hlq : k.queue l = q := queue_of_union hq
    refine ⟨fun x => ?_, fun r x x' hx hx' => ?_, fun r x hx => ?_, fun r req hr => ?_⟩
    · have hx := congrFun hunion x
      rw [Function.update_apply] at hx
      split at hx
      · rw [queue_of_union hx]
        refine List.nodup_append.mpr ⟨hlq ▸ h.nodup l, by simp, fun a ha b hb hab => ?_⟩
        have hlt := h.valid a l (hlq.symm ▸ ha)
        rw [hab, List.mem_singleton.mp hb] at hlt
        exact absurd hlt (Nat.lt_irrefl _)
      · rw [queue_congr hx]
        exact h.nodup x
    · rcases hmem r x hx with hx | ⟨hr, hx⟩ <;> rcases hmem r x' hx' with hx' | ⟨hr', hx'⟩
      · exact h.disjoint r x x' hx hx'
      · exact absurd (h.valid r x hx) (hr' ▸ Nat.lt_irrefl _)
      · exact absurd (h.valid r x' hx') (hr ▸ Nat.lt_irrefl _)
      · rw [hx, hx']
    · rw [hreq, List.length_append, List.length_singleton]
      rcases hmem r x hx with hx | ⟨hr, -⟩
      · exact Nat.lt_succ_of_lt (h.valid r x hx)
      · exact Nat.lt_succ_of_le (Nat.le_of_eq hr)
    · rw [hcore]
      rw [hreq] at hr
      rcases getElem?_concat_cases hr with ⟨-, rfl⟩ | ⟨-, hr⟩
      · exact ⟨c, hc⟩
      · exact h.peers r req hr
  | retry t s r dev garbage req hwait hwake hreq hadm hv =>
    have hq : k'.queue = k.queue := queue_of_unions (congrArg SocketView.union hv)
    have hreqs : k'.requests = k.requests.modify r _ := congrArg SocketView.requests hv
    have hcore : k'.core = k.core := congrArg SocketView.core hv
    exact h.modify (fun x => by rw [hq]) hreqs (fun _ => rfl) fun x c hc =>
      ⟨c, by rw [hcore]; exact hc⟩
  | leave t s r expired dev garbage req v hwait hwake hreq hdone hval hv =>
    have hq : k'.queue = k.queue := queue_of_unions (congrArg SocketView.union hv)
    have hcore : k'.core = k.core := congrArg SocketView.core hv
    exact h.keep (fun x => by rw [hq]) (congrArg SocketView.requests hv)
      fun x c hc => ⟨c, by rw [hcore]; exact hc⟩
  | expire t s r hwait hsleep hv =>
    have hq : k'.queue = k.queue := queue_of_unions (congrArg SocketView.union hv)
    have hreqs : k'.requests = k.requests.modify r _ := congrArg SocketView.requests hv
    have hcore : k'.core = k.core := congrArg SocketView.core hv
    exact h.modify (fun x => by rw [hq]) hreqs (fun _ => rfl) fun x c hc =>
      ⟨c, by rw [hcore]; exact hc⟩

structure Sound (k : IoKernel) : Prop where
  counted : k.Counted none
  roles : SocketRoles k
  queues : RequestQueues k

/-- An invariant of single effects on files is one of any number of them. -/
theorem files_induct {I : IoKernel → Prop} (h : SocketRoles k) (hI : I k)
    (hstep : ∀ k k', SocketRoles k → FileEffect L k k' → I k → I k')
    (hc : ReflTransGen (FileEffect L) k k') :
    I k' := by
  have hall : SocketRoles k' ∧ I k' := by
    induction hc with
    | refl => exact ⟨h, hI⟩
    | tail _ hlast ih => exact ⟨ih.1.fileEffect hlast, hstep _ _ ih.1 hlast ih.2⟩
  exact hall.2

theorem Sound.stepRet (h : Sound k) (hs : k.stepRet e = some (k', ret)) :
    Sound k' ∧ SocketStep k e k' ret := by
  have hstep := (step_effect h.counted (stepRet_cases hs).2).socketStep
    h.roles h.counted h.queues.peers
  have hcount : k'.Counted none := h.counted.step (e := e) (by rw [IoKernel.step, hs]; rfl)
  refine ⟨⟨hcount, h.roles.socketStep hstep fun k' hc => ?_,
    h.queues.socketStep hstep fun k' hc => ?_⟩,
    hstep⟩
  · exact files_induct (I := SocketRoles) h.roles h.roles (fun k k' _ he hr => hr.fileEffect he) hc
  · exact files_induct h.roles h.queues (fun k k' hr he hq => hq.fileEffect hr he) hc

theorem bootIo_sound (serialPorts : Nat) : Sound (bootIo serialPorts) := by
  refine ⟨bootIo_counted serialPorts, ⟨fun f s hs => ?_, fun f s hs => ?_, fun port s hp => ?_⟩,
    ⟨fun s => List.nodup_nil, fun r s s' hs => absurd hs List.not_mem_nil,
      fun r s hs => absurd hs List.not_mem_nil, fun r req hr => absurd hr (by simp [bootIo])⟩⟩
  · simp [bootIo, initializeFiles, FileTable.stream] at hs
  · simp [bootIo, initializeFiles, FileTable.stream] at hs
  · simp [bootIo] at hp

/-- An invariant of the steps, as far as sockets are concerned, is one of runs. -/
theorem socket_invariant {ok : IoKernel → IoEvent → Prop} {I : IoKernel → Prop} {serialPorts : Nat}
    (h : Reach IoKernel.step ok (bootIo serialPorts) k) (h0 : I (bootIo serialPorts))
    (hstep : ∀ k e k' ret, Sound k → I k → ok k e → k.stepRet e = some (k', ret) →
      SocketStep k e k' ret → I k') : Sound k ∧ I k := by
  refine h.invariant (I := fun k => Sound k ∧ I k) ⟨bootIo_sound serialPorts, h0⟩ ?_
  intro u e v hu hue hs
  obtain ⟨⟨v', ret⟩, hr, rfl⟩ := Option.map_eq_some_iff.mp hs
  obtain ⟨hsound, hsock⟩ := hu.1.stepRet hr
  exact ⟨hsound, hstep u e v' ret hu.1 hu.2 hue hr hsock⟩

theorem sound_of_reach {ok : IoKernel → IoEvent → Prop} {serialPorts : Nat}
    (h : Reach IoKernel.step ok (bootIo serialPorts) k) : Sound k :=
  (socket_invariant (I := fun _ => True) h trivial fun _ _ _ _ _ _ _ _ _ => trivial).1

end Queues

end TinyOS
