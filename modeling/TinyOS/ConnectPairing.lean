import TinyOS.RequestPeers

/-! The calls of `Connect` and the calls of `Accept` that take their requests. Each request
goes through at most three events, and the order in which they come tells how the two calls
ended. -/

namespace TinyOS

open Counting Transition Relation

def RequestEvent.request : RequestEvent → ReqId
  | .requested r | .accepted r _ | .returned r _ => r

inductive RequestPhase
  | waiting
  | accepted (fid : Int)
  | connected (fid : Int)
  | failed
deriving DecidableEq

def RequestPhase.events (r : ReqId) : RequestPhase → List RequestEvent
  | .waiting => [.requested r]
  | .accepted fid => [.requested r, .accepted r fid]
  | .connected fid => [.requested r, .accepted r fid, .returned r 0]
  | .failed => [.requested r, .returned r (-1)]

def RequestPhase.taken : RequestPhase → Bool
  | .accepted _ | .connected _ => true
  | .waiting | .failed => false

def RequestPhase.running : RequestPhase → Bool
  | .waiting | .accepted _ => true
  | .connected _ | .failed => false

def IoKernel.events (k : IoKernel) (r : ReqId) : List RequestEvent :=
  k.history.filter fun e => e.request = r

def IoKernel.Calls (k : IoKernel) (t : ThreadId) (r : ReqId) : Prop :=
  ∃ s expired, k.waits t = some (.connecting s r expired)

/-- A `Connect` gives up after its timeout while its request is still in a queue. -/
def GivesUp (k : IoKernel) (e : IoEvent) : Prop :=
  ∃ t dev garbage s r req x, e = .proceed t dev garbage ∧ k.waits t = some (.connecting s r true) ∧
    k.requests[r]? = some req ∧ req.admitted ≠ 1 ∧ r ∈ k.queue x

structure IoKernel.InPhase (k : IoKernel) (r : ReqId) (ph : RequestPhase) : Prop where
  events : k.events r = ph.events r
  request : ∃ req, k.requests[r]? = some req ∧ (req.admitted = 1 ↔ ph.taken = true) ∧
    (req.admitted = 1 → req.connectedCv.waitset = [])
  unqueued : ph ≠ .waiting → ∀ x, r ∉ k.queue x
  caller : ph.running = true → ∃ t, ∀ t', k.Calls t' r ↔ t' = t
  finished : ph.running = false → ∀ t, ¬k.Calls t r

structure ConnectPhases (k : IoKernel) : Prop where
  phase : ∀ r : Nat, r < k.requests.length → ∃ ph, k.InPhase r ph
  fresh : ∀ r : Nat, k.requests.length ≤ r → k.events r = [] ∧ ∀ t, ¬k.Calls t r

section Pairing

variable {k k' : IoKernel} {s : SockId} {t : ThreadId} {p : Pid} {e : IoEvent} {r : ReqId}
  {ph : RequestPhase} {ret : Option IoRet}

theorem events_same (hh : k'.history = k.history) (r : ReqId) : k'.events r = k.events r := by
  simp only [IoKernel.events, hh]

theorem events_concat {x : RequestEvent} (hh : k'.history = k.history ++ [x]) (r : ReqId) :
    k'.events r = k.events r ++ if x.request = r then [x] else [] := by
  simp only [IoKernel.events, hh, List.filter_append, List.filter_cons, List.filter_nil,
    decide_eq_true_eq]

theorem calls_of_moves {pc : Option IoPc}
    (hwaits : ∀ t', k'.waits t' = if t' = t then pc else k.waits t')
    (hold : ¬k.Calls t r) (hnew : ∀ s b, pc ≠ some (.connecting s r b)) (t' : ThreadId) :
    k'.Calls t' r ↔ k.Calls t' r := by
  unfold IoKernel.Calls
  rw [hwaits]
  split
  · rename_i ht
    subst ht
    exact ⟨fun ⟨s, b, h⟩ => absurd h (hnew s b), fun h => absurd h hold⟩
  · exact Iff.rfl

theorem not_calls {pc : Option IoPc} (hw : k.waits t = pc)
    (hpc : ∀ s b, pc ≠ some (.connecting s r b)) :
    ¬k.Calls t r := fun ⟨s, b, h⟩ => hpc s b (hw.symm.trans h)

/-- Nothing happens to the request but that it may leave a queue. -/
theorem IoKernel.InPhase.keep (h : k.InPhase r ph) (hevents : k'.events r = k.events r)
    (hreq : ∀ req, k.requests[r]? = some req → ∃ req', k'.requests[r]? = some req' ∧
      req'.admitted = req.admitted ∧
      (req.admitted = 1 → req.connectedCv.waitset = [] → req'.connectedCv.waitset = []))
    (hqueue : ∀ x, r ∈ k'.queue x → r ∈ k.queue x) (hcalls : ∀ t, k'.Calls t r ↔ k.Calls t r) :
    k'.InPhase r ph where
  events := hevents.trans h.events
  request := by
    obtain ⟨req, hget, hadm, hcv⟩ := h.request
    obtain ⟨req', hget', hsame, hcv'⟩ := hreq req hget
    refine ⟨req', hget', by rw [hsame]; exact hadm, fun ha => ?_⟩
    rw [hsame] at ha
    exact hcv' ha (hcv ha)
  unqueued hph x hx := h.unqueued hph x (hqueue x hx)
  caller hrun := by
    obtain ⟨t, ht⟩ := h.caller hrun
    exact ⟨t, fun t' => (hcalls t').trans (ht t')⟩
  finished hrun t ht := h.finished hrun t ((hcalls t).mp ht)

theorem ConnectPhases.keep (h : ConnectPhases k) (hevents : ∀ r, k'.events r = k.events r)
    (hreq : k'.requests = k.requests) (hqueue : ∀ r x, r ∈ k'.queue x → r ∈ k.queue x)
    (hcalls : ∀ r t, k'.Calls t r ↔ k.Calls t r) : ConnectPhases k' where
  phase r hr := by
    obtain ⟨ph, hph⟩ := h.phase r (by rw [← hreq]; exact hr)
    exact ⟨ph, hph.keep (hevents r)
      (fun req hget => ⟨req, by rw [hreq]; exact hget, rfl, fun _ hcv => hcv⟩)
      (hqueue r) (hcalls r)⟩
  fresh r hr := by
    obtain ⟨hev, hno⟩ := h.fresh r (by rw [← hreq]; exact hr)
    exact ⟨(hevents r).trans hev, fun t ht => hno t ((hcalls r t).mp ht)⟩

theorem ConnectPhases.change {g : ConnectionRequest → ConnectionRequest} (h : ConnectPhases k)
    (hr : r < k.requests.length) (hreq : k'.requests = k.requests.modify r g)
    (hevents : ∀ r', r' ≠ r → k'.events r' = k.events r')
    (hqueue : ∀ r x, r ∈ k'.queue x → r ∈ k.queue x)
    (hcalls : ∀ r' t, r' ≠ r → (k'.Calls t r' ↔ k.Calls t r')) (hphase : ∃ ph, k'.InPhase r ph) :
    ConnectPhases k' where
  phase r' hr' := by
    by_cases hrr : r' = r
    · exact hrr ▸ hphase
    · obtain ⟨ph, hph⟩ := h.phase r' (by rw [hreq, List.length_modify] at hr'; exact hr')
      refine ⟨ph, hph.keep (hevents r' hrr) (fun req hget => ⟨req, ?_, rfl, fun _ hcv => hcv⟩)
        (hqueue r')
        fun t => hcalls r' t hrr⟩
      rw [hreq, getElem?_modify_of hget r g, if_neg hrr]
  fresh r' hr' := by
    rw [hreq, List.length_modify] at hr'
    have hrr : r' ≠ r := by
      rintro rfl
      exact absurd hr (Nat.not_lt_of_le hr')
    obtain ⟨hev, hno⟩ := h.fresh r' hr'
    exact ⟨(hevents r' hrr).trans hev, fun t ht => hno t ((hcalls r' t hrr).mp ht)⟩

theorem IoKernel.InPhase.take {x : SockId} {req : ConnectionRequest} {i : Nat} (h : k.InPhase r ph)
    (hr : r ∈ k.queue x) (hreq : k.requests[r]? = some req)
    (hreqs : k'.requests = (k.setAdmitted r).requests)
    (hhist : k'.history = k.history ++ [.accepted r i]) (hgone : ∀ x, r ∉ k'.queue x)
    (hcalls : ∀ t, k'.Calls t r ↔ k.Calls t r) : k'.InPhase r (.accepted i) := by
  obtain rfl : ph = .waiting := by
    by_contra hph
    exact h.unqueued hph x hr
  refine ⟨?_, ?_, fun _ => hgone, fun _ => ?_, fun hrun => by simp [RequestPhase.running] at hrun⟩
  · rw [events_concat hhist, h.events]
    simp [RequestEvent.request, RequestPhase.events]
  · rw [hreqs]
    refine ⟨_, getElem?_modify_of hreq r _, ?_, ?_⟩
    · simp [RequestPhase.taken]
    · simp [kernelBroadcast]
  · obtain ⟨t, ht⟩ := h.caller rfl
    exact ⟨t, fun t' => (hcalls t').trans (ht t')⟩

theorem AcceptOutcome.phases {c : SocketCore} (h : ConnectPhases k) (hq : RequestQueues k)
    (hidle : ∀ r, ¬k.Calls t r) (hout : AcceptOutcome k t p s e c k' ret) : ConnectPhases k' := by
  have hsub := hout.queue_sublist
  have hqueue : ∀ r x, r ∈ k'.queue x → r ∈ k.queue x := fun r x hr => (hsub x).subset hr
  cases hout with
  | waits hk hreq =>
    exact h.keep (events_same hk.history) hreq hqueue
      fun r => calls_of_moves hk.waits (hidle r) (by simp)
  | refused hk hreq =>
    exact h.keep (events_same hk.history) hreq hqueue fun r =>
      calls_of_moves hk.waits (hidle r) (by simp)
  | dropped r rest hk hreq =>
    exact h.keep (events_same hk.history) hreq hqueue fun r =>
      calls_of_moves hk.waits (hidle r) (by simp)
  | admitted r rest req i f rest' a hpops hadmits hqs hport hreq hf hacc
      hcore hnew hpeer hunion hwaiters hreqs hmap hhist hwaits hfree hkeep hover =>
    have hcalls : ∀ r t', k'.Calls t' r ↔ k.Calls t' r := fun r =>
      calls_of_moves hwaits (hidle r) (by simp)
    have hrest : (k'.queue s).Sublist rest := queue_popped hqs hpeer hunion
    have hmem : r ∈ k.queue s := mem_queue_of_pops hpops
    have hlt := hq.valid r s hmem
    obtain ⟨ph, hph⟩ := h.phase r hlt
    refine h.change hlt hreqs (fun r' hrr => ?_) hqueue (fun r' t' _ => hcalls r' t')
      ⟨_, hph.take hmem hreq hreqs hhist (not_mem_of_popped hq hqs hsub hrest) (hcalls r)⟩
    have hne : r ≠ r' := Ne.symm hrr
    rw [events_concat hhist]
    simp [RequestEvent.request, hne]

theorem IoKernel.InPhase.leave {expired : Bool} {req : ConnectionRequest}
    {v : Int} (h : k.InPhase r ph)
    (hwait : k.waits t = some (.connecting s r expired)) (hreq : k.requests[r]? = some req)
    (hval : v = if req.admitted ≠ 1 then -1 else 0) (hgone : req.admitted ≠ 1 → ∀ x, r ∉ k.queue x)
    (hreqs : k'.requests = k.requests) (hhist : k'.history = k.history ++ [.returned r v])
    (hqueue : ∀ x, r ∈ k'.queue x → r ∈ k.queue x)
    (hwaits : ∀ t', k'.waits t' = if t' = t then none else k.waits t') : ∃ ph, k'.InPhase r ph := by
  have hcall : k.Calls t r := ⟨s, expired, hwait⟩
  have hrun : ph.running = true := by
    by_contra hrun
    exact h.finished (by simpa using hrun) t hcall
  have hnone : ∀ t', ¬k'.Calls t' r := by
    rintro t' ⟨x, b, hw⟩
    rw [hwaits] at hw
    split at hw
    · simp at hw
    · rename_i htt
      obtain ⟨u, hu⟩ := h.caller hrun
      exact htt (((hu t').mp ⟨x, b, hw⟩).trans ((hu t).mp hcall).symm)
  have hevents := (events_concat hhist r).trans (congrArg (· ++ _) h.events)
  obtain ⟨req', hget, hadm, hcv⟩ := h.request
  obtain rfl : req = req' := Option.some.inj (hreq.symm.trans hget)
  cases ph with
  | waiting =>
    have hna : req.admitted ≠ 1 := fun ha => by simp [RequestPhase.taken] at hadm; exact hadm ha
    rw [if_pos hna] at hval
    refine ⟨.failed, ?_, ⟨req, by rw [hreqs]; exact hreq, hadm, hcv⟩,
      fun _ x hx => hgone hna x (hqueue x hx),
      fun hrun => by simp [RequestPhase.running] at hrun, fun _ => hnone⟩
    simpa [RequestEvent.request, RequestPhase.events, hval] using hevents
  | accepted fid =>
    have ha : req.admitted = 1 := hadm.mpr rfl
    have hval' : v = 0 := by simpa [ha] using hval
    refine ⟨.connected fid, ?_, ⟨req, by rw [hreqs]; exact hreq, hadm, hcv⟩,
      fun _ x hx => h.unqueued (by simp) x (hqueue x hx),
      fun hrun => by simp [RequestPhase.running] at hrun, fun _ => hnone⟩
    simpa [RequestEvent.request, RequestPhase.events, hval'] using hevents
  | connected fid => simp [RequestPhase.running] at hrun
  | failed => simp [RequestPhase.running] at hrun

theorem ConnectPhases.quiet (h : ConnectPhases k) (hhist : k'.history = k.history)
    (hreqs : k'.requests = k.requests) (hwaits : k'.waits = k.waits)
    (hqueue : ∀ x, (k'.queue x).Sublist (k.queue x)) : ConnectPhases k' :=
  h.keep (events_same hhist) hreqs (fun _ x hr => (hqueue x).subset hr) fun r t => by
    rw [IoKernel.Calls, hwaits]
    exact Iff.rfl

theorem queue_of_update {n : SockId} {u : SocketUnion}
    (hu : k'.union = Function.update k.union n (some u)) (hnone : u.requests = []) (x : SockId) :
    (k'.queue x).Sublist (k.queue x) := by
  have hx := congrFun hu x
  rw [Function.update_apply] at hx
  split at hx
  · rw [queue_of_union hx, hnone]
    exact List.nil_sublist _
  · rw [queue_congr hx]

/-- Thread `t` queues the next request, at the listener `l`. -/
theorem ConnectPhases.asked {l : SockId} {q : List ReqId} (h : ConnectPhases k)
    (hwait : k.waits t = none) (hq : k.union l = some (.queue q))
    (hunion : k'.union =
      Function.update k.union l (some (.queue (q ++ [k.requests.length]))))
    (hreqs : k'.requests = k.requests ++ [⟨0, s, ⟨[t]⟩⟩])
    (hhist : k'.history = k.history ++ [.requested k.requests.length])
    (hwaits : k'.waits =
      Function.update k.waits t (some (.connecting s k.requests.length false))) :
    ConnectPhases k' := by
  have hmoves : ∀ t', k'.waits t' =
      if t' = t then some (.connecting s k.requests.length false) else k.waits t' := by
    intro t'
    rw [hwaits, Function.update_apply]
  have hcalls : ∀ r, r ≠ k.requests.length → ∀ t', k'.Calls t' r ↔ k.Calls t' r := fun r hr =>
    calls_of_moves hmoves (not_calls hwait (by simp)) fun x b he =>
      hr (by simpa using he : _ ∧ k.requests.length = r ∧ _).2.1.symm
  have hevents : ∀ r, r ≠ k.requests.length → k'.events r = k.events r := by
    intro r hr
    have hne : k.requests.length ≠ r := Ne.symm hr
    rw [events_concat hhist]
    simp [RequestEvent.request, hne]
  have hqueue : ∀ r x, r ≠ k.requests.length → r ∈ k'.queue x → r ∈ k.queue x := by
    intro r x hr hx
    have hu := congrFun hunion x
    rw [Function.update_apply] at hu
    split at hu
    · rename_i hxl
      rw [queue_of_union hu] at hx
      rw [hxl, queue_of_union hq]
      exact (List.mem_append.mp hx).resolve_right fun hn => hr (List.mem_singleton.mp hn)
    · exact mem_queue_congr hu.symm hx
  refine ⟨fun r hr => ?_, fun r hr => ?_⟩
  · by_cases hrn : r = k.requests.length
    · subst hrn
      obtain ⟨hev, hno⟩ := h.fresh k.requests.length (Nat.le_refl _)
      refine ⟨.waiting, ?_,
        ⟨⟨0, s, ⟨[t]⟩⟩, by simp [hreqs], by simp [RequestPhase.taken], by simp⟩,
        fun hw => absurd rfl hw, fun _ => ⟨t, fun t' => ?_⟩,
        fun hrun => by simp [RequestPhase.running] at hrun⟩
      · rw [events_concat hhist, hev]
        simp [RequestEvent.request, RequestPhase.events]
      · unfold IoKernel.Calls
        rw [hmoves]
        split
        · rename_i ht
          exact ⟨fun _ => ht, fun _ => ⟨s, false, rfl⟩⟩
        · rename_i ht
          exact ⟨fun hw => absurd hw (hno t'), fun he => absurd he ht⟩
    · have hlt : r < k.requests.length := by
        rw [hreqs, List.length_append, List.length_singleton] at hr
        omega
      obtain ⟨ph, hph⟩ := h.phase r hlt
      refine ⟨ph, hph.keep (hevents r hrn) (fun req hget => ⟨req, ?_, rfl, fun _ hcv => hcv⟩)
        (fun x => hqueue r x hrn) (hcalls r hrn)⟩
      rw [hreqs, List.getElem?_append_left hlt]
      exact hget
  · rw [hreqs, List.length_append, List.length_singleton] at hr
    have hrn : r ≠ k.requests.length := by omega
    obtain ⟨hev, hno⟩ := h.fresh r (by omega)
    exact ⟨(hevents r hrn).trans hev, fun t' ht' => hno t' ((hcalls r hrn t').mp ht')⟩

/-- Only the condition variable of a request changes. -/
theorem ConnectPhases.changedCv {g : CondVar → CondVar} (h : ConnectPhases k)
    (hlt : r < k.requests.length) (hunion : k'.union = k.union)
    (hreqs : k'.requests = k.requests.modify r (changeCv g)) (hhist : k'.history = k.history)
    (hcalls : ∀ r t, k'.Calls t r ↔ k.Calls t r)
    (hg : ∀ req, k.requests[r]? = some req → req.admitted = 1 →
      req.connectedCv.waitset = [] → (g req.connectedCv).waitset = []) :
    ConnectPhases k' := by
  have hqueue : ∀ r x, r ∈ k'.queue x → r ∈ k.queue x := fun r x hr =>
    mem_queue_congr (congrFun hunion x).symm hr
  obtain ⟨ph, hph⟩ := h.phase r hlt
  refine h.change hlt hreqs (fun r' _ => events_same hhist r') hqueue (fun r' t _ => hcalls r' t)
    ⟨ph, hph.keep (events_same hhist r)
      (fun req hget => ⟨changeCv g req, ?_, rfl, hg req hget⟩) (hqueue r) (hcalls r)⟩
  rw [hreqs, getElem?_modify_of hget, if_pos rfl]

theorem ConnectPhases.returned {expired : Bool} {req : ConnectionRequest} {v : Int}
    (h : ConnectPhases k) (hwait : k.waits t = some (.connecting s r expired))
    (hreq : k.requests[r]? = some req) (hval : v = if req.admitted ≠ 1 then -1 else 0)
    (hgone : req.admitted ≠ 1 → ∀ x, r ∉ k.queue x) (hunion : k'.union = k.union)
    (hreqs : k'.requests = k.requests) (hhist : k'.history = k.history ++ [.returned r v])
    (hwaits : k'.waits = Function.update k.waits t none) : ConnectPhases k' := by
  have hqueue : ∀ r x, r ∈ k'.queue x → r ∈ k.queue x := fun r x hr =>
    mem_queue_congr (congrFun hunion x).symm hr
  have hmoves : ∀ t', k'.waits t' = if t' = t then none else k.waits t' := by
    intro t'
    rw [hwaits, Function.update_apply]
  have hlt : r < k.requests.length := (List.getElem?_eq_some_iff.mp hreq).1
  obtain ⟨ph, hph⟩ := h.phase r hlt
  refine h.change (g := id) hlt (by rw [hreqs, List.modify_id]) (fun r' hrr => ?_) hqueue
    (fun r' t' hrr => ?_) (hph.leave hwait hreq hval hgone hreqs hhist (hqueue r) hmoves)
  · have hne : r ≠ r' := Ne.symm hrr
    rw [events_concat hhist]
    simp [RequestEvent.request, hne]
  · exact calls_of_moves hmoves (not_calls hwait fun x b he => hrr
      (by simpa using he : _ ∧ r = r' ∧ _).2.1.symm) (by simp) t'

theorem ConnectPhases.socketStep (h : ConnectPhases k) (hsound : Sound k) (hok : ¬GivesUp k e)
    (he : SocketStep k e k' ret) : ConnectPhases k' := by
  have hunion : k'.union = k.union → ∀ x, (k'.queue x).Sublist (k.queue x) := by
    intro hu x
    rw [queue_of_unions hu]
  cases he with
  | files hchain =>
    have hkept := kept_of_files hsound.roles hchain
    exact h.quiet hkept.history hkept.requests hkept.waits (hunion hkept.union)
  | socket t p i f rest port hf h0 hmax hv =>
    exact h.quiet (congrArg SocketView.history hv) (congrArg SocketView.requests hv)
      (congrArg SocketView.waits hv) (queue_of_update (congrArg SocketView.union hv) rfl)
  | half t p garbage f rest ht hhalf hf hv =>
    exact h.quiet (congrArg SocketView.history hv) (congrArg SocketView.requests hv)
      (congrArg SocketView.waits hv) (hunion (congrArg SocketView.union hv))
  | listen t sock f s c hl hc h0 hmax hport htype hv =>
    exact h.quiet (congrArg SocketView.history hv) (congrArg SocketView.requests hv)
      (congrArg SocketView.waits hv) (queue_of_update (congrArg SocketView.union hv) rfl)
  | accept t p s c hc hstart hout =>
    refine hout.phases h hsound.queues fun r => ?_
    rcases hstart with ⟨hwait, -⟩ | ⟨hwait, -⟩
    · exact not_calls hwait (by simp)
    · exact not_calls hwait (by simp)
  | connect t sock port f s l c lc q hwait hl hc htype hport hlc hlt hq hv =>
    exact h.asked hwait hq (congrArg SocketView.union hv) (congrArg SocketView.requests hv)
      (congrArg SocketView.history hv) (congrArg SocketView.waits hv)
  | retry t s r dev garbage req hwait hwake hreq hadm hv =>
    have hwaits : k'.waits = k.waits := congrArg SocketView.waits hv
    refine h.changedCv (List.getElem?_eq_some_iff.mp hreq).1 (congrArg SocketView.union hv)
      (congrArg SocketView.requests hv) (congrArg SocketView.history hv) (fun r' t' => ?_)
      fun req' hget ha => ?_
    · rw [IoKernel.Calls, hwaits]
      exact Iff.rfl
    · obtain rfl : req = req' := Option.some.inj (hreq.symm.trans hget)
      exact absurd ha hadm
  | leave t s r expired dev garbage req v hwait hwake hreq hdone hval hv =>
    refine h.returned hwait hreq hval (fun hna x hx => ?_) (congrArg SocketView.union hv)
      (congrArg SocketView.requests hv) (congrArg SocketView.history hv)
      (congrArg SocketView.waits hv)
    obtain rfl : expired = true := hdone.resolve_left hna
    exact hok ⟨t, dev, garbage, s, r, req, x, rfl, hwait, hreq, hna, hx⟩
  | expire t s r hwait hsleep hv =>
    have hwaits : k'.waits = Function.update k.waits t (some (.connecting s r true)) :=
      congrArg SocketView.waits hv
    have hlt : r < k.requests.length := by
      by_contra hle
      exact (h.fresh r (Nat.le_of_not_lt hle)).2 t ⟨s, false, hwait⟩
    refine h.changedCv hlt (congrArg SocketView.union hv) (congrArg SocketView.requests hv)
      (congrArg SocketView.history hv) (fun r' t' => ?_) fun req _ _ hcv => ?_
    · unfold IoKernel.Calls
      rw [hwaits, Function.update_apply]
      split
      · rename_i ht
        rw [ht, hwait]
        simp
      · exact Iff.rfl
    · simp [CondVar.expire, hcv]

theorem connect_of_waits {expired : Bool} (hw : k.waits t = some (.connecting s r expired)) :
    ∃ p, k.threads[t]? = some ⟨p, .connecting s r expired⟩ := by
  obtain ⟨⟨p, pc⟩, ht, hpc⟩ := Option.bind_eq_some_iff.mp hw
  cases pc <;> simp [IoPc.socketWait] at hpc
  obtain ⟨rfl, rfl, rfl⟩ := hpc
  exact ⟨p, ht⟩

/-- The `Connect` whose request has been taken goes on and returns 0. -/
theorem IoKernel.InPhase.returns {fid : Int} (h : k.InPhase r (.accepted fid))
    (hrun : k.faulted = false) :
    ∃ t, k.Calls t r ∧ ∀ dev garbage, ∃ k',
      k.stepRet (.proceed t dev garbage) = some (k', some ⟨0, [], []⟩) := by
  obtain ⟨t, ht⟩ := h.caller rfl
  obtain ⟨s, expired, hw⟩ := (ht t).mpr rfl
  obtain ⟨p, hp⟩ := connect_of_waits hw
  obtain ⟨req, hreq, hadm, hcv⟩ := h.request
  have ha : req.admitted = 1 := hadm.mpr rfl
  refine ⟨t, ⟨s, expired, hw⟩, fun dev garbage => ?_⟩
  have hget : (k.setPc t .user).requests[r]? = some req := hreq
  have hgo : k.goOn t p (.connecting s r expired) dev garbage =
      some (connectLeave (k.setPc t .user) s r req) := by
    simp [IoKernel.goOn, hreq, hcv ha, connectLoop, hget, ha]
  simp [IoKernel.stepRet, hrun, hp, hgo, connectLeave, ha, IoKernel.ret, IoKernel.settle]

theorem connectPhases_of_reach {serialPorts : Nat}
    (h : Reach IoKernel.step (fun k e => ¬GivesUp k e) (bootIo serialPorts) k) :
    Sound k ∧ ConnectPhases k := by
  refine socket_invariant h
    ⟨fun r hr => absurd hr (Nat.not_lt_zero r), fun r _ => ⟨rfl, fun t ht => ?_⟩⟩
    fun _ _ _ _ hs hI hok _ he => hI.socketStep hs hok he
  obtain ⟨s, b, hw⟩ := ht
  rcases t with _ | t <;> simp [IoKernel.waits, bootIo, IoPc.socketWait] at hw

/-- In runs in which no `Connect` gives up while its request is queued: each request is taken by
at most one `Accept`, its `Connect` returns 0 if one has taken it and -1 if not, and no `Accept`
takes a request whose `Connect` has returned. -/
theorem accept_connect_paired {serialPorts : Nat}
    (h : Reach IoKernel.step (fun k e => ¬GivesUp k e) (bootIo serialPorts) k) :
    (∀ ev ∈ k.history, ev.request < k.requests.length) ∧
    (∀ r : Nat, r < k.requests.length → ∃ ph : RequestPhase, k.events r = ph.events r ∧
      (ph = .waiting → ∃ t, k.Calls t r) ∧
      ∀ fid, ph = .accepted fid → k.faulted = false → ∃ t, k.Calls t r ∧ ∀ dev garbage, ∃ k',
        k.stepRet (.proceed t dev garbage) = some (k', some ⟨0, [], []⟩)) ∧
    ∀ e s r, k.pops e = some (s, r) → k.events r = [.requested r] := by
  obtain ⟨hsound, hphases⟩ := connectPhases_of_reach h
  refine ⟨fun ev hev => ?_, fun r hr => ?_, fun e s r hp => ?_⟩
  · by_contra hle
    obtain ⟨hnone, -⟩ := hphases.fresh ev.request (Nat.le_of_not_lt hle)
    have hmem : ev ∈ k.events ev.request := List.mem_filter.mpr ⟨hev, by simp⟩
    rw [hnone] at hmem
    exact absurd hmem List.not_mem_nil
  · obtain ⟨ph, hph⟩ := hphases.phase r hr
    refine ⟨ph, hph.events, ?_, ?_⟩
    · rintro rfl
      obtain ⟨t, ht⟩ := hph.caller rfl
      exact ⟨t, (ht t).mpr rfl⟩
    · rintro fid rfl hrun
      exact hph.returns hrun
  · have hq := mem_queue_of_pops hp
    obtain ⟨ph, hph⟩ := hphases.phase r (hsound.queues.valid r s hq)
    obtain rfl : ph = .waiting := by
      by_contra hne
      exact hph.unqueued hne s hq
    exact hph.events

theorem accept_connect_paired_run : ∃ k : IoKernel,
    k.history = [.requested 0, .accepted 0 2, .returned 0 0] ∧
    (∀ ev ∈ k.history, ev.request < k.requests.length) ∧
    ∃ ph : RequestPhase, k.events 0 = ph.events 0 := by
  obtain ⟨k, hk, hp⟩ := exists_reach_of_guarded IoKernel.step
    (fun k e => k.requests.all (·.admitted = 1) || !(e matches .proceed ..)) (bootIo 0)
    [.socket 0 5, .listen 0 0, .socket 0 0, .createThread 0, .connect 1 1 5, .accept 0 0 fun _ => 0,
      .proceed 1 [] fun _ => 0]
    (fun k => k.history = [.requested 0, .accepted 0 2, .returned 0 0] ∧ k.requests.length = 1)
    (by decide +kernel)
  obtain ⟨hhist, hlen⟩ := of_decide_eq_true hp
  have hreach : Reach IoKernel.step (fun k e => ¬GivesUp k e) (bootIo 0) k := by
    refine hk.mono fun u e hok => ?_
    rintro ⟨t, dev, garbage, s, r, req, x, rfl, -, hreq, hna, -⟩
    have hall : ∀ c ∈ u.requests, c.admitted = 1 := by simpa using hok
    exact hna (hall req (List.mem_of_getElem? hreq))
  obtain ⟨hevents, hphase, -⟩ := accept_connect_paired hreach
  obtain ⟨ph, hph, -⟩ := hphase 0 (by rw [hlen]; exact Nat.one_pos)
  exact ⟨k, hhist, hevents, ph, hph⟩

/-- A `Connect` returns -1 after its timeout and leaves its request in the queue, from which a
later `Accept` takes it. -/
theorem expired_request_accepted : ∃ k, Reach IoKernel.step Always (bootIo 0) k ∧
    k.history = [.requested 0, .returned 0 (-1), .accepted 0 2] := by
  obtain ⟨k, hk, hp⟩ := exists_reach_of_exec IoKernel.step (bootIo 0)
    [.socket 0 5, .listen 0 0, .socket 0 0, .createThread 0, .connect 1 1 5, .timeout 1,
      .proceed 1 [] fun _ => 0, .accept 0 0 fun _ => 0]
    (fun k => k.history = [.requested 0, .returned 0 (-1), .accepted 0 2]) (by decide +kernel)
  exact ⟨k, hk, of_decide_eq_true hp⟩

end Pairing

end TinyOS
