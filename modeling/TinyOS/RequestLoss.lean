import TinyOS.PortTable

/-! The request of a thread asleep in `sys_Connect`: when it is in the queue of a listener
that is bound to a port, and the three ways in which it gets lost. -/

namespace TinyOS

open Counting Transition Relation

/-- Thread `t` sleeps in `sys_Connect` for request `r`, which has not been admitted. -/
structure IoKernel.Sleeps (k : IoKernel) (t : ThreadId) (r : ReqId) : Prop where
  waits : ∃ s, k.waits t = some (.connecting s r false)
  request : ∃ req, k.requests[r]? = some req ∧ req.admitted ≠ 1 ∧ t ∈ req.connectedCv.waitset

def IoKernel.Pending (k : IoKernel) (r : ReqId) : Prop := ∃ t, k.Sleeps t r

def IoKernel.Queued (k : IoKernel) (r : ReqId) : Prop :=
  ∃ port l, k.portMap port = some l ∧ r ∈ k.queue l

/-- Who waits in `sys_Connect` sleeps, unless its request has been admitted. -/
def ConnectsAsleep (k : IoKernel) : Prop :=
  ∀ t s r, k.waits t = some (.connecting s r false) →
    ∃ req, k.requests[r]? = some req ∧ (req.admitted = 1 ∨ t ∈ req.connectedCv.waitset)

/-- The step pops a request that it cannot connect, connects one while others wait at its own
socket, or closes the last file of a listener, with somebody asleep for a request lost so. -/
inductive LosesRequest (k : IoKernel) (e : IoEvent) : Prop
  | drops (s : SockId) (r : ReqId) (hpops : k.pops e = some (s, r)) (hadmits : k.admits e = none)
    (hr : k.Pending r)
  | overwrites (s : SockId) (r r' : ReqId) (req : ConnectionRequest)
    (hadmits : k.admits e = some (s, r))
    (hreq : k.requests[r]? = some req) (hq : r' ∈ k.queue req.peer) (hne : r' ≠ r)
    (hr : k.Pending r')
  | closes (f : FcbId) (s l : SockId) (c : SocketCore) (r : ReqId) (hf : k.Frees e f)
    (hl : k.Leads f s)
    (hc : k.core s = some c) (htype : c.type = .listener) (hport : k.portMap c.port = some l)
    (hq : r ∈ k.queue l) (hr : k.Pending r)

section Requests

variable {k k' : IoKernel} {s : SockId} {t : ThreadId} {p : Pid} {e : IoEvent} {f : FcbId}
  {ret : Option IoRet}

theorem hasRoom_of_noRoom {port : Int} (hroom : k.NoRoom p port) (h0 : 0 < port)
    (hmax : port ≤ maxPort) :
    k.hasRoom p = false := by
  rcases hroom with hport | hfids | hfree
  · simp only [noPort] at hport
    omega
  · have hnone : (List.range maxFileid).any (fun i => decide ((k.procs p).fidt i = none)) =
        false := by
      rw [List.any_eq_false]
      intro i hi
      simpa using hfids i (List.mem_range.mp hi)
    simp [IoKernel.hasRoom, hnone]
  · simp [IoKernel.hasRoom, hfree]

theorem sleeps_of_view (hreq : k'.requests = k.requests)
    (hwaits : ∀ t s r, k'.waits t = some (.connecting s r false) →
      k.waits t = some (.connecting s r false))
    {t : ThreadId} {r : ReqId} (hs : k'.Sleeps t r) : k.Sleeps t r := by
  obtain ⟨⟨s, hw⟩, req, hr, hadm, ht⟩ := hs
  exact ⟨⟨s, hwaits t s r hw⟩, req, by rw [← hreq]; exact hr, hadm, ht⟩

theorem sleeps_same (hreq : k'.requests = k.requests) (hwaits : k'.waits = k.waits) {t : ThreadId}
    {r : ReqId} (hs : k'.Sleeps t r) : k.Sleeps t r :=
  sleeps_of_view hreq (fun t s r hw => by rw [← hwaits]; exact hw) hs

theorem waits_of_moves {pc : Option IoPc} (hpc : ∀ s r, pc ≠ some (.connecting s r false))
    (hwaits : ∀ t', k'.waits t' = if t' = t then pc else k.waits t') (t' : ThreadId)
    (s : SockId) (r : ReqId)
    (hw : k'.waits t' = some (.connecting s r false)) :
    k.waits t' = some (.connecting s r false) := by
  rw [hwaits] at hw
  split at hw
  · exact absurd hw (hpc s r)
  · exact hw

theorem queued_of_keep {r : ReqId} (hq : k.Queued r)
    (hmap : ∀ port l, k.portMap port = some l → r ∈ k.queue l → k'.portMap port = some l)
    (hqueue : ∀ port l, k.portMap port = some l → r ∈ k.queue l → r ∈ k'.queue l) :
    k'.Queued r := by
  obtain ⟨port, l, hp, hl⟩ := hq
  exact ⟨port, l, hmap port l hp hl, hqueue port l hp hl⟩

theorem mem_queue_congr {r : ReqId} (hu : k'.union s = k.union s) (hr : r ∈ k.queue s) :
    r ∈ k'.queue s := by
  rw [queue_congr hu]
  exact hr

/-- The requests other than the popped one stay where they are. -/
theorem mem_queue_popped {l : SockId} {r r' : ReqId} {rest : List ReqId}
    (hq : k.union s = some (.queue (r :: rest)))
    (hx : k'.union l = if l = s then some (.queue rest) else k.union l) (hne : r' ≠ r)
    (hl : r' ∈ k.queue l) : r' ∈ k'.queue l := by
  by_cases hls : l = s
  · subst hls
    rw [if_pos rfl] at hx
    rw [queue_of_union hq] at hl
    rw [queue_of_union hx]
    exact (List.mem_cons.mp hl).resolve_left hne
  · rw [if_neg hls] at hx
    exact mem_queue_congr hx hl

theorem queued_same {r : ReqId} (hq : k.Queued r) (hmap : k'.portMap = k.portMap)
    (hunion : k'.union = k.union) : k'.Queued r :=
  queued_of_keep hq (fun _ _ hp _ => by rw [hmap]; exact hp) fun _ l _ hl =>
    mem_queue_congr (congrFun hunion l) hl

theorem bound_lt (hr : SocketRoles k) {port : Int} (hp : k.portMap port = some s) :
    s < k.sockets.length := by
  obtain ⟨c, hc, -⟩ := hr.bound port s hp
  exact core_lt hc

/-- `Accept` keeps the requests of those that sleep, unless it loses them. -/
theorem AcceptOutcome.queued {c : SocketCore} (hr : SocketRoles k)
    (h : ∀ t r, k.Sleeps t r → k.Queued r) (hok : ¬LosesRequest k e)
    (hout : AcceptOutcome k t p s e c k' ret) {t' : ThreadId} {r' : ReqId} (hs : k'.Sleeps t' r') :
    k'.Queued r' := by
  cases hout with
  | waits hk hreq hempty hport hunion =>
    exact queued_same (h t' r' (sleeps_of_view hreq (waits_of_moves (by simp) hk.waits) hs))
      hk.portMap hunion
  | refused hk hreq hport hunion =>
    exact queued_same (h t' r' (sleeps_of_view hreq (waits_of_moves (by simp) hk.waits) hs))
      hk.portMap hunion
  | dropped r rest hk hreq hpops hq hport hroom hunion hwaiters hadmits =>
    have hold := sleeps_of_view hreq (waits_of_moves (by simp) hk.waits) hs
    have hne : r' ≠ r := by
      rintro rfl
      refine hok (.drops s r' hpops ?_ ⟨t', hold⟩)
      obtain ⟨l, hl⟩ := Option.ne_none_iff_exists'.mp hport
      obtain ⟨-, -, -, -, h0, hmax⟩ := hr.bound c.port l hl
      rw [hadmits, hasRoom_of_noRoom hroom h0 hmax]
      rfl
    refine queued_of_keep (h t' r' hold) (fun _ _ hp _ => by rw [hk.portMap]; exact hp)
      fun port l hp hl => ?_
    exact mem_queue_popped hq (hunion l) hne hl
  | admitted r rest req i f rest' a hpops hadmits hq hport hreq hf hacc
      hcore hnew hpeer hunion hwaiters hreqs hmap hhist hwaits hfree hkeep hover =>
    obtain ⟨⟨x, hw⟩, req', hget, hadm, hsleep⟩ := hs
    rw [hreqs] at hget
    rcases getElem?_modify_cases hget with ⟨-, y, -, rfl⟩ | ⟨hne, hget⟩
    · exact absurd rfl hadm
    have hold : k.Sleeps t' r' :=
      ⟨⟨x, waits_of_moves (by simp) hwaits t' x r' hw⟩, req', hget, hadm, hsleep⟩
    refine queued_of_keep (h t' r' hold) (fun _ _ hp _ => by rw [hmap]; exact hp)
      fun port l hp hl => ?_
    have hlp : l ≠ req.peer := by
      rintro rfl
      exact hok (.overwrites s r r' req hadmits hreq hl hne ⟨t', hold⟩)
    exact mem_queue_popped hq (hunion l (Nat.ne_of_lt (bound_lt hr hp)) hlp) hne hl

/-- A sleeper of the step after was one before, or has just queued its request. -/
theorem SocketStep.queued (hr : SocketRoles k) (h : ∀ t r, k.Sleeps t r → k.Queued r)
    (hok : ¬LosesRequest k e) (hsleep : ConnectsAsleep k) (he : SocketStep k e k' ret)
    {t' : ThreadId} {r' : ReqId} (hs : k'.Sleeps t' r') : k'.Queued r' := by
  cases he with
  | files hchain =>
    have hkept := kept_of_files hr hchain
    have hold := sleeps_same hkept.requests hkept.waits hs
    refine queued_of_keep (h t' r' hold) (fun port l hp hl => ?_) fun port l _ hl => ?_
    · by_contra hp'
      obtain ⟨f, x, c, hf, hleads, hc, htype, rfl⟩ := unbound_of_files hr hchain hp hp'
      exact hok (.closes f x l c r' hf hleads hc htype hp hl ⟨t', hold⟩)
    · exact mem_queue_congr (congrFun hkept.union l) hl
  | socket t p i f rest port hf h0 hmax hv =>
    simp only [IoKernel.view, SocketView.mk.injEq] at hv
    obtain ⟨-, hunion, -, hreqs, hmap, -, hwaits, -, -⟩ := hv
    refine queued_of_keep (h t' r' (sleeps_same hreqs hwaits hs))
      (fun _ _ hp _ => by rw [hmap]; exact hp)
      fun port l hp hl => ?_
    refine mem_queue_congr ?_ hl
    rw [hunion, Function.update_of_ne (Nat.ne_of_lt (bound_lt hr hp))]
  | half t p garbage f rest ht hhalf hf hv =>
    simp only [IoKernel.view, SocketView.mk.injEq] at hv
    obtain ⟨-, hunion, -, hreqs, hmap, -, hwaits, -, -⟩ := hv
    exact queued_same (h t' r' (sleeps_same hreqs hwaits hs)) hmap hunion
  | listen t sock f s c hl hc h0 hmax hport htype hv =>
    simp only [IoKernel.view, SocketView.mk.injEq] at hv
    obtain ⟨-, hunion, -, hreqs, hmap, -, hwaits, -, -⟩ := hv
    refine queued_of_keep (h t' r' (sleeps_same hreqs hwaits hs)) (fun port l hp _ => ?_)
      fun port l hp hl' => ?_
    · rw [hmap, Function.update_of_ne (fun he => by rw [he, hport] at hp; simp at hp)]
      exact hp
    · have hls : l ≠ s := by
        rintro rfl
        obtain ⟨d, hd, hdt, -⟩ := hr.bound port l hp
        obtain rfl : c = d := Option.some.inj (hc.symm.trans hd)
        rw [htype] at hdt
        simp at hdt
      refine mem_queue_congr ?_ hl'
      rw [hunion, Function.update_of_ne hls]
  | accept t p s c hc hstart hout => exact hout.queued hr h hok hs
  | connect t sock port f s l c lc q hwait hl hc htype hport hlc hlt hq hv =>
    simp only [IoKernel.view, SocketView.mk.injEq] at hv
    obtain ⟨-, hunion, -, hreqs, hmap, -, hwaits, -, -⟩ := hv
    have hl' : k'.queue l = q ++ [k.requests.length] :=
      queue_of_union (by rw [hunion, Function.update_self])
    obtain ⟨⟨x, hw⟩, req', hget, hadm, hsleep⟩ := hs
    rw [hreqs] at hget
    rcases getElem?_concat_cases hget with ⟨rfl, -⟩ | ⟨hne, hget⟩
    · exact ⟨port, l, by rw [hmap]; exact hport, by simp [hl']⟩
    rw [hwaits, Function.update_apply] at hw
    split at hw
    · rename_i ht
      exact absurd (by simpa using hw : s = x ∧ k.requests.length = r').2.symm hne
    refine queued_of_keep (h t' r' ⟨⟨x, hw⟩, req', hget, hadm, hsleep⟩)
      (fun _ _ hp _ => by rw [hmap]; exact hp) fun port' l' _ hl => ?_
    by_cases hll : l' = l
    · subst hll
      rw [queue_of_union hq] at hl
      rw [hl']
      exact List.mem_append_left _ hl
    · refine mem_queue_congr ?_ hl
      rw [hunion, Function.update_of_ne hll]
  | retry t s r dev garbage req hwait hwake hreq hadm hv =>
    obtain ⟨req1, hreq1, hcase⟩ := hsleep t s r hwait
    obtain rfl : req = req1 := Option.some.inj (hreq.symm.trans hreq1)
    rcases hcase with h1 | h1
    · exact absurd h1 hadm
    · exact absurd (by simpa [IoKernel.sleepers, hreq] using h1) hwake
  | leave t s r expired dev garbage req v hwait hwake hreq hdone hval hv =>
    simp only [IoKernel.view, SocketView.mk.injEq] at hv
    obtain ⟨-, hunion, -, hreqs, hmap, -, hwaits, -, -⟩ := hv
    have hmoves : ∀ t', k'.waits t' = if t' = t then none else k.waits t' := by
      intro t'
      rw [hwaits, Function.update_apply]
    exact queued_same (h t' r' (sleeps_of_view hreqs (waits_of_moves (by simp) hmoves) hs))
      hmap hunion
  | expire t s r hwait hsleep hv =>
    simp only [IoKernel.view, SocketView.mk.injEq] at hv
    obtain ⟨-, hunion, -, hreqs, hmap, -, hwaits, -, -⟩ := hv
    have hmoves : ∀ t', k'.waits t' = if t' = t then some (.connecting s r true)
        else k.waits t' := by
      intro t'
      rw [hwaits, Function.update_apply]
    obtain ⟨⟨x, hw⟩, req', hget, hadm, hin⟩ := hs
    have hold := waits_of_moves (by simp) hmoves t' x r' hw
    refine queued_same (h t' r' ⟨⟨x, hold⟩, ?_⟩) hmap hunion
    rw [hreqs] at hget
    rcases getElem?_modify_cases hget with ⟨rfl, y, hy, rfl⟩ | ⟨-, hget⟩
    · exact ⟨y, hy, hadm, List.mem_of_mem_erase hin⟩
    · exact ⟨req', hget, hadm, hin⟩

/-! ### Runs -/

theorem getElem?_modify_of {α : Type} {l : List α} {i : Nat} {x : α} (h : l[i]? = some x) (j : Nat)
    (g : α → α) : (l.modify j g)[i]? = some (if i = j then g x else x) := by
  by_cases hij : i = j
  · subst hij
    simp [h]
  · have hji : j ≠ i := Ne.symm hij
    simp [h, hij, hji]

/-- One request changes, and those who still wait for it sleep as before or are admitted. -/
theorem ConnectsAsleep.modify {g : ConnectionRequest → ConnectionRequest} {r : ReqId}
    (h : ConnectsAsleep k)
    (hwaits : ∀ t s r, k'.waits t = some (.connecting s r false) →
      k.waits t = some (.connecting s r false))
    (hreq : k'.requests = k.requests.modify r g) (hg : ∀ c, c.admitted = 1 → (g c).admitted = 1)
    (hcv : ∀ t s, k'.waits t = some (.connecting s r false) → ∀ c, t ∈ c.connectedCv.waitset →
      (g c).admitted = 1 ∨ t ∈ (g c).connectedCv.waitset) : ConnectsAsleep k' := by
  intro t s r' hw
  obtain ⟨req, hr', hcase⟩ := h t s r' (hwaits t s r' hw)
  rw [hreq]
  refine ⟨_, getElem?_modify_of hr' r g, ?_⟩
  split
  · rename_i hrr
    rcases hcase with hcase | hcase
    · exact .inl (hg req hcase)
    · exact hcv t s (hrr ▸ hw) req hcase
  · exact hcase

theorem ConnectsAsleep.same (h : ConnectsAsleep k) (hreq : k'.requests = k.requests)
    (hwaits : ∀ t s r, k'.waits t = some (.connecting s r false) →
      k.waits t = some (.connecting s r false)) :
    ConnectsAsleep k' := by
  intro t s r hw
  rw [hreq]
  exact h t s r (hwaits t s r hw)

theorem ConnectsAsleep.socketStep (h : ConnectsAsleep k) (hr : SocketRoles k)
    (he : SocketStep k e k' ret) : ConnectsAsleep k' := by
  have hview : k'.requests = k.requests → k'.waits = k.waits → ConnectsAsleep k' := by
    intro hreq hwaits
    exact h.same hreq fun t s r hw => by rw [← hwaits]; exact hw
  cases he with
  | files hchain => exact hview (kept_of_files hr hchain).requests (kept_of_files hr hchain).waits
  | socket t p i f rest port _ _ _ hv =>
    exact hview (congrArg SocketView.requests hv) (congrArg SocketView.waits hv)
  | half t p garbage f rest _ _ _ hv =>
    exact hview (congrArg SocketView.requests hv) (congrArg SocketView.waits hv)
  | listen t sock f s c _ _ _ _ _ _ hv =>
    exact hview (congrArg SocketView.requests hv) (congrArg SocketView.waits hv)
  | accept t p s c hc hstart hout =>
    cases hout with
    | waits hk hreq => exact h.same hreq (waits_of_moves (by simp) hk.waits)
    | refused hk hreq => exact h.same hreq (waits_of_moves (by simp) hk.waits)
    | dropped r rest hk hreq => exact h.same hreq (waits_of_moves (by simp) hk.waits)
    | admitted r rest req i f rest' a hpops hadmits hq hport hreq hf hacc
      hcore hnew hpeer hunion hwaiters
        hreqs hmap hhist hwaits hfree hkeep hover =>
      exact h.modify (waits_of_moves (by simp) hwaits) hreqs (fun _ _ => rfl) fun _ _ _ _ _ =>
        .inl rfl
  | connect t sock port f s l c lc q hwait hl hc htype hport hlc hlt hq hv =>
    have hreqs : k'.requests = k.requests ++ [⟨0, s, ⟨[t]⟩⟩] := congrArg SocketView.requests hv
    have hwaits : k'.waits = Function.update k.waits t _ := congrArg SocketView.waits hv
    intro t' s' r hw
    rw [hwaits, Function.update_apply] at hw
    rw [hreqs]
    split at hw
    · rename_i ht
      obtain ⟨rfl, rfl⟩ : s = s' ∧ k.requests.length = r := by simpa using hw
      exact ⟨⟨0, s, ⟨[t]⟩⟩, by simp, .inr (by simp [ht])⟩
    · obtain ⟨req, hr', hcase⟩ := h t' s' r hw
      exact ⟨req, by rw [List.getElem?_append_left (List.getElem?_eq_some_iff.mp hr').1]; exact hr',
        hcase⟩
  | retry t s r dev garbage req hwait hwake hreq hadm hv =>
    have hreqs : k'.requests = k.requests.modify r _ := congrArg SocketView.requests hv
    have hwaits : k'.waits = k.waits := congrArg SocketView.waits hv
    exact h.modify (fun t s r hw => by rw [← hwaits]; exact hw) hreqs (fun _ ha => ha)
      fun _ _ _ _ ht => .inr (List.mem_append_left _ ht)
  | leave t s r expired dev garbage req v _ _ _ _ _ hv =>
    have hwaits : k'.waits = Function.update k.waits t none := congrArg SocketView.waits hv
    have hmoves : ∀ t', k'.waits t' = if t' = t then none else k.waits t' := by
      intro t'
      rw [hwaits, Function.update_apply]
    exact h.same (congrArg SocketView.requests hv) (waits_of_moves (by simp) hmoves)
  | expire t s r hwait hsleep hv =>
    have hreqs : k'.requests = k.requests.modify r _ := congrArg SocketView.requests hv
    have hwaits : k'.waits = Function.update k.waits t (some (.connecting s r true)) :=
      congrArg SocketView.waits hv
    have hmoves : ∀ t', k'.waits t' = if t' = t then some (.connecting s r true)
        else k.waits t' := by
      intro t'
      rw [hwaits, Function.update_apply]
    refine h.modify (waits_of_moves (by simp) hmoves) hreqs (fun _ ha => ha) fun t' x hw c ht =>
      .inr ?_
    have htt : t' ≠ t := by
      rintro rfl
      rw [hwaits, Function.update_self] at hw
      simp at hw
    exact (List.mem_erase_of_ne htt).mpr ht

/-- In runs that lose no request: whoever sleeps in `sys_Connect` without having been admitted
has its request in the queue of a listener that is bound to a port. -/
theorem connect_request_queued {serialPorts : Nat}
    (h : Reach IoKernel.step (fun k e => ¬LosesRequest k e) (bootIo serialPorts) k) {t : ThreadId}
    {r : ReqId} (hs : k.Sleeps t r) :
    ∃ port l, k.portMap port = some l ∧ k.isListener l ∧ r ∈ k.queue l := by
  have hboot : ∀ t s r, (bootIo serialPorts).waits t ≠ some (.connecting s r false) := by
    intro t s r
    rcases t with _ | t <;> simp [IoKernel.waits, bootIo, IoPc.socketWait]
  have hinv := socket_invariant
    (I := fun k => ConnectsAsleep k ∧ ∀ t r, k.Sleeps t r → k.Queued r) h
    ⟨fun t s r hw => absurd hw (hboot t s r), fun t r hs => absurd hs.waits.choose_spec
      (hboot t _ r)⟩
    fun k e k' ret hs hI hok _ he =>
      ⟨hI.1.socketStep hs.roles he, fun t r hr => he.queued hs.roles hI.2 hok hI.1 hr⟩
  obtain ⟨hsound, -, hq⟩ := hinv
  obtain ⟨port, l, hp, hl⟩ := hq t r hs
  exact ⟨port, l, hp, isListener_of_bound hsound.roles hp, hl⟩

theorem connect_request_queued_run : ∃ k : IoKernel, k.Sleeps 1 0 ∧
    ∃ port l, k.portMap port = some l ∧ k.isListener l ∧ 0 ∈ k.queue l := by
  obtain ⟨k, hk, hp⟩ := exists_reach_of_guarded IoKernel.step (fun k _ => k.requests = [])
    (bootIo 0) [.socket 0 5, .listen 0 0, .socket 0 0, .createThread 0, .connect 1 1 5]
    (fun k => k.waits 1 = some (.connecting 1 0 false) ∧ k.requests = [⟨0, 1, ⟨[1]⟩⟩])
    (by decide +kernel)
  obtain ⟨hw, hreq⟩ := of_decide_eq_true hp
  have hreach : Reach IoKernel.step (fun k e => ¬LosesRequest k e) (bootIo 0) k := by
    refine hk.mono fun u e hok => ?_
    have hnone : u.requests = [] := of_decide_eq_true hok
    have hpend : ∀ r, ¬u.Pending r := by
      rintro r ⟨t, -, req, hr, -⟩
      simp [hnone] at hr
    intro hl
    cases hl with
    | drops s r _ _ hr => exact hpend r hr
    | overwrites s r r' req _ _ _ _ hr => exact hpend r' hr
    | closes f s l c r _ _ _ _ _ _ hr => exact hpend r hr
  have hs : k.Sleeps 1 0 := ⟨⟨1, hw⟩, ⟨0, 1, ⟨[1]⟩⟩, by simp [hreq]⟩
  exact ⟨k, hs, connect_request_queued hreach hs⟩

/-- The acceptor has no fid left: the request it has popped is in no queue any more, and its
thread sleeps on. -/
theorem request_dropped : ∃ k, Reach IoKernel.step Always (bootIo 0) k ∧ k.Sleeps 1 0 ∧
    ∀ s, 0 ∉ k.queue s := by
  obtain ⟨k, hk, hp⟩ := exists_reach_of_exec IoKernel.step (bootIo 0)
    ([.socket 0 5, .listen 0 0, .socket 0 0, .createThread 0, .connect 1 1 5] ++
      List.replicate 14 (.openNull 0) ++ [.accept 0 0 fun _ => 0])
    (fun k => k.waits 1 = some (.connecting 1 0 false) ∧ k.requests = [⟨0, 1, ⟨[1]⟩⟩] ∧
      k.sockets.length = 2 ∧ k.queue 0 = [] ∧ k.queue 1 = []) (by decide +kernel)
  obtain ⟨hw, hreq, hlen, h0, h1⟩ := of_decide_eq_true hp
  refine ⟨k, hk, ⟨⟨1, hw⟩, ⟨0, 1, ⟨[1]⟩⟩, by simp [hreq]⟩, fun s hs => ?_⟩
  match s with
  | 0 => simp [h0] at hs
  | 1 => simp [h1] at hs
  | s + 2 =>
    have hnone : k.union (s + 2) = none := field_none (by rw [hlen]; exact Nat.le_add_left 2 s)
    simp [IoKernel.queue, hnone] at hs

end Requests

end TinyOS
