import TinyOS.SocketFields

/-! The calls on sockets, seen through the parts of the state that they change: the roles
and queues of sockets, the requests, the places of threads and the open files. -/

namespace TinyOS

open Counting Transition Relation

def SocketUnion.requests : SocketUnion → List ReqId
  | .queue q => q
  | _ => []

def IoKernel.union (k : IoKernel) (s : SockId) : Option SocketUnion := k.field (·.union) s

def IoKernel.queue (k : IoKernel) (s : SockId) : List ReqId :=
  (k.union s).elim [] SocketUnion.requests

def IoKernel.waiters (k : IoKernel) (s : SockId) : List ThreadId :=
  (k.field (·.reqAvailable) s).elim [] (·.waitset)

def IoKernel.sleepers (k : IoKernel) (r : ReqId) : List ThreadId :=
  (k.requests[r]?).elim [] (·.connectedCv.waitset)

/-- The request that a thread at the loop of `sys_Accept` pops. -/
def IoKernel.head (k : IoKernel) (s : SockId) : Option (SockId × ReqId) :=
  (k.core s).bind fun c =>
    if k.portMap c.port = none then none else (k.queue s).head?.map fun r => (s, r)

def IoKernel.pops (k : IoKernel) : IoEvent → Option (SockId × ReqId)
  | .accept t lsock _ =>
    match k.threads[t]? with
    | some ⟨p, .user⟩ =>
      (getFcb k p lsock).bind fun f =>
        match (k.files.ft f).streamobj with
        | .socket s => (k.core s).bind fun c => if c.type = .listener then k.head s else none
        | _ => none
    | _ => none
  | .proceed t _ _ =>
    match k.threads[t]? with
    | some ⟨_, .accepting s⟩ => if t ∈ k.waiters s then none else k.head s
    | _ => none
  | _ => none

def IoKernel.hasRoom (k : IoKernel) (p : Pid) : Bool :=
  (List.range maxFileid).any (fun i => (k.procs p).fidt i = none) && !k.files.fcbFreelist.isEmpty

/-- The request that a step pops and then connects. -/
def IoKernel.admits (k : IoKernel) (e : IoEvent) : Option (SockId × ReqId) :=
  (k.pops e).filter fun _ =>
    (e.thread.bind fun t => k.threads[t]?).any fun y => k.hasRoom y.pid

def IoKernel.PeersValid (k : IoKernel) : Prop :=
  ∀ (r : ReqId) (req : ConnectionRequest), k.requests[r]? = some req → ∃ c, k.core req.peer = some c

/-- Nothing happens but that thread `t` gets to another place. -/
structure IoKernel.Moves (k k' : IoKernel) (t : ThreadId) (pc : Option IoPc) : Prop where
  core : k'.core = k.core
  portMap : k'.portMap = k.portMap
  history : k'.history = k.history
  free : k'.files.fcbFreelist = k.files.fcbFreelist
  stream : ∀ f, k'.files.stream f = k.files.stream f
  waits : ∀ t', k'.waits t' = if t' = t then pc else k.waits t'

section Fields

variable {k k' : IoKernel} {s : SockId} {t : ThreadId} {y : IoThread} {c : SocketCb}

theorem union_of_get (hc : k.sockets[s]? = some c) : k.union s = some c.union := field_of_get _ hc

theorem queue_of_union {u : SocketUnion} (hu : k.union s = some u) : k.queue s = u.requests := by
  simp [IoKernel.queue, hu]

theorem queue_congr (h : k'.union s = k.union s) : k'.queue s = k.queue s := by
  simp only [IoKernel.queue, h]

theorem waiters_of_get (hc : k.sockets[s]? = some c) : k.waiters s = c.reqAvailable.waitset := by
  simp [IoKernel.waiters, field_of_get _ hc]

theorem waiters_eq (k : IoKernel) (s : SockId) :
    k.waiters s = (k.sockets[s]?).elim [] (·.reqAvailable.waitset) := by
  cases h : k.sockets[s]? <;> simp [IoKernel.waiters, IoKernel.field, h]

theorem waiters_congr (h : k'.field (·.reqAvailable) s = k.field (·.reqAvailable) s) :
    k'.waiters s = k.waiters s := by
  simp only [IoKernel.waiters, h]

theorem waits_setPc_of (ht : k.threads[t]? = some y) (pc : IoPc) (t' : ThreadId) :
    (k.setPc t pc).waits t' = if t' = t then pc.socketWait else k.waits t' := by
  by_cases h : t' = t
  · subst h
    simp [IoKernel.waits, IoKernel.setPc, ht]
  · have hne : t ≠ t' := Ne.symm h
    simp [IoKernel.waits, IoKernel.setPc, h, hne]

theorem waits_congr (ht : k'.threads = k.threads) : k'.waits = k.waits := by
  funext t
  simp only [IoKernel.waits, ht]

theorem waits_of_get (ht : k.threads[t]? = some y) : k.waits t = y.pc.socketWait := by
  simp [IoKernel.waits, ht]

end Fields

/-! ### Accept -/

/-- The kernel `b` in which thread `t` enters the loop of `sys_Accept` for socket `s`. -/
structure IoKernel.Started (k : IoKernel) (t : ThreadId) (p : Pid) (s : SockId) (e : IoEvent)
    (b : IoKernel) : Prop where
  moves : k.Moves b t none
  union : b.union = k.union
  waiters : b.waiters = k.waiters
  requests : b.requests = k.requests
  procs : b.procs = k.procs
  length : b.sockets.length = k.sockets.length
  thread : b.threads[t]? = some ⟨p, .user⟩
  pops : k.pops e = k.head s
  admits : k.admits e = (k.head s).filter fun _ => k.hasRoom p

inductive AcceptOutcome (k : IoKernel) (t : ThreadId) (p : Pid) (s : SockId) (e : IoEvent)
    (c : SocketCore) : IoKernel → Option IoRet → Prop
  | waits (k' : IoKernel) (hk : k.Moves k' t (some (.accepting s)))
    (hreq : k'.requests = k.requests)
    (hempty : k.union s = some (.queue [])) (hport : k.portMap c.port ≠ none)
    (hunion : k'.union = k.union)
    (hwaiters : ∀ x, k'.waiters x = if x = s then k.waiters s ++ [t] else k.waiters x) :
    AcceptOutcome k t p s e c k' none
  | refused (k' : IoKernel) (hk : k.Moves k' t none) (hreq : k'.requests = k.requests)
    (hport : k.portMap c.port = none) (hunion : k'.union = k.union)
    (hwaiters : k'.waiters = k.waiters) :
    AcceptOutcome k t p s e c k' (some ⟨-1, [], []⟩)
  | dropped (k' : IoKernel) (r : ReqId) (rest : List ReqId) (hk : k.Moves k' t none)
    (hreq : k'.requests = k.requests) (hpops : k.pops e = some (s, r))
    (hq : k.union s = some (.queue (r :: rest))) (hport : k.portMap c.port ≠ none)
    (hroom : k.NoRoom p c.port)
    (hunion : ∀ x, k'.union x = if x = s then some (.queue rest) else k.union x)
    (hwaiters : k'.waiters = k.waiters)
    (hadmits : k.admits e = (some (s, r)).filter fun _ => k.hasRoom p) :
    AcceptOutcome k t p s e c k' (some ⟨-1, [], []⟩)
  | admitted (k' : IoKernel) (r : ReqId) (rest : List ReqId) (req : ConnectionRequest) (i : Nat)
    (f : FcbId) (rest' : List FcbId) (a : FcbId) (hpops : k.pops e = some (s, r))
    (hadmits : k.admits e = some (s, r))
    (hq : k.union s = some (.queue (r :: rest))) (hport : k.portMap c.port ≠ none)
    (hreq : k.requests[r]? = some req) (hf : k.Free p i f rest')
    (hacc : (k.core req.peer).bind (·.fcb) = some a)
    (hcore : ∀ x, k'.core x =
      if x = k.sockets.length then some ⟨.peer, some f, c.port⟩ else k.core x)
    (hnew : k'.queue k.sockets.length = []) (hpeer : ∃ w r, k'.union req.peer = some (.pipes w r))
    (hunion : ∀ x, x ≠ k.sockets.length → x ≠ req.peer →
      k'.union x = if x = s then some (.queue rest) else k.union x)
    (hwaiters : k'.waiters = k.waiters) (hreqs : k'.requests = (k.setAdmitted r).requests)
    (hmap : k'.portMap = k.portMap) (hhist : k'.history = k.history ++ [.accepted r i])
    (hwaits : ∀ t', k'.waits t' = if t' = t then none else k.waits t')
    (hfree : k'.files.fcbFreelist = rest')
    (hkeep : ∀ g, g ≠ f → g ≠ a → k'.files.stream g = k.files.stream g)
    (hover : ∀ g, g = f ∨ g = a → ∀ x, (k'.files.stream g).1 ≠ .socket x) :
    AcceptOutcome k t p s e c k' (some ⟨i, [], []⟩)

section Accept

variable {k k' b : IoKernel} {s : SockId} {t : ThreadId} {p : Pid} {e : IoEvent} {c : SocketCb}
  {ret : Option IoRet} {garbage : Nat → UInt8}

theorem AcceptStart.started (hb : AcceptStart k t p s garbage e b) : k.Started t p s e b := by
  cases hb with
  | call lsock f c ht hf hobj hc htype hport =>
    have hpops : k.pops (.accept t lsock garbage) = k.head s := by
      have hcore : k.core s = some c.core := core_of_get hc
      have hlist : c.core.type = .listener := htype
      simp [IoKernel.pops, ht, hf, hobj, hcore, hlist]
    refine ⟨⟨core_setSocket_same fun _ => rfl, rfl, rfl, rfl, fun _ => rfl, fun t' => ?_⟩,
      field_setSocket_same fun _ => rfl, ?_, rfl, rfl,
        by simp [IoKernel.addRef, IoKernel.setSocket], ht,
      hpops, ?_⟩
    · by_cases h : t' = t
      · subst h
        rw [if_pos rfl]
        exact waits_of_get ht
      · rw [if_neg h]
        rfl
    · have hcv := field_setSocket_same (φ := (·.reqAvailable)) (k := k) (s := s)
        (g := fun c => { c with refcount := c.refcount + 1 }) fun _ => rfl
      funext x
      exact waiters_congr (congrFun hcv x)
    · simp [IoKernel.admits, hpops, IoEvent.thread, ht]
  | resume dev ht hwait =>
    rw [← waiters_eq] at hwait
    have hpops : k.pops (.proceed t dev garbage) = k.head s := by
      simp [IoKernel.pops, ht, hwait]
    refine ⟨⟨rfl, rfl, rfl, rfl, fun _ => rfl, waits_setPc_of ht .user⟩, rfl, rfl, rfl, rfl, rfl,
      getElem?_setPc ht .user, hpops, ?_⟩
    simp [IoKernel.admits, hpops, IoEvent.thread, ht]

theorem IoKernel.Moves.trans {k'' : IoKernel} {pc pc' : Option IoPc} (h : k.Moves k' t pc)
    (h' : k'.Moves k'' t pc') : k.Moves k'' t pc' where
  core := h'.core.trans h.core
  portMap := h'.portMap.trans h.portMap
  history := h'.history.trans h.history
  free := h'.free.trans h.free
  stream f := (h'.stream f).trans (h.stream f)
  waits t' := by
    rw [h'.waits]
    split
    · rfl
    · rename_i hne
      rw [h.waits, if_neg hne]

theorem hasRoom_of_free {i : Nat} {f : FcbId} {rest : List FcbId} (hf : k.Free p i f rest) :
    k.hasRoom p = true := by
  have hany : (List.range maxFileid).any (fun i => decide ((k.procs p).fidt i = none)) = true :=
    List.any_eq_true.mpr ⟨i, List.mem_range.mpr hf.lt, by simpa using hf.empty⟩
  simp [IoKernel.hasRoom, hany, hf.free]

theorem head_of_queue {d : SocketCore} {r : ReqId} {rest : List ReqId} (hc : k.core s = some d)
    (hport : k.portMap d.port ≠ none) (hq : k.union s = some (.queue (r :: rest))) :
    k.head s = some (s, r) := by
  simp [IoKernel.head, hc, hport, queue_of_union hq, SocketUnion.requests]

/-- A change of one control block that leaves its core alone, by the running thread. -/
theorem setSocket_moves {g : SocketCb → SocketCb} {y : IoThread} (hg : ∀ c, (g c).core = c.core)
    (ht : k.threads[t]? = some y) (hy : y.pc.socketWait = none) :
    k.Moves (k.setSocket s g) t none where
  core := core_setSocket_same hg
  portMap := rfl
  history := rfl
  free := rfl
  stream _ := rfl
  waits t' := by
    by_cases h : t' = t
    · subst h
      rw [if_pos rfl]
      exact (waits_of_get ht).trans hy
    · rw [if_neg h]
      rfl

theorem union_setUnion (hs : s < k.sockets.length) (w r : PipeId) (x : SockId) :
    (k.setUnion s w r).union x = if x = s then some (.pipes (some w) (some r)) else k.union x := by
  have hc := List.getElem?_eq_getElem hs
  exact field_setSocket hc x

theorem union_connectPeers {z : Nat → UInt8} {peer acc : SockId} {f a : FcbId}
    (hpeer : peer < k.sockets.length)
    (hacc : acc < k.sockets.length) (x : SockId) :
    ∃ w r w' r', (k.connectPeers peer acc f a z).union x =
      if x = acc then some (.pipes (some w) (some r))
      else if x = peer then some (.pipes (some w') (some r')) else k.union x := by
  refine ⟨(k.addPipe f a z).pipes.length, k.pipes.length, k.pipes.length,
    (k.addPipe f a z).pipes.length, ?_⟩
  have hlen : acc < (((k.addPipe f a z).addPipe a f z).setUnion peer k.pipes.length
      (k.addPipe f a z).pipes.length).sockets.length := by
    simpa [IoKernel.setUnion, IoKernel.setSocket, IoKernel.addPipe, IoKernel.setStream] using hacc
  have hfirst := union_setUnion (k := (k.addPipe f a z).addPipe a f z) hpeer k.pipes.length
    (k.addPipe f a z).pipes.length x
  have hsecond := union_setUnion hlen (k.addPipe f a z).pipes.length k.pipes.length x
  rw [hfirst] at hsecond
  exact hsecond

theorem acceptSocket_field {α : Type} {i : Nat} {f : FcbId} {l : List FcbId} {n : Int}
    (φ : SocketCb → α) (x : SockId) :
    (k.acceptSocket p i f l n).field φ x =
      if x = k.sockets.length then some (φ ⟨0, some f, .peer, n, .uninitialized, condInit⟩)
      else k.field φ x := by
  have hget : (((k.grab p i f l).setFidt p maxFileid (some f)).addSocket f n).sockets[
      k.sockets.length]? = some ⟨0, some f, .unbound, n, .uninitialized, condInit⟩ := by
    simp [IoKernel.addSocket, IoKernel.setStream, IoKernel.setFidt, IoKernel.setProc, IoKernel.grab]
  have hset := field_setSocket (φ := φ) (g := fun c => { c with type := .peer }) hget x
  have hold : x ≠ k.sockets.length →
      (((k.grab p i f l).setFidt p maxFileid (some f)).addSocket f n).field φ x = k.field φ x := by
    intro hx
    have happ := field_append (φ := φ) (k := k)
      (j := ((k.grab p i f l).setFidt p maxFileid (some f)).addSocket f n)
      (c := ⟨0, some f, .unbound, n, .uninitialized, condInit⟩) rfl x
    rwa [if_neg hx] at happ
  by_cases hx : x = k.sockets.length
  · rw [if_pos hx] at hset ⊢
    exact hset
  · rw [if_neg hx] at hset ⊢
    exact hset.trans (hold hx)

theorem acceptSocket_stream {i : Nat} {f g : FcbId} {rest : List FcbId} {port : Int} (hg : g ≠ f) :
    (k.acceptSocket p i f rest port).files.stream g = k.files.stream g := by
  have hfiles : (k.acceptSocket p i f rest port).files =
      (k.grab p i f rest).files.setStream f (.socket k.sockets.length) .socketFileOps := rfl
  rw [hfiles, stream_setStream, if_neg hg, stream_grab]

theorem pop_moves {l : List ReqId} (ht : k.threads[t]? = some ⟨p, .user⟩)
    (hc : k.sockets[s]? = some c) :
    k.Moves ((k.addRef s (-1)).setQueue s l) t none ∧
      (∀ x, ((k.addRef s (-1)).setQueue s l).union x =
        if x = s then some (.queue l) else k.union x) ∧
      ((k.addRef s (-1)).setQueue s l).waiters = k.waiters := by
  have href : k.Moves (k.addRef s (-1)) t none := setSocket_moves (fun _ => rfl) ht rfl
  have hget : (k.addRef s (-1)).sockets[s]? = some { c with refcount := c.refcount + -1 } := by
    simp [IoKernel.addRef, IoKernel.setSocket, hc]
  refine ⟨href.trans (setSocket_moves (fun _ => rfl) (k := k.addRef s (-1)) ht rfl),
    fun x => ?_, ?_⟩
  · have hu : (k.addRef s (-1)).union = k.union := field_setSocket_same fun _ => rfl
    have hset := field_setSocket (φ := (·.union)) (g := fun c => { c with union := .queue l })
      hget x
    rw [← hu]
    exact hset
  · funext x
    have href : (k.addRef s (-1)).field (·.reqAvailable) = k.field (·.reqAvailable) :=
      field_setSocket_same fun _ => rfl
    have hset : ((k.addRef s (-1)).setQueue s l).field (·.reqAvailable) =
        (k.addRef s (-1)).field (·.reqAvailable) := field_setSocket_same fun _ => rfl
    exact waiters_congr (congrFun (hset.trans href) x)

theorem IoKernel.Started.outcome_waits (hst : k.Started t p s e b) (hc : b.sockets[s]? = some c)
    (hunion : k.union s = some (.queue [])) (hport : k.portMap c.core.port ≠ none) :
    AcceptOutcome k t p s e c.core (b.waitAccept t s) none := by
  have hmoves : b.Moves (b.waitAccept t s) t (some (.accepting s)) := by
    refine ⟨core_setSocket_same fun _ => rfl, rfl, rfl, rfl, fun _ => rfl, fun t' => ?_⟩
    exact waits_setPc_of (k := b.setSocket s fun c =>
      { c with reqAvailable := kernelWait c.reqAvailable t }) hst.thread (.accepting s) t'
  refine .waits _ (hst.moves.trans hmoves) hst.requests hunion hport ?_ fun x => ?_
  · rw [← hst.union]
    exact field_setSocket_same fun _ => rfl
  · rw [← hst.waiters, waiters_of_get hc]
    have hset := field_setSocket (φ := (·.reqAvailable))
      (g := fun c => { c with reqAvailable := kernelWait c.reqAvailable t }) hc x
    have hfield : (b.waitAccept t s).field (·.reqAvailable) x = _ := hset
    by_cases hx : x = s
    · rw [if_pos hx] at hfield ⊢
      simp [IoKernel.waiters, hfield, kernelWait]
    · rw [if_neg hx] at hfield ⊢
      exact waiters_congr hfield

theorem IoKernel.Started.outcome_refused (hst : k.Started t p s e b)
    (hport : k.portMap c.core.port = none) :
    AcceptOutcome k t p s e c.core (b.addRef s (-1)) (some ⟨-1, [], []⟩) := by
  have hmoves : b.Moves (b.addRef s (-1)) t none :=
    setSocket_moves (fun _ => rfl) hst.thread rfl
  refine .refused _ (hst.moves.trans hmoves) hst.requests hport ?_ ?_
  · rw [← hst.union]
    exact field_setSocket_same fun _ => rfl
  · have hcv : (b.addRef s (-1)).field (·.reqAvailable) = b.field (·.reqAvailable) :=
      field_setSocket_same fun _ => rfl
    rw [← hst.waiters]
    funext x
    exact waiters_congr (congrFun hcv x)

/-- The kernel `j` in which the first request in the queue of `s` has been popped, and `rest` is
what the queue still holds. -/
structure IoKernel.Popped (k : IoKernel) (t : ThreadId) (s : SockId) (rest : List ReqId)
    (j : IoKernel) : Prop where
  moves : k.Moves j t none
  union : ∀ x, j.union x = if x = s then some (.queue rest) else k.union x
  waiters : j.waiters = k.waiters
  requests : j.requests = k.requests
  procs : j.procs = k.procs
  length : j.sockets.length = k.sockets.length

theorem IoKernel.Started.popped (hst : k.Started t p s e b) (hc : b.sockets[s]? = some c)
    (rest : List ReqId) : k.Popped t s rest ((b.addRef s (-1)).setQueue s rest) := by
  obtain ⟨hmoves, hunion, hwaiters⟩ := pop_moves (l := rest) hst.thread hc
  refine ⟨hst.moves.trans hmoves, ?_, hwaiters.trans hst.waiters, hst.requests, hst.procs, ?_⟩
  · rwa [hst.union] at hunion
  · rw [← hst.length]
    simp [IoKernel.setQueue, IoKernel.addRef, IoKernel.setSocket]

section Popped

variable {j : IoKernel} {r : ReqId} {rest : List ReqId} {d : SocketCore} {i : Nat} {f a : FcbId}
  {rest' : List FcbId} {req : ConnectionRequest}

theorem IoKernel.Popped.free (hj : k.Popped t s rest j) (hf : j.Free p i f rest') :
    k.Free p i f rest' :=
  ⟨hf.lt, by rw [← hj.procs]; exact hf.empty, fun n hn => by rw [← hj.procs]; exact hf.least n hn,
    by rw [← hj.moves.free]; exact hf.free⟩

/-- No socket can be made for the request. -/
theorem IoKernel.Popped.outcome_dropped (hj : k.Popped t s rest j) (hst : k.Started t p s e b)
    (hhead : k.head s = some (s, r)) (hq : k.union s = some (.queue (r :: rest)))
    (hport : k.portMap d.port ≠ none) (hroom : j.NoRoom p d.port)
    (hk' : k' = j ∨ k' = j.setFidt p maxFileid none) :
    AcceptOutcome k t p s e d k' (some ⟨-1, [], []⟩) := by
  have hroom' : k.NoRoom p d.port := by
    rcases hroom with h | h | h
    · exact .inl h
    · exact .inr (.inl fun i hi => by rw [← hj.procs]; exact h i hi)
    · exact .inr (.inr (by rw [← hj.moves.free]; exact h))
  have hview : j.SameView k' := by
    rcases hk' with rfl | rfl
    · exact .refl _
    · exact setFidt_view _ p maxFileid none
  have hlast : j.Moves k' t none :=
    ⟨core_congr hview.sockets, hview.portMap, hview.history, hview.free, hview.stream, fun t' => by
      rw [hview.waits, hj.moves.waits]
      split <;> rfl⟩
  refine .dropped k' r rest (hj.moves.trans hlast) (hview.requests.trans hj.requests)
    (hst.pops.trans hhead) hq hport hroom' (fun x => ?_) ?_ (by rw [hst.admits, hhead])
  · rw [← hj.union]
    exact congrFun (field_congr hview.sockets) x
  · rw [← hj.waiters]
    funext x
    exact waiters_congr (congrFun (field_congr hview.sockets) x)

theorem IoKernel.Popped.acceptSocket_core (hj : k.Popped t s rest j) (p : Pid) (i : Nat)
    (f : FcbId) (rest' : List FcbId) (port : Int) (x : SockId) :
    (j.acceptSocket p i f rest' port).core x =
      if x = k.sockets.length then some ⟨.peer, some f, port⟩ else k.core x := by
  rw [← hj.length, ← hj.moves.core]
  exact acceptSocket_field SocketCb.core x

theorem IoKernel.Popped.acceptSocket_union (hj : k.Popped t s rest j) {x : SockId}
    (hx : x ≠ k.sockets.length) : (j.acceptSocket p i f rest' d.port).union x =
      if x = s then some (.queue rest) else k.union x := by
  rw [← hj.union]
  have hfield := acceptSocket_field (k := j) (p := p) (i := i) (f := f) (l := rest') (n := d.port)
    (·.union) x
  rwa [hj.length, if_neg hx] at hfield

theorem IoKernel.Popped.acceptSocket_waiters (hj : k.Popped t s rest j) :
    (j.acceptSocket p i f rest' d.port).waiters = k.waiters := by
  funext x
  have hfield := acceptSocket_field (k := j) (p := p) (i := i) (f := f) (l := rest') (n := d.port)
    (·.reqAvailable) x
  rw [← hj.waiters]
  by_cases hx : x = j.sockets.length
  · rw [if_pos hx] at hfield
    have hnone : j.field (·.reqAvailable) x = none := field_none (Nat.le_of_eq hx.symm)
    simp [IoKernel.waiters, hfield, hnone, condInit]
  · rw [if_neg hx] at hfield
    exact waiters_congr hfield

theorem IoKernel.Popped.acceptSocket_length (hj : k.Popped t s rest j) (p : Pid) (i : Nat)
    (f : FcbId) (rest' : List FcbId) (port : Int) :
    (j.acceptSocket p i f rest' port).sockets.length = k.sockets.length + 1 := by
  simp [IoKernel.acceptSocket, IoKernel.addSocket, IoKernel.setStream, IoKernel.setSocket,
    IoKernel.setFidt, IoKernel.setProc, IoKernel.grab, hj.length]

theorem connectPeers_waiters (j : IoKernel) (acc peer : SockId) (f a : FcbId)
    (garbage : Nat → UInt8) :
    (j.connectPeers acc peer f a garbage).waiters = j.waiters := by
  funext x
  exact waiters_congr
    (congrFun (field_connectPeers (φ := (·.reqAvailable)) (fun _ _ => rfl) acc peer a garbage) x)

/-- The new socket is connected to the one that asked. -/
theorem IoKernel.Popped.outcome_admitted (hj : k.Popped t s rest j) (hst : k.Started t p s e b)
    (hpeers : k.PeersValid) (hhead : k.head s = some (s, r))
    (hq : k.union s = some (.queue (r :: rest))) (hport : k.portMap d.port ≠ none)
    (hreq : j.requests[r]? = some req) (hf : j.Free p i f rest')
    (ha : ((j.acceptSocket p i f rest' d.port).sockets[req.peer]?).bind (·.fcb) = some a) :
    AcceptOutcome k t p s e d ((((j.acceptSocket p i f rest' d.port).connectPeers
      j.sockets.length req.peer f a garbage).setAdmitted r).record (.accepted r i))
      (some ⟨i, [], []⟩) := by
  rw [hj.requests] at hreq
  obtain ⟨x, hx⟩ := hpeers r req hreq
  have hlt := core_lt hx
  have hne : req.peer ≠ k.sockets.length := Nat.ne_of_lt hlt
  have hlen := hj.acceptSocket_length p i f rest' d.port
  have hcore := hj.acceptSocket_core p i f rest' d.port
  have hadmits : k.admits e = some (s, r) := by
    rw [hst.admits, hhead, Option.filter_some, hasRoom_of_free (hj.free hf), if_pos rfl]
  have hacc : (k.core req.peer).bind (·.fcb) = some a := by
    obtain ⟨y, hy, hya⟩ := Option.bind_eq_some_iff.mp ha
    have hcorePeer := hcore req.peer
    rw [if_neg hne, core_of_get hy] at hcorePeer
    rw [← hcorePeer]
    exact hya
  have hpipes := union_connectPeers (z := garbage) (f := f) (a := a)
    (show k.sockets.length < _ by rw [hlen]; exact Nat.lt_succ_self _)
    (show req.peer < _ by rw [hlen]; exact Nat.lt_succ_of_lt hlt)
  have hkeep : ∀ g, g ≠ f → g ≠ a → ((j.acceptSocket p i f rest' d.port).connectPeers
      k.sockets.length req.peer f a garbage).files.stream g = k.files.stream g := fun g hgf hga =>
    (stream_connectPeers k.sockets.length req.peer a garbage hgf hga).trans
      ((acceptSocket_stream hgf).trans (hj.moves.stream g))
  have hover : ∀ g, g = f ∨ g = a → ∀ x, (((j.acceptSocket p i f rest' d.port).connectPeers
      k.sockets.length req.peer f a garbage).files.stream g).1 ≠ .socket x := fun g hg =>
    stream_connectPeers_new k.sockets.length req.peer a garbage hg
  have hwaiters := (connectPeers_waiters (j.acceptSocket p i f rest' d.port) k.sockets.length
    req.peer f a garbage).trans hj.acceptSocket_waiters
  have hcoreK := core_connectPeers (k := j.acceptSocket p i f rest' d.port) (f := f)
    k.sockets.length req.peer a garbage
  rw [hj.length]
  obtain ⟨K, hK⟩ : ∃ K, K = (j.acceptSocket p i f rest' d.port).connectPeers k.sockets.length
    req.peer f a garbage := ⟨_, rfl⟩
  have hsame : K.requests = j.requests ∧ K.portMap = j.portMap ∧ K.history = j.history ∧
      K.threads = j.threads ∧ K.files.fcbFreelist = rest' := by
    rw [hK]
    exact ⟨rfl, rfl, rfl, rfl, rfl⟩
  rw [← hK] at hpipes hkeep hover hwaiters hcoreK ⊢
  obtain ⟨hreqs, hmap, hhist, hthreads, hfree⟩ := hsame
  refine .admitted _ r rest req i f rest' a (hst.pops.trans hhead) hadmits hq hport hreq
    (hj.free hf) hacc (fun x => ?_) ?_ ?_ (fun x hx hxp => ?_) hwaiters ?_
    (hmap.trans hj.moves.portMap) ?_ (fun t' => ?_) hfree hkeep hover
  · exact (congrFun hcoreK x).trans (hcore x)
  · obtain ⟨w, r1, w', r', hu⟩ := hpipes k.sockets.length
    rw [if_neg (Ne.symm hne), if_pos rfl] at hu
    exact queue_of_union hu
  · obtain ⟨w, r1, w', r', hu⟩ := hpipes req.peer
    rw [if_pos rfl] at hu
    exact ⟨_, _, hu⟩
  · obtain ⟨w, r1, w', r', hu⟩ := hpipes x
    rw [if_neg hxp, if_neg hx, hj.acceptSocket_union hx] at hu
    exact hu
  · show (K.setAdmitted r).requests = (k.setAdmitted r).requests
    simp only [IoKernel.setAdmitted, hreqs, hj.requests]
  · show K.history ++ _ = _
    rw [hhist, hj.moves.history]
  · have hwaits : ((K.setAdmitted r).record (.accepted r i)).waits = j.waits := waits_congr hthreads
    rw [hwaits]
    exact hj.moves.waits t'

end Popped

theorem accept_outcome (hpeers : k.PeersValid)
    (hb : AcceptStart k t p s garbage e b) (hr : acceptLoop b t p s garbage = some (k', ret)) :
    ∃ c, k.core s = some c ∧ AcceptOutcome k t p s e c k' ret := by
  have hst := hb.started
  obtain ⟨c, q, hc, hq, hcases⟩ := acceptLoop_cases hr
  have hcore : k.core s = some c.core := by
    rw [← hst.moves.core]
    exact core_of_get hc
  have hunion : k.union s = some (.queue q) := by
    rw [← hst.union, union_of_get hc, hq]
  rw [hst.moves.portMap] at hcases
  refine ⟨c.core, hcore, ?_⟩
  rcases hcases with ⟨rfl, hport, rfl, rfl⟩ | ⟨hport, rfl, rfl⟩ | ⟨r, rest, rfl, hport, hreq⟩
  · exact hst.outcome_waits hc hunion hport
  · exact hst.outcome_refused hport
  · have hhead := head_of_queue hcore hport hunion
    have hpop := hst.popped hc rest
    rcases acceptRequest_cases hreq with
      ⟨rfl, hroom, hk'⟩ | ⟨req, i, f, rest', a, hget, hf, ha, rfl, rfl⟩
    · exact hpop.outcome_dropped hst hhead hunion hport hroom hk'
    · exact hpop.outcome_admitted hst hpeers hhead hunion hport hget hf ha

end Accept

/-! ### All steps -/

structure SocketView where
  core : SockId → Option SocketCore
  union : SockId → Option SocketUnion
  waiters : SockId → List ThreadId
  requests : List ConnectionRequest
  portMap : Int → Option SockId
  history : List RequestEvent
  waits : ThreadId → Option IoPc
  free : List FcbId
  stream : FcbId → StreamObj × Option FileOps

def IoKernel.view (k : IoKernel) : SocketView :=
  ⟨k.core, k.union, k.waiters, k.requests, k.portMap, k.history, k.waits, k.files.fcbFreelist,
    k.files.stream⟩

/-- A thread sleeps, or gives up sleeping, for a request. -/
def changeCv (g : CondVar → CondVar) (c : ConnectionRequest) : ConnectionRequest :=
  { c with connectedCv := g c.connectedCv }

inductive IoKernel.Listens (k : IoKernel) : IoEvent → SockId → Prop
  | mk (t : ThreadId) (p : Pid) (sock : Int) (f : FcbId) (s : SockId) (c : SocketCore)
    (ht : k.threads[t]? = some ⟨p, .user⟩) (hf : getFcb k p sock = some f) (hl : k.Leads f s)
    (hc : k.core s = some c) (h0 : 0 < c.port) (hmax : c.port ≤ maxPort)
    (hport : k.portMap c.port = none) (htype : c.type = .unbound) : Listens k (.listen t sock) s

inductive IoKernel.Asks (k : IoKernel) : IoEvent → FcbId → SockId → Prop
  | mk (t : ThreadId) (p : Pid) (sock port : Int) (f : FcbId) (s l : SockId) (c : SocketCore)
    (ht : k.threads[t]? = some ⟨p, .user⟩) (hf : getFcb k p sock = some f) (hl : k.Leads f s)
    (hc : k.core s = some c) (htype : c.type = .unbound) (href : k.field (·.refcount) s = some 0)
    (hport : k.portMap port = some l) : Asks k (.connect t sock port) f s

inductive SocketStep (k : IoKernel) : IoEvent → IoKernel → Option IoRet → Prop
  | files {e : IoEvent} {k' : IoKernel} {ret : Option IoRet}
    (h : ReflTransGen (FileEffect (k.Frees e)) k k') :
    SocketStep k e k' ret
  | socket (t : ThreadId) (p : Pid) (i : Nat) (f : FcbId) (rest : List FcbId) (port : Int)
    {k' : IoKernel} {ret : Option IoRet} (hf : k.Free p i f rest) (h0 : 0 ≤ port)
    (hmax : port ≤ maxPort) (hv : k'.view = { k.view with
      core := Function.update k.core k.sockets.length (some ⟨.unbound, some f, port⟩)
      union := Function.update k.union k.sockets.length (some .uninitialized)
      free := rest
      stream := Function.update k.files.stream f
        (.socket k.sockets.length, some .socketFileOps) }) :
    SocketStep k (.socket t port) k' ret
  | half (t : ThreadId) (p : Pid) (garbage : Nat → UInt8) (f : FcbId) (rest : List FcbId)
    {k' : IoKernel} {ret : Option IoRet} (ht : k.threads[t]? = some ⟨p, .user⟩)
    (hhalf : k.halfPipe p = true) (hf : k.files.fcbFreelist = f :: rest)
    (hv : k'.view = { k.view with free := rest }) : SocketStep k (.pipe t garbage) k' ret
  | listen (t : ThreadId) (sock : Int) (f : FcbId) (s : SockId) (c : SocketCore) {k' : IoKernel}
    {ret : Option IoRet} (hl : k.Leads f s) (hc : k.core s = some c) (h0 : 0 < c.port)
    (hmax : c.port ≤ maxPort) (hport : k.portMap c.port = none) (htype : c.type = .unbound)
    (hv : k'.view = { k.view with
      core := Function.update k.core s (some ⟨.listener, c.fcb, c.port⟩)
      union := Function.update k.union s (some (.queue []))
      waiters := Function.update k.waiters s []
      portMap := Function.update k.portMap c.port (some s) })
    (hcall : k.Listens (.listen t sock) s) : SocketStep k (.listen t sock) k' ret
  | accept {e : IoEvent} (t : ThreadId) (p : Pid) (s : SockId) (c : SocketCore) {k' : IoKernel}
    {ret : Option IoRet} (hc : k.core s = some c)
    (hstart : (k.waits t = none ∧ ∃ f, k.Leads f s) ∨
      (k.waits t = some (.accepting s) ∧ t ∉ k.waiters s ∧ ∃ dev garbage,
        e = .proceed t dev garbage))
    (h : AcceptOutcome k t p s e c k' ret) : SocketStep k e k' ret
  | connect (t : ThreadId) (sock port : Int) (f : FcbId) (s l : SockId) (c lc : SocketCore)
    (q : List ReqId) {k' : IoKernel} {ret : Option IoRet} (hwait : k.waits t = none)
    (hl : k.Leads f s)
    (hc : k.core s = some c) (htype : c.type = .unbound) (hport : k.portMap port = some l)
    (hlc : k.core l = some lc) (hlt : lc.type = .listener) (hq : k.union l = some (.queue q))
    (hv : k'.view = { k.view with
      union := Function.update k.union l (some (.queue (q ++ [k.requests.length])))
      waiters := Function.update k.waiters l (k.waiters l).tail
      requests := k.requests ++ [⟨0, s, ⟨[t]⟩⟩]
      history := k.history ++ [.requested k.requests.length]
      waits := Function.update k.waits t (some (.connecting s k.requests.length false)) })
    (hcall : k.Asks (.connect t sock port) f s) : SocketStep k (.connect t sock port) k' ret
  | retry (t : ThreadId) (s : SockId) (r : ReqId) (dev : List UInt8) (garbage : Nat → UInt8)
    (req : ConnectionRequest) {k' : IoKernel} (hwait : k.waits t = some (.connecting s r false))
    (hwake : t ∉ k.sleepers r) (hreq : k.requests[r]? = some req) (hadm : req.admitted ≠ 1)
    (hv : k'.view = { k.view with
      requests := k.requests.modify r (changeCv fun cv => kernelWait cv t) }) :
    SocketStep k (.proceed t dev garbage) k' none
  | leave (t : ThreadId) (s : SockId) (r : ReqId) (expired : Bool) (dev : List UInt8)
    (garbage : Nat → UInt8) (req : ConnectionRequest) (v : Int) {k' : IoKernel}
    (hwait : k.waits t = some (.connecting s r expired)) (hwake : t ∉ k.sleepers r)
    (hreq : k.requests[r]? = some req) (hdone : req.admitted = 1 ∨ expired = true)
    (hval : v = if req.admitted ≠ 1 then -1 else 0)
    (hv : k'.view = { k.view with
      history := k.history ++ [.returned r v]
      waits := Function.update k.waits t none }) :
    SocketStep k (.proceed t dev garbage) k' (some ⟨v, [], []⟩)
  | expire (t : ThreadId) (s : SockId) (r : ReqId) {k' : IoKernel} {ret : Option IoRet}
    (hwait : k.waits t = some (.connecting s r false)) (hsleep : t ∈ k.sleepers r)
    (hv : k'.view = { k.view with
      requests := k.requests.modify r (changeCv fun cv => cv.expire t)
      waits := Function.update k.waits t (some (.connecting s r true)) }) :
    SocketStep k (.timeout t) k' ret

section Steps

variable {k k' : IoKernel} {s : SockId} {t : ThreadId} {p : Pid} {e : IoEvent} {f : FcbId}
  {ret : Option IoRet}

theorem view_ext {v : SocketView} (hcore : ∀ s, k.core s = v.core s)
    (hunion : ∀ s, k.union s = v.union s)
    (hwaiters : ∀ s, k.waiters s = v.waiters s) (hreq : k.requests = v.requests)
    (hmap : k.portMap = v.portMap) (hhist : k.history = v.history)
    (hwaits : ∀ t, k.waits t = v.waits t)
    (hfree : k.files.fcbFreelist = v.free) (hstream : ∀ g, k.files.stream g = v.stream g) :
    k.view = v := by
  obtain ⟨core, union, waiters, requests, portMap, history, waits, free, stream⟩ := v
  simp only [IoKernel.view, SocketView.mk.injEq]
  exact ⟨funext hcore, funext hunion, funext hwaiters, hreq, hmap, hhist, funext hwaits, hfree,
    funext hstream⟩

theorem waits_some {pc : IoPc} {y : IoThread} (ht : k.threads[t]? = some y) (hy : y.pc = pc)
    (hpc : pc.socketWait = some pc) : k.waits t = some pc := by
  rw [waits_of_get ht, hy]
  exact hpc

theorem leads_of_getFcb (h : SocketRoles k) (hcount : k.Counted none) {sock : Int}
    (hf : getFcb k p sock = some f) (hobj : (k.files.ft f).streamobj = .socket s) :
    k.Leads f s := by
  obtain ⟨hv, hfree⟩ := inUse_of_getFcb hcount hf
  have hstream : (k.files.stream f).1 = .socket s := hobj
  exact ⟨hv, hfree, Prod.ext hstream (h.ops f s hstream)⟩

theorem SocketRoles.leads (h : SocketRoles k) (hl : k.Leads f s) :
    ∃ c, k.core s = some c ∧ c.type ≠ .peer :=
  h.role f s (congrArg Prod.fst hl.stream)

theorem SocketRoles.unbound_of_leads (h : SocketRoles k) (hl : k.Leads f s) {c : SocketCore}
    (hc : k.core s = some c) (ht : c.type ≠ .listener) : c.type = .unbound := by
  obtain ⟨d, hd, hdt⟩ := h.leads hl
  obtain rfl : c = d := Option.some.inj (hc.symm.trans hd)
  cases htype : c.type with
  | listener => exact absurd htype ht
  | unbound => rfl
  | peer => exact absurd htype hdt

theorem socket_view {i : Nat} {rest : List FcbId} (port : Int) :
    (((k.grab p i f rest).setFidt p maxFileid (some f)).addSocket f port).view = { k.view with
      core := Function.update k.core k.sockets.length (some ⟨.unbound, some f, port⟩)
      union := Function.update k.union k.sockets.length (some .uninitialized)
      free := rest
      stream :=
        Function.update k.files.stream f (.socket k.sockets.length, some .socketFileOps) } := by
  have hfield : ∀ {α : Type} (φ : SocketCb → α) x,
      (((k.grab p i f rest).setFidt p maxFileid (some f)).addSocket f port).field φ x =
        if x = k.sockets.length then some (φ ⟨0, some f, .unbound, port, .uninitialized, condInit⟩)
        else k.field φ x := fun φ x => field_append (k := k) rfl x
  refine view_ext (fun x => ?_) (fun x => ?_) (fun x => ?_) rfl rfl rfl
    (fun _ => rfl) rfl fun g => ?_
  · exact (hfield SocketCb.core x).trans (Function.update_apply k.core _ _ x).symm
  · exact (hfield (·.union) x).trans (Function.update_apply k.union _ _ x).symm
  · have hcv := hfield (·.reqAvailable) x
    by_cases hx : x = k.sockets.length
    · rw [if_pos hx] at hcv
      have hnone : k.field (·.reqAvailable) x = none := field_none (Nat.le_of_eq hx.symm)
      show IoKernel.waiters _ x = k.waiters x
      simp [IoKernel.waiters, hcv, hnone, condInit]
    · rw [if_neg hx] at hcv
      exact waiters_congr hcv
  · show
      ((k.grab p i f rest).files.setStream f (.socket k.sockets.length) .socketFileOps).stream g =
      Function.update k.files.stream f (.socket k.sockets.length, some .socketFileOps) g
    rw [stream_setStream, stream_grab, Function.update_apply]

theorem listen_view {c : SocketCb} (hc : k.sockets[s]? = some c) :
    (k.installListener s c.port).view = { k.view with
      core := Function.update k.core s (some ⟨.listener, c.core.fcb, c.core.port⟩)
      union := Function.update k.union s (some (.queue []))
      waiters := Function.update k.waiters s []
      portMap := Function.update k.portMap c.core.port (some s) } := by
  have hfield : ∀ {α : Type} (φ : SocketCb → α) x, (k.installListener s c.port).field φ x =
      if x = s then
        some (φ { c with type := .listener, union := .queue [], reqAvailable := condInit })
      else k.field φ x := fun φ x => field_setSocket_of rfl hc x
  refine view_ext (fun x => ?_) (fun x => ?_) (fun x => ?_) rfl rfl rfl
    (fun _ => rfl) rfl fun g => rfl
  · exact (hfield SocketCb.core x).trans (Function.update_apply k.core _ _ x).symm
  · exact (hfield (·.union) x).trans (Function.update_apply k.union _ _ x).symm
  · have hcv := hfield (·.reqAvailable) x
    show IoKernel.waiters _ x = Function.update k.waiters s [] x
    rw [Function.update_apply]
    by_cases hx : x = s
    · rw [if_pos hx] at hcv ⊢
      simp [IoKernel.waiters, hcv, condInit]
    · rw [if_neg hx] at hcv ⊢
      exact waiters_congr hcv

theorem connect_view {l : SockId} {lc : SocketCb} {q : List ReqId}
    (ht : k.threads[t]? = some ⟨p, .user⟩)
    (hlc : k.sockets[l]? = some lc) :
    ((k.addRequest s l q).waitConnect t s k.requests.length).view = { k.view with
      union := Function.update k.union l (some (.queue (q ++ [k.requests.length])))
      waiters := Function.update k.waiters l (k.waiters l).tail
      requests := k.requests ++ [⟨0, s, ⟨[t]⟩⟩]
      history := k.history ++ [.requested k.requests.length]
      waits := Function.update k.waits t (some (.connecting s k.requests.length false)) } := by
  have href : ∀ {α : Type} (φ : SocketCb → α), (∀ c n, φ { c with refcount := n } = φ c) →
      (k.addRef s 1).field φ = k.field φ := fun φ hφ => field_setSocket_same fun c => hφ c _
  obtain ⟨lc', hlc'⟩ : ∃ lc', (k.addRef s 1).sockets[l]? = some lc' := by
    have hlt : l < (k.addRef s 1).sockets.length := by
      simpa [IoKernel.addRef, IoKernel.setSocket] using (List.getElem?_eq_some_iff.mp hlc).1
    exact ⟨_, List.getElem?_eq_getElem hlt⟩
  have hfield : ∀ {α : Type} (φ : SocketCb → α), (∀ c n, φ { c with refcount := n } = φ c) → ∀ x,
      ((k.addRequest s l q).waitConnect t s k.requests.length).field φ x =
        if x = l then some (φ { lc' with
          union := .queue (q ++ [k.requests.length])
          reqAvailable := kernelSignal lc'.reqAvailable })
        else k.field φ x := by
    intro α φ hφ x
    rw [← href φ hφ]
    exact field_setSocket_of (k := k.addRef s 1) rfl hlc' x
  refine view_ext (fun x => ?_) (fun x => ?_) (fun x => ?_) ?_ rfl rfl
    (fun t' => ?_) rfl fun g => rfl
  · have hcore := hfield SocketCb.core (fun _ _ => rfl) x
    by_cases hx : x = l
    · rw [if_pos hx] at hcore
      have hold : (k.addRef s 1).core l = some lc'.core := core_of_get hlc'
      have hsame : (k.addRef s 1).core = k.core := href SocketCb.core fun _ _ => rfl
      rw [hsame, ← hx] at hold
      exact hcore.trans hold.symm
    · rw [if_neg hx] at hcore
      exact hcore
  · exact (hfield (·.union) (fun _ _ => rfl) x).trans (Function.update_apply k.union _ _ x).symm
  · have hcv := hfield (·.reqAvailable) (fun _ _ => rfl) x
    show IoKernel.waiters _ x = Function.update k.waiters l (k.waiters l).tail x
    rw [Function.update_apply]
    by_cases hx : x = l
    · rw [if_pos hx] at hcv ⊢
      have hold : (k.addRef s 1).waiters l = lc'.reqAvailable.waitset := waiters_of_get hlc'
      have hsame : (k.addRef s 1).waiters l = k.waiters l :=
        waiters_congr (congrFun (href (·.reqAvailable) fun _ _ => rfl) l)
      rw [← hsame, hold]
      simp [IoKernel.waiters, hcv, kernelSignal]
    · rw [if_neg hx] at hcv ⊢
      exact waiters_congr hcv
  · exact modify_concat k.requests ⟨0, s, condInit⟩ fun c =>
      { c with connectedCv := kernelWait c.connectedCv t }
  · show IoKernel.waits _ t' =
      Function.update k.waits t (some (.connecting s k.requests.length false)) t'
    rw [Function.update_apply]
    exact waits_setPc_of ht _ t'

theorem Effect.socketStep (h : SocketRoles k) (hcount : k.Counted none) (hpeers : k.PeersValid)
    (he : Effect k e k' ret) : SocketStep k e k' ret := by
  cases he with
  | files hchain => exact .files hchain
  | socket t p i f rest port hf h0 hmax =>
    exact .socket t p i f rest port hf h0 hmax (socket_view port)
  | half t p garbage i f rest ht hf hhalf =>
    refine .half t p garbage f rest ht hhalf hf.free ?_
    exact view_ext (fun _ => rfl) (fun _ => rfl) (fun _ => rfl) rfl rfl rfl
      (fun _ => rfl) rfl stream_grab
  | listen t p sock f s c hf hobj hc h0 hmax hport htype ht =>
    have hl := leads_of_getFcb h hcount hf hobj
    have hcore := core_of_get hc
    exact .listen t sock f s c.core hl hcore h0 hmax hport htype (listen_view hc)
      (.mk t p sock f s c.core ht hf hl hcore h0 hmax hport htype)
  | accept t p s b k' garbage hb hloop =>
    obtain ⟨c, hc, hout⟩ := accept_outcome hpeers hb hloop
    refine .accept t p s c hc ?_ hout
    cases hb with
    | call lsock f c ht hf hobj => exact .inl ⟨waits_of_get ht, f, leads_of_getFcb h hcount hf hobj⟩
    | resume dev ht hwait =>
      rw [← waiters_eq] at hwait
      exact .inr ⟨waits_some ht rfl rfl, hwait, dev, garbage, rfl⟩
  | connect t p sock port f s l c lc q ht hf hobj hc htype href hl hlc hlt hq =>
    have hleads := leads_of_getFcb h hcount hf hobj
    have hcore := core_of_get hc
    have hunbound := h.unbound_of_leads hleads hcore htype
    exact .connect t sock port f s l c.core lc.core q (waits_of_get ht) hleads hcore hunbound hl
      (core_of_get hlc) hlt ((union_of_get hlc).trans (congrArg some hq)) (connect_view ht hlc)
      (.mk t p sock port f s l c.core ht hf hleads hcore hunbound
        ((field_of_get _ hc).trans (congrArg some href)) hl)
  | goOn t p s r expired dev garbage k' ht hwait hloop =>
    have hwaits := waits_some (k := k) ht rfl rfl
    obtain ⟨req, hreq, ⟨hadm, rfl, rfl, rfl⟩ | ⟨hdone, rfl, rfl⟩⟩ := connectLoop_cases hloop
    · refine .retry t s r dev garbage req hwaits hwait hreq hadm ?_
      refine view_ext (fun x => rfl) (fun x => rfl) (fun x => rfl) rfl rfl rfl
        (fun t' => ?_) rfl fun g => rfl
      show IoKernel.waits _ t' = k.waits t'
      have h1 := waits_setPc_of (getElem?_setPc ht .user) (.connecting s r false) t'
      refine h1.trans ?_
      by_cases ht' : t' = t
      · rw [if_pos ht', ht']
        exact hwaits.symm
      · rw [if_neg ht', waits_setPc_of ht, if_neg ht']
    · have hfield : ∀ {α : Type} (φ : SocketCb → α), (∀ c n, φ { c with refcount := n } = φ c) →
          ((k.setPc t .user).addRef s (-1)).field φ = k.field φ :=
        fun φ hφ => field_setSocket_same (k := k.setPc t .user) fun c => hφ c _
      refine .leave t s r expired dev garbage req _ hwaits hwait hreq hdone rfl ?_
      refine view_ext (fun x => ?_) (fun x => ?_) (fun x => ?_) rfl rfl rfl
        (fun t' => ?_) rfl fun g => rfl
      · exact congrFun (hfield SocketCb.core fun _ _ => rfl) x
      · exact congrFun (hfield (·.union) fun _ _ => rfl) x
      · exact waiters_congr (congrFun (hfield (·.reqAvailable) fun _ _ => rfl) x)
      · show (k.setPc t .user).waits t' = Function.update k.waits t none t'
        rw [Function.update_apply]
        exact waits_setPc_of ht .user t'
  | expire t p s r ht hwait =>
    refine .expire t s r (waits_some ht rfl rfl) hwait ?_
    refine view_ext (fun x => rfl) (fun x => rfl) (fun x => rfl) rfl rfl rfl
      (fun t' => ?_) rfl fun g => rfl
    show IoKernel.waits _ t' = Function.update k.waits t (some (.connecting s r true)) t'
    rw [Function.update_apply]
    exact waits_setPc_of ht _ t'

end Steps

end TinyOS
