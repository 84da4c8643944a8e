import TinyOS.Transfers
import TinyOS.RequestQueues

/-! Connections as two-way channels. The streams of both FCBs are overwritten by the second
`create_peer_pipe`, so that only the direction from the client to the server works, and
`ShutDown` never finds a socket. -/

namespace TinyOS

open Counting Transition Relation Duplex

inductive IoKernel.Accepting (k : IoKernel) (p : Pid) : IoEvent → Prop
  | call (t : ThreadId) (lsock : Int) (garbage : Nat → UInt8)
    (ht : k.threads[t]? = some ⟨p, .user⟩) :
    k.Accepting p (.accept t lsock garbage)
  | resume (t : ThreadId) (dev : List UInt8) (garbage : Nat → UInt8) (s : SockId)
    (ht : k.threads[t]? = some ⟨p, .accepting s⟩) : k.Accepting p (.proceed t dev garbage)

/-- `Accept` takes the request of the socket behind fid `cli`, and returns the fid of `srv`. -/
structure IoKernel.Connects (k : IoKernel) (e : IoEvent) (cli srv : Endpoint)
    (k' : IoKernel) : Prop where
  accepting : k.Accepting srv.pid e
  returns : ∃ bytes fids, k.stepRet e = some (k', some ⟨srv.fid, bytes, fids⟩)
  valid : srv.fid ≠ noFile
  request : ∃ s r req a, k.pops e = some (s, r) ∧ k.requests[r]? = some req ∧
    (k.core req.peer).bind (·.fcb) = some a ∧ getFcb k cli.pid cli.fid = some a

/-- The reads and writes of a connection on which nothing is shut. -/
structure FullDuplex (tr : Trace UInt8) : Prop where
  succeeds : ∀ d ∈ tr, d.2.val ≠ -1
  ordered : ∀ s, received s tr <+: sent s.other tr
  channel : ∃ y, Run .initial tr y

/-- The calls of a connection, `ShutDown` included, are those of a two-way channel. -/
structure ShutDownLaw (x : Transfer) : Prop where
  running : x.kernel.faulted = false
  channel : ∃ y, Run .initial x.done y

section Connection

variable {k k' : IoKernel} {cli srv : Endpoint} {e : IoEvent} {x : Transfer}
  {es : List TransferEvent}

/-- A stretch of `Accept` that returns a fid is one of its loop. -/
theorem IoKernel.Accepting.start {p : Pid} {v : Int} {bytes : List UInt8} {fids : List Nat}
    (h : k.Accepting p e) (hs : k.stepRet e = some (k', some ⟨v, bytes, fids⟩)) (hv : v ≠ noFile) :
    k.faulted = false ∧ ∃ t s b garbage, AcceptStart k t p s garbage e b ∧
      acceptLoop b t p s garbage = some (k', some ⟨v, bytes, fids⟩) := by
  obtain ⟨hrun, hstep⟩ := stepRet_cases hs
  refine ⟨hrun, ?_⟩
  cases h with
  | call t lsock garbage ht =>
    obtain ⟨p', res, ht', hcall, hsettle⟩ := stepRet_call rfl (fun _ _ => by simp) hs
    obtain rfl : p = p' := by simpa [ht] using ht'
    obtain rfl : sysAccept k t p lsock garbage = res := by simpa [IoKernel.call] using hcall
    rcases settle_cases hsettle with hacc | ⟨-, hret⟩
    · rcases sysAccept_cases hacc with ⟨-, hret⟩ | ⟨f, s, c, hf, hobj, hc, htype, hport, hloop⟩
      · obtain ⟨rfl, -⟩ : v = -1 ∧ _ := by simpa using hret
        exact absurd rfl hv
      · exact ⟨t, s, _, garbage, .call lsock f c ht hf hobj hc htype hport, hloop⟩
    · simp at hret
  | resume t dev garbage s ht =>
    cases hstep with
    | proceed _ y _ _ _ _ ht' hgo =>
      obtain rfl : y = ⟨p, .accepting s⟩ := by simpa [ht] using ht'.symm
      simp only [IoKernel.goOn] at hgo
      split at hgo
      · simp at hgo
      · rename_i hwait
        exact ⟨t, s, _, garbage, .resume dev ht hwait, by simpa using hgo⟩
    | call _ t' y _ _ he ht' hy hcall => simp [IoKernel.call] at hcall

theorem IoKernel.Connects.holds (hsound : Sound k) (h : k.Connects e cli srv k') :
    ∃ a f q c, (Transfer.initial k').Holds cli srv a f q c := by
  obtain ⟨bytes, fids, hret⟩ := h.returns
  obtain ⟨hrun, t, s, b, garbage, hstart, hloop⟩ := h.accepting.start hret h.valid
  obtain ⟨r, req, a, f, q, hpops, hreq, hfcb, hpipe, hway⟩ :=
    accept_one_way hrun hsound.counted hsound.queues.peers hstart hloop h.valid
  obtain ⟨s', r', req', a', hpops', hreq', hfcb', hcli⟩ := h.request
  obtain ⟨rfl, rfl⟩ : s = s' ∧ r = r' := by simpa [hpops] using hpops'
  obtain rfl : req = req' := by simpa [hreq] using hreq'
  obtain rfl : a = a' := by simpa [hfcb] using hfcb'
  have hcount : k'.Counted none := hsound.counted.step (e := e) (by simp [IoKernel.step, hret])
  have hflow : flow (PipeCb.initial f a garbage) = .initial := by
    simp only [flow, State.initial, State.mk.injEq, and_self, and_true]
    funext s
    cases s with
    | left => rfl
    | right => exact PipeCb.initial_queue f a garbage
  refine ⟨a, f, q, _, hcount, hway cli hcli, hpipe, PipeCb.initial_wellFormed f a garbage,
    by simp [PipeCb.initial], by simp [PipeCb.initial], fun t d hd => by
      simp [Transfer.initial] at hd,
    fun _ => ?_, fun d hd => absurd hd List.not_mem_nil, fun d hd => absurd hd List.not_mem_nil⟩
  rw [hflow]
  exact .nil

/-- The calls of a connection that have returned, in a run without `ShutDown`. -/
theorem Transfer.Holds.forward_iff {a f : FcbId} {q : PipeId} {c : PipeCb}
    (h : x.Holds cli srv a f q c) :
    x.AllForward ↔ ∃ y, Run .initial x.done y := by
  constructor
  · intro hall
    exact ⟨_, h.law hall⟩
  · rintro ⟨y, hy⟩ d hd
    by_contra hback
    exact hy.never_fails h.unshut d hd (h.back d hd (by simpa using hback))

theorem initial_allForward (k : IoKernel) : (Transfer.initial k).AllForward :=
  fun _ hd => absurd hd List.not_mem_nil

variable {serialPorts : Nat}

/-- Init connects its fid 1 to the listener at fid 0; `Accept` is about to return fid 2. -/
def peersSetup : List IoEvent :=
  [.socket 0 5, .listen 0 0, .socket 0 0, .createThread 0, .connect 1 1 5]

def peersAccept : IoEvent := .accept 0 0 fun _ => 0

/-- Whether the calls `es` on that connection end as `p` says. -/
def peersRun (es : List TransferEvent) (p : Transfer → Bool) : Bool :=
  (exec IoKernel.step (bootIo 0) peersSetup).any fun k =>
    decide (k.threads[0]? = some ⟨1, .user⟩ ∧ k.pops peersAccept = some (0, 0) ∧
      (k.requests[0]?).map (·.peer) = some 1 ∧ (k.core 1).bind (·.fcb) = some 1 ∧
      getFcb k 1 1 = some 1) &&
    (k.stepRet peersAccept).any fun r => decide (r.2 = some ⟨2, [], []⟩) &&
      (exec (Transfer.step (endsOf ⟨1, 1⟩ ⟨1, 2⟩)) (.initial r.1) es).any p

theorem exists_of_peersRun {l : List TransferEvent} {p : Transfer → Bool}
    (h : peersRun l p = true) :
    ∃ k k' x, Reach IoKernel.step Always (bootIo 0) k ∧ k.Connects peersAccept ⟨1, 1⟩ ⟨1, 2⟩ k' ∧
      exec (Transfer.step (endsOf ⟨1, 1⟩ ⟨1, 2⟩)) (.initial k') l = some x ∧ p x = true := by
  obtain ⟨k, hk, hr⟩ := (Option.any_eq_true ..).mp h
  obtain ⟨hfacts, hr⟩ := Bool.and_eq_true_iff.mp hr
  obtain ⟨hthread, hpops, hreq, hfcb, hcli⟩ := of_decide_eq_true hfacts
  obtain ⟨⟨k', ret⟩, hret, hr⟩ := (Option.any_eq_true ..).mp hr
  obtain ⟨hfid, hr⟩ := Bool.and_eq_true_iff.mp hr
  obtain ⟨x, hx, hp⟩ := (Option.any_eq_true ..).mp hr
  obtain ⟨req, hget, hpeer⟩ := Option.map_eq_some_iff.mp hreq
  obtain rfl : ret = some ⟨2, [], []⟩ := of_decide_eq_true hfid
  refine ⟨k, k', x, reach_of_exec hk,
    ⟨.call 0 0 _ hthread, ⟨[], [], hret⟩, by decide, 0, 0, req, 1, hpops, hget,
    ?_, hcli⟩, hx, hp⟩
  rw [hpeer]
  exact hfcb

/-- Without `ShutDown`, a connection is full duplex in those runs in which the client only writes
and the server only reads. -/
theorem connection_full_duplex (h : Reach IoKernel.step Always (bootIo serialPorts) k)
    (hconn : k.Connects e cli srv k') (hno : ∀ ev ∈ es, ev.isShut = false)
    (hrun : exec (Transfer.step (endsOf cli srv)) (.initial k') es = some x) :
    FullDuplex x.done ↔ ∀ ev ∈ es, ev.isForward = true := by
  obtain ⟨a, f, q, c, hholds⟩ := hconn.holds (sound_of_reach h)
  rcases hholds.run hrun with ⟨⟨ev, hev, hshut⟩, -⟩ | ⟨-, ⟨c', hend⟩, hall⟩
  · rw [hno ev hev] at hshut
    simp at hshut
  have hiff : (∃ y, Run .initial x.done y) ↔ ∀ ev ∈ es, ev.isForward = true := by
    rw [← hend.forward_iff, hall]
    exact and_iff_right (initial_allForward k')
  rw [← hiff]
  constructor
  · intro hfull
    exact hfull.channel
  · rintro ⟨y, hy⟩
    exact ⟨hy.never_fails hend.unshut, hy.received_prefix, y, hy⟩

theorem connection_full_duplex_run : ∃ x : Transfer, x.done.length = 2 ∧ FullDuplex x.done := by
  obtain ⟨k, k', x, hk, hconn, hx, hp⟩ := exists_of_peersRun
    (l := [.write 0 .left [7, 8, 9], .read 0 .right 2]) (p := fun x => x.done.length = 2)
    (by decide +kernel)
  exact ⟨x, of_decide_eq_true hp, (connection_full_duplex hk hconn (by decide) hx).mpr (by decide)⟩

/-- What the server writes is refused. -/
theorem server_write_fails : ∃ k k' x, Reach IoKernel.step Always (bootIo 0) k ∧
    k.Connects peersAccept ⟨1, 1⟩ ⟨1, 2⟩ k' ∧
    exec (Transfer.step (endsOf ⟨1, 1⟩ ⟨1, 2⟩)) (.initial k') [.write 0 .right [7]] = some x ∧
    ¬FullDuplex x.done := by
  obtain ⟨k, k', x, hk, hconn, hx, hp⟩ := exists_of_peersRun (l := [.write 0 .right [7]])
    (p := fun x => x.done.any fun d => d.2.val = -1) (by decide +kernel)
  refine ⟨k, k', x, hk, hconn, hx, fun hfull => ?_⟩
  obtain ⟨d, hd, hval⟩ := List.any_eq_true.mp hp
  exact hfull.succeeds d hd (of_decide_eq_true hval)

/-- The calls of a connection are those of a two-way channel in the runs without `ShutDown` in
which the client only writes and the server only reads. -/
theorem connection_shutDown (h : Reach IoKernel.step Always (bootIo serialPorts) k)
    (hconn : k.Connects e cli srv k')
    (hrun : exec (Transfer.step (endsOf cli srv)) (.initial k') es = some x) :
    ShutDownLaw x ↔ ∀ ev ∈ es, ev.isForward = true := by
  obtain ⟨a, f, q, c, hholds⟩ := hconn.holds (sound_of_reach h)
  rcases hholds.run hrun with ⟨⟨ev, hev, hshut⟩, hfault⟩ | ⟨-, ⟨c', hend⟩, hall⟩
  · constructor
    · intro hlaw
      rw [hlaw.running] at hfault
      simp at hfault
    · intro hforward
      have hf := hforward ev hev
      cases ev <;> simp [TransferEvent.isShut, TransferEvent.isForward, TransferEvent.call, forward,
        Call.isShut] at hshut hf
  have hiff : (∃ y, Run .initial x.done y) ↔ ∀ ev ∈ es, ev.isForward = true := by
    rw [← hend.forward_iff, hall]
    exact and_iff_right (initial_allForward k')
  rw [← hiff]
  constructor
  · intro hlaw
    exact hlaw.channel
  · intro hy
    exact ⟨hend.way.running, hy⟩

theorem connection_shutDown_run : ∃ x : Transfer, x.done.length = 1 ∧ ShutDownLaw x := by
  obtain ⟨k, k', x, hk, hconn, hx, hp⟩ := exists_of_peersRun (l := [.write 0 .left [7, 8, 9]])
    (p := fun x => x.done.length = 1) (by decide +kernel)
  exact ⟨x, of_decide_eq_true hp, (connection_shutDown hk hconn hx).mpr (by decide)⟩

/-- `ShutDown` takes the pipe of a connected socket for a socket. -/
theorem shutDown_faults : ∃ k k' x, Reach IoKernel.step Always (bootIo 0) k ∧
    k.Connects peersAccept ⟨1, 1⟩ ⟨1, 2⟩ k' ∧
    exec (Transfer.step (endsOf ⟨1, 1⟩ ⟨1, 2⟩)) (.initial k') [.shutDown 0 .left .read] = some x ∧
    ¬ShutDownLaw x := by
  obtain ⟨k, k', x, hk, hconn, hx, hp⟩ := exists_of_peersRun (l := [.shutDown 0 .left .read])
    (p := fun x => x.kernel.faulted) (by decide +kernel)
  refine ⟨k, k', x, hk, hconn, hx, fun hlaw => ?_⟩
  rw [hlaw.running] at hp
  simp at hp

end Connection

end TinyOS
