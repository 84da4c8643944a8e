import TinyOS.Lib.Duplex
import TinyOS.PipeQueue
import TinyOS.SocketSteps

/-! What `Accept` leaves behind: `create_peer_pipe` is called twice on the same two FCBs, and
the second call overwrites both streams. The client's FCB ends up as the write end of the
second pipe, the server's as its read end, and no FCB leads to the first pipe or to a
socket. -/

namespace TinyOS

open Counting Transition Relation

structure Endpoint where
  pid : Pid
  fid : Int

/-- FCB `a` of the client is the write end of pipe `q`, and FCB `f` of the server its read end. -/
structure OneWay (k : IoKernel) (cli srv : Endpoint) (a f : FcbId) (q : PipeId) : Prop where
  running : k.faulted = false
  cli : getFcb k cli.pid cli.fid = some a
  srv : getFcb k srv.pid srv.fid = some f
  ne : a ≠ f
  cliStream : k.files.stream a = (.pipe q, some .writerFileOps)
  srvStream : k.files.stream f = (.pipe q, some .readerFileOps)

section Connection

variable {k k' b : IoKernel} {s : SockId} {t : ThreadId} {p : Pid} {e : IoEvent}
  {garbage : Nat → UInt8}

theorem getFcb_congr {fd : Int} (h : (k'.procs p).fidt fd.toNat = (k.procs p).fidt fd.toNat) :
    getFcb k' p fd = getFcb k p fd := by
  simp only [getFcb, h]

/-- The fids of the new connection: that of the server is new, the others are as before. -/
theorem acceptSocket_getFcb {i : Nat} {f : FcbId} {rest : List FcbId} {n : Int}
    (hf : k.Free p i f rest) :
    getFcb (k.acceptSocket p i f rest n) p i = some f ∧
      ∀ p' fd a, getFcb k p' fd = some a → getFcb (k.acceptSocket p i f rest n) p' fd = some a := by
  have hprocs : ∀ p' j, j < maxFileid → ((k.acceptSocket p i f rest n).procs p').fidt j =
      if p' = p ∧ j = i then some f else (k.procs p').fidt j := by
    intro p' j hj
    have hjm : j ≠ maxFileid := Nat.ne_of_lt hj
    by_cases hp : p' = p
    · subst hp
      by_cases hji : j = i
      · subst hji
        simp [IoKernel.acceptSocket, IoKernel.addSocket, IoKernel.setStream, IoKernel.setSocket,
          IoKernel.setFidt, IoKernel.setProc, IoKernel.grab, hjm]
      · simp [IoKernel.acceptSocket, IoKernel.addSocket, IoKernel.setStream, IoKernel.setSocket,
          IoKernel.setFidt, IoKernel.setProc, IoKernel.grab, hjm, hji]
    · simp [IoKernel.acceptSocket, IoKernel.addSocket, IoKernel.setStream, IoKernel.setSocket,
        IoKernel.setFidt, IoKernel.setProc, IoKernel.grab, hp]
  have hlt := hf.lt
  constructor
  · rw [getFcb_nat hlt, hprocs p i hlt, if_pos ⟨rfl, rfl⟩]
  · intro p' fd a ha
    obtain ⟨hfd, -, hslot⟩ := getFcb_some ha
    rw [getFcb_congr, ha]
    rw [hprocs p' fd.toNat hfd, if_neg]
    rintro ⟨rfl, hi⟩
    rw [hi, hf.empty] at hslot
    simp at hslot

theorem connectPeers_pipe {z : Nat → UInt8} {u v : SockId} {f a : FcbId} :
    (k.connectPeers u v f a z).pipe? (k.pipes.length + 1) = some (PipeCb.initial f a z) := by
  simp [IoKernel.connectPeers, IoKernel.setUnion, IoKernel.setSocket, IoKernel.pipe?,
    IoKernel.addPipe, IoKernel.setStream]

theorem connectPeers_stream {z : Nat → UInt8} {u v : SockId} {f a : FcbId} (hne : a ≠ f) :
    (k.connectPeers u v f a z).files.stream a =
        (.pipe (k.pipes.length + 1), some .writerFileOps) ∧
      (k.connectPeers u v f a z).files.stream f =
        (.pipe (k.pipes.length + 1), some .readerFileOps) := by
  have hstream : ∀ g, (k.connectPeers u v f a z).files.stream g =
      ((k.addPipe f a z).addPipe a f z).files.stream g := fun _ => rfl
  have hlen : (k.addPipe f a z).pipes.length = k.pipes.length + 1 := by
    simp [IoKernel.addPipe, IoKernel.setStream]
  constructor
  · rw [hstream, stream_addPipe, hlen, if_pos rfl]
  · rw [hstream, stream_addPipe, hlen, if_neg (Ne.symm hne), if_pos rfl]

/-- `Accept` returns a fid: the request it has popped is that of a socket with FCB `a`, and every
fid that leads to `a` is one end of a one-way connection with the new fid. -/
theorem accept_one_way {v : Int} {bs : List UInt8} {fs : List Nat} (hrun : k.faulted = false)
    (hcount : k.Counted none) (hpeers : k.PeersValid) (hb : AcceptStart k t p s garbage e b)
    (h : acceptLoop b t p s garbage = some (k', some ⟨v, bs, fs⟩)) (hv : v ≠ noFile) :
    ∃ r req a f q, k.pops e = some (s, r) ∧ k.requests[r]? = some req ∧
      (k.core req.peer).bind (·.fcb) = some a ∧
      k'.pipe? q = some (PipeCb.initial f a garbage) ∧
      ∀ cli : Endpoint, getFcb k cli.pid cli.fid = some a → OneWay k' cli ⟨p, v⟩ a f q := by
  have hst := hb.started
  obtain ⟨c, queue, hc, hq, hcases⟩ := acceptLoop_cases h
  rcases hcases with ⟨-, -, hret, -⟩ | ⟨-, hret, -⟩ | ⟨r, rest, rfl, hport, hreq⟩
  · simp at hret
  · obtain ⟨rfl, -⟩ : v = -1 ∧ _ := by simpa using hret
    exact absurd rfl hv
  rcases acceptRequest_cases hreq with ⟨hret, -⟩ | ⟨req, i, f, rest', a, hget, hf, ha, hret, rfl⟩
  · obtain ⟨rfl, -⟩ : v = -1 ∧ _ := by simpa using hret
    exact absurd rfl hv
  have hcore : k.core s = some c.core := by
    rw [← hst.moves.core]
    exact core_of_get hc
  have hunion : k.union s = some (.queue (r :: rest)) := by
    rw [← hst.union, union_of_get hc, hq]
  have hport' : k.portMap c.core.port ≠ none := by rw [← hst.moves.portMap]; exact hport
  have hget' : k.requests[r]? = some req := by rw [← hst.requests]; exact hget
  obtain ⟨d, hd⟩ := hpeers r req hget'
  obtain ⟨hpop, -, -⟩ := pop_moves (l := rest) hst.thread hc
  have hlen : ((b.addRef s (-1)).setQueue s rest).sockets.length = k.sockets.length := by
    rw [← hst.length]
    simp [IoKernel.setQueue, IoKernel.addRef, IoKernel.setSocket]
  have hfaulted : b.faulted = false := by
    cases hb with
    | call => exact hrun
    | resume => exact hrun
  generalize hP : (b.addRef s (-1)).setQueue s rest = P at hf ha hpop hlen
  have hPprocs : P.procs = k.procs := by rw [← hP, ← hst.procs]; rfl
  have hPrun : P.faulted = false := by rw [← hP]; exact hfaulted
  have hPfree : k.files.fcbFreelist = f :: rest' := by
    rw [← hst.moves.free, ← hpop.free]
    exact hf.free
  obtain ⟨rfl, -⟩ : v = i ∧ _ := by simpa using hret
  have hacc : (k.core req.peer).bind (·.fcb) = some a := by
    obtain ⟨x, hx, hxa⟩ := Option.bind_eq_some_iff.mp ha
    have hA : (P.acceptSocket p i f rest' c.port).core req.peer = some x.core := core_of_get hx
    have hne : req.peer ≠ P.sockets.length := by
      rw [hlen]
      exact Nat.ne_of_lt (core_lt hd)
    have hfield := acceptSocket_field (k := P) (p := p) (i := i) (f := f) (l := rest') (n := c.port)
      SocketCb.core req.peer
    rw [if_neg hne] at hfield
    have hPcore : P.core req.peer = some x.core := hfield.symm.trans hA
    rw [hpop.core, hst.moves.core] at hPcore
    rw [hPcore]
    exact hxa
  have hpipe := connectPeers_pipe (k := P.acceptSocket p i f rest' c.port) (u := P.sockets.length)
    (v := req.peer) (f := f) (a := a) (z := garbage)
  have hstream := connectPeers_stream (k := P.acceptSocket p i f rest' c.port)
    (u := P.sockets.length) (v := req.peer) (f := f) (a := a) (z := garbage)
  obtain ⟨hnew, hold⟩ := acceptSocket_getFcb (n := c.port) hf
  generalize (P.acceptSocket p i f rest' c.port).pipes.length + 1 = q at hpipe hstream
  have hK :
      ((P.acceptSocket p i f rest' c.port).connectPeers P.sockets.length
        req.peer f a garbage).procs =
      (P.acceptSocket p i f rest' c.port).procs ∧
      ((P.acceptSocket p i f rest' c.port).connectPeers P.sockets.length
        req.peer f a garbage).faulted =
        P.faulted := ⟨rfl, rfl⟩
  generalize (P.acceptSocket p i f rest' c.port).connectPeers P.sockets.length
    req.peer f a garbage = K
    at hpipe hstream hK
  refine ⟨r, req, a, f, q, hst.pops.trans (head_of_queue hcore hport' hunion), hget', hacc, hpipe,
    fun cli hcli => ?_⟩
  have hne : a ≠ f := by
    rintro rfl
    apply (inUse_of_getFcb hcount hcli).2
    rw [hPfree]
    exact List.mem_cons_self
  have hfcb : ∀ {p' fd x}, getFcb (P.acceptSocket p i f rest' c.port) p' fd = some x →
      getFcb ((K.setAdmitted r).record (.accepted r i)) p' fd = some x := by
    intro p' fd x hx
    rw [← hx]
    apply getFcb_congr
    show (K.procs p').fidt fd.toNat = _
    rw [hK.1]
  obtain ⟨hsa, hsf⟩ := hstream hne
  refine ⟨hK.2.trans hPrun, hfcb (hold cli.pid cli.fid a ?_), hfcb hnew, hne, hsa, hsf⟩
  rw [← hcli]
  apply getFcb_congr
  rw [hPprocs]

end Connection

end TinyOS
