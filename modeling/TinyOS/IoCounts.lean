import TinyOS.IoCalls

/-! Every step of every call keeps the counts of the FCBs exact. -/

namespace TinyOS

open Counting

/-- The running call has let go of all references of its own. -/
def AllCounted (k : IoKernel) (_ : Option IoRet) : Prop := k.Counted none

/-- A method of a stream sleeps with the reference to FCB `f`, or leaves it to the call. -/
def HeldUnless (f : FcbId) (k : IoKernel) : Option IoRet → Prop
  | none => k.Counted none
  | some _ => k.Counted (some f)

section Calls

variable {k k' : IoKernel} {p : Pid} {f : FcbId} {t : ThreadId} {y : IoThread}
  {held : Option FcbId}

theorem alive_grab {i : Nat} {rest : List FcbId} (hp : (k.procs p).pstate = .alive) :
    ((k.grab p i f rest).procs p).pstate = .alive :=
  (pstate_setFidt k p i (some f) p).trans hp

theorem grab_unreserve_procs {i : Nat} {l : List FcbId} (hf : (k.procs p).fidt i = none) :
    ((k.grab p i f l).unreserve p i f).procs = k.procs := by
  funext q
  by_cases hq : q = p
  · subst hq
    simp [IoKernel.unreserve, IoKernel.setProc, fcbUnreserve, IoKernel.grab, IoKernel.setFidt,
      Function.update_idem, ← hf]
  · simp [IoKernel.unreserve, IoKernel.setProc, IoKernel.grab, IoKernel.setFidt, hq]

theorem IoKernel.Counted.unreserve {i : Nat} {rest : List FcbId} (h : k.Counted none)
    (hf : k.Free p i f rest) : ((k.grab p i f rest).unreserve p i f).Counted none := by
  have hprocs := grab_unreserve_procs (f := f) (l := rest) hf.empty
  refine ⟨?_, by rw [hprocs]; exact h.idle, by rw [hprocs]; exact h.owner⟩
  have hexact := h.exact
  rw [FileTable.Exact, hf.free] at hexact
  rw [refs_congr hprocs rfl]
  refine hexact.rotate fun g hg => ?_
  simp [IoKernel.unreserve, fcbUnreserve, IoKernel.grab, fcbIncref, releaseFCB,
    FileTable.setRefcount, FileTable.record, hg]

theorem IoKernel.Counted.openStream (h : k.Counted none) (hp : (k.procs p).pstate = .alive)
    {ops : FileOps} {obj : StreamObj} {present : Bool} :
    (openStream k p ops obj present).All AllCounted := by
  intro k' r hr
  rcases openStream_cases hr with rfl | ⟨i, f, rest, hf, rfl | rfl⟩
  · exact h
  · exact (h.grab hp hf).setStream f obj ops
  · exact h.unreserve hf

theorem IoKernel.Counted.openInfo (h : k.Counted none) (hp : (k.procs p).pstate = .alive) :
    (sysOpenInfo k p).All AllCounted := by
  intro k' r hr
  rcases sysOpenInfo_cases hr with rfl | ⟨i, f, rest, hf, rfl⟩
  · exact h
  · exact ((h.grab hp hf).setStream f _ _).same (fun _ => rfl) rfl rfl rfl

theorem IoKernel.Counted.withPipes (h : k.Counted held) (l : List (Option PipeCb)) :
    ({ k with pipes := l } : IoKernel).Counted held := h.same (fun _ => rfl) rfl rfl rfl

theorem IoKernel.Counted.withSockets (h : k.Counted held) (l : List SocketCb) :
    ({ k with sockets := l } : IoKernel).Counted held := h.same (fun _ => rfl) rfl rfl rfl

theorem IoKernel.Counted.addPipe (h : k.Counted held) (w r : FcbId) (garbage : Nat → UInt8) :
    (k.addPipe w r garbage).Counted held :=
  ((h.withPipes _).setStream _ _ _).setStream _ _ _

theorem IoKernel.Counted.pipe (h : k.Counted none) (hp : (k.procs p).pstate = .alive)
    (garbage : Nat → UInt8) : (sysPipe k p garbage).All AllCounted := by
  intro k' r hr
  rcases sysPipe_cases hr with ⟨rfl, -⟩ | ⟨i, f, rest, hf, ⟨rfl, -⟩ | ⟨j, g, rest', hg, -, rfl⟩⟩
  · exact h
  · exact h.grab hp hf
  · exact ((h.grab hp hf).grab (alive_grab hp) hg).addPipe g f garbage

theorem IoKernel.Counted.socket (h : k.Counted none) (hp : (k.procs p).pstate = .alive)
    (port : Int) :
    (sysSocket k p port).1.Counted none := by
  have hout : ¬maxFileid < maxFileid := Nat.lt_irrefl _
  rcases sysSocket_cases k p port with ⟨-, he | he⟩ | ⟨i, f, rest, hf, -, -, he⟩ <;> rw [he]
  · exact h
  · exact h.slotOut hp hout none
  · have hs := (h.grab hp hf).slotOut (alive_grab hp) hout (some f)
    exact (hs.withSockets _).setStream f _ _

theorem IoKernel.Counted.close (h : k.Counted none) (hp : (k.procs p).pstate = .alive) (fd : Int) :
    (sysClose k p fd).All AllCounted := by
  refine sysClose_all (fun _ => h) fun f k1 v hf hd => ?_
  obtain ⟨hi, -, hslot⟩ := getFcb_some hf
  exact (h.takeSlot hp hi hslot).decref hd

/-- The stream of a slot is closed before the slot is cleared. -/
theorem IoKernel.Counted.dropSlot {i : Nat} {v : Int} (h : k.Counted none)
    (hp : (k.procs p).pstate = .alive) (hi : i < maxFileid) (hf : (k.procs p).fidt i = some f)
    (hd : k.decref p f = some (k', v)) :
    (k'.setFidt p i none).Counted none ∧ k'.procs = k.procs ∧ k'.threads = k.threads := by
  have hclear := fun g => refs_setFidt (k := k) (p := p) (x := none) hi g
  rw [hf] at hclear
  have hexact : k.files.Exact k.refs := by simpa using h.exact
  obtain ⟨he, hprocs, hthr⟩ := decref_exact hexact (by simpa using (hclear f).symm)
    (fun g hg => by simpa [Ne.symm hg] using hclear g) hd
  have hset : (k'.setFidt p i none).procs = (k.setFidt p i none).procs := by
    simp only [IoKernel.setFidt, IoKernel.setProc, hprocs]
  have hthr' : (k'.setFidt p i none).threads = (k.setFidt p i none).threads := hthr
  refine ⟨⟨?_, ?_, ?_⟩, hprocs, hthr⟩
  · rw [refs_congr hset hthr']
    simp only [reduceCtorEq, if_false, Nat.add_zero]
    exact he
  · rw [hset]
    exact h.idle_setFidt hp none
  · rw [hset, hthr']
    exact h.owner_setFidt none

theorem setFidt_setFidt (k : IoKernel) (p : Pid) (i : Nat) (f : FcbId) (x : Option FcbId) :
    ((k.setFidt p i none).incref f).setFidt p i x = (k.incref f).setFidt p i x := by
  simp [IoKernel.setFidt, IoKernel.setProc, IoKernel.incref]

/-- A slot is emptied, and filled with a stream that is open elsewhere. -/
theorem IoKernel.Counted.refill {i j : Nat} (h : (k.setFidt p i none).Counted none)
    (hp : (k.procs p).pstate = .alive) (hi : i < maxFileid) (hj : j < maxFileid) (hij : j ≠ i)
    (hf : (k.procs p).fidt j = some f) : ((k.incref f).setFidt p i (some f)).Counted none := by
  have hjf : ((k.setFidt p i none).procs p).fidt j = some f := by
    simpa [IoKernel.setFidt, IoKernel.setProc, hij] using hf
  have hpos := refs_pos_of_slot hj hjf
  have halive : (((k.setFidt p i none).incref f).procs p).pstate = .alive :=
    (pstate_setFidt k p i none p).trans hp
  have hfill := (h.incref hpos).fillSlot halive hi
    (by simp [IoKernel.incref, IoKernel.setFidt, IoKernel.setProc])
  rwa [setFidt_setFidt] at hfill

theorem setFidt_self (h : (k.procs p).fidt i = none) : k.setFidt p i none = k := by
  have hfidt : Function.update (k.procs p).fidt i none = (k.procs p).fidt := by
    rw [← h, Function.update_eq_self]
  simp only [IoKernel.setFidt, IoKernel.setProc, hfidt, Function.update_eq_self]

theorem IoKernel.Counted.dup2 (h : k.Counted none) (hp : (k.procs p).pstate = .alive)
    (oldfd newfd : Int) : (sysDup2 k p oldfd newfd).All AllCounted := by
  refine sysDup2_all (fun _ => h) fun old k1 hrange hold hother hclosed => ?_
  obtain ⟨hi, -, hslot⟩ := getFcb_some hold
  have hn0 : ¬(newfd < 0 ∨ newfd ≥ maxFileid) := fun he => hrange (by omega)
  have hni : newfd.toNat < maxFileid := by omega
  have hget : getFcb k p newfd = (k.procs p).fidt newfd.toNat := by
    simp only [getFcb, hn0, if_false]
  have hne : oldfd.toNat ≠ newfd.toNat := fun he => hother (by rw [hget, ← he, hslot])
  rcases hclosed with ⟨hnew, rfl⟩ | ⟨new, v, hnew, hd⟩
  · have hclear : (k1.setFidt p newfd.toNat none).Counted none := by
      rw [setFidt_self (hget.symm.trans hnew)]
      exact h
    exact hclear.refill hp hni hi hne hslot
  · obtain ⟨hclear, hprocs, -⟩ := h.dropSlot hp hni (hget.symm.trans hnew) hd
    exact hclear.refill (by rw [hprocs]; exact hp) hni hi hne (by rw [hprocs]; exact hslot)

/-! ### Reading and writing -/

theorem IoResult.All.finishIo {res : IoResult} (h : res.All (HeldUnless f)) :
    (finishIo p f res).All AllCounted := by
  intro k' r hr
  rcases res with _ | ⟨k, _ | x⟩
  · simp [TinyOS.finishIo] at hr
  · obtain ⟨rfl, -⟩ : k = k' ∧ _ = r := by simpa [TinyOS.finishIo] using hr
    exact h k _ rfl
  · obtain ⟨⟨k1, v⟩, hd, he⟩ := Option.map_eq_some_iff.mp hr
    obtain ⟨rfl, -⟩ : k1 = k' ∧ _ = r := by simpa using he
    exact IoKernel.Counted.decref (h k _ rfl) hd

/-- The running call leaves its reference to a sleeping thread. -/
theorem IoKernel.Counted.sleep (h : k.Counted (some f)) (ht : k.threads[t]? = some y)
    (hy : y.pc = .user) (pc : IoPc) (hpc : ∀ g, pc.uses g = decide (f = g)) :
    (k.setPc t pc).Counted none := by
  refine h.setPc ht (by simp [hy]) pc fun g => ?_
  have hyg : y.pc.uses g = false := by rw [hy]; rfl
  simp [hpc, hyg]

theorem MethodOutcome.keeps {ret : Option IoRet} (h : k.Counted (some f))
    (ht : k.threads[t]? = some y)
    (hy : y.pc = .user) (hm : MethodOutcome k t f k' ret) : HeldUnless f k' ret := by
  cases hm with
  | returns k' r hs => exact h.tables hs
  | sleeps k1 pc hs _ _ huses =>
    have ht1 : k1.threads[t]? = some y := by rw [hs.threads]; exact ht
    exact (h.tables hs).sleep ht1 hy pc huses

theorem IoKernel.Counted.read (h : k.Counted none) (ht : k.threads[t]? = some y) (hy : y.pc = .user)
    (fd : Int) (n : Nat) (dev : List UInt8) : (sysRead k t p fd n dev).All AllCounted := by
  refine sysRead_all h fun f ops hf _ => ?_
  obtain ⟨hi, -, hslot⟩ := getFcb_some hf
  have hheld := h.incref (refs_pos_of_slot hi hslot)
  exact .finishIo fun k1 r hr => (readStream_outcome n dev _ _ k1 r hr).keeps hheld ht hy

theorem IoKernel.Counted.write (h : k.Counted none) (ht : k.threads[t]? = some y)
    (hy : y.pc = .user)
    (fd : Int) (buf dev : List UInt8) : (sysWrite k t p fd buf dev).All AllCounted := by
  refine sysWrite_all h fun f ops hf _ => ?_
  obtain ⟨hi, -, hslot⟩ := getFcb_some hf
  have hheld := h.incref (refs_pos_of_slot hi hslot)
  exact .finishIo fun k1 r hr => (writeStream_outcome buf dev _ _ k1 r hr).keeps hheld ht hy

/-! ### Sockets -/

theorem IoKernel.Counted.setSocket (h : k.Counted held) (s : SockId) (g : SocketCb → SocketCb) :
    (k.setSocket s g).Counted held := h.tables (setSocket_same k s g)

theorem IoKernel.Counted.record (h : k.Counted held) (e : RequestEvent) :
    (k.record e).Counted held :=
  h.same (fun _ => rfl) rfl rfl rfl

theorem IoKernel.Counted.withRequests (h : k.Counted held) (l : List ConnectionRequest) :
    ({ k with requests := l } : IoKernel).Counted held := h.same (fun _ => rfl) rfl rfl rfl

theorem IoKernel.Counted.moveThread (h : k.Counted held) (ht : k.threads[t]? = some y)
    (hy : y.pc ≠ .exited) {pc : IoPc} (hold : ∀ g, y.pc.uses g = false)
    (hnew : ∀ g, pc.uses g = false) :
    (k.setPc t pc).Counted held :=
  h.setPc ht hy pc fun g => by simp [hold, hnew]

theorem IoKernel.Counted.listen (h : k.Counted none) (sock : Int) :
    (sysListen k p sock).All AllCounted := by
  intro k' r hr
  rcases sysListen_cases hr with ⟨rfl, -⟩ | ⟨f, s, c, -, -, -, -, -, -, -, rfl⟩
  · exact h
  · exact h.same (fun _ => rfl) rfl rfl rfl

theorem IoKernel.Counted.acceptSocket {i : Nat} {rest : List FcbId} (h : k.Counted none)
    (hp : (k.procs p).pstate = .alive) (hf : k.Free p i f rest) (port : Int) :
    (k.acceptSocket p i f rest port).Counted none := by
  have hs := (h.grab hp hf).slotOut (alive_grab hp) (Nat.lt_irrefl maxFileid) (some f)
  exact ((hs.withSockets _).setStream f _ _).setSocket _ _

theorem IoKernel.Counted.acceptRequest (h : k.Counted none) (hp : (k.procs p).pstate = .alive)
    (port : Int) (r : ReqId) (garbage : Nat → UInt8) :
    (acceptRequest k p port r garbage).All AllCounted := by
  intro k' ret hr
  rcases acceptRequest_cases hr with ⟨-, -, rfl | rfl⟩ | ⟨req, i, f, rest, a, -, hf, -, -, rfl⟩
  · exact h
  · exact h.slotOut hp (Nat.lt_irrefl maxFileid) _
  · have hpeers := (((h.acceptSocket hp hf port).addPipe f a garbage).addPipe a f garbage)
    exact (((hpeers.setSocket _ _).setSocket _ _).withRequests _).record _

theorem IoKernel.Counted.acceptLoop (h : k.Counted none) (hp : (k.procs p).pstate = .alive)
    (ht : k.threads[t]? = some y) (hy : y.pc = .user) (s : SockId) (garbage : Nat → UInt8) :
    (acceptLoop k t p s garbage).All AllCounted := by
  intro k' ret hr
  obtain ⟨c, q, -, -, ⟨-, -, -, rfl⟩ | ⟨-, -, rfl⟩ | ⟨r, rest, -, -, hreq⟩⟩ := acceptLoop_cases hr
  · have hwait :
        (k.setSocket s fun c => { c with reqAvailable := kernelWait c.reqAvailable t }).Counted
        none := h.setSocket s _
    exact hwait.moveThread ht (by simp [hy]) (by simp [hy, IoPc.uses]) (by simp [IoPc.uses])
  · exact h.setSocket s _
  · have hpop : ((k.addRef s (-1)).setQueue s rest).Counted none := (h.setSocket s _).setSocket s _
    exact hpop.acceptRequest hp _ r garbage k' ret hreq

theorem IoKernel.Counted.accept (h : k.Counted none) (hp : (k.procs p).pstate = .alive)
    (ht : k.threads[t]? = some y) (hy : y.pc = .user) (lsock : Int) (garbage : Nat → UInt8) :
    (sysAccept k t p lsock garbage).All AllCounted := by
  intro k' ret hr
  rcases sysAccept_cases hr with ⟨rfl, -⟩ | ⟨f, s, c, -, -, -, -, -, hloop⟩
  · exact h
  · have href : (k.addRef s 1).Counted none := h.setSocket s _
    exact href.acceptLoop hp ht hy s garbage k' ret hloop

theorem IoKernel.Counted.waitConnect (h : k.Counted none) (ht : k.threads[t]? = some y)
    (hy : y.pc = .user) (s : SockId) (r : ReqId) : (k.waitConnect t s r).Counted none := by
  have hwait : ({ k with requests := k.requests.modify r fun c =>
      { c with connectedCv := kernelWait c.connectedCv t } } : IoKernel).Counted
        none := h.withRequests _
  exact hwait.moveThread ht (by simp [hy]) (by simp [hy, IoPc.uses]) (by simp [IoPc.uses])

theorem IoKernel.Counted.connectLoop (h : k.Counted none) (ht : k.threads[t]? = some y)
    (hy : y.pc = .user) (s : SockId) (r : ReqId) (expired : Bool) :
    (connectLoop k t s r expired).All AllCounted := by
  intro k' ret hr
  obtain ⟨req, -, ⟨-, -, -, rfl⟩ | ⟨-, -, rfl⟩⟩ := connectLoop_cases hr
  · exact h.waitConnect ht hy s r
  · exact (h.setSocket s _).record _

theorem IoKernel.Counted.connect (h : k.Counted none) (ht : k.threads[t]? = some y)
    (hy : y.pc = .user) (sock port : Int) : (sysConnect k t p sock port).All AllCounted := by
  intro k' ret hr
  rcases sysConnect_cases hr with ⟨rfl, -⟩ | ⟨f, s, c, l, lc, q, -, -, -, -, -, -, -, -, -, -, rfl⟩
  · exact h
  · have hadd : (k.addRequest s l q).Counted none :=
      (((h.setSocket s _).withRequests _).setSocket l _).record _
    exact hadd.waitConnect ht hy s _

theorem IoKernel.Counted.shutDown (h : k.Counted none) (sock : Int) (how : ShutdownMode) :
    IoResult.All AllCounted ((sysShutDown k p sock how).bind fun (k, v) => k.ret v) :=
  .bind fun _ hr => .ret (h.tables (sysShutDown_same hr))

end Calls

end TinyOS
