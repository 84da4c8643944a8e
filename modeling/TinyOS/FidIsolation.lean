import TinyOS.PipeCalls
import TinyOS.SocketFields

/-! A fid is its process's own: nothing that other processes or the other calls of the process do
moves it to another FCB, or its FCB to another stream, unless a socket control block names that
FCB. -/

namespace TinyOS

open Transition

/-- A call of process `p` that gives up fid `i`: `Close`, `Dup2` of another stream onto it, or the
exit of the last thread. -/
def IoKernel.drops (p : Pid) (i : Nat) (k : IoKernel) : IoEvent → Bool
  | .close _ fd => fd = i
  | .dup2 _ oldfd newfd => newfd = i ∧ getFcb k p oldfd ≠ none ∧ getFcb k p oldfd ≠ getFcb k p newfd
  | .threadExit _ => k.threads.countP (·.liveIn p) = 1
  | _ => false

def IoKernel.givesUp (p : Pid) (i : Nat) (k : IoKernel) (e : IoEvent) : Bool :=
  (e.thread.bind fun t => k.threads[t]?).any fun x => x.pid = p && k.drops p i e

/-- No socket has FCB `f` in its field `fcb`, through which `create_peer_pipe` writes. -/
def IoKernel.Unnamed (k : IoKernel) (f : FcbId) : Prop := ∀ c ∈ k.sockets, c.fcb ≠ some f

/-- Process `p` and its fid `i` stay as they are, and so does the stream of an FCB that no socket
names. -/
structure IoKernel.Leaves (p : Pid) (i : Nat) (f : FcbId) (k k' : IoKernel) : Prop where
  pstate : (k'.procs p).pstate = (k.procs p).pstate
  slot : (k'.procs p).fidt i = (k.procs p).fidt i
  stream : k.Unnamed f → k'.files.stream f = k.files.stream f ∧ k'.Unnamed f

section Leaves

variable {k k' k'' : IoKernel} {p q : Pid} {i j : Nat} {f g : FcbId} {s : SockId} {v : Int}

theorem IoKernel.Leaves.refl (k : IoKernel) : IoKernel.Leaves p i f k k :=
  ⟨rfl, rfl, fun h => ⟨rfl, h⟩⟩

theorem IoKernel.Leaves.trans (h : IoKernel.Leaves p i f k k') (h' : IoKernel.Leaves p i f k' k'') :
    IoKernel.Leaves p i f k k'' := by
  refine ⟨h'.pstate.trans h.pstate, h'.slot.trans h.slot, fun hf => ?_⟩
  obtain ⟨hs, hf'⟩ := h.stream hf
  obtain ⟨hs', hf''⟩ := h'.stream hf'
  exact ⟨hs'.trans hs, hf''⟩

theorem leaves_of_tables (hprocs : k'.procs = k.procs) (hfiles : k'.files = k.files)
    (hsockets : k.Unnamed f → k'.Unnamed f) : IoKernel.Leaves p i f k k' :=
  ⟨by rw [hprocs], by rw [hprocs], fun h => ⟨by rw [hfiles], hsockets h⟩⟩

theorem setSocket_unnamed {c : SocketCb → SocketCb} (hc : ∀ x, (c x).fcb = x.fcb ∨ (c x).fcb = none)
    (h : k.Unnamed f) : (k.setSocket s c).Unnamed f := by
  intro y hy
  obtain ⟨m, hm⟩ := List.mem_iff_getElem?.mp hy
  have hget : (k.sockets.modify s c)[m]? = some y := hm
  rw [List.getElem?_modify] at hget
  obtain ⟨x, hx, rfl⟩ := Option.map_eq_some_iff.mp hget
  have hold := h x (List.mem_of_getElem? hx)
  split
  · rcases hc x with he | he <;> rw [he]
    · exact hold
    · simp
  · exact hold

theorem incref_leaves (g : FcbId) : IoKernel.Leaves p i f k (k.incref g) :=
  ⟨rfl, rfl, fun h => ⟨stream_setRefcount k.files g _ f, h⟩⟩

theorem unnamed_ends (f : FcbId) : KeptByEnds fun k => k.Unnamed f := by
  intro k k' _ _ _ _ hk hc
  unfold IoKernel.Unnamed
  rw [(closePipeEnd_view hc).sockets]
  exact hk

/-- To close a socket takes its FCB's name away. -/
theorem socketClose_unnamed {obj : StreamObj} (hf : k.Unnamed f)
    (h : socketClose k q obj = some (k', v)) :
    k'.Unnamed f := by
  cases obj with
  | socket s =>
    simp only [socketClose] at h
    split at h
    · simp at h
    split at h
    · obtain ⟨rfl, -⟩ : _ = k' ∧ _ = v := by simpa using h
      exact setSocket_unnamed (fun _ => .inr rfl) hf
    · obtain ⟨rfl, -⟩ : _ = k' ∧ _ = v := by simpa using h
      exact setSocket_unnamed (fun _ => .inr rfl) hf
    split at h
    · split at h
      · simp at h
      · obtain ⟨⟨k1, v1⟩, h1, h2⟩ := Option.map_eq_some_iff.mp h
        obtain ⟨rfl, -⟩ : _ = k' ∧ _ = v := by simpa using h2
        exact setSocket_unnamed (fun _ => .inl rfl)
          (sysShutDown_keeps (unnamed_ends f) (setSocket_unnamed (fun _ => .inr rfl) hf) h1)
    · obtain ⟨rfl, -⟩ : k = k' ∧ _ = v := by simpa using h
      exact hf
    · simp at h
  | _ => simp [socketClose] at h

/-- To let go of a reference closes a stream perhaps, but changes no FCB's stream. -/
theorem decref_leaves (h : k.decref q g = some (k', v)) : IoKernel.Leaves p i f k k' := by
  have hsame := decref_same h
  refine ⟨by rw [hsame.procs], by rw [hsame.procs], fun hf => ⟨?_, ?_⟩⟩
  · have hset := stream_setRefcount k.files g ((k.files.ft g).refcount - 1) f
    unfold FileTable.stream at hset ⊢
    rw [hsame.files]
    show (((fcbDecref k.files g).1.ft f).streamobj, ((fcbDecref k.files g).1.ft f).streamfunc) = _
    rw [(fcbDecref_tables k.files g).1]
    exact hset
  · simp only [IoKernel.decref] at h
    split at h
    · obtain ⟨rfl, -⟩ : _ = k' ∧ _ = v := by simpa using h
      exact hf
    · rename_i files ops obj heq
      by_cases hops : ops = some .socketFileOps
      · subst hops
        exact socketClose_unnamed (k := { k with files := files }) hf h
      · cases ops with
        | none => simp [closeStream] at h
        | some ops =>
          unfold IoKernel.Unnamed
          rw [(closeStream_sockets (fun he => hops (he ▸ rfl)) h).1]
          exact hf

theorem setFidt_leaves {x : Option FcbId} (h : q = p → j ≠ i) :
    IoKernel.Leaves p i f k (k.setFidt q j x) := by
  refine ⟨pstate_setFidt k q j x p, ?_, fun hf => ⟨rfl, hf⟩⟩
  by_cases hq : q = p
  · subst hq
    simp [IoKernel.setFidt, IoKernel.setProc, Function.update_of_ne (h rfl).symm]
  · simp [IoKernel.setFidt, IoKernel.setProc, Function.update_of_ne (Ne.symm hq)]

theorem setProc_leaves {c : IoProcess → IoProcess} (h : q ≠ p) :
    IoKernel.Leaves p i f k (k.setProc q c) := by
  refine ⟨?_, ?_, fun hf => ⟨rfl, hf⟩⟩ <;> simp [IoKernel.setProc, Function.update_of_ne h.symm]

theorem setPc_leaves (k : IoKernel) (t : ThreadId) (pc : IoPc) :
    IoKernel.Leaves p i f k (k.setPc t pc) :=
  leaves_of_tables rfl rfl fun h => h

theorem setSocket_leaves (s : SockId) {c : SocketCb → SocketCb}
    (hc : ∀ x, (c x).fcb = x.fcb ∨ (c x).fcb = none) :
    IoKernel.Leaves p i f k (k.setSocket s c) :=
  leaves_of_tables rfl rfl (setSocket_unnamed hc)

theorem IoKernel.Free.leaves {rest : List FcbId} (h : k.Free q j g rest)
    (hslot : (k.procs p).fidt i ≠ none) :
    IoKernel.Leaves p i f k (k.grab q j g rest) := by
  have hset : IoKernel.Leaves p i f k (k.setFidt q j (some g)) :=
    setFidt_leaves fun hq hj => hslot (hq ▸ hj ▸ h.empty)
  exact ⟨hset.pstate, hset.slot, fun hf => ⟨stream_grab f, hf⟩⟩

/-- The FCB of a reservation was free, and so it is none that a fid leads to. -/
theorem IoKernel.Free.other {rest : List FcbId} (h : k.Free q j g rest)
    (hf : f ∉ k.files.fcbFreelist) : f ≠ g := by
  rintro rfl
  exact hf (h.free ▸ List.mem_cons_self)

theorem setStream_leaves {obj : StreamObj} {ops : FileOps} (h : f ≠ g) :
    IoKernel.Leaves p i f k (k.setStream g obj ops) :=
  ⟨rfl, rfl, fun hf => ⟨(stream_setStream k.files g obj ops f).trans (if_neg h), hf⟩⟩

theorem addSocket_leaves (port : Int) (h : f ≠ g) :
    IoKernel.Leaves p i f k (k.addSocket g port) := by
  refine ⟨rfl, rfl, fun hf => ⟨(stream_setStream k.files g _ _ f).trans (if_neg h), fun c hc => ?_⟩⟩
  rcases List.mem_append.mp hc with hc | hc
  · exact hf c hc
  · obtain rfl := List.mem_singleton.mp hc
    simpa using Ne.symm h

theorem inherit_leaves (r : Pid) (n : Nat) (h : q ≠ p) :
    IoKernel.Leaves p i f k (k.inherit r q n) := by
  induction n with
  | zero => exact .refl k
  | succ n ih =>
    simp only [IoKernel.inherit]
    split
    · exact ih
    · exact (ih.trans (incref_leaves _)).trans (setFidt_leaves fun hq => absurd hq h)

end Leaves

/-! ### The calls -/

section Calls

variable {k k' : IoKernel} {p q : Pid} {i : Nat} {f g : FcbId} {t : ThreadId}
  {garbage : Nat → UInt8}

def Leaving (p : Pid) (i : Nat) (f : FcbId) (k k' : IoKernel) (_ : Option IoRet) : Prop :=
  IoKernel.Leaves p i f k k'

theorem openStream_leaves {ops : FileOps} {obj : StreamObj} {present : Bool}
    (hslot : (k.procs p).fidt i ≠ none)
    (hf : f ∉ k.files.fcbFreelist) : (openStream k q ops obj present).All (Leaving p i f k) := by
  intro k' r hr
  rcases openStream_cases hr with rfl | ⟨j, g, rest, hg, rfl | rfl⟩
  · exact .refl k'
  · exact (hg.leaves hslot).trans (setStream_leaves (hg.other hf))
  · have hprocs := grab_unreserve_procs (f := g) (l := rest) hg.empty
    refine ⟨by rw [hprocs], by rw [hprocs], fun hn => ⟨?_, hn⟩⟩
    have hrel : ((k.grab q j g rest).unreserve q j g).files.stream f =
        (k.grab q j g rest).files.stream f := by
      simp [IoKernel.unreserve, fcbUnreserve, releaseFCB, FileTable.record, FileTable.stream]
    rw [hrel, stream_grab]

theorem sysOpenInfo_leaves (hslot : (k.procs p).fidt i ≠ none) (hf : f ∉ k.files.fcbFreelist) :
    (sysOpenInfo k q).All (Leaving p i f k) := by
  intro k' r hr
  rcases sysOpenInfo_cases hr with rfl | ⟨j, g, rest, hg, rfl⟩
  · exact .refl k'
  · have hreserve : IoKernel.Leaves p i f k (k.grab q j g rest) := hg.leaves hslot
    have hstream : IoKernel.Leaves p i f k
        ((k.grab q j g rest).setStream g (.procinfo k.infos) .procinfoOps) :=
      hreserve.trans (setStream_leaves (hg.other hf))
    exact hstream.trans (leaves_of_tables rfl rfl fun h => h)

theorem sysPipe_leaves (hslot : (k.procs p).fidt i ≠ none) (hf : f ∉ k.files.fcbFreelist) :
    (sysPipe k q garbage).All (Leaving p i f k) := by
  intro k' r hr
  rcases sysPipe_cases hr with ⟨rfl, -⟩ |
    ⟨j, g, rest, hg, ⟨rfl, -, -⟩ | ⟨j', g', rest', hg', -, rfl⟩⟩
  · exact .refl k'
  · exact hg.leaves hslot
  · have hfirst : IoKernel.Leaves p i f k (k.grab q j g rest) := hg.leaves hslot
    have hfree : f ∉ (k.grab q j g rest).files.fcbFreelist := fun hmem =>
      hf (hg.free ▸ List.mem_cons_of_mem _ hmem)
    have hboth := hfirst.trans (hg'.leaves (hfirst.slot ▸ hslot))
    refine ⟨hboth.pstate, hboth.slot, fun hn => ⟨?_, hn⟩⟩
    rw [stream_addPipe, if_neg (hg'.other hfree), if_neg (hg.other hf)]
    exact (hboth.stream hn).1

theorem socket_leaves {j : Nat} {rest : List FcbId} (port : Int) (hg : k.Free q j g rest)
    (hi : i < maxFileid) (hslot : (k.procs p).fidt i ≠ none) (hf : f ∉ k.files.fcbFreelist) :
    IoKernel.Leaves p i f k (((k.grab q j g rest).setFidt q maxFileid (some g)).addSocket g port) :=
  ((hg.leaves hslot).trans (setFidt_leaves fun _ he => Nat.lt_irrefl _ (he ▸ hi))).trans
    (addSocket_leaves port (hg.other hf))

/-- The stray write of `sys_Socket` is at no fid. -/
theorem sysSocket_leaves (port : Int) (hi : i < maxFileid) (hslot : (k.procs p).fidt i ≠ none)
    (hf : f ∉ k.files.fcbFreelist) : IoKernel.Leaves p i f k (sysSocket k q port).1 := by
  rcases sysSocket_cases k q port with ⟨-, he | he⟩ | ⟨j, g, rest, hg, -, -, he⟩ <;> rw [he]
  · exact .refl k
  · exact setFidt_leaves fun _ he => Nat.lt_irrefl _ (he ▸ hi)
  · exact socket_leaves port hg hi hslot hf

/-- `create_peer_pipe` writes to the new FCB and to the one that the requesting socket names. -/
theorem acceptRequest_leaves {port : Int} {r : ReqId} (hi : i < maxFileid)
    (hslot : (k.procs p).fidt i ≠ none)
    (hf : f ∉ k.files.fcbFreelist) : (acceptRequest k q port r garbage).All (Leaving p i f k) := by
  intro k' ret hr
  rcases acceptRequest_cases hr with ⟨-, -, rfl | rfl⟩ | ⟨req, j, g, rest, a, -, hg, ha, -, rfl⟩
  · exact .refl k'
  · exact setFidt_leaves fun _ he => Nat.lt_irrefl _ (he ▸ hi)
  · have hsocket : IoKernel.Leaves p i f k (k.acceptSocket q j g rest port) :=
      (socket_leaves port hg hi hslot hf).trans (setSocket_leaves _ fun _ => .inl rfl)
    generalize k.acceptSocket q j g rest port = u at hsocket ha
    refine ⟨hsocket.pstate, hsocket.slot, fun hn => ?_⟩
    obtain ⟨hstream, hn'⟩ := hsocket.stream hn
    have hfa : f ≠ a := by
      rintro rfl
      obtain ⟨c, hc, hfcb⟩ := Option.bind_eq_some_iff.mp ha
      exact hn' c (List.mem_of_getElem? hc) hfcb
    have hpipes : (u.connectPeers k.sockets.length req.peer g a garbage).Unnamed f :=
      setSocket_unnamed (fun _ => .inl rfl) (setSocket_unnamed (fun _ => .inl rfl) hn')
    exact ⟨(stream_connectPeers k.sockets.length req.peer a garbage (hg.other hf) hfa).trans
      hstream, hpipes⟩

theorem acceptLoop_leaves {s : SockId} (hi : i < maxFileid) (hslot : (k.procs p).fidt i ≠ none)
    (hf : f ∉ k.files.fcbFreelist) : (acceptLoop k t q s garbage).All (Leaving p i f k) := by
  intro k' ret hr
  have href : ∀ (u : IoKernel) n, IoKernel.Leaves p i f u (u.addRef s n) :=
    fun u n => setSocket_leaves s fun _ => .inl rfl
  obtain ⟨c, l, -, -, ⟨-, -, -, rfl⟩ | ⟨-, -, rfl⟩ | ⟨r, rest, -, -, hreq⟩⟩ := acceptLoop_cases hr
  · exact (setSocket_leaves s (c := fun c => { c with reqAvailable := kernelWait c.reqAvailable t })
      fun _ => .inl rfl).trans (setPc_leaves _ t (.accepting s))
  · exact href k (-1)
  · have hpop : IoKernel.Leaves p i f k ((k.addRef s (-1)).setQueue s rest) :=
      (href k (-1)).trans (setSocket_leaves s fun _ => .inl rfl)
    exact hpop.trans
      (acceptRequest_leaves (k := (k.addRef s (-1)).setQueue s rest) hi hslot hf _ _ hreq)

theorem connectLoop_leaves {s : SockId} {r : ReqId} {expired : Bool} :
    (connectLoop k t s r expired).All (Leaving p i f k) := by
  intro k' ret hr
  obtain ⟨req, -, ⟨-, -, -, rfl⟩ | ⟨-, -, rfl⟩⟩ := connectLoop_cases hr
  · exact leaves_of_tables rfl rfl fun h => h
  · have href : IoKernel.Leaves p i f k (k.addRef s (-1)) := setSocket_leaves s fun _ => .inl rfl
    exact href.trans (leaves_of_tables rfl rfl fun h => h)

theorem finishIo_leaves {res : IoResult} {k0 : IoKernel} (h0 : IoKernel.Leaves p i f k0 k)
    (hm : res.All (MethodOutcome k t g)) : (finishIo q g res).All (Leaving p i f k0) := by
  have htables : ∀ {u : IoKernel}, k.SameTables u → u.sockets = k.sockets →
      IoKernel.Leaves p i f k0 u :=
    fun hs hsock => h0.trans (leaves_of_tables hs.procs hs.files fun h => by
      unfold IoKernel.Unnamed
      rw [hsock]
      exact h)
  intro k' r hr
  rcases res with _ | ⟨k1, _ | x⟩
  · simp [finishIo] at hr
  · obtain ⟨rfl, -⟩ : k1 = k' ∧ _ = r := by simpa [finishIo] using hr
    cases hm k1 none rfl with
    | sleeps k1 pc hs hsock => exact (htables hs hsock).trans (setPc_leaves k1 t pc)
  · obtain ⟨⟨k2, v⟩, hd, he⟩ := Option.map_eq_some_iff.mp hr
    obtain ⟨rfl, -⟩ : k2 = k' ∧ _ = r := by simpa using he
    cases hm k1 (some x) rfl with
    | returns k1 r hs hsock => exact (htables hs hsock).trans (decref_leaves hd)

theorem threadExit_leaves (h : k.Counted none) (hq : (k.procs q).pstate = .alive)
    (hne : k.threads.countP (·.liveIn q) = 1 → q ≠ p) (hexit : ioThreadExit k t q = some k') :
    IoKernel.Leaves p i f k k' := by
  simp only [ioThreadExit] at hexit
  split at hexit
  · rename_i hone
    obtain ⟨k1, hk1, rfl⟩ := Option.map_eq_some_iff.mp hexit
    obtain ⟨-, hclosed⟩ := closeFidt_induct (I := IoKernel.Leaves p i f k) h hq (.refl k)
      (fun k2 j g k3 v _ _ _ _ hd hI =>
        (hI.trans (decref_leaves hd)).trans (setFidt_leaves fun he => absurd he (hne hone))) hk1
    exact (hclosed.trans (setProc_leaves (hne hone))).trans (setPc_leaves _ _ _)
  · obtain rfl : k.setPc t .exited = k' := by simpa using hexit
    exact setPc_leaves k t .exited

end Calls

/-! ### Runs -/

/-- Process `p` has FCB `f` at fid `i`, and it leads to the stream of `k0` unless a socket named it
there. -/
structure IoKernel.Holds (k0 : IoKernel) (p : Pid) (i : Nat) (f : FcbId) (k : IoKernel) : Prop where
  counted : k.Counted none
  alive : (k.procs p).pstate = .alive
  slot : (k.procs p).fidt i = some f
  stream : k0.Unnamed f → k.files.stream f = k0.files.stream f ∧ k.Unnamed f

section Runs

variable {k k' k0 : IoKernel} {p : Pid} {i : Nat} {f : FcbId} {e : IoEvent}
  {t : ThreadId} {y : IoThread} {ret : Option IoRet}

theorem givesUp_of_thread (hthread : e.thread = some t) (ht : k.threads[t]? = some y) :
    k.givesUp p i e = (y.pid = p && k.drops p i e) := by
  rw [IoKernel.givesUp, hthread, Option.bind_some, ht, Option.any_some]

theorem call_leaves {res : IoResult} (h : k.Counted none) (hi : i < maxFileid)
    (hp : (k.procs p).pstate = .alive)
    (hslot : (k.procs p).fidt i = some f) (hok : k.givesUp p i e = false)
    (hthread : e.thread = some t)
    (ht : k.threads[t]? = some y) (hy : y.pc = .user) (hc : k.call t y.pid e = some res) :
    res.All (Leaving p i f k) := by
  have hq : (k.procs y.pid).pstate = .alive := h.owner y (List.mem_of_getElem? ht) (by simp [hy])
  have hne : (k.procs p).fidt i ≠ none := by simp [hslot]
  have hf : f ∉ k.files.fcbFreelist := (inUse_of_slot h hi hslot).2
  rw [givesUp_of_thread hthread ht] at hok
  cases e with
  | openNull =>
    obtain rfl := Option.some.inj hc
    exact openStream_leaves hne hf
  | openTerminal =>
    obtain rfl := Option.some.inj hc
    exact openStream_leaves hne hf
  | openInfo =>
    obtain rfl := Option.some.inj hc
    exact sysOpenInfo_leaves hne hf
  | pipe =>
    obtain rfl := Option.some.inj hc
    exact sysPipe_leaves hne hf
  | read _ fd n dev =>
    obtain rfl := Option.some.inj hc
    exact sysRead_all (.refl k) fun g ops _ _ => finishIo_leaves (incref_leaves g)
      (readStream_outcome n dev ops _)
  | write _ fd buf dev =>
    obtain rfl := Option.some.inj hc
    exact sysWrite_all (.refl k) fun g ops _ _ => finishIo_leaves (incref_leaves g)
      (writeStream_outcome buf dev ops _)
  | close _ fd =>
    obtain rfl := Option.some.inj hc
    refine sysClose_all (fun _ => .refl k) fun g k1 v hg hd =>
      (setFidt_leaves fun hyp hfd => ?_).trans (decref_leaves hd)
    obtain ⟨-, h0, -⟩ := getFcb_some hg
    have hfd' : fd = i := by omega
    simp [IoKernel.drops, hyp, hfd'] at hok
  | dup2 _ oldfd newfd =>
    obtain rfl := Option.some.inj hc
    refine sysDup2_all (fun _ => .refl k) fun old k1 hrange hold hother hclosed => ?_
    have hset : IoKernel.Leaves p i f (k1.incref old)
        ((k1.incref old).setFidt y.pid newfd.toNat (some old)) :=
      setFidt_leaves fun hyp hfd => by
        have hfd' : newfd = i := by omega
        subst hyp
        simp only [IoKernel.drops, hold, hfd', ne_eq, reduceCtorEq, not_false_eq_true,
          true_and, decide_true, Bool.true_and,
          decide_eq_false_iff_not, not_not] at hok
        exact hother (hfd' ▸ hok.symm)
    rcases hclosed with ⟨-, rfl⟩ | ⟨new, v, -, hd⟩
    · exact (incref_leaves old).trans hset
    · exact ((decref_leaves hd).trans (incref_leaves old)).trans hset
  | socket _ port =>
    obtain rfl := Option.some.inj hc
    exact .ret (sysSocket_leaves port hi hne hf)
  | listen _ sock =>
    obtain rfl := Option.some.inj hc
    intro k' ret hr
    rcases sysListen_cases hr with ⟨rfl, -⟩ | ⟨g, s, c, -, -, -, -, -, -, -, rfl⟩
    · exact .refl k'
    · have hset : IoKernel.Leaves p i f k (k.setSocket s fun c =>
          { c with type := .listener, union := .queue [], reqAvailable := condInit }) :=
        setSocket_leaves s fun _ => .inl rfl
      exact hset.trans (leaves_of_tables rfl rfl fun h => h)
  | accept _ lsock garbage =>
    obtain rfl := Option.some.inj hc
    intro k' ret hr
    rcases sysAccept_cases hr with ⟨rfl, -⟩ | ⟨g, s, c, -, -, -, -, -, hloop⟩
    · exact .refl k'
    · have href : IoKernel.Leaves p i f k (k.addRef s 1) := setSocket_leaves s fun _ => .inl rfl
      exact href.trans (acceptLoop_leaves (k := k.addRef s 1) hi hne hf _ _ hloop)
  | connect _ sock port =>
    obtain rfl := Option.some.inj hc
    intro k' ret hr
    rcases sysConnect_cases hr with ⟨rfl, -⟩ |
      ⟨g, s, c, l, lc, q, -, -, -, -, -, -, -, -, -, -, rfl⟩
    · exact .refl k'
    · have href : IoKernel.Leaves p i f k (k.addRef s 1) := setSocket_leaves s fun _ => .inl rfl
      refine href.trans (leaves_of_tables rfl rfl fun hn => ?_)
      exact setSocket_unnamed (fun _ => .inl rfl) hn
  | shutDown _ sock how =>
    obtain rfl := Option.some.inj hc
    refine .bind fun r hr => .ret ?_
    have hsame := sysShutDown_same hr
    refine leaves_of_tables hsame.procs hsame.files fun hn => ?_
    unfold IoKernel.Unnamed
    rw [(sysShutDown_view hr).sockets]
    exact hn
  | exec _ child call =>
    simp only [IoKernel.call] at hc
    split at hc
    · rename_i hfree
      obtain rfl := Option.some.inj hc
      have hchild : child ≠ p := by
        rintro rfl
        simp [hp] at hfree
      intro k' ret hr
      obtain ⟨n, -, rfl⟩ := ioExec_cases h hq hfree hr
      have hinherit :=
        (setProc_leaves (k := k) (i := i) (f := f) (c := fun c => { c with pstate := .alive })
          hchild).trans
        (inherit_leaves y.pid n hchild)
      cases call with
      | false => exact hinherit
      | true => exact hinherit.trans (leaves_of_tables rfl rfl fun h => h)
    · simp at hc
  | createThread =>
    obtain rfl := Option.some.inj hc
    exact .ret (leaves_of_tables rfl rfl fun h => h)
  | threadExit =>
    obtain rfl := Option.some.inj hc
    refine .map fun k' hk' => threadExit_leaves h hq (fun hone hyp => ?_) hk'
    simp [IoKernel.drops, hyp, hyp ▸ hone] at hok
  | _ => simp [IoKernel.call] at hc

theorem goOn_leaves {dev : List UInt8} {garbage : Nat → UInt8} {res : IoResult} (h : k.Counted none)
    (hi : i < maxFileid) (hslot : (k.procs p).fidt i = some f)
    (hg : k.goOn t y.pid y.pc dev garbage = some res) : res.All (Leaving p i f k) := by
  have hne : (k.procs p).fidt i ≠ none := by simp [hslot]
  have hf : f ∉ k.files.fcbFreelist := (inUse_of_slot h hi hslot).2
  have hawake : IoKernel.Leaves p i f k (k.setPc t .user) := setPc_leaves k t .user
  cases hpc : y.pc with
  | user => simp [IoKernel.goOn, hpc] at hg
  | exited => simp [IoKernel.goOn, hpc] at hg
  | readingPipe g q n =>
    simp only [IoKernel.goOn, hpc] at hg
    split at hg
    · simp at hg
    · obtain rfl := Option.some.inj hg
      exact finishIo_leaves hawake (.map fun c _ => readPipe_outcome q n _)
  | readingSerial g devno n =>
    simp only [IoKernel.goOn, hpc] at hg
    split at hg
    · simp at hg
    · obtain rfl := Option.some.inj hg
      exact finishIo_leaves hawake (.some (readSerial_outcome devno n dev))
  | writingPipe g q buf =>
    simp only [IoKernel.goOn, hpc] at hg
    split at hg
    · simp at hg
    · obtain rfl := Option.some.inj hg
      exact finishIo_leaves hawake (.map fun c _ => writePipe_outcome q buf _)
  | accepting s =>
    simp only [IoKernel.goOn, hpc] at hg
    split at hg
    · simp at hg
    · obtain rfl := Option.some.inj hg
      intro k' ret hr
      exact hawake.trans (acceptLoop_leaves (k := k.setPc t .user) hi hne hf _ _ hr)
  | connecting s r expired =>
    simp only [IoKernel.goOn, hpc] at hg
    split at hg
    · simp at hg
    · obtain rfl := Option.some.inj hg
      intro k' ret hr
      exact hawake.trans (connectLoop_leaves (k := k.setPc t .user) _ _ hr)

/-- Whatever happens, short of the process giving up the fid. -/
theorem step_leaves (h : k.Counted none) (hi : i < maxFileid) (hp : (k.procs p).pstate = .alive)
    (hslot : (k.procs p).fidt i = some f) (hok : k.givesUp p i e = false)
    (hs : Stepped k e k' ret) :
    IoKernel.Leaves p i f k k' := by
  cases hs with
  | fault => exact leaves_of_tables rfl rfl fun h => h
  | timeout => exact leaves_of_tables rfl rfl fun h => h
  | serialReady => exact leaves_of_tables rfl rfl fun h => h
  | reap q hq =>
    refine setProc_leaves ?_
    rintro rfl
    simp [hp] at hq
  | proceed t y dev garbage k' ret ht hgo => exact goOn_leaves h hi hslot hgo _ _ rfl
  | call e t y k' ret he ht hy hc => exact call_leaves h hi hp hslot hok he ht hy hc _ _ rfl

theorem IoKernel.Holds.step (h : IoKernel.Holds k0 p i f k) (hi : i < maxFileid)
    (hok : k.givesUp p i e = false)
    (hs : k.step e = some k') : IoKernel.Holds k0 p i f k' := by
  obtain ⟨-, ret, hstep⟩ := step_cases_io hs
  have hleaves := step_leaves h.counted hi h.alive h.slot hok hstep
  refine ⟨h.counted.step hs, hleaves.pstate.trans h.alive, hleaves.slot.trans h.slot, fun hn => ?_⟩
  obtain ⟨hstream, hn'⟩ := h.stream hn
  obtain ⟨hstream', hn''⟩ := hleaves.stream hn'
  exact ⟨hstream'.trans hstream, hn''⟩

/-- The fids of a new process lead where those of its parent do. -/
theorem exec_inherits {child : Pid} {call : Bool} (ht : k.threads[t]? = some ⟨p, .user⟩)
    (hchild : 1 < child.val) (hi : i < maxFileid) (hs : k.step (.exec t child call) = some k') :
    (k'.procs child).fidt i = (k.procs p).fidt i := by
  have hboot : ¬child.val ≤ 1 := by omega
  obtain ⟨⟨k1, ret⟩, hret, rfl⟩ := Option.map_eq_some_iff.mp hs
  obtain ⟨p', res, ht', hcall, hsettle⟩ := stepRet_call rfl (fun _ _ => by simp) hret
  obtain rfl : p = p' := by simpa [ht] using ht'
  simp only [IoKernel.call] at hcall
  split at hcall
  · rename_i hfree
    obtain rfl := Option.some.inj hcall
    simp only [ioExec, hboot, if_false, IoKernel.ret, IoKernel.settle] at hsettle
    obtain ⟨rfl, -⟩ := Prod.mk.inj hsettle
    have hparent : ((k.setProc child fun c => { c with pstate := .alive }).procs p).fidt i =
        (k.procs p).fidt i := by
      by_cases hp : p = child
      · subst hp
        simp [IoKernel.setProc]
      · simp [IoKernel.setProc, Function.update_of_ne hp]
    rw [← hparent]
    cases call <;> simp [IoKernel.addThread, IoKernel.setProc, hi]
  · simp at hcall

end Runs

/-- In every run: short of a `Close`, a `Dup2` onto it or the exit of the process's own last thread,
a fid stays open on its FCB, which nobody frees, and on its stream, unless a socket named the FCB
from the start; and a new process begins with the fids of its parent. -/
theorem fid_isolation {serialPorts : Nat} {k0 k : IoKernel} {p : Pid} {i : Nat} {f : FcbId}
    (h0 : Reach IoKernel.step Always (bootIo serialPorts) k0) (hf : getFcb k0 p i = some f)
    (h : Reach IoKernel.step (fun u e => u.givesUp p i e = false) k0 k) :
    getFcb k p i = some f ∧ f ∉ k.files.fcbFreelist ∧ 1 ≤ (k.files.ft f).refcount ∧
      (k0.Unnamed f → k.files.stream f = k0.files.stream f) ∧
      ∀ t child call k', k.threads[t]? = some ⟨p, .user⟩ → 1 < child.val →
      k.step (.exec t child call) = some k' →
        getFcb k' child i = some f := by
  obtain ⟨hi, -, hslot⟩ := getFcb_some hf
  rw [Int.toNat_natCast] at hi hslot
  have hcount := counted_of_reach h0
  have halive : (k0.procs p).pstate = .alive := by
    by_contra hp
    simp [hcount.idle p hp i hi] at hslot
  have hk : IoKernel.Holds k0 p i f k := h.invariant ⟨hcount, halive, hslot, fun hn => ⟨rfl, hn⟩⟩
    fun u e v hu hok hs => hu.step hi hok hs
  obtain ⟨hmax, hfree⟩ := inUse_of_slot hk.counted hi hk.slot
  have hused := hk.counted.exact.used f hmax hfree
  have hrefs := hk.counted.exact.count_eq f hmax hfree
  refine ⟨(getFcb_nat hi).trans hk.slot, hfree, by omega, fun hn => (hk.stream hn).1, ?_⟩
  intro t child call k' ht hchild hs
  rw [getFcb_nat hi, exec_inherits ht hchild hi hs]
  exact hk.slot

/-- A child closes the read end of a pipe that it has from init, and init keeps it. -/
theorem fid_isolation_child : ∃ k0 k : IoKernel, getFcb k0 2 0 = some 0 ∧ getFcb k 2 0 = none ∧
    getFcb k 1 0 = some 0 ∧ k.files.stream 0 = k0.files.stream 0 := by
  have hp : (exec IoKernel.step (bootIo 0) [.pipe 0 fun _ => 0, .exec 0 2 true]).any (fun k0 =>
      decide (getFcb k0 1 0 = some 0 ∧ getFcb k0 2 0 = some 0 ∧ k0.sockets = []) &&
        (exec (guarded (fun u e => !u.givesUp 1 0 e) IoKernel.step) k0 [.close 1 0]).any fun k =>
          decide (getFcb k 2 0 = none)) = true := by
    decide +kernel
  obtain ⟨k0, hk0, hp⟩ := (Option.any_eq_true ..).mp hp
  obtain ⟨hfids, hp⟩ := Bool.and_eq_true_iff.mp hp
  obtain ⟨k, hk, hclosed⟩ := (Option.any_eq_true ..).mp hp
  obtain ⟨hinit, hchild, hsockets⟩ := of_decide_eq_true hfids
  have hrun : Reach IoKernel.step (fun u e => u.givesUp 1 0 e = false) k0 k :=
    reach_of_guarded_exec (fun u e h => by simpa using h) hk
  obtain ⟨hkept, -, -, hstream, -⟩ := fid_isolation (i := 0) (reach_of_exec hk0) hinit hrun
  exact ⟨k0, k, hchild, of_decide_eq_true hclosed, hkept, hstream fun c hc =>
    by simp [hsockets] at hc⟩

end TinyOS
