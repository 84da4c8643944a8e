import TinyOS.IoRun

/-! What a step can do to open files and sockets. Everything that happens to pipes,
references and the `FIDT`s alone is left out of view. -/

namespace TinyOS

open Counting Transition Relation

def IoKernel.waits (k : IoKernel) (t : ThreadId) : Option IoPc :=
  (k.threads[t]?).bind fun x => x.pc.socketWait

def FileTable.stream (files : FileTable) (f : FcbId) : StreamObj × Option FileOps :=
  ((files.ft f).streamobj, (files.ft f).streamfunc)

/-- The same open files with the same streams, and the same sockets, ports and requests. -/
structure IoKernel.SameView (k k' : IoKernel) : Prop where
  sockets : k'.sockets = k.sockets
  portMap : k'.portMap = k.portMap
  requests : k'.requests = k.requests
  history : k'.history = k.history
  free : k'.files.fcbFreelist = k.files.fcbFreelist
  events : k'.files.history = k.files.history
  stream : ∀ f, k'.files.stream f = k.files.stream f
  waits : ∀ t, k'.waits t = k.waits t

theorem IoKernel.SameView.refl (k : IoKernel) : k.SameView k :=
  ⟨rfl, rfl, rfl, rfl, rfl, rfl, fun _ => rfl, fun _ => rfl⟩

def IoKernel.freeFids (k : IoKernel) (p : Pid) : Nat :=
  (List.range maxFileid).countP fun i => (k.procs p).fidt i = none

/-- A `Pipe` call would find one fid and one FCB, but not two of both. -/
def IoKernel.halfPipe (k : IoKernel) (p : Pid) : Bool :=
  1 ≤ k.freeFids p ∧ k.files.fcbFreelist ≠ [] ∧ (k.freeFids p = 1 ∨ k.files.fcbFreelist.tail = [])

def noHalfPipe (k : IoKernel) : IoEvent → Bool
  | .pipe t _ => (k.threads[t]?).all fun y => !k.halfPipe y.pid
  | _ => true

/-- The references to FCB `f` that a step gives back: those of the fids it closes, and that
of a thread inside `sys_Read` or `sys_Write`. -/
def IoKernel.letsGo (k : IoKernel) (e : IoEvent) (f : FcbId) : Nat :=
  match e.thread.bind fun t => k.threads[t]? with
  | none => 0
  | some y =>
    match e with
    | .close _ fd => if getFcb k y.pid fd = some f then 1 else 0
    | .dup2 _ oldfd newfd =>
      if getFcb k y.pid oldfd ≠ none ∧ getFcb k y.pid newfd = some f then 1 else 0
    | .threadExit _ =>
      if k.threads.countP (·.liveIn y.pid) = 1 then
        occurrences (fun i : Fin maxFileid => (k.procs y.pid).fidt i) (some f)
      else 0
    | .proceed .. => if y.pc.uses f then 1 else 0
    | _ => 0

def IoKernel.Frees (k : IoKernel) (e : IoEvent) (f : FcbId) : Prop :=
  (k.files.ft f).refcount ≤ k.letsGo e f

/-- What happens to open files, apart from the calls on sockets, when only files in `L` are
closed. -/
inductive FileEffect (L : FcbId → Prop) (k : IoKernel) : IoKernel → Prop
  | same (k' : IoKernel) (h : k.SameView k') : FileEffect L k k'
  | opened (p : Pid) (i : Nat) (f : FcbId) (rest : List FcbId) (obj : StreamObj) (ops : FileOps)
    (hf : k.Free p i f rest) (hops : ops ≠ .socketFileOps) (hobj : ∀ s, obj ≠ .socket s) :
    FileEffect L k ((k.grab p i f rest).setStream f obj ops)
  | undone (p : Pid) (i : Nat) (f : FcbId) (rest : List FcbId) (hf : k.Free p i f rest) :
    FileEffect L k ((k.grab p i f rest).unreserve p i f)
  | closed (p : Pid) (f : FcbId) (k' : IoKernel) (v : Int) (hL : L f) (hv : f < maxFiles)
    (hf : f ∉ k.files.fcbFreelist) (hlast : (k.files.ft f).refcount - 1 = 0)
    (hd : k.decref p f = some (k', v)) : FileEffect L k k'

/-- How thread `t` of process `p` gets to the loop of `sys_Accept` for socket `s`. -/
inductive AcceptStart (k : IoKernel) (t : ThreadId) (p : Pid) (s : SockId) (garbage : Nat → UInt8) :
    IoEvent → IoKernel → Prop
  | call (lsock : Int) (f : FcbId) (c : SocketCb) (ht : k.threads[t]? = some ⟨p, .user⟩)
    (hf : getFcb k p lsock = some f) (hobj : (k.files.ft f).streamobj = .socket s)
    (hc : k.sockets[s]? = some c) (htype : c.type = .listener) (hport : k.portMap c.port ≠ none) :
    AcceptStart k t p s garbage (.accept t lsock garbage) (k.addRef s 1)
  | resume (dev : List UInt8) (ht : k.threads[t]? = some ⟨p, .accepting s⟩)
    (hwait : t ∉ (k.sockets[s]?).elim [] (·.reqAvailable.waitset)) :
    AcceptStart k t p s garbage (.proceed t dev garbage) (k.setPc t .user)

inductive Effect (k : IoKernel) : IoEvent → IoKernel → Option IoRet → Prop
  | files {e : IoEvent} {k' : IoKernel} {ret : Option IoRet}
    (h : ReflTransGen (FileEffect (k.Frees e)) k k') :
    Effect k e k' ret
  | socket (t : ThreadId) (p : Pid) (i : Nat) (f : FcbId) (rest : List FcbId) (port : Int)
    {ret : Option IoRet} (hf : k.Free p i f rest) (h0 : 0 ≤ port) (hmax : port ≤ maxPort) :
    Effect k (.socket t port)
      (((k.grab p i f rest).setFidt p maxFileid (some f)).addSocket f port) ret
  | half (t : ThreadId) (p : Pid) (garbage : Nat → UInt8) (i : Nat) (f : FcbId) (rest : List FcbId)
    {ret : Option IoRet} (ht : k.threads[t]? = some ⟨p, .user⟩) (hf : k.Free p i f rest)
    (hhalf : k.halfPipe p = true) : Effect k (.pipe t garbage) (k.grab p i f rest) ret
  | listen (t : ThreadId) (p : Pid) (sock : Int) (f : FcbId) (s : SockId) (c : SocketCb)
    {ret : Option IoRet} (hf : getFcb k p sock = some f)
    (hobj : (k.files.ft f).streamobj = .socket s)
    (hc : k.sockets[s]? = some c) (h0 : 0 < c.port) (hmax : c.port ≤ maxPort)
    (hport : k.portMap c.port = none) (htype : c.type = .unbound)
    (ht : k.threads[t]? = some ⟨p, .user⟩) : Effect k (.listen t sock)
    (k.installListener s c.port) ret
  | accept {e : IoEvent} (t : ThreadId) (p : Pid) (s : SockId) (b k' : IoKernel)
    (garbage : Nat → UInt8) {ret : Option IoRet}
    (hb : AcceptStart k t p s garbage e b) (h : acceptLoop b t p s garbage = some (k', ret)) :
    Effect k e k' ret
  | connect (t : ThreadId) (p : Pid) (sock port : Int) (f : FcbId) (s l : SockId) (c lc : SocketCb)
    (q : List ReqId) {ret : Option IoRet} (ht : k.threads[t]? = some ⟨p, .user⟩)
    (hf : getFcb k p sock = some f) (hobj : (k.files.ft f).streamobj = .socket s)
    (hc : k.sockets[s]? = some c) (htype : c.type ≠ .listener) (href : c.refcount = 0)
    (hl : k.portMap port = some l) (hlc : k.sockets[l]? = some lc) (hlt : lc.type = .listener)
    (hq : lc.union = .queue q) :
    Effect k (.connect t sock port) ((k.addRequest s l q).waitConnect t s k.requests.length) ret
  | goOn (t : ThreadId) (p : Pid) (s : SockId) (r : ReqId) (expired : Bool) (dev : List UInt8)
    (garbage : Nat → UInt8) (k' : IoKernel) {ret : Option IoRet}
    (ht : k.threads[t]? = some ⟨p, .connecting s r expired⟩)
    (hwait : t ∉ (k.requests[r]?).elim [] (·.connectedCv.waitset))
    (h : connectLoop (k.setPc t .user) t s r expired = some (k', ret)) :
    Effect k (.proceed t dev garbage) k' ret
  | expire (t : ThreadId) (p : Pid) (s : SockId) (r : ReqId) {ret : Option IoRet}
    (ht : k.threads[t]? = some ⟨p, .connecting s r false⟩)
    (hwait : t ∈ (k.requests[r]?).elim [] (·.connectedCv.waitset)) :
    Effect k (.timeout t) (k.expire t s r) ret

section Effects

variable {k k' : IoKernel} {p : Pid} {f : FcbId} {t : ThreadId} {y : IoThread} {e : IoEvent}
  {ret : Option IoRet} {L : FcbId → Prop}

theorem noHalfPipe_iff {garbage : Nat → UInt8} (ht : k.threads[t]? = some y) :
    noHalfPipe k (.pipe t garbage) = true ↔ k.halfPipe y.pid = false := by
  simp [noHalfPipe, ht]

theorem Effect.same (h : k.SameView k') : Effect k e k' ret := .files (.single (.same k' h))

theorem waits_setPc (ht : k.threads[t]? = some y) (hy : y.pc.socketWait = none) {pc : IoPc}
    (hpc : pc.socketWait = none) (t' : ThreadId) : (k.setPc t pc).waits t' = k.waits t' := by
  by_cases hne : t' = t
  · subst hne
    simp [IoKernel.waits, IoKernel.setPc, ht, hy, hpc]
  · have hne' : t ≠ t' := Ne.symm hne
    simp [IoKernel.waits, IoKernel.setPc, hne']

theorem IoKernel.SameTables.view (h : k.SameTables k') (hs : k'.sockets = k.sockets)
    (hp : k'.portMap = k.portMap) : k.SameView k' where
  sockets := hs
  portMap := hp
  requests := h.requests
  history := h.history
  free := by rw [h.files]
  events := by rw [h.files]
  stream f := by rw [h.files]
  waits t := by rw [IoKernel.waits, h.threads]; rfl

theorem IoKernel.SameView.trans {k'' : IoKernel} (h : k.SameView k') (h' : k'.SameView k'') :
    k.SameView k'' where
  sockets := h'.sockets.trans h.sockets
  portMap := h'.portMap.trans h.portMap
  requests := h'.requests.trans h.requests
  history := h'.history.trans h.history
  free := h'.free.trans h.free
  events := h'.events.trans h.events
  stream f := (h'.stream f).trans (h.stream f)
  waits t := (h'.waits t).trans (h.waits t)

/-- Counts, the `FIDT`s and the states of processes are out of view. -/
theorem view_of_counts (files : FileTable) (procs : Pid → IoProcess)
    (hfree : files.fcbFreelist = k.files.fcbFreelist) (hev : files.history = k.files.history)
    (hstream : ∀ f, files.stream f = k.files.stream f) :
    k.SameView { k with files := files, procs := procs } :=
  ⟨rfl, rfl, rfl, rfl, hfree, hev, hstream, fun _ => rfl⟩

theorem setProc_view (k : IoKernel) (p : Pid) (g : IoProcess → IoProcess) :
    k.SameView (k.setProc p g) :=
  view_of_counts k.files _ rfl rfl fun _ => rfl

theorem setFidt_view (k : IoKernel) (p : Pid) (i : Nat) (x : Option FcbId) :
    k.SameView (k.setFidt p i x) := setProc_view k p _

theorem stream_setRefcount (files : FileTable) (f : FcbId) (n : Int) (g : FcbId) :
    (files.setRefcount f n).stream g = files.stream g := by
  by_cases hg : g = f
  · subst hg
    simp [FileTable.stream, FileTable.setRefcount]
  · simp [FileTable.stream, FileTable.setRefcount, hg]

theorem stream_setStream (files : FileTable) (f : FcbId) (obj : StreamObj)
    (ops : FileOps) (g : FcbId) :
    (files.setStream f obj ops).stream g = if g = f then (obj, some ops) else files.stream g := by
  by_cases hg : g = f
  · subst hg
    simp [FileTable.stream, FileTable.setStream]
  · simp [FileTable.stream, FileTable.setStream, hg]

theorem stream_grab {i : Nat} {rest : List FcbId} (g : FcbId) :
    (k.grab p i f rest).files.stream g = k.files.stream g := by
  show (((({ k.files with fcbFreelist := rest } : FileTable).setRefcount f 0).record
    (.alloc f)).setRefcount f _).stream g = k.files.stream g
  rw [stream_setRefcount]
  exact stream_setRefcount _ f 0 g

theorem stream_addPipe (w r : FcbId) (garbage : Nat → UInt8) (g : FcbId) :
    (k.addPipe w r garbage).files.stream g =
      if g = w then (.pipe k.pipes.length, some .writerFileOps)
      else if g = r then (.pipe k.pipes.length, some .readerFileOps) else k.files.stream g := by
  show ((k.files.setStream r _ _).setStream w _ _).stream g = _
  rw [stream_setStream, stream_setStream]

theorem setRefcount_view (k : IoKernel) (f : FcbId) (n : Int) :
    k.SameView { k with files := k.files.setRefcount f n } :=
  view_of_counts _ k.procs rfl rfl (stream_setRefcount k.files f n)

theorem incref_view (k : IoKernel) (f : FcbId) : k.SameView (k.incref f) := setRefcount_view k f _

theorem incref_stream {ops : FileOps} (hops : (k.files.ft f).streamfunc = some ops) :
    (k.incref f).files.stream f = ((k.files.ft f).streamobj, some ops) := by
  rw [(incref_view k f).stream, FileTable.stream, hops]

theorem setPc_view (ht : k.threads[t]? = some y) (hy : y.pc.socketWait = none) {pc : IoPc}
    (hpc : pc.socketWait = none) : k.SameView (k.setPc t pc) :=
  ⟨rfl, rfl, rfl, rfl, rfl, rfl, fun _ => rfl, waits_setPc ht hy hpc⟩

theorem addThread_view (k : IoKernel) (p : Pid) : k.SameView (k.addThread p) := by
  refine ⟨rfl, rfl, rfl, rfl, rfl, rfl, fun _ => rfl, fun t => ?_⟩
  by_cases hlt : t < k.threads.length
  · simp [IoKernel.waits, IoKernel.addThread, List.getElem?_append_left hlt]
  · have hnone : k.threads[t]? = none := List.getElem?_eq_none (Nat.le_of_not_lt hlt)
    rcases h : (k.addThread p).threads[t]? with _ | x
    · simp [IoKernel.waits, h, hnone]
    · rcases getElem?_concat_cases h with ⟨-, rfl⟩ | ⟨-, hx⟩
      · simp [IoKernel.waits, h, hnone, IoPc.socketWait]
      · rw [hnone] at hx
        simp at hx

theorem inherit_view (k : IoKernel) (p child : Pid) (n : Nat) :
    k.SameView (k.inherit p child n) := by
  induction n with
  | zero => exact .refl k
  | succ n ih =>
    simp only [IoKernel.inherit]
    split
    · exact ih
    · exact (ih.trans (incref_view _ _)).trans (setProc_view _ _ _)

/-! ### Files -/

/-- Letting go of a reference closes the stream or changes nothing in view. -/
theorem decref_effect {v : Int} (hL : (k.files.ft f).refcount - 1 = 0 → L f) (hv : f < maxFiles)
    (hf : f ∉ k.files.fcbFreelist) (hd : k.decref p f = some (k', v)) : FileEffect L k k' := by
  by_cases hlast : (k.files.ft f).refcount - 1 = 0
  · exact .closed p f k' v (hL hlast) hv hf hlast hd
  · have hdec : fcbDecref k.files f =
        (k.files.setRefcount f ((k.files.ft f).refcount - 1), none) := by
      simp [fcbDecref, hlast]
    obtain ⟨rfl, -⟩ : _ = k' ∧ _ = v := by simpa [IoKernel.decref, hdec] using hd
    exact .same _ (setRefcount_view k f _)

theorem inUse_of_slot {i : Nat} (h : k.Counted none) (hi : i < maxFileid)
    (hf : (k.procs p).fidt i = some f) : f < maxFiles ∧ f ∉ k.files.fcbFreelist :=
  h.exact.inUse (Nat.add_pos_left (refs_pos_of_slot hi hf) _)

theorem inUse_of_getFcb {fd : Int} (h : k.Counted none) (hf : getFcb k p fd = some f) :
    f < maxFiles ∧ f ∉ k.files.fcbFreelist := by
  obtain ⟨hi, -, hslot⟩ := getFcb_some hf
  exact inUse_of_slot h hi hslot

/-- The files and sockets a call leaves behind. -/
def Filed (L : FcbId → Prop) (k k' : IoKernel) (_ : Option IoRet) : Prop :=
  ReflTransGen (FileEffect L) k k'

theorem openStream_effect {ops : FileOps} {obj : StreamObj} {present : Bool}
    (hops : ops ≠ .socketFileOps) (hobj : ∀ s, obj ≠ .socket s) :
    (openStream k p ops obj present).All (Filed L k) := by
  intro k' r hr
  rcases openStream_cases hr with rfl | ⟨i, f, rest, hf, rfl | rfl⟩
  · exact .refl
  · exact .single (.opened p i f rest obj ops hf hops hobj)
  · exact .single (.undone p i f rest hf)

theorem openInfo_effect : (sysOpenInfo k p).All (Filed L k) := by
  intro k' r hr
  rcases sysOpenInfo_cases hr with rfl | ⟨i, f, rest, hf, rfl⟩
  · exact .refl
  · have hopen := FileEffect.opened (L := L) (k := k) p i f rest (.procinfo k.infos) .procinfoOps hf
      (by simp) (by simp)
    exact .tail (.single hopen) (.same _ ⟨rfl, rfl, rfl, rfl, rfl, rfl, fun _ => rfl, fun _ => rfl⟩)

theorem close_effect {fd : Int} (h : k.Counted none)
    (hL : ∀ f, getFcb k p fd = some f → (k.files.ft f).refcount - 1 = 0 → L f) :
    (sysClose k p fd).All (Filed L k) := by
  refine sysClose_all (fun _ => .refl) fun f k1 v hf hd => ?_
  obtain ⟨hv, hfree⟩ := inUse_of_getFcb h hf
  exact .tail (.single (.same _ (setProc_view k p _))) (decref_effect (hL f hf) hv hfree hd)

theorem dup2_effect {oldfd newfd : Int} (h : k.Counted none)
    (hL : ∀ f, getFcb k p oldfd ≠ none → getFcb k p newfd = some f →
      (k.files.ft f).refcount - 1 = 0 → L f) :
    (sysDup2 k p oldfd newfd).All (Filed L k) := by
  refine sysDup2_all (fun _ => .refl) fun old k1 _ hold _ hclosed => ?_
  have hlast : FileEffect L k1 ((k1.incref old).setFidt p newfd.toNat (some old)) :=
    .same _ ((incref_view k1 old).trans (setProc_view _ p _))
  rcases hclosed with ⟨-, rfl⟩ | ⟨new, v, hnew, hd⟩
  · exact .single hlast
  · obtain ⟨hv, hfree⟩ := inUse_of_getFcb h hnew
    exact .tail (.single (decref_effect (hL new (by simp [hold]) hnew) hv hfree hd)) hlast

theorem finishIo_effect {res : IoResult} {k0 : IoKernel}
    (hL : (k.files.ft f).refcount - 1 = 0 → L f) (hv : f < maxFiles)
    (hf : f ∉ k.files.fcbFreelist) (hview : k0.SameView k) (ht : k.threads[t]? = some y)
    (hy : y.pc.socketWait = none) (hm : res.All (MethodOutcome k t f)) :
    (finishIo p f res).All (Filed L k0) := by
  intro k' r hr
  rcases res with _ | ⟨k1, _ | x⟩
  · simp [finishIo] at hr
  · obtain ⟨rfl, -⟩ : k1 = k' ∧ _ = r := by simpa [finishIo] using hr
    cases hm k1 none rfl with
    | sleeps k1 pc hs hsock hport _ hwait =>
      have ht1 : k1.threads[t]? = some y := by rw [hs.threads]; exact ht
      exact .single (.same _ ((hview.trans (hs.view hsock hport)).trans (setPc_view ht1 hy hwait)))
  · obtain ⟨⟨k2, v⟩, hd, he⟩ := Option.map_eq_some_iff.mp hr
    obtain ⟨rfl, -⟩ : k2 = k' ∧ _ = r := by simpa using he
    cases hm k1 (some x) rfl with
    | returns k1 r hs hsock hport =>
      have hf1 : f ∉ k1.files.fcbFreelist := by rw [hs.files]; exact hf
      exact .tail (.single (.same _ (hview.trans (hs.view hsock hport))))
        (decref_effect (by rw [hs.files]; exact hL) hv hf1 hd)

/-- A fid still leads to the FCB of a call that returns at once. -/
theorem incref_not_last {fd : Int} (h : k.Counted none) (hf : getFcb k p fd = some f)
    (hlast : ((k.incref f).files.ft f).refcount - 1 = 0) : L f := by
  obtain ⟨hv, hfree⟩ := inUse_of_getFcb h hf
  have hused := h.exact.used f hv hfree
  have hcount := h.exact.count_eq f hv hfree
  have hinc : ((k.incref f).files.ft f).refcount = (k.files.ft f).refcount + 1 := by
    simp [IoKernel.incref, fcbIncref, FileTable.setRefcount]
  omega

theorem read_effect {fd : Int} {n : Nat} {dev : List UInt8} (h : k.Counted none)
    (ht : k.threads[t]? = some y) (hy : y.pc = .user) :
    (sysRead k t p fd n dev).All (Filed L k) := by
  refine sysRead_all .refl fun f ops hf _ => ?_
  obtain ⟨hv, hfree⟩ := inUse_of_getFcb h hf
  exact finishIo_effect (k := k.incref f) (incref_not_last h hf) hv hfree
    (incref_view k f) ht (by rw [hy]; rfl)
    (readStream_outcome n dev _ _)

theorem write_effect {fd : Int} {buf dev : List UInt8} (h : k.Counted none)
    (ht : k.threads[t]? = some y) (hy : y.pc = .user) :
    (sysWrite k t p fd buf dev).All (Filed L k) := by
  refine sysWrite_all .refl fun f ops hf _ => ?_
  obtain ⟨hv, hfree⟩ := inUse_of_getFcb h hf
  exact finishIo_effect (k := k.incref f) (incref_not_last h hf) hv hfree
    (incref_view k f) ht (by rw [hy]; rfl)
    (writeStream_outcome buf dev _ _)

theorem grab_fidt {i : Nat} {rest : List FcbId} :
    ((k.grab p i f rest).procs p).fidt = Function.update (k.procs p).fidt i (some f) := by
  simp [IoKernel.grab, IoKernel.setFidt, IoKernel.setProc]

/-- The only way for the second reservation of `sys_Pipe` to fail alone. -/
theorem halfPipe_of_half {i : Nat} {rest : List FcbId} (hf : k.Free p i f rest)
    (hhalf : (∀ j, j < maxFileid → ((k.grab p i f rest).procs p).fidt j ≠ none) ∨ rest = []) :
    k.halfPipe p = true := by
  have hpos : 1 ≤ k.freeFids p :=
    List.countP_pos_iff.mpr ⟨i, List.mem_range.mpr hf.lt, by simpa using hf.empty⟩
  have hne : k.files.fcbFreelist ≠ [] := by simp [hf.free]
  rcases hhalf with hfull | rfl
  · have hone : k.freeFids p = 1 := by
      have hiff : ∀ j ∈ List.range maxFileid,
          decide ((k.procs p).fidt j = none) = true ↔ (j == i) = true := by
        intro j hj
        have hj' := hfull j (List.mem_range.mp hj)
        rw [grab_fidt] at hj'
        by_cases hji : j = i
        · subst hji
          simpa using hf.empty
        · simpa [hji] using hj'
      have hcount := List.count_eq_one_of_mem (List.nodup_range (n := maxFileid))
        (List.mem_range.mpr hf.lt)
      exact (List.countP_congr hiff).trans hcount
    simp [IoKernel.halfPipe, hne, hone]
  · simp [IoKernel.halfPipe, hpos, hf.free]

theorem pipe_effect {garbage : Nat → UInt8} (h : k.Counted none)
    (ht : k.threads[t]? = some ⟨p, .user⟩) :
    (sysPipe k p garbage).All fun k' ret => Effect k (.pipe t garbage) k' ret := by
  intro k' r hr
  rcases sysPipe_cases hr with ⟨rfl, -⟩ |
    ⟨i, f, rest, hf, ⟨rfl, -, hfail⟩ | ⟨j, g, rest', hg, -, rfl⟩⟩
  · exact .files .refl
  · exact .half t p garbage i f rest ht hf (halfPipe_of_half hf hfail)
  · have hopen := FileEffect.opened (L := k.Frees (.pipe t garbage)) (k := k) p i f rest
      (.pipe k.pipes.length) .readerFileOps hf (by simp) (by simp)
    have hfree : ((k.grab p i f rest).setStream f (.pipe k.pipes.length) .readerFileOps).Free
        p j g rest' := ⟨hg.lt, hg.empty, hg.least, hg.free⟩
    have hopen' := FileEffect.opened (L := k.Frees (.pipe t garbage)) p j g rest'
      (.pipe k.pipes.length) .writerFileOps hfree (by simp) (by simp)
    have hgf : g ≠ f := by
      have hnd := h.exact.nodup
      rw [hf.free, show rest = g :: rest' from hg.free] at hnd
      exact fun he => (List.nodup_cons.mp hnd).1 (he ▸ List.mem_cons_self)
    refine .files
      (.tail (.tail (.single hopen) hopen') (.same _ ⟨rfl, rfl, rfl, rfl, rfl, rfl, fun x => ?_,
      fun _ => rfl⟩))
    have hlast : ∀ (k : IoKernel) (f : FcbId) (obj : StreamObj) (ops : FileOps),
        (k.setStream f obj ops).files = k.files.setStream f obj ops := fun _ _ _ _ => rfl
    rw [stream_addPipe, stream_grab, stream_grab, hlast, stream_setStream, stream_grab, hlast,
      stream_setStream, stream_grab]
    rfl

theorem exec_effect {child : Pid} {call : Bool} (h : k.Counted none)
    (hp : (k.procs p).pstate = .alive)
    (hc : (k.procs child).pstate = .free) : (ioExec k p child call).All (Filed L k) := by
  intro k' ret hr
  obtain ⟨n, -, rfl⟩ := ioExec_cases h hp hc hr
  have hview := (setProc_view k child fun c => { c with pstate := .alive }).trans
    (inherit_view _ p child n)
  cases call with
  | false => exact .single (.same _ hview)
  | true => exact .single (.same _ (hview.trans (addThread_view _ child)))

/-- The references to `f` that are left while the fids of process `p` are closed. -/
def LeftToClose (k : IoKernel) (p : Pid) (f : FcbId) (k' : IoKernel) : Prop :=
  (k.files.ft f).refcount + occurrences (fun i : Fin maxFileid => (k'.procs p).fidt i) (some f) ≤
    (k'.files.ft f).refcount + occurrences (fun i : Fin maxFileid => (k.procs p).fidt i) (some f)

theorem LeftToClose.last {i : Nat} (h : LeftToClose k p f k') (hi : i < maxFileid)
    (hf : (k'.procs p).fidt i = some f) (hlast : (k'.files.ft f).refcount - 1 = 0) :
    (k.files.ft f).refcount ≤ occurrences (fun i : Fin maxFileid => (k.procs p).fidt i)
    (some f) := by
  have hpos : 0 < occurrences (fun i : Fin maxFileid => (k'.procs p).fidt i) (some f) :=
    occurrences_pos (i := ⟨i, hi⟩) hf
  unfold LeftToClose at h
  omega

theorem LeftToClose.closeFid {i : Nat} {g : FcbId} {k2 : IoKernel} {v : Int}
    (h : LeftToClose k p g k')
    (hi : i < maxFileid) (hf : (k'.procs p).fidt i = some f) (hd : k'.decref p f = some (k2, v)) :
    LeftToClose k p g (k2.setFidt p i none) := by
  have hsame := decref_same hd
  have hprocs : k2.procs = k'.procs := hsame.procs
  have hupdate := occurrences_update (fun j : Fin maxFileid => (k'.procs p).fidt j)
    ⟨i, hi⟩ none (some g)
  have hslots : (fun j : Fin maxFileid => ((k2.setFidt p i none).procs p).fidt j) =
      Function.update (fun j : Fin maxFileid => (k'.procs p).fidt j) ⟨i, hi⟩ none := by
    funext j
    by_cases hj : j = ⟨i, hi⟩
    · subst hj
      simp [IoKernel.setFidt, IoKernel.setProc]
    · have hne : j.val ≠ i := fun he => hj (Fin.ext he)
      simp [IoKernel.setFidt, IoKernel.setProc, hj, hne, hprocs]
  have hcount : ((k2.setFidt p i none).files.ft g).refcount + (if f = g then 1 else 0) =
      (k'.files.ft g).refcount := by
    have hft : (k2.setFidt p i none).files.ft = _ := (congrArg FileTable.ft hsame.files).trans
      (fcbDecref_tables k'.files f).1
    rw [hft]
    by_cases hfg : f = g
    · subst hfg
      simp [FileTable.setRefcount]
    · have hgf : g ≠ f := Ne.symm hfg
      simp [FileTable.setRefcount, hfg, hgf]
  unfold LeftToClose at h ⊢
  rw [hslots]
  simp only [hf, Option.some.injEq, reduceCtorEq, if_false, Nat.add_zero] at hupdate
  split at hupdate <;> rename_i hfg <;> simp only [hfg, if_true, if_false] at hcount <;> omega

theorem threadExit_effect (h : k.Counted none) (hp : (k.procs p).pstate = .alive)
    (ht : k.threads[t]? = some y) (hy : y.pc = .user)
    (hL : k.threads.countP (·.liveIn p) = 1 → ∀ f,
      (k.files.ft f).refcount ≤ occurrences (fun i : Fin maxFileid => (k.procs p).fidt i)
      (some f) → L f) :
    IoResult.All (Filed L k) ((ioThreadExit k t p).map fun k => (k, none)) := by
  have hwait : y.pc.socketWait = none := by rw [hy]; rfl
  refine .map fun k' hk' => ?_
  simp only [ioThreadExit] at hk'
  split at hk'
  · rename_i hone
    obtain ⟨k1, hk1, rfl⟩ := Option.map_eq_some_iff.mp hk'
    obtain ⟨hclosed, hchain, -⟩ := closeFidt_induct
      (I := fun k2 => ReflTransGen (FileEffect L) k k2 ∧ ∀ f, LeftToClose k p f k2) h hp
      ⟨.refl, fun f => Int.le_refl _⟩
      (fun k2 i f k3 v h2 _ hi hf hd hI => by
        obtain ⟨hv, hfree⟩ := inUse_of_slot h2 hi hf
        refine ⟨.tail (.tail hI.1 (decref_effect (fun hlast => hL hone f ?_) hv hfree hd))
          (.same _ (setProc_view k3 p _)), fun g => (hI.2 g).closeFid hi hf hd⟩
        exact (hI.2 f).last hi hf hlast) hk1
    have ht1 : (k1.setProc p fun c => { c with pstate := .zombie }).threads[t]? = some y := by
      show k1.threads[t]? = some y
      rw [hclosed.threads]
      exact ht
    exact .tail hchain (.same _ ((setProc_view k1 p _).trans (setPc_view ht1 hwait rfl)))
  · obtain rfl : k.setPc t .exited = k' := by simpa using hk'
    exact .single (.same _ (setPc_view ht hwait rfl))

theorem closePipeEnd_view {close : PipeCb → Option PipeCb} {obj : StreamObj} {v : Int}
    (h : closePipeEnd k close obj = some (k', v)) : k.SameView k' := by
  cases obj with
  | NULL =>
    obtain ⟨rfl, -⟩ : k = k' ∧ _ = v := by simpa [closePipeEnd] using h
    exact .refl k
  | pipe q =>
    obtain ⟨c, -, hc⟩ := Option.map_eq_some_iff.mp h
    obtain ⟨rfl, -⟩ : _ = k' ∧ _ = v := by simpa using hc
    exact ⟨rfl, rfl, rfl, rfl, rfl, rfl, fun _ => rfl, fun _ => rfl⟩
  | _ => simp [closePipeEnd] at h

theorem sysShutDown_view {sock : Int} {how : ShutdownMode} {v : Int}
    (h : sysShutDown k p sock how = some (k', v)) : k.SameView k' :=
  sysShutDown_keeps (I := k.SameView) (fun _ _ _ _ _ _ hu hc => hu.trans (closePipeEnd_view hc))
    (.refl k) h

def SocketCb.hangUp (c : SocketCb) : SocketCb :=
  { c with reqAvailable := kernelBroadcast c.reqAvailable, fcb := none }

/-- What the end of the last reference to FCB `f` does to sockets. -/
inductive Closing (k : IoKernel) (f : FcbId) (k' : IoKernel) : Prop
  | plain (h : (k.files.stream f).2 ≠ some .socketFileOps) (hs : k'.sockets = k.sockets)
    (hp : k'.portMap = k.portMap)
  | listener (s : SockId) (c : SocketCb) (h : k.files.stream f = (.socket s, some .socketFileOps))
    (hc : k.sockets[s]? = some c) (htype : c.type = .listener)
    (hs : k'.sockets = (k.setSocket s SocketCb.hangUp).sockets)
    (hp : k'.portMap = Function.update k.portMap c.port none)
  | unbound (s : SockId) (c : SocketCb) (h : k.files.stream f = (.socket s, some .socketFileOps))
    (hc : k.sockets[s]? = some c) (htype : c.type = .unbound)
    (hs : k'.sockets = (k.setSocket s fun c => { c with fcb := none }).sockets)
    (hp : k'.portMap = k.portMap)
  | peer (s : SockId) (c : SocketCb) (h : k.files.stream f = (.socket s, some .socketFileOps))
    (hc : k.sockets[s]? = some c) (htype : c.type = .peer)

theorem closeStream_sockets {ops : FileOps} {obj : StreamObj} {v : Int}
    (hops : ops ≠ .socketFileOps) (h : closeStream k p (some ops) obj = some (k', v)) :
    k'.sockets = k.sockets ∧ k'.portMap = k.portMap := by
  have hret : ∀ {w : Int}, some (k, w) = some (k', v) → k'.sockets = k.sockets ∧
      k'.portMap = k.portMap := by
    intro w hw
    obtain ⟨rfl, -⟩ : k = k' ∧ w = v := by simpa using hw
    exact ⟨rfl, rfl⟩
  cases ops with
  | nulldevFops => exact hret h
  | serialFops => exact hret h
  | procinfoOps =>
    cases obj with
    | NULL => exact hret h
    | procinfo id => exact hret h
    | _ => simp [closeStream] at h
  | readerFileOps => exact ⟨(closePipeEnd_view h).sockets, (closePipeEnd_view h).portMap⟩
  | writerFileOps => exact ⟨(closePipeEnd_view h).sockets, (closePipeEnd_view h).portMap⟩
  | socketFileOps => exact absurd rfl hops

theorem decref_closes {v : Int} (hlast : (k.files.ft f).refcount - 1 = 0)
    (hd : k.decref p f = some (k', v)) :
    closeStream { k with files := (fcbDecref k.files f).1 } p (k.files.ft f).streamfunc
      (k.files.ft f).streamobj = some (k', v) := by
  have hdec : (fcbDecref k.files f).2 =
      some ((k.files.ft f).streamfunc, (k.files.ft f).streamobj) :=
    ((fcbDecref_tables k.files f).2.2 hlast).2
  unfold IoKernel.decref at hd
  generalize fcbDecref k.files f = r at hd hdec
  obtain ⟨files, x⟩ := r
  obtain rfl : x = _ := hdec
  exact hd

theorem decref_closing {v : Int} (hlast : (k.files.ft f).refcount - 1 = 0)
    (hd : k.decref p f = some (k', v)) : Closing k f k' := by
  have hclose := decref_closes hlast hd
  generalize (fcbDecref k.files f).1 = files at hclose
  cases hfunc : (k.files.ft f).streamfunc with
  | none => simp [hfunc, closeStream] at hclose
  | some ops =>
    rw [hfunc] at hclose
    have hstream : k.files.stream f = ((k.files.ft f).streamobj, some ops) := by
      rw [FileTable.stream, hfunc]
    by_cases hops : ops = .socketFileOps
    · subst hops
      cases hobj : (k.files.ft f).streamobj with
      | socket s =>
        rw [hobj] at hclose hstream
        cases hc : k.sockets[s]? with
        | none => simp [closeStream, socketClose, hc] at hclose
        | some c =>
          cases htype : c.type with
          | listener =>
            obtain ⟨rfl, -⟩ : _ = k' ∧ _ = v := by
              simpa [closeStream, socketClose, hc, htype] using hclose
            exact .listener s c hstream hc htype rfl rfl
          | unbound =>
            obtain ⟨rfl, -⟩ : _ = k' ∧ _ = v := by
              simpa [closeStream, socketClose, hc, htype] using hclose
            exact .unbound s c hstream hc htype rfl rfl
          | peer => exact .peer s c hstream hc htype
      | _ => simp [hobj, closeStream, socketClose] at hclose
    · obtain ⟨hs, hp⟩ := closeStream_sockets hops hclose
      exact .plain (by simpa [hstream] using hops) hs hp

theorem decref_last_files {v : Int} (hlast : (k.files.ft f).refcount - 1 = 0)
    (hd : k.decref p f = some (k', v)) :
    k'.files.fcbFreelist = k.files.fcbFreelist ++ [f] ∧
      ∀ g, k'.files.stream g = k.files.stream g := by
  obtain ⟨hft, -, hfree⟩ := fcbDecref_tables k.files f
  have hfiles : k'.files = (fcbDecref k.files f).1 := (decref_same hd).files
  refine ⟨by rw [hfiles]; exact (hfree hlast).1, fun g => ?_⟩
  have hset := stream_setRefcount k.files f ((k.files.ft f).refcount - 1) g
  rw [hfiles]
  unfold FileTable.stream at hset ⊢
  rw [hft]
  exact hset

/-! ### Every step -/

theorem call_effect {res : IoResult} (h : k.Counted none) (hthread : e.thread = some t)
    (ht : k.threads[t]? = some y) (hy : y.pc = .user)
    (hc : k.call t y.pid e = some res) : res.All fun k' ret => Effect k e k' ret := by
  have hp : (k.procs y.pid).pstate = .alive := h.owner y (List.mem_of_getElem? ht) (by simp [hy])
  have hty : k.threads[t]? = some ⟨y.pid, .user⟩ := by rw [ht, ← hy]
  have hfiles : ∀ {res : IoResult} {e}, res.All (Filed (k.Frees e) k) →
      res.All fun k' ret => Effect k e k' ret :=
    fun hall k' ret hr => .files (hall k' ret hr)
  cases e with
  | openNull =>
    obtain rfl := Option.some.inj hc
    exact hfiles (openStream_effect (by simp) (by simp))
  | openTerminal =>
    obtain rfl := Option.some.inj hc
    exact hfiles (openStream_effect (by simp) (by simp))
  | openInfo =>
    obtain rfl := Option.some.inj hc
    exact hfiles openInfo_effect
  | pipe t' garbage =>
    obtain rfl := Option.some.inj hc
    obtain rfl : t' = t := Option.some.inj hthread
    exact pipe_effect h hty
  | read _ fd n dev =>
    obtain rfl := Option.some.inj hc
    exact hfiles (read_effect h ht hy)
  | write _ fd buf dev =>
    obtain rfl := Option.some.inj hc
    exact hfiles (write_effect h ht hy)
  | close t' fd =>
    obtain rfl := Option.some.inj hc
    obtain rfl : t' = t := Option.some.inj hthread
    refine hfiles (close_effect h fun f hf hlast => ?_)
    have hone : k.letsGo (.close t' fd) f = 1 := by simp [IoKernel.letsGo, IoEvent.thread, ht, hf]
    unfold IoKernel.Frees
    omega
  | dup2 t' oldfd newfd =>
    obtain rfl := Option.some.inj hc
    obtain rfl : t' = t := Option.some.inj hthread
    refine hfiles (dup2_effect h fun f hold hf hlast => ?_)
    have hone : k.letsGo (.dup2 t' oldfd newfd) f = 1 := by
      simp [IoKernel.letsGo, IoEvent.thread, ht, hold, hf]
    unfold IoKernel.Frees
    omega
  | socket t' port =>
    obtain rfl := Option.some.inj hc
    refine .ret ?_
    rcases sysSocket_cases k y.pid port with ⟨-, he | he⟩ | ⟨i, f, rest, hf, h0, hmax, he⟩ <;>
      rw [he]
    · exact .files .refl
    · exact .same (setFidt_view k y.pid maxFileid none)
    · exact .socket t' y.pid i f rest port hf h0 hmax
  | listen t' sock =>
    obtain rfl := Option.some.inj hc
    obtain rfl : t' = t := Option.some.inj hthread
    intro k' ret hr
    rcases sysListen_cases hr with ⟨rfl, -⟩ | ⟨f, s, c, hf, hobj, hc, h0, hmax, hport, htype, rfl⟩
    · exact .files .refl
    · exact .listen t' y.pid sock f s c hf hobj hc h0 hmax hport htype hty
  | accept t' lsock garbage =>
    obtain rfl := Option.some.inj hc
    obtain rfl : t' = t := Option.some.inj hthread
    intro k' ret hr
    rcases sysAccept_cases hr with ⟨rfl, -⟩ | ⟨f, s, c, hf, hobj, hc, htype, hport, hloop⟩
    · exact .files .refl
    · exact .accept t' y.pid s _ k' garbage (.call lsock f c hty hf hobj hc htype hport) hloop
  | connect t' sock port =>
    obtain rfl := Option.some.inj hc
    obtain rfl : t' = t := Option.some.inj hthread
    intro k' ret hr
    rcases sysConnect_cases hr with
      ⟨rfl, -⟩ | ⟨f, s, c, l, lc, q, hf, hobj, hc, htype, href, hl, hlc, hlt, hq, -, rfl⟩
    · exact .files .refl
    · exact .connect t' y.pid sock port f s l c lc q hty hf hobj hc htype href hl hlc hlt hq
  | shutDown _ sock how =>
    obtain rfl := Option.some.inj hc
    exact .bind fun _ hr => .ret (.same (sysShutDown_view hr))
  | exec _ child call =>
    simp only [IoKernel.call] at hc
    split at hc
    · rename_i hfree
      obtain rfl := Option.some.inj hc
      exact hfiles (exec_effect h hp hfree)
    · simp at hc
  | createThread =>
    obtain rfl := Option.some.inj hc
    exact .ret (.same (addThread_view k y.pid))
  | threadExit t' =>
    obtain rfl := Option.some.inj hc
    obtain rfl : t' = t := Option.some.inj hthread
    refine hfiles (threadExit_effect h hp ht hy fun hone f hle => ?_)
    simpa [IoKernel.Frees, IoKernel.letsGo, IoEvent.thread, ht, hone] using hle
  | _ => simp [IoKernel.call] at hc

theorem goOn_effect {dev : List UInt8} {garbage : Nat → UInt8} {res : IoResult} (h : k.Counted none)
    (ht : k.threads[t]? = some y) (hg : k.goOn t y.pid y.pc dev garbage = some res) :
    res.All fun k' ret => Effect k (.proceed t dev garbage) k' ret := by
  have ht' := getElem?_setPc ht .user
  have huse : ∀ f, y.pc.uses f = true → f < maxFiles ∧ f ∉ k.files.fcbFreelist := by
    intro f hu
    have hpos : 0 < k.users f := countP_pos_of_getElem? ht hu
    exact h.exact.inUse (Nat.add_pos_left (Nat.add_pos_right _ hpos) _)
  obtain ⟨pid, pc⟩ := y
  have hmethod : ∀ {f : FcbId} {res : IoResult}, pc.uses f = true → pc.socketWait = none →
      res.All (MethodOutcome (k.setPc t .user) t f) →
      (finishIo pid f res).All fun k' ret => Effect k (.proceed t dev garbage) k' ret := by
    intro f res hu hw hm k' ret hr
    obtain ⟨hv, hfree⟩ := huse f hu
    have hone : k.letsGo (.proceed t dev garbage) f = 1 := by
      simp [IoKernel.letsGo, IoEvent.thread, ht, hu]
    have hL : ((k.setPc t .user).files.ft f).refcount - 1 = 0 →
        k.Frees (.proceed t dev garbage) f := by
      intro hlast
      have hlast' : (k.files.ft f).refcount - 1 = 0 := hlast
      unfold IoKernel.Frees
      omega
    exact .files (finishIo_effect (k := k.setPc t .user) hL hv hfree
      (setPc_view ht hw rfl) ht' rfl hm k' ret hr)
  cases pc with
  | user => simp [IoKernel.goOn] at hg
  | exited => simp [IoKernel.goOn] at hg
  | readingPipe f q n =>
    simp only [IoKernel.goOn] at hg
    split at hg
    · simp at hg
    · obtain rfl := Option.some.inj hg
      exact hmethod (by simp [IoPc.uses]) rfl (.map fun c _ => readPipe_outcome q n _)
  | readingSerial f devno n =>
    simp only [IoKernel.goOn] at hg
    split at hg
    · simp at hg
    · obtain rfl := Option.some.inj hg
      exact hmethod (by simp [IoPc.uses]) rfl (.some (readSerial_outcome devno n dev))
  | writingPipe f q buf =>
    simp only [IoKernel.goOn] at hg
    split at hg
    · simp at hg
    · obtain rfl := Option.some.inj hg
      exact hmethod (by simp [IoPc.uses]) rfl (.map fun c _ => writePipe_outcome q buf _)
  | accepting s =>
    simp only [IoKernel.goOn] at hg
    split at hg
    · simp at hg
    · rename_i hwait
      obtain rfl := Option.some.inj hg
      intro k' ret hr
      exact .accept t pid s _ k' garbage (.resume dev ht hwait) hr
  | connecting s r expired =>
    simp only [IoKernel.goOn] at hg
    split at hg
    · simp at hg
    · rename_i hwait
      obtain rfl := Option.some.inj hg
      intro k' ret hr
      exact .goOn t pid s r expired dev garbage k' ht hwait hr

theorem step_effect (h : k.Counted none) (hs : Stepped k e k' ret) : Effect k e k' ret := by
  cases hs with
  | fault => exact .same ⟨rfl, rfl, rfl, rfl, rfl, rfl, fun _ => rfl, fun _ => rfl⟩
  | timeout t p s r ht hcv => exact .expire t p s r ht hcv
  | serialReady => exact .same ⟨rfl, rfl, rfl, rfl, rfl, rfl, fun _ => rfl, fun _ => rfl⟩
  | reap p hp => exact .same (setProc_view k p _)
  | proceed t y dev garbage k' ret ht hgo => exact goOn_effect h ht hgo _ _ rfl
  | call e t y k' ret he ht hy hc => exact call_effect h he ht hy hc _ _ rfl

end Effects

end TinyOS
