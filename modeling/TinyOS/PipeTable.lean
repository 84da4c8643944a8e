import TinyOS.IoEffects

/-! Control blocks of pipes are never taken away from the table: every pipe that a stream or a
sleeping thread names is in it. -/

namespace TinyOS

open Counting Transition Relation

def IoPc.onPipe (q : PipeId) : IoPc → Bool
  | .readingPipe _ q' _ | .writingPipe _ q' _ => q' = q
  | _ => false

/-- Whatever names a pipe in `k'` did so in `k`, or names one of `k'`. -/
structure IoKernel.Grows (k k' : IoKernel) : Prop where
  length : k.pipes.length ≤ k'.pipes.length
  stream : ∀ f q, (k'.files.stream f).1 = .pipe q → (k.files.stream f).1 = .pipe q ∨
    q < k'.pipes.length
  threads : ∀ x ∈ k'.threads, ∀ q, x.pc.onPipe q = true →
    (∃ y ∈ k.threads, y.pc.onPipe q = true) ∨ q < k'.pipes.length

structure PipesNamed (k : IoKernel) : Prop where
  stream : ∀ f q, (k.files.stream f).1 = .pipe q → q < k.pipes.length
  threads : ∀ x ∈ k.threads, ∀ q, x.pc.onPipe q = true → q < k.pipes.length

section Grows

variable {k k' k'' : IoKernel} {p : Pid} {t : ThreadId} {f : FcbId} {e : IoEvent}
  {ret : Option IoRet}

theorem PipesNamed.grows (h : PipesNamed k) (hg : k.Grows k') : PipesNamed k' where
  stream f q hs := (hg.stream f q hs).elim
    (fun hs => Nat.lt_of_lt_of_le (h.stream f q hs) hg.length) id
  threads x hx q hq := by
    rcases hg.threads x hx q hq with ⟨y, hy, hyq⟩ | hlt
    · exact Nat.lt_of_lt_of_le (h.threads y hy q hyq) hg.length
    · exact hlt

theorem IoKernel.Grows.refl (k : IoKernel) : k.Grows k :=
  ⟨Nat.le_refl _, fun _ _ h => .inl h, fun x hx _ hq => .inl ⟨x, hx, hq⟩⟩

theorem IoKernel.Grows.trans (h : k.Grows k') (h' : k'.Grows k'') : k.Grows k'' where
  length := Nat.le_trans h.length h'.length
  stream f q hs := by
    rcases h'.stream f q hs with hs | hlt
    · exact (h.stream f q hs).imp_right fun hlt => Nat.lt_of_lt_of_le hlt h'.length
    · exact .inr hlt
  threads x hx q hq := by
    rcases h'.threads x hx q hq with ⟨y, hy, hyq⟩ | hlt
    · exact (h.threads y hy q hyq).imp_right fun hlt => Nat.lt_of_lt_of_le hlt h'.length
    · exact .inr hlt

/-- Changes to anything else. -/
theorem grows_of_same (hpipes : k'.pipes.length = k.pipes.length)
    (hstream : ∀ g, k'.files.stream g = k.files.stream g) (hthreads : k'.threads = k.threads) :
    k.Grows k' := by
  refine ⟨Nat.le_of_eq hpipes.symm, fun f q hs => .inl ?_, fun x hx q hq => .inl ⟨x, ?_, hq⟩⟩
  · rwa [← hstream]
  · rwa [← hthreads]

theorem mem_setPc_cases {pc : IoPc} {x : IoThread} (hx : x ∈ (k.setPc t pc).threads) :
    x ∈ k.threads ∨ x.pc = pc := by
  obtain ⟨i, hi⟩ := List.mem_iff_getElem?.mp hx
  have hget : (k.threads.modify t fun y => { y with pc := pc })[i]? = some x := hi
  by_cases hit : i = t
  · subst hit
    rw [List.getElem?_modify_eq] at hget
    obtain ⟨y, -, rfl⟩ := Option.map_eq_some_iff.mp hget
    exact .inr rfl
  · rw [List.getElem?_modify_ne _ _ (Ne.symm hit)] at hget
    exact .inl (List.mem_of_getElem? hget)

theorem setPc_grows {pc : IoPc} (hpc : ∀ q, pc.onPipe q = true → q < k.pipes.length) :
    k.Grows (k.setPc t pc) := by
  refine ⟨Nat.le_refl _, fun _ _ h => .inl h, fun x hx q hq => ?_⟩
  rcases mem_setPc_cases hx with hx | rfl
  · exact .inl ⟨x, hx, hq⟩
  · exact .inr (hpc q hq)

theorem setStream_grows {obj : StreamObj} {ops : FileOps}
    (hobj : ∀ q, obj = .pipe q → q < k.pipes.length) :
    k.Grows (k.setStream f obj ops) := by
  refine ⟨Nat.le_refl _, fun g q hs => ?_, fun x hx q hq => .inl ⟨x, hx, hq⟩⟩
  have hset : (k.setStream f obj ops).files.stream g = _ := stream_setStream k.files f obj ops g
  rw [hset] at hs
  split at hs
  · exact .inr (hobj q hs)
  · exact .inl hs

theorem addPipe_grows (k : IoKernel) (w r : FcbId) (garbage : Nat → UInt8) :
    k.Grows (k.addPipe w r garbage) := by
  have hadd : k.Grows { k with pipes := k.pipes ++ [some (PipeCb.initial r w garbage)] } := by
    refine ⟨by simp, fun _ _ h => .inl h, fun x hx _ hq => .inl ⟨x, hx, hq⟩⟩
  have hobj : ∀ q, StreamObj.pipe k.pipes.length = .pipe q →
      q < (k.pipes ++ [some (PipeCb.initial r w garbage)]).length := by
    intro q hq
    obtain rfl : k.pipes.length = q := by simpa using hq
    simp
  exact (hadd.trans (setStream_grows hobj)).trans (setStream_grows hobj)

theorem grab_grows {i : Nat} {rest : List FcbId} : k.Grows (k.grab p i f rest) :=
  grows_of_same rfl stream_grab rfl

/-! ### Closing -/

theorem closePipeEnd_length {close : PipeCb → Option PipeCb} {obj : StreamObj} {v : Int}
    (h : closePipeEnd k close obj = some (k', v)) : k'.pipes.length = k.pipes.length := by
  cases obj with
  | NULL =>
    obtain ⟨rfl, -⟩ : k = k' ∧ _ = v := by simpa [closePipeEnd] using h
    rfl
  | pipe q =>
    obtain ⟨c, -, hc⟩ := Option.map_eq_some_iff.mp h
    obtain ⟨rfl, -⟩ : _ = k' ∧ _ = v := by simpa using hc
    simp
  | _ => simp [closePipeEnd] at h

theorem length_ends (n : Nat) : KeptByEnds fun k => k.pipes.length = n :=
  fun _ _ _ _ _ _ hu hc => (closePipeEnd_length hc).trans hu

theorem sysShutDown_length {sock : Int} {how : ShutdownMode} {v : Int}
    (h : sysShutDown k p sock how = some (k', v)) : k'.pipes.length = k.pipes.length :=
  sysShutDown_keeps (length_ends _) rfl h

theorem closeStream_length {ops : Option FileOps} {obj : StreamObj} {v : Int}
    (h : closeStream k p ops obj = some (k', v)) : k'.pipes.length = k.pipes.length :=
  closeStream_keeps (length_ends _) (fun _ _ _ hu => hu) rfl h

theorem stream_fcbDecref (files : FileTable) (f g : FcbId) :
    (fcbDecref files f).1.stream g = files.stream g := by
  have hset := stream_setRefcount files f ((files.ft f).refcount - 1) g
  unfold FileTable.stream at hset ⊢
  rw [(fcbDecref_tables files f).1]
  exact hset

theorem decref_grows {v : Int} (hd : k.decref p f = some (k', v)) : k.Grows k' := by
  have hsame := decref_same hd
  refine grows_of_same ?_ (fun g => ?_) hsame.threads
  · unfold IoKernel.decref at hd
    split at hd
    · obtain ⟨rfl, -⟩ : _ = k' ∧ _ = v := by simpa using hd
      rfl
    · have hlen := closeStream_length hd
      exact hlen
  · rw [hsame.files]
    exact stream_fcbDecref k.files f g

/-! ### The calls -/

/-- The kernels of a call that only names pipes of the table. -/
def Growing (k k' : IoKernel) (_ : Option IoRet) : Prop := k.Grows k'

theorem IoKernel.SameView.grows (h : k.SameView k') (hpipes : k'.pipes.length = k.pipes.length)
    (hthreads : k'.threads = k.threads) : k.Grows k' :=
  grows_of_same hpipes h.stream hthreads

theorem openStream_grows {ops : FileOps} {obj : StreamObj} {present : Bool}
    (hobj : ∀ q, obj ≠ .pipe q) :
    (openStream k p ops obj present).All (Growing k) := by
  intro k' r hr
  rcases openStream_cases hr with rfl | ⟨i, f, rest, hf, rfl | rfl⟩
  · exact .refl k'
  · exact grab_grows.trans (setStream_grows fun q hq => absurd hq (hobj q))
  · exact (grab_grows (p := p) (i := i)).trans (grows_of_same rfl (fun _ => rfl) rfl)

theorem storePipe_grows (q : PipeId) (c : PipeCb) : k.Grows (storePipe k q c) :=
  grows_of_same (by simp [storePipe]) (fun _ => rfl) rfl

theorem pipe_lt {q : PipeId} {c : PipeCb} (hq : k.pipe? q = some c) : q < k.pipes.length := by
  by_contra hge
  simp [IoKernel.pipe?, List.getElem?_eq_none (Nat.le_of_not_lt hge)] at hq

theorem readPipe_grows {q : PipeId} {n : Nat} (hq : q < k.pipes.length)
    (res : PipeCb × Option (Int × List UInt8)) :
    k.Grows (readPipe k t f q n res).1 := by
  obtain ⟨c, _ | r⟩ := res
  · refine (storePipe_grows q c).trans (setPc_grows fun q' hq' => ?_)
    obtain rfl : q = q' := by simpa [IoPc.onPipe] using hq'
    simpa [storePipe] using hq
  · exact storePipe_grows q c

theorem writePipe_grows {q : PipeId} {buf : List UInt8} (hq : q < k.pipes.length)
    (res : PipeCb × Option Int) :
    k.Grows (writePipe k t f q buf res).1 := by
  obtain ⟨c, _ | v⟩ := res
  · refine (storePipe_grows q c).trans (setPc_grows fun q' hq' => ?_)
    obtain rfl : q = q' := by simpa [IoPc.onPipe] using hq'
    simpa [storePipe] using hq
  · exact storePipe_grows q c

theorem readPipeObj_grows {n : Nat} {obj : StreamObj} :
    (readPipeObj k t f n obj).All (Growing k) := by
  cases obj with
  | NULL => exact .ret (.refl k)
  | pipe q => exact .map fun c hc => readPipe_grows (pipe_lt hc) _
  | _ => exact .none

theorem writePipeObj_grows {buf : List UInt8} {obj : StreamObj} :
    (writePipeObj k t f buf obj).All (Growing k) := by
  cases obj with
  | NULL => exact .ret (.refl k)
  | pipe q => exact .map fun c hc => writePipe_grows (pipe_lt hc) _
  | _ => exact .none

theorem readSerial_grows {devno n : Nat} {dev : List UInt8} :
    k.Grows (readSerial k t f devno n dev).1 := by
  by_cases hn : n = 0
  · simp only [readSerial, hn, if_true]
    exact .refl k
  · simp only [readSerial, hn, if_false]
    cases dev with
    | nil =>
      have hwait : k.Grows { k with
        rxReady := Function.update k.rxReady devno (kernelWait (k.rxReady devno) t) } :=
        grows_of_same rfl (fun _ => rfl) rfl
      exact hwait.trans (setPc_grows fun q hq => by simp [IoPc.onPipe] at hq)
    | cons b dev => exact .refl k

theorem readStream_grows {n : Nat} {dev : List UInt8} {ops : FileOps} {obj : StreamObj} :
    (readStream k t f n dev ops obj).All (Growing k) := by
  cases ops with
  | nulldevFops => exact .some (.refl k)
  | serialFops =>
    cases obj with
    | serial devno => exact .some readSerial_grows
    | _ => exact .none
  | procinfoOps =>
    cases obj with
    | procinfo id => exact .some (.refl k)
    | _ => exact .none
  | readerFileOps => exact readPipeObj_grows
  | writerFileOps => exact .ret (.refl k)
  | socketFileOps => exact .bind fun obj _ => readPipeObj_grows

theorem writeStream_grows {buf dev : List UInt8} {ops : FileOps} {obj : StreamObj} :
    (writeStream k t f buf dev ops obj).All (Growing k) := by
  cases ops with
  | serialFops =>
    cases obj with
    | serial devno => exact .ret (.refl k)
    | _ => exact .none
  | writerFileOps => exact writePipeObj_grows
  | socketFileOps => exact .bind fun obj _ => writePipeObj_grows
  | _ => exact .ret (.refl k)

theorem finishIo_grows {res : IoResult} (h : res.All (Growing k)) :
    (finishIo p f res).All (Growing k) := by
  intro k' r hr
  rcases res with _ | ⟨k1, _ | x⟩
  · simp [finishIo] at hr
  · obtain ⟨rfl, -⟩ : k1 = k' ∧ _ = r := by simpa [finishIo] using hr
    exact h k1 none rfl
  · obtain ⟨⟨k2, v⟩, hd, he⟩ := Option.map_eq_some_iff.mp hr
    obtain ⟨rfl, -⟩ : k2 = k' ∧ _ = r := by simpa using he
    exact IoKernel.Grows.trans (h k1 _ rfl) (decref_grows hd)

theorem IoResult.All.grows {k0 : IoKernel} {res : IoResult} (h : res.All (Growing k))
    (h0 : k0.Grows k) :
    res.All (Growing k0) :=
  fun k' r hr => h0.trans (h k' r hr)

theorem setProc_grows (k : IoKernel) (p : Pid) (g : IoProcess → IoProcess) :
    k.Grows (k.setProc p g) :=
  grows_of_same rfl (fun _ => rfl) rfl

theorem setSocket_grows (k : IoKernel) (s : SockId) (g : SocketCb → SocketCb) :
    k.Grows (k.setSocket s g) :=
  grows_of_same rfl (fun _ => rfl) rfl

theorem incref_grows (k : IoKernel) (f : FcbId) : k.Grows (k.incref f) :=
  (incref_view k f).grows rfl rfl

theorem sysPipe_grows {garbage : Nat → UInt8} : (sysPipe k p garbage).All (Growing k) := by
  intro k' r hr
  rcases sysPipe_cases hr with ⟨rfl, -⟩ | ⟨i, f, rest, hf, ⟨rfl, -⟩ | ⟨j, g, rest', hg, -, rfl⟩⟩
  · exact .refl k'
  · exact grab_grows
  · exact ((grab_grows (p := p) (i := i) (f := f)).trans grab_grows).trans
      (addPipe_grows _ g f garbage)

theorem sysOpenInfo_grows : (sysOpenInfo k p).All (Growing k) := by
  intro k' r hr
  rcases sysOpenInfo_cases hr with rfl | ⟨i, f, rest, hf, rfl⟩
  · exact .refl k'
  · refine ((grab_grows (p := p) (i := i) (f := f)).trans (setStream_grows fun q hq => ?_)).trans
      (grows_of_same rfl (fun _ => rfl) rfl)
    simp at hq

theorem sysClose_grows {fd : Int} : (sysClose k p fd).All (Growing k) :=
  sysClose_all (fun _ => .refl k) fun _ _ _ _ hd => (setProc_grows k p _).trans (decref_grows hd)

theorem sysDup2_grows {oldfd newfd : Int} : (sysDup2 k p oldfd newfd).All (Growing k) := by
  refine sysDup2_all (fun _ => .refl k) fun old k1 _ _ _ hclosed => ?_
  have hfill : k1.Grows ((k1.incref old).setFidt p newfd.toNat (some old)) :=
    (incref_grows k1 old).trans (setProc_grows _ p _)
  rcases hclosed with ⟨-, rfl⟩ | ⟨new, v, -, hd⟩
  · exact hfill
  · exact (decref_grows hd).trans hfill

theorem addSocket_grows {port : Int} : k.Grows (k.addSocket f port) := by
  have hadd : k.Grows { k with
      sockets := k.sockets ++ [⟨0, some f, .unbound, port, .uninitialized, condInit⟩] } :=
    grows_of_same rfl (fun _ => rfl) rfl
  exact hadd.trans (setStream_grows fun q hq => by simp at hq)

theorem acceptSocket_grows {i : Nat} {l : List FcbId} {n : Int} :
    k.Grows (k.acceptSocket p i f l n) :=
  (((grab_grows (p := p) (i := i) (f := f)).trans (setProc_grows _ p _)).trans
    addSocket_grows).trans
    (setSocket_grows _ _ _)

theorem connectPeers_grows {u v : SockId} {a : FcbId} {z : Nat → UInt8} :
    k.Grows (k.connectPeers u v f a z) :=
  (((addPipe_grows k f a z).trans (addPipe_grows _ a f z)).trans (setSocket_grows _ _ _)).trans
    (setSocket_grows _ _ _)

theorem acceptLoop_grows {s : SockId} {garbage : Nat → UInt8} :
    (acceptLoop k t p s garbage).All (Growing k) := by
  intro k' ret h
  obtain ⟨c, queue, -, -, hcases⟩ := acceptLoop_cases h
  rcases hcases with ⟨-, -, -, rfl⟩ | ⟨-, -, rfl⟩ | ⟨r, rest, -, -, hreq⟩
  · exact (setSocket_grows k s _).trans (setPc_grows fun q hq => by simp [IoPc.onPipe] at hq)
  · exact setSocket_grows k s _
  have hpop : k.Grows ((k.addRef s (-1)).setQueue s rest) :=
    (setSocket_grows k s _).trans (setSocket_grows _ s _)
  rcases acceptRequest_cases hreq with ⟨-, -, rfl | rfl⟩ | ⟨req, i, f, rest', a, -, -, -, -, rfl⟩
  · exact hpop
  · exact hpop.trans (setProc_grows _ p _)
  · have hsocket := acceptSocket_grows (k := (k.addRef s (-1)).setQueue s rest)
      (p := p) (i := i) (f := f) (l := rest') (n := c.port)
    have hpeers := connectPeers_grows
      (k := ((k.addRef s (-1)).setQueue s rest).acceptSocket p i f rest' c.port)
      (u := ((k.addRef s (-1)).setQueue s rest).sockets.length) (v := req.peer) (f := f) (a := a)
      (z := garbage)
    have hadmitted : ∀ K : IoKernel, K.Grows ((K.setAdmitted r).record (.accepted r i)) :=
      fun K => grows_of_same rfl (fun _ => rfl) rfl
    exact ((hpop.trans hsocket).trans hpeers).trans (hadmitted _)

theorem connectLoop_grows {s : SockId} {r : ReqId} {expired : Bool} :
    (connectLoop k t s r expired).All (Growing k) := by
  intro k' ret h
  obtain ⟨req, -, ⟨-, -, -, rfl⟩ | ⟨-, -, rfl⟩⟩ := connectLoop_cases h
  · have hwait : k.Grows { k with requests := k.requests.modify r fun c =>
        { c with connectedCv := kernelWait c.connectedCv t } } := grows_of_same rfl
          (fun _ => rfl) rfl
    exact hwait.trans (setPc_grows fun q hq => by simp [IoPc.onPipe] at hq)
  · exact grows_of_same rfl (fun _ => rfl) rfl

theorem addThread_grows (k : IoKernel) (p : Pid) : k.Grows (k.addThread p) := by
  refine ⟨Nat.le_refl _, fun _ _ h => .inl h, fun x hx q hq => ?_⟩
  rcases List.mem_append.mp hx with hx | hx
  · exact .inl ⟨x, hx, hq⟩
  · obtain rfl := List.mem_singleton.mp hx
    simp [IoPc.onPipe] at hq

theorem inherit_grows (k : IoKernel) (p child : Pid) (n : Nat) : k.Grows (k.inherit p child n) := by
  induction n with
  | zero => exact .refl k
  | succ n ih =>
    simp only [IoKernel.inherit]
    split
    · exact ih
    · exact (ih.trans (incref_grows _ _)).trans (setProc_grows _ _ _)

theorem call_grows {y : IoThread} {res : IoResult} (h : k.Counted none)
    (ht : k.threads[t]? = some y)
    (hy : y.pc = .user) (hc : k.call t y.pid e = some res) : res.All (Growing k) := by
  have hp : (k.procs y.pid).pstate = .alive := h.owner y (List.mem_of_getElem? ht) (by simp [hy])
  cases e with
  | openNull | openTerminal =>
    obtain rfl := Option.some.inj hc
    exact openStream_grows (by simp)
  | openInfo =>
    obtain rfl := Option.some.inj hc
    exact sysOpenInfo_grows
  | pipe =>
    obtain rfl := Option.some.inj hc
    exact sysPipe_grows
  | read _ fd n dev =>
    obtain rfl := Option.some.inj hc
    exact sysRead_all (.refl k) fun f ops _ _ => (finishIo_grows readStream_grows).grows
      (incref_grows k f)
  | write _ fd buf dev =>
    obtain rfl := Option.some.inj hc
    exact sysWrite_all (.refl k) fun f ops _ _ => (finishIo_grows writeStream_grows).grows
      (incref_grows k f)
  | close =>
    obtain rfl := Option.some.inj hc
    exact sysClose_grows
  | dup2 =>
    obtain rfl := Option.some.inj hc
    exact sysDup2_grows
  | socket _ port =>
    obtain rfl := Option.some.inj hc
    refine .ret ?_
    rcases sysSocket_cases k y.pid port with ⟨-, he | he⟩ | ⟨i, f, rest, -, -, -, he⟩ <;> rw [he]
    · exact .refl k
    · show k.Grows (k.setFidt y.pid maxFileid none)
      exact setProc_grows k y.pid _
    · exact ((grab_grows (p := y.pid) (i := i) (f := f)).trans (setProc_grows _ y.pid _)).trans
        addSocket_grows
  | listen _ sock =>
    obtain rfl := Option.some.inj hc
    intro k' ret hr
    rcases sysListen_cases hr with ⟨rfl, -⟩ | ⟨f, s, c, -, -, -, -, -, -, -, rfl⟩
    · exact .refl k'
    · exact grows_of_same rfl (fun _ => rfl) rfl
  | accept _ lsock garbage =>
    obtain rfl := Option.some.inj hc
    intro k' ret hr
    rcases sysAccept_cases hr with ⟨rfl, -⟩ | ⟨f, s, c, -, -, -, -, -, hloop⟩
    · exact .refl k'
    · exact (setSocket_grows k s _).trans (acceptLoop_grows k' ret hloop)
  | connect _ sock port =>
    obtain rfl := Option.some.inj hc
    intro k' ret hr
    rcases sysConnect_cases hr with ⟨rfl, -⟩ |
      ⟨f, s, c, l, lc, q, -, -, -, -, -, -, -, -, -, -, rfl⟩
    · exact .refl k'
    · have hadd : k.Grows (k.addRequest s l q) := grows_of_same rfl (fun _ => rfl) rfl
      have hwait : (k.addRequest s l q).Grows { k.addRequest s l q with
          requests := (k.addRequest s l q).requests.modify k.requests.length fun c =>
            { c with connectedCv := kernelWait c.connectedCv t } } := grows_of_same rfl
              (fun _ => rfl) rfl
      exact (hadd.trans hwait).trans (setPc_grows fun q hq => by simp [IoPc.onPipe] at hq)
  | shutDown =>
    obtain rfl := Option.some.inj hc
    refine .bind fun r hr => .ret ?_
    have hsame := sysShutDown_same hr
    exact grows_of_same (sysShutDown_length hr) (fun g => by rw [hsame.files]) hsame.threads
  | exec _ child call =>
    simp only [IoKernel.call] at hc
    split at hc
    · rename_i hfree
      obtain rfl := Option.some.inj hc
      intro k' ret hr
      obtain ⟨n, -, rfl⟩ := ioExec_cases h hp hfree hr
      have hinherit := (setProc_grows k child fun c => { c with pstate := .alive }).trans
        (inherit_grows _ y.pid child n)
      cases call with
      | false => exact hinherit
      | true => exact hinherit.trans (addThread_grows _ child)
    · simp at hc
  | createThread =>
    obtain rfl := Option.some.inj hc
    exact .ret (addThread_grows k y.pid)
  | threadExit =>
    obtain rfl := Option.some.inj hc
    refine .map fun k' hk' => ?_
    have hexit : ∀ k1 : IoKernel, k1.Grows (k1.setPc t .exited) :=
      fun k1 => setPc_grows fun q hq => by simp [IoPc.onPipe] at hq
    simp only [ioThreadExit] at hk'
    split at hk'
    · obtain ⟨k1, hk1, rfl⟩ := Option.map_eq_some_iff.mp hk'
      obtain ⟨-, hclosed⟩ := closeFidt_induct (I := k.Grows) h hp (.refl k)
        (fun k2 i f k3 v _ _ _ _ hd hI => (hI.trans (decref_grows hd)).trans (setProc_grows _ _ _))
        hk1
      exact (hclosed.trans (setProc_grows _ _ _)).trans (hexit _)
    · obtain rfl : k.setPc t .exited = k' := by simpa using hk'
      exact hexit k
  | _ => simp [IoKernel.call] at hc

theorem goOn_grows {y : IoThread} {dev : List UInt8} {garbage : Nat → UInt8} {res : IoResult}
    (hg : k.goOn t y.pid y.pc dev garbage = some res) : res.All (Growing k) := by
  have hawake : k.Grows (k.setPc t .user) := setPc_grows fun q hq => by simp [IoPc.onPipe] at hq
  obtain ⟨pid, pc⟩ := y
  cases pc with
  | user => simp [IoKernel.goOn] at hg
  | exited => simp [IoKernel.goOn] at hg
  | readingPipe f q n =>
    simp only [IoKernel.goOn] at hg
    split at hg
    · simp at hg
    · obtain rfl := Option.some.inj hg
      exact (finishIo_grows (k := k.setPc t .user)
        (.map fun c hc => readPipe_grows (k := k.setPc t .user) (pipe_lt (k := k) hc) _)).grows
          hawake
  | readingSerial f devno n =>
    simp only [IoKernel.goOn] at hg
    split at hg
    · simp at hg
    · obtain rfl := Option.some.inj hg
      exact (finishIo_grows (k := k.setPc t .user) (.some readSerial_grows)).grows hawake
  | writingPipe f q buf =>
    simp only [IoKernel.goOn] at hg
    split at hg
    · simp at hg
    · obtain rfl := Option.some.inj hg
      exact (finishIo_grows (k := k.setPc t .user)
        (.map fun c hc => writePipe_grows (k := k.setPc t .user) (pipe_lt (k := k) hc) _)).grows
          hawake
  | accepting s =>
    simp only [IoKernel.goOn] at hg
    split at hg
    · simp at hg
    · obtain rfl := Option.some.inj hg
      exact acceptLoop_grows.grows hawake
  | connecting s r expired =>
    simp only [IoKernel.goOn] at hg
    split at hg
    · simp at hg
    · obtain rfl := Option.some.inj hg
      exact connectLoop_grows.grows hawake

theorem Stepped.grows (h : k.Counted none) (hs : Stepped k e k' ret) : k.Grows k' := by
  cases hs with
  | fault => exact grows_of_same rfl (fun _ => rfl) rfl
  | timeout t p s r ht hcv =>
    have hexpire : k.Grows { k with requests := k.requests.modify r fun c =>
        { c with connectedCv := c.connectedCv.expire t } } := grows_of_same rfl (fun _ => rfl) rfl
    exact hexpire.trans (setPc_grows fun q hq => by simp [IoPc.onPipe] at hq)
  | serialReady => exact grows_of_same rfl (fun _ => rfl) rfl
  | reap p hp => exact setProc_grows k p _
  | proceed _ y _ _ _ _ ht hgo => exact goOn_grows hgo k' ret rfl
  | call _ t y _ _ he ht hy hcall => exact call_grows h ht hy hcall _ _ rfl

theorem bootIo_pipesNamed (serialPorts : Nat) : PipesNamed (bootIo serialPorts) where
  stream f q hs := by simp [bootIo, initializeFiles, FileTable.stream] at hs
  threads x hx q hq := by
    obtain rfl : x = ⟨1, .user⟩ := by simpa [bootIo] using hx
    simp [IoPc.onPipe] at hq

theorem pipesNamed_of_reach {ok : IoKernel → IoEvent → Prop} {serialPorts : Nat}
    (h : Reach IoKernel.step ok (bootIo serialPorts) k) : k.Counted none ∧ PipesNamed k := by
  refine h.invariant (I := fun k => k.Counted none ∧ PipesNamed k)
    ⟨bootIo_counted serialPorts, bootIo_pipesNamed serialPorts⟩ fun u e v hu _ hs => ?_
  obtain ⟨-, ret, hstep⟩ := step_cases_io hs
  exact ⟨hu.1.step hs, hu.2.grows (hstep.grows hu.1)⟩

end Grows

end TinyOS
