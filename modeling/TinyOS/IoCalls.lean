import TinyOS.IoFiles

/-! What the socket calls can do, said once for all invariants. -/

namespace TinyOS

def IoResult.All (P : IoKernel → Option IoRet → Prop) (res : IoResult) : Prop :=
  ∀ k r, res = some (k, r) → P k r

section All

variable {P Q : IoKernel → Option IoRet → Prop} {k : IoKernel} {r : Option IoRet}

theorem IoResult.All.none : IoResult.All P none := fun _ _ h => by simp at h

theorem IoResult.All.some (h : P k r) : IoResult.All P (some (k, r)) := by
  intro k' r' he
  obtain ⟨rfl, rfl⟩ : k = k' ∧ r = r' := by simpa using he
  exact h

theorem IoResult.All.ret {v : Int} (h : P k (.some ⟨v, [], []⟩)) : (k.ret v).All P := .some h

theorem IoResult.All.bind {α : Type} {x : Option α} {f : α → IoResult}
    (h : ∀ a, x = .some a → (f a).All P) : IoResult.All P (x.bind f) := by
  intro k r he
  obtain ⟨a, ha, hf⟩ := Option.bind_eq_some_iff.mp he
  exact h a ha k r hf

theorem IoResult.All.map {α : Type} {x : Option α} {f : α → IoKernel × Option IoRet}
    (h : ∀ a, x = .some a → P (f a).1 (f a).2) : IoResult.All P (x.map f) := by
  intro k r he
  obtain ⟨a, ha, hf⟩ := Option.map_eq_some_iff.mp he
  have hP := h a ha
  rw [hf] at hP
  exact hP

end All

/-! The calls on open files, for any property of their outcome. -/

section Files

variable {P : IoKernel → Option IoRet → Prop} {k : IoKernel} {p : Pid} {t : ThreadId} {fd : Int}

theorem sysRead_all {n : Nat} {dev : List UInt8} (hbad : P k (some ⟨-1, [], []⟩))
    (hread : ∀ f ops, getFcb k p fd = some f → (k.files.ft f).streamfunc = some ops →
      (finishIo p f (readStream (k.incref f) t f n dev ops (k.files.ft f).streamobj)).All P) :
    (sysRead k t p fd n dev).All P := by
  unfold sysRead
  cases hf : getFcb k p fd with
  | none => exact .ret hbad
  | some f =>
    simp only
    cases hops : (k.files.ft f).streamfunc with
    | none => exact .none
    | some ops => exact hread f ops hf hops

theorem sysWrite_all {buf dev : List UInt8} (hbad : P k (some ⟨-1, [], []⟩))
    (hwrite : ∀ f ops, getFcb k p fd = some f → (k.files.ft f).streamfunc = some ops →
      (finishIo p f (writeStream (k.incref f) t f buf dev ops (k.files.ft f).streamobj)).All P) :
    (sysWrite k t p fd buf dev).All P := by
  unfold sysWrite
  cases hf : getFcb k p fd with
  | none => exact .ret hbad
  | some f =>
    simp only
    cases hops : (k.files.ft f).streamfunc with
    | none => exact .none
    | some ops => exact hwrite f ops hf hops

theorem sysClose_all (hbad : ∀ v, P k (some ⟨v, [], []⟩))
    (hclose : ∀ f k1 v, getFcb k p fd = some f → (k.setFidt p fd.toNat none).decref p f =
      some (k1, v) → P k1 (some ⟨v, [], []⟩)) : (sysClose k p fd).All P := by
  unfold sysClose
  cases hf : getFcb k p fd with
  | none => exact .ret (hbad _)
  | some f => exact .bind fun ⟨k1, v⟩ hd => .ret (hclose f k1 v hf hd)

/-- Either `newfd` was free, or its stream is closed first. -/
theorem sysDup2_all {newfd : Int} (hbad : ∀ v, P k (some ⟨v, [], []⟩))
    (hfill : ∀ old k1, ¬(fd < 0 ∨ newfd < 0 ∨ fd ≥ maxFileid ∨ newfd ≥ maxFileid) →
      getFcb k p fd = some old → getFcb k p newfd ≠ some old →
      (getFcb k p newfd = none ∧ k1 = k ∨
        ∃ new v, getFcb k p newfd = some new ∧ k.decref p new = some (k1, v)) →
      P ((k1.incref old).setFidt p newfd.toNat (some old)) (some ⟨0, [], []⟩)) :
    (sysDup2 k p fd newfd).All P := by
  unfold sysDup2
  split
  · exact .ret (hbad _)
  rename_i hrange
  cases hold : getFcb k p fd with
  | none => exact .ret (hbad _)
  | some old =>
    simp only
    split
    · exact .ret (hbad _)
    rename_i hother
    refine .bind fun ⟨k1, v⟩ hr => .ret (hfill old k1 hrange hold hother ?_)
    cases hnew : getFcb k p newfd with
    | none =>
      rw [hnew] at hr
      obtain ⟨rfl, -⟩ : k = k1 ∧ _ = v := by simpa using hr
      exact .inl ⟨rfl, rfl⟩
    | some new =>
      rw [hnew] at hr
      exact .inr ⟨new, v, rfl, hr⟩

end Files

/-- The list of sockets and the FCB tables after `sys_Accept` has made its new socket. -/
def IoKernel.acceptSocket (k : IoKernel) (p : Pid) (i : Nat) (f : FcbId) (rest : List FcbId)
    (port : Int) : IoKernel :=
  (((k.grab p i f rest).setFidt p maxFileid (some f)).addSocket f port).setSocket k.sockets.length
    fun c => { c with type := .peer }

/-- The two pipes between FCB `f` of socket `peer` and FCB `a` of socket `acc`. -/
def IoKernel.connectPeers (k : IoKernel) (peer acc : SockId) (f a : FcbId) (garbage : Nat → UInt8) :
    IoKernel :=
  let k' := k.addPipe f a garbage
  ((k'.addPipe a f garbage).setUnion peer k.pipes.length k'.pipes.length).setUnion
  acc k'.pipes.length
    k.pipes.length

section Cases

variable {k k' : IoKernel} {p : Pid} {t : ThreadId} {s : SockId} {ret : Option IoRet}
  {garbage : Nat → UInt8}

theorem socketOf_some {obj : StreamObj} {c : SocketCb} (h : k.socketOf obj = some (s, c)) :
    obj = .socket s ∧ k.sockets[s]? = some c := by
  cases obj with
  | socket s' =>
    obtain ⟨c', hc', he⟩ := Option.map_eq_some_iff.mp h
    obtain ⟨rfl, rfl⟩ : s' = s ∧ c' = c := by simpa using he
    exact ⟨rfl, hc'⟩
  | _ => simp [IoKernel.socketOf] at h

theorem acceptRequest_cases {port : Int} {r : ReqId}
    (h : acceptRequest k p port r garbage = some (k', ret)) :
    (ret = some ⟨-1, [], []⟩ ∧ k.NoRoom p port ∧ (k' = k ∨ k' = k.setFidt p maxFileid none)) ∨
      ∃ req i f rest a, k.requests[r]? = some req ∧ k.Free p i f rest ∧
        ((k.acceptSocket p i f rest port).sockets[req.peer]?).bind (·.fcb) = some a ∧
        ret = some ⟨i, [], []⟩ ∧ k' = (((k.acceptSocket p i f rest port).connectPeers
          k.sockets.length req.peer f a garbage).setAdmitted r).record (.accepted r i) := by
  unfold acceptRequest at h
  cases hreq : k.requests[r]? with
  | none => simp [hreq] at h
  | some req =>
    simp only [hreq] at h
    rcases sysSocket_cases k p port with ⟨hroom, he | he⟩ | ⟨i, f, rest, hf, -, -, he⟩
    · obtain ⟨rfl, rfl⟩ : k = k' ∧ _ = ret := by simpa [he, IoKernel.ret, noFile] using h
      exact .inl ⟨rfl, hroom, .inl rfl⟩
    · obtain ⟨rfl, rfl⟩ : _ = k' ∧ _ = ret := by simpa [he, IoKernel.ret, noFile] using h
      exact .inl ⟨rfl, hroom, .inr rfl⟩
    · have hi : ¬((i : Int) = noFile) := by simp only [noFile]; omega
      have hlt := hf.lt
      have hget : getFcb (((k.grab p i f rest).setFidt p maxFileid (some f)).addSocket f port) p i =
          some f := by
        have hrange : ¬((i : Int) < 0 ∨ (i : Int) ≥ maxFileid) := by omega
        have hne : i ≠ maxFileid := by omega
        simp only [getFcb, hrange, if_false, Int.toNat_natCast]
        simp [IoKernel.addSocket, IoKernel.setStream, IoKernel.setFidt, IoKernel.setProc,
          IoKernel.grab, hne]
      have hobj : (((k.grab p i f rest).setFidt p maxFileid (some f)).addSocket f port).socketOf
          ((((k.grab p i f rest).setFidt p maxFileid (some f)).addSocket f port).files.ft
            f).streamobj =
            some (k.sockets.length, ⟨0, some f, .unbound, port, .uninitialized, condInit⟩) := by
        simp [IoKernel.socketOf, IoKernel.addSocket, IoKernel.setStream, FileTable.setStream,
          IoKernel.setFidt, IoKernel.setProc, IoKernel.grab]
      simp only [he, hi, if_false, hget, hobj] at h
      cases hacc :
          ((((((k.grab p i f rest).setFidt p maxFileid (some f)).addSocket f port).setSocket
          k.sockets.length fun c => { c with type := .peer }).sockets[req.peer]?).bind (·.fcb)) with
      | none => simp [hacc, createPeerPipe] at h
      | some a =>
        simp only [hacc, createPeerPipe] at h
        obtain ⟨rfl, rfl⟩ : _ = k' ∧ _ = ret := by simpa [IoKernel.ret] using h
        exact .inr ⟨req, i, f, rest, a, rfl, hf, hacc, rfl, rfl⟩

theorem acceptLoop_cases (h : acceptLoop k t p s garbage = some (k', ret)) :
    ∃ c q, k.sockets[s]? = some c ∧ c.union = .queue q ∧
      ((q = [] ∧ k.portMap c.port ≠ none ∧ ret = none ∧ k' = k.waitAccept t s) ∨
        (k.portMap c.port = none ∧ ret = some ⟨-1, [], []⟩ ∧ k' = k.addRef s (-1)) ∨
        ∃ r rest, q = r :: rest ∧ k.portMap c.port ≠ none ∧
          acceptRequest ((k.addRef s (-1)).setQueue s rest) p c.port r garbage =
          some (k', ret)) := by
  unfold acceptLoop at h
  cases hc : k.sockets[s]? with
  | none => simp [hc] at h
  | some c =>
    simp only [hc] at h
    split at h
    · rename_i q hq
      refine ⟨c, q, rfl, hq, ?_⟩
      split at h
      · rename_i hwait
        obtain ⟨rfl, rfl⟩ : _ = k' ∧ _ = ret := by simpa using h
        exact .inl ⟨hwait.1, hwait.2, rfl, rfl⟩
      · by_cases hport : (k.addRef s (-1)).portMap c.port = none
        · simp only [hport, if_true] at h
          obtain ⟨rfl, rfl⟩ : _ = k' ∧ _ = ret := by simpa [IoKernel.ret, noFile] using h
          exact .inr (.inl ⟨hport, rfl, rfl⟩)
        · simp only [hport, if_false] at h
          cases q with
          | nil => simp at h
          | cons r rest => exact .inr (.inr ⟨r, rest, rfl, hport, h⟩)
    · simp at h

theorem sysAccept_cases {lsock : Int} (h : sysAccept k t p lsock garbage = some (k', ret)) :
    (k' = k ∧ ret = some ⟨-1, [], []⟩) ∨ ∃ f s c, getFcb k p lsock = some f ∧
      (k.files.ft f).streamobj = .socket s ∧ k.sockets[s]? = some c ∧ c.type = .listener ∧
      k.portMap c.port ≠ none ∧ acceptLoop (k.addRef s 1) t p s garbage = some (k', ret) := by
  unfold sysAccept at h
  cases hf : getFcb k p lsock with
  | none =>
    obtain ⟨rfl, rfl⟩ : k = k' ∧ _ = ret := by simpa [hf, IoKernel.ret, noFile] using h
    exact .inl ⟨rfl, rfl⟩
  | some f =>
    simp only [hf] at h
    split at h
    · obtain ⟨rfl, rfl⟩ : k = k' ∧ _ = ret := by simpa [IoKernel.ret, noFile] using h
      exact .inl ⟨rfl, rfl⟩
    split at h
    · simp at h
    · rename_i s c hs
      split at h
      · obtain ⟨rfl, rfl⟩ : k = k' ∧ _ = ret := by simpa [IoKernel.ret, noFile] using h
        exact .inl ⟨rfl, rfl⟩
      rename_i htype
      split at h
      · obtain ⟨rfl, rfl⟩ : k = k' ∧ _ = ret := by simpa [IoKernel.ret, noFile] using h
        exact .inl ⟨rfl, rfl⟩
      rename_i hport
      obtain ⟨hobj, hc⟩ := socketOf_some hs
      exact .inr ⟨f, s, c, rfl, hobj, hc, not_not.mp htype, hport, h⟩

theorem sysListen_cases {sock : Int} (h : sysListen k p sock = some (k', ret)) :
    (k' = k ∧ ret = some ⟨-1, [], []⟩) ∨ ∃ f s c, getFcb k p sock = some f ∧
      (k.files.ft f).streamobj = .socket s ∧ k.sockets[s]? = some c ∧ 0 < c.port ∧
      c.port ≤ maxPort ∧ k.portMap c.port = none ∧ c.type = .unbound ∧
      k' = k.installListener s c.port := by
  unfold sysListen at h
  cases hf : getFcb k p sock with
  | none =>
    obtain ⟨rfl, rfl⟩ : k = k' ∧ _ = ret := by simpa [hf, IoKernel.ret] using h
    exact .inl ⟨rfl, rfl⟩
  | some f =>
    simp only [hf] at h
    split at h
    · simp at h
    · rename_i s c hs
      split at h
      · obtain ⟨rfl, rfl⟩ : k = k' ∧ _ = ret := by simpa [IoKernel.ret] using h
        exact .inl ⟨rfl, rfl⟩
      rename_i hport
      split at h
      · obtain ⟨rfl, rfl⟩ : k = k' ∧ _ = ret := by simpa [IoKernel.ret] using h
        exact .inl ⟨rfl, rfl⟩
      rename_i hmap
      split at h
      · obtain ⟨rfl, rfl⟩ : k = k' ∧ _ = ret := by simpa [IoKernel.ret] using h
        exact .inl ⟨rfl, rfl⟩
      rename_i htype
      obtain ⟨rfl, -⟩ : _ = k' ∧ _ = ret := by simpa [IoKernel.ret] using h
      obtain ⟨hobj, hc⟩ := socketOf_some hs
      simp only [noPort] at hport
      exact .inr
        ⟨f, s, c, rfl, hobj, hc, by omega, by omega, not_not.mp hmap, not_not.mp htype, rfl⟩

theorem connectLoop_cases {r : ReqId} {expired : Bool}
    (h : connectLoop k t s r expired = some (k', ret)) :
    ∃ req, k.requests[r]? = some req ∧
      ((req.admitted ≠ 1 ∧ expired = false ∧ ret = none ∧ k' = k.waitConnect t s r) ∨
        ((req.admitted = 1 ∨ expired = true) ∧
          ret = some ⟨if req.admitted ≠ 1 then -1 else 0, [], []⟩ ∧
          k' = (k.addRef s (-1)).record (.returned r (if req.admitted ≠ 1 then -1 else 0)))) := by
  unfold connectLoop at h
  cases hreq : k.requests[r]? with
  | none => simp [hreq] at h
  | some req =>
    simp only [hreq] at h
    refine ⟨req, rfl, ?_⟩
    split at h
    · rename_i hwait
      obtain ⟨rfl, rfl⟩ : _ = k' ∧ _ = ret := by simpa using h
      exact .inl ⟨hwait.1, hwait.2, rfl, rfl⟩
    · rename_i hleave
      simp only [connectLeave, IoKernel.ret, Option.some.injEq, Prod.mk.injEq] at h
      obtain ⟨rfl, rfl⟩ := h
      refine .inr ⟨?_, rfl, rfl⟩
      by_cases ha : req.admitted = 1
      · exact .inl ha
      · exact .inr (by simpa [ha] using hleave)

theorem sysConnect_cases {sock port : Int} (h : sysConnect k t p sock port = some (k', ret)) :
    (k' = k ∧ ret = some ⟨-1, [], []⟩) ∨ ∃ f s c l lc q, getFcb k p sock = some f ∧
      (k.files.ft f).streamobj = .socket s ∧ k.sockets[s]? = some c ∧ c.type ≠ .listener ∧
      c.refcount = 0 ∧ k.portMap port = some l ∧ k.sockets[l]? = some lc ∧ lc.type = .listener ∧
      lc.union = .queue q ∧ ret = none ∧
      k' = (k.addRequest s l q).waitConnect t s k.requests.length := by
  unfold sysConnect at h
  cases hf : getFcb k p sock with
  | none =>
    obtain ⟨rfl, rfl⟩ : k = k' ∧ _ = ret := by simpa [hf, IoKernel.ret] using h
    exact .inl ⟨rfl, rfl⟩
  | some f =>
    simp only [hf] at h
    split at h
    · obtain ⟨rfl, rfl⟩ : k = k' ∧ _ = ret := by simpa [IoKernel.ret] using h
      exact .inl ⟨rfl, rfl⟩
    cases hl : k.portMap port with
    | none =>
      obtain ⟨rfl, rfl⟩ : k = k' ∧ _ = ret := by simpa [hl, IoKernel.ret] using h
      exact .inl ⟨rfl, rfl⟩
    | some l =>
      simp only [hl] at h
      split at h
      · rename_i s c lc hs hlc
        split at h
        · obtain ⟨rfl, rfl⟩ : k = k' ∧ _ = ret := by simpa [IoKernel.ret] using h
          exact .inl ⟨rfl, rfl⟩
        rename_i hct
        split at h
        · obtain ⟨rfl, rfl⟩ : k = k' ∧ _ = ret := by simpa [IoKernel.ret] using h
          exact .inl ⟨rfl, rfl⟩
        rename_i hcr
        split at h
        · obtain ⟨rfl, rfl⟩ : k = k' ∧ _ = ret := by simpa [IoKernel.ret] using h
          exact .inl ⟨rfl, rfl⟩
        rename_i hlt
        split at h
        · rename_i q hq
          obtain ⟨hobj, hc⟩ := socketOf_some hs
          obtain ⟨req, hreq, ⟨hadm, hexp, rfl, rfl⟩ | ⟨hadm, -, -⟩⟩ := connectLoop_cases h
          · exact .inr ⟨f, s, c, l, lc, q, rfl, hobj, hc, hct, not_not.mp hcr, rfl, hlc,
              not_not.mp hlt, hq, rfl, rfl⟩
          · obtain rfl : (⟨0, s, condInit⟩ : ConnectionRequest) = req := by
              simpa [IoKernel.addRequest, IoKernel.record, IoKernel.setSocket] using hreq
            simp at hadm
        · simp at h
      · simp at h

end Cases

/-! ### Reading and writing -/

/-- What the `Read` or `Write` method of FCB `f` does when thread `t` calls it. -/
inductive MethodOutcome (k : IoKernel) (t : ThreadId) (f : FcbId) : IoKernel → Option IoRet → Prop
  | returns (k' : IoKernel) (r : IoRet) (h : k.SameTables k') (hs : k'.sockets = k.sockets)
    (hp : k'.portMap = k.portMap) : MethodOutcome k t f k' (some r)
  | sleeps (k' : IoKernel) (pc : IoPc) (h : k.SameTables k') (hs : k'.sockets = k.sockets)
    (hp : k'.portMap = k.portMap) (huses : ∀ g, pc.uses g = decide (f = g))
    (hwait : pc.socketWait = none) : MethodOutcome k t f (k'.setPc t pc) none

section Methods

variable {k : IoKernel} {t : ThreadId} {f : FcbId}

theorem MethodOutcome.error (k : IoKernel) (t : ThreadId) (f : FcbId) (v : Int) :
    (k.ret v).All (MethodOutcome k t f) :=
  .ret (.returns k _ (.refl k) rfl rfl)

theorem readPipe_outcome (q : PipeId) (n : Nat) (res : PipeCb × Option (Int × List UInt8)) :
    MethodOutcome k t f (readPipe k t f q n res).1 (readPipe k t f q n res).2 := by
  have hstore : ∀ c, k.SameTables (storePipe k q c) := fun c => ⟨rfl, rfl, rfl, rfl, rfl⟩
  obtain ⟨c, _ | ⟨v, bytes⟩⟩ := res
  · exact .sleeps _ (.readingPipe f q n) (hstore c) rfl rfl (fun g => rfl) rfl
  · exact .returns _ _ (hstore c) rfl rfl

theorem writePipe_outcome (q : PipeId) (buf : List UInt8) (res : PipeCb × Option Int) :
    MethodOutcome k t f (writePipe k t f q buf res).1 (writePipe k t f q buf res).2 := by
  have hstore : ∀ c, k.SameTables (storePipe k q c) := fun c => ⟨rfl, rfl, rfl, rfl, rfl⟩
  obtain ⟨c, _ | v⟩ := res
  · exact .sleeps _ (.writingPipe f q buf) (hstore c) rfl rfl (fun g => rfl) rfl
  · exact .returns _ _ (hstore c) rfl rfl

theorem readSerial_outcome (devno n : Nat) (dev : List UInt8) :
    MethodOutcome k t f (readSerial k t f devno n dev).1 (readSerial k t f devno n dev).2 := by
  by_cases hn : n = 0
  · simp only [readSerial, hn, if_true]
    exact .returns k _ (.refl k) rfl rfl
  · simp only [readSerial, hn, if_false]
    cases dev with
    | nil =>
      have hwait : k.SameTables { k with
        rxReady := Function.update k.rxReady devno (kernelWait (k.rxReady devno) t) } :=
        ⟨rfl, rfl, rfl, rfl, rfl⟩
      exact .sleeps _ (.readingSerial f devno n) hwait rfl rfl (fun g => rfl) rfl
    | cons b dev => exact .returns k _ (.refl k) rfl rfl

theorem readPipeObj_outcome (n : Nat) (obj : StreamObj) :
    (readPipeObj k t f n obj).All (MethodOutcome k t f) := by
  cases obj with
  | NULL => exact .error k t f _
  | pipe q => exact .map fun c _ => readPipe_outcome q n _
  | _ => exact .none

theorem writePipeObj_outcome (buf : List UInt8) (obj : StreamObj) :
    (writePipeObj k t f buf obj).All (MethodOutcome k t f) := by
  cases obj with
  | NULL => exact .error k t f _
  | pipe q => exact .map fun c _ => writePipe_outcome q buf _
  | _ => exact .none

theorem readStream_outcome (n : Nat) (dev : List UInt8) (ops : FileOps) (obj : StreamObj) :
    (readStream k t f n dev ops obj).All (MethodOutcome k t f) := by
  cases ops with
  | nulldevFops => exact .some (.returns k _ (.refl k) rfl rfl)
  | serialFops =>
    cases obj with
    | serial devno => exact .some (readSerial_outcome devno n dev)
    | _ => exact .none
  | procinfoOps =>
    cases obj with
    | procinfo id => exact .some (.returns k _ (.refl k) rfl rfl)
    | _ => exact .none
  | readerFileOps => exact readPipeObj_outcome n obj
  | writerFileOps => exact .error k t f _
  | socketFileOps => exact .bind fun obj _ => readPipeObj_outcome n obj

theorem writeStream_outcome (buf dev : List UInt8) (ops : FileOps) (obj : StreamObj) :
    (writeStream k t f buf dev ops obj).All (MethodOutcome k t f) := by
  cases ops with
  | nulldevFops => exact .error k t f _
  | serialFops =>
    cases obj with
    | serial devno => exact .error k t f _
    | _ => exact .none
  | procinfoOps => exact .error k t f _
  | readerFileOps => exact .error k t f _
  | writerFileOps => exact writePipeObj_outcome buf obj
  | socketFileOps => exact .bind fun obj _ => writePipeObj_outcome buf obj

end Methods

end TinyOS
