import TinyOS.PipeBlocking

/-! The life of the control block of a pipe: it is freed with the last reference to the second
of its ends, and neither a stream nor a thread leads to it afterwards. -/

namespace TinyOS

open Counting Transition Relation

/-- What the operations on the block of a pipe keep, its end included. -/
structure BlockInvariant (P : Option PipeCb → Prop) : Prop where
  readerClose : ∀ c, P (some c) → P (pipeReaderClose c)
  writerClose : ∀ c, P (some c) → P (pipeWriterClose c)
  read : ∀ c t n, P (some c) → P (some (pipeRead c t n).1)
  write : ∀ c t buf, P (some c) → P (some (pipeWrite c t buf).1)
  readWait : ∀ c t n, P (some c) → P (some (pipeReadWait c t n).1)
  writeWait : ∀ c t buf, P (some c) → P (some (pipeWriteWait c t buf).1)

/-! ### What the calls keep of a block -/

def Keeping (P : Option PipeCb → Prop) (q : PipeId) (k : IoKernel)
    (_ : Option IoRet) : Prop := P (k.pipe? q)

section Keeping

variable {k k' : IoKernel} {q : PipeId} {p : Pid} {t : ThreadId} {f : FcbId}
  {e : IoEvent} {ret : Option IoRet}
  {v : Int} {P : Option PipeCb → Prop}

theorem closePipeEnd_block {close : PipeCb → Option PipeCb} {obj : StreamObj}
    (hclose : ∀ c, P (some c) → P (close c)) (h : P (k.pipe? q))
    (hc : closePipeEnd k close obj = some (k', v)) : P (k'.pipe? q) := by
  by_cases hobj : obj = .pipe q
  · subst hobj
    obtain ⟨c, hq, hq'⟩ := closePipeEnd_self hc
    rw [hq']
    apply hclose
    rwa [hq] at h
  · rwa [closePipeEnd_other hobj hc]

theorem closeStream_block {ops : Option FileOps} {obj : StreamObj} (hP : BlockInvariant P)
    (h : P (k.pipe? q)) (hs : closeStream k p ops obj = some (k', v)) : P (k'.pipe? q) := by
  have hends : KeptByEnds fun u => P (u.pipe? q) := by
    intro u u' close obj w hclose hu hc
    rcases hclose with rfl | rfl
    · exact closePipeEnd_block hP.readerClose hu hc
    · exact closePipeEnd_block hP.writerClose hu hc
  exact closeStream_keeps hends (fun _ _ _ hu => hu) h hs

theorem decref_block (hP : BlockInvariant P) (h : P (k.pipe? q))
    (hd : k.decref p f = some (k', v)) :
    P (k'.pipe? q) := by
  unfold IoKernel.decref at hd
  split at hd
  · obtain ⟨rfl, -⟩ : _ = k' ∧ _ = v := by simpa using hd
    exact h
  · rename_i files ops obj _
    exact closeStream_block (k := { k with files := files }) hP h hd

theorem storePipe_block {q' : PipeId} {c c' : PipeCb} (h : P (k.pipe? q)) (hc : k.pipe? q' = some c)
    (hc' : P (some c) → P (some c')) : P ((storePipe k q' c').pipe? q) := by
  by_cases hq : q' = q
  · subst hq
    have hself : (storePipe k q' c').pipe? q' = some c' := by
      simp [storePipe, IoKernel.pipe?, List.getElem?_set_self (pipe_lt hc)]
    rw [hself]
    rw [hc] at h
    exact hc' h
  · rwa [(storePipe_beside hq c').pipe]

theorem readPipe_block {q' : PipeId} {c : PipeCb} {n : Nat}
    {res : PipeCb × Option (Int × List UInt8)}
    (h : P (k.pipe? q)) (hc : k.pipe? q' = some c) (hres : P (some c) → P (some res.1)) :
    P ((readPipe k t f q' n res).1.pipe? q) := by
  obtain ⟨c', _ | r⟩ := res
  · exact storePipe_block h hc hres
  · exact storePipe_block h hc hres

theorem writePipe_block {q' : PipeId} {c : PipeCb} {buf : List UInt8} {res : PipeCb × Option Int}
    (h : P (k.pipe? q)) (hc : k.pipe? q' = some c) (hres : P (some c) → P (some res.1)) :
    P ((writePipe k t f q' buf res).1.pipe? q) := by
  obtain ⟨c', _ | r⟩ := res
  · exact storePipe_block h hc hres
  · exact storePipe_block h hc hres

theorem readPipeObj_block {n : Nat} {obj : StreamObj} (hP : BlockInvariant P) (h : P (k.pipe? q)) :
    (readPipeObj k t f n obj).All (Keeping P q) := by
  cases obj with
  | NULL => exact .ret h
  | pipe q' => exact .map fun c hc => readPipe_block h hc (hP.read c t n)
  | _ => exact .none

theorem writePipeObj_block {buf : List UInt8} {obj : StreamObj} (hP : BlockInvariant P)
    (h : P (k.pipe? q)) :
    (writePipeObj k t f buf obj).All (Keeping P q) := by
  cases obj with
  | NULL => exact .ret h
  | pipe q' => exact .map fun c hc => writePipe_block h hc (hP.write c t buf)
  | _ => exact .none

theorem readSerial_block {devno n : Nat} {dev : List UInt8} (h : P (k.pipe? q)) :
    P ((readSerial k t f devno n dev).1.pipe? q) := by
  rwa [readSerial_beside.pipe]

theorem readStream_block {n : Nat} {dev : List UInt8} {ops : FileOps} {obj : StreamObj}
    (hP : BlockInvariant P) (h : P (k.pipe? q)) :
    (readStream k t f n dev ops obj).All (Keeping P q) := by
  cases ops with
  | nulldevFops => exact .some h
  | serialFops =>
    cases obj with
    | serial devno => exact .some (readSerial_block h)
    | _ => exact .none
  | procinfoOps =>
    cases obj with
    | procinfo id => exact .some h
    | _ => exact .none
  | readerFileOps => exact readPipeObj_block hP h
  | writerFileOps => exact .ret h
  | socketFileOps => exact .bind fun obj _ => readPipeObj_block hP h

theorem writeStream_block {buf dev : List UInt8} {ops : FileOps} {obj : StreamObj}
    (hP : BlockInvariant P) (h : P (k.pipe? q)) :
    (writeStream k t f buf dev ops obj).All (Keeping P q) := by
  cases ops with
  | serialFops =>
    cases obj with
    | serial devno => exact .ret h
    | _ => exact .none
  | writerFileOps => exact writePipeObj_block hP h
  | socketFileOps => exact .bind fun obj _ => writePipeObj_block hP h
  | _ => exact .ret h

theorem finishIo_block {res : IoResult} (hP : BlockInvariant P) (h : res.All (Keeping P q)) :
    (finishIo p f res).All (Keeping P q) := by
  intro k' r hr
  rcases res with _ | ⟨k1, _ | x⟩
  · simp [finishIo] at hr
  · obtain ⟨rfl, -⟩ : k1 = k' ∧ _ = r := by simpa [finishIo] using hr
    exact h k1 none rfl
  · obtain ⟨⟨k2, v⟩, hd, he⟩ := Option.map_eq_some_iff.mp hr
    obtain ⟨rfl, -⟩ : k2 = k' ∧ _ = r := by simpa using he
    have hkept : P (k1.pipe? q) := h k1 _ rfl
    exact decref_block hP hkept hd

theorem sysDup2_block {oldfd newfd : Int} (hP : BlockInvariant P) (h : P (k.pipe? q)) :
    (sysDup2 k p oldfd newfd).All (Keeping P q) := by
  refine sysDup2_all (fun _ => h) fun old k1 _ _ _ hclosed => ?_
  show P (k1.pipe? q)
  rcases hclosed with ⟨-, rfl⟩ | ⟨new, v, -, hd⟩
  · exact h
  · exact decref_block hP h hd

theorem ioThreadExit_block (hcount : k.Counted none) (hp : (k.procs p).pstate = .alive)
    (hP : BlockInvariant P)
    (h : P (k.pipe? q)) (he : ioThreadExit k t p = some k') : P (k'.pipe? q) := by
  simp only [ioThreadExit] at he
  split at he
  · obtain ⟨k1, hk1, rfl⟩ := Option.map_eq_some_iff.mp he
    exact (closeFidt_induct (I := fun k => P (k.pipe? q)) hcount hp h
      (fun k2 i f k3 v _ _ _ _ hd hI => by
        have hkept : P (k3.pipe? q) := decref_block hP hI hd
        exact hkept) hk1).2
  · obtain rfl : k.setPc t .exited = k' := by simpa using he
    exact h

theorem call_block {y : IoThread} {res : IoResult} (hcount : k.Counted none)
    (hok : pipeTraffic k e = true)
    (hP : BlockInvariant P) (h : P (k.pipe? q)) (ht : k.threads[t]? = some y) (hy : y.pc = .user)
    (hc : k.call t y.pid e = some res) : res.All (Keeping P q) := by
  have hp : (k.procs y.pid).pstate = .alive := hcount.owner y (List.mem_of_getElem? ht)
    (by simp [hy])
  cases e with
  | read _ fd n dev =>
    obtain rfl := Option.some.inj hc
    exact sysRead_all h fun f ops _ _ => finishIo_block hP (readStream_block hP h)
  | write _ fd buf dev =>
    obtain rfl := Option.some.inj hc
    exact sysWrite_all h fun f ops _ _ => finishIo_block hP (writeStream_block hP h)
  | close _ fd =>
    obtain rfl := Option.some.inj hc
    exact sysClose_all (fun _ => h) fun f k1 v _ hd =>
      decref_block (k := k.setFidt y.pid fd.toNat none) hP h hd
  | dup2 =>
    obtain rfl := Option.some.inj hc
    exact sysDup2_block hP h
  | exec _ child call =>
    simp only [IoKernel.call] at hc
    split at hc
    · rename_i hfree
      obtain rfl := Option.some.inj hc
      intro k' ret hr
      obtain ⟨n, -, rfl⟩ := ioExec_cases hcount hp hfree hr
      have hinherit := (setProc_beside (q := q) k child fun c => { c with pstate := .alive }).trans
        (inherit_beside _ y.pid child n)
      cases call with
      | false =>
        show P (_ : Option PipeCb)
        rwa [← hinherit.pipe] at h
      | true =>
        show P (_ : Option PipeCb)
        rwa [← (hinherit.trans (addThread_beside _ child)).pipe] at h
    · simp at hc
  | createThread =>
    obtain rfl := Option.some.inj hc
    exact .ret h
  | threadExit =>
    obtain rfl := Option.some.inj hc
    exact .map fun k' hk' => ioThreadExit_block hcount hp hP h hk'
  | _ => simp [pipeTraffic, IoKernel.call] at hok hc

theorem goOn_block {y : IoThread} {dev : List UInt8} {garbage : Nat → UInt8} {res : IoResult}
    (hP : BlockInvariant P) (h : P (k.pipe? q)) (hy : y.pc.socketWait = none)
    (hg : k.goOn t y.pid y.pc dev garbage = some res) : res.All (Keeping P q) := by
  obtain ⟨pid, pc⟩ := y
  cases pc with
  | readingPipe f q' n =>
    simp only [IoKernel.goOn] at hg
    split at hg
    · simp at hg
    · obtain rfl := Option.some.inj hg
      exact finishIo_block hP
        (.map fun c hc => readPipe_block (k := k.setPc t .user) h hc (hP.readWait c t n))
  | readingSerial f devno n =>
    simp only [IoKernel.goOn] at hg
    split at hg
    · simp at hg
    · obtain rfl := Option.some.inj hg
      exact finishIo_block hP (.some (readSerial_block h))
  | writingPipe f q' buf =>
    simp only [IoKernel.goOn] at hg
    split at hg
    · simp at hg
    · obtain rfl := Option.some.inj hg
      exact finishIo_block hP
        (.map fun c hc => writePipe_block (k := k.setPc t .user) h hc (hP.writeWait c t buf))
  | user | exited => simp [IoKernel.goOn] at hg
  | _ => simp [IoPc.socketWait] at hy

theorem block_step (hsound : Sound k) (hok : pipeTraffic k e = true) (hP : BlockInvariant P)
    (h : P (k.pipe? q)) (hs : Stepped k e k' ret) : P (k'.pipe? q) := by
  cases hs with
  | fault => exact h
  | timeout => simp [pipeTraffic] at hok
  | serialReady => exact h
  | reap => exact h
  | proceed _ y _ _ _ _ ht hgo =>
    exact goOn_block hP h (by simpa [pipeTraffic, ht] using hok) hgo k' ret rfl
  | call _ t y _ _ he ht hy hcall => exact call_block hsound.counted hok hP h ht hy hcall k' ret rfl

end Keeping

/-- A block with neither end open has been freed. -/
def HasOpenEnd (b : Option PipeCb) : Prop := ∀ c, b = some c → c.reader ≠ none ∨ c.writer ≠ none

/-- The block of pipe `q`, read through FCB `fr` and written through `fw`: it has been freed when no
reference to either is left, and until then every use of it finds it, so that the call has a
result. -/
structure IoKernel.PipeLives (k : IoKernel) (q : PipeId) (fr fw : FcbId) : Prop where
  freed : k.pipe? q = none ↔ k.refs fr = 0 ∧ k.refs fw = 0
  stream : ∀ f, (k.files.stream f).1 = .pipe q → f = fr ∨ f = fw
  socket : ∀ f obj pipe, socketPipe k (k.files.stream f).1 pipe = some obj → obj = .NULL
  asleep : ∀ (t : ThreadId) (p : Pid) (f : FcbId),
    (∃ n, k.threads[t]? = some ⟨p, .readingPipe f q n⟩) ∨
    (∃ buf, k.threads[t]? = some ⟨p, .writingPipe f q buf⟩) → k.pipe? q ≠ none
  call : ∀ t p fd f, getFcb k p fd = some f → f = fr ∨ f = fw →
    (∀ n dev, sysRead k t p fd n dev ≠ none) ∧ (∀ buf dev, sysWrite k t p fd buf dev ≠ none) ∧
      sysClose k p fd ≠ none
  resume : ∀ (t : ThreadId) (x : IoThread) dev garbage res, k.threads[t]? = some x →
    x.pc.onPipe q = true → k.goOn t x.pid x.pc dev garbage = some res → res ≠ none
  close : ∀ p f, f = fr ∨ f = fw → k.refs f ≠ 0 → k.decref p f ≠ none

section Lives

variable {k k' : IoKernel} {q : PipeId} {fr fw f : FcbId} {p : Pid} {t : ThreadId}
  {e : IoEvent} {c : PipeCb}

theorem closePipeEnd_ne_none (close : PipeCb → Option PipeCb) (hc : k.pipe? q = some c) :
    closePipeEnd k close (.pipe q) ≠ none := by
  simp [closePipeEnd, hc]

theorem IoKernel.PipeStands.block_of_end (h : k.PipeStands q fr fw) (hf : f = fr ∨ f = fw)
    (hfree : f ∉ k.files.fcbFreelist) : ∃ c, k.pipe? q = some c := by
  rcases hf with rfl | rfl
  · obtain ⟨c, hc, -⟩ := h.block_of_open (.inl hfree)
    exact ⟨c, hc⟩
  · obtain ⟨c, hc, -⟩ := h.block_of_open (.inr hfree)
    exact ⟨c, hc⟩

/-- The close of an end that is open finds the block. -/
theorem IoKernel.PipeStands.decref_ne_none (h : k.PipeStands q fr fw) (hf : f = fr ∨ f = fw)
    (hfree : f ∉ k.files.fcbFreelist) : k.decref p f ≠ none := by
  obtain ⟨c, hc⟩ := h.block_of_end hf hfree
  by_cases hlast : (k.files.ft f).refcount - 1 = 0
  · have hdec : (fcbDecref k.files f).2 =
        some ((k.files.ft f).streamfunc, (k.files.ft f).streamobj) :=
      ((fcbDecref_tables k.files f).2.2 hlast).2
    unfold IoKernel.decref
    generalize fcbDecref k.files f = r at hdec
    obtain ⟨files, x⟩ := r
    obtain rfl : x = _ := hdec
    rcases hf with rfl | rfl
    · have hobj : (k.files.ft f).streamobj = .pipe q := congrArg Prod.fst h.readEnd
      have hops : (k.files.ft f).streamfunc = some .readerFileOps := congrArg Prod.snd h.readEnd
      simp only [hobj, hops, closeStream]
      exact closePipeEnd_ne_none (k := { k with files := files }) pipeReaderClose hc
    · have hobj : (k.files.ft f).streamobj = .pipe q := congrArg Prod.fst h.writeEnd
      have hops : (k.files.ft f).streamfunc = some .writerFileOps := congrArg Prod.snd h.writeEnd
      simp only [hobj, hops, closeStream]
      exact closePipeEnd_ne_none (k := { k with files := files }) pipeWriterClose hc
  · have hdec : fcbDecref k.files f =
        (k.files.setRefcount f ((k.files.ft f).refcount - 1), none) := by
      simp [fcbDecref, hlast]
    simp [IoKernel.decref, hdec]

/-- The method has had a result, and the reference held by the call is given back. -/
theorem finishIo_ne_none {r : IoKernel × Option IoRet} (hstands : r.1.PipeStands q fr fw)
    (hf : f = fr ∨ f = fw) (hfree : f ∉ r.1.files.fcbFreelist) : finishIo p f (some r) ≠ none := by
  obtain ⟨k1, _ | v⟩ := r
  · simp [finishIo]
  · obtain ⟨r', hr⟩ := Option.ne_none_iff_exists'.mp (hstands.decref_ne_none (p := p) hf hfree)
    simp only at hr
    simp [finishIo, hr]

theorem readPipe_files {n : Nat} (res : PipeCb × Option (Int × List UInt8)) :
    (readPipe k t f q n res).1.files = k.files := by
  obtain ⟨c, _ | r⟩ := res <;> rfl

theorem writePipe_files {buf : List UInt8} (res : PipeCb × Option Int) :
    (writePipe k t f q buf res).1.files = k.files := by
  obtain ⟨c, _ | r⟩ := res <;> rfl

theorem IoKernel.PipeStands.sysRead_ne_none (h : k.PipeStands q fr fw)
    {fd : Int} (hfd : getFcb k p fd = some f)
    (hf : f = fr ∨ f = fw) (hfree : f ∉ k.files.fcbFreelist) (n : Nat) (dev : List UInt8) :
    sysRead k t p fd n dev ≠ none := by
  obtain ⟨c, hc⟩ := h.block_of_end hf hfree
  have hbeside : (k.incref f).PipeStands q fr fw := h.beside (incref_beside k f)
  have hfree' : f ∉ (k.incref f).files.fcbFreelist := hfree
  have hc' : (k.incref f).pipe? q = some c := hc
  simp only [sysRead, hfd]
  rcases hf with rfl | rfl
  · have hobj : (k.files.ft f).streamobj = .pipe q := congrArg Prod.fst h.readEnd
    have hops : (k.files.ft f).streamfunc = some .readerFileOps := congrArg Prod.snd h.readEnd
    simp only [hobj, hops, readStream, readPipeObj, hc', Option.map_some]
    refine finishIo_ne_none (hbeside.readPipe hc' (fun _ => rfl) fun r w hw => hw.read n)
      (.inl rfl) ?_
    rw [readPipe_files]
    exact hfree'
  · have hops : (k.files.ft f).streamfunc = some .writerFileOps := congrArg Prod.snd h.writeEnd
    simp only [hops, readStream]
    exact finishIo_ne_none (r := (k.incref f, some ⟨-1, [], []⟩)) hbeside (.inr rfl) hfree'

theorem IoKernel.PipeStands.sysWrite_ne_none (h : k.PipeStands q fr fw)
    {fd : Int} (hfd : getFcb k p fd = some f)
    (hf : f = fr ∨ f = fw) (hfree : f ∉ k.files.fcbFreelist) (buf dev : List UInt8) :
    sysWrite k t p fd buf dev ≠ none := by
  obtain ⟨c, hc⟩ := h.block_of_end hf hfree
  have hbeside : (k.incref f).PipeStands q fr fw := h.beside (incref_beside k f)
  have hfree' : f ∉ (k.incref f).files.fcbFreelist := hfree
  have hc' : (k.incref f).pipe? q = some c := hc
  simp only [sysWrite, hfd]
  rcases hf with rfl | rfl
  · have hops : (k.files.ft f).streamfunc = some .readerFileOps := congrArg Prod.snd h.readEnd
    simp only [hops, writeStream]
    exact finishIo_ne_none (r := (k.incref f, some ⟨-1, [], []⟩)) hbeside (.inl rfl) hfree'
  · have hobj : (k.files.ft f).streamobj = .pipe q := congrArg Prod.fst h.writeEnd
    have hops : (k.files.ft f).streamfunc = some .writerFileOps := congrArg Prod.snd h.writeEnd
    simp only [hobj, hops, writeStream, writePipeObj, hc', Option.map_some]
    refine finishIo_ne_none (hbeside.writePipe hc' (fun _ => rfl) fun r w hw => hw.write buf)
      (.inr rfl) ?_
    rw [writePipe_files]
    exact hfree'

theorem IoKernel.PipeStands.sysClose_ne_none (h : k.PipeStands q fr fw)
    {fd : Int} (hfd : getFcb k p fd = some f)
    (hf : f = fr ∨ f = fw) (hfree : f ∉ k.files.fcbFreelist) : sysClose k p fd ≠ none := by
  have hbeside : (k.setFidt p fd.toNat none).PipeStands q fr fw := h.beside (setProc_beside k p _)
  obtain ⟨r, hr⟩ := Option.ne_none_iff_exists'.mp (hbeside.decref_ne_none (p := p) hf hfree)
  simp [sysClose, hfd, hr, IoKernel.ret]

theorem IoKernel.PipeStands.goOn_ne_none {x : IoThread} {dev : List UInt8}
    {garbage : Nat → UInt8} {res : IoResult}
    (h : k.PipeStands q fr fw) (hcount : k.Counted none) (ht : k.threads[t]? = some x)
    (hx : x.pc.onPipe q = true) (hg : k.goOn t x.pid x.pc dev garbage = some res) : res ≠ none := by
  have hmem := List.mem_of_getElem? ht
  have hawake : (k.setPc t .user).PipeStands q fr fw := h.beside (setPc_beside rfl)
  have hfree : ∀ f, x.pc.uses f = true → f ∉ k.files.fcbFreelist :=
    fun f hu => not_free_of_uses hcount ht hu
  obtain ⟨pid, pc⟩ := x
  cases pc with
  | readingPipe f q' n =>
    obtain rfl : q' = q := by simpa [IoPc.onPipe] using hx
    obtain rfl := h.reading _ hmem f n rfl
    have hf := hfree f (by simp [IoPc.uses])
    obtain ⟨c, hc⟩ := h.block_of_end (.inl rfl) hf
    have hc' : (k.setPc t .user).pipe? q' = some c := hc
    simp only [IoKernel.goOn, hc, Option.elim_some, Option.map_some] at hg
    split at hg
    · simp at hg
    · obtain rfl := Option.some.inj hg
      refine finishIo_ne_none (hawake.readPipe hc' (fun _ => rfl) fun r w hw => hw.readWait n)
        (.inl rfl) ?_
      rw [readPipe_files]
      exact hf
  | writingPipe f q' buf =>
    obtain rfl : q' = q := by simpa [IoPc.onPipe] using hx
    obtain rfl := h.writing _ hmem f buf rfl
    have hf := hfree f (by simp [IoPc.uses])
    obtain ⟨c, hc⟩ := h.block_of_end (.inr rfl) hf
    have hc' : (k.setPc t .user).pipe? q' = some c := hc
    simp only [IoKernel.goOn, hc, Option.elim_some, Option.map_some] at hg
    split at hg
    · simp at hg
    · obtain rfl := Option.some.inj hg
      refine finishIo_ne_none (hawake.writePipe hc' (fun _ => rfl) fun r w hw => hw.writeWait buf)
        (.inr rfl) ?_
      rw [writePipe_files]
      exact hf
  | _ => simp [IoPc.onPipe] at hx

theorem IoKernel.PipeStands.freed_iff (h : k.PipeStands q fr fw) (hends : HasOpenEnd (k.pipe? q))
    (hcount : k.Counted none) (hr : fr < maxFiles) (hw : fw < maxFiles) :
    k.pipe? q = none ↔ k.refs fr = 0 ∧ k.refs fw = 0 := by
  rw [← openEnd_none hcount hr, ← openEnd_none hcount hw]
  have hblock := h.block
  constructor
  · intro hq
    rw [hq] at hblock
    exact hblock
  · rintro ⟨hro, hwo⟩
    cases hq : k.pipe? q with
    | none => rfl
    | some c =>
      rw [hq, hro, hwo] at hblock
      obtain ⟨-, hreader, hwriter, -, -⟩ := hblock
      rw [hq] at hends
      rcases hends c rfl with hne | hne
      · exact absurd hreader hne
      · exact absurd hwriter hne

end Lives

section Blocks

variable {c : PipeCb} {t : ThreadId}

theorem pipeWriteCopy_ends (c : PipeCb) (buf : List UInt8) :
    c.SameEnds (pipeWriteCopy c buf).1 := by
  induction buf generalizing c with
  | nil => exact .refl c
  | cons b buf ih =>
    simp only [pipeWriteCopy]
    split
    · exact ⟨(ih (c.put b)).reader, (ih (c.put b)).writer⟩
    · exact .refl c

theorem pipeReadCopy_ends (c : PipeCb) (n : Nat) : c.SameEnds (pipeReadCopy c n).1 := by
  induction n generalizing c with
  | zero => exact .refl c
  | succ n ih =>
    simp only [pipeReadCopy]
    split
    · exact ⟨(ih c.get).reader, (ih c.get).writer⟩
    · exact .refl c

theorem pipeWriteWait_ends (c : PipeCb) (t : ThreadId) (buf : List UInt8) :
    c.SameEnds (pipeWriteWait c t buf).1 := by
  unfold pipeWriteWait
  split
  · exact ⟨rfl, rfl⟩
  split
  · exact .refl c
  · exact ⟨(pipeWriteCopy_ends c buf).reader, (pipeWriteCopy_ends c buf).writer⟩

theorem pipeReadWait_ends (c : PipeCb) (t : ThreadId) (n : Nat) :
    c.SameEnds (pipeReadWait c t n).1 := by
  unfold pipeReadWait
  split
  · exact ⟨rfl, rfl⟩
  · exact ⟨(pipeReadCopy_ends c n).reader, (pipeReadCopy_ends c n).writer⟩

theorem PipeCb.SameEnds.hasOpenEnd {c' : PipeCb} (h : c.SameEnds c') (hc : HasOpenEnd (some c)) :
    HasOpenEnd (some c') := by
  intro d hd
  obtain rfl := Option.some.inj hd
  rw [h.reader, h.writer]
  exact hc c rfl

theorem hasOpenEnd_invariant : BlockInvariant HasOpenEnd where
  readerClose c _ := by
    intro d hd
    simp only [pipeReaderClose] at hd
    split at hd
    · rename_i hw
      obtain rfl := Option.some.inj hd
      exact .inr hw
    · simp at hd
  writerClose c _ := by
    intro d hd
    simp only [pipeWriterClose] at hd
    split at hd
    · rename_i hr
      obtain rfl := Option.some.inj hd
      exact .inl hr
    · simp at hd
  read c t n hc := by
    unfold pipeRead
    split
    · exact hc
    · exact (pipeReadWait_ends c t n).hasOpenEnd hc
  write c t buf hc := by
    unfold pipeWrite
    split
    · exact hc
    · exact (pipeWriteWait_ends c t buf).hasOpenEnd hc
  readWait c t n hc := (pipeReadWait_ends c t n).hasOpenEnd hc
  writeWait c t buf hc := (pipeWriteWait_ends c t buf).hasOpenEnd hc

/-- A block that has been freed is not put back. -/
theorem freed_invariant : BlockInvariant (· = none) where
  readerClose _ h := nomatch h
  writerClose _ h := nomatch h
  read _ _ _ h := nomatch h
  write _ _ _ h := nomatch h
  readWait _ _ _ h := nomatch h
  writeWait _ _ _ h := nomatch h

end Blocks

section Runs

variable {k k' : IoKernel} {q : PipeId} {fr fw : FcbId} {p : Pid} {t : ThreadId}

theorem IoKernel.PipeStands.lives (h : k.PipeStands q fr fw) (hends : HasOpenEnd (k.pipe? q))
    (hsound : Sound k) (hr : fr < maxFiles) (hw : fw < maxFiles) : k.PipeLives q fr fw where
  freed := h.freed_iff hends hsound.counted hr hw
  stream := h.only
  socket f obj pipe hs := socketPipe_null (hsound.roles.peerless rfl) hs
  asleep t p f ht := by
    have hblock : ∃ c, k.pipe? q = some c := by
      rcases ht with ⟨n, ht⟩ | ⟨buf, ht⟩
      · have hf := h.reading _ (List.mem_of_getElem? ht) f n rfl
        exact h.block_of_end (.inl hf) (not_free_of_uses hsound.counted ht (by simp [IoPc.uses]))
      · have hf := h.writing _ (List.mem_of_getElem? ht) f buf rfl
        exact h.block_of_end (.inr hf) (not_free_of_uses hsound.counted ht (by simp [IoPc.uses]))
    obtain ⟨c, hc⟩ := hblock
    simp [hc]
  call t p fd f hfd hf := by
    have hfree := (inUse_of_getFcb hsound.counted hfd).2
    exact ⟨h.sysRead_ne_none hfd hf hfree, h.sysWrite_ne_none hfd hf hfree,
      h.sysClose_ne_none hfd hf hfree⟩
  resume t x dev garbage res ht hx hg := h.goOn_ne_none hsound.counted ht hx hg
  close p f hf hrefs := by
    have hv : f < maxFiles := by
      rcases hf with rfl | rfl
      · exact hr
      · exact hw
    have hopen : k.openEnd f ≠ none := fun he => hrefs ((openEnd_none hsound.counted hv).mp he)
    refine h.decref_ne_none hf fun hfree => hopen ?_
    simp [IoKernel.openEnd, hfree]

/-- Every pipe that `sys_Pipe` makes, while its ends are read, written, duplicated, inherited and
closed by any threads: its block is freed with the last reference to its second end, once, and is
not used afterwards. -/
theorem pipe_lifetime {serialPorts : Nat} {k0 k1 : IoKernel} {garbage : Nat → UInt8}
    {bytes : List UInt8} {fids : List Nat} (h : Reach IoKernel.step Always (bootIo serialPorts) k0)
    (ht : k0.threads[t]? = some ⟨p, .user⟩)
    (hpipe : k0.stepRet (.pipe t garbage) = some (k1, some ⟨0, bytes, fids⟩))
    (hrun : Reach IoKernel.step (fun k e => pipeTraffic k e = true) k1 k) :
    ∃ i j fr fw q, fids = [i, j] ∧ getFcb k1 p i = some fr ∧ getFcb k1 p j = some fw ∧
      k1.files.stream fr = (.pipe q, some .readerFileOps) ∧
      k1.files.stream fw = (.pipe q, some .writerFileOps) ∧
      k.PipeLives q fr fw ∧ ∀ e k', pipeTraffic k e = true → k.step e = some k' →
        (k.pipe? q = none → k'.pipe? q = none) ∧
        ((k.pipe? q ≠ none ∧ k'.pipe? q = none) ↔
          ¬(k.refs fr = 0 ∧ k.refs fw = 0) ∧ k'.refs fr = 0 ∧ k'.refs fw = 0) := by
  obtain ⟨hcount, hnamed⟩ := pipesNamed_of_reach h
  obtain ⟨p', res, ht', hcall, hsettle⟩ := stepRet_call rfl (fun _ _ => by simp) hpipe
  obtain rfl : p = p' := by simpa [ht] using ht'
  obtain rfl : sysPipe k0 p garbage = res := by simpa [IoKernel.call] using hcall
  rcases settle_cases hsettle with hsys | ⟨-, hret⟩
  · obtain ⟨i, j, fr, fw, hfids, hi, hj, hr, hw, hstands⟩ := pipe_stands hcount hnamed hsys
    have hsound1 : Sound k1 := ((sound_of_reach h).stepRet hpipe).1
    have hends1 : HasOpenEnd (k1.pipe? k0.pipes.length) := by
      obtain ⟨c, hc, hwaits⟩ := hstands.block_of_open (.inl (inUse_of_getFcb hsound1.counted hi).2)
      intro d hd
      obtain rfl : c = d := Option.some.inj (hc.symm.trans hd)
      rw [hwaits.reader]
      simp [IoKernel.openEnd, (inUse_of_getFcb hsound1.counted hi).2]
    have hstep : ∀ u e v, Sound u ∧ u.PipeStands k0.pipes.length fr fw ∧
        HasOpenEnd (u.pipe? k0.pipes.length) →
        pipeTraffic u e = true → u.step e = some v →
        (Sound v ∧ v.PipeStands k0.pipes.length fr fw ∧ HasOpenEnd (v.pipe? k0.pipes.length)) ∧
          (u.pipe? k0.pipes.length = none → v.pipe? k0.pipes.length = none) := by
      rintro u e v ⟨hsound, hu, hends⟩ hok hs
      obtain ⟨⟨v', ret⟩, hret, rfl⟩ := Option.map_eq_some_iff.mp hs
      obtain ⟨-, hcases⟩ := stepRet_cases hret
      exact ⟨⟨(hsound.stepRet hret).1, hu.step hsound hok hcases,
        block_step hsound hok hasOpenEnd_invariant hends hcases⟩,
        fun hfreed => block_step hsound hok freed_invariant hfreed hcases⟩
    obtain ⟨hsound, hk, hends⟩ :=
      hrun.invariant (I := fun k => Sound k ∧ k.PipeStands k0.pipes.length fr fw ∧
      HasOpenEnd (k.pipe? k0.pipes.length)) ⟨hsound1, hstands, hends1⟩
      fun u e v hu hok hs => (hstep u e v hu hok hs).1
    refine ⟨i, j, fr, fw, k0.pipes.length, hfids, hi, hj, hstands.readEnd, hstands.writeEnd,
      hk.lives hends hsound hr hw, fun e k' hok hs => ?_⟩
    obtain ⟨⟨hsound', hk', hends'⟩, hfreed⟩ := hstep k e k' ⟨hsound, hk, hends⟩ hok hs
    refine ⟨hfreed, ?_⟩
    rw [← hk.freed_iff hends hsound.counted hr hw, ← hk'.freed_iff hends' hsound'.counted hr hw]
  · simp at hret

/-- A reader asleep on a pipe of which both fids have been closed. -/
theorem pipe_lifetime_run : ∃ (k : IoKernel) (fr fw : FcbId) (q : PipeId),
    k.threads[1]? = some ⟨1, .readingPipe 0 0 8⟩ ∧ getFcb k 1 0 = none ∧ getFcb k 1 1 = none ∧
      k.PipeLives q fr fw := by
  have hp : ((exec IoKernel.step (bootIo 0) [.createThread 0]).any fun k0 =>
      decide (k0.threads[0]? = some ⟨1, .user⟩) && (k0.stepRet (.pipe 0 fun _ => 0)).any fun r =>
        decide (r.2 = some ⟨0, [], [0, 1]⟩) &&
          (exec (guarded pipeTraffic IoKernel.step) r.1
            [.read 1 0 8 [], .close 0 0, .close 0 1]).any fun k =>
            decide (k.threads[1]? = some ⟨1, .readingPipe 0 0 8⟩ ∧ getFcb k 1 0 = none ∧
              getFcb k 1 1 = none)) = true := by decide +kernel
  obtain ⟨k0, hk0, hp⟩ := (Option.any_eq_true ..).mp hp
  obtain ⟨ht, hp⟩ := Bool.and_eq_true_iff.mp hp
  obtain ⟨⟨k1, ret⟩, hret, hp⟩ := (Option.any_eq_true ..).mp hp
  obtain ⟨hfids, hp⟩ := Bool.and_eq_true_iff.mp hp
  obtain ⟨k, hk, hclosed⟩ := (Option.any_eq_true ..).mp hp
  obtain rfl : ret = some ⟨0, [], [0, 1]⟩ := of_decide_eq_true hfids
  obtain ⟨hsleeps, hread, hwrite⟩ := of_decide_eq_true hclosed
  obtain ⟨i, j, fr, fw, q, -, -, -, -, -, hlives, -⟩ := pipe_lifetime (reach_of_exec hk0)
    (of_decide_eq_true ht) hret (reach_of_guarded_exec (fun _ _ h => h) hk)
  exact ⟨k, fr, fw, q, hsleeps, hread, hwrite, hlives⟩

end Runs

end TinyOS
