import TinyOS.PipeLifetime

/-! What goes through a pipe from end to end, while the whole kernel runs: the bytes that all calls
on its write end take are those that the calls on its read end give, in order, and those still in
the buffer. -/

namespace TinyOS

open Counting Transition Relation

def IoKernel.readerOf (q : PipeId) (k : IoKernel) : IoEvent → Option FcbId
  | .read t fd _ _ => (k.threads[t]?).bind fun x => getFcb k x.pid fd
  | .proceed t _ _ => (k.threads[t]?).bind fun x =>
    match x.pc with
    | .readingPipe f q' _ => if q' = q then some f else none
    | _ => none
  | _ => none

/-- The FCB through which the event writes to pipe `q`, and what it would write. -/
def IoKernel.writerOf (q : PipeId) (k : IoKernel) : IoEvent → Option (FcbId × List UInt8)
  | .write t fd buf _ => (k.threads[t]?).bind fun x => (getFcb k x.pid fd).map (·, buf)
  | .proceed t _ _ => (k.threads[t]?).bind fun x =>
    match x.pc with
    | .writingPipe f q' buf => if q' = q then some (f, buf) else none
    | _ => none
  | _ => none

def IoRet.given (ret : Option IoRet) : List UInt8 := ret.elim [] IoRet.bytes

def IoRet.taken (buf : List UInt8) (ret : Option IoRet) : List UInt8 :=
  ret.elim [] fun r => buf.take r.val.toNat

structure Passed where
  given : List UInt8
  taken : List UInt8

def givenBy (fr : FcbId) (r : Option FcbId) (ret : Option IoRet) : List UInt8 :=
  if r = some fr then IoRet.given ret else []

def takenBy (fw : FcbId) (w : Option (FcbId × List UInt8)) (ret : Option IoRet) : List UInt8 :=
  match w with
  | some (f, buf) => if f = fw then IoRet.taken buf ret else []
  | none => []

def IoKernel.passes (q : PipeId) (fr fw : FcbId) (k : IoKernel) (e : IoEvent) : Option Passed :=
  (k.stepRet e).map fun r => ⟨givenBy fr (k.readerOf q e) r.2, takenBy fw (k.writerOf q e) r.2⟩

def QueueKept (b b' : Option PipeCb) : Prop := ∀ c', b' = some c' → ∃ c,
    b = some c ∧ c'.queue = c.queue

/-- Of the bytes in `b`, with those taken added, those given have gone. -/
def Through (b : Option PipeCb) (q : PipeId) (given taken : Option IoRet → List UInt8)
    (k' : IoKernel) (ret : Option IoRet) : Prop :=
  ∃ rest, b.elim [] PipeCb.queue ++ taken ret = given ret ++ rest ∧ ∀ c, k'.pipe? q = some c →
    c.queue = rest

abbrev PassedBy (b : Option PipeCb) (q : PipeId) : IoKernel → Option IoRet → Prop :=
  Through b q (fun _ => []) fun _ => []

section Blocks

variable {c : PipeCb} {b b' b'' : Option PipeCb} {t : ThreadId} {r w : Option FcbId}

theorem QueueKept.refl (b : Option PipeCb) : QueueKept b b := fun c hc => ⟨c, hc, rfl⟩

theorem QueueKept.trans (h : QueueKept b b') (h' : QueueKept b' b'') : QueueKept b b'' := by
  intro c'' hc''
  obtain ⟨c', hc', he'⟩ := h' c'' hc''
  obtain ⟨c, hc, he⟩ := h c' hc'
  exact ⟨c, hc, he'.trans he⟩

theorem pipeReaderClose_queue (c : PipeCb) : QueueKept (some c) (pipeReaderClose c) := by
  intro c' hc'
  simp only [pipeReaderClose] at hc'
  split at hc'
  · obtain rfl := Option.some.inj hc'
    exact ⟨c, rfl, rfl⟩
  · simp at hc'

theorem pipeWriterClose_queue (c : PipeCb) : QueueKept (some c) (pipeWriterClose c) := by
  intro c' hc'
  simp only [pipeWriterClose] at hc'
  split at hc'
  · obtain rfl := Option.some.inj hc'
    exact ⟨c, rfl, rfl⟩
  · simp at hc'

/-- A stretch of a read gives what it takes out of the buffer. -/
theorem PipeCb.Waits.read_moves (h : c.Waits r w) (n : Nat) :
    c.queue = ((pipeReadWait c t n).2.elim [] Prod.snd) ++ (pipeReadWait c t n).1.queue := by
  obtain ⟨c', o, hstretch⟩ : ∃ c' o, pipeReadWait c t n = (c', o) := ⟨_, _, rfl⟩
  rw [hstretch]
  rcases o with _ | ⟨v, bytes⟩
  · rw [pipeReadWait_blocks hstretch]
    rfl
  · obtain ⟨-, -, -, hbytes, hqueue⟩ := pipeReadWait_returns h.wf hstretch
    simp only [Option.elim_some]
    rw [hbytes, hqueue, List.take_append_drop]

theorem PipeCb.Waits.write_moves (h : c.Waits r w) (buf : List UInt8) :
    c.queue ++ ((pipeWriteWait c t buf).2.elim [] fun v => buf.take v.toNat) =
    (pipeWriteWait c t buf).1.queue := by
  obtain ⟨c', o, hstretch⟩ : ∃ c' o, pipeWriteWait c t buf = (c', o) := ⟨_, _, rfl⟩
  rw [hstretch]
  rcases o with _ | v
  · rw [pipeWriteWait_blocks hstretch]
    exact List.append_nil _
  · by_cases hr : c.reader = none
    · obtain ⟨rfl, rfl⟩ : c = c' ∧ -1 = v := by simpa [pipeWriteWait, hr] using hstretch
      exact List.append_nil _
    · exact (pipeWriteWait_returns h.wf hr hstretch).2.2.2.symm

theorem pipeWrite_eq_wait (c : PipeCb) (t : ThreadId) (buf : List UInt8) :
    pipeWrite c t buf = pipeWriteWait c t buf := by
  by_cases hr : c.reader = none <;> simp [pipeWrite, pipeWriteWait, hr]

end Blocks

section Calls

variable {k k' : IoKernel} {q : PipeId} {fr fw f : FcbId} {p : Pid} {t : ThreadId}
  {e : IoEvent} {ret : Option IoRet}
  {v : Int} {b : Option PipeCb} {c : PipeCb} {given taken : Option IoRet → List UInt8}

theorem through_of_kept (h : QueueKept b (k'.pipe? q)) (hg : given ret = []) (ht : taken ret = []) :
    Through b q given taken k' ret := by
  refine ⟨_, by rw [hg, ht, List.append_nil, List.nil_append], fun c' hc' => ?_⟩
  obtain ⟨c, hc, he⟩ := h c' hc'
  rw [he, hc]
  rfl

theorem Through.kept (h : Through b q given taken k ret) (hk : QueueKept (k.pipe? q) (k'.pipe? q)) :
    Through b q given taken k' ret := by
  obtain ⟨rest, hrest, hq⟩ := h
  refine ⟨rest, hrest, fun c' hc' => ?_⟩
  obtain ⟨c, hc, he⟩ := hk c' hc'
  exact he.trans (hq c hc)

theorem IoKernel.Beside.kept (h : k.Beside k' q) : QueueKept (k.pipe? q) (k'.pipe? q) := by
  rw [h.pipe]
  exact .refl _

/-- Closing a stream takes no byte out of a pipe that stays. -/
theorem decref_queue (h : k.decref p f = some (k', v)) : QueueKept (k.pipe? q) (k'.pipe? q) := by
  have hends : KeptByEnds fun u => QueueKept (k.pipe? q) (u.pipe? q) := by
    intro u u' close obj w hclose hu hc
    by_cases hobj : obj = .pipe q
    · subst hobj
      obtain ⟨c, hq, hq'⟩ := closePipeEnd_self hc
      rw [hq] at hu
      rw [hq']
      rcases hclose with rfl | rfl
      · exact hu.trans (pipeReaderClose_queue c)
      · exact hu.trans (pipeWriterClose_queue c)
    · rwa [closePipeEnd_other hobj hc]
  unfold IoKernel.decref at h
  split at h
  · obtain ⟨rfl, -⟩ : _ = k' ∧ _ = v := by simpa using h
    exact .refl _
  · rename_i files ops obj _
    exact closeStream_keeps (k := { k with files := files }) hends (fun _ _ _ hu => hu) (.refl _) h

theorem finishIo_through {res : IoResult} (h : res.All (Through b q given taken)) :
    (finishIo p f res).All (Through b q given taken) := by
  intro k' r hr
  rcases res with _ | ⟨k1, _ | x⟩
  · simp [finishIo] at hr
  · obtain ⟨rfl, rfl⟩ : k1 = k' ∧ none = r := by simpa [finishIo] using hr
    exact h k1 none rfl
  · obtain ⟨⟨k2, v⟩, hd, he⟩ := Option.map_eq_some_iff.mp hr
    obtain ⟨rfl, rfl⟩ : k2 = k' ∧ some x = r := by simpa using he
    exact (h k1 _ rfl).kept (decref_queue hd)

/-- A stretch of a read that takes place at pipe `q`. -/
theorem readPipe_through {n : Nat} {res : PipeCb × Option (Int × List UInt8)}
    (hc : k.pipe? q = some c) (hres : c.queue = (res.2.elim [] Prod.snd) ++ res.1.queue) :
    Through (some c) q IoRet.given (fun _ => []) (readPipe k t f q n res).1
      (readPipe k t f q n res).2 := by
  have hstore : ∀ c', (storePipe k q c').pipe? q = some c' := fun c' => by
    simp [storePipe, IoKernel.pipe?, List.getElem?_set_self (pipe_lt hc)]
  obtain ⟨c₁, _ | ⟨v, bytes⟩⟩ := res
  · refine ⟨c₁.queue, (List.append_nil _).trans hres, fun c' hc' => ?_⟩
    rw [Option.some.inj ((hstore c₁).symm.trans hc')]
  · refine ⟨c₁.queue, (List.append_nil _).trans hres, fun c' hc' => ?_⟩
    rw [Option.some.inj ((hstore c₁).symm.trans hc')]

theorem writePipe_through {buf : List UInt8} {res : PipeCb × Option Int} (hc : k.pipe? q = some c)
    (hres : c.queue ++ (res.2.elim [] fun v => buf.take v.toNat) = res.1.queue) :
    Through (some c) q (fun _ => []) (IoRet.taken buf) (writePipe k t f q buf res).1
      (writePipe k t f q buf res).2 := by
  have hstore : ∀ c', (storePipe k q c').pipe? q = some c' := fun c' => by
    simp [storePipe, IoKernel.pipe?, List.getElem?_set_self (pipe_lt hc)]
  obtain ⟨c₁, _ | v⟩ := res
  · refine ⟨c₁.queue, hres, fun c' hc' => ?_⟩
    rw [Option.some.inj ((hstore c₁).symm.trans hc')]
  · refine ⟨c₁.queue, hres, fun c' hc' => ?_⟩
    rw [Option.some.inj ((hstore c₁).symm.trans hc')]

theorem readPipe_kept {q' : PipeId} {n : Nat} (hq : q' ≠ q)
    (res : PipeCb × Option (Int × List UInt8)) :
    QueueKept (k.pipe? q) ((readPipe k t f q' n res).1.pipe? q) := by
  obtain ⟨c', _ | r⟩ := res
  · exact (storePipe_beside (k := k) hq c').kept
  · exact (storePipe_beside (k := k) hq c').kept

theorem writePipe_kept {q' : PipeId} {buf : List UInt8} (hq : q' ≠ q) (res : PipeCb × Option Int) :
    QueueKept (k.pipe? q) ((writePipe k t f q' buf res).1.pipe? q) := by
  obtain ⟨c', _ | r⟩ := res
  · exact (storePipe_beside (k := k) hq c').kept
  · exact (storePipe_beside (k := k) hq c').kept

theorem sysRead_through {fd : Int} {n : Nat} {dev : List UInt8} (h : k.PipeStands q fr fw)
    (hsound : Sound k) :
    (sysRead k t p fd n dev).All
      (Through (k.pipe? q) q (givenBy fr (getFcb k p fd)) fun _ => []) := by
  by_cases hfr : getFcb k p fd = some fr
  · have hgiven : givenBy fr (getFcb k p fd) = IoRet.given := by
      funext r
      simp [givenBy, hfr]
    rw [hgiven]
    have hfree := (inUse_of_getFcb hsound.counted hfr).2
    obtain ⟨c, hc, hwaits⟩ := h.block_of_open (.inl hfree)
    have hreader : c.reader ≠ none := by
      rw [hwaits.reader]
      simp [IoKernel.openEnd, hfree]
    have hwait : pipeRead c t n = pipeReadWait c t n := by simp [pipeRead, hreader]
    obtain ⟨k', hsys, hkeeps⟩ := sysRead_reader (t := t) hsound.counted hfr h.readEnd hc n dev
    rw [hwait] at hsys hkeeps
    intro k'' ret hret
    obtain ⟨rfl, rfl⟩ := Prod.mk.inj (Option.some.inj (hsys.symm.trans hret))
    rw [hc]
    refine (readPipe_through hc (hwaits.read_moves n)).kept ?_
    simp only [IoKernel.pipe?, hkeeps.pipes]
    exact .refl _
  · have hgiven : givenBy fr (getFcb k p fd) = fun _ => [] := by
      funext r
      simp [givenBy, hfr]
    rw [hgiven]
    refine sysRead_all (through_of_kept (.refl _) rfl rfl) fun f ops hf hops => finishIo_through ?_
    have hst := incref_stream (k := k) hops
    have hobj : ((k.incref f).files.stream f).1 = (k.files.ft f).streamobj := congrArg Prod.fst hst
    refine readStream_all ((roles_of_view hsound.roles (incref_view k f)).peerless hobj)
      (fun _ => through_of_kept (.refl _) rfl rfl)
      (fun _ => through_of_kept readSerial_beside.kept rfl rfl) ?_
    rintro q' c rfl hq' hc
    refine through_of_kept (readPipe_kept (k := k.incref f) (fun hq => ?_) _) rfl rfl
    subst hq
    rcases (h.beside (incref_beside k f)).only f (hobj.trans hq') with rfl | rfl
    · exact hfr hf
    · rw [(h.beside (incref_beside k f)).writeEnd] at hst
      simp at hst

theorem sysWrite_through {fd : Int} {buf dev : List UInt8} (h : k.PipeStands q fr fw)
    (hsound : Sound k) :
    (sysWrite k t p fd buf dev).All
      (Through (k.pipe? q) q (fun _ => []) (takenBy fw ((getFcb k p fd).map (·, buf)))) := by
  by_cases hfw : getFcb k p fd = some fw
  · have htaken : takenBy fw ((getFcb k p fd).map (·, buf)) = IoRet.taken buf := by
      funext r
      simp [takenBy, hfw]
    rw [htaken]
    have hfree := (inUse_of_getFcb hsound.counted hfw).2
    obtain ⟨c, hc, hwaits⟩ := h.block_of_open (.inr hfree)
    obtain ⟨k', hsys, hkeeps⟩ := sysWrite_writer (t := t) hsound.counted hfw h.writeEnd hc buf dev
    rw [pipeWrite_eq_wait] at hsys hkeeps
    intro k'' ret hret
    obtain ⟨rfl, rfl⟩ := Prod.mk.inj (Option.some.inj (hsys.symm.trans hret))
    rw [hc]
    refine (writePipe_through hc (hwaits.write_moves buf)).kept ?_
    simp only [IoKernel.pipe?, hkeeps.pipes]
    exact .refl _
  · have htaken : takenBy fw ((getFcb k p fd).map (·, buf)) = fun _ => [] := by
      funext r
      cases hf : getFcb k p fd with
      | none => rfl
      | some f =>
        rw [hf] at hfw
        simp only [takenBy, Option.map_some]
        rw [if_neg fun he => hfw (by rw [he])]
    rw [htaken]
    refine sysWrite_all (through_of_kept (.refl _) rfl rfl) fun f ops hf hops => finishIo_through ?_
    have hst := incref_stream (k := k) hops
    have hobj : ((k.incref f).files.stream f).1 = (k.files.ft f).streamobj := congrArg Prod.fst hst
    refine writeStream_all ((roles_of_view hsound.roles (incref_view k f)).peerless hobj)
      (fun _ => through_of_kept (.refl _) rfl rfl) ?_
    rintro q' c rfl hq' hc
    refine through_of_kept (writePipe_kept (k := k.incref f) (fun hq => ?_) _) rfl rfl
    subst hq
    rcases (h.beside (incref_beside k f)).only f (hobj.trans hq') with rfl | rfl
    · rw [(h.beside (incref_beside k f)).readEnd] at hst
      simp at hst
    · exact hfw hf

/-- The calls that neither read nor write. -/
theorem call_passedBy {y : IoThread} {res : IoResult} (hcount : k.Counted none)
    (hok : pipeTraffic k e = true)
    (ht : k.threads[t]? = some y) (hy : y.pc = .user) (hread : ∀ u fd n dev, e ≠ .read u fd n dev)
    (hwrite : ∀ u fd buf dev, e ≠ .write u fd buf dev) (hc : k.call t y.pid e = some res) :
    res.All (PassedBy (k.pipe? q) q) := by
  have hp : (k.procs y.pid).pstate = .alive := hcount.owner y (List.mem_of_getElem? ht)
    (by simp [hy])
  cases e with
  | read u fd n dev => exact absurd rfl (hread u fd n dev)
  | write u fd buf dev => exact absurd rfl (hwrite u fd buf dev)
  | close _ fd =>
    obtain rfl := Option.some.inj hc
    exact sysClose_all (fun _ => through_of_kept (.refl _) rfl rfl) fun f k1 v _ hd =>
      through_of_kept (decref_queue (k := k.setFidt y.pid fd.toNat none) hd) rfl rfl
  | dup2 =>
    obtain rfl := Option.some.inj hc
    refine sysDup2_all (fun _ => through_of_kept (.refl _) rfl rfl) fun old k1 _ _ _ hclosed =>
      through_of_kept (show QueueKept (k.pipe? q) (k1.pipe? q) from ?_) rfl rfl
    rcases hclosed with ⟨-, rfl⟩ | ⟨new, v, -, hd⟩
    · exact .refl _
    · exact decref_queue hd
  | exec _ child call =>
    simp only [IoKernel.call] at hc
    split at hc
    · rename_i hfree
      obtain rfl := Option.some.inj hc
      intro k' ret hr
      obtain ⟨n, -, rfl⟩ := ioExec_cases hcount hp hfree hr
      have hinherit := (setProc_beside (q := q) k child fun c => { c with pstate := .alive }).trans
        (inherit_beside _ y.pid child n)
      cases call with
      | false => exact through_of_kept hinherit.kept rfl rfl
      | true => exact through_of_kept (hinherit.trans (addThread_beside _ child)).kept rfl rfl
    · simp at hc
  | createThread =>
    obtain rfl := Option.some.inj hc
    exact .ret (through_of_kept (.refl _) rfl rfl)
  | threadExit =>
    obtain rfl := Option.some.inj hc
    refine .map fun k' hk' => through_of_kept ?_ rfl rfl
    simp only [ioThreadExit] at hk'
    split at hk'
    · obtain ⟨k1, hk1, rfl⟩ := Option.map_eq_some_iff.mp hk'
      exact (closeFidt_induct (I := fun u => QueueKept (k.pipe? q) (u.pipe? q)) hcount hp (.refl _)
        (fun k2 i f k3 v _ _ _ _ hd hI => by
          have hkept : QueueKept (k2.pipe? q) (k3.pipe? q) := decref_queue hd
          exact hI.trans hkept) hk1).2
    · obtain rfl : k.setPc t .exited = k' := by simpa using hk'
      exact .refl _
  | _ => simp [pipeTraffic, IoKernel.call] at hok hc

/-- A thread that goes on in `pipe_read` or `pipe_write`. -/
theorem goOn_through {y : IoThread} {dev : List UInt8} {garbage : Nat → UInt8} {res : IoResult}
    (h : k.PipeStands q fr fw) (hsound : Sound k) (ht : k.threads[t]? = some y)
    (hy : y.pc.socketWait = none) (hg : k.goOn t y.pid y.pc dev garbage = some res) :
    res.All (Through (k.pipe? q) q (givenBy fr (k.readerOf q (.proceed t dev garbage)))
      (takenBy fw (k.writerOf q (.proceed t dev garbage)))) := by
  have hmem := List.mem_of_getElem? ht
  obtain ⟨pid, pc⟩ := y
  cases pc with
  | readingPipe f q' n =>
    simp only [IoKernel.goOn] at hg
    split at hg
    · simp at hg
    · obtain rfl := Option.some.inj hg
      refine finishIo_through (.map fun c hc => ?_)
      by_cases hq : q' = q
      · subst hq
        obtain rfl := h.reading _ hmem f n rfl
        have hgiven : givenBy f (k.readerOf q' (.proceed t dev garbage)) = IoRet.given := by
          funext r
          simp [givenBy, IoKernel.readerOf, ht]
        have htaken : takenBy fw (k.writerOf q' (.proceed t dev garbage)) = fun _ => [] := by
          funext r
          simp [takenBy, IoKernel.writerOf, ht]
        obtain ⟨c₁, hc₁, hwaits⟩ :=
          h.block_of_open (.inl (not_free_of_uses hsound.counted ht (f := f) (by simp [IoPc.uses])))
        obtain rfl : c₁ = c := Option.some.inj (hc₁.symm.trans hc)
        rw [hgiven, htaken, hc₁]
        exact readPipe_through (k := k.setPc t .user) hc (hwaits.read_moves n)
      · exact through_of_kept (readPipe_kept (k := k.setPc t .user) hq _)
          (by simp [givenBy, IoKernel.readerOf, ht, hq]) (by simp [takenBy, IoKernel.writerOf, ht])
  | readingSerial f devno n =>
    simp only [IoKernel.goOn] at hg
    split at hg
    · simp at hg
    · obtain rfl := Option.some.inj hg
      exact finishIo_through (.some (through_of_kept (readSerial_beside (k := k.setPc t .user)).kept
        (by simp [givenBy, IoKernel.readerOf, ht]) (by simp [takenBy, IoKernel.writerOf, ht])))
  | writingPipe f q' buf =>
    simp only [IoKernel.goOn] at hg
    split at hg
    · simp at hg
    · obtain rfl := Option.some.inj hg
      refine finishIo_through (.map fun c hc => ?_)
      by_cases hq : q' = q
      · subst hq
        obtain rfl := h.writing _ hmem f buf rfl
        have hgiven : givenBy fr (k.readerOf q' (.proceed t dev garbage)) = fun _ => [] := by
          funext r
          simp [givenBy, IoKernel.readerOf, ht]
        have htaken : takenBy f (k.writerOf q' (.proceed t dev garbage)) = IoRet.taken buf := by
          funext r
          simp [takenBy, IoKernel.writerOf, ht]
        obtain ⟨c₁, hc₁, hwaits⟩ :=
          h.block_of_open (.inr (not_free_of_uses hsound.counted ht (f := f) (by simp [IoPc.uses])))
        obtain rfl : c₁ = c := Option.some.inj (hc₁.symm.trans hc)
        rw [hgiven, htaken, hc₁]
        exact writePipe_through (k := k.setPc t .user) hc (hwaits.write_moves buf)
      · exact through_of_kept (writePipe_kept (k := k.setPc t .user) hq _)
          (by simp [givenBy, IoKernel.readerOf, ht]) (by simp [takenBy, IoKernel.writerOf, ht, hq])
  | user | exited => simp [IoKernel.goOn] at hg
  | _ => simp [IoPc.socketWait] at hy

/-- One step moves bytes only through the calls on the two ends. -/
theorem IoKernel.PipeStands.through (h : k.PipeStands q fr fw) (hsound : Sound k)
    (hok : pipeTraffic k e = true)
    (hs : k.stepRet e = some (k', ret)) :
    Through (k.pipe? q) q (givenBy fr (k.readerOf q e)) (takenBy fw (k.writerOf q e)) k' ret := by
  obtain ⟨-, hcases⟩ := stepRet_cases hs
  have hquiet : ∀ f w, QueueKept (k.pipe? q) (k'.pipe? q) → ret = none →
      Through (k.pipe? q) q (givenBy fr f) (takenBy fw w) k' ret := by
    rintro f w hkept rfl
    refine through_of_kept hkept (by simp [givenBy, IoRet.given]) ?_
    rcases w with _ | ⟨g, buf⟩
    · rfl
    · simp [takenBy, IoRet.taken]
  cases hcases with
  | fault => exact hquiet _ _ (.refl _) rfl
  | timeout => simp [pipeTraffic] at hok
  | serialReady => exact hquiet _ _ (.refl _) rfl
  | reap => exact hquiet _ _ (.refl _) rfl
  | proceed t y dev garbage _ _ ht hgo =>
    exact goOn_through h hsound ht (by simpa [pipeTraffic, ht] using hok) hgo k' ret rfl
  | call _ t y _ _ he ht hy hcall =>
    have hother : k.readerOf q e = none → k.writerOf q e = none → PassedBy (k.pipe? q) q k' ret →
        Through (k.pipe? q) q (givenBy fr (k.readerOf q e))
          (takenBy fw (k.writerOf q e)) k' ret := by
      intro hr hw hpass
      rw [hr, hw]
      exact hpass
    cases e with
    | read u fd n dev =>
      obtain rfl : u = t := by simpa [IoEvent.thread] using he
      have hread := Option.some.inj hcall
      have hr : k.readerOf q (.read u fd n dev) = getFcb k y.pid fd := by
        simp [IoKernel.readerOf, ht]
      rw [hr]
      exact sysRead_through h hsound k' ret hread
    | write u fd buf dev =>
      obtain rfl : u = t := by simpa [IoEvent.thread] using he
      have hwrite := Option.some.inj hcall
      have hw : k.writerOf q (.write u fd buf dev) = (getFcb k y.pid fd).map (·, buf) := by
        simp [IoKernel.writerOf, ht]
      rw [hw]
      exact sysWrite_through h hsound k' ret hwrite
    | proceed => simp [IoKernel.call] at hcall
    | _ =>
      exact hother rfl rfl
        (call_passedBy hsound.counted hok ht hy (by simp) (by simp) hcall k' ret rfl)

/-- A block that has been freed passes nothing. -/
theorem IoKernel.PipeStands.freed_passes (h : k.PipeStands q fr fw) (hsound : Sound k)
    (hq : k.pipe? q = none) (hs : k.stepRet e = some (k', ret)) :
    givenBy fr (k.readerOf q e) ret = [] ∧ takenBy fw (k.writerOf q e) ret = [] := by
  have hgone : ∀ f, f = fr ∨ f = fw → f ∈ k.files.fcbFreelist := by
    intro f hf
    by_contra hfree
    obtain ⟨c, hc⟩ := h.block_of_end hf hfree
    simp [hc] at hq
  constructor
  · unfold givenBy
    rw [if_neg]
    intro hr
    cases e with
    | read t fd n dev =>
      obtain ⟨x, -, hf⟩ := Option.bind_eq_some_iff.mp hr
      exact (inUse_of_getFcb hsound.counted hf).2 (hgone fr (.inl rfl))
    | proceed t dev garbage =>
      obtain ⟨⟨p, pc⟩, ht, hf⟩ := Option.bind_eq_some_iff.mp hr
      cases pc with
      | readingPipe f q' n =>
        simp only [Option.ite_none_right_eq_some, Option.some.injEq] at hf
        exact not_free_of_uses hsound.counted ht (by simp [IoPc.uses, hf.2]) (hgone fr (.inl rfl))
      | _ => simp at hf
    | _ => simp [IoKernel.readerOf] at hr
  · unfold takenBy
    cases hw : k.writerOf q e with
    | none => rfl
    | some x =>
      obtain ⟨f, buf⟩ := x
      simp only
      rw [if_neg]
      rintro rfl
      cases e with
      | write t fd buf' dev =>
        obtain ⟨x, -, hf⟩ := Option.bind_eq_some_iff.mp hw
        obtain ⟨g, hg, he⟩ := Option.map_eq_some_iff.mp hf
        obtain rfl : g = f := (Prod.mk.inj he).1
        exact (inUse_of_getFcb hsound.counted hg).2 (hgone g (.inr rfl))
      | proceed t dev garbage =>
        obtain ⟨⟨p, pc⟩, ht, hf⟩ := Option.bind_eq_some_iff.mp hw
        cases pc with
        | writingPipe g q' buf' =>
          simp only [Option.ite_none_right_eq_some, Option.some.injEq, Prod.mk.injEq] at hf
          exact not_free_of_uses hsound.counted ht (by simp [IoPc.uses, hf.2.1])
            (hgone f (.inr rfl))
        | _ => simp at hf
      | _ => simp [IoKernel.writerOf] at hw

/-- The bytes taken in a run and not given, when `rest` was in the buffer at first. -/
theorem IoKernel.PipeStands.run_passes {os : List Passed} {rest : List UInt8}
    (hrun : Trace IoKernel.step (fun k e => pipeTraffic k e = true)
      (IoKernel.passes q fr fw) k os k')
    (h : k.PipeStands q fr fw) (hsound : Sound k)
    (hrest : ∀ c, k.pipe? q = some c → c.queue = rest) :
    (Sound k' ∧ k'.PipeStands q fr fw) ∧ ∃ rest', rest ++ os.flatMap Passed.taken =
    os.flatMap Passed.given ++ rest' ∧
      ∀ c, k'.pipe? q = some c → c.queue = rest' := by
  induction hrun generalizing rest with
  | refl k => exact ⟨⟨hsound, h⟩, rest, by simp, hrest⟩
  | @head k u k' e os hok hs htail ih =>
    obtain ⟨⟨u', ret⟩, hret, rfl⟩ := Option.map_eq_some_iff.mp hs
    have hobs : k.passes q fr fw e =
        some ⟨givenBy fr (k.readerOf q e) ret, takenBy fw (k.writerOf q e) ret⟩ := by
      simp [IoKernel.passes, hret]
    obtain ⟨rest₁, hmove, hrest₁⟩ : ∃ rest₁, rest ++ takenBy fw (k.writerOf q e) ret =
        givenBy fr (k.readerOf q e) ret ++ rest₁ ∧ ∀ c, u'.pipe? q = some c → c.queue = rest₁ := by
      obtain ⟨rest₁, hmove, hrest₁⟩ := h.through hsound hok hret
      cases hq : k.pipe? q with
      | none =>
        obtain ⟨hgiven, htaken⟩ := h.freed_passes hsound hq hret
        have hfreed := block_step hsound hok freed_invariant hq (stepRet_cases hret).2
        exact ⟨rest, by rw [hgiven, htaken, List.append_nil, List.nil_append],
          fun c hc => by simp [hfreed] at hc⟩
      | some c =>
        rw [hq, Option.elim_some, hrest c hq] at hmove
        exact ⟨rest₁, hmove, hrest₁⟩
    obtain ⟨hend, rest', hpassed, hrest'⟩ :=
      ih (h.step hsound hok (stepRet_cases hret).2) (hsound.stepRet hret).1 hrest₁
    refine ⟨hend, rest', ?_, hrest'⟩
    simp only [hobs, Option.toList_some, List.singleton_append, List.flatMap_cons]
    rw [← List.append_assoc, hmove, List.append_assoc, hpassed, List.append_assoc]

/-- Every pipe that `sys_Pipe` makes, in every run of calls on any files by any threads: what has
been read is a prefix of what has been written, the rest is in the buffer while the pipe is there,
and a read finds the end of the stream only after it has all been read. -/
theorem pipe_delivery {serialPorts : Nat} {k0 k1 : IoKernel} {garbage : Nat → UInt8}
    {bytes : List UInt8} {fids : List Nat} (h : Reach IoKernel.step Always (bootIo serialPorts) k0)
    (ht : k0.threads[t]? = some ⟨p, .user⟩)
    (hpipe : k0.stepRet (.pipe t garbage) = some (k1, some ⟨0, bytes, fids⟩)) :
    ∃ i j fr fw q, fids = [i, j] ∧ getFcb k1 p i = some fr ∧ getFcb k1 p j = some fw ∧
      k1.files.stream fr = (.pipe q, some .readerFileOps) ∧
      k1.files.stream fw = (.pipe q, some .writerFileOps) ∧
      ∀ os k, Trace IoKernel.step (fun k e => pipeTraffic k e = true)
        (IoKernel.passes q fr fw) k1 os k →
        os.flatMap Passed.given <+: os.flatMap Passed.taken ∧
        (∀ c, k.pipe? q = some c → os.flatMap Passed.taken = os.flatMap Passed.given ++ c.queue) ∧
        ∀ e u n k' bytes fids, k.ReadsFrom fr q u n e → 0 < n →
        k.stepRet e = some (k', some ⟨0, bytes, fids⟩) →
          os.flatMap Passed.given = os.flatMap Passed.taken := by
  obtain ⟨hcount, hnamed⟩ := pipesNamed_of_reach h
  obtain ⟨p', res, ht', hcall, hsettle⟩ := stepRet_call rfl (fun _ _ => by simp) hpipe
  obtain rfl : p = p' := by simpa [ht] using ht'
  obtain rfl : sysPipe k0 p garbage = res := by simpa [IoKernel.call] using hcall
  rcases settle_cases hsettle with hsys | ⟨-, hret⟩
  swap
  · simp at hret
  obtain ⟨i, j, fr, fw, hfids, hi, hj, hr, hw, hstands⟩ := pipe_stands hcount hnamed hsys
  have hsound : Sound k1 := ((sound_of_reach h).stepRet hpipe).1
  have hempty : ∀ c, k1.pipe? k0.pipes.length = some c → c.queue = [] := by
    intro c hc
    obtain ⟨i', f, rest, j', g, rest', heq⟩ : ∃ i f rest j g rest',
        k1 = ((k0.grab p i f rest).grab p j g rest').addPipe g f garbage := by
      rcases sysPipe_cases hsys with ⟨-, _, hret⟩ |
        ⟨i, f, rest, -, ⟨-, ⟨_, hret⟩, -⟩ | ⟨j, g, rest', -, -, heq⟩⟩
      · simp at hret
      · simp at hret
      · exact ⟨i, f, rest, j, g, rest', heq⟩
    have hnew : k1.pipe? k0.pipes.length = some (PipeCb.initial f g garbage) := by
      rw [heq]
      show (k0.pipes ++ [some (PipeCb.initial f g garbage)])[k0.pipes.length]?.join = _
      simp
    rw [← Option.some.inj (hnew.symm.trans hc)]
    exact PipeCb.initial_queue f g garbage
  refine ⟨i, j, fr, fw, k0.pipes.length, hfids, hi, hj, hstands.readEnd,
    hstands.writeEnd, fun os k hrun => ?_⟩
  obtain ⟨⟨hsound', hstands'⟩, rest, hpassed, hrest⟩ := hstands.run_passes hrun hsound hempty
  rw [List.nil_append] at hpassed
  refine ⟨⟨rest, hpassed.symm⟩, fun c hc => by rw [hrest c hc, hpassed],
    fun e u n k' bytes fids hreads hn hs => ?_⟩
  obtain ⟨c, hc, hiff, -⟩ := (hstands'.exact hsound' hr hw).readReturns
    e u n k' 0 bytes fids hreads hn hs
  rw [hpassed, ← hrest c hc, (hiff.mp rfl).2, List.append_nil]

end Calls

/-- A run on given events, and what it passes. -/
def IoKernel.passing (q : PipeId) (fr fw : FcbId) : IoKernel → List IoEvent →
    Option (IoKernel × List Passed)
  | k, [] => some (k, [])
  | k, e :: es =>
    if pipeTraffic k e then
      (k.step e).bind fun u => (u.passing q fr fw es).map fun r =>
        (r.1, (k.passes q fr fw e).toList ++ r.2)
    else none

theorem trace_of_passing {k k' : IoKernel} {q : PipeId} {fr fw : FcbId}
    {es : List IoEvent} {os : List Passed}
    (h : k.passing q fr fw es = some (k', os)) :
    Trace IoKernel.step (fun k e => pipeTraffic k e = true) (IoKernel.passes q fr fw) k os k' := by
  induction es generalizing k os with
  | nil =>
    obtain ⟨rfl, rfl⟩ : k = k' ∧ [] = os := by simpa [IoKernel.passing] using h
    exact .refl k
  | cons e es ih =>
    simp only [IoKernel.passing, Option.ite_none_right_eq_some] at h
    obtain ⟨hok, h⟩ := h
    obtain ⟨u, hu, h⟩ := Option.bind_eq_some_iff.mp h
    obtain ⟨⟨u', os'⟩, hrest, he⟩ := Option.map_eq_some_iff.mp h
    obtain ⟨rfl, rfl⟩ := Prod.mk.inj he
    exact .head hok hu (ih hrest)

/-- Init writes three bytes, closes the write end and reads two of them. -/
theorem pipe_delivery_run : ∃ (k1 k : IoKernel) (os : List Passed) (fr fw : FcbId) (q : PipeId),
    Trace IoKernel.step (fun k e => pipeTraffic k e = true) (IoKernel.passes q fr fw) k1 os k ∧
      os.flatMap Passed.given = [7, 8] ∧ os.flatMap Passed.taken = [7, 8, 9] ∧
      os.flatMap Passed.given <+: os.flatMap Passed.taken := by
  have hp : ((bootIo 0).stepRet (.pipe 0 fun _ => 0)).any (fun r =>
      decide (r.2 = some ⟨0, [], [0, 1]⟩ ∧ getFcb r.1 1 0 = some 0 ∧ getFcb r.1 1 1 = some 1 ∧
          r.1.files.stream 0 = (.pipe 0, some .readerFileOps)) &&
        (r.1.passing 0 0 1 [.write 0 1 [7, 8, 9] [], .close 0 1, .read 0 0 2 []]).any fun x =>
          decide (x.2.flatMap Passed.given = [7, 8] ∧ x.2.flatMap Passed.taken = [7, 8, 9])) =
            true := by
    decide +kernel
  obtain ⟨⟨k1, ret⟩, hret, hp⟩ := (Option.any_eq_true ..).mp hp
  obtain ⟨hfids, hp⟩ := Bool.and_eq_true_iff.mp hp
  obtain ⟨⟨k, os⟩, hpass, hmoved⟩ := (Option.any_eq_true ..).mp hp
  obtain ⟨rfl, hi, hj, hq⟩ := of_decide_eq_true hfids
  obtain ⟨i, j, fr, fw, q, hij, hfr, hfw, hstream, -, hdelivery⟩ :=
    pipe_delivery (p := 1) .refl rfl hret
  obtain ⟨rfl, rfl⟩ : 0 = i ∧ 1 = j := by simpa using hij
  obtain rfl : 0 = fr := Option.some.inj (hi.symm.trans hfr)
  obtain rfl : 1 = fw := Option.some.inj (hj.symm.trans hfw)
  obtain rfl : 0 = q := by simpa [hq] using hstream
  obtain ⟨hgiven, htaken⟩ := of_decide_eq_true hmoved
  have htrace := trace_of_passing hpass
  exact ⟨k1, k, os, 0, 1, 0, htrace, hgiven, htaken, (hdelivery os k htrace).1⟩

end TinyOS
