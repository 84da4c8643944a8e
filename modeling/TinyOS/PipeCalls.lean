import TinyOS.IoEffects

/-! `Read` and `Write` on the ends of a pipe, and what else such a call changes. -/

namespace TinyOS

open Counting Transition Relation

/-- What the stretches of reads and writes leave alone. -/
structure IoKernel.Keeps (k k' : IoKernel) : Prop where
  procs : k'.procs = k.procs
  faulted : k'.faulted = k.faulted
  threads : k'.threads = k.threads
  pipes : k'.pipes = k.pipes
  free : k'.files.fcbFreelist = k.files.fcbFreelist
  stream : ∀ g, k'.files.stream g = k.files.stream g

section Methods

variable {k k' : IoKernel} {t : ThreadId} {p : Pid} {a f : FcbId} {q : PipeId} {c : PipeCb}
  {e : IoEvent} {ret : Option IoRet}

/-- The end of a call whose FCB has another reference. -/
theorem finishIo_keeps (hne : (k.files.ft f).refcount - 1 ≠ 0) (p : Pid) (ret : Option IoRet) :
    ∃ k', finishIo p f (some (k, ret)) = some (k', ret) ∧ k.Keeps k' := by
  cases ret with
  | none => exact ⟨k, rfl, rfl, rfl, rfl, rfl, rfl, fun _ => rfl⟩
  | some r =>
    have hdec : fcbDecref k.files f =
        (k.files.setRefcount f ((k.files.ft f).refcount - 1), none) := by
      simp [fcbDecref, hne]
    refine ⟨{ k with files := k.files.setRefcount f ((k.files.ft f).refcount - 1) },
      ?_, rfl, rfl, rfl, rfl, rfl,
      stream_setRefcount k.files f _⟩
    simp [finishIo, IoKernel.decref, hdec]

theorem incref_keeps (k : IoKernel) (f : FcbId) : k.Keeps (k.incref f) :=
  ⟨rfl, rfl, rfl, rfl, rfl, stream_setRefcount k.files f _⟩

theorem IoKernel.Keeps.trans {k'' : IoKernel} (h : k.Keeps k') (h' : k'.Keeps k'') :
    k.Keeps k'' where
  procs := h'.procs.trans h.procs
  faulted := h'.faulted.trans h.faulted
  threads := h'.threads.trans h.threads
  pipes := h'.pipes.trans h.pipes
  free := h'.free.trans h.free
  stream g := (h'.stream g).trans (h.stream g)

theorem incref_refcount {fd : Int} (h : k.Counted none) (hf : getFcb k p fd = some f) :
    ((k.incref f).files.ft f).refcount - 1 ≠ 0 := by
  intro hlast
  exact incref_not_last (L := fun _ => False) h hf hlast

theorem finish_write (hne : (k.files.ft a).refcount - 1 ≠ 0) (p : Pid) (t : ThreadId) (q : PipeId)
    (buf : List UInt8) (r : PipeCb × Option Int) : ∃ k',
    finishIo p a (some (writePipe k t a q buf r)) =
      some (k', (writePipe k t a q buf r).2) ∧ (writePipe k t a q buf r).1.Keeps k' := by
  rcases r with ⟨c', _ | v⟩
  · exact finishIo_keeps (k := (storePipe k q c').setPc t (.writingPipe a q buf)) hne p none
  · exact finishIo_keeps (k := storePipe k q c') hne p (some ⟨v, [], []⟩)

theorem finish_read (hne : (k.files.ft f).refcount - 1 ≠ 0) (p : Pid) (t : ThreadId) (q : PipeId)
    (n : Nat) (r : PipeCb × Option (Int × List UInt8)) : ∃ k',
    finishIo p f (some (readPipe k t f q n r)) =
      some (k', (readPipe k t f q n r).2) ∧ (readPipe k t f q n r).1.Keeps k' := by
  rcases r with ⟨c', _ | ⟨v, bytes⟩⟩
  · exact finishIo_keeps (k := (storePipe k q c').setPc t (.readingPipe f q n)) hne p none
  · exact finishIo_keeps (k := storePipe k q c') hne p (some ⟨v, bytes, []⟩)

theorem writePipe_incref (k : IoKernel) (t : ThreadId) (a : FcbId) (q : PipeId) (buf : List UInt8)
    (r : PipeCb × Option Int) :
    (writePipe k t a q buf r).1.Keeps (writePipe (k.incref a) t a q buf r).1 ∧
      (writePipe (k.incref a) t a q buf r).2 = (writePipe k t a q buf r).2 := by
  rcases r with ⟨c', _ | v⟩
  · exact ⟨⟨rfl, rfl, rfl, rfl, rfl, stream_setRefcount k.files a _⟩, rfl⟩
  · exact ⟨⟨rfl, rfl, rfl, rfl, rfl, stream_setRefcount k.files a _⟩, rfl⟩

theorem readPipe_incref (k : IoKernel) (t : ThreadId) (f : FcbId) (q : PipeId) (n : Nat)
    (r : PipeCb × Option (Int × List UInt8)) :
    (readPipe k t f q n r).1.Keeps (readPipe (k.incref f) t f q n r).1 ∧
      (readPipe (k.incref f) t f q n r).2 = (readPipe k t f q n r).2 := by
  rcases r with ⟨c', _ | ⟨v, bytes⟩⟩
  · exact ⟨⟨rfl, rfl, rfl, rfl, rfl, stream_setRefcount k.files f _⟩, rfl⟩
  · exact ⟨⟨rfl, rfl, rfl, rfl, rfl, stream_setRefcount k.files f _⟩, rfl⟩

/-- `Write` on the write end, up to the count of the FCB. -/
theorem sysWrite_writer {fd : Int} (hcount : k.Counted none) (hf : getFcb k p fd = some a)
    (hst : k.files.stream a = (.pipe q, some .writerFileOps)) (hq : k.pipe? q = some c)
    (buf dev : List UInt8) :
    ∃ k', sysWrite k t p fd buf dev = some (k', (writePipe k t a q buf (pipeWrite c t buf)).2) ∧
      (writePipe k t a q buf (pipeWrite c t buf)).1.Keeps k' := by
  have hops : (k.files.ft a).streamfunc = some .writerFileOps := congrArg Prod.snd hst
  have hobj : (k.files.ft a).streamobj = .pipe q := congrArg Prod.fst hst
  have hq' : (k.incref a).pipe? q = some c := hq
  have hsys : sysWrite k t p fd buf dev =
      finishIo p a (some (writePipe (k.incref a) t a q buf (pipeWrite c t buf))) := by
    simp [sysWrite, hf, hops, hobj, writeStream, writePipeObj, hq']
  rw [hsys]
  obtain ⟨k', hk', hkeep⟩ := finish_write (incref_refcount hcount hf) p t q buf (pipeWrite c t buf)
  obtain ⟨hstore, hret⟩ := writePipe_incref k t a q buf (pipeWrite c t buf)
  exact ⟨k', hret ▸ hk', hstore.trans hkeep⟩

theorem sysRead_reader {fd : Int} (hcount : k.Counted none) (hf : getFcb k p fd = some f)
    (hst : k.files.stream f = (.pipe q, some .readerFileOps)) (hq : k.pipe? q = some c) (n : Nat)
    (dev : List UInt8) :
    ∃ k', sysRead k t p fd n dev = some (k', (readPipe k t f q n (pipeRead c t n)).2) ∧
      (readPipe k t f q n (pipeRead c t n)).1.Keeps k' := by
  have hops : (k.files.ft f).streamfunc = some .readerFileOps := congrArg Prod.snd hst
  have hobj : (k.files.ft f).streamobj = .pipe q := congrArg Prod.fst hst
  have hq' : (k.incref f).pipe? q = some c := hq
  have hsys : sysRead k t p fd n dev =
      finishIo p f (some (readPipe (k.incref f) t f q n (pipeRead c t n))) := by
    simp [sysRead, hf, hops, hobj, readStream, readPipeObj, hq']
  rw [hsys]
  obtain ⟨k', hk', hkeep⟩ := finish_read (incref_refcount hcount hf) p t q n (pipeRead c t n)
  obtain ⟨hstore, hret⟩ := readPipe_incref k t f q n (pipeRead c t n)
  exact ⟨k', hret ▸ hk', hstore.trans hkeep⟩

theorem sysWrite_reader {fd : Int} {obj : StreamObj} (hcount : k.Counted none)
    (hf : getFcb k p fd = some f) (hst : k.files.stream f = (obj, some .readerFileOps))
    (buf dev : List UInt8) :
    ∃ k', sysWrite k t p fd buf dev = some (k', some ⟨-1, [], []⟩) ∧ k.Keeps k' := by
  have hops : (k.files.ft f).streamfunc = some .readerFileOps := congrArg Prod.snd hst
  have hsys : sysWrite k t p fd buf dev = finishIo p f (some (k.incref f, some ⟨-1, [], []⟩)) := by
    simp [sysWrite, hf, hops, writeStream, IoKernel.ret]
  rw [hsys]
  obtain ⟨k', hk', hkeep⟩ := finishIo_keeps (incref_refcount hcount hf) p (some ⟨-1, [], []⟩)
  exact ⟨k', hk', (incref_keeps k f).trans hkeep⟩

theorem sysRead_writer {fd : Int} {obj : StreamObj} (hcount : k.Counted none)
    (hf : getFcb k p fd = some a) (hst : k.files.stream a = (obj, some .writerFileOps)) (n : Nat)
    (dev : List UInt8) :
    ∃ k', sysRead k t p fd n dev = some (k', some ⟨-1, [], []⟩) ∧ k.Keeps k' := by
  have hops : (k.files.ft a).streamfunc = some .writerFileOps := congrArg Prod.snd hst
  have hsys : sysRead k t p fd n dev = finishIo p a (some (k.incref a, some ⟨-1, [], []⟩)) := by
    simp [sysRead, hf, hops, readStream, IoKernel.ret]
  rw [hsys]
  obtain ⟨k', hk', hkeep⟩ := finishIo_keeps (incref_refcount hcount hf) p (some ⟨-1, [], []⟩)
  exact ⟨k', hk', (incref_keeps k a).trans hkeep⟩

/-- `sys_ShutDown` takes the pipe for a socket. -/
theorem sysShutDown_pipe {fd : Int} {ops : Option FileOps} (hf : getFcb k p fd = some f)
    (hst : k.files.stream f = (.pipe q, ops)) (how : ShutdownMode) :
    sysShutDown k p fd how = none := by
  have hobj : (k.files.ft f).streamobj = .pipe q := congrArg Prod.fst hst
  simp [sysShutDown, hf, hobj, IoKernel.socketOf]

/-- A system call is made by a thread outside the kernel. -/
theorem stepRet_call (he : e.thread = some t) (hgo : ∀ dev garbage, e ≠ .proceed t dev garbage)
    (hs : k.stepRet e = some (k', ret)) :
    ∃ p res, k.threads[t]? = some ⟨p, .user⟩ ∧ k.call t p e = some res ∧
    k.settle res = (k', ret) := by
  have hstep : k.stepRet e = if k.faulted then none else
      (k.threads[t]?).bind fun y => if y.pc = .user then (k.call t y.pid e).map k.settle
        else none := by
    cases e <;> simp only [IoEvent.thread, Option.some.injEq, reduceCtorEq] at he <;> subst he <;>
      first | rfl | exact absurd rfl (hgo _ _)
  rw [hstep] at hs
  split at hs
  · simp at hs
  obtain ⟨⟨p, pc⟩, ht, hs⟩ := Option.bind_eq_some_iff.mp hs
  split at hs
  · rename_i hpc
    obtain ⟨res, hcall, hres⟩ := Option.map_eq_some_iff.mp hs
    exact ⟨p, res, by rw [ht, show pc = .user from hpc], hcall, hres⟩
  · simp at hs

/-- A fid and a thread inside a call are two references. -/
theorem refcount_of_user {fd : Int} {y : IoThread} (hcount : k.Counted none)
    (hf : getFcb k p fd = some f) (ht : k.threads[t]? = some y) (hu : y.pc.uses f = true) :
    ((k.setPc t .user).files.ft f).refcount - 1 ≠ 0 := by
  obtain ⟨hv, hfree⟩ := inUse_of_getFcb hcount hf
  have hrefs := hcount.exact.count_eq f hv hfree
  obtain ⟨hi, -, hslot⟩ := getFcb_some hf
  have hslot' : k.slot (p, ⟨fd.toNat, hi⟩) = some f := hslot
  have hslots : 0 < k.slots f := occurrences_pos hslot'
  have husers : 0 < k.users f := countP_pos_of_getElem? ht hu
  have hsame : ((k.setPc t .user).files.ft f).refcount = (k.files.ft f).refcount := rfl
  simp only [IoKernel.refs, reduceCtorEq, if_false, Nat.add_zero] at hrefs
  omega

end Methods

end TinyOS
