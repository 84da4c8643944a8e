import TinyOS.PipeCalls
import TinyOS.PipeQueue
import TinyOS.PipeTable
import TinyOS.RequestQueues

/-! A pipe made by `sys_Pipe`, while the two FCBs that lead to it are used and closed: who may be
asleep on it, and which of its ends are open. -/

namespace TinyOS

open Counting Transition Relation

/-- The control block of a pipe whose open ends are `r` and `w`: readers sleep only on the
empty pipe and while the write end is open, writers only on the full one and while the
read end is open. -/
structure PipeCb.Waits (c : PipeCb) (r w : Option FcbId) : Prop where
  wf : c.WellFormed
  reader : c.reader = r
  writer : c.writer = w
  data : c.hasData.waitset ≠ [] → c.emptySpace = 4096 ∧ w ≠ none
  space : c.hasSpace.waitset ≠ [] → c.emptySpace = 0 ∧ r ≠ none

/-- The control block is freed with its second end. -/
def PipeWaits : Option PipeCb → Option FcbId → Option FcbId → Prop
  | none, r, w => r = none ∧ w = none
  | some c, r, w => c.Waits r w

def IoKernel.openEnd (k : IoKernel) (f : FcbId) : Option FcbId :=
  if f ∈ k.files.fcbFreelist then none else some f

structure IoKernel.PipeStands (k : IoKernel) (q : PipeId) (fr fw : FcbId) : Prop where
  ne : fr ≠ fw
  readEnd : k.files.stream fr = (.pipe q, some .readerFileOps)
  writeEnd : k.files.stream fw = (.pipe q, some .writerFileOps)
  only : ∀ f, (k.files.stream f).1 = .pipe q → f = fr ∨ f = fw
  block : PipeWaits (k.pipe? q) (k.openEnd fr) (k.openEnd fw)
  reading : ∀ x ∈ k.threads, ∀ f n, x.pc = .readingPipe f q n → f = fr
  writing : ∀ x ∈ k.threads, ∀ f buf, x.pc = .writingPipe f q buf → f = fw

structure IoKernel.Beside (k k' : IoKernel) (q : PipeId) : Prop where
  pipe : k'.pipe? q = k.pipe? q
  free : k'.files.fcbFreelist = k.files.fcbFreelist
  stream : ∀ f, k'.files.stream f = k.files.stream f
  threads : ∀ x ∈ k'.threads, x.pc.onPipe q = true → ∃ y ∈ k.threads, y.pc = x.pc

section Blocks

variable {c : PipeCb} {t : ThreadId} {r w : Option FcbId}

theorem pipeWriteCopy_waits (p : PipeCb) (buf : List UInt8) :
    (pipeWriteCopy p buf).1.hasSpace = p.hasSpace ∧ (pipeWriteCopy p buf).1.hasData =
    p.hasData := by
  induction buf generalizing p with
  | nil => exact ⟨rfl, rfl⟩
  | cons b buf ih =>
    simp only [pipeWriteCopy]
    split
    · exact ih (p.put b)
    · exact ⟨rfl, rfl⟩

theorem pipeReadCopy_waits (p : PipeCb) (n : Nat) :
    (pipeReadCopy p n).1.hasSpace = p.hasSpace ∧ (pipeReadCopy p n).1.hasData = p.hasData := by
  induction n generalizing p with
  | zero => exact ⟨rfl, rfl⟩
  | succ n ih =>
    simp only [pipeReadCopy]
    split
    · exact ih p.get
    · exact ⟨rfl, rfl⟩

theorem PipeCb.Waits.initial (reader writer : FcbId) (garbage : Nat → UInt8) :
    (PipeCb.initial reader writer garbage).Waits (some reader) (some writer) :=
  ⟨initial_wellFormed reader writer garbage, rfl, rfl, fun h => absurd rfl h, fun h => absurd rfl h⟩

/-- A write blocks in the full pipe; when it returns, no writer was asleep and no reader is. -/
theorem PipeCb.Waits.writeWait (h : c.Waits r w) (buf : List UInt8) :
    (pipeWriteWait c t buf).1.Waits r w := by
  unfold pipeWriteWait
  split
  · rename_i hfull
    exact ⟨h.wf.withWaits _ _, h.reader, h.writer, h.data,
      fun _ => ⟨hfull.1, by rw [← h.reader]; exact hfull.2⟩⟩
  rename_i hfull
  split
  · exact h
  rename_i hr
  have hspace : c.emptySpace ≠ 0 := fun he => hfull ⟨he, hr⟩
  obtain ⟨hwf, hends, -⟩ := pipeWriteCopy_spec h.wf buf
  have hnone : c.hasSpace.waitset = [] := by
    by_contra hne
    exact hspace (h.space hne).1
  refine ⟨hwf.withWaits _ _, hends.reader.trans h.reader, hends.writer.trans h.writer,
    fun hne => absurd rfl hne,
    fun hne => ?_⟩
  simp only [(pipeWriteCopy_waits c buf).1, hnone, ne_eq, not_true_eq_false] at hne

theorem PipeCb.Waits.readWait (h : c.Waits r w) (n : Nat) : (pipeReadWait c t n).1.Waits r w := by
  unfold pipeReadWait
  split
  · rename_i hempty
    exact ⟨h.wf.withWaits _ _, h.reader, h.writer,
      fun _ => ⟨hempty.1, by rw [← h.writer]; exact hempty.2⟩, h.space⟩
  rename_i hempty
  obtain ⟨hwf, hends, -⟩ := pipeReadCopy_spec h.wf n
  have hnone : c.hasData.waitset = [] := by
    by_contra hne
    obtain ⟨hz, hw⟩ := h.data hne
    exact hempty ⟨hz, by rw [h.writer]; exact hw⟩
  refine ⟨hwf.withWaits _ _, hends.reader.trans h.reader, hends.writer.trans h.writer,
    fun hne => ?_, fun hne => absurd rfl hne⟩
  simp only [(pipeReadCopy_waits c n).2, hnone, ne_eq, not_true_eq_false] at hne

theorem PipeCb.Waits.write (h : c.Waits r w) (buf : List UInt8) :
    (pipeWrite c t buf).1.Waits r w := by
  unfold pipeWrite
  split
  · exact h
  · exact h.writeWait buf

theorem PipeCb.Waits.read (h : c.Waits r w) (n : Nat) : (pipeRead c t n).1.Waits r w := by
  unfold pipeRead
  split
  · exact h
  · exact h.readWait n

theorem PipeCb.Waits.writerClose (h : c.Waits r w) : PipeWaits (pipeWriterClose c) r none := by
  unfold pipeWriterClose
  split
  · have hwf := h.wf
    exact ⟨⟨hwf.space_nonneg, hwf.space_le, hwf.r_nonneg, hwf.r_lt, hwf.w_eq⟩, h.reader, rfl,
      fun hne => absurd rfl hne, h.space⟩
  · rename_i hr
    exact ⟨h.reader.symm.trans (not_not.mp hr), rfl⟩

theorem PipeCb.Waits.readerClose (h : c.Waits r w) : PipeWaits (pipeReaderClose c) none w := by
  unfold pipeReaderClose
  split
  · have hwf := h.wf
    exact ⟨⟨hwf.space_nonneg, hwf.space_le, hwf.r_nonneg, hwf.r_lt, hwf.w_eq⟩,
      rfl, h.writer, h.data, fun hne => absurd rfl hne⟩
  · rename_i hw
    exact ⟨rfl, h.writer.symm.trans (not_not.mp hw)⟩

/-- A read of the open read end: it blocks, or it returns nothing if and only if the write end
is closed and there are no bytes left. -/
theorem PipeCb.Waits.read_returns {n : Nat} {v : Int} {bytes : List UInt8}
    {c' : PipeCb} (h : c.Waits r w)
    (hn : 0 < n) (hc : pipeReadWait c t n = (c', some (v, bytes))) :
    0 ≤ v ∧ (v = 0 ↔ c.writer = none ∧ c.queue = []) := by
  have hlen := h.wf.queue_length
  have hle := h.wf.space_le
  obtain ⟨-, -, hv, -⟩ := pipeReadWait_returns h.wf hc
  refine ⟨by omega, fun hz => ?_, fun hclosed => ?_⟩
  · have hempty : c.emptySpace = 4096 := by omega
    constructor
    · by_contra hw
      simp [pipeReadWait, pipeBufferSize, hempty, hw] at hc
    · apply List.length_eq_zero_iff.mp
      omega
  · rw [hclosed.2, List.length_nil] at hlen
    omega

/-- A write fails if and only if the read end is closed, and otherwise takes a byte. -/
theorem PipeCb.Waits.write_returns {buf : List UInt8} {v : Int} {c' : PipeCb} (h : c.Waits r w)
    (hbuf : buf ≠ []) (hc : pipeWriteWait c t buf = (c', some v)) :
    (v = -1 ↔ c.reader = none) ∧ (v ≠ -1 → 1 ≤ v) := by
  have hpos := List.length_pos_iff.mpr hbuf
  have hnonneg := h.wf.space_nonneg
  by_cases hr : c.reader = none
  · obtain ⟨-, rfl⟩ : c = c' ∧ -1 = v := by simpa [pipeWriteWait, hr] using hc
    exact ⟨by simp [hr], fun hne => absurd rfl hne⟩
  · obtain ⟨-, -, hv, -⟩ := pipeWriteWait_returns h.wf hr hc
    have hspace : c.emptySpace ≠ 0 := by
      intro hfull
      simp [pipeWriteWait, hfull, hr] at hc
    refine ⟨⟨fun hm => by omega, fun hm => absurd hm hr⟩, fun _ => by omega⟩

end Blocks

section Kernel

variable {k k' k'' : IoKernel} {q : PipeId} {fr fw f : FcbId} {p : Pid} {t : ThreadId} {c : PipeCb}
  {ret : Option IoRet}

theorem IoKernel.Beside.refl (k : IoKernel) (q : PipeId) : k.Beside k q :=
  ⟨rfl, rfl, fun _ => rfl, fun x hx _ => ⟨x, hx, rfl⟩⟩

theorem IoKernel.Beside.trans (h : k.Beside k' q) (h' : k'.Beside k'' q) : k.Beside k'' q where
  pipe := h'.pipe.trans h.pipe
  free := h'.free.trans h.free
  stream f := (h'.stream f).trans (h.stream f)
  threads x hx hq := by
    obtain ⟨y, hy, hyx⟩ := h'.threads x hx hq
    obtain ⟨z, hz, hzy⟩ := h.threads y hy (by rw [hyx]; exact hq)
    exact ⟨z, hz, hzy.trans hyx⟩

theorem IoKernel.PipeStands.beside (h : k.PipeStands q fr fw) (hb : k.Beside k' q) :
    k'.PipeStands q fr fw where
  ne := h.ne
  readEnd := (hb.stream fr).trans h.readEnd
  writeEnd := (hb.stream fw).trans h.writeEnd
  only f hf := h.only f (by rwa [← hb.stream])
  block := by
    have hopen : ∀ f, k'.openEnd f = k.openEnd f := by
      intro f
      simp only [IoKernel.openEnd, hb.free]
    rw [hb.pipe, hopen, hopen]
    exact h.block
  reading x hx f n hpc := by
    obtain ⟨y, hy, hyx⟩ := hb.threads x hx (by simp [hpc, IoPc.onPipe])
    exact h.reading y hy f n (hyx.trans hpc)
  writing x hx f buf hpc := by
    obtain ⟨y, hy, hyx⟩ := hb.threads x hx (by simp [hpc, IoPc.onPipe])
    exact h.writing y hy f buf (hyx.trans hpc)

theorem beside_of_view (h : k.SameView k') (hpipes : k'.pipes = k.pipes)
    (hthreads : k'.threads = k.threads) :
    k.Beside k' q where
  pipe := by simp only [IoKernel.pipe?, hpipes]
  free := h.free
  stream := h.stream
  threads x hx _ := ⟨x, by rwa [← hthreads], rfl⟩

theorem setPc_beside {pc : IoPc} (hpc : pc.onPipe q = false) : k.Beside (k.setPc t pc) q := by
  refine ⟨rfl, rfl, fun _ => rfl, fun x hx hq => ?_⟩
  rcases mem_setPc_cases hx with hx | rfl
  · exact ⟨x, hx, rfl⟩
  · simp [hpc] at hq

theorem setProc_beside (k : IoKernel) (p : Pid) (g : IoProcess → IoProcess) :
    k.Beside (k.setProc p g) q :=
  beside_of_view (setProc_view k p g) rfl rfl

theorem incref_beside (k : IoKernel) (f : FcbId) : k.Beside (k.incref f) q :=
  beside_of_view (incref_view k f) rfl rfl

theorem addThread_beside (k : IoKernel) (p : Pid) : k.Beside (k.addThread p) q := by
  refine ⟨rfl, rfl, fun _ => rfl, fun x hx hq => ?_⟩
  rcases List.mem_append.mp hx with hx | hx
  · exact ⟨x, hx, rfl⟩
  · obtain rfl := List.mem_singleton.mp hx
    simp [IoPc.onPipe] at hq

theorem inherit_beside (k : IoKernel) (p child : Pid) (n : Nat) :
    k.Beside (k.inherit p child n) q := by
  induction n with
  | zero => exact .refl k q
  | succ n ih =>
    simp only [IoKernel.inherit]
    split
    · exact ih
    · exact (ih.trans (incref_beside _ _)).trans (setProc_beside _ _ _)

theorem storePipe_beside {q' : PipeId} (hne : q' ≠ q) (c : PipeCb) :
    k.Beside (storePipe k q' c) q := by
  refine ⟨?_, rfl, fun _ => rfl, fun x hx _ => ⟨x, hx, rfl⟩⟩
  simp [storePipe, IoKernel.pipe?, List.getElem?_set_ne hne]

/-! ### Closing an end -/

theorem closePipeEnd_other {close : PipeCb → Option PipeCb} {obj : StreamObj}
    {v : Int} (hobj : obj ≠ .pipe q)
    (h : closePipeEnd k close obj = some (k', v)) : k'.pipe? q = k.pipe? q := by
  cases obj with
  | NULL =>
    obtain ⟨rfl, -⟩ : k = k' ∧ _ = v := by simpa [closePipeEnd] using h
    rfl
  | pipe q' =>
    have hne : q' ≠ q := fun he => hobj (by rw [he])
    obtain ⟨c, -, hc⟩ := Option.map_eq_some_iff.mp h
    obtain ⟨rfl, -⟩ : _ = k' ∧ _ = v := by simpa using hc
    simp [IoKernel.pipe?, List.getElem?_set_ne hne]
  | _ => simp [closePipeEnd] at h

theorem closePipeEnd_self {close : PipeCb → Option PipeCb} {v : Int}
    (h : closePipeEnd k close (.pipe q) = some (k', v)) :
    ∃ c, k.pipe? q = some c ∧ k'.pipe? q = close c := by
  obtain ⟨c, hc, hset⟩ := Option.map_eq_some_iff.mp h
  obtain ⟨rfl, -⟩ : _ = k' ∧ _ = v := by simpa using hset
  refine ⟨c, hc, ?_⟩
  simp [IoKernel.pipe?, List.getElem?_set_self (pipe_lt hc)]

/-- The close of a stream that does not lead to pipe `q`; no stream leads to a connected socket. -/
theorem closeStream_other {ops : Option FileOps} {obj : StreamObj} {v : Int} (hobj : obj ≠ .pipe q)
    (hpeer : ∀ s c, obj = .socket s → k.sockets[s]? = some c → c.type ≠ .peer)
    (h : closeStream k p ops obj = some (k', v)) : k'.pipe? q = k.pipe? q := by
  have hret : ∀ {w : Int}, some (k, w) = some (k', v) → k'.pipe? q = k.pipe? q := by
    intro w hw
    obtain ⟨rfl, -⟩ : k = k' ∧ w = v := by simpa using hw
    rfl
  rcases ops with _ | ops
  · simp [closeStream] at h
  cases ops with
  | nulldevFops => exact hret h
  | serialFops => exact hret h
  | procinfoOps =>
    cases obj with
    | NULL => exact hret h
    | procinfo id => exact hret h
    | _ => simp [closeStream] at h
  | readerFileOps => exact closePipeEnd_other hobj h
  | writerFileOps => exact closePipeEnd_other hobj h
  | socketFileOps =>
    cases obj with
    | socket s =>
      cases hc : k.sockets[s]? with
      | none => simp [closeStream, socketClose, hc] at h
      | some c =>
        cases htype : c.type with
        | peer => exact absurd htype (hpeer s c rfl hc)
        | _ =>
          obtain ⟨rfl, -⟩ : _ = k' ∧ _ = v := by simpa [closeStream, socketClose, hc, htype] using h
          rfl
    | _ => simp [closeStream, socketClose] at h

/-- The end of a reference to an open file. -/
theorem IoKernel.PipeStands.decref {v : Int} (h : k.PipeStands q fr fw) (hroles : SocketRoles k)
    (hfree : f ∉ k.files.fcbFreelist) (hd : k.decref p f = some (k', v)) :
    k'.PipeStands q fr fw := by
  by_cases hlast : (k.files.ft f).refcount - 1 = 0
  · obtain ⟨hfl, hstream⟩ := decref_last_files hlast hd
    have hthreads : k'.threads = k.threads := (decref_same hd).threads
    have hclose := decref_closes hlast hd
    have hopen : ∀ g, k'.openEnd g = if g = f then none else k.openEnd g := by
      intro g
      by_cases hg : g = f
      · subst hg
        simp [IoKernel.openEnd, hfl]
      · simp [IoKernel.openEnd, hfl, hg]
    have hblock : PipeWaits (k'.pipe? q) (k'.openEnd fr) (k'.openEnd fw) := by
      have hfw : fw ≠ fr := Ne.symm h.ne
      rw [hopen, hopen]
      by_cases hr : f = fr
      · subst hr
        have hobj : (k.files.ft f).streamobj = .pipe q := congrArg Prod.fst h.readEnd
        have hops : (k.files.ft f).streamfunc = some .readerFileOps := congrArg Prod.snd h.readEnd
        rw [hobj, hops] at hclose
        obtain ⟨c, hc, hc'⟩ := closePipeEnd_self hclose
        have hwaits : PipeWaits (k.pipe? q) (k.openEnd f) (k.openEnd fw) := h.block
        rw [show k.pipe? q = some c from hc] at hwaits
        simp only [hc', if_true, hfw, if_false]
        exact PipeCb.Waits.readerClose hwaits
      · by_cases hw : f = fw
        · subst hw
          have hobj : (k.files.ft f).streamobj = .pipe q := congrArg Prod.fst h.writeEnd
          have hops : (k.files.ft f).streamfunc = some .writerFileOps :=
            congrArg Prod.snd h.writeEnd
          rw [hobj, hops] at hclose
          obtain ⟨c, hc, hc'⟩ := closePipeEnd_self hclose
          have hwaits : PipeWaits (k.pipe? q) (k.openEnd fr) (k.openEnd f) := h.block
          rw [show k.pipe? q = some c from hc] at hwaits
          simp only [hc', if_true, h.ne, if_false]
          exact PipeCb.Waits.writerClose hwaits
        · have hobj : (k.files.ft f).streamobj ≠ .pipe q := fun he => (h.only f he).elim hr hw
          have hpipe := closeStream_other hobj (fun s c hs hc => ?_) hclose
          · rw [hpipe, if_neg (Ne.symm hr), if_neg (Ne.symm hw)]
            exact h.block
          · obtain ⟨d, hd, hdt⟩ := hroles.role f s hs
            obtain rfl : c.core = d := Option.some.inj ((core_of_get (k := k) hc).symm.trans hd)
            exact hdt
    exact ⟨h.ne, (hstream fr).trans h.readEnd, (hstream fw).trans h.writeEnd,
      fun g hg => h.only g (by rwa [← hstream]), hblock, by rw [hthreads]; exact h.reading,
      by rw [hthreads]; exact h.writing⟩
  · have hdec : fcbDecref k.files f =
        (k.files.setRefcount f ((k.files.ft f).refcount - 1), none) := by
      simp [fcbDecref, hlast]
    obtain ⟨rfl, -⟩ : _ = k' ∧ _ = v := by simpa [IoKernel.decref, hdec] using hd
    exact h.beside (beside_of_view (setRefcount_view k f _) rfl rfl)

/-! ### Reading and writing -/

/-- A stretch that may also have used the pipe. -/
theorem IoKernel.PipeStands.store {c' : PipeCb} (h : k.PipeStands q fr fw) (hc : k.pipe? q = some c)
    (hc' : ∀ r w, c.Waits r w → c'.Waits r w) : (storePipe k q c').PipeStands q fr fw := by
  have hwaits := h.block
  rw [hc] at hwaits
  have hpipe : (storePipe k q c').pipe? q = some c' := by
    simp [storePipe, IoKernel.pipe?, List.getElem?_set_self (pipe_lt hc)]
  refine ⟨h.ne, h.readEnd, h.writeEnd, h.only, ?_, h.reading, h.writing⟩
  rw [hpipe]
  exact hc' _ _ hwaits

/-- A thread goes to sleep on the pipe. -/
theorem IoKernel.PipeStands.setPc {pc : IoPc} (h : k.PipeStands q fr fw)
    (hreading : ∀ f n, pc = .readingPipe f q n → f = fr)
    (hwriting : ∀ f buf, pc = .writingPipe f q buf → f = fw) :
    (k.setPc t pc).PipeStands q fr fw := by
  refine ⟨h.ne, h.readEnd, h.writeEnd, h.only, h.block, fun x hx f n hpc => ?_,
    fun x hx f buf hpc => ?_⟩
  · rcases mem_setPc_cases hx with hx | hx
    · exact h.reading x hx f n hpc
    · exact hreading f n (hx.symm.trans hpc)
  · rcases mem_setPc_cases hx with hx | hx
    · exact h.writing x hx f buf hpc
    · exact hwriting f buf (hx.symm.trans hpc)

/-- The kernels of a call that leaves the pipe standing. -/
def Standing (q : PipeId) (fr fw : FcbId) (k : IoKernel) (_ : Option IoRet) :
    Prop := k.PipeStands q fr fw

theorem IoKernel.PipeStands.readPipe {q' : PipeId} {n : Nat}
    {res : PipeCb × Option (Int × List UInt8)}
    (h : k.PipeStands q fr fw) (hc : k.pipe? q' = some c) (hf : q' = q → f = fr)
    (hres : ∀ r w, c.Waits r w → res.1.Waits r w) :
    (readPipe k t f q' n res).1.PipeStands q fr fw := by
  have hstore : (storePipe k q' res.1).PipeStands q fr fw := by
    by_cases hq : q' = q
    · subst hq
      exact h.store hc hres
    · exact h.beside (storePipe_beside hq res.1)
  obtain ⟨c', _ | r⟩ := res
  · refine hstore.setPc (fun g m hpc => ?_) fun g buf hpc => by simp at hpc
    obtain ⟨rfl, rfl, -⟩ : f = g ∧ q' = q ∧ n = m := by simpa using hpc
    exact hf rfl
  · exact hstore

theorem IoKernel.PipeStands.writePipe {q' : PipeId} {buf : List UInt8} {res : PipeCb × Option Int}
    (h : k.PipeStands q fr fw) (hc : k.pipe? q' = some c) (hf : q' = q → f = fw)
    (hres : ∀ r w, c.Waits r w → res.1.Waits r w) :
    (writePipe k t f q' buf res).1.PipeStands q fr fw := by
  have hstore : (storePipe k q' res.1).PipeStands q fr fw := by
    by_cases hq : q' = q
    · subst hq
      exact h.store hc hres
    · exact h.beside (storePipe_beside hq res.1)
  obtain ⟨c', _ | v⟩ := res
  · refine hstore.setPc (fun g m hpc => by simp at hpc) fun g b hpc => ?_
    obtain ⟨rfl, rfl, -⟩ : f = g ∧ q' = q ∧ buf = b := by simpa using hpc
    exact hf rfl
  · exact hstore

theorem readSerial_beside {devno n : Nat} {dev : List UInt8} :
    k.Beside (readSerial k t f devno n dev).1 q := by
  by_cases hn : n = 0
  · simp only [readSerial, hn, if_true]
    exact .refl k q
  · simp only [readSerial, hn, if_false]
    cases dev with
    | nil =>
      have hwait : k.Beside { k with
        rxReady := Function.update k.rxReady devno (kernelWait (k.rxReady devno) t) } q :=
        ⟨rfl, rfl, fun _ => rfl, fun x hx _ => ⟨x, hx, rfl⟩⟩
      exact hwait.trans (setPc_beside rfl)
    | cons b dev => exact .refl k q

/-- No stream leads through a socket to a pipe. -/
theorem socketPipe_null {obj obj' : StreamObj}
    {pipe : Option PipeId → Option PipeId → Option PipeId}
    (hpeer : ∀ s c, obj = .socket s → k.sockets[s]? = some c → c.type ≠ .peer)
    (h : socketPipe k obj pipe = some obj') : obj' = .NULL := by
  unfold socketPipe at h
  split at h
  · simp at h
  · rename_i s c hs
    obtain ⟨hobj, hc⟩ := socketOf_some hs
    rw [if_pos (.inr (hpeer s c hobj hc))] at h
    simpa using h.symm

theorem SocketRoles.peerless {o : StreamObj} (h : SocketRoles k) (hobj : (k.files.stream f).1 = o)
    (s : SockId)
    (c : SocketCb) (hs : o = .socket s) (hc : k.sockets[s]? = some c) : c.type ≠ .peer := by
  obtain ⟨d, hd, hdt⟩ := h.role f s (hobj.trans hs)
  obtain rfl : c.core = d := Option.some.inj ((core_of_get (k := k) hc).symm.trans hd)
  exact hdt

/-- A read of a stream that leads to no connected socket. -/
theorem readStream_all {P : IoKernel → Option IoRet → Prop} {n : Nat} {dev : List UInt8}
    {ops : FileOps}
    {obj : StreamObj} (hpeer : ∀ s c, obj = .socket s → k.sockets[s]? = some c → c.type ≠ .peer)
    (hret : ∀ r, P k r)
    (hserial : ∀ devno, P (readSerial k t f devno n dev).1 (readSerial k t f devno n dev).2)
    (hpipe : ∀ q c, ops = .readerFileOps → obj = .pipe q → k.pipe? q = some c →
      P (readPipe k t f q n (pipeRead c t n)).1 (readPipe k t f q n (pipeRead c t n)).2) :
    (readStream k t f n dev ops obj).All P := by
  cases ops with
  | nulldevFops => exact .some (hret _)
  | serialFops =>
    cases obj with
    | serial devno => exact .some (hserial devno)
    | _ => exact .none
  | procinfoOps =>
    cases obj with
    | procinfo id => exact .some (hret _)
    | _ => exact .none
  | readerFileOps =>
    cases obj with
    | NULL => exact .ret (hret _)
    | pipe q => exact .map fun c hc => hpipe q c rfl rfl hc
    | _ => exact .none
  | writerFileOps => exact .ret (hret _)
  | socketFileOps =>
    refine .bind fun obj' hobj => ?_
    rw [socketPipe_null hpeer hobj]
    exact .ret (hret _)

theorem writeStream_all {P : IoKernel → Option IoRet → Prop} {buf dev : List UInt8} {ops : FileOps}
    {obj : StreamObj} (hpeer : ∀ s c, obj = .socket s → k.sockets[s]? = some c → c.type ≠ .peer)
    (hret : ∀ r, P k r)
    (hpipe : ∀ q c, ops = .writerFileOps → obj = .pipe q → k.pipe? q = some c →
      P (writePipe k t f q buf (pipeWrite c t buf)).1
        (writePipe k t f q buf (pipeWrite c t buf)).2) :
    (writeStream k t f buf dev ops obj).All P := by
  cases ops with
  | serialFops =>
    cases obj with
    | serial devno => exact .ret (hret _)
    | _ => exact .none
  | writerFileOps =>
    cases obj with
    | NULL => exact .ret (hret _)
    | pipe q => exact .map fun c hc => hpipe q c rfl rfl hc
    | _ => exact .none
  | socketFileOps =>
    refine .bind fun obj' hobj => ?_
    rw [socketPipe_null hpeer hobj]
    exact .ret (hret _)
  | _ => exact .ret (hret _)

/-- The end of a call that holds a reference to the open file `f`. -/
theorem finishIo_all {I : IoKernel → Prop} {res : IoResult} (hres : res.All fun u _ => I u)
    (hm : res.All (MethodOutcome k t f)) (hroles : SocketRoles k) (hfree : f ∉ k.files.fcbFreelist)
    (hdecref : ∀ k1 k2 v, SocketRoles k1 → f ∉ k1.files.fcbFreelist → I k1 →
      k1.decref p f = some (k2, v) → I k2) :
    (finishIo p f res).All fun u _ => I u := by
  intro k' r hr
  rcases res with _ | ⟨k1, _ | x⟩
  · simp [finishIo] at hr
  · obtain ⟨rfl, -⟩ : k1 = k' ∧ _ = r := by simpa [finishIo] using hr
    exact hres k1 none rfl
  · obtain ⟨⟨k2, v⟩, hd, he⟩ := Option.map_eq_some_iff.mp hr
    obtain ⟨rfl, -⟩ : k2 = k' ∧ _ = r := by simpa using he
    have hI : I k1 := hres k1 _ rfl
    cases hm k1 (some x) rfl with
    | returns k1 r hsame hsock hport =>
      have hroles' : SocketRoles k1 := hroles.keep (core_keep (core_congr hsock))
        (fun port s hp => by rwa [← hport]) fun g s _ => by rw [hsame.files]
      exact hdecref k1 k2 v hroles' (by rw [hsame.files]; exact hfree) hI hd

theorem readStream_stands {n : Nat} {dev : List UInt8} {ops : FileOps} {obj : StreamObj}
    (h : k.PipeStands q fr fw) (hroles : SocketRoles k) (hst : k.files.stream f = (obj, some ops)) :
    (readStream k t f n dev ops obj).All (Standing q fr fw) := by
  have hobj : (k.files.stream f).1 = obj := congrArg Prod.fst hst
  refine readStream_all (hroles.peerless hobj) (fun _ => h) (fun _ => h.beside readSerial_beside) ?_
  rintro q' c rfl rfl hc
  refine h.readPipe hc (fun hq => ?_) fun r w hw => hw.read n
  subst hq
  rcases h.only f hobj with hf | rfl
  · exact hf
  · rw [h.writeEnd] at hst
    simp at hst

theorem writeStream_stands {buf dev : List UInt8} {ops : FileOps} {obj : StreamObj}
    (h : k.PipeStands q fr fw) (hroles : SocketRoles k) (hst : k.files.stream f = (obj, some ops)) :
    (writeStream k t f buf dev ops obj).All (Standing q fr fw) := by
  have hobj : (k.files.stream f).1 = obj := congrArg Prod.fst hst
  refine writeStream_all (hroles.peerless hobj) (fun _ => h) ?_
  rintro q' c rfl rfl hc
  refine h.writePipe hc (fun hq => ?_) fun r w hw => hw.write buf
  subst hq
  rcases h.only f hobj with rfl | hf
  · rw [h.readEnd] at hst
    simp at hst
  · exact hf

theorem finishIo_stands {res : IoResult} (hres : res.All (Standing q fr fw))
    (hm : res.All (MethodOutcome k t f))
    (hroles : SocketRoles k) (hfree : f ∉ k.files.fcbFreelist) :
    (finishIo p f res).All (Standing q fr fw) :=
  finishIo_all hres hm hroles hfree fun _ _ _ hroles' hfree' hstands hd =>
    hstands.decref hroles' hfree' hd

end Kernel

end TinyOS
