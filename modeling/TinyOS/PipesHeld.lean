import TinyOS.PipeLifetime

/-! Files, sockets and the pipes between them, in all runs in which no other pipes are made: an
open file or a sleeping thread that leads to a pipe is one of its two ends. -/

namespace TinyOS

open Counting Transition Relation

def socketTraffic : IoEvent → Bool
  | .openNull _ | .openTerminal .. | .openInfo _ | .pipe .. => false
  | _ => true

/-- The FCB and the pipe that a thread asleep on a pipe goes on with, and the end it uses. -/
def IoPc.pipeEnd : IoPc → Option (FcbId × PipeId × FileOps)
  | .readingPipe f q _ => some (f, q, .readerFileOps)
  | .writingPipe f q _ => some (f, q, .writerFileOps)
  | _ => none

def PipeCb.EndOf (c : PipeCb) (ops : Option FileOps) (f : FcbId) : Prop :=
  ops = some .readerFileOps ∧ c.reader = some f ∨ ops = some .writerFileOps ∧ c.writer = some f

/-- FCB `f` leads to pipe `q`, or did when a thread in a call on it fell asleep. -/
inductive IoKernel.EndAt (k : IoKernel) (f : FcbId) (q : PipeId) : Option FileOps → Prop
  | stream (h : (k.files.stream f).1 = .pipe q) : k.EndAt f q (k.files.stream f).2
  | asleep (x : IoThread) (ops : FileOps) (hx : x ∈ k.threads)
    (h : x.pc.pipeEnd = some (f, q, ops)) :
    k.EndAt f q (some ops)

structure IoKernel.PipesHeld (k : IoKernel) (gone : PipeId → Prop) : Prop where
  held : ∀ f q ops, f ∉ k.files.fcbFreelist → k.EndAt f q ops → ∃ c, k.pipe? q = some c ∧
    c.EndOf ops f
  freed : ∀ q, gone q → k.pipe? q = none

section Held

variable {k k' : IoKernel} {gone : PipeId → Prop} {p : Pid} {t : ThreadId} {f : FcbId} {e : IoEvent}
  {ret : Option IoRet} {y : IoThread} {q : PipeId} {c c' : PipeCb} {pc : IoPc} {ops : FileOps}

theorem pipeEnd_onPipe (h : pc.pipeEnd = some (f, q, ops)) : pc.onPipe q = true := by
  cases pc with
  | readingPipe | writingPipe =>
    obtain ⟨-, rfl, -⟩ : _ ∧ _ = q ∧ _ = ops := by simpa [IoPc.pipeEnd] using h
    simp [IoPc.onPipe]
  | _ => simp [IoPc.pipeEnd] at h

theorem pipeEnd_uses (h : pc.pipeEnd = some (f, q, ops)) : pc.uses f = true := by
  cases pc with
  | readingPipe | writingPipe =>
    obtain ⟨rfl, -, -⟩ : _ = f ∧ _ = q ∧ _ = ops := by simpa [IoPc.pipeEnd] using h
    simp [IoPc.uses]
  | _ => simp [IoPc.pipeEnd] at h

theorem PipeCb.EndOf.same {o : Option FileOps} (h : c.EndOf o f) (hends : c.SameEnds c') :
    c'.EndOf o f := by
  simp only [PipeCb.EndOf, hends.reader, hends.writer]
  exact h

theorem IoKernel.PipesHeld.beside (h : k.PipesHeld gone) (hb : ∀ q, k.Beside k' q) :
    k'.PipesHeld gone where
  held f q o hf he := by
    rw [(hb q).pipe]
    rw [(hb q).free] at hf
    cases he with
    | stream hs =>
      rw [(hb q).stream] at hs ⊢
      exact h.held f q _ hf (.stream hs)
    | asleep x ops hx hpc =>
      obtain ⟨y, hy, hyx⟩ := (hb q).threads x hx (pipeEnd_onPipe hpc)
      exact h.held f q _ hf (.asleep y ops hy (hyx ▸ hpc))
  freed q hq := by rw [(hb q).pipe]; exact h.freed q hq

theorem IoKernel.PipesHeld.sameFiles (h : k.PipesHeld gone) (hfiles : k'.files = k.files)
    (hthreads : k'.threads = k.threads) (hpipes : k'.pipes = k.pipes) : k'.PipesHeld gone :=
  h.beside fun q => ⟨by simp only [IoKernel.pipe?, hpipes], by rw [hfiles], fun g => by rw [hfiles],
    fun x hx _ => ⟨x, hthreads ▸ hx, rfl⟩⟩

/-- An FCB off the free list, with a stream that does not lead to a pipe. -/
theorem IoKernel.PipesHeld.opened {rest : List FcbId} (h : k.PipesHeld gone)
    (hcount : k.Counted none)
    (hf : k.files.fcbFreelist = f :: rest) (hfree : k'.files.fcbFreelist = rest)
    (hstream : ∀ g, g ≠ f → k'.files.stream g = k.files.stream g)
    (hobj : ∀ q, (k'.files.stream f).1 ≠ .pipe q) (hthreads : k'.threads = k.threads)
    (hpipes : k'.pipes = k.pipes) : k'.PipesHeld gone where
  held g q o hg he := by
    rw [hfree] at hg
    have hpipe : k'.pipe? q = k.pipe? q := by simp only [IoKernel.pipe?, hpipes]
    rw [hpipe]
    have hopen : g ≠ f → g ∉ k.files.fcbFreelist := by
      intro hne
      rw [hf]
      exact fun hmem => (List.mem_cons.mp hmem).elim hne hg
    cases he with
    | stream hs =>
      by_cases hgf : g = f
      · exact absurd (hgf ▸ hs) (hobj q)
      · rw [hstream g hgf] at hs ⊢
        exact h.held g q _ (hopen hgf) (.stream hs)
    | asleep x ops hx hpc =>
      rw [hthreads] at hx
      obtain ⟨t, ht⟩ := List.getElem?_of_mem hx
      exact h.held g q _ (not_free_of_uses hcount ht (pipeEnd_uses hpc)) (.asleep x ops hx hpc)
  freed q hq := by
    have hpipe : k'.pipe? q = k.pipe? q := by simp only [IoKernel.pipe?, hpipes]
    rw [hpipe]
    exact h.freed q hq

theorem IoKernel.PipesHeld.addPipe (h : k.PipesHeld gone) (hgone : ∀ q, gone q → q < k.pipes.length)
    (w r : FcbId) (z : Nat → UInt8) : (k.addPipe w r z).PipesHeld gone := by
  have hold : ∀ q, q < k.pipes.length → (k.addPipe w r z).pipe? q = k.pipe? q := by
    intro q hq
    show (k.pipes ++ [some (PipeCb.initial r w z)])[q]?.join = k.pipes[q]?.join
    rw [List.getElem?_append_left hq]
  have hnew : (k.addPipe w r z).pipe? k.pipes.length = some (PipeCb.initial r w z) := by
    show (k.pipes ++ [some (PipeCb.initial r w z)])[k.pipes.length]?.join = _
    simp
  refine ⟨fun g q o hg he => ?_, fun q hq => (hold q (hgone q hq)).trans (h.freed q hq)⟩
  have hg' : g ∉ k.files.fcbFreelist := hg
  have hkeep : ∀ o, k.EndAt g q o → ∃ c, (k.addPipe w r z).pipe? q = some c ∧ c.EndOf o g := by
    intro o ho
    obtain ⟨c, hc, hend⟩ := h.held g q o hg' ho
    exact ⟨c, (hold q (pipe_lt hc)).trans hc, hend⟩
  cases he with
  | stream hs =>
    rw [stream_addPipe] at hs ⊢
    by_cases hw : g = w
    · rw [if_pos hw] at hs ⊢
      obtain rfl : k.pipes.length = q := by simpa using hs
      exact ⟨_, hnew, .inr ⟨rfl, by rw [hw]; rfl⟩⟩
    · rw [if_neg hw] at hs ⊢
      by_cases hr : g = r
      · rw [if_pos hr] at hs ⊢
        obtain rfl : k.pipes.length = q := by simpa using hs
        exact ⟨_, hnew, .inl ⟨rfl, by rw [hr]; rfl⟩⟩
      · rw [if_neg hr] at hs ⊢
        exact hkeep _ (.stream hs)
  | asleep x ops hx hpc => exact hkeep _ (.asleep x ops hx hpc)

theorem IoKernel.PipesHeld.store (h : k.PipesHeld gone) (hc : k.pipe? q = some c)
    (hends : c.SameEnds c') :
    (storePipe k q c').PipesHeld gone := by
  have hpipe : ∀ q', (storePipe k q c').pipe? q' = if q' = q then some c' else k.pipe? q' := by
    intro q'
    by_cases hq : q' = q
    · subst hq
      simp [storePipe, IoKernel.pipe?, List.getElem?_set_self (pipe_lt hc)]
    · rw [if_neg hq, (storePipe_beside (Ne.symm hq) c').pipe]
  refine ⟨fun g q' o hg he => ?_, fun q' hq' => ?_⟩
  · have he' : k.EndAt g q' o := by
      cases he with
      | stream hs => exact .stream hs
      | asleep x ops hx hpc => exact .asleep x ops hx hpc
    obtain ⟨d, hd, hend⟩ := h.held g q' o hg he'
    rw [hpipe]
    split
    · rename_i hq
      obtain rfl : c = d := by rw [hq, hc] at hd; exact Option.some.inj hd
      exact ⟨c', rfl, hend.same hends⟩
    · exact ⟨d, hd, hend⟩
  · have hne : q' ≠ q := by
      rintro rfl
      simp [h.freed q' hq'] at hc
    rw [hpipe, if_neg hne]
    exact h.freed q' hq'

theorem IoKernel.PipesHeld.setPc (h : k.PipesHeld gone)
    (hpc : ∀ f q ops, pc.pipeEnd = some (f, q, ops) → f ∉ k.files.fcbFreelist →
      ∃ c, k.pipe? q = some c ∧ c.EndOf (some ops) f) : (k.setPc t pc).PipesHeld gone where
  held f q o hf he := by
    cases he with
    | stream hs => exact h.held f q _ hf (.stream hs)
    | asleep x ops hx hx' =>
      rcases mem_setPc_cases hx with hx | rfl
      · exact h.held f q _ hf (.asleep x ops hx hx')
      · exact hpc f q ops hx' hf
  freed := h.freed

theorem IoKernel.PipesHeld.awake (h : k.PipesHeld gone) (hpc : ∀ q, pc.onPipe q = false) :
    (k.setPc t pc).PipesHeld gone :=
  h.beside fun q => setPc_beside (hpc q)

/-! ### Closing a file -/

/-- The end of the last reference to one of the two ends of a pipe. -/
theorem IoKernel.PipesHeld.closeEnd {m : PipeCb → Option PipeCb} (h : k.PipesHeld gone)
    {o : Option FileOps} (hfree : k'.files.fcbFreelist = k.files.fcbFreelist ++ [f])
    (hstream : ∀ g, k'.files.stream g = k.files.stream g) (hthreads : k'.threads = k.threads)
    (hq : k.pipe? q = some c) (hself : k'.pipe? q = m c)
    (hother : ∀ q', q' ≠ q → k'.pipe? q' = k.pipe? q')
    (hclose : ∀ g, g ≠ f → c.EndOf o g → ∃ c', m c = some c' ∧ c'.EndOf o g)
    (hends : ∀ g o', g ≠ f → c.EndOf o' g → o' = o) : k'.PipesHeld gone := by
  refine ⟨fun g q' o' hg he => ?_, fun q' hq' => ?_⟩
  · rw [hfree] at hg
    obtain ⟨hg, hgf⟩ : g ∉ k.files.fcbFreelist ∧ g ≠ f := by simpa using hg
    have he' : k.EndAt g q' o' := by
      cases he with
      | stream hs =>
        rw [hstream] at hs ⊢
        exact .stream hs
      | asleep x ops hx hpc => exact .asleep x ops (hthreads ▸ hx) hpc
    obtain ⟨d, hd, hend⟩ := h.held g q' o' hg he'
    by_cases hqq : q' = q
    · subst hqq
      obtain rfl : c = d := Option.some.inj (hq.symm.trans hd)
      obtain rfl := hends g o' hgf hend
      rw [hself]
      exact hclose g hgf hend
    · exact ⟨d, (hother q' hqq).trans hd, hend⟩
  · have hne : q' ≠ q := by
      rintro rfl
      simp [h.freed q' hq'] at hq
    rw [hother q' hne]
    exact h.freed q' hq'

theorem IoKernel.PipesHeld.decref {v : Int} (h : k.PipesHeld gone) (hroles : SocketRoles k)
    (hf : f ∉ k.files.fcbFreelist) (hd : k.decref p f = some (k', v)) : k'.PipesHeld gone := by
  by_cases hlast : (k.files.ft f).refcount - 1 = 0
  · obtain ⟨hfree, hstream⟩ := decref_last_files hlast hd
    have hthreads : k'.threads = k.threads := (decref_same hd).threads
    have hclose := decref_closes hlast hd
    have hpeer := hroles.peerless (f := f) rfl
    have hother : ∀ q, (k.files.ft f).streamobj ≠ .pipe q → k'.pipe? q = k.pipe? q := by
      intro q hobj
      have hpipe := closeStream_other (k := { k with files := (fcbDecref k.files f).1 })
        hobj hpeer hclose
      exact hpipe
    by_cases hobj : ∃ q, (k.files.ft f).streamobj = .pipe q
    · obtain ⟨q, hq⟩ := hobj
      obtain ⟨c, hc, hend⟩ := h.held f q _ hf (.stream hq)
      have hne : ∀ q', q' ≠ q → k'.pipe? q' = k.pipe? q' := by
        intro q' hne
        apply hother
        rw [hq]
        simpa using Ne.symm hne
      rcases hend with ⟨hops, hreader⟩ | ⟨hops, hwriter⟩
      · have hops' : (k.files.ft f).streamfunc = some .readerFileOps := hops
        rw [hq, hops'] at hclose
        obtain ⟨d, hd, hd'⟩ := closePipeEnd_self hclose
        obtain rfl : c = d := Option.some.inj (hc.symm.trans hd)
        refine h.closeEnd (m := pipeReaderClose) (o := some .writerFileOps)
          hfree hstream hthreads hc hd' hne
          (fun g _ hg => ?_) fun g o hgf hg => ?_
        · rcases hg with ⟨ho, -⟩ | ⟨-, hg⟩
          · simp at ho
          · exact ⟨_, if_pos (by simp [hg]), .inr ⟨rfl, hg⟩⟩
        · rcases hg with ⟨-, hg⟩ | ⟨ho, -⟩
          · exact absurd (Option.some.inj (hg.symm.trans hreader)) hgf
          · exact ho
      · have hops' : (k.files.ft f).streamfunc = some .writerFileOps := hops
        rw [hq, hops'] at hclose
        obtain ⟨d, hd, hd'⟩ := closePipeEnd_self hclose
        obtain rfl : c = d := Option.some.inj (hc.symm.trans hd)
        refine h.closeEnd (m := pipeWriterClose) (o := some .readerFileOps)
          hfree hstream hthreads hc hd' hne
          (fun g _ hg => ?_) fun g o hgf hg => ?_
        · rcases hg with ⟨-, hg⟩ | ⟨ho, -⟩
          · exact ⟨_, if_pos (by simp [hg]), .inl ⟨rfl, hg⟩⟩
          · simp at ho
        · rcases hg with ⟨ho, -⟩ | ⟨-, hg⟩
          · exact ho
          · exact absurd (Option.some.inj (hg.symm.trans hwriter)) hgf
    · refine ⟨fun g q o hg he => ?_, fun q hq => ?_⟩
      · rw [hother q fun hq => hobj ⟨q, hq⟩]
        rw [hfree] at hg
        obtain ⟨hg, -⟩ : g ∉ k.files.fcbFreelist ∧ g ≠ f := by simpa using hg
        cases he with
        | stream hs =>
          rw [hstream] at hs ⊢
          exact h.held g q _ hg (.stream hs)
        | asleep x ops hx hpc => exact h.held g q _ hg (.asleep x ops (hthreads ▸ hx) hpc)
      · rw [hother q fun hq => hobj ⟨q, hq⟩]
        exact h.freed q hq
  · have hdec : fcbDecref k.files f =
        (k.files.setRefcount f ((k.files.ft f).refcount - 1), none) := by
      simp [fcbDecref, hlast]
    obtain ⟨rfl, -⟩ : _ = k' ∧ _ = v := by simpa [IoKernel.decref, hdec] using hd
    exact h.beside fun q => beside_of_view (setRefcount_view k f _) rfl rfl

/-! ### Reading and writing -/

/-- The kernels of a call after which the ends of pipes are still held. -/
def Holding (gone : PipeId → Prop) (k : IoKernel) (_ : Option IoRet) : Prop := k.PipesHeld gone

theorem readPipe_held {n : Nat} {res : PipeCb × Option (Int × List UInt8)} (h : k.PipesHeld gone)
    (hc : k.pipe? q = some c) (hends : c.SameEnds res.1)
    (hf : f ∉ k.files.fcbFreelist → c.reader = some f) :
    (readPipe k t f q n res).1.PipesHeld gone := by
  obtain ⟨c', _ | r⟩ := res
  · refine (h.store hc hends).setPc fun g q' ops hpc hfree => ?_
    obtain ⟨rfl, rfl, rfl⟩ : f = g ∧ q = q' ∧ FileOps.readerFileOps = ops := by
      simpa [IoPc.pipeEnd] using hpc
    have hend : c.EndOf (some .readerFileOps) f := .inl ⟨rfl, hf hfree⟩
    refine ⟨c', ?_, hend.same hends⟩
    simp [storePipe, IoKernel.pipe?, List.getElem?_set_self (pipe_lt hc)]
  · exact h.store hc hends

theorem writePipe_held {buf : List UInt8} {res : PipeCb × Option Int} (h : k.PipesHeld gone)
    (hc : k.pipe? q = some c) (hends : c.SameEnds res.1)
    (hf : f ∉ k.files.fcbFreelist → c.writer = some f) :
    (writePipe k t f q buf res).1.PipesHeld gone := by
  obtain ⟨c', _ | r⟩ := res
  · refine (h.store hc hends).setPc fun g q' ops hpc hfree => ?_
    obtain ⟨rfl, rfl, rfl⟩ : f = g ∧ q = q' ∧ FileOps.writerFileOps = ops := by
      simpa [IoPc.pipeEnd] using hpc
    have hend : c.EndOf (some .writerFileOps) f := .inr ⟨rfl, hf hfree⟩
    refine ⟨c', ?_, hend.same hends⟩
    simp [storePipe, IoKernel.pipe?, List.getElem?_set_self (pipe_lt hc)]
  · exact h.store hc hends

theorem pipeRead_ends (c : PipeCb) (t : ThreadId) (n : Nat) : c.SameEnds (pipeRead c t n).1 := by
  unfold pipeRead
  split
  · exact .refl c
  · exact pipeReadWait_ends c t n

theorem pipeWrite_ends (c : PipeCb) (t : ThreadId) (buf : List UInt8) :
    c.SameEnds (pipeWrite c t buf).1 := by
  unfold pipeWrite
  split
  · exact .refl c
  · exact pipeWriteWait_ends c t buf

theorem IoKernel.PipesHeld.reader (h : k.PipesHeld gone) (hc : k.pipe? q = some c)
    (hf : f ∉ k.files.fcbFreelist)
    (he : k.EndAt f q (some .readerFileOps)) : c.reader = some f := by
  obtain ⟨d, hd, ⟨-, hr⟩ | ⟨ho, -⟩⟩ := h.held f q _ hf he
  · obtain rfl : c = d := Option.some.inj (hc.symm.trans hd)
    exact hr
  · simp at ho

theorem IoKernel.PipesHeld.writer (h : k.PipesHeld gone) (hc : k.pipe? q = some c)
    (hf : f ∉ k.files.fcbFreelist)
    (he : k.EndAt f q (some .writerFileOps)) : c.writer = some f := by
  obtain ⟨d, hd, ⟨ho, -⟩ | ⟨-, hw⟩⟩ := h.held f q _ hf he
  · simp at ho
  · obtain rfl : c = d := Option.some.inj (hc.symm.trans hd)
    exact hw

theorem readStream_held {n : Nat} {dev : List UInt8} {obj : StreamObj} (h : k.PipesHeld gone)
    (hroles : SocketRoles k) (hst : k.files.stream f = (obj, some ops)) :
    (readStream k t f n dev ops obj).All (Holding gone) := by
  have hobj : (k.files.stream f).1 = obj := congrArg Prod.fst hst
  refine readStream_all (hroles.peerless hobj) (fun _ => h)
    (fun _ => h.beside fun q => readSerial_beside) ?_
  rintro q c rfl rfl hc
  refine readPipe_held h hc (pipeRead_ends c t n) fun hf => h.reader hc hf ?_
  have hend : k.EndAt f q (k.files.stream f).2 := .stream hobj
  rwa [hst] at hend

theorem writeStream_held {buf dev : List UInt8} {obj : StreamObj} (h : k.PipesHeld gone)
    (hroles : SocketRoles k) (hst : k.files.stream f = (obj, some ops)) :
    (writeStream k t f buf dev ops obj).All (Holding gone) := by
  have hobj : (k.files.stream f).1 = obj := congrArg Prod.fst hst
  refine writeStream_all (hroles.peerless hobj) (fun _ => h) ?_
  rintro q c rfl rfl hc
  refine writePipe_held h hc (pipeWrite_ends c t buf) fun hf => h.writer hc hf ?_
  have hend : k.EndAt f q (k.files.stream f).2 := .stream hobj
  rwa [hst] at hend

theorem finishIo_held {res : IoResult} (hres : res.All (Holding gone))
    (hm : res.All (MethodOutcome k t f))
    (hroles : SocketRoles k) (hfree : f ∉ k.files.fcbFreelist) :
    (finishIo p f res).All (Holding gone) :=
  finishIo_all hres hm hroles hfree fun _ _ _ hroles' hfree' hheld hd =>
    hheld.decref hroles' hfree' hd

/-! ### All calls -/

theorem connectPeers_held {u v : SockId} {a : FcbId} {z : Nat → UInt8} (h : k.PipesHeld gone)
    (hgone : ∀ q, gone q → q < k.pipes.length) : (k.connectPeers u v f a z).PipesHeld gone := by
  have hgone' : ∀ q, gone q → q < (k.addPipe f a z).pipes.length := by
    intro q hq
    have hlen : (k.addPipe f a z).pipes.length = k.pipes.length + 1 := by
      simp [IoKernel.addPipe, IoKernel.setStream]
    rw [hlen]
    exact Nat.lt_succ_of_lt (hgone q hq)
  exact ((h.addPipe hgone f a z).addPipe hgone' a f z).sameFiles rfl rfl rfl

theorem acceptLoop_held {s : SockId} {garbage : Nat → UInt8} (h : k.PipesHeld gone)
    (hcount : k.Counted none)
    (hgone : ∀ q, gone q → q < k.pipes.length) :
    (acceptLoop k t p s garbage).All (Holding gone) := by
  intro k' ret hloop
  obtain ⟨c, queue, -, -, hcases⟩ := acceptLoop_cases hloop
  rcases hcases with ⟨-, -, -, rfl⟩ | ⟨-, -, rfl⟩ | ⟨r, rest, -, -, hreq⟩
  · have hwait : (k.setSocket s fun c =>
        { c with reqAvailable := kernelWait c.reqAvailable t }).PipesHeld gone :=
      h.sameFiles rfl rfl rfl
    exact hwait.awake fun q => rfl
  · exact h.sameFiles rfl rfl rfl
  have hpop : ((k.addRef s (-1)).setQueue s rest).PipesHeld gone := h.sameFiles rfl rfl rfl
  rcases acceptRequest_cases hreq with ⟨-, -, rfl | rfl⟩ | ⟨req, i, f, rest', a, -, hf, -, -, rfl⟩
  · exact hpop
  · exact hpop.beside fun q => setProc_beside _ p _
  · have hfree : k.files.fcbFreelist = f :: rest' := hf.free
    have hsocket : (((k.addRef s (-1)).setQueue s rest).acceptSocket p i f rest' c.port).PipesHeld
        gone := by
      refine h.opened hcount hfree rfl (fun g hg => acceptSocket_stream hg) (fun q hq => ?_) rfl rfl
      have hfiles : (((k.addRef s (-1)).setQueue s rest).acceptSocket p i f rest' c.port).files =
          (((k.addRef s (-1)).setQueue s rest).grab p i f rest').files.setStream f
            (.socket ((k.addRef s (-1)).setQueue s rest).sockets.length) .socketFileOps := rfl
      rw [hfiles, stream_setStream, if_pos rfl] at hq
      simp at hq
    have hpeers := connectPeers_held (u := ((k.addRef s (-1)).setQueue s rest).sockets.length)
      (v := req.peer) (f := f) (a := a) (z := garbage) hsocket hgone
    exact hpeers.sameFiles rfl rfl rfl

theorem sysShutDown_held {sock : Int} {how : ShutdownMode} {v : Int} (h : k.PipesHeld gone)
    (hroles : SocketRoles k)
    (hs : sysShutDown k p sock how = some (k', v)) : k'.PipesHeld gone := by
  unfold sysShutDown at hs
  split at hs
  · obtain ⟨rfl, -⟩ : k = k' ∧ _ = v := by simpa using hs
    exact h
  split at hs
  · simp at hs
  · rename_i s c hsock
    obtain ⟨hobj, hc⟩ := socketOf_some hsock
    have hpeer := hroles.peerless (o := .socket s) hobj s c rfl hc
    obtain ⟨rfl, -⟩ : k = k' ∧ _ = v := by simpa [shutDownSocket, hc, hpeer] using hs
    exact h

theorem ioThreadExit_held (h : k.PipesHeld gone) (hsound : Sound k)
    (hp : (k.procs p).pstate = .alive)
    (he : ioThreadExit k t p = some k') : k'.PipesHeld gone := by
  simp only [ioThreadExit] at he
  split at he
  · obtain ⟨k1, hk1, rfl⟩ := Option.map_eq_some_iff.mp he
    obtain ⟨-, -, hclosed⟩ := closeFidt_induct (I := fun k => SocketRoles k ∧ k.PipesHeld gone)
      hsound.counted hp ⟨hsound.roles, h⟩ (fun k2 i f k3 v h2 _ hi hf hd hI => by
        obtain ⟨hv, hfree⟩ := inUse_of_slot h2 hi hf
        have hroles :=
          hI.1.fileEffect (decref_effect (L := fun _ => True) (fun _ => trivial) hv hfree hd)
        exact ⟨roles_of_view hroles (setProc_view k3 p _),
          (hI.2.decref hI.1 hfree hd).beside fun q => setProc_beside k3 p _⟩) hk1
    exact (hclosed.beside fun q => setProc_beside k1 p _).awake fun q => rfl
  · obtain rfl : k.setPc t .exited = k' := by simpa using he
    exact h.awake fun q => rfl

theorem sysDup2_held {oldfd newfd : Int} (h : k.PipesHeld gone) (hsound : Sound k) :
    (sysDup2 k p oldfd newfd).All (Holding gone) := by
  refine sysDup2_all (fun _ => h) fun old k1 _ _ _ hclosed => ?_
  have hfill : ∀ q, k1.Beside ((k1.incref old).setFidt p newfd.toNat (some old)) q :=
    fun q => (incref_beside k1 old).trans (setProc_beside _ p _)
  rcases hclosed with ⟨-, rfl⟩ | ⟨new, v, hnew, hd⟩
  · exact h.beside hfill
  · exact (h.decref hsound.roles (inUse_of_getFcb hsound.counted hnew).2 hd).beside hfill

theorem call_held {res : IoResult} (h : k.PipesHeld gone) (hgone : ∀ q, gone q → q < k.pipes.length)
    (hsound : Sound k) (hok : socketTraffic e = true) (ht : k.threads[t]? = some y)
    (hy : y.pc = .user) (hc : k.call t y.pid e = some res) : res.All (Holding gone) := by
  have hp : (k.procs y.pid).pstate = .alive := hsound.counted.owner y (List.mem_of_getElem? ht)
    (by simp [hy])
  cases e with
  | read _ fd n dev =>
    obtain rfl := Option.some.inj hc
    refine sysRead_all h fun f ops hf hops => ?_
    have hroles := roles_of_view hsound.roles (incref_view k f)
    exact finishIo_held
      (readStream_held (h.beside fun q => incref_beside k f) hroles (incref_stream hops))
      (readStream_outcome n dev _ _) hroles (inUse_of_getFcb hsound.counted hf).2
  | write _ fd buf dev =>
    obtain rfl := Option.some.inj hc
    refine sysWrite_all h fun f ops hf hops => ?_
    have hroles := roles_of_view hsound.roles (incref_view k f)
    exact finishIo_held
      (writeStream_held (h.beside fun q => incref_beside k f) hroles (incref_stream hops))
      (writeStream_outcome buf dev _ _) hroles (inUse_of_getFcb hsound.counted hf).2
  | close _ fd =>
    obtain rfl := Option.some.inj hc
    refine sysClose_all (fun _ => h) fun f k1 v hf hd => ?_
    exact (h.beside fun q => setProc_beside k y.pid _).decref
      (roles_of_view hsound.roles (setProc_view k y.pid _)) (inUse_of_getFcb hsound.counted hf).2 hd
  | dup2 =>
    obtain rfl := Option.some.inj hc
    exact sysDup2_held h hsound
  | socket _ port =>
    obtain rfl := Option.some.inj hc
    refine .ret ?_
    rcases sysSocket_cases k y.pid port with ⟨-, he | he⟩ | ⟨i, f, rest, hf, -, -, he⟩ <;> rw [he]
    · exact h
    · exact h.sameFiles rfl rfl rfl
    · have hfiles :
          (((k.grab y.pid i f rest).setFidt y.pid maxFileid (some f)).addSocket f port).files =
          (k.grab y.pid i f rest).files.setStream f (.socket k.sockets.length) .socketFileOps := rfl
      refine h.opened hsound.counted hf.free rfl (fun g hg => ?_) (fun q hq => ?_) rfl rfl
      · rw [hfiles, stream_setStream, if_neg hg, stream_grab]
      · rw [hfiles, stream_setStream, if_pos rfl] at hq
        simp at hq
  | listen _ sock =>
    obtain rfl := Option.some.inj hc
    intro k' ret hr
    rcases sysListen_cases hr with ⟨rfl, -⟩ | ⟨f, s, c, -, -, -, -, -, -, -, rfl⟩
    · exact h
    · exact h.sameFiles rfl rfl rfl
  | accept _ lsock garbage =>
    obtain rfl := Option.some.inj hc
    intro k' ret hr
    rcases sysAccept_cases hr with ⟨rfl, -⟩ | ⟨f, s, c, hfd, hobj, hsock, htype, hport, hloop⟩
    · exact h
    · have hstart : (k.addRef s 1).PipesHeld gone := h.sameFiles rfl rfl rfl
      have hcount : (k.addRef s 1).Counted none := hsound.counted.same (fun _ => rfl) rfl rfl rfl
      exact acceptLoop_held hstart hcount hgone k' ret hloop
  | connect _ sock port =>
    obtain rfl := Option.some.inj hc
    intro k' ret hr
    rcases sysConnect_cases hr with ⟨rfl, -⟩ |
      ⟨f, s, c, l, lc, q, -, -, -, -, -, -, -, -, -, -, rfl⟩
    · exact h
    · have hwait : ({ k.addRequest s l q with
          requests := (k.addRequest s l q).requests.modify k.requests.length fun c =>
            { c with connectedCv := kernelWait c.connectedCv t } } : IoKernel).PipesHeld gone :=
        h.sameFiles rfl rfl rfl
      exact hwait.awake fun q => rfl
  | shutDown =>
    obtain rfl := Option.some.inj hc
    exact .bind fun r hr => .ret (sysShutDown_held h hsound.roles hr)
  | exec _ child call =>
    simp only [IoKernel.call] at hc
    split at hc
    · rename_i hfree
      obtain rfl := Option.some.inj hc
      intro k' ret hr
      obtain ⟨n, -, rfl⟩ := ioExec_cases hsound.counted hp hfree hr
      have hinherit := fun q =>
        (setProc_beside (q := q) k child fun c => { c with pstate := .alive }).trans
        (inherit_beside _ y.pid child n)
      cases call with
      | false => exact h.beside hinherit
      | true => exact h.beside fun q => (hinherit q).trans (addThread_beside _ child)
    · simp at hc
  | createThread =>
    obtain rfl := Option.some.inj hc
    exact .ret (h.beside fun q => addThread_beside k y.pid)
  | threadExit =>
    obtain rfl := Option.some.inj hc
    exact .map fun k' hk' => ioThreadExit_held h hsound hp hk'
  | _ => simp [socketTraffic, IoKernel.call] at hok hc

theorem goOn_held {dev : List UInt8} {garbage : Nat → UInt8} {res : IoResult} (h : k.PipesHeld gone)
    (hgone : ∀ q, gone q → q < k.pipes.length) (hsound : Sound k) (ht : k.threads[t]? = some y)
    (hg : k.goOn t y.pid y.pc dev garbage = some res) : res.All (Holding gone) := by
  have hawake : (k.setPc t .user).PipesHeld gone := h.awake fun q => rfl
  have hmem := List.mem_of_getElem? ht
  have hfree : ∀ f, y.pc.uses f = true → f ∉ k.files.fcbFreelist :=
    fun f hu => not_free_of_uses hsound.counted ht hu
  obtain ⟨pid, pc⟩ := y
  cases pc with
  | readingPipe f q n =>
    simp only [IoKernel.goOn] at hg
    split at hg
    · simp at hg
    · obtain rfl := Option.some.inj hg
      have hroles : SocketRoles (k.setPc t .user) := roles_of_view hsound.roles
        (setPc_view ht rfl rfl)
      refine finishIo_held (.map fun c hc => ?_) (.map fun c _ => readPipe_outcome q n _) hroles
        (hfree f (by simp [IoPc.uses]))
      exact readPipe_held hawake hc (pipeReadWait_ends c t n) fun hf =>
        h.reader hc hf (.asleep _ _ hmem rfl)
  | readingSerial f devno n =>
    simp only [IoKernel.goOn] at hg
    split at hg
    · simp at hg
    · obtain rfl := Option.some.inj hg
      have hroles : SocketRoles (k.setPc t .user) := roles_of_view hsound.roles
        (setPc_view ht rfl rfl)
      exact finishIo_held (.some (hawake.beside fun q => readSerial_beside))
        (.some (readSerial_outcome devno n dev)) hroles (hfree f (by simp [IoPc.uses]))
  | writingPipe f q buf =>
    simp only [IoKernel.goOn] at hg
    split at hg
    · simp at hg
    · obtain rfl := Option.some.inj hg
      have hroles : SocketRoles (k.setPc t .user) := roles_of_view hsound.roles
        (setPc_view ht rfl rfl)
      refine finishIo_held (.map fun c hc => ?_) (.map fun c _ => writePipe_outcome q buf _) hroles
        (hfree f (by simp [IoPc.uses]))
      exact writePipe_held hawake hc (pipeWriteWait_ends c t buf) fun hf =>
        h.writer hc hf (.asleep _ _ hmem rfl)
  | accepting s =>
    simp only [IoKernel.goOn] at hg
    split at hg
    · simp at hg
    · obtain rfl := Option.some.inj hg
      have hcount : (k.setPc t .user).Counted none :=
        hsound.counted.moveThread ht (by simp) (fun g => rfl) fun g => rfl
      exact acceptLoop_held hawake hcount hgone
  | connecting s r expired =>
    simp only [IoKernel.goOn] at hg
    split at hg
    · simp at hg
    · obtain rfl := Option.some.inj hg
      intro k' ret hr
      obtain ⟨req, -, ⟨-, -, -, rfl⟩ | ⟨-, -, rfl⟩⟩ := connectLoop_cases hr
      · have hwait : ({ k.setPc t .user with
            requests := (k.setPc t .user).requests.modify r fun c =>
              { c with connectedCv := kernelWait c.connectedCv t } } : IoKernel).PipesHeld gone :=
          hawake.sameFiles rfl rfl rfl
        exact hwait.awake fun q => rfl
      · exact hawake.sameFiles rfl rfl rfl
  | user | exited => simp [IoKernel.goOn] at hg

theorem IoKernel.PipesHeld.step (h : k.PipesHeld gone) (hgone : ∀ q, gone q → q < k.pipes.length)
    (hsound : Sound k)
    (hok : socketTraffic e = true) (hs : Stepped k e k' ret) : k'.PipesHeld gone := by
  cases hs with
  | fault => exact h.sameFiles rfl rfl rfl
  | timeout t p s r ht hcv =>
    have hexpire : ({ k with requests := k.requests.modify r fun c =>
        { c with connectedCv := c.connectedCv.expire t } } : IoKernel).PipesHeld
          gone := h.sameFiles rfl rfl rfl
    exact hexpire.awake fun q => rfl
  | serialReady => exact h.sameFiles rfl rfl rfl
  | reap => exact h.beside fun q => setProc_beside k _ _
  | proceed _ y _ _ _ _ ht hgo => exact goOn_held h hgone hsound ht hgo k' ret rfl
  | call _ t y _ _ he ht hy hcall => exact call_held h hgone hsound hok ht hy hcall k' ret rfl

theorem bootIo_pipesHeld (serialPorts : Nat) : (bootIo serialPorts).PipesHeld fun _ => False where
  held f q o _ he := by
    cases he with
    | stream hs => simp [bootIo, initializeFiles, FileTable.stream] at hs
    | asleep x ops hx hpc =>
      obtain rfl : x = ⟨1, .user⟩ := by simpa [bootIo] using hx
      simp [IoPc.pipeEnd] at hpc
  freed _ hq := hq.elim

end Held

end TinyOS
