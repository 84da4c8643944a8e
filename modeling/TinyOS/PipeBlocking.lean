import TinyOS.PipeEnds

/-! Blocking on a pipe and the end of its stream: a thread asleep in `pipe_read` or `pipe_write`
has been signalled as soon as it can go on, and the values that the calls return tell whether
the other end is closed. -/

namespace TinyOS

open Counting Transition Relation

def pipeTraffic (k : IoKernel) : IoEvent → Bool
  | .read .. | .write .. | .close .. | .dup2 .. | .exec .. | .createThread _
  | .threadExit _ | .serialReady |
    .reap _ => true
  | .proceed t _ _ => (k.threads[t]?).all fun x => x.pc.socketWait = none
  | _ => false

/-- A stretch of `pipe_read` of `n` bytes by thread `t`, from the pipe behind FCB `f`. -/
inductive IoKernel.ReadsFrom (k : IoKernel) (f : FcbId) (q : PipeId) (t : ThreadId)
    (n : Nat) : IoEvent → Prop
  | call (p : Pid) (fd : Int) (dev : List UInt8) (ht : k.threads[t]? = some ⟨p, .user⟩)
    (hf : getFcb k p fd = some f) : k.ReadsFrom f q t n (.read t fd n dev)
  | resume (p : Pid) (dev : List UInt8) (garbage : Nat → UInt8)
    (ht : k.threads[t]? = some ⟨p, .readingPipe f q n⟩) : k.ReadsFrom f q t n
    (.proceed t dev garbage)

inductive IoKernel.WritesTo (k : IoKernel) (f : FcbId) (q : PipeId) (t : ThreadId)
    (buf : List UInt8) : IoEvent → Prop
  | call (p : Pid) (fd : Int) (dev : List UInt8) (ht : k.threads[t]? = some ⟨p, .user⟩)
    (hf : getFcb k p fd = some f) : k.WritesTo f q t buf (.write t fd buf dev)
  | resume (p : Pid) (dev : List UInt8) (garbage : Nat → UInt8)
    (ht : k.threads[t]? = some ⟨p, .writingPipe f q buf⟩) : k.WritesTo f q t buf
    (.proceed t dev garbage)

/-- Blocking and end-of-file on pipe `q`, read through FCB `fr` and written through `fw`. -/
structure IoKernel.PipeExact (k : IoKernel) (q : PipeId) (fr fw : FcbId) : Prop where
  closed : ∀ c, k.pipe? q = some c → (c.reader = none ↔ k.refs fr = 0) ∧
    (c.writer = none ↔ k.refs fw = 0)
  reading : ∀ t p f n, k.threads[t]? = some ⟨p, .readingPipe f q n⟩ → ∃ c, k.pipe? q = some c ∧
    (t ∈ c.hasData.waitset → c.queue = [] ∧ c.writer ≠ none)
  writing : ∀ t p f buf, k.threads[t]? = some ⟨p, .writingPipe f q buf⟩ → ∃ c, k.pipe? q = some c ∧
    (t ∈ c.hasSpace.waitset → c.queue.length = 4096 ∧ c.reader ≠ none)
  readReturns : ∀ e t n k' v bytes fids, k.ReadsFrom fr q t n e → 0 < n →
    k.stepRet e = some (k', some ⟨v, bytes, fids⟩) →
    ∃ c, k.pipe? q = some c ∧ (v = 0 ↔ c.writer = none ∧ c.queue = []) ∧ (v ≠ 0 → 1 ≤ v)
  writeReturns : ∀ e t buf k' v bytes fids, k.WritesTo fw q t buf e → buf ≠ [] →
    k.stepRet e = some (k', some ⟨v, bytes, fids⟩) →
    ∃ c, k.pipe? q = some c ∧ (v = -1 ↔ c.reader = none) ∧ (v ≠ -1 → 1 ≤ v)

section Traffic

variable {k k' : IoKernel} {q : PipeId} {fr fw : FcbId} {p : Pid} {t : ThreadId} {e : IoEvent}
  {ret : Option IoRet} {y : IoThread}

theorem roles_of_view (h : SocketRoles k) (hv : k.SameView k') : SocketRoles k' :=
  h.fileEffect (L := fun _ => False) (.same k' hv)

theorem sysClose_stands {fd : Int} (h : k.PipeStands q fr fw) (hsound : Sound k) :
    (sysClose k p fd).All (Standing q fr fw) := by
  refine sysClose_all (fun _ => h) fun f k1 v hf hd => ?_
  have hfree := (inUse_of_getFcb hsound.counted hf).2
  exact (h.beside (setProc_beside k p _)).decref (roles_of_view hsound.roles (setProc_view k p _))
    hfree hd

theorem sysDup2_stands {oldfd newfd : Int} (h : k.PipeStands q fr fw) (hsound : Sound k) :
    (sysDup2 k p oldfd newfd).All (Standing q fr fw) := by
  refine sysDup2_all (fun _ => h) fun old k1 _ _ _ hclosed => ?_
  have hfill : k1.Beside ((k1.incref old).setFidt p newfd.toNat (some old)) q :=
    (incref_beside k1 old).trans (setProc_beside _ p _)
  rcases hclosed with ⟨-, rfl⟩ | ⟨new, v, hnew, hd⟩
  · exact h.beside hfill
  · exact (h.decref hsound.roles (inUse_of_getFcb hsound.counted hnew).2 hd).beside hfill

theorem sysRead_stands {fd : Int} {n : Nat} {dev : List UInt8} (h : k.PipeStands q fr fw)
    (hsound : Sound k) :
    (sysRead k t p fd n dev).All (Standing q fr fw) := by
  refine sysRead_all h fun f ops hf hops => ?_
  have hroles := roles_of_view hsound.roles (incref_view k f)
  exact finishIo_stands
    (readStream_stands (h.beside (incref_beside k f)) hroles (incref_stream hops))
    (readStream_outcome n dev _ _) hroles (inUse_of_getFcb hsound.counted hf).2

theorem sysWrite_stands {fd : Int} {buf dev : List UInt8} (h : k.PipeStands q fr fw)
    (hsound : Sound k) :
    (sysWrite k t p fd buf dev).All (Standing q fr fw) := by
  refine sysWrite_all h fun f ops hf hops => ?_
  have hroles := roles_of_view hsound.roles (incref_view k f)
  exact finishIo_stands
    (writeStream_stands (h.beside (incref_beside k f)) hroles (incref_stream hops))
    (writeStream_outcome buf dev _ _) hroles (inUse_of_getFcb hsound.counted hf).2

theorem ioThreadExit_stands (h : k.PipeStands q fr fw) (hsound : Sound k)
    (hp : (k.procs p).pstate = .alive)
    (he : ioThreadExit k t p = some k') : k'.PipeStands q fr fw := by
  simp only [ioThreadExit] at he
  split at he
  · obtain ⟨k1, hk1, rfl⟩ := Option.map_eq_some_iff.mp he
    obtain ⟨-, -, hclosed⟩ := closeFidt_induct (I := fun k => SocketRoles k ∧ k.PipeStands q fr fw)
      hsound.counted hp ⟨hsound.roles, h⟩ (fun k2 i f k3 v h2 _ hi hf hd hI => by
        obtain ⟨hv, hfree⟩ := inUse_of_slot h2 hi hf
        have hroles :=
          hI.1.fileEffect (decref_effect (L := fun _ => True) (fun _ => trivial) hv hfree hd)
        exact ⟨roles_of_view hroles (setProc_view k3 p _),
          (hI.2.decref hI.1 hfree hd).beside (setProc_beside k3 p _)⟩) hk1
    exact hclosed.beside ((setProc_beside k1 p _).trans (setPc_beside rfl))
  · obtain rfl : k.setPc t .exited = k' := by simpa using he
    exact h.beside (setPc_beside rfl)

theorem call_stands {res : IoResult} (h : k.PipeStands q fr fw) (hsound : Sound k)
    (hok : pipeTraffic k e = true)
    (ht : k.threads[t]? = some y) (hy : y.pc = .user) (hc : k.call t y.pid e = some res) :
    res.All (Standing q fr fw) := by
  have hp : (k.procs y.pid).pstate = .alive := hsound.counted.owner y (List.mem_of_getElem? ht)
    (by simp [hy])
  cases e with
  | read =>
    obtain rfl := Option.some.inj hc
    exact sysRead_stands h hsound
  | write =>
    obtain rfl := Option.some.inj hc
    exact sysWrite_stands h hsound
  | close =>
    obtain rfl := Option.some.inj hc
    exact sysClose_stands h hsound
  | dup2 =>
    obtain rfl := Option.some.inj hc
    exact sysDup2_stands h hsound
  | exec _ child call =>
    simp only [IoKernel.call] at hc
    split at hc
    · rename_i hfree
      obtain rfl := Option.some.inj hc
      intro k' ret hr
      obtain ⟨n, -, rfl⟩ := ioExec_cases hsound.counted hp hfree hr
      have hinherit := (setProc_beside (q := q) k child fun c => { c with pstate := .alive }).trans
        (inherit_beside _ y.pid child n)
      cases call with
      | false => exact h.beside hinherit
      | true => exact h.beside (hinherit.trans (addThread_beside _ child))
    · simp at hc
  | createThread =>
    obtain rfl := Option.some.inj hc
    exact .ret (h.beside (addThread_beside k y.pid))
  | threadExit =>
    obtain rfl := Option.some.inj hc
    exact .map fun k' hk' => ioThreadExit_stands h hsound hp hk'
  | _ => simp [pipeTraffic, IoKernel.call] at hok hc

theorem not_free_of_uses {f : FcbId} (hcount : k.Counted none) (ht : k.threads[t]? = some y)
    (hu : y.pc.uses f = true) : f ∉ k.files.fcbFreelist := by
  have hpos : 0 < k.users f := countP_pos_of_getElem? ht hu
  exact (hcount.exact.inUse (Nat.add_pos_left (Nat.add_pos_right _ hpos) _)).2

theorem goOn_stands {dev : List UInt8} {garbage : Nat → UInt8} {res : IoResult}
    (h : k.PipeStands q fr fw)
    (hsound : Sound k) (ht : k.threads[t]? = some y) (hy : y.pc.socketWait = none)
    (hg : k.goOn t y.pid y.pc dev garbage = some res) : res.All (Standing q fr fw) := by
  have hawake : (k.setPc t .user).PipeStands q fr fw := h.beside (setPc_beside rfl)
  have hroles : SocketRoles (k.setPc t .user) := roles_of_view hsound.roles (setPc_view ht hy rfl)
  have hmem := List.mem_of_getElem? ht
  have hfree : ∀ f, y.pc.uses f = true → f ∉ k.files.fcbFreelist :=
    fun f hu => not_free_of_uses hsound.counted ht hu
  obtain ⟨pid, pc⟩ := y
  cases pc with
  | readingPipe f q' n =>
    simp only [IoKernel.goOn] at hg
    split at hg
    · simp at hg
    · obtain rfl := Option.some.inj hg
      refine finishIo_stands (.map fun c hc => ?_) (.map fun c _ => readPipe_outcome q' n _) hroles
        (hfree f (by simp [IoPc.uses]))
      refine hawake.readPipe (c := c) hc (fun hq => ?_) fun r w hw => hw.readWait n
      subst hq
      exact h.reading _ hmem f n rfl
  | readingSerial f devno n =>
    simp only [IoKernel.goOn] at hg
    split at hg
    · simp at hg
    · obtain rfl := Option.some.inj hg
      exact finishIo_stands (.some (hawake.beside readSerial_beside))
        (.some (readSerial_outcome devno n dev)) hroles
        (hfree f (by simp [IoPc.uses]))
  | writingPipe f q' buf =>
    simp only [IoKernel.goOn] at hg
    split at hg
    · simp at hg
    · obtain rfl := Option.some.inj hg
      refine finishIo_stands (.map fun c hc => ?_) (.map fun c _ => writePipe_outcome q' buf _)
        hroles
        (hfree f (by simp [IoPc.uses]))
      refine hawake.writePipe (c := c) hc (fun hq => ?_) fun r w hw => hw.writeWait buf
      subst hq
      exact h.writing _ hmem f buf rfl
  | user | exited => simp [IoKernel.goOn] at hg
  | _ => simp [IoPc.socketWait] at hy

theorem IoKernel.PipeStands.step (h : k.PipeStands q fr fw) (hsound : Sound k)
    (hok : pipeTraffic k e = true)
    (hs : Stepped k e k' ret) : k'.PipeStands q fr fw := by
  cases hs with
  | fault => exact h.beside ⟨rfl, rfl, fun _ => rfl, fun x hx _ => ⟨x, hx, rfl⟩⟩
  | timeout => simp [pipeTraffic] at hok
  | serialReady => exact h.beside ⟨rfl, rfl, fun _ => rfl, fun x hx _ => ⟨x, hx, rfl⟩⟩
  | reap => exact h.beside (setProc_beside k _ _)
  | proceed _ y _ _ _ _ ht hgo =>
    exact goOn_stands h hsound ht (by simpa [pipeTraffic, ht] using hok) hgo k' ret rfl
  | call _ t y _ _ he ht hy hcall => exact call_stands h hsound hok ht hy hcall k' ret rfl

/-! ### What the invariant says -/

theorem IoKernel.PipeStands.block_of_open (h : k.PipeStands q fr fw)
    (hopen : fr ∉ k.files.fcbFreelist ∨ fw ∉ k.files.fcbFreelist) :
    ∃ c, k.pipe? q = some c ∧ c.Waits (k.openEnd fr) (k.openEnd fw) := by
  have hblock := h.block
  cases hc : k.pipe? q with
  | none =>
    rw [hc] at hblock
    obtain ⟨hr, hw⟩ := hblock
    rcases hopen with hf | hf
    · simp [IoKernel.openEnd, hf] at hr
    · simp [IoKernel.openEnd, hf] at hw
  | some c =>
    rw [hc] at hblock
    exact ⟨c, rfl, hblock⟩

theorem openEnd_none {f : FcbId} (hcount : k.Counted none) (hv : f < maxFiles) :
    k.openEnd f = none ↔ k.refs f = 0 := by
  by_cases hf : f ∈ k.files.fcbFreelist
  · have hzero := hcount.exact.unused f hf
    simp only [reduceCtorEq, if_false, Nat.add_zero] at hzero
    simp [IoKernel.openEnd, hf, hzero]
  · have hpos := hcount.exact.used f hv hf
    simp only [reduceCtorEq, if_false, Nat.add_zero] at hpos
    simp [IoKernel.openEnd, hf, Nat.ne_of_gt hpos]

theorem finishIo_returns {f : FcbId} {r : IoRet} {res : IoResult}
    (h : finishIo p f res = some (k', some r)) :
    ∃ k1, res = some (k1, some r) := by
  rcases res with _ | ⟨k1, _ | r1⟩
  · simp [finishIo] at h
  · simp [finishIo] at h
  · obtain ⟨⟨k2, v⟩, -, he⟩ := Option.map_eq_some_iff.mp h
    obtain ⟨-, rfl⟩ : k2 = k' ∧ r1 = r := by simpa using he
    exact ⟨k1, rfl⟩

/-- A stretch of a read of the open read end that returns. -/
theorem IoKernel.PipeStands.reads {n : Nat} {v : Int} {bytes : List UInt8} {fids : List Nat}
    (h : k.PipeStands q fr fw) (hsound : Sound k) (hread : k.ReadsFrom fr q t n e)
    (hs : k.stepRet e = some (k', some ⟨v, bytes, fids⟩)) :
    ∃ c c' bytes, k.pipe? q = some c ∧ c.Waits (k.openEnd fr) (k.openEnd fw) ∧
      pipeReadWait c t n = (c', some (v, bytes)) := by
  cases hread with
  | call p fd dev ht hf =>
    have hfree := (inUse_of_getFcb hsound.counted hf).2
    obtain ⟨c, hc, hwaits⟩ := h.block_of_open (.inl hfree)
    have hreader : c.reader ≠ none := by
      rw [hwaits.reader]
      simp [IoKernel.openEnd, hfree]
    obtain ⟨p', res, ht', hcall, hsettle⟩ := stepRet_call rfl (fun _ _ => by simp) hs
    obtain rfl : p = p' := by simpa [ht] using ht'
    obtain rfl : sysRead k t p fd n dev = res := by simpa [IoKernel.call] using hcall
    obtain ⟨k2, hsys, -⟩ := sysRead_reader (t := t) hsound.counted hf h.readEnd hc n dev
    rw [hsys] at hsettle
    obtain ⟨-, hret⟩ : k2 = k' ∧ _ = some _ := Prod.mk.inj hsettle
    have hwait : pipeRead c t n = pipeReadWait c t n := by simp [pipeRead, hreader]
    rw [hwait] at hret
    obtain ⟨c', o, hstretch⟩ : ∃ c' o, pipeReadWait c t n = (c', o) := ⟨_, _, rfl⟩
    rw [hstretch] at hret
    rcases o with _ | ⟨v', bytes'⟩
    · simp [TinyOS.readPipe] at hret
    · obtain ⟨rfl, -⟩ : v' = v ∧ _ := by simpa [TinyOS.readPipe] using hret
      exact ⟨c, c', bytes', hc, hwaits, hstretch⟩
  | resume p dev garbage ht =>
    have hfree := not_free_of_uses hsound.counted ht (f := fr) (by simp [IoPc.uses])
    obtain ⟨c, hc, hwaits⟩ := h.block_of_open (.inl hfree)
    obtain ⟨hrun, -⟩ := stepRet_cases hs
    simp only [IoKernel.stepRet, hrun, Bool.false_eq_true, if_false, ht,
      Option.bind_some, IoKernel.goOn, hc,
      Option.elim_some, Option.map_some] at hs
    split at hs
    · simp at hs
    rcases settle_cases (Option.some.inj hs) with hfin | ⟨-, hret⟩
    · obtain ⟨k1, hk1⟩ := finishIo_returns hfin
      obtain ⟨c', o, hstretch⟩ : ∃ c' o, pipeReadWait c t n = (c', o) := ⟨_, _, rfl⟩
      rw [hstretch] at hk1
      rcases o with _ | ⟨v', bytes'⟩
      · simp [TinyOS.readPipe] at hk1
      · obtain ⟨-, rfl, -⟩ : _ = k1 ∧ v' = v ∧ _ := by simpa [TinyOS.readPipe] using hk1
        exact ⟨c, c', bytes', hc, hwaits, hstretch⟩
    · simp at hret

theorem IoKernel.PipeStands.writes {buf : List UInt8} {v : Int} {bytes : List UInt8}
    {fids : List Nat}
    (h : k.PipeStands q fr fw) (hsound : Sound k) (hwrite : k.WritesTo fw q t buf e)
    (hs : k.stepRet e = some (k', some ⟨v, bytes, fids⟩)) :
    ∃ c c', k.pipe? q = some c ∧ c.Waits (k.openEnd fr) (k.openEnd fw) ∧
      pipeWriteWait c t buf = (c', some v) := by
  cases hwrite with
  | call p fd dev ht hf =>
    have hfree := (inUse_of_getFcb hsound.counted hf).2
    obtain ⟨c, hc, hwaits⟩ := h.block_of_open (.inr hfree)
    obtain ⟨p', res, ht', hcall, hsettle⟩ := stepRet_call rfl (fun _ _ => by simp) hs
    obtain rfl : p = p' := by simpa [ht] using ht'
    obtain rfl : sysWrite k t p fd buf dev = res := by simpa [IoKernel.call] using hcall
    obtain ⟨k2, hsys, -⟩ := sysWrite_writer (t := t) hsound.counted hf h.writeEnd hc buf dev
    rw [hsys] at hsettle
    obtain ⟨-, hret⟩ : k2 = k' ∧ _ = some _ := Prod.mk.inj hsettle
    have hwait : pipeWrite c t buf = pipeWriteWait c t buf := by
      by_cases hr : c.reader = none <;> simp [pipeWrite, pipeWriteWait, hr]
    rw [hwait] at hret
    obtain ⟨c', o, hstretch⟩ : ∃ c' o, pipeWriteWait c t buf = (c', o) := ⟨_, _, rfl⟩
    rw [hstretch] at hret
    rcases o with _ | v'
    · simp [TinyOS.writePipe] at hret
    · obtain ⟨rfl, -⟩ : v' = v ∧ _ := by simpa [TinyOS.writePipe] using hret
      exact ⟨c, c', hc, hwaits, hstretch⟩
  | resume p dev garbage ht =>
    have hfree := not_free_of_uses hsound.counted ht (f := fw) (by simp [IoPc.uses])
    obtain ⟨c, hc, hwaits⟩ := h.block_of_open (.inr hfree)
    obtain ⟨hrun, -⟩ := stepRet_cases hs
    simp only [IoKernel.stepRet, hrun, Bool.false_eq_true, if_false, ht,
      Option.bind_some, IoKernel.goOn, hc,
      Option.elim_some, Option.map_some] at hs
    split at hs
    · simp at hs
    rcases settle_cases (Option.some.inj hs) with hfin | ⟨-, hret⟩
    · obtain ⟨k1, hk1⟩ := finishIo_returns hfin
      obtain ⟨c', o, hstretch⟩ : ∃ c' o, pipeWriteWait c t buf = (c', o) := ⟨_, _, rfl⟩
      rw [hstretch] at hk1
      rcases o with _ | v'
      · simp [TinyOS.writePipe] at hk1
      · obtain ⟨-, rfl, -⟩ : _ = k1 ∧ v' = v ∧ _ := by simpa [TinyOS.writePipe] using hk1
        exact ⟨c, c', hc, hwaits, hstretch⟩
    · simp at hret

theorem IoKernel.PipeStands.exact (h : k.PipeStands q fr fw) (hsound : Sound k) (hr : fr < maxFiles)
    (hw : fw < maxFiles) : k.PipeExact q fr fw where
  closed c hc := by
    have hblock := h.block
    rw [hc] at hblock
    obtain ⟨-, hreader, hwriter, -, -⟩ := hblock
    rw [hreader, hwriter]
    exact ⟨openEnd_none hsound.counted hr, openEnd_none hsound.counted hw⟩
  reading t p f n ht := by
    obtain rfl := h.reading _ (List.mem_of_getElem? ht) f n rfl
    obtain ⟨c, hc, hwaits⟩ :=
      h.block_of_open (.inl (not_free_of_uses hsound.counted ht (by simp [IoPc.uses])))
    refine ⟨c, hc, fun hmem => ?_⟩
    obtain ⟨hempty, hopen⟩ := hwaits.data (List.ne_nil_of_mem hmem)
    have hlen := hwaits.wf.queue_length
    refine ⟨List.length_eq_zero_iff.mp (by omega), ?_⟩
    rw [hwaits.writer]
    exact hopen
  writing t p f buf ht := by
    obtain rfl := h.writing _ (List.mem_of_getElem? ht) f buf rfl
    obtain ⟨c, hc, hwaits⟩ :=
      h.block_of_open (.inr (not_free_of_uses hsound.counted ht (by simp [IoPc.uses])))
    refine ⟨c, hc, fun hmem => ?_⟩
    obtain ⟨hfull, hopen⟩ := hwaits.space (List.ne_nil_of_mem hmem)
    have hlen := hwaits.wf.queue_length
    refine ⟨by omega, ?_⟩
    rw [hwaits.reader]
    exact hopen
  readReturns e t n k' v bytes fids hread hn hs := by
    obtain ⟨c, c', bytes', hc, hwaits, hstretch⟩ := h.reads hsound hread hs
    obtain ⟨hnonneg, hiff⟩ := hwaits.read_returns hn hstretch
    exact ⟨c, hc, hiff, fun hne => by omega⟩
  writeReturns e t buf k' v bytes fids hwrite hbuf hs := by
    obtain ⟨c, c', hc, hwaits, hstretch⟩ := h.writes hsound hwrite hs
    exact ⟨c, hc, hwaits.write_returns hbuf hstretch⟩

/-- The pipe that `sys_Pipe` makes, and the two fids that it stores. -/
theorem pipe_stands {garbage : Nat → UInt8} {bytes : List UInt8} {fids : List Nat}
    (hcount : k.Counted none)
    (hnamed : PipesNamed k) (h : sysPipe k p garbage = some (k', some ⟨0, bytes, fids⟩)) :
    ∃ i j fr fw, fids = [i, j] ∧ getFcb k' p i = some fr ∧ getFcb k' p j = some fw ∧ fr < maxFiles ∧
      fw < maxFiles ∧ k'.PipeStands k.pipes.length fr fw := by
  rcases sysPipe_cases h with ⟨-, _, hret⟩ |
    ⟨i, f, rest, hf, ⟨-, ⟨_, hret⟩, -⟩ | ⟨j, g, rest', hg, hret, rfl⟩⟩
  · simp at hret
  · simp at hret
  obtain ⟨-, rfl⟩ : bytes = [] ∧ fids = [i, j] := by simpa using hret
  have hlist : k.files.fcbFreelist = f :: g :: rest' := by
    rw [hf.free, show rest = g :: rest' from hg.free]
  have hnd := hcount.exact.nodup
  rw [hlist] at hnd
  have hgf : g ≠ f := by
    rintro rfl
    exact (List.nodup_cons.mp hnd).1 List.mem_cons_self
  have hfree : ∀ x, x = f ∨ x = g → x ∉ rest' := by
    intro x hx hmem
    rcases hx with rfl | rfl
    · exact (List.nodup_cons.mp hnd).1 (List.mem_cons_of_mem _ hmem)
    · exact (List.nodup_cons.mp (List.nodup_cons.mp hnd).2).1 hmem
  have hvalid : ∀ x, x = f ∨ x = g → x < maxFiles := by
    intro x hx
    refine hcount.exact.mem_valid x ?_
    rw [hlist]
    rcases hx with rfl | rfl
    · exact List.mem_cons_self
    · exact List.mem_cons_of_mem _ List.mem_cons_self
  have hlen : ((k.grab p i f rest).grab p j g rest').pipes.length = k.pipes.length := rfl
  have hstream : ∀ x, (((k.grab p i f rest).grab p j g rest').addPipe g f garbage).files.stream x =
      if x = g then (.pipe k.pipes.length, some .writerFileOps)
      else if x = f then (.pipe k.pipes.length, some .readerFileOps) else k.files.stream x := by
    intro x
    rw [stream_addPipe, stream_grab, stream_grab, hlen]
  have hslots : ((((k.grab p i f rest).grab p j g rest').addPipe g f garbage).procs p).fidt =
      Function.update (Function.update (k.procs p).fidt i (some f)) j (some g) := by
    show (((k.grab p i f rest).grab p j g rest').procs p).fidt = _
    rw [grab_fidt, grab_fidt]
  have hij : i ≠ j := by
    rintro rfl
    have hempty := hg.empty
    rw [grab_fidt] at hempty
    simp at hempty
  refine ⟨i, j, f, g, rfl, ?_, ?_, hvalid f (.inl rfl), hvalid g (.inr rfl), Ne.symm hgf, ?_, ?_,
    fun x hx => ?_, ?_, fun x hx a n hpc => ?_, fun x hx a buf hpc => ?_⟩
  · rw [getFcb_nat hf.lt, hslots]
    simp [hij]
  · rw [getFcb_nat hg.lt, hslots]
    simp
  · rw [hstream, if_neg (Ne.symm hgf), if_pos rfl]
  · rw [hstream, if_pos rfl]
  · rw [hstream] at hx
    split at hx
    · rename_i he
      exact .inr he
    · split at hx
      · rename_i he
        exact .inl he
      · exact absurd (hnamed.stream x _ hx) (Nat.lt_irrefl _)
  · have hpipe : (((k.grab p i f rest).grab p j g rest').addPipe g f garbage).pipe? k.pipes.length =
        some (PipeCb.initial f g garbage) := by
      show (((k.grab p i f rest).grab p j g rest').pipes ++
        [some (PipeCb.initial f g garbage)])[k.pipes.length]?.join = _
      rw [← hlen]
      simp
    have hopen : ∀ x, x = f ∨ x = g →
        (((k.grab p i f rest).grab p j g rest').addPipe g f garbage).openEnd x = some x := by
      intro x hx
      have hnot :
          x ∉ (((k.grab p i f rest).grab p j g rest').addPipe g f garbage).files.fcbFreelist :=
            hfree x hx
      simp only [IoKernel.openEnd, hnot, if_false]
    rw [hpipe, hopen f (.inl rfl), hopen g (.inr rfl)]
    exact PipeCb.Waits.initial f g garbage
  · have hx' : x ∈ k.threads := hx
    exact absurd (hnamed.threads x hx' k.pipes.length (by simp [hpc, IoPc.onPipe]))
      (Nat.lt_irrefl _)
  · have hx' : x ∈ k.threads := hx
    exact absurd (hnamed.threads x hx' k.pipes.length (by simp [hpc, IoPc.onPipe]))
      (Nat.lt_irrefl _)

/-- Every pipe that `sys_Pipe` makes, while any threads read, write and close its two ends. -/
theorem pipe_blocking_exact {serialPorts : Nat} {k0 k1 : IoKernel} {garbage : Nat → UInt8}
    {bytes : List UInt8} {fids : List Nat} (h : Reach IoKernel.step Always (bootIo serialPorts) k0)
    (ht : k0.threads[t]? = some ⟨p, .user⟩)
    (hpipe : k0.stepRet (.pipe t garbage) = some (k1, some ⟨0, bytes, fids⟩))
    (hrun : Reach IoKernel.step (fun k e => pipeTraffic k e = true) k1 k) :
    ∃ i j fr fw q, fids = [i, j] ∧ getFcb k1 p i = some fr ∧ getFcb k1 p j = some fw ∧
      k1.files.stream fr = (.pipe q, some .readerFileOps) ∧
      k1.files.stream fw = (.pipe q, some .writerFileOps) ∧
      k.PipeExact q fr fw := by
  obtain ⟨hcount, hnamed⟩ := pipesNamed_of_reach h
  obtain ⟨p', res, ht', hcall, hsettle⟩ := stepRet_call rfl (fun _ _ => by simp) hpipe
  obtain rfl : p = p' := by simpa [ht] using ht'
  obtain rfl : sysPipe k0 p garbage = res := by simpa [IoKernel.call] using hcall
  rcases settle_cases hsettle with hsys | ⟨-, hret⟩
  · obtain ⟨i, j, fr, fw, hfids, hi, hj, hr, hw, hstands⟩ := pipe_stands hcount hnamed hsys
    have hsound1 : Sound k1 := ((sound_of_reach h).stepRet hpipe).1
    have hinv : Sound k ∧ k.PipeStands k0.pipes.length fr fw := by
      refine hrun.invariant (I := fun k => Sound k ∧ k.PipeStands k0.pipes.length fr fw)
        ⟨hsound1, hstands⟩ ?_
      intro u e v hu hok hs
      obtain ⟨⟨v', ret⟩, hret, rfl⟩ := Option.map_eq_some_iff.mp hs
      exact ⟨(hu.1.stepRet hret).1, hu.2.step hu.1 hok (stepRet_cases hret).2⟩
    exact ⟨i, j, fr, fw, k0.pipes.length, hfids, hi, hj, hstands.readEnd, hstands.writeEnd,
      hinv.2.exact hinv.1 hr hw⟩
  · simp at hret

theorem pipe_blocking_exact_run : ∃ (k : IoKernel) (fr fw : FcbId) (q : PipeId),
    k.threads[1]? = some ⟨1, .readingPipe 0 0 8⟩ ∧ k.PipeExact q fr fw := by
  have hp : ((exec IoKernel.step (bootIo 0) [.createThread 0]).any fun k0 =>
      decide (k0.threads[0]? = some ⟨1, .user⟩) && (k0.stepRet (.pipe 0 fun _ => 0)).any fun r =>
        decide (r.2 = some ⟨0, [], [0, 1]⟩) &&
          (exec (guarded pipeTraffic IoKernel.step) r.1 [.read 1 0 8 []]).any fun k =>
            decide (k.threads[1]? = some ⟨1, .readingPipe 0 0 8⟩)) = true := by decide +kernel
  obtain ⟨k0, hk0, hp⟩ := (Option.any_eq_true ..).mp hp
  obtain ⟨ht, hp⟩ := Bool.and_eq_true_iff.mp hp
  obtain ⟨⟨k1, ret⟩, hret, hp⟩ := (Option.any_eq_true ..).mp hp
  obtain ⟨hfids, hp⟩ := Bool.and_eq_true_iff.mp hp
  obtain ⟨k, hk, hsleeps⟩ := (Option.any_eq_true ..).mp hp
  obtain rfl : ret = some ⟨0, [], [0, 1]⟩ := of_decide_eq_true hfids
  obtain ⟨i, j, fr, fw, q, -, -, -, -, -, hexact⟩ := pipe_blocking_exact (reach_of_exec hk0)
    (of_decide_eq_true ht) hret (reach_of_guarded_exec (fun _ _ h => h) hk)
  exact ⟨k, fr, fw, q, of_decide_eq_true hsleeps, hexact⟩

end Traffic

end TinyOS
