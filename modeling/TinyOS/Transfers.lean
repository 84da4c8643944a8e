import TinyOS.Connection
import TinyOS.PipeCalls

/-! The calls on the two ends of a connection that `Accept` has just made, by any threads of
the processes that hold them, against the two-way channel that they are meant to be. -/

namespace TinyOS

open Counting Transition Relation Duplex

inductive TransferEvent
  | write (t : ThreadId) (s : End) (buf : List UInt8)
  | read (t : ThreadId) (s : End) (n : Nat)
  | shutDown (t : ThreadId) (s : End) (how : ShutdownMode)
  | resume (t : ThreadId)

def TransferEvent.thread : TransferEvent → ThreadId
  | .write t .. | .read t .. | .shutDown t .. | .resume t => t

def TransferEvent.call : TransferEvent → Option (Call UInt8)
  | .write _ s buf => some (.write s buf)
  | .read _ s n => some (.read s n)
  | .shutDown _ s how => some (.shut s (how ≠ .write) (how ≠ .read))
  | .resume _ => none

def forward : Call UInt8 → Bool
  | .write .left _ | .read .right _ => true
  | _ => false

def TransferEvent.isForward (ev : TransferEvent) : Bool := ev.call.all forward

def TransferEvent.isShut (ev : TransferEvent) : Bool := ev.call.any (·.isShut)

/-- The kernel, the calls that sleep, and the calls that have returned. -/
structure Transfer where
  kernel : IoKernel
  calls : ThreadId → Option (Call UInt8)
  done : Trace UInt8

def Transfer.finish (x : Transfer) (t : ThreadId) (c : Call UInt8) :
    IoKernel × Option IoRet → Transfer
  | (k, none) => { x with kernel := k, calls := Function.update x.calls t (some c) }
  | (k, some r) =>
    { kernel := k, calls := Function.update x.calls t none,
      done := x.done ++ [(c, ⟨r.val, r.bytes⟩)] }

def Transfer.start (ends : End → Endpoint) (x : Transfer) (t : ThreadId) (s : End) (c : Call UInt8)
    (e : IoEvent) : Option Transfer :=
  if (x.kernel.threads[t]?).any (·.pid = (ends s).pid) then (x.kernel.stepRet e).map (x.finish t c)
  else none

def Transfer.step (ends : End → Endpoint) (x : Transfer) : TransferEvent → Option Transfer
  | .write t s buf => x.start ends t s (.write s buf) (.write t (ends s).fid buf [])
  | .read t s n => x.start ends t s (.read s n) (.read t (ends s).fid n [])
  | .shutDown t s how =>
    x.start ends t s (.shut s (how ≠ .write) (how ≠ .read)) (.shutDown t (ends s).fid how)
  | .resume t =>
    (x.calls t).bind fun c => (x.kernel.stepRet (.proceed t [] fun _ => 0)).map (x.finish t c)

/-- The client is the left end. -/
def endsOf (cli srv : Endpoint) : End → Endpoint
  | .left => cli
  | .right => srv

def Transfer.initial (k : IoKernel) : Transfer := ⟨k, fun _ => none, []⟩

/-- The pipe as a channel from the left end to the right one. -/
def flow (c : PipeCb) : State UInt8 where
  buf
    | .left => []
    | .right => c.queue
  shutRead _ := false
  shutWrite _ := false

/-- A stretch of thread `t` that only touches pipes and counts. -/
structure IoKernel.Apart (k k' : IoKernel) (t : ThreadId) : Prop where
  procs : k'.procs = k.procs
  faulted : k'.faulted = k.faulted
  stream : ∀ g, k'.files.stream g = k.files.stream g
  threads : ∀ t', t' ≠ t → k'.threads[t']? = k.threads[t']?

/-- The connection in the middle of the calls on it: the bytes accepted and not yet delivered
are those in the pipe `c`. -/
structure Transfer.Holds (x : Transfer) (cli srv : Endpoint) (a f : FcbId)
    (q : PipeId) (c : PipeCb) :
    Prop where
  counted : x.kernel.Counted none
  way : OneWay x.kernel cli srv a f q
  pipe : x.kernel.pipe? q = some c
  wf : c.WellFormed
  reader : c.reader ≠ none
  writer : c.writer ≠ none
  asleep : ∀ t d, x.calls t = some d →
    (∃ p buf, d = .write .left buf ∧ x.kernel.threads[t]? = some ⟨p, .writingPipe a q buf⟩) ∨
      ∃ p n, d = .read .right n ∧ x.kernel.threads[t]? = some ⟨p, .readingPipe f q n⟩
  law : (∀ d ∈ x.done, forward d.1 = true) → Run .initial x.done (flow c)
  back : ∀ d ∈ x.done, forward d.1 = false → d.2.val = -1
  unshut : ∀ d ∈ x.done, d.1.isShut = false

section Methods

variable {k k' : IoKernel} {t : ThreadId} {q : PipeId} {c : PipeCb}

theorem IoKernel.Apart.trans {k'' : IoKernel} (h : k.Apart k' t) (h' : k'.Apart k'' t) :
    k.Apart k'' t where
  procs := h'.procs.trans h.procs
  faulted := h'.faulted.trans h.faulted
  stream g := (h'.stream g).trans (h.stream g)
  threads t' ht := (h'.threads t' ht).trans (h.threads t' ht)

theorem IoKernel.Keeps.apart (h : k.Keeps k') (t : ThreadId) : k.Apart k' t where
  procs := h.procs
  faulted := h.faulted
  stream := h.stream
  threads t' _ := by rw [h.threads]

theorem setPc_apart (k : IoKernel) (t : ThreadId) (pc : IoPc) : k.Apart (k.setPc t pc) t where
  procs := rfl
  faulted := rfl
  stream _ := rfl
  threads t' ht := by
    show (k.threads.modify t _)[t']? = k.threads[t']?
    exact List.getElem?_modify_ne _ _ (Ne.symm ht)

theorem storePipe_apart (k : IoKernel) (q : PipeId) (c : PipeCb) (t : ThreadId) :
    k.Apart (storePipe k q c) t :=
  ⟨rfl, rfl, fun _ => rfl, fun _ _ => rfl⟩

theorem pipe_storePipe {d : PipeCb} (hq : k.pipe? q = some c) :
    (storePipe k q d).pipe? q = some d := by
  have hlt : q < k.pipes.length := by
    by_contra hge
    simp [IoKernel.pipe?, List.getElem?_eq_none (Nat.le_of_not_lt hge)] at hq
  simp [storePipe, IoKernel.pipe?, List.getElem?_set_self hlt]

end Methods

section Stretches

variable {c c' : PipeCb} {t : ThreadId}

theorem write_stretch {buf : List UInt8} {o : Option Int} (hwf : c.WellFormed)
    (hr : c.reader ≠ none) (h : pipeWriteWait c t buf = (c', o)) :
    c'.WellFormed ∧ c.SameEnds c' ∧ (o = none → c'.queue = c.queue) ∧
      ∀ v, o = some v → Step (flow c) (.write .left buf) ⟨v, []⟩ (flow c') := by
  cases o with
  | none =>
    obtain rfl := pipeWriteWait_blocks h
    exact ⟨hwf.withWaits _ _, ⟨rfl, rfl⟩, fun _ => rfl, fun v hv => by simp at hv⟩
  | some v =>
    obtain ⟨hwf', hends, hv, hqueue⟩ := pipeWriteWait_returns hwf hr h
    have hspace : c.emptySpace ≠ 0 := by
      intro hfull
      simp [pipeWriteWait, hfull, hr] at h
    have hnonneg := hwf.space_nonneg
    refine ⟨hwf', hends, fun hnone => by simp at hnone, fun v' hv' => ?_⟩
    obtain rfl : v = v' := by simpa using hv'
    obtain ⟨n, rfl⟩ : ∃ n : Nat, v = n := Int.eq_ofNat_of_zero_le (by omega)
    have hstep := Step.write (x := flow c) .left buf n rfl rfl (by omega) fun hbuf => by
      have hlen := List.length_pos_iff.mpr hbuf
      omega
    have hflow : flow c' = { flow c with
        buf := Function.update (flow c).buf End.left.other
          ((flow c).buf End.left.other ++ buf.take n) } := by
      simp only [flow, State.mk.injEq, and_self, and_true]
      funext s
      cases s with
      | left => rfl
      | right => exact hqueue
    rw [hflow]
    exact hstep

theorem read_stretch {n : Nat} {o : Option (Int × List UInt8)} (hwf : c.WellFormed)
    (hw : c.writer ≠ none) (h : pipeReadWait c t n = (c', o)) :
    c'.WellFormed ∧ c.SameEnds c' ∧ (o = none → c'.queue = c.queue) ∧
      ∀ v bytes, o = some (v, bytes) → Step (flow c) (.read .right n) ⟨v, bytes⟩ (flow c') := by
  cases o with
  | none =>
    obtain rfl := pipeReadWait_blocks h
    exact ⟨hwf.withWaits _ _, ⟨rfl, rfl⟩, fun _ => rfl, fun v bytes hv => by simp at hv⟩
  | some r =>
    obtain ⟨v, bytes⟩ := r
    obtain ⟨hwf', hends, hv, hbytes, hqueue⟩ := pipeReadWait_returns hwf h
    have hdata : c.emptySpace ≠ 4096 := by
      intro hempty
      simp [pipeReadWait, hempty, pipeBufferSize, hw] at h
    have hlen := hwf.queue_length
    refine ⟨hwf', hends, fun hnone => by simp at hnone, fun v' bytes' hv' => ?_⟩
    obtain ⟨rfl, rfl⟩ : v = v' ∧ bytes = bytes' := by simpa using hv'
    have hstep := Step.read (x := flow c) .right n rfl fun _ hnil => by
      have hnil' : c.queue = [] := hnil
      rw [hnil', List.length_nil] at hlen
      omega
    have hval : v = ((c.queue.take n).length : Nat) := by
      rw [List.length_take]
      omega
    have hflow : flow c' = { flow c with
        buf := Function.update (flow c).buf .right (((flow c).buf .right).drop n) } := by
      simp only [flow, State.mk.injEq, and_self, and_true]
      funext s
      cases s with
      | left => rfl
      | right => exact hqueue
    rw [hflow, hval, hbytes]
    exact hstep

end Stretches

section Calls

variable {x x' : Transfer} {cli srv : Endpoint} {a f : FcbId} {q : PipeId}
  {c c' : PipeCb} {t : ThreadId}
  {k' : IoKernel} {ret : Option IoRet} {d : Call UInt8}

/-- A stretch of a call that leaves the pipe as `c'`. -/
theorem Transfer.Holds.finish (h : x.Holds cli srv a f q c) (hcount : k'.Counted none)
    (hapart : x.kernel.Apart k' t) (hpipe : k'.pipe? q = some c') (hwf : c'.WellFormed)
    (hends : c.SameEnds c') (hunshut : d.isShut = false)
    (hasleep : ret = none → c'.queue = c.queue ∧
      ((∃ p buf, d = .write .left buf ∧ k'.threads[t]? = some ⟨p, .writingPipe a q buf⟩) ∨
        ∃ p n, d = .read .right n ∧ k'.threads[t]? = some ⟨p, .readingPipe f q n⟩))
    (hforward : ∀ r, ret = some r → forward d = true → Step (flow c) d ⟨r.val, r.bytes⟩ (flow c'))
    (hback : ∀ r, ret = some r → forward d = false → r.val = -1) :
    (x.finish t d (k', ret)).Holds cli srv a f q c' := by
  have hway : OneWay k' cli srv a f q := by
    have hcli : getFcb k' cli.pid cli.fid = some a := by
      rw [← h.way.cli]
      exact getFcb_congr (by rw [hapart.procs])
    have hsrv : getFcb k' srv.pid srv.fid = some f := by
      rw [← h.way.srv]
      exact getFcb_congr (by rw [hapart.procs])
    exact ⟨hapart.faulted.trans h.way.running, hcli, hsrv, h.way.ne,
      (hapart.stream a).trans h.way.cliStream, (hapart.stream f).trans h.way.srvStream⟩
  have hreader : c'.reader ≠ none := by rw [hends.reader]; exact h.reader
  have hwriter : c'.writer ≠ none := by rw [hends.writer]; exact h.writer
  have hold : ∀ t' d', t' ≠ t → x.calls t' = some d' →
      (∃ p buf, d' = .write .left buf ∧ k'.threads[t']? = some ⟨p, .writingPipe a q buf⟩) ∨
        ∃ p n, d' = .read .right n ∧ k'.threads[t']? = some ⟨p, .readingPipe f q n⟩ := by
    intro t' d' ht hd
    rw [hapart.threads t' ht]
    exact h.asleep t' d' hd
  cases ret with
  | none =>
    obtain ⟨hqueue, hsleeps⟩ := hasleep rfl
    have hflow : flow c' = flow c := by simp only [flow, hqueue]
    refine ⟨hcount, hway, hpipe, hwf, hreader, hwriter, fun t' d' hd => ?_, ?_, h.back, h.unshut⟩
    · by_cases ht : t' = t
      · subst ht
        obtain rfl : d = d' := by simpa [Transfer.finish] using hd
        exact hsleeps
      · exact hold t' d' ht (by simpa [Transfer.finish, ht] using hd)
    · rw [hflow]
      exact h.law
  | some r =>
    refine ⟨hcount, hway, hpipe, hwf, hreader, hwriter, fun t' d' hd => ?_, fun hall => ?_, ?_, ?_⟩
    · by_cases ht : t' = t
      · subst ht
        simp [Transfer.finish] at hd
      · exact hold t' d' ht (by simpa [Transfer.finish, ht] using hd)
    · have hprev := h.law fun d' hd' => hall d' (List.mem_append_left _ hd')
      have hlast : forward d = true := hall _ (List.mem_append_right _ (List.mem_singleton.mpr rfl))
      exact hprev.snoc (hforward r rfl hlast)
    · intro d' hd' hf
      rcases List.mem_append.mp hd' with hd' | hd'
      · exact h.back d' hd' hf
      · obtain rfl := List.mem_singleton.mp hd'
        exact hback r rfl hf
    · intro d' hd'
      rcases List.mem_append.mp hd' with hd' | hd'
      · exact h.unshut d' hd'
      · obtain rfl := List.mem_singleton.mp hd'
        exact hunshut

theorem Transfer.Holds.fail (h : x.Holds cli srv a f q c) (hcount : k'.Counted none)
    (hkeep : x.kernel.Keeps k') (hunshut : d.isShut = false) (hb : forward d = false) :
    (x.finish t d (k', some ⟨-1, [], []⟩)).Holds cli srv a f q c := by
  have hpipe : k'.pipe? q = some c := by
    rw [← h.pipe]
    simp only [IoKernel.pipe?, hkeep.pipes]
  exact h.finish hcount (hkeep.apart t) hpipe h.wf (.refl c) hunshut (fun hnone => by simp at hnone)
    (fun r _ hf => by simp [hb] at hf) fun r hr _ => by
      obtain rfl : _ = r := by simpa using hr
      rfl

/-- A stretch of a write on the client's end, whether the call starts or goes on in `k`. -/
theorem Transfer.Holds.write {k : IoKernel} {p : Pid} {buf : List UInt8}
    (h : x.Holds cli srv a f q c)
    (hcount : k'.Counted none) (hapart : x.kernel.Apart k t) (hpipes : k.pipes = x.kernel.pipes)
    (ht : (k.threads[t]?).map (·.pid) = some p)
    (hret : ret = (writePipe k t a q buf (pipeWriteWait c t buf)).2)
    (hkeep : (writePipe k t a q buf (pipeWriteWait c t buf)).1.Keeps k') :
    ∃ c', (x.finish t (.write .left buf) (k', ret)).Holds cli srv a f q c' := by
  have hq : k.pipe? q = some c := by
    rw [← h.pipe]
    simp only [IoKernel.pipe?, hpipes]
  obtain ⟨⟨p', pc⟩, hget, rfl⟩ := Option.map_eq_some_iff.mp ht
  obtain ⟨c', o, hstretch⟩ : ∃ c' o, pipeWriteWait c t buf = (c', o) := ⟨_, _, rfl⟩
  obtain ⟨hwf, hends, hsame, hsteps⟩ := write_stretch h.wf h.reader hstretch
  rw [hstretch] at hret hkeep
  have hpipe : k'.pipe? q = some c' := by
    rw [← pipe_storePipe (d := c') hq]
    cases o <;> simp only [IoKernel.pipe?, hkeep.pipes] <;> rfl
  cases o with
  | none =>
    have hthread : k'.threads[t]? = some ⟨p', .writingPipe a q buf⟩ := by
      rw [hkeep.threads]
      exact getElem?_setPc (k := storePipe k q c') hget _
    refine ⟨c', h.finish hcount ?_ hpipe hwf hends rfl
      (fun _ => ⟨hsame rfl, .inl ⟨p', buf, rfl, hthread⟩⟩)
      (fun r hr _ => ?_) fun r hr _ => ?_⟩
    · exact ((hapart.trans (storePipe_apart k q c' t)).trans (setPc_apart _ t _)).trans
        (hkeep.apart t)
    · simp [hret, writePipe] at hr
    · simp [hret, writePipe] at hr
  | some v =>
    obtain rfl : ret = some ⟨v, [], []⟩ := hret
    refine ⟨c', h.finish hcount ?_ hpipe hwf hends rfl (fun hnone => by simp at hnone)
      (fun r hr _ => ?_)
      fun r _ hf => ?_⟩
    · exact (hapart.trans (storePipe_apart k q c' t)).trans (hkeep.apart t)
    · obtain rfl : _ = r := by simpa using hr
      exact hsteps v rfl
    · simp [forward] at hf

theorem Transfer.Holds.read {k : IoKernel} {p : Pid} {n : Nat} (h : x.Holds cli srv a f q c)
    (hcount : k'.Counted none) (hapart : x.kernel.Apart k t) (hpipes : k.pipes = x.kernel.pipes)
    (ht : (k.threads[t]?).map (·.pid) = some p)
    (hret : ret = (readPipe k t f q n (pipeReadWait c t n)).2)
    (hkeep : (readPipe k t f q n (pipeReadWait c t n)).1.Keeps k') :
    ∃ c', (x.finish t (.read .right n) (k', ret)).Holds cli srv a f q c' := by
  have hq : k.pipe? q = some c := by
    rw [← h.pipe]
    simp only [IoKernel.pipe?, hpipes]
  obtain ⟨⟨p', pc⟩, hget, rfl⟩ := Option.map_eq_some_iff.mp ht
  obtain ⟨c', o, hstretch⟩ : ∃ c' o, pipeReadWait c t n = (c', o) := ⟨_, _, rfl⟩
  obtain ⟨hwf, hends, hsame, hsteps⟩ := read_stretch h.wf h.writer hstretch
  rw [hstretch] at hret hkeep
  have hpipe : k'.pipe? q = some c' := by
    rw [← pipe_storePipe (d := c') hq]
    rcases o with _ | ⟨v, bytes⟩ <;> simp only [IoKernel.pipe?, hkeep.pipes] <;> rfl
  rcases o with _ | ⟨v, bytes⟩
  · have hthread : k'.threads[t]? = some ⟨p', .readingPipe f q n⟩ := by
      rw [hkeep.threads]
      exact getElem?_setPc (k := storePipe k q c') hget _
    refine ⟨c', h.finish hcount ?_ hpipe hwf hends rfl
      (fun _ => ⟨hsame rfl, .inr ⟨p', n, rfl, hthread⟩⟩)
      (fun r hr _ => ?_) fun r hr _ => ?_⟩
    · exact ((hapart.trans (storePipe_apart k q c' t)).trans (setPc_apart _ t _)).trans
        (hkeep.apart t)
    · simp [hret, readPipe] at hr
    · simp [hret, readPipe] at hr
  · obtain rfl : ret = some ⟨v, bytes, []⟩ := hret
    refine ⟨c', h.finish hcount ?_ hpipe hwf hends rfl (fun hnone => by simp at hnone)
      (fun r hr _ => ?_)
      fun r _ hf => ?_⟩
    · exact (hapart.trans (storePipe_apart k q c' t)).trans (hkeep.apart t)
    · obtain rfl : _ = r := by simpa using hr
      exact hsteps v bytes rfl
    · simp [forward] at hf

def Transfer.AllForward (x : Transfer) : Prop := ∀ d ∈ x.done, forward d.1 = true

theorem finish_forward (hd : ret = none → forward d = true) :
    (x.finish t d (k', ret)).AllForward ↔ x.AllForward ∧ forward d = true := by
  cases ret with
  | none =>
    constructor
    · intro h
      exact ⟨h, hd rfl⟩
    · intro h
      exact h.1
  | some r => simp [Transfer.AllForward, Transfer.finish, or_imp, forall_and]

theorem start_cases {ends : End → Endpoint} {s : End} {e : IoEvent} (hcount : x.kernel.Counted none)
    (he : e.thread = some t) (hgo : ∀ dev garbage, e ≠ .proceed t dev garbage)
    (h : x.start ends t s d e = some x') :
    ∃ res k' ret, x.kernel.threads[t]? = some ⟨(ends s).pid, .user⟩ ∧
      x.kernel.call t (ends s).pid e = some res ∧ x.kernel.settle res = (k', ret) ∧
      k'.Counted none ∧ x' = x.finish t d (k', ret) := by
  unfold Transfer.start at h
  split at h
  · rename_i hpid
    obtain ⟨⟨k', ret⟩, hret, rfl⟩ := Option.map_eq_some_iff.mp h
    obtain ⟨p, res, ht, hcall, hsettle⟩ := stepRet_call he hgo hret
    obtain rfl : p = (ends s).pid := by simpa [ht] using hpid
    have hstep : x.kernel.step e = some k' := by simp [IoKernel.step, hret]
    exact ⟨res, k', ret, ht, hcall, hsettle, hcount.step hstep, rfl⟩
  · simp at h

/-- The calls on the two ends: those of the client that write and those of the server that read
go through the pipe, the other reads and writes fail, and `ShutDown` is a fault. -/
theorem Transfer.Holds.started {s : End} {l : List UInt8} {n : Nat} (h : x.Holds cli srv a f q c) :
    (x.start (endsOf cli srv) t s (.write s l) (.write t (endsOf cli srv s).fid l []) = some x' →
      (∃ c', x'.Holds cli srv a f q c') ∧ (x'.AllForward ↔ x.AllForward ∧ s = .left)) ∧
    (x.start (endsOf cli srv) t s (.read s n) (.read t (endsOf cli srv s).fid n []) = some x' →
      (∃ c', x'.Holds cli srv a f q c') ∧ (x'.AllForward ↔ x.AllForward ∧ s = .right)) := by
  constructor
  · intro hs
    obtain ⟨res, k', ret, ht, hcall, hsettle, hcount, rfl⟩ :=
      start_cases h.counted rfl (fun _ _ => by simp) hs
    obtain rfl : sysWrite x.kernel t (endsOf cli srv s).pid (endsOf cli srv s).fid l [] = res := by
      simpa [IoKernel.call] using hcall
    cases s with
    | left =>
      obtain ⟨k'', hsys, hkeep⟩ := sysWrite_writer (t := t) h.counted h.way.cli
        h.way.cliStream h.pipe l []
      have hwait : pipeWrite c t l = pipeWriteWait c t l := by simp [pipeWrite, h.reader]
      have hsys' : sysWrite x.kernel t (endsOf cli srv .left).pid (endsOf cli srv .left).fid l [] =
          _ := hsys
      rw [hsys'] at hsettle
      obtain ⟨rfl, rfl⟩ : k'' = k' ∧ _ = ret := Prod.mk.inj hsettle
      rw [hwait] at hkeep ⊢
      refine ⟨h.write hcount ⟨rfl, rfl, fun _ => rfl, fun _ _ => rfl⟩ rfl
        (congrArg _ ht) rfl hkeep, ?_⟩
      rw [finish_forward fun _ => rfl]
      simp [forward]
    | right =>
      obtain ⟨k'', hsys, hkeep⟩ := sysWrite_reader (t := t) h.counted h.way.srv h.way.srvStream l []
      have hsys' : sysWrite x.kernel t (endsOf cli srv .right).pid
          (endsOf cli srv .right).fid l [] = _ := hsys
      rw [hsys'] at hsettle
      obtain ⟨rfl, rfl⟩ : k'' = k' ∧ _ = ret := Prod.mk.inj hsettle
      refine ⟨⟨c, h.fail hcount hkeep rfl rfl⟩, ?_⟩
      rw [finish_forward fun hnone => by simp at hnone]
      simp [forward]
  · intro hs
    obtain ⟨res, k', ret, ht, hcall, hsettle, hcount, rfl⟩ :=
      start_cases h.counted rfl (fun _ _ => by simp) hs
    obtain rfl : sysRead x.kernel t (endsOf cli srv s).pid (endsOf cli srv s).fid n [] = res := by
      simpa [IoKernel.call] using hcall
    cases s with
    | left =>
      obtain ⟨k'', hsys, hkeep⟩ := sysRead_writer (t := t) h.counted h.way.cli h.way.cliStream n []
      have hsys' : sysRead x.kernel t (endsOf cli srv .left).pid (endsOf cli srv .left).fid n [] =
          _ := hsys
      rw [hsys'] at hsettle
      obtain ⟨rfl, rfl⟩ : k'' = k' ∧ _ = ret := Prod.mk.inj hsettle
      refine ⟨⟨c, h.fail hcount hkeep rfl rfl⟩, ?_⟩
      rw [finish_forward fun hnone => by simp at hnone]
      simp [forward]
    | right =>
      obtain ⟨k'', hsys, hkeep⟩ := sysRead_reader (t := t) h.counted h.way.srv
        h.way.srvStream h.pipe n []
      have hwait : pipeRead c t n = pipeReadWait c t n := by simp [pipeRead, h.reader]
      have hsys' : sysRead x.kernel t (endsOf cli srv .right).pid (endsOf cli srv .right).fid n [] =
          _ := hsys
      rw [hsys'] at hsettle
      obtain ⟨rfl, rfl⟩ : k'' = k' ∧ _ = ret := Prod.mk.inj hsettle
      rw [hwait] at hkeep ⊢
      refine ⟨h.read hcount ⟨rfl, rfl, fun _ => rfl, fun _ _ => rfl⟩ rfl
        (congrArg _ ht) rfl hkeep, ?_⟩
      rw [finish_forward fun _ => rfl]
      simp [forward]

theorem Transfer.Holds.shutDown {s : End} {how : ShutdownMode} (h : x.Holds cli srv a f q c)
    (hs : x.start (endsOf cli srv) t s d (.shutDown t (endsOf cli srv s).fid how) = some x') :
    x'.kernel.faulted = true := by
  obtain ⟨res, k', ret, ht, hcall, hsettle, -, rfl⟩ :=
    start_cases h.counted rfl (fun _ _ => by simp) hs
  have hsys : sysShutDown x.kernel (endsOf cli srv s).pid (endsOf cli srv s).fid how = none := by
    cases s with
    | left => exact sysShutDown_pipe h.way.cli h.way.cliStream how
    | right => exact sysShutDown_pipe h.way.srv h.way.srvStream how
  obtain rfl : none = res := by simpa [IoKernel.call, hsys] using hcall
  obtain ⟨rfl, rfl⟩ : _ = k' ∧ _ = ret := Prod.mk.inj hsettle
  rfl

theorem Transfer.Holds.resume (h : x.Holds cli srv a f q c)
    (hs : x.step (endsOf cli srv) (.resume t) = some x') :
    (∃ c', x'.Holds cli srv a f q c') ∧ (x'.AllForward ↔ x.AllForward) := by
  obtain ⟨d, hd, hs⟩ := Option.bind_eq_some_iff.mp hs
  obtain ⟨⟨k', ret⟩, hret, rfl⟩ := Option.map_eq_some_iff.mp hs
  have hcount : k'.Counted none := h.counted.step (e := .proceed t [] fun _ => 0)
    (by simp [IoKernel.step, hret])
  rcases h.asleep t d hd with ⟨p, buf, rfl, ht⟩ | ⟨p, n, rfl, ht⟩
  · have hne := refcount_of_user h.counted h.way.cli ht (by simp [IoPc.uses])
    obtain ⟨k'', hfin, hkeep⟩ := finish_write hne p t q buf (pipeWriteWait c t buf)
    simp only [IoKernel.stepRet, h.way.running, Bool.false_eq_true, if_false, ht, Option.bind_some,
      IoKernel.goOn, h.pipe, Option.elim_some] at hret
    split at hret
    · simp at hret
    rw [Option.map_some, Option.map_some, hfin] at hret
    obtain ⟨rfl, rfl⟩ : k'' = k' ∧ _ = ret := by simpa [IoKernel.settle] using hret
    have hawake : ((x.kernel.setPc t .user).threads[t]?).map (·.pid) = some p := by
      rw [getElem?_setPc ht]
      rfl
    refine ⟨h.write hcount (setPc_apart x.kernel t .user) rfl hawake rfl hkeep, ?_⟩
    rw [finish_forward fun _ => rfl]
    simp [forward]
  · have hne := refcount_of_user h.counted h.way.srv ht (by simp [IoPc.uses])
    obtain ⟨k'', hfin, hkeep⟩ := finish_read hne p t q n (pipeReadWait c t n)
    simp only [IoKernel.stepRet, h.way.running, Bool.false_eq_true, if_false, ht, Option.bind_some,
      IoKernel.goOn, h.pipe, Option.elim_some] at hret
    split at hret
    · simp at hret
    rw [Option.map_some, Option.map_some, hfin] at hret
    obtain ⟨rfl, rfl⟩ : k'' = k' ∧ _ = ret := by simpa [IoKernel.settle] using hret
    have hawake : ((x.kernel.setPc t .user).threads[t]?).map (·.pid) = some p := by
      rw [getElem?_setPc ht]
      rfl
    refine ⟨h.read hcount (setPc_apart x.kernel t .user) rfl hawake rfl hkeep, ?_⟩
    rw [finish_forward fun _ => rfl]
    simp [forward]

theorem Transfer.Holds.step {ev : TransferEvent} (h : x.Holds cli srv a f q c)
    (hs : x.step (endsOf cli srv) ev = some x') :
    (ev.isShut = true ∧ x'.kernel.faulted = true) ∨ (ev.isShut = false ∧
      (∃ c', x'.Holds cli srv a f q c') ∧
      (x'.AllForward ↔ x.AllForward ∧ ev.isForward = true)) := by
  cases ev with
  | write t s buf =>
    obtain ⟨hholds, hall⟩ := (h.started (n := 0)).1 hs
    refine .inr ⟨rfl, hholds, hall.trans (and_congr_right fun _ => ?_)⟩
    cases s <;> simp [TransferEvent.isForward, TransferEvent.call, forward]
  | read t s n =>
    obtain ⟨hholds, hall⟩ := (h.started (l := [])).2 hs
    refine .inr ⟨rfl, hholds, hall.trans (and_congr_right fun _ => ?_)⟩
    cases s <;> simp [TransferEvent.isForward, TransferEvent.call, forward]
  | shutDown t s how => exact .inl ⟨rfl, h.shutDown hs⟩
  | resume t =>
    obtain ⟨hholds, hall⟩ := h.resume hs
    refine .inr ⟨rfl, hholds, ?_⟩
    rw [hall]
    simp [TransferEvent.isForward, TransferEvent.call]

theorem not_step_of_faulted {ends : End → Endpoint} {ev : TransferEvent}
    (h : x.kernel.faulted = true) :
    x.step ends ev = none := by
  have hnone : ∀ e, x.kernel.stepRet e = none := by
    intro e
    simp [IoKernel.stepRet, h]
  cases ev with
  | resume t =>
    simp only [Transfer.step, hnone, Option.map_none]
    cases x.calls t <;> rfl
  | _ => simp [Transfer.step, Transfer.start, hnone]

/-- A run of calls on the connection: all is well as long as no call is a `ShutDown`, and the calls
that have returned are all forward if those that started are. -/
theorem Transfer.Holds.run {es : List TransferEvent} (h : x.Holds cli srv a f q c)
    (hrun : exec (Transfer.step (endsOf cli srv)) x es = some x') :
    ((∃ ev ∈ es, ev.isShut = true) ∧ x'.kernel.faulted = true) ∨ ((∀ ev ∈ es, ev.isShut = false) ∧
      (∃ c', x'.Holds cli srv a f q c') ∧
        (x'.AllForward ↔ x.AllForward ∧ ∀ ev ∈ es, ev.isForward = true)) := by
  induction es generalizing x c with
  | nil =>
    obtain rfl : x = x' := by simpa [exec] using hrun
    exact .inr ⟨by simp, ⟨c, h⟩, by simp⟩
  | cons ev es ih =>
    obtain ⟨y, hy, hrest⟩ := Option.bind_eq_some_iff.mp hrun
    rcases h.step hy with ⟨hshut, hfault⟩ | ⟨hshut, ⟨c', hholds⟩, hall⟩
    · cases es with
      | nil =>
        obtain rfl : y = x' := by simpa [exec] using hrest
        exact .inl ⟨⟨ev, List.mem_cons_self, hshut⟩, hfault⟩
      | cons ev' es => simp [exec, not_step_of_faulted hfault] at hrest
    · rcases ih hholds hrest with ⟨⟨ev', hev', hshut'⟩, hfault⟩ | ⟨hno, hholds', hall'⟩
      · exact .inl ⟨⟨ev', List.mem_cons_of_mem _ hev', hshut'⟩, hfault⟩
      · refine .inr ⟨List.forall_mem_cons.mpr ⟨hshut, hno⟩, hholds', ?_⟩
        rw [hall', hall, List.forall_mem_cons, and_assoc]

end Calls

end TinyOS
