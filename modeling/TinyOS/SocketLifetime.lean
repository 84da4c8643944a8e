import TinyOS.PipesHeld

/-! The life of the control blocks of sockets and of the pipes between them: a pipe is never used
after it has been freed, but `socket_close` never frees a `Socket_cb`. -/

namespace TinyOS

open Counting Transition Relation

/-- The open files that the sockets were made with, while any reference to these is left. -/
abbrev SocketFiles := SockId → Option FcbId

def IoKernel.fileOf (k : IoKernel) (s : SockId) : Option FcbId := (k.core s).bind (·.fcb)

/-- What a step from `k` to `k'` makes of the files of sockets. -/
def SocketFiles.record (l : SocketFiles) (k k' : IoKernel) : SocketFiles := fun s =>
  if k.core s = none then k'.fileOf s else (l s).filter fun f => f ∉ k'.files.fcbFreelist

def stepFiles (x : IoKernel × SocketFiles) (e : IoEvent) : Option (IoKernel × SocketFiles) :=
  (x.1.step e).map fun k => (k, x.2.record x.1 k)

def IoKernel.blockedOn (k : IoKernel) (t : ThreadId) (s : SockId) : Bool :=
  match k.waits t with
  | some (.accepting s') | some (.connecting s' ..) => s' = s
  | _ => false

/-- The step ends the `Accept` or the `Connect` that thread `t` is blocked in. -/
def IoKernel.leaves (k : IoKernel) (t : ThreadId) : IoEvent → Bool
  | .proceed t' .. =>
    t' = t && match k.waits t with
      | some (.accepting s) => k.queue s ≠ [] || (k.core s).all fun c => k.portMap c.port = none
      | some (.connecting _ r expired) => expired || (k.requests[r]?).all fun req =>
        req.admitted = 1
      | _ => true
  | _ => false

/-- Socket `s` has an open fid, or a thread is inside a call on it. -/
def IoKernel.InUse (k : IoKernel) (l : SocketFiles) (s : SockId) : Prop :=
  (∃ f, l s = some f ∧ 0 < k.refs f) ∨ ∃ t, k.blockedOn t s = true

/-- The step leaves each socket an open file or a thread blocked on it. -/
def KeepsInUse (x : IoKernel × SocketFiles) (e : IoEvent) : Prop :=
  socketTraffic e = true ∧ ∀ s, s < x.1.sockets.length →
    (∃ f, x.2 s = some f ∧ ¬x.1.Frees e f) ∨ ∃ t, x.1.blockedOn t s = true ∧ x.1.leaves t e = false

/-- No file and no sleeping thread leads to a pipe that has been freed. `ShutDown` and `Close` would
get at the pipes of a peer socket, and no file leads to one, whatever its `fcb`. -/
structure IoKernel.NoDangling (k : IoKernel) : Prop where
  stream : ∀ f q, 0 < k.refs f → (k.files.stream f).1 = .pipe q → k.pipe? q ≠ none
  asleep : ∀ x ∈ k.threads, ∀ q, x.pc.onPipe q = true → k.pipe? q ≠ none
  socket : ∀ f obj pipe, socketPipe k (k.files.stream f).1 pipe = some obj → obj = .NULL
  peer : ∀ f s c, (k.files.stream f).1 = .socket s → k.sockets[s]? = some c → c.type ≠ .peer

/-- A control block of a socket or of a connection that is not in use has been freed. -/
structure IoKernel.NoLeak (k : IoKernel) (l : SocketFiles) : Prop where
  sockets : ∀ s, ¬k.InUse l s → k.sockets[s]? = none
  pipes : ∀ s w r, k.union s = some (.pipes (some w) (some r)) → ¬k.InUse l s →
    (∀ s', k.union s' = some (.pipes (some r) (some w)) → ¬k.InUse l s') →
    k.pipe? w = none ∧ k.pipe? r = none

section Files

variable {k k' : IoKernel} {l : SocketFiles} {e : IoEvent} {ret : Option IoRet}
  {s : SockId} {t : ThreadId} {f : FcbId} {p : Pid} {L : FcbId → Prop}

/-- A file that is not given up stays off the free list. -/
theorem FileEffect.stays (he : FileEffect L k k') (hL : ¬L f) (hf : f ∉ k.files.fcbFreelist) :
    f ∉ k'.files.fcbFreelist := by
  cases he with
  | same k' hv => rwa [hv.free]
  | opened p i g rest obj ops hg => exact fun hm => hf (mem_of_rest hg hm)
  | undone p i g rest hg =>
    intro hm
    have hm' : f ∈ rest ++ [g] := hm
    apply hf
    rw [hg.free]
    simpa [or_comm] using hm'
  | closed p g k' v hg hv hfree hlast hd =>
    rw [(decref_last_files hlast hd).1]
    have hne : f ≠ g := fun he => hL (he ▸ hg)
    simp [hf, hne]

theorem SocketStep.stays (hs : SocketStep k e k' ret) (hroles : SocketRoles k) (hL : ¬k.Frees e f)
    (hf : f ∉ k.files.fcbFreelist) : f ∉ k'.files.fcbFreelist := by
  have hview : ∀ {v : SocketView}, k'.view = v → v.free = k.files.fcbFreelist →
      f ∉ k'.files.fcbFreelist := by
    intro v hv hfree
    have he : k'.files.fcbFreelist = v.free := congrArg SocketView.free hv
    rwa [he, hfree]
  cases hs with
  | files hc =>
    exact files_induct (I := fun k => f ∉ k.files.fcbFreelist) hroles hf
      (fun k k' _ he hk => he.stays hL hk) hc
  | socket t p i g rest port hg h0 hmax hv =>
    have he : k'.files.fcbFreelist = rest := congrArg SocketView.free hv
    rw [he]
    exact fun hm => hf (mem_of_rest hg hm)
  | half t p garbage g rest ht hhalf hg hv =>
    have he : k'.files.fcbFreelist = rest := congrArg SocketView.free hv
    rw [he]
    exact fun hm => hf (hg ▸ List.mem_cons_of_mem g hm)
  | listen t sock g s c hl hc h0 hmax hport htype hv => exact hview hv rfl
  | accept t p s c hc hstart hout =>
    cases hout with
    | waits hk => rwa [hk.free]
    | refused hk => rwa [hk.free]
    | dropped r rest hk => rwa [hk.free]
    | admitted r rest req i g rest' a _ _ _ _ _ hg _ _ _ _ _ _ _ _ _ _ hfree =>
      rw [hfree]
      exact fun hm => hf (mem_of_rest hg hm)
  | connect t sock port g s d c lc q hwait hl hc htype hport hlc hlt hq hv => exact hview hv rfl
  | retry t s r dev garbage req hwait hwake hreq hadm hv => exact hview hv rfl
  | leave t s r expired dev garbage req v hwait hwake hreq hdone hval hv => exact hview hv rfl
  | expire t s r hwait hsleep hv => exact hview hv rfl

theorem blockedOn_iff : k.blockedOn t s = true ↔
    k.waits t = some (.accepting s) ∨ ∃ r expired, k.waits t = some (.connecting s r expired) := by
  unfold IoKernel.blockedOn
  split
  · rename_i s' hw
    simp [hw]
  · rename_i s' r expired hw
    simp [hw]
  · rename_i hacc hcon
    constructor
    · intro h
      simp at h
    · rintro (hw | ⟨r, expired, hw⟩)
      · exact absurd hw (hacc s)
      · exact absurd hw (hcon s r expired)

theorem blockedOn_congr (h : k'.waits t = k.waits t) : k'.blockedOn t s = k.blockedOn t s := by
  unfold IoKernel.blockedOn
  rw [h]

/-- A thread that is not the one to leave stays in its `Accept` or `Connect`. -/
theorem SocketStep.blocked (hs : SocketStep k e k' ret) (hroles : SocketRoles k)
    (hb : k.blockedOn t s = true) (hl : k.leaves t e = false) : k'.blockedOn t s = true := by
  have hview : ∀ {v : SocketView}, k'.view = v → v.waits = k.waits → k'.blockedOn t s = true := by
    intro v hv hw
    have he : k'.waits = v.waits := congrArg SocketView.waits hv
    rwa [blockedOn_congr (congrFun (he.trans hw) t)]
  have hmove : ∀ {t0 : ThreadId} {pc : Option IoPc},
      (∀ x, k'.waits x = if x = t0 then pc else k.waits x) →
      (t = t0 → k'.blockedOn t s = true) → k'.blockedOn t s = true := by
    intro t0 pc hw hself
    by_cases ht : t = t0
    · exact hself ht
    · rwa [blockedOn_congr ((hw t).trans (if_neg ht))]
  cases hs with
  | files hc => rwa [blockedOn_congr (congrFun (kept_of_files hroles hc).waits t)]
  | socket t p i g rest port hg h0 hmax hv => exact hview hv rfl
  | half t p garbage g rest ht hhalf hg hv => exact hview hv rfl
  | listen t sock g s c hl hc h0 hmax hport htype hv => exact hview hv rfl
  | accept t0 p s0 c hc hstart hout =>
    have hstays : t = t0 → k.waits t0 = some (.accepting s0) ∧ s0 = s ∧
        k.queue s0 = [] ∧ k.portMap c.port ≠ none := by
      rintro rfl
      rcases hstart with ⟨hnone, -⟩ | ⟨hw, -, dev, garbage, rfl⟩
      · simp [IoKernel.blockedOn, hnone] at hb
      · obtain rfl : s0 = s := by simpa [IoKernel.blockedOn, hw] using hb
        refine ⟨hw, rfl, ?_⟩
        simpa [IoKernel.leaves, hw, hc] using hl
    cases hout with
    | waits hk =>
      refine hmove hk.waits fun ht => ?_
      obtain ⟨-, rfl, -⟩ := hstays ht
      rw [ht]
      exact blockedOn_iff.mpr (.inl ((hk.waits t0).trans (if_pos rfl)))
    | refused hk hreq hport => exact hmove hk.waits fun ht => absurd hport (hstays ht).2.2.2
    | dropped r rest hk hreq hpops hq =>
      refine hmove hk.waits fun ht => ?_
      have hempty := (hstays ht).2.2.1
      rw [queue_of_union hq] at hempty
      simp [SocketUnion.requests] at hempty
    | admitted r rest req i g rest' a hpops hadm hq _ _ _ _ _ _ _ _ _ _ _ _ hwaits =>
      refine hmove hwaits fun ht => ?_
      have hempty := (hstays ht).2.2.1
      rw [queue_of_union hq] at hempty
      simp [SocketUnion.requests] at hempty
  | connect t0 sock port g s0 d c lc q hwait hl hc htype hport hlc hlt hq hv =>
    have hw : k'.waits = _ := congrArg SocketView.waits hv
    have hne : t ≠ t0 := by
      rintro rfl
      simp [IoKernel.blockedOn, hwait] at hb
    rwa [blockedOn_congr ((congrFun hw t).trans (Function.update_of_ne hne ..))]
  | retry t0 s0 r dev garbage req hwait hwake hreq hadm hv => exact hview hv rfl
  | leave t0 s0 r expired dev garbage req v hwait hwake hreq hdone hval hv =>
    have hw : k'.waits = _ := congrArg SocketView.waits hv
    have hne : t ≠ t0 := by
      rintro rfl
      rcases hdone with hadm | hexp
      · simp [IoKernel.leaves, hwait, hreq, hadm] at hl
      · simp [IoKernel.leaves, hwait, hexp] at hl
    rwa [blockedOn_congr ((congrFun hw t).trans (Function.update_of_ne hne ..))]
  | expire t0 s0 r hwait hsleep hv =>
    have hw : k'.waits = _ := congrArg SocketView.waits hv
    by_cases ht : t = t0
    · subst ht
      obtain rfl : s0 = s := by simpa [IoKernel.blockedOn, hwait] using hb
      exact blockedOn_iff.mpr (.inr ⟨r, true, (congrFun hw t).trans (Function.update_self ..)⟩)
    · rwa [blockedOn_congr ((congrFun hw t).trans (Function.update_of_ne ht ..))]

/-- A new socket has the file that it was made with, and no control block is taken away. -/
theorem SocketStep.sockets (hs : SocketStep k e k' ret) (hroles : SocketRoles k)
    (hcount : k.Counted none) (s : SockId) :
    (∀ c, k.core s = some c → ∃ c', k'.core s = some c') ∧
      ∀ c', k.core s = none → k'.core s = some c' →
        ∃ f, k'.fileOf s = some f ∧ f < maxFiles ∧ f ∉ k'.files.fcbFreelist := by
  have hkeep : k'.core s = k.core s → (∀ c, k.core s = some c → ∃ c', k'.core s = some c') ∧
      ∀ c', k.core s = none → k'.core s = some c' →
        ∃ f, k'.fileOf s = some f ∧ f < maxFiles ∧ f ∉ k'.files.fcbFreelist := by
    intro he
    rw [he]
    exact ⟨fun c hc => ⟨c, hc⟩, fun c' hnone hc' => absurd (hnone.symm.trans hc') (by simp)⟩
  have hview : ∀ {v : SocketView}, k'.view = v → v.core = k.core → _ :=
    fun hv hc => hkeep (congrFun ((congrArg SocketView.core hv).trans hc) s)
  have hfree : ∀ {f : FcbId} {rest : List FcbId}, k.files.fcbFreelist = f :: rest →
      f < maxFiles ∧ f ∉ rest := by
    intro f rest hf
    have hnd := hcount.exact.nodup
    rw [hf] at hnd
    exact ⟨hcount.exact.mem_valid f (by rw [hf]; exact List.mem_cons_self),
      (List.nodup_cons.mp hnd).1⟩
  have hnew : ∀ {c : SocketCore} {f : FcbId} {rest : List FcbId}, k.files.fcbFreelist = f :: rest →
      k'.files.fcbFreelist = rest → c.fcb = some f →
      (∀ x, k'.core x = if x = k.sockets.length then some c else k.core x) →
      (∀ c, k.core s = some c → ∃ c', k'.core s = some c') ∧
        ∀ c', k.core s = none → k'.core s = some c' →
          ∃ f, k'.fileOf s = some f ∧ f < maxFiles ∧ f ∉ k'.files.fcbFreelist := by
    intro c f rest hf hf' hfcb hcore
    obtain ⟨hv, hrest⟩ := hfree hf
    by_cases hs : s = k.sockets.length
    · have hc : k'.core s = some c := (hcore s).trans (if_pos hs)
      refine ⟨fun _ _ => ⟨c, hc⟩, fun c' _ _ => ⟨f, ?_, hv, by rwa [hf']⟩⟩
      rw [IoKernel.fileOf, hc, Option.bind_some, hfcb]
    · exact hkeep ((hcore s).trans (if_neg hs))
  cases hs with
  | files hc =>
    have hkept := kept_of_files hroles hc
    refine ⟨fun c hc => ?_, fun c' hnone hc' => ?_⟩
    · obtain ⟨c', hc', -⟩ := hkept.core s c hc
      exact ⟨c', hc'⟩
    · obtain ⟨c, hc, -⟩ := hkept.back s c' hc'
      exact absurd (hnone.symm.trans hc) (by simp)
  | socket t p i g rest port hg h0 hmax hv =>
    have hcore : k'.core = _ := congrArg SocketView.core hv
    have hf' : k'.files.fcbFreelist = rest := congrArg SocketView.free hv
    refine hnew (c := ⟨.unbound, some g, port⟩) hg.free hf' rfl fun x => ?_
    rw [hcore]
    exact Function.update_apply ..
  | half t p garbage g rest ht hhalf hg hv => exact hview hv rfl
  | listen t sock g s0 c hl hc h0 hmax hport htype hv =>
    have hcore : k'.core = _ := congrArg SocketView.core hv
    by_cases hs : s = s0
    · subst hs
      refine ⟨fun _ _ => ⟨_, (congrFun hcore s).trans (Function.update_self ..)⟩,
        fun c' hnone _ => ?_⟩
      exact absurd (hnone.symm.trans hc) (by simp)
    · exact hkeep ((congrFun hcore s).trans (Function.update_of_ne hs ..))
  | accept t0 p s0 c hc hstart hout =>
    cases hout with
    | waits hk => exact hkeep (congrFun hk.core s)
    | refused hk => exact hkeep (congrFun hk.core s)
    | dropped r rest hk => exact hkeep (congrFun hk.core s)
    | admitted r rest req i g rest' a _ _ _ _ _ hg _ hcore _ _ _ _ _ _ _ _ hfree' =>
      exact hnew hg.free hfree' rfl hcore
  | connect t0 sock port g s0 d c lc q hwait hl hc htype hport hlc hlt hq hv => exact hview hv rfl
  | retry t0 s0 r dev garbage req hwait hwake hreq hadm hv => exact hview hv rfl
  | leave t0 s0 r expired dev garbage req v hwait hwake hreq hdone hval hv => exact hview hv rfl
  | expire t0 s0 r hwait hsleep hv => exact hview hv rfl

/-- The files that the sockets still have are open, and sockets without one have a thread blocked on
them. -/
structure FilesKept (k : IoKernel) (l : SocketFiles) : Prop where
  file : ∀ s f, l s = some f → f < maxFiles ∧ f ∉ k.files.fcbFreelist
  inUse : ∀ s, s < k.sockets.length → l s ≠ none ∨ ∃ t, k.blockedOn t s = true

theorem core_none_iff : k.core s = none ↔ k.sockets.length ≤ s := by
  simp [IoKernel.core, IoKernel.field]

theorem FilesKept.step (h : FilesKept k l) (hsound : Sound k) (hok : KeepsInUse (k, l) e)
    (hs : SocketStep k e k' ret) : FilesKept k' (l.record k k') where
  file s f hf := by
    obtain ⟨-, hnew⟩ := hs.sockets hsound.roles hsound.counted s
    unfold SocketFiles.record at hf
    split at hf
    · rename_i hc
      obtain ⟨c', hc', -⟩ := Option.bind_eq_some_iff.mp hf
      obtain ⟨f', hf', hopen⟩ := hnew c' hc hc'
      obtain rfl : f' = f := Option.some.inj (hf'.symm.trans hf)
      exact hopen
    · obtain ⟨hl, hopen⟩ := Option.filter_eq_some_iff.mp hf
      exact ⟨(h.file s f hl).1, of_decide_eq_true hopen⟩
  inUse s hlt := by
    obtain ⟨-, hnew⟩ := hs.sockets hsound.roles hsound.counted s
    by_cases hc : k.core s = none
    · have hc' : k'.core s ≠ none := fun he => Nat.not_lt.mpr (core_none_iff.mp he) hlt
      obtain ⟨c', hc'⟩ := Option.ne_none_iff_exists'.mp hc'
      obtain ⟨f, hf, -⟩ := hnew c' hc hc'
      left
      simp [SocketFiles.record, hc, hf]
    · have hold : s < k.sockets.length := Nat.not_le.mp fun hle => hc (core_none_iff.mpr hle)
      rcases hok.2 s hold with ⟨f, hf, hfree⟩ | ⟨t, hb, hl⟩
      · left
        have hopen := hs.stays hsound.roles hfree (h.file s f hf).2
        have hf' : l s = some f := hf
        simp [SocketFiles.record, hc, hf', hopen]
      · exact .inr ⟨t, hs.blocked hsound.roles hb hl⟩

theorem FilesKept.inUse_of_lt (h : FilesKept k l) (hcount : k.Counted none)
    (hs : s < k.sockets.length) :
    k.InUse l s := by
  rcases h.inUse s hs with hl | hb
  · obtain ⟨f, hf⟩ := Option.ne_none_iff_exists'.mp hl
    obtain ⟨hv, hfree⟩ := h.file s f hf
    have hpos := hcount.exact.used f hv hfree
    exact .inl ⟨f, hf, by simpa using hpos⟩
  · exact .inr hb

theorem FilesKept.noLeak (h : FilesKept k l) (hcount : k.Counted none) : k.NoLeak l where
  sockets _ hs := List.getElem?_eq_none (Nat.not_lt.mp fun hlt => hs (h.inUse_of_lt hcount hlt))
  pipes _ _ _ hu hs _ := absurd (h.inUse_of_lt hcount (field_lt hu)) hs

theorem IoKernel.PipesHeld.noDangling {gone : PipeId → Prop} (h : k.PipesHeld gone)
    (hsound : Sound k) :
    k.NoDangling where
  stream f q hrefs hs := by
    have hfree := (hsound.counted.exact.inUse (Nat.add_pos_left hrefs _)).2
    obtain ⟨c, hc, -⟩ := h.held f q _ hfree (.stream hs)
    simp [hc]
  asleep x hx q hq := by
    obtain ⟨f, ops, hpc⟩ : ∃ f ops, x.pc.pipeEnd = some (f, q, ops) := by
      cases hpc : x.pc with
      | readingPipe | writingPipe =>
        obtain rfl : _ = q := by simpa [hpc, IoPc.onPipe] using hq
        exact ⟨_, _, rfl⟩
      | _ => simp [hpc, IoPc.onPipe] at hq
    obtain ⟨t, ht⟩ := List.getElem?_of_mem hx
    obtain ⟨c, hc, -⟩ := h.held f q _ (not_free_of_uses hsound.counted ht (pipeEnd_uses hpc))
      (.asleep x ops hx hpc)
    simp [hc]
  socket f obj pipe hs := socketPipe_null (hsound.roles.peerless rfl) hs
  peer f s c hs hc := hsound.roles.peerless rfl s c hs hc

theorem stepFiles_some {x x' : IoKernel × SocketFiles} (h : stepFiles x e = some x') :
    ∃ ret, x.1.stepRet e = some (x'.1, ret) ∧ x'.2 = x.2.record x.1 x'.1 := by
  obtain ⟨k', hk', rfl⟩ := Option.map_eq_some_iff.mp h
  obtain ⟨⟨k1, ret⟩, hret, rfl⟩ := Option.map_eq_some_iff.mp hk'
  exact ⟨ret, hret, rfl⟩

theorem pipesHeld_of_reach {serialPorts : Nat}
    (h : Reach stepFiles (fun _ e => socketTraffic e = true) (bootIo serialPorts, fun _ => none)
      (k, l)) :
    Sound k ∧ k.PipesHeld fun _ => False := by
  refine h.invariant (I := fun x => Sound x.1 ∧ x.1.PipesHeld fun _ => False)
    ⟨bootIo_sound serialPorts, bootIo_pipesHeld serialPorts⟩ fun x e x' hx hok hs => ?_
  obtain ⟨ret, hret, -⟩ := stepFiles_some hs
  exact ⟨(hx.1.stepRet hret).1, hx.2.step (fun _ hq => hq.elim) hx.1 hok (stepRet_cases hret).2⟩

theorem filesKept_of_reach {serialPorts : Nat}
    (h : Reach stepFiles KeepsInUse (bootIo serialPorts, fun _ => none) (k, l)) :
    Sound k ∧ FilesKept k l := by
  refine h.invariant (I := fun x => Sound x.1 ∧ FilesKept x.1 x.2)
    ⟨bootIo_sound serialPorts, fun s f hf => by simp at hf, fun s hs => by simp [bootIo] at hs⟩
    fun x e x' hx hok hs => ?_
  obtain ⟨ret, hret, hl⟩ := stepFiles_some hs
  obtain ⟨hsound, hstep⟩ := hx.1.stepRet hret
  rw [hl]
  exact ⟨hsound, hx.2.step hx.1 hok hstep⟩

/-- In no run is a freed pipe used again, or freed again, and no control block of a socket is ever
freed. So there is no leak in the runs whose steps leave each socket an open file or a thread
blocked on it. -/
theorem socket_blocks_lifetime {serialPorts : Nat}
    (h : Reach stepFiles (fun _ e => socketTraffic e = true) (bootIo serialPorts, fun _ => none)
      (k, l)) :
    k.NoDangling ∧
    (∀ e k', socketTraffic e = true → k.step e = some k' →
      (∀ s : SockId, k.sockets[s]? ≠ none → k'.sockets[s]? ≠ none) ∧
      ∀ q, q < k.pipes.length → k.pipe? q = none → k'.pipe? q = none) ∧
    (Reach stepFiles KeepsInUse (bootIo serialPorts, fun _ => none) (k, l) → k.NoLeak l) := by
  obtain ⟨hsound, hheld⟩ := pipesHeld_of_reach h
  refine ⟨hheld.noDangling hsound, fun e k' hok hs => ?_, fun hkeeps => ?_⟩
  · obtain ⟨⟨k1, ret⟩, hret, rfl⟩ := Option.map_eq_some_iff.mp hs
    have hstep := (hsound.stepRet hret).2
    refine ⟨fun s hk => ?_, fun q hq hfreed => ?_⟩
    · obtain ⟨c, hc⟩ := Option.ne_none_iff_exists'.mp hk
      obtain ⟨c', hc'⟩ := (hstep.sockets hsound.roles hsound.counted s).1 _ (core_of_get hc)
      simp [core_lt hc']
    · have hgone : k.PipesHeld (· = q) := ⟨hheld.held, fun q' hq' => hq' ▸ hfreed⟩
      exact (hgone.step (fun q' hq' => hq' ▸ hq) hsound hok (stepRet_cases hret).2).freed q rfl
  · obtain ⟨-, hkept⟩ := filesKept_of_reach hkeeps
    exact hkept.noLeak hsound.counted

def keepsInUse (x : IoKernel × SocketFiles) (e : IoEvent) : Bool :=
  socketTraffic e && (List.range x.1.sockets.length).all fun s =>
    ((x.2 s).any fun f => decide (x.1.letsGo e f < (x.1.files.ft f).refcount)) ||
      (List.range x.1.threads.length).any fun t => x.1.blockedOn t s && !x.1.leaves t e

theorem keepsInUse_spec {x : IoKernel × SocketFiles} (h : keepsInUse x e = true) :
    KeepsInUse x e := by
  obtain ⟨hok, hall⟩ := Bool.and_eq_true_iff.mp h
  refine ⟨hok, fun s hs => ?_⟩
  have hs' := List.all_eq_true.mp hall s (List.mem_range.mpr hs)
  rcases Bool.or_eq_true_iff.mp hs' with hfile | hthread
  · obtain ⟨f, hf, hlt⟩ := (Option.any_eq_true _ _).mp hfile
    exact .inl ⟨f, hf, Int.not_le.mpr (of_decide_eq_true hlt)⟩
  · obtain ⟨t, -, ht⟩ := List.any_eq_true.mp hthread
    obtain ⟨hb, hl⟩ := Bool.and_eq_true_iff.mp ht
    exact .inr ⟨t, hb, by simpa using hl⟩

theorem blockedOn_none (h : (k.threads.all fun x => x.pc.socketWait = none) = true)
    (t : ThreadId) (s : SockId) :
    k.blockedOn t s = false := by
  have hw : k.waits t = none := by
    cases ht : k.threads[t]? with
    | none => simp [IoKernel.waits, ht]
    | some x =>
      have hx := List.all_eq_true.mp h x (List.mem_of_getElem? ht)
      simpa [IoKernel.waits, ht] using hx
  simp [IoKernel.blockedOn, hw]

theorem socket_blocks_lifetime_run : ∃ (k : IoKernel) (l : SocketFiles),
    k.core 0 = some ⟨.listener, some 0, 5⟩ ∧ k.NoDangling ∧ k.NoLeak l := by
  obtain ⟨⟨k, l⟩, hk, hp⟩ := exists_reach_of_guarded stepFiles keepsInUse (bootIo 0, fun _ => none)
    [.createThread 0, .socket 0 5, .listen 0 0] (fun x => x.1.core 0 = some ⟨.listener, some 0, 5⟩)
    (by decide +kernel)
  obtain ⟨hsafe, -, hleak⟩ := socket_blocks_lifetime
    (hk.mono fun _ _ hok => (keepsInUse_spec hok).1)
  exact ⟨k, l, of_decide_eq_true hp, hsafe, hleak (hk.mono fun _ _ hok => keepsInUse_spec hok)⟩

theorem closed_socket_stays : ∃ (k : IoKernel) (l : SocketFiles),
    Reach stepFiles (fun _ e => socketTraffic e = true) (bootIo 0, fun _ => none) (k, l) ∧
    ¬k.NoLeak l := by
  have hp : ((bootIo 0).step (.socket 0 5)).any (fun k1 => decide (k1.fileOf 0 = some 0) &&
      (k1.step (.close 0 0)).any fun k2 => decide (k2.sockets.length = 1) &&
        decide ((k2.files.ft 0).refcount = 0) &&
          k2.threads.all fun x => x.pc.socketWait = none) = true := by decide +kernel
  obtain ⟨k1, hk1, hp⟩ := (Option.any_eq_true ..).mp hp
  obtain ⟨hfile, hp⟩ := Bool.and_eq_true_iff.mp hp
  obtain ⟨k2, hk2, hp⟩ := (Option.any_eq_true ..).mp hp
  obtain ⟨hp, hwaits⟩ := Bool.and_eq_true_iff.mp hp
  obtain ⟨hlen, hzero⟩ := Bool.and_eq_true_iff.mp hp
  have hfile := of_decide_eq_true hfile
  have hreach : Reach stepFiles (fun _ e => socketTraffic e = true) (bootIo 0, fun _ => none)
      (k2, (SocketFiles.record (fun _ => none) (bootIo 0) k1).record k1 k2) := by
    have h1 : stepFiles (bootIo 0, fun _ => none) (.socket 0 5) =
        some (k1, SocketFiles.record (fun _ => none) (bootIo 0) k1) := by
      simp only [stepFiles, hk1, Option.map_some]
    have h2 : stepFiles (k1, SocketFiles.record (fun _ => none) (bootIo 0) k1) (.close 0 0) =
        some (k2, (SocketFiles.record (fun _ => none) (bootIo 0) k1).record k1 k2) := by
      simp only [stepFiles, hk2, Option.map_some]
    exact (ReflTransGen.single ⟨_, rfl, h1⟩).tail ⟨_, rfl, h2⟩
  have hfree : 0 ∈ k2.files.fcbFreelist := by
    by_contra hopen
    have hexact := (pipesHeld_of_reach hreach).1.counted.exact
    have hcount := hexact.count_eq 0 (by decide) hopen
    have hpos := hexact.used 0 (by decide) hopen
    have hzero := of_decide_eq_true hzero
    omega
  refine ⟨k2, _, hreach, fun hleak => ?_⟩
  have hnone := hleak.sockets 0 (by
    rintro (⟨f, hf, -⟩ | ⟨t, hb⟩)
    · have hold : k1.core 0 ≠ none := fun he => by simp [IoKernel.fileOf, he] at hfile
      have hboot : (bootIo 0).core 0 = none := rfl
      obtain ⟨rfl, hopen⟩ : 0 = f ∧ f ∉ k2.files.fcbFreelist := by
        simpa [SocketFiles.record, hold, hboot, hfile] using hf
      exact hopen hfree
    · simp [blockedOn_none hwaits] at hb)
  exact absurd (List.getElem?_eq_none_iff.mp hnone) (by simp [of_decide_eq_true hlen])

/-- The two ends of a connection and the listener have been closed, and one of the two pipes is
still there. -/
theorem closed_pipe_stays : ∃ k : IoKernel,
    Reach IoKernel.step (fun _ e => socketTraffic e = true) (bootIo 0) k ∧
    k.union 1 = some (.pipes (some 1) (some 0)) ∧ k.union 2 = some (.pipes (some 0) (some 1)) ∧
    (∀ fd : Fin 3, getFcb k 1 fd.val = none) ∧ (∀ t s, k.blockedOn t s = false) ∧
    k.pipe? 0 ≠ none := by
  obtain ⟨k, hk, hp⟩ := exists_reach_of_guarded IoKernel.step (fun _ e => socketTraffic e)
    (bootIo 0)
    [.createThread 0, .socket 0 5, .listen 0 0, .accept 1 0 fun _ => 0, .socket 0 5, .connect 0 1 5,
      .proceed 1 [] fun _ => 0, .proceed 0 [] fun _ => 0, .close 0 0, .close 0 1, .close 0 2]
    (fun k => decide
      (k.union 1 = some (.pipes (some 1) (some 0)) ∧ k.union 2 = some (.pipes (some 0) (some 1)) ∧
      ∀ fd : Fin 3, getFcb k 1 fd.val = none) && (k.pipe? 0).isSome &&
        k.threads.all fun x => x.pc.socketWait = none) (by decide +kernel)
  obtain ⟨hp, hwaits⟩ := Bool.and_eq_true_iff.mp hp
  obtain ⟨hclosed, hpipe⟩ := Bool.and_eq_true_iff.mp hp
  obtain ⟨hclient, hpeer, hfids⟩ := of_decide_eq_true hclosed
  exact ⟨k, hk, hclient, hpeer, hfids, blockedOn_none hwaits, Option.ne_none_iff_isSome.mpr hpipe⟩

theorem socket_blocks_leak :
    (∃ (k : IoKernel) (l : SocketFiles),
      Reach stepFiles (fun _ e => socketTraffic e = true) (bootIo 0, fun _ => none) (k, l) ∧
      ¬k.NoLeak l) ∧ ∃ k : IoKernel,
        Reach IoKernel.step (fun _ e => socketTraffic e = true) (bootIo 0) k ∧
      k.union 1 = some (.pipes (some 1) (some 0)) ∧ k.union 2 = some (.pipes (some 0) (some 1)) ∧
      (∀ fd : Fin 3, getFcb k 1 fd.val = none) ∧ (∀ t s, k.blockedOn t s = false) ∧
      k.pipe? 0 ≠ none := ⟨closed_socket_stays, closed_pipe_stays⟩

end Files

end TinyOS
