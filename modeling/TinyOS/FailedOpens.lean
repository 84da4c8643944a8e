import TinyOS.FcbReserve
import TinyOS.IoEffects

/-! The calls that open streams, when they fail: which of them give back the slots and the
FCBs that they took. -/

namespace TinyOS

/-- The calls; a terminal, a port, or what `xmalloc` left in a pipe's buffer. -/
inductive OpenCall
  | null
  | terminal (termno : Nat)
  | info
  | socket (port : Int)
  | pipe (garbage : Nat → UInt8)

def OpenCall.run (k : IoKernel) (p : Pid) : OpenCall → IoResult
  | .null => sysOpenNull k p
  | .terminal termno => sysOpenTerminal k p termno
  | .info => sysOpenInfo k p
  | .socket port => (sysSocket k p port).1.ret (sysSocket k p port).2
  | .pipe garbage => sysPipe k p garbage

/-- The FIDT of `p` and the set of free FCBs are as they were. -/
structure Untouched (k : IoKernel) (p : Pid) (k' : IoKernel) : Prop where
  fidt : ∀ i, i < maxFileid → (k'.procs p).fidt i = (k.procs p).fidt i
  free : ∀ f, f ∈ k'.files.fcbFreelist ↔ f ∈ k.files.fcbFreelist

/-- Two empty slots got an FCB each, one for reading the new pipe and one for writing it. -/
structure PipeOpened (k : IoKernel) (p : Pid) (k' : IoKernel) (i j : Nat) (f g : FcbId) : Prop where
  lt : i < maxFileid ∧ j < maxFileid
  empty : (k.procs p).fidt i = none ∧ (k.procs p).fidt j = none
  slots_ne : i ≠ j
  fcbs_ne : f ≠ g
  filled : (k'.procs p).fidt i = some f ∧ (k'.procs p).fidt j = some g
  kept : ∀ l, l < maxFileid → l ≠ i → l ≠ j → (k'.procs p).fidt l = (k.procs p).fidt l
  reader : (k'.files.ft f).streamobj = .pipe k.pipes.length ∧
    (k'.files.ft f).streamfunc = some .readerFileOps
  writer : (k'.files.ft g).streamobj = .pipe k.pipes.length ∧
    (k'.files.ft g).streamfunc = some .writerFileOps

structure NoTrace (k : IoKernel) (p : Pid) (c : OpenCall) : Prop where
  failed : ∀ k' ret, c.run k p = some (k', some ret) → ret.val = -1 → Untouched k p k'
  opened : ∀ garbage k' ret, c = .pipe garbage → c.run k p = some (k', some ret) → ret.val = 0 →
    ∃ i j f g, ret.fids = [i, j] ∧ PipeOpened k p k' i j f g

section Slots

variable {fidt : Nat → Option FcbId} {i j : Nat}

theorem two_le_emptyFids (hi : i ∈ emptyFids fidt 0) (hj : j ∈ emptyFids fidt 0) (hne : i ≠ j) :
    2 ≤ (emptyFids fidt 0).length := by
  have hnd : [i, j].Nodup := by simp [hne]
  have hsub : [i, j] ⊆ emptyFids fidt 0 := by simp [hi, hj]
  exact (hnd.subperm hsub).length_le

end Slots

section Opens

variable {k k' : IoKernel} {p : Pid} {i : Nat} {f : FcbId} {rest : List FcbId} {ret : IoRet}

theorem Untouched.refl (k : IoKernel) (p : Pid) : Untouched k p k := ⟨fun _ _ => rfl, fun _ => .rfl⟩

theorem IoKernel.Free.mem_emptyFids (h : k.Free p i f rest) : i ∈ emptyFids (k.procs p).fidt 0 :=
  TinyOS.mem_emptyFids.mpr ⟨Nat.zero_le _, h.lt, h.empty⟩

theorem freeFids_eq (k : IoKernel) (p : Pid) :
    k.freeFids p = (emptyFids (k.procs p).fidt 0).length := by
  rw [IoKernel.freeFids, List.countP_eq_length_filter, emptyFids, Nat.sub_zero,
    List.range_eq_range']

theorem unreserve_untouched (h : k.Free p i f rest) :
    Untouched k p ((k.grab p i f rest).unreserve p i f) := by
  refine ⟨fun l _ => ?_, fun g => ?_⟩
  · have hback : (((k.grab p i f rest).unreserve p i f).procs p).fidt =
        Function.update ((k.grab p i f rest).procs p).fidt i none := by
      simp [IoKernel.unreserve, IoKernel.setProc, fcbUnreserve]
    rw [hback, grab_fidt, Function.update_idem, ← h.empty, Function.update_eq_self]
  · have hback : ((k.grab p i f rest).unreserve p i f).files.fcbFreelist = rest ++ [f] := rfl
    rw [hback, h.free, List.mem_append, List.mem_singleton, List.mem_cons, or_comm]

theorem openStream_failed {ops : FileOps} {obj : StreamObj} {present : Bool}
    (h : openStream k p ops obj present = some (k', some ret)) (hval : ret.val = -1) :
    Untouched k p k' := by
  have hres := reserve_spec k p
  unfold openStream at h
  generalize k.reserve p = res at hres h
  cases hres with
  | full =>
    obtain ⟨rfl, -⟩ : k = k' ∧ _ := by simpa [IoKernel.ret] using h
    exact .refl k p
  | exhausted =>
    obtain ⟨rfl, -⟩ : k = k' ∧ _ := by simpa [IoKernel.ret] using h
    exact .refl k p
  | grabbed i f rest hf =>
    cases present with
    | true =>
      obtain ⟨-, rfl⟩ : _ = k' ∧ _ = ret := by simpa [IoKernel.ret] using h
      simp only at hval
      omega
    | false =>
      obtain ⟨rfl, -⟩ : _ = k' ∧ _ = ret := by simpa [IoKernel.ret] using h
      exact unreserve_untouched hf

theorem sysOpenInfo_failed (h : sysOpenInfo k p = some (k', some ret)) (hval : ret.val = -1) :
    Untouched k p k' := by
  have hres := reserve_spec k p
  unfold sysOpenInfo at h
  generalize k.reserve p = res at hres h
  cases hres with
  | full =>
    obtain ⟨rfl, -⟩ : k = k' ∧ _ := by simpa [IoKernel.ret] using h
    exact .refl k p
  | exhausted =>
    obtain ⟨rfl, -⟩ : k = k' ∧ _ := by simpa [IoKernel.ret] using h
    exact .refl k p
  | grabbed i f rest hf =>
    obtain ⟨-, rfl⟩ : _ = k' ∧ _ = ret := by simpa [IoKernel.ret] using h
    simp only at hval
    omega

theorem sysSocket_failed {port : Int} (hval : (sysSocket k p port).2 = -1) :
    Untouched k p (sysSocket k p port).1 := by
  rcases sysSocket_cases k p port with ⟨-, he | he⟩ | ⟨i, f, rest, -, -, -, he⟩
  · rw [he]
    exact .refl k p
  · rw [he]
    refine ⟨fun l hl => ?_, fun f => .rfl⟩
    simp [IoKernel.setFidt, IoKernel.setProc, hl.ne]
  · rw [he] at hval
    simp only at hval
    omega

theorem second_slot {k1 : IoKernel} {j : Nat} {g : FcbId} {rest' : List FcbId}
    (hfidt : (k1.procs p).fidt = Function.update (k.procs p).fidt i (some f))
    (hg : k1.Free p j g rest') :
    i ≠ j ∧ (k.procs p).fidt j = none := by
  have hempty := hg.empty
  rw [hfidt] at hempty
  have hne : i ≠ j := by
    rintro rfl
    rw [Function.update_self] at hempty
    cases hempty
  exact ⟨hne, by rwa [Function.update_of_ne hne.symm] at hempty⟩

/-- The half-way failure: the FCB of the first reservation stays in its slot. -/
theorem sysPipe_stranded (h : k.halfPipe p = true) (garbage : Nat → UInt8) :
    ∃ i f rest fids, k.Free p i f rest ∧
      sysPipe k p garbage = some (k.grab p i f rest, some ⟨-1, [], i :: fids⟩) := by
  simp only [IoKernel.halfPipe, freeFids_eq, decide_eq_true_eq] at h
  obtain ⟨hslot, hfcb, hshort⟩ := h
  have hres := reserve_spec k p
  unfold sysPipe
  generalize k.reserve p = res at hres
  cases hres with
  | full hfull =>
    obtain ⟨i, hi⟩ := List.exists_mem_of_length_pos hslot
    obtain ⟨-, hlt, hnone⟩ := mem_emptyFids.mp hi
    exact absurd hnone (hfull i hlt)
  | exhausted i hnil => exact absurd hnil hfcb
  | grabbed i f rest hf =>
    have hfidt : ((k.grab p i f rest).procs p).fidt = Function.update (k.procs p).fidt i (some f) :=
      grab_fidt
    have hrest : (k.grab p i f rest).files.fcbFreelist = rest := rfl
    simp only
    refine ⟨i, f, rest, ((k.grab p i f rest).reserve p).2.fid, hf, ?_⟩
    generalize k.grab p i f rest = k1 at hfidt hrest
    have hres := reserve_spec k1 p
    generalize k1.reserve p = res at hres
    cases hres with
    | full | exhausted => rfl
    | grabbed j g rest' hg =>
      exfalso
      obtain ⟨hne, hj⟩ := second_slot hfidt hg
      have htwo := two_le_emptyFids hf.mem_emptyFids
        (mem_emptyFids.mpr ⟨Nat.zero_le _, hg.lt, hj⟩) hne
      rcases hshort with hone | hnil
      · omega
      · rw [hf.free, List.tail_cons, ← hrest, hg.free] at hnil
        cases hnil

/-- Without the half-way failure, a pipe that cannot be opened takes nothing. -/
theorem sysPipe_failed {garbage : Nat → UInt8} (h : sysPipe k p garbage = some (k', some ret))
    (hval : ret.val = -1) (hhalf : ¬ k.halfPipe p = true) : Untouched k p k' := by
  rcases sysPipe_cases h with ⟨rfl, -⟩ | ⟨i, f, rest, hf, ⟨-, -, hfail⟩ | ⟨j, g, rest', -, hret, -⟩⟩
  · exact .refl _ p
  · exact absurd (halfPipe_of_half hf hfail) hhalf
  · obtain rfl : ret = ⟨0, [], [i, j]⟩ := by simpa using hret
    simp at hval

theorem sysPipe_opened {garbage : Nat → UInt8} (hnd : k.files.fcbFreelist.Nodup)
    (h : sysPipe k p garbage = some (k', some ret)) (hval : ret.val = 0) :
    ∃ i j f g, ret.fids = [i, j] ∧ PipeOpened k p k' i j f g := by
  rcases sysPipe_cases h with ⟨-, fids, hret⟩ |
    ⟨i, f, rest, hf, ⟨-, ⟨fids, hret⟩, -⟩ | ⟨j, g, rest', hg, hret, rfl⟩⟩
  · obtain rfl : ret = ⟨-1, [], fids⟩ := by simpa using hret
    simp at hval
  · obtain rfl : ret = ⟨-1, [], i :: fids⟩ := by simpa using hret
    simp at hval
  · obtain rfl : ret = ⟨0, [], [i, j]⟩ := by simpa using hret
    obtain ⟨hne, hj⟩ := second_slot grab_fidt hg
    have hfg : f ≠ g := by
      have hrest : rest = g :: rest' := hg.free
      rintro rfl
      rw [hf.free, hrest] at hnd
      simp at hnd
    have hend : ((((k.grab p i f rest).grab p j g rest').addPipe g f garbage).procs p).fidt =
        Function.update (Function.update (k.procs p).fidt i (some f)) j (some g) := by
      have hfidt : ((k.grab p i f rest).procs p).fidt =
          Function.update (k.procs p).fidt i (some f) := grab_fidt
      rw [← hfidt]
      exact @grab_fidt (k.grab p i f rest) p g j rest'
    refine ⟨i, j, f, g, rfl, ⟨hf.lt, hg.lt⟩, ⟨hf.empty, hj⟩, hne, hfg,
      ?_, fun l _ hli hlj => ?_, ?_, ?_⟩
    · rw [hend, Function.update_self, Function.update_of_ne hne, Function.update_self]
      exact ⟨rfl, rfl⟩
    · rw [hend, Function.update_of_ne hlj, Function.update_of_ne hli]
    · simp [IoKernel.addPipe, IoKernel.setStream, FileTable.setStream, hfg]
      rfl
    · simp [IoKernel.addPipe, IoKernel.setStream, FileTable.setStream]
      rfl

end Opens

/-- Of the calls only `sys_Pipe` ever leaves a trace, and it does exactly when it fails half-way. -/
theorem failed_opens_exact (k : IoKernel) (p : Pid) (c : OpenCall)
    (hnd : k.files.fcbFreelist.Nodup) :
    NoTrace k p c ↔ ¬ ((∃ garbage, c = .pipe garbage) ∧ k.halfPipe p = true) := by
  constructor
  · rintro h ⟨⟨garbage, rfl⟩, hhalf⟩
    obtain ⟨i, f, rest, fids, hf, hrun⟩ := sysPipe_stranded hhalf garbage
    have hkept := (h.failed _ _ hrun rfl).fidt i hf.lt
    rw [grab_fidt, Function.update_self, hf.empty] at hkept
    cases hkept
  · refine fun h => ⟨fun k' ret hrun hval => ?_, fun garbage k' ret hc hrun hval => ?_⟩
    · cases c with
      | null | terminal => exact openStream_failed hrun hval
      | info => exact sysOpenInfo_failed hrun hval
      | socket port =>
        obtain ⟨rfl, rfl⟩ : _ = k' ∧ _ = ret := by simpa [OpenCall.run, IoKernel.ret] using hrun
        exact sysSocket_failed hval
      | pipe garbage => exact sysPipe_failed hrun hval fun hhalf => h ⟨⟨garbage, rfl⟩, hhalf⟩
    · subst hc
      exact sysPipe_opened hnd hrun hval

def fewSlots (used : Nat) : IoKernel :=
  { bootIo 0 with
    procs := fun _ => ⟨.alive, fun i => if i < used then some 2 else none⟩
    files := { initializeFiles with fcbFreelist := [0, 1] } }

theorem failed_opens_half : ¬ NoTrace (fewSlots 15) 1 (.pipe fun _ => 0) := by
  intro h
  have hrun : ∃ k' ret, (OpenCall.pipe fun _ => 0).run (fewSlots 15) 1 = some (k', some ret) ∧
    ret.val = -1 ∧ (k'.procs 1).fidt 15 = some 0 := ⟨_, _, rfl, rfl, rfl⟩
  obtain ⟨k', ret, hrun, hval, hslot⟩ := hrun
  have hkept := (h.failed k' ret hrun hval).fidt 15 (by decide)
  rw [hslot] at hkept
  cases hkept

theorem failed_opens_exact_two : NoTrace (fewSlots 14) 1 (.pipe fun _ => 0) :=
  (failed_opens_exact (fewSlots 14) 1 (.pipe fun _ => 0) (by decide)).mpr fun h =>
    absurd h.2 (by decide)

end TinyOS
