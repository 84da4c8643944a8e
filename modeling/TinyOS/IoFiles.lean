import Mathlib.Data.Fintype.Prod
import TinyOS.Lib.Counting
import TinyOS.Lib.RefCount
import TinyOS.IoMachine

/-! The references to FCBs: those of the `FIDT` slots of all processes and those of the
threads inside `sys_Read` and `sys_Write`. -/

namespace TinyOS

open Counting

def IoPc.uses (f : FcbId) : IoPc → Bool
  | .readingPipe g _ _ | .readingSerial g _ _ | .writingPipe g _ _ => g = f
  | _ => false

/-- The part of a thread's place that concerns sockets. -/
def IoPc.socketWait : IoPc → Option IoPc
  | .accepting s => some (.accepting s)
  | .connecting s r expired => some (.connecting s r expired)
  | _ => none

def IoKernel.slot (k : IoKernel) (s : Pid × Fin maxFileid) : Option FcbId := (k.procs s.1).fidt s.2

def IoKernel.slots (k : IoKernel) (f : FcbId) : Nat := occurrences k.slot (some f)

def IoKernel.users (k : IoKernel) (f : FcbId) : Nat := k.threads.countP (·.pc.uses f)

def IoKernel.refs (k : IoKernel) (f : FcbId) : Nat := k.slots f + k.users f

abbrev FileTable.Exact (files : FileTable) (refs : FcbId → Nat) : Prop :=
  RefCount.Exact (· < maxFiles) (fun f => (files.ft f).refcount) files.fcbFreelist refs

/-- Counts are exact; `held` is a reference of the running call, kept in no table. -/
structure IoKernel.Counted (k : IoKernel) (held : Option FcbId) : Prop where
  exact : k.files.Exact fun f => k.refs f + if held = some f then 1 else 0
  idle : ∀ p, (k.procs p).pstate ≠ .alive → ∀ i, i < maxFileid → (k.procs p).fidt i = none
  owner : ∀ x ∈ k.threads, x.pc ≠ .exited → (k.procs x.pid).pstate = .alive

/-- What the methods of streams leave alone. -/
structure IoKernel.SameTables (k k' : IoKernel) : Prop where
  files : k'.files = k.files
  procs : k'.procs = k.procs
  threads : k'.threads = k.threads
  requests : k'.requests = k.requests
  history : k'.history = k.history

theorem IoKernel.SameTables.refl (k : IoKernel) : k.SameTables k := ⟨rfl, rfl, rfl, rfl, rfl⟩

section Refs

variable {k k' k'' : IoKernel} {p : Pid} {f : FcbId} {i : Nat} {x : Option FcbId} {t : ThreadId}

theorem IoKernel.SameTables.trans (h : k.SameTables k') (h' : k'.SameTables k'') :
    k.SameTables k'' := ⟨h'.files.trans h.files, h'.procs.trans h.procs, h'.threads.trans h.threads,
    h'.requests.trans h.requests, h'.history.trans h.history⟩

theorem refs_congr {j : IoKernel} (hp : j.procs = k.procs) (ht : j.threads = k.threads) :
    j.refs = k.refs := by
  have hslot : j.slot = k.slot := by
    funext s
    rw [IoKernel.slot, hp]
    rfl
  funext f
  simp only [IoKernel.refs, IoKernel.slots, IoKernel.users, hslot, ht]

theorem slots_setFidt (hi : i < maxFileid) (f : FcbId) :
    (k.setFidt p i x).slots f + (if (k.procs p).fidt i = some f then 1 else 0) =
      k.slots f + if x = some f then 1 else 0 := by
  have hslot : (k.setFidt p i x).slot = Function.update k.slot (p, ⟨i, hi⟩) x := by
    funext ⟨q, j⟩
    by_cases hq : q = p
    · subst hq
      by_cases hj : j = ⟨i, hi⟩
      · subst hj
        simp [IoKernel.slot, IoKernel.setFidt, IoKernel.setProc]
      · have hne : (j : Nat) ≠ i := fun he => hj (Fin.ext he)
        simp [IoKernel.slot, IoKernel.setFidt, IoKernel.setProc, hj, hne]
    · simp [IoKernel.slot, IoKernel.setFidt, IoKernel.setProc, hq]
  rw [IoKernel.slots, hslot]
  exact occurrences_update k.slot (p, ⟨i, hi⟩) x (some f)

theorem users_setPc {y : IoThread} (ht : k.threads[t]? = some y) (pc : IoPc) (f : FcbId) :
    (k.setPc t pc).users f + (if y.pc.uses f then 1 else 0) =
      k.users f + if pc.uses f then 1 else 0 :=
  countP_modify (p := fun x : IoThread => x.pc.uses f) (f := fun x => { x with pc := pc }) ht

theorem refs_setFidt (hi : i < maxFileid) (f : FcbId) :
    (k.setFidt p i x).refs f + (if (k.procs p).fidt i = some f then 1 else 0) =
      k.refs f + if x = some f then 1 else 0 := by
  have hs := slots_setFidt (k := k) (p := p) (x := x) hi f
  have hu : (k.setFidt p i x).users f = k.users f := rfl
  simp only [IoKernel.refs]
  omega

theorem refs_setPc {y : IoThread} (ht : k.threads[t]? = some y) (pc : IoPc) (f : FcbId) :
    (k.setPc t pc).refs f + (if y.pc.uses f then 1 else 0) =
      k.refs f + if pc.uses f then 1 else 0 := by
  have hu := users_setPc ht pc f
  have hs : (k.setPc t pc).slots f = k.slots f := rfl
  simp only [IoKernel.refs]
  omega

theorem refs_setFidt_out (hi : ¬i < maxFileid) : (k.setFidt p i x).refs = k.refs := by
  have hslot : (k.setFidt p i x).slot = k.slot := by
    funext ⟨q, j⟩
    by_cases hq : q = p
    · subst hq
      have hne : (j : Nat) ≠ i := fun he => hi (he ▸ j.isLt)
      simp [IoKernel.slot, IoKernel.setFidt, IoKernel.setProc, hne]
    · simp [IoKernel.slot, IoKernel.setFidt, IoKernel.setProc, hq]
  funext f
  simp only [IoKernel.refs, IoKernel.slots, hslot]
  rfl

theorem refs_pos_of_slot (hi : i < maxFileid) (h : (k.procs p).fidt i = some f) : 0 < k.refs f := by
  have hslot : k.slot (p, ⟨i, hi⟩) = some f := h
  exact Nat.add_pos_left (occurrences_pos hslot) _

theorem getFcb_some {fd : Int} (h : getFcb k p fd = some f) :
    fd.toNat < maxFileid ∧ 0 ≤ fd ∧ (k.procs p).fidt fd.toNat = some f := by
  simp only [getFcb] at h
  split at h
  · simp at h
  · simp only [maxFileid] at *
    exact ⟨by omega, by omega, h⟩

theorem getFcb_nat (hi : i < maxFileid) : getFcb k p i = (k.procs p).fidt i := by
  have hrange : ¬((i : Int) < 0 ∨ (i : Int) ≥ maxFileid) := by omega
  simp only [getFcb, hrange, if_false, Int.toNat_natCast]

end Refs

/-! ### The methods of streams -/

section Close

variable {k k' : IoKernel} {p : Pid} {f : FcbId} {v : Int} {I : IoKernel → Prop}

theorem closePipeEnd_same {close : PipeCb → Option PipeCb} {obj : StreamObj}
    (h : closePipeEnd k close obj = some (k', v)) : k.SameTables k' := by
  cases obj with
  | NULL =>
    obtain ⟨rfl, -⟩ : k = k' ∧ _ = v := by simpa [closePipeEnd] using h
    exact .refl k
  | pipe q =>
    obtain ⟨c, -, hc⟩ := Option.map_eq_some_iff.mp h
    obtain ⟨rfl, -⟩ : _ = k' ∧ _ = v := by simpa using hc
    exact ⟨rfl, rfl, rfl, rfl, rfl⟩
  | _ => simp [closePipeEnd] at h

theorem setSocket_same (k : IoKernel) (s : SockId) (g : SocketCb → SocketCb) :
    k.SameTables (k.setSocket s g) := ⟨rfl, rfl, rfl, rfl, rfl⟩

/-- The close of either end of a pipe keeps `I`. -/
def KeptByEnds (I : IoKernel → Prop) : Prop :=
  ∀ k k' close obj v, close = pipeReaderClose ∨ close = pipeWriterClose → I k →
    closePipeEnd k close obj = some (k', v) → I k'

theorem shutDownSocket_keeps {s : SockId} {how : ShutdownMode} (hends : KeptByEnds I) (hI : I k)
    (h : shutDownSocket k s how = some (k', v)) : I k' := by
  simp only [shutDownSocket] at h
  split at h
  · simp at h
  split at h
  · obtain ⟨rfl, -⟩ : k = k' ∧ _ = v := by simpa using h
    exact hI
  split at h
  · cases how with
    | read => exact hends _ _ _ _ _ (.inl rfl) hI h
    | write => exact hends _ _ _ _ _ (.inr rfl) hI h
    | both =>
      obtain ⟨⟨k1, v1⟩, h1, h2⟩ := Option.bind_eq_some_iff.mp h
      exact hends _ _ _ _ _ (.inr rfl) (hends _ _ _ _ _ (.inl rfl) hI h1) h2
  · obtain ⟨rfl, -⟩ : k = k' ∧ _ = v := by simpa using h
    exact hI
  · simp at h

theorem sysShutDown_keeps {sock : Int} {how : ShutdownMode} (hends : KeptByEnds I) (hI : I k)
    (h : sysShutDown k p sock how = some (k', v)) : I k' := by
  simp only [sysShutDown] at h
  split at h
  · obtain ⟨rfl, -⟩ : k = k' ∧ _ = v := by simpa using h
    exact hI
  split at h
  · simp at h
  · exact shutDownSocket_keeps hends hI h

theorem socketClose_keeps {obj : StreamObj} (hends : KeptByEnds I)
    (hsockets : ∀ k sockets portMap, I k → I { k with sockets := sockets, portMap := portMap })
    (hI : I k) (h : socketClose k p obj = some (k', v)) : I k' := by
  have hset : ∀ {u : IoKernel} {s : SockId} {g : SocketCb → SocketCb}, I u → I (u.setSocket s g) :=
    fun hu => hsockets _ _ _ hu
  cases obj with
  | socket s =>
    simp only [socketClose] at h
    split at h
    · simp at h
    split at h
    · obtain ⟨rfl, -⟩ : _ = k' ∧ _ = v := by simpa using h
      exact hsockets k _ _ hI
    · obtain ⟨rfl, -⟩ : _ = k' ∧ _ = v := by simpa using h
      exact hset hI
    split at h
    · split at h
      · simp at h
      · obtain ⟨⟨k1, v1⟩, h1, h2⟩ := Option.map_eq_some_iff.mp h
        obtain ⟨rfl, -⟩ : _ = k' ∧ _ = v := by simpa using h2
        exact hset (sysShutDown_keeps hends (hset hI) h1)
    · obtain ⟨rfl, -⟩ : k = k' ∧ _ = v := by simpa using h
      exact hI
    · simp at h
  | _ => simp [socketClose] at h

theorem closeStream_keeps {ops : Option FileOps} {obj : StreamObj} (hends : KeptByEnds I)
    (hsockets : ∀ k sockets portMap, I k → I { k with sockets := sockets, portMap := portMap })
    (hI : I k) (h : closeStream k p ops obj = some (k', v)) : I k' := by
  have hret : ∀ {w : Int}, some (k, w) = some (k', v) → I k' := by
    intro w h
    obtain ⟨rfl, -⟩ : k = k' ∧ w = v := by simpa using h
    exact hI
  simp only [closeStream] at h
  split at h
  · simp at h
  · exact hret h
  · exact hret h
  · split at h
    · exact hret h
    · exact hret h
    · simp at h
  · exact hends _ _ _ _ _ (.inl rfl) hI h
  · exact hends _ _ _ _ _ (.inr rfl) hI h
  · exact socketClose_keeps hends hsockets hI h

theorem sameTables_ends (k : IoKernel) : KeptByEnds k.SameTables :=
  fun _ _ _ _ _ _ hu hc => hu.trans (closePipeEnd_same hc)

theorem sysShutDown_same {sock : Int} {how : ShutdownMode}
    (h : sysShutDown k p sock how = some (k', v)) : k.SameTables k' :=
  sysShutDown_keeps (sameTables_ends k) (.refl k) h

theorem closeStream_same {ops : Option FileOps} {obj : StreamObj}
    (h : closeStream k p ops obj = some (k', v)) : k.SameTables k' :=
  closeStream_keeps (sameTables_ends k) (fun _ _ _ hu => hu.trans ⟨rfl, rfl, rfl, rfl, rfl⟩)
    (.refl k) h

theorem fcbDecref_tables (files : FileTable) (f : FcbId) :
    (fcbDecref files f).1.ft = (files.setRefcount f ((files.ft f).refcount - 1)).ft ∧
      ((files.ft f).refcount - 1 ≠ 0 → (fcbDecref files f).1.fcbFreelist = files.fcbFreelist ∧
        (fcbDecref files f).2 = none) ∧
      ((files.ft f).refcount - 1 = 0 → (fcbDecref files f).1.fcbFreelist =
        files.fcbFreelist ++ [f] ∧
        (fcbDecref files f).2 = some ((files.ft f).streamfunc, (files.ft f).streamobj)) := by
  by_cases hz : (files.ft f).refcount - 1 = 0
  · cases hs : (files.ft f).streamfunc <;>
      simp [fcbDecref, hz, hs, releaseFCB, FileTable.record, FileTable.setRefcount]
  · simp [fcbDecref, hz, FileTable.setRefcount]

theorem fcbDecref_exact {files : FileTable} {refs refs' : FcbId → Nat} (h : files.Exact refs)
    (hf : refs f = refs' f + 1) (ho : ∀ g, g ≠ f → refs' g = refs g) :
    (fcbDecref files f).1.Exact refs' := by
  obtain ⟨hft, hmore, hlast⟩ := fcbDecref_tables files f
  have hcount : ∀ g, g ≠ f →
      (((fcbDecref files f).1.ft g).refcount : Int) = (files.ft g).refcount := by
    intro g hg
    rw [hft]
    simp [FileTable.setRefcount, hg]
  by_cases hz : (files.ft f).refcount - 1 = 0
  · rw [FileTable.Exact, (hlast hz).1]
    exact h.release_last hf hz hcount ho
  · have hc : ((fcbDecref files f).1.ft f).refcount = (files.ft f).refcount - 1 := by
      rw [hft]
      simp [FileTable.setRefcount]
    rw [FileTable.Exact, (hmore hz).1]
    exact h.release hf hc (by rw [hc]; exact hz) hcount ho

theorem decref_same (h : k.decref p f = some (k', v)) :
    ({ k with files := (fcbDecref k.files f).1 } : IoKernel).SameTables k' := by
  simp only [IoKernel.decref] at h
  split at h
  · rename_i files heq
    obtain ⟨rfl, -⟩ : _ = k' ∧ _ = v := by simpa using h
    rw [heq]
    exact .refl _
  · rename_i files ops obj heq
    rw [heq]
    exact closeStream_same h

theorem decref_exact {refs r : FcbId → Nat} (h : k.files.Exact refs) (hf : refs f = r f + 1)
    (ho : ∀ g, g ≠ f → r g = refs g) (hd : k.decref p f = some (k', v)) :
    k'.files.Exact r ∧ k'.procs = k.procs ∧ k'.threads = k.threads := by
  have hs := decref_same hd
  refine ⟨?_, hs.procs, hs.threads⟩
  rw [hs.files]
  exact fcbDecref_exact h hf ho

end Close

/-! ### Reserving -/

theorem skipUsed_spec (fidt : Nat → Option FcbId) (fuel f : Nat) (hf : f ≤ maxFileid)
    (hfuel : maxFileid ≤ f + fuel) :
    f ≤ skipUsed fidt fuel f ∧ skipUsed fidt fuel f ≤ maxFileid ∧
      (∀ j, f ≤ j → j < skipUsed fidt fuel f → fidt j ≠ none) ∧
      (skipUsed fidt fuel f < maxFileid → fidt (skipUsed fidt fuel f) = none) := by
  induction fuel generalizing f with
  | zero =>
    have hskip : skipUsed fidt 0 f = f := rfl
    rw [hskip]
    exact ⟨Nat.le_refl f, hf, fun j h1 h2 => by omega, fun h => by omega⟩
  | succ fuel ih =>
    by_cases hu : f < maxFileid ∧ fidt f ≠ none
    · have hskip : skipUsed fidt (fuel + 1) f = skipUsed fidt fuel (f + 1) := by
        simp only [skipUsed, hu, and_self, if_true, ne_eq, not_false_eq_true]
      rw [hskip]
      obtain ⟨h1, h2, h3, h4⟩ := ih (f + 1) (by omega) (by omega)
      refine ⟨by omega, h2, fun j hj hlt => ?_, h4⟩
      by_cases hjf : j = f
      · rw [hjf]
        exact hu.2
      · exact h3 j (by omega) hlt
    · have hskip : skipUsed fidt (fuel + 1) f = f := by
        simp only [skipUsed, hu, if_false]
      rw [hskip]
      exact ⟨Nat.le_refl f, hf, fun j h1 h2 => by omega, fun h => not_not.mp fun hn => hu ⟨h, hn⟩⟩

/-- The FCB `f`, first on the free list, becomes the stream of slot `i`. -/
def IoKernel.grab (k : IoKernel) (p : Pid) (i : Nat) (f : FcbId) (rest : List FcbId) : IoKernel :=
  let files := ({ k.files with fcbFreelist := rest } : FileTable).setRefcount f 0
  { k.setFidt p i (some f) with files := fcbIncref (files.record (.alloc f)) f }

/-- Slot `i` is the first empty one, and `f` the first free FCB. -/
structure IoKernel.Free (k : IoKernel) (p : Pid) (i : Nat) (f : FcbId)
    (rest : List FcbId) : Prop where
  lt : i < maxFileid
  empty : (k.procs p).fidt i = none
  least : ∀ j, j < i → (k.procs p).fidt j ≠ none
  free : k.files.fcbFreelist = f :: rest

inductive Reserved (k : IoKernel) (p : Pid) : IoKernel × Reservation → Prop
  | full (h : ∀ i, i < maxFileid → (k.procs p).fidt i ≠ none) : Reserved k p (k, ⟨[], [], false⟩)
  | exhausted (i : Nat) (h : k.files.fcbFreelist = []) : Reserved k p (k, ⟨[i], [none], false⟩)
  | grabbed (i : Nat) (f : FcbId) (rest : List FcbId) (h : k.Free p i f rest) :
    Reserved k p (k.grab p i f rest, ⟨[i], [some f], true⟩)

theorem setProc_same {k : IoKernel} {p : Pid} {fidt : Nat → Option FcbId}
    (h : fidt = (k.procs p).fidt) : k.setProc p (fun c => { c with fidt := fidt }) = k := by
  subst h
  simp [IoKernel.setProc]

theorem reserve_spec (k : IoKernel) (p : Pid) : Reserved k p (k.reserve p) := by
  obtain ⟨-, hle, hused, hfree⟩ := skipUsed_spec (k.procs p).fidt maxFileid 0
    (Nat.zero_le _) (by omega)
  by_cases hfull : skipUsed (k.procs p).fidt maxFileid 0 = maxFileid
  · have hres : k.reserve p = (k, ⟨[], [], false⟩) := by
      simp [IoKernel.reserve, fcbReserve, findFids, hfull, setProc_same]
    rw [hres]
    exact .full fun i hi => hused i (Nat.zero_le _) (by omega)
  · have hlt : skipUsed (k.procs p).fidt maxFileid 0 < maxFileid := by omega
    cases hlist : k.files.fcbFreelist with
    | nil =>
      have hres : k.reserve p = (k, ⟨[skipUsed (k.procs p).fidt maxFileid 0], [none], false⟩) := by
        simp [IoKernel.reserve, fcbReserve, findFids, hfull, acquireFCBs, acquireFCB, hlist,
          setProc_same]
      rw [hres]
      exact .exhausted _ hlist
    | cons f rest =>
      have hres : k.reserve p = (k.grab p (skipUsed (k.procs p).fidt maxFileid 0) f rest,
          ⟨[skipUsed (k.procs p).fidt maxFileid 0], [some f], true⟩) := by
        simp [IoKernel.reserve, fcbReserve, findFids, hfull, acquireFCBs, acquireFCB, hlist,
          IoKernel.grab, IoKernel.setFidt, IoKernel.setProc]
      rw [hres]
      exact .grabbed _ f rest ⟨hlt, hfree hlt, fun j hj => hused j (Nat.zero_le _) hj, hlist⟩

theorem openStream_cases {k k' : IoKernel} {p : Pid} {ops : FileOps} {obj : StreamObj}
    {present : Bool} {r : Option IoRet} (h : openStream k p ops obj present = some (k', r)) :
    k' = k ∨ ∃ i f rest, k.Free p i f rest ∧
      (k' = (k.grab p i f rest).setStream f obj ops ∨
        k' = (k.grab p i f rest).unreserve p i f) := by
  have hres := reserve_spec k p
  unfold openStream at h
  generalize k.reserve p = res at hres h
  cases hres with
  | full =>
    obtain ⟨rfl, -⟩ : k = k' ∧ _ := by simpa [IoKernel.ret] using h
    exact .inl rfl
  | exhausted =>
    obtain ⟨rfl, -⟩ : k = k' ∧ _ := by simpa [IoKernel.ret] using h
    exact .inl rfl
  | grabbed i f rest hf =>
    cases present with
    | true =>
      obtain ⟨rfl, -⟩ : _ = k' ∧ _ := by simpa [IoKernel.ret] using h
      exact .inr ⟨i, f, rest, hf, .inl rfl⟩
    | false =>
      obtain ⟨rfl, -⟩ : _ = k' ∧ _ := by simpa [IoKernel.ret] using h
      exact .inr ⟨i, f, rest, hf, .inr rfl⟩

theorem sysOpenInfo_cases {k k' : IoKernel} {p : Pid} {r : Option IoRet}
    (h : sysOpenInfo k p = some (k', r)) :
    k' = k ∨ ∃ i f rest, k.Free p i f rest ∧ k' = { (k.grab p i f rest).setStream f
      (.procinfo k.infos) .procinfoOps with infos := k.infos + 1 } := by
  have hres := reserve_spec k p
  unfold sysOpenInfo at h
  generalize k.reserve p = res at hres h
  cases hres with
  | full =>
    obtain ⟨rfl, -⟩ : k = k' ∧ _ := by simpa [IoKernel.ret] using h
    exact .inl rfl
  | exhausted =>
    obtain ⟨rfl, -⟩ : k = k' ∧ _ := by simpa [IoKernel.ret] using h
    exact .inl rfl
  | grabbed i f rest hf =>
    obtain ⟨rfl, -⟩ : _ = k' ∧ _ := by simpa [IoKernel.ret] using h
    exact .inr ⟨i, f, rest, hf, rfl⟩

theorem sysPipe_cases {k k' : IoKernel} {p : Pid} {garbage : Nat → UInt8} {r : Option IoRet}
    (h : sysPipe k p garbage = some (k', r)) :
    (k' = k ∧ ∃ fids, r = some ⟨-1, [], fids⟩) ∨ ∃ i f rest, k.Free p i f rest ∧
      ((k' = k.grab p i f rest ∧ (∃ fids, r = some ⟨-1, [], i :: fids⟩) ∧
        ((∀ j, j < maxFileid → ((k.grab p i f rest).procs p).fidt j ≠ none) ∨ rest = [])) ∨
      ∃ j g rest', (k.grab p i f rest).Free p j g rest' ∧ r = some ⟨0, [], [i, j]⟩ ∧
        k' = ((k.grab p i f rest).grab p j g rest').addPipe g f garbage) := by
  have hres := reserve_spec k p
  unfold sysPipe at h
  generalize k.reserve p = res at hres h
  cases hres with
  | full =>
    obtain ⟨rfl, rfl⟩ : k = k' ∧ _ = r := by simpa using h
    exact .inl ⟨rfl, _, rfl⟩
  | exhausted =>
    obtain ⟨rfl, rfl⟩ : k = k' ∧ _ = r := by simpa using h
    exact .inl ⟨rfl, _, rfl⟩
  | grabbed i f rest hf =>
    refine .inr ⟨i, f, rest, hf, ?_⟩
    simp only at h
    have hrest : (k.grab p i f rest).files.fcbFreelist = rest := rfl
    generalize k.grab p i f rest = k1 at h hrest
    have hres := reserve_spec k1 p
    generalize k1.reserve p = res at hres h
    cases hres with
    | full hfull =>
      obtain ⟨rfl, rfl⟩ : k1 = k' ∧ _ = r := by simpa using h
      exact .inl ⟨rfl, ⟨_, rfl⟩, .inl hfull⟩
    | exhausted j hnil =>
      obtain ⟨rfl, rfl⟩ : k1 = k' ∧ _ = r := by simpa using h
      exact .inl ⟨rfl, ⟨_, rfl⟩, .inr (hrest.symm.trans hnil)⟩
    | grabbed j g rest' hg =>
      obtain ⟨rfl, rfl⟩ : _ = k' ∧ _ = r := by simpa using h
      exact .inr ⟨j, g, rest', hg, rfl, rfl⟩

def IoKernel.NoRoom (k : IoKernel) (p : Pid) (port : Int) : Prop :=
  (port > maxPort ∨ port < noPort) ∨ (∀ i, i < maxFileid → (k.procs p).fidt i ≠ none) ∨
    k.files.fcbFreelist = []

theorem sysSocket_cases (k : IoKernel) (p : Pid) (port : Int) :
    (k.NoRoom p port ∧
      (sysSocket k p port = (k, noFile) ∨ sysSocket k p port =
        (k.setFidt p maxFileid none, noFile))) ∨
      ∃ i f rest, k.Free p i f rest ∧ 0 ≤ port ∧ port ≤ maxPort ∧ sysSocket k p port =
        (((k.grab p i f rest).setFidt p maxFileid (some f)).addSocket f port, (i : Int)) := by
  have hres := reserve_spec k p
  unfold sysSocket
  generalize k.reserve p = res at hres
  by_cases hport : port > maxPort ∨ port < noPort
  · simp only [hport, if_true]
    exact .inl ⟨.inl hport, .inl trivial⟩
  simp only [hport, if_false]
  cases hres with
  | full hfull => exact .inl ⟨.inr (.inl hfull), .inl rfl⟩
  | exhausted i hnil => exact .inl ⟨.inr (.inr hnil), .inr rfl⟩
  | grabbed i f rest hf =>
    simp only [noPort] at hport
    exact .inr ⟨i, f, rest, hf, by omega, by omega, rfl⟩

/-! ### What keeps the counts exact -/

section Counted

variable {k k' : IoKernel} {p : Pid} {f : FcbId} {i : Nat} {t : ThreadId}
  {held held' : Option FcbId} {y : IoThread}

/-- References move between the tables and the running call, or nothing moves at all. -/
theorem IoKernel.Counted.move (h : k.Counted held)
    (hft : ∀ g, (k'.files.ft g).refcount = (k.files.ft g).refcount)
    (hfree : k'.files.fcbFreelist = k.files.fcbFreelist)
    (hrefs : ∀ g, k'.refs g + (if held' = some g then 1 else 0) =
      k.refs g + if held = some g then 1 else 0)
    (hidle : ∀ p, (k'.procs p).pstate ≠ .alive → ∀ i, i < maxFileid → (k'.procs p).fidt i = none)
    (howner : ∀ x ∈ k'.threads, x.pc ≠ .exited → (k'.procs x.pid).pstate = .alive) :
    k'.Counted held' where
  exact := by
    have hexact := h.exact
    simp only [FileTable.Exact, hft, hfree, hrefs]
    exact hexact
  idle := hidle
  owner := howner

theorem IoKernel.Counted.same (h : k.Counted held)
    (hft : ∀ g, (k'.files.ft g).refcount = (k.files.ft g).refcount)
    (hfree : k'.files.fcbFreelist = k.files.fcbFreelist) (hprocs : k'.procs = k.procs)
    (hthr : k'.threads = k.threads) : k'.Counted held :=
  h.move hft hfree (fun g => by rw [refs_congr hprocs hthr]) (by rw [hprocs]; exact h.idle)
    (by rw [hprocs, hthr]; exact h.owner)

theorem IoKernel.Counted.tables (h : k.Counted held) (hs : k.SameTables k') : k'.Counted held :=
  h.same (fun g => by rw [hs.files]) (by rw [hs.files]) hs.procs hs.threads

theorem IoKernel.Counted.setStream (h : k.Counted held) (f : FcbId) (obj : StreamObj)
    (ops : FileOps) :
    (k.setStream f obj ops).Counted held := by
  refine h.same (fun g => ?_) rfl rfl rfl
  by_cases hg : g = f
  · subst hg
    simp [IoKernel.setStream, FileTable.setStream]
  · simp [IoKernel.setStream, FileTable.setStream, hg]

theorem IoKernel.Counted.idle_setFidt (h : k.Counted held) (hp : (k.procs p).pstate = .alive)
    (x : Option FcbId) (q : Pid) (hq : ((k.setFidt p i x).procs q).pstate ≠ .alive) (j : Nat)
    (hj : j < maxFileid) : ((k.setFidt p i x).procs q).fidt j = none := by
  by_cases hqp : q = p
  · subst hqp
    simp [IoKernel.setFidt, IoKernel.setProc, hp] at hq
  · simp only [IoKernel.setFidt, IoKernel.setProc, Function.update_of_ne hqp] at hq ⊢
    exact h.idle q hq j hj

theorem pstate_setFidt (k : IoKernel) (p : Pid) (i : Nat) (x : Option FcbId) (q : Pid) :
    ((k.setFidt p i x).procs q).pstate = (k.procs q).pstate := by
  by_cases hqp : q = p
  · subst hqp
    simp [IoKernel.setFidt, IoKernel.setProc]
  · simp [IoKernel.setFidt, IoKernel.setProc, hqp]

theorem IoKernel.Counted.owner_setFidt (h : k.Counted held) (x : Option FcbId) (z : IoThread)
    (hz : z ∈ (k.setFidt p i x).threads) (hpc : z.pc ≠ .exited) :
    ((k.setFidt p i x).procs z.pid).pstate = .alive := by
  rw [pstate_setFidt]
  exact h.owner z hz hpc

theorem IoKernel.Counted.takeSlot (h : k.Counted none) (hp : (k.procs p).pstate = .alive)
    (hi : i < maxFileid) (hf : (k.procs p).fidt i = some f) :
    (k.setFidt p i none).Counted (some f) := by
  refine h.move (fun _ => rfl) rfl (fun g => ?_) (h.idle_setFidt hp none) (h.owner_setFidt none)
  have hrefs := refs_setFidt (k := k) (p := p) (x := none) hi g
  rw [hf] at hrefs
  simpa using hrefs

theorem IoKernel.Counted.fillSlot (h : k.Counted (some f)) (hp : (k.procs p).pstate = .alive)
    (hi : i < maxFileid) (hf : (k.procs p).fidt i = none) :
    (k.setFidt p i (some f)).Counted none := by
  refine h.move (fun _ => rfl) rfl (fun g => ?_) (h.idle_setFidt hp _) (h.owner_setFidt _)
  have hrefs := refs_setFidt (k := k) (p := p) (x := some f) hi g
  rw [hf] at hrefs
  simpa using hrefs

theorem IoKernel.Counted.slotOut (h : k.Counted held) (hp : (k.procs p).pstate = .alive)
    (hi : ¬i < maxFileid) (x : Option FcbId) : (k.setFidt p i x).Counted held :=
  h.move (fun _ => rfl) rfl (fun g => by rw [refs_setFidt_out hi]) (h.idle_setFidt hp x)
    (h.owner_setFidt x)

theorem mem_setPc {pc : IoPc} {z : IoThread} (ht : k.threads[t]? = some y)
    (hz : z ∈ (k.setPc t pc).threads) : z ∈ k.threads ∨ z = { y with pc := pc } := by
  obtain ⟨j, hj⟩ := List.getElem?_of_mem hz
  rcases getElem?_modify_cases hj with ⟨rfl, x, hx, rfl⟩ | ⟨-, hx⟩
  · obtain rfl : x = y := Option.some.inj (hx.symm.trans ht)
    exact .inr rfl
  · exact .inl (List.mem_of_getElem? hx)

/-- The running thread changes its place, and perhaps exchanges a reference with it. -/
theorem IoKernel.Counted.setPc (h : k.Counted held) (ht : k.threads[t]? = some y)
    (hy : y.pc ≠ .exited)
    (pc : IoPc) (hrefs : ∀ g, (if pc.uses g then 1 else 0) + (if held' = some g then 1 else 0) =
      (if y.pc.uses g then 1 else 0) + if held = some g then 1 else 0) :
    (k.setPc t pc).Counted held' := by
  refine h.move (fun _ => rfl) rfl (fun g => ?_) h.idle fun z hz hpc => ?_
  · have h1 := refs_setPc ht pc g
    have h2 := hrefs g
    omega
  · rcases mem_setPc ht hz with hz | rfl
    · exact h.owner z hz hpc
    · exact h.owner y (List.mem_of_getElem? ht) hy

theorem IoKernel.Counted.decref (h : k.Counted (some f)) {v : Int}
    (hd : k.decref p f = some (k', v)) :
    k'.Counted none := by
  obtain ⟨hexact, hprocs, hthr⟩ := decref_exact (r := k.refs) h.exact (by simp)
    (fun g hg => by simp [Ne.symm hg]) hd
  refine ⟨?_, by rw [hprocs]; exact h.idle, by rw [hprocs, hthr]; exact h.owner⟩
  rw [refs_congr hprocs hthr]
  simpa using hexact

theorem IoKernel.Counted.incref (h : k.Counted none) (hf : 0 < k.refs f) :
    (k.incref f).Counted (some f) where
  exact := by
    refine h.exact.retain (i := f) (by simpa using hf) ?_ ?_ (fun g hg => ?_) fun g hg => ?_
    · simp [refs_congr (k := k) (j := k.incref f) rfl rfl]
    · simp [IoKernel.incref, fcbIncref, FileTable.setRefcount]
    · simp [IoKernel.incref, fcbIncref, FileTable.setRefcount, hg]
    · simp [refs_congr (k := k) (j := k.incref f) rfl rfl, Ne.symm hg]
  idle := h.idle
  owner := h.owner

theorem IoKernel.Counted.grab {rest : List FcbId} (h : k.Counted none)
    (hp : (k.procs p).pstate = .alive) (hf : k.Free p i f rest) :
    (k.grab p i f rest).Counted none where
  exact := by
    have hzero : k.refs f = 0 := by
      have h0 := h.exact.unused f (by rw [hf.free]; exact List.mem_cons_self)
      simpa using h0
    have hgrab : (k.grab p i f rest).refs = (k.setFidt p i (some f)).refs := refs_congr rfl rfl
    have hrefs := fun g => refs_setFidt (k := k) (p := p) (x := some f) hf.lt g
    rw [hf.empty] at hrefs
    have hexact := h.exact
    rw [FileTable.Exact, hf.free] at hexact
    refine hexact.alloc (i := f) ?_ ?_ (fun g hg => ?_) fun g hg => ?_
    · have hrf := hrefs f
      simp only [reduceCtorEq, if_false, if_true, hzero] at hrf
      simpa [hgrab] using hrf
    · simp [IoKernel.grab, fcbIncref, FileTable.setRefcount, FileTable.record]
    · simp [IoKernel.grab, fcbIncref, FileTable.setRefcount, FileTable.record, hg]
    · have hrg := hrefs g
      have hne : ¬(some f = some g) := fun he => hg (Option.some.inj he).symm
      simpa [hgrab, hne] using hrg
  idle := h.idle_setFidt hp _
  owner := h.owner_setFidt _

end Counted

end TinyOS
