import TinyOS.IoEffects

/-! The life of a file control block: each time its count drops to zero, the `Close`
method of its stream is called once, before the block is put back. -/

namespace TinyOS

open Transition Relation

inductive FcbPhase
  | free
  | used
  | dropped
  | closed
deriving DecidableEq

/-- What may happen to FCB `f` in each phase. Between the drop of its count and its
release nothing else happens at all. -/
def FcbPhase.next (f : FcbId) : FcbPhase → FcbEvent → Option FcbPhase
  | .free, .alloc g => if g = f then some .used else some .free
  | .free, .drop g | .free, .close g | .free, .release g => if g = f then none else some .free
  | .used, .drop g => if g = f then some .dropped else some .used
  | .used, .release g => if g = f then some .free else some .used
  | .used, .alloc g | .used, .close g => if g = f then none else some .used
  | .dropped, .close g => if g = f then some .closed else none
  | .closed, .release g => if g = f then some .free else none
  | .dropped, _ | .closed, _ => none

def FileTable.phase (files : FileTable) (f : FcbId) : Option FcbPhase :=
  files.history.foldlM (FcbPhase.next f) .free

/-- Every FCB has lived as it should, and is free now or in use. -/
def FileTable.ClosesExactly (files : FileTable) : Prop :=
  ∀ f, f < maxFiles → files.phase f = some (if f ∈ files.fcbFreelist then .free else .used)

structure FileTable.Lifecycle (files : FileTable) : Prop where
  nodup : files.fcbFreelist.Nodup
  closes : files.ClosesExactly
  opened : ∀ f, f < maxFiles → f ∉ files.fcbFreelist → (files.stream f).2 ≠ none

section Lifecycle

variable {files files' : FileTable} {f g : FcbId} {rest : List FcbId}

theorem phase_append {x : FcbPhase} {es : List FcbEvent}
    (hev : files'.history = files.history ++ es)
    (h : files.phase g = some x) : files'.phase g = es.foldlM (FcbPhase.next g) x := by
  unfold FileTable.phase at h ⊢
  rw [hev, List.foldlM_append, h]
  rfl

theorem FileTable.ClosesExactly.alloc (h : files.ClosesExactly) (hnd : files.fcbFreelist.Nodup)
    (hfree : files.fcbFreelist = f :: rest) (hfree' : files'.fcbFreelist = rest)
    (hev : files'.history = files.history ++ [.alloc f]) : files'.ClosesExactly := by
  intro g hg
  have hphase := h g hg
  rw [hfree] at hnd hphase
  have hf : f ∉ rest := (List.nodup_cons.mp hnd).1
  by_cases hgf : g = f
  · subst hgf
    have hused : g ∉ files'.fcbFreelist := by rw [hfree']; exact hf
    rw [if_pos List.mem_cons_self] at hphase
    rw [phase_append hev hphase, if_neg hused]
    simp [FcbPhase.next]
  · have hne : f ≠ g := Ne.symm hgf
    rw [phase_append hev hphase, hfree']
    by_cases hgr : g ∈ rest <;> simp [hgf, hgr, hne, FcbPhase.next]

theorem FileTable.ClosesExactly.undone (h : files.ClosesExactly)
    (hfree : files.fcbFreelist = f :: rest)
    (hfree' : files'.fcbFreelist = rest ++ [f])
    (hev : files'.history = files.history ++ [.alloc f, .release f]) : files'.ClosesExactly := by
  intro g hg
  have hphase := h g hg
  rw [hfree] at hphase
  rw [phase_append hev hphase, hfree']
  by_cases hgf : g = f
  · subst hgf
    simp [FcbPhase.next]
  · have hne : f ≠ g := Ne.symm hgf
    by_cases hgr : g ∈ rest <;> simp [hgf, hgr, hne, FcbPhase.next]

theorem FileTable.ClosesExactly.closed (h : files.ClosesExactly) (hv : f < maxFiles)
    (hf : f ∉ files.fcbFreelist) (hfree' : files'.fcbFreelist = files.fcbFreelist ++ [f])
    (hev : files'.history = files.history ++ [.drop f, .close f, .release f]) :
    files'.ClosesExactly := by
  intro g hg
  have hphase := h g hg
  rw [phase_append hev hphase, hfree']
  by_cases hgf : g = f
  · subst hgf
    simp [hf, FcbPhase.next]
  · have hne : f ≠ g := Ne.symm hgf
    by_cases hgr : g ∈ files.fcbFreelist <;> simp [hgf, hgr, hne, FcbPhase.next]

/-- What the last reference leaves in the history, if the FCB has a stream. -/
theorem fcbDecref_history (hlast : (files.ft f).refcount - 1 = 0) (hs : (files.stream f).2 ≠ none) :
    (fcbDecref files f).1.history = files.history ++ [.drop f, .close f, .release f] := by
  obtain ⟨ops, hops⟩ := Option.ne_none_iff_exists'.mp hs
  have hfunc : (files.ft f).streamfunc = some ops := hops
  simp [fcbDecref, hlast, hfunc, releaseFCB, FileTable.record, FileTable.setRefcount]

theorem fcbDecref_keeps_history (hlast : (files.ft f).refcount - 1 ≠ 0) :
    (fcbDecref files f).1.history = files.history := by
  simp [fcbDecref, hlast, FileTable.setRefcount]

theorem FileTable.Lifecycle.closesExactly_decref (h : files.Lifecycle) (hv : f < maxFiles)
    (hf : f ∉ files.fcbFreelist) : (fcbDecref files f).1.ClosesExactly := by
  obtain ⟨-, hmore, hlast⟩ := fcbDecref_tables files f
  by_cases hz : (files.ft f).refcount - 1 = 0
  · exact h.closes.closed hv hf (hlast hz).1 (fcbDecref_history hz (h.opened f hv hf))
  · intro g hg
    have hphase := h.closes g hg
    rw [(hmore hz).1]
    unfold FileTable.phase at hphase ⊢
    rw [fcbDecref_keeps_history hz]
    exact hphase

end Lifecycle

section Run

variable {k k' : IoKernel} {e : IoEvent} {ret : Option IoRet} {p : Pid}
  {f : FcbId} {rest : List FcbId}

theorem FileTable.Lifecycle.view (h : k.files.Lifecycle) (hv : k.SameView k') :
    k'.files.Lifecycle where
  nodup := by rw [hv.free]; exact h.nodup
  closes g hg := by
    have hphase := h.closes g hg
    unfold FileTable.phase at hphase ⊢
    rw [hv.free, hv.events]
    exact hphase
  opened g hg hfree := by
    rw [hv.free] at hfree
    rw [hv.stream]
    exact h.opened g hg hfree

/-- The methods of streams do not touch the files. -/
theorem FileTable.Lifecycle.sameFiles (h : k.files.Lifecycle) (hf : k'.files = k.files) :
    k'.files.Lifecycle := by
  rw [hf]
  exact h

theorem FileTable.Lifecycle.openStream {i : Nat} (h : k.files.Lifecycle) (hf : k.Free p i f rest)
    (obj : StreamObj) (ops : FileOps) :
    ((k.grab p i f rest).setStream f obj ops).files.Lifecycle := by
  have hnd := h.nodup
  have hgrab : ((k.grab p i f rest).setStream f obj ops).files.fcbFreelist = rest := rfl
  have hfiles : ((k.grab p i f rest).setStream f obj ops).files =
      (k.grab p i f rest).files.setStream f obj ops := rfl
  rw [hf.free] at hnd
  refine ⟨(List.nodup_cons.mp hnd).2, ?_, fun g hg hgr => ?_⟩
  · exact h.closes.alloc h.nodup hf.free hgrab rfl
  · rw [hfiles, stream_setStream]
    by_cases hgf : g = f
    · simp [hgf]
    · rw [if_neg hgf, stream_grab]
      rw [hgrab] at hgr
      exact h.opened g hg (by simp [hf.free, hgf, hgr])

theorem FileTable.Lifecycle.setStream (h : k.files.Lifecycle) (f : FcbId) (obj : StreamObj)
    (ops : FileOps) : (k.setStream f obj ops).files.Lifecycle := by
  have hfiles : (k.setStream f obj ops).files = k.files.setStream f obj ops := rfl
  refine ⟨h.nodup, h.closes, fun g hg hfree => ?_⟩
  rw [hfiles, stream_setStream]
  split
  · simp
  · exact h.opened g hg hfree

theorem FileTable.Lifecycle.fileEffect (h : k.files.Lifecycle) {L : FcbId → Prop}
    (he : FileEffect L k k') :
    k'.files.Lifecycle := by
  cases he with
  | same k' hv => exact h.view hv
  | opened p i f rest obj ops hf => exact h.openStream hf obj ops
  | undone p i f rest hf =>
    have hnd := h.nodup
    have hperm : (rest ++ [f]).Perm (f :: rest) := List.perm_append_singleton f rest
    have hev : ((k.grab p i f rest).unreserve p i f).files.history =
        k.files.history ++ [.alloc f, .release f] := by
      simp [IoKernel.unreserve, fcbUnreserve, IoKernel.grab, releaseFCB, fcbIncref,
        FileTable.setRefcount, FileTable.record]
    rw [hf.free] at hnd
    refine ⟨hperm.nodup_iff.mpr hnd, h.closes.undone hf.free rfl hev, fun g hg hgr => ?_⟩
    have hstream : ((k.grab p i f rest).unreserve p i f).files.stream g =
        (k.grab p i f rest).files.stream g := rfl
    rw [hstream, stream_grab]
    refine h.opened g hg ?_
    rw [hf.free]
    exact mt hperm.mem_iff.mpr hgr
  | closed p f k' v hL hv hf hlast hd =>
    have hfiles : k'.files = (fcbDecref k.files f).1 := (decref_same hd).files
    obtain ⟨hfree, hstream⟩ := decref_last_files hlast hd
    refine ⟨?_, hfiles ▸ h.closesExactly_decref hv hf, fun g hg hgr => ?_⟩
    · rw [hfree]
      exact (List.nodup_append.mpr ⟨h.nodup, by simp, fun a ha b hb hab =>
        hf (by rw [← List.mem_singleton.mp hb, ← hab]; exact ha)⟩)
    · rw [hstream]
      refine h.opened g hg fun hmem => hgr ?_
      rw [hfree]
      exact List.mem_append_left _ hmem

theorem FileTable.Lifecycle.acceptLoop {t : ThreadId} {s : SockId} {garbage : Nat → UInt8}
    (h : k.files.Lifecycle) (hr : acceptLoop k t p s garbage = some (k', ret)) :
    k'.files.Lifecycle := by
  obtain ⟨c, q, -, -, ⟨-, -, -, rfl⟩ | ⟨-, -, rfl⟩ | ⟨r, rest, -, -, hreq⟩⟩ := acceptLoop_cases hr
  · exact h
  · exact h
  rcases acceptRequest_cases hreq with ⟨-, -, rfl | rfl⟩ | ⟨req, i, f, rest', a, -, hf, -, -, rfl⟩
  · exact h
  · exact h
  · have hpop : ((k.addRef s (-1)).setQueue s rest).files.Lifecycle := h
    have hsock :
        (((k.addRef s (-1)).setQueue s rest).acceptSocket p i f rest' c.port).files.Lifecycle :=
      hpop.openStream hf _ .socketFileOps
    have hpipe : ∀ {k1 : IoKernel} (w r : FcbId), k1.files.Lifecycle →
        (k1.addPipe w r garbage).files.Lifecycle := fun {k1} w r h1 =>
      (FileTable.Lifecycle.setStream (k := { k1 with pipes := _ }) h1 r _ _).setStream w _ _
    exact hpipe a f (hpipe f a hsock)

end Run

end TinyOS
