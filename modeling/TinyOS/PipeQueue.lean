import TinyOS.Lib.Fifo
import TinyOS.Pipe

/-! A pipe is a lossless bounded queue: the buffer between the two positions
holds the bytes accepted and not yet delivered, in order. -/

namespace TinyOS

open Transition

/-- `BUFFER[r_position ..]` cyclically, up to the free space. -/
def PipeCb.queue (p : PipeCb) : List UInt8 :=
  Cyclic.window p.buffer 4096 p.rPosition.toNat (4096 - p.emptySpace).toNat

structure PipeCb.WellFormed (p : PipeCb) : Prop where
  space_nonneg : 0 ≤ p.emptySpace
  space_le : p.emptySpace ≤ 4096
  r_nonneg : 0 ≤ p.rPosition
  r_lt : p.rPosition < 4096
  w_eq : (p.rPosition + 4096 - p.emptySpace) % 4096 = p.wPosition

theorem PipeCb.WellFormed.queue_length {p : PipeCb} (h : p.WellFormed) :
    (p.queue.length : Int) = 4096 - p.emptySpace := by
  have := h.space_le
  simp only [PipeCb.queue, Cyclic.window_length]
  omega

theorem PipeCb.WellFormed.put {p : PipeCb} (h : p.WellFormed) (hs : p.emptySpace ≠ 0)
    (b : UInt8) : (p.put b).WellFormed ∧ (p.put b).queue = p.queue ++ [b] := by
  obtain ⟨h0, hle, hr0, hr, hw⟩ := h
  have hw0 : 0 ≤ p.wPosition + 1 := by omega
  constructor
  · refine ⟨?_, ?_, hr0, hr, ?_⟩ <;>
      simp only [PipeCb.put, pipeBufferSize, Int.tmod_eq_emod_of_nonneg hw0] <;> omega
  · have hlen : (4096 - (p.emptySpace - 1)).toNat = (4096 - p.emptySpace).toNat + 1 := by omega
    have hidx : p.wPosition.toNat =
        (p.rPosition.toNat + (4096 - p.emptySpace).toNat) % 4096 := by omega
    simp only [PipeCb.queue, PipeCb.put, hlen, hidx]
    exact Cyclic.window_push _ (by omega) b

theorem PipeCb.WellFormed.get {p : PipeCb} (h : p.WellFormed) (hs : p.emptySpace ≠ 4096) :
    p.get.WellFormed ∧ p.queue = p.buffer p.rPosition.toNat :: p.get.queue := by
  obtain ⟨h0, hle, hr0, hr, hw⟩ := h
  have hr1 : 0 ≤ p.rPosition + 1 := by omega
  constructor
  · refine ⟨?_, ?_, ?_, ?_, ?_⟩ <;>
      simp only [PipeCb.get, pipeBufferSize, Int.tmod_eq_emod_of_nonneg hr1] <;> omega
  · have hlen : (4096 - p.emptySpace).toNat = (4096 - (p.emptySpace + 1)).toNat + 1 := by omega
    have hidx : ((p.rPosition + 1) % 4096).toNat = (p.rPosition.toNat + 1) % 4096 := by omega
    simp only [PipeCb.queue, PipeCb.get, pipeBufferSize, Int.tmod_eq_emod_of_nonneg hr1,
      hlen, hidx]
    exact Cyclic.window_pop _ (by omega) _

/-- What a stretch of a call leaves alone. -/
structure PipeCb.SameEnds (p p' : PipeCb) : Prop where
  reader : p'.reader = p.reader
  writer : p'.writer = p.writer

theorem PipeCb.SameEnds.refl (p : PipeCb) : p.SameEnds p := ⟨rfl, rfl⟩

theorem pipeWriteCopy_spec {p : PipeCb} (h : p.WellFormed) (buf : List UInt8) :
    (pipeWriteCopy p buf).1.WellFormed ∧ p.SameEnds (pipeWriteCopy p buf).1 ∧
    (pipeWriteCopy p buf).2 = min (buf.length : Int) p.emptySpace ∧
    (pipeWriteCopy p buf).1.queue = p.queue ++ buf.take (pipeWriteCopy p buf).2.toNat := by
  induction buf generalizing p with
  | nil =>
    have := h.space_nonneg
    exact ⟨h, .refl p, by simp [pipeWriteCopy, this], by simp [pipeWriteCopy]⟩
  | cons b buf ih =>
    by_cases hs : p.emptySpace = 0
    · refine ⟨?_, ?_, ?_, ?_⟩ <;> simp only [pipeWriteCopy, hs, ne_eq, not_true_eq_false, if_false]
      · exact h
      · exact .refl p
      · simp only [List.length_cons]
        omega
      · simp
    · obtain ⟨hput, hq⟩ := h.put hs b
      obtain ⟨hwf, hends, hcount, hqueue⟩ := ih hput
      have hspace : (p.put b).emptySpace = p.emptySpace - 1 := rfl
      have h0 := h.space_nonneg
      have hn : 0 ≤ (pipeWriteCopy (p.put b) buf).2 := by omega
      simp only [pipeWriteCopy, ne_eq, hs, not_false_eq_true, if_true]
      refine ⟨hwf, ⟨hends.reader, hends.writer⟩, ?_, ?_⟩
      · simp only [hcount, hspace, List.length_cons]
        omega
      · rw [hqueue, hq, Int.toNat_add hn (by decide), List.append_assoc]
        rfl

theorem pipeReadCopy_spec {p : PipeCb} (h : p.WellFormed) (n : Nat) :
    (pipeReadCopy p n).1.WellFormed ∧ p.SameEnds (pipeReadCopy p n).1 ∧
    (pipeReadCopy p n).2 = p.queue.take n ∧ (pipeReadCopy p n).1.queue = p.queue.drop n := by
  induction n generalizing p with
  | zero => exact ⟨h, .refl p, by simp [pipeReadCopy], by simp [pipeReadCopy]⟩
  | succ n ih =>
    by_cases hs : p.emptySpace = 4096
    · have hq : p.queue = [] := by simp [PipeCb.queue, hs]
      have hr : pipeReadCopy p (n + 1) = (p, []) := by
        simp [pipeReadCopy, hs, pipeBufferSize]
      rw [hr, hq]
      exact ⟨h, .refl p, by simp, by simp⟩
    · obtain ⟨hget, hq⟩ := h.get hs
      obtain ⟨hwf, hends, hbytes, hqueue⟩ := ih hget
      have hr : pipeReadCopy p (n + 1) = ((pipeReadCopy p.get n).1,
          p.buffer p.rPosition.toNat :: (pipeReadCopy p.get n).2) := by
        simp [pipeReadCopy, hs, pipeBufferSize]
      rw [hr, hq]
      exact ⟨hwf, ⟨hends.reader, hends.writer⟩, by simp [hbytes], by simpa using hqueue⟩

/-- Changing the wait sets changes no byte. -/
theorem PipeCb.WellFormed.withWaits {p : PipeCb} (h : p.WellFormed) (v w : CondVar) :
    ({ p with hasSpace := v, hasData := w } : PipeCb).WellFormed :=
  ⟨h.space_nonneg, h.space_le, h.r_nonneg, h.r_lt, h.w_eq⟩

/-- A write that returns, while the read end is open. -/
theorem pipeWriteWait_returns {p p' : PipeCb} {t : ThreadId} {buf : List UInt8} {k : Int}
    (h : p.WellFormed) (hr : p.reader ≠ none) (hw : pipeWriteWait p t buf = (p', some k)) :
    p'.WellFormed ∧ p.SameEnds p' ∧ k = min (buf.length : Int) p.emptySpace ∧
      p'.queue = p.queue ++ buf.take k.toNat := by
  by_cases hs : p.emptySpace = 0
  · simp [pipeWriteWait, hs, hr] at hw
  · simp only [pipeWriteWait, hs, false_and, if_false, hr, Prod.mk.injEq,
      Option.some.injEq] at hw
    obtain ⟨rfl, rfl⟩ := hw
    obtain ⟨hwf, hends, hk, hq⟩ := pipeWriteCopy_spec h buf
    exact ⟨hwf.withWaits _ _, ⟨hends.reader, hends.writer⟩, hk, hq⟩

theorem pipeReadWait_returns {p p' : PipeCb} {t : ThreadId} {n : Nat} {k : Int}
    {bytes : List UInt8} (h : p.WellFormed) (hr : pipeReadWait p t n = (p', some (k, bytes))) :
    p'.WellFormed ∧ p.SameEnds p' ∧ k = min (n : Int) (4096 - p.emptySpace) ∧
      bytes = p.queue.take n ∧ p'.queue = p.queue.drop n := by
  by_cases hs : p.emptySpace = pipeBufferSize ∧ p.writer ≠ none
  · simp [pipeReadWait, hs] at hr
  · simp only [pipeReadWait, hs, if_false, Prod.mk.injEq, Option.some.injEq] at hr
    obtain ⟨rfl, rfl, rfl⟩ := hr
    obtain ⟨hwf, hends, hbytes, hq⟩ := pipeReadCopy_spec h n
    refine ⟨hwf.withWaits _ _, ⟨hends.reader, hends.writer⟩, ?_, hbytes, hq⟩
    have := h.queue_length
    rw [hbytes, List.length_take]
    omega

/-- A call that blocks only queues its thread. -/
theorem pipeWriteWait_blocks {p p' : PipeCb} {t : ThreadId} {buf : List UInt8}
    (hw : pipeWriteWait p t buf = (p', none)) :
    p' = { p with hasSpace := kernelWait p.hasSpace t } := by
  unfold pipeWriteWait at hw
  split at hw
  · exact (Prod.mk.inj hw).1.symm
  · split at hw <;> simp at hw

theorem pipeReadWait_blocks {p p' : PipeCb} {t : ThreadId} {n : Nat}
    (hr : pipeReadWait p t n = (p', none)) :
    p' = { p with hasData := kernelWait p.hasData t } := by
  unfold pipeReadWait at hr
  split at hr
  · exact (Prod.mk.inj hr).1.symm
  · simp at hr

/-- The pipe with both ends open stands for an abstract bounded queue. -/
structure PipeState.Stands (s : PipeState) (a : Fifo.State UInt8) : Prop where
  wf : s.pipe.WellFormed
  reader : s.pipe.reader ≠ none
  writer : s.pipe.writer ≠ none
  queue : a.queue = s.pipe.queue
  accepted : a.accepted = s.accepted
  delivered : a.delivered = s.delivered

theorem PipeState.Stands.writeResult {s : PipeState} {a : Fifo.State UInt8} (h : s.Stands a)
    (t : ThreadId) (buf : List UInt8) :
    ∃ b, Reach (Fifo.State.step 4096) Always a b ∧
      (s.writeResult t buf (pipeWriteWait s.pipe t buf)).Stands b := by
  rcases hw : pipeWriteWait s.pipe t buf with ⟨p', _ | k⟩
  · obtain rfl := pipeWriteWait_blocks hw
    exact ⟨a, .refl, h.wf.withWaits _ _, h.reader, h.writer, h.queue, h.accepted, h.delivered⟩
  · obtain ⟨hwf, hends, hk, hq⟩ := pipeWriteWait_returns h.wf h.reader hw
    have hlen := h.wf.queue_length
    have htake : buf.take (4096 - s.pipe.queue.length) = buf.take k.toNat := by
      have h0 := h.wf.space_nonneg
      rw [List.take_eq_take_iff]
      omega
    refine ⟨_, .single ⟨.enqueue buf, trivial, rfl⟩, hwf, ?_, ?_, ?_, ?_, h.delivered⟩
    · exact hends.reader ▸ h.reader
    · exact hends.writer ▸ h.writer
    · simp only [h.queue, htake]
      exact hq.symm
    · simp only [h.queue, h.accepted, htake, PipeState.writeResult]

theorem PipeState.Stands.readResult {s : PipeState} {a : Fifo.State UInt8} (h : s.Stands a)
    (t : ThreadId) (n : Nat) :
    ∃ b, Reach (Fifo.State.step 4096) Always a b ∧
      (s.readResult t n (pipeReadWait s.pipe t n)).Stands b := by
  rcases hr : pipeReadWait s.pipe t n with ⟨p', _ | ⟨k, bytes⟩⟩
  · obtain rfl := pipeReadWait_blocks hr
    exact ⟨a, .refl, h.wf.withWaits _ _, h.reader, h.writer, h.queue, h.accepted, h.delivered⟩
  · obtain ⟨hwf, hends, _, rfl, hq⟩ := pipeReadWait_returns h.wf hr
    refine ⟨_, .single ⟨.dequeue n, trivial, rfl⟩, hwf, ?_, ?_, ?_, h.accepted, ?_⟩
    · exact hends.reader ▸ h.reader
    · exact hends.writer ▸ h.writer
    · simp only [h.queue]
      exact hq.symm
    · simp only [h.queue, h.delivered, PipeState.readResult]

theorem PipeState.Stands.step {s s' : PipeState} {a : Fifo.State UInt8} {e : PipeEvent}
    (h : s.Stands a) (he : s.step e = some s') :
    ∃ b, Reach (Fifo.State.step 4096) Always a b ∧ s'.Stands b := by
  cases e with
  | write t buf =>
    cases hc : s.calls t with
    | some _ => simp [PipeState.step, hc] at he
    | none =>
      simp only [PipeState.step, hc, pipeWrite, h.reader, if_false, Option.some.injEq] at he
      exact he ▸ h.writeResult t buf
  | read t n =>
    cases hc : s.calls t with
    | some _ => simp [PipeState.step, hc] at he
    | none =>
      simp only [PipeState.step, hc, pipeRead, h.reader, if_false, Option.some.injEq] at he
      exact he ▸ h.readResult t n
  | resume t =>
    cases hc : s.calls t with
    | none => simp [PipeState.step, hc] at he
    | some c =>
      cases c with
      | writing buf =>
        by_cases hm : t ∈ s.pipe.hasSpace.waitset
        · simp [PipeState.step, hc, hm] at he
        · simp only [PipeState.step, hc, hm, if_false, Option.some.injEq] at he
          exact he ▸ h.writeResult t buf
      | reading n =>
        by_cases hm : t ∈ s.pipe.hasData.waitset
        · simp [PipeState.step, hc, hm] at he
        · simp only [PipeState.step, hc, hm, if_false, Option.some.injEq] at he
          exact he ▸ h.readResult t n

theorem PipeCb.initial_wellFormed (reader writer : FcbId) (garbage : Nat → UInt8) :
    (PipeCb.initial reader writer garbage).WellFormed := by
  refine ⟨?_, ?_, ?_, ?_, ?_⟩ <;> simp [PipeCb.initial, pipeBufferSize]

theorem PipeCb.initial_queue (reader writer : FcbId) (garbage : Nat → UInt8) :
    (PipeCb.initial reader writer garbage).queue = [] := by
  simp [PipeCb.initial, pipeBufferSize, PipeCb.queue]

theorem PipeState.initial_stands (reader writer : FcbId) (garbage : Nat → UInt8) :
    (PipeState.initial reader writer garbage).Stands ⟨[], [], []⟩ := by
  exact ⟨PipeCb.initial_wellFormed reader writer garbage,
    by simp [PipeState.initial, PipeCb.initial],
    by simp [PipeState.initial,
      PipeCb.initial], PipeCb.initial_queue reader writer garbage, rfl, rfl⟩

/-- Every reachable state of a pipe with both ends open stands for a reachable
state of the bounded queue, and each call that returns is one queue operation. -/
theorem pipe_refines_fifo {reader writer : FcbId} {garbage : Nat → UInt8} {s : PipeState}
    (hs : Reach PipeState.step Always (PipeState.initial reader writer garbage) s) :
    (∃ a : Fifo.State UInt8, Reach (Fifo.State.step 4096) Always ⟨[], [], []⟩ a ∧
      a.queue = s.pipe.queue ∧ a.accepted = s.accepted ∧ a.delivered = s.delivered) ∧
    (0 ≤ s.pipe.emptySpace ∧ s.pipe.emptySpace ≤ 4096) ∧
    (0 ≤ s.pipe.wPosition ∧ s.pipe.wPosition < 4096) ∧
    (0 ≤ s.pipe.rPosition ∧ s.pipe.rPosition < 4096) ∧
    (s.pipe.rPosition + 4096 - s.pipe.emptySpace) % 4096 = s.pipe.wPosition ∧
    (∀ t buf p' k, (pipeWrite s.pipe t buf = (p', some k) ∨
        pipeWriteWait s.pipe t buf = (p', some k)) →
      k = min (buf.length : Int) s.pipe.emptySpace ∧
        p'.queue = s.pipe.queue ++ buf.take k.toNat) ∧
    (∀ t n p' k bytes, (pipeRead s.pipe t n = (p', some (k, bytes)) ∨
        pipeReadWait s.pipe t n = (p', some (k, bytes))) →
      k = min (n : Int) (4096 - s.pipe.emptySpace) ∧
        bytes = s.pipe.queue.take n ∧ p'.queue = s.pipe.queue.drop n) ∧
    s.delivered <+: s.accepted ∧ s.accepted = s.delivered ++ s.pipe.queue := by
  obtain ⟨a, ha, hR⟩ := hs.simulate (PipeState.initial_stands reader writer garbage)
    fun _ _ _ _ hu _ he => hu.step he
  have hloss : a.Lossless 4096 := Fifo.State.Lossless.reach ⟨rfl, by simp⟩ ha
  obtain ⟨h0, hle, hr0, hr, hw⟩ := hR.wf
  refine ⟨⟨a, ha, hR.queue, hR.accepted, hR.delivered⟩, ⟨h0, hle⟩, by omega, ⟨hr0, hr⟩, hw,
    fun t buf p' k hcall => ?_, fun t n p' k bytes hcall => ?_, ?_, ?_⟩
  · simp only [pipeWrite, hR.reader, if_false, or_self] at hcall
    exact (pipeWriteWait_returns hR.wf hR.reader hcall).2.2
  · simp only [pipeRead, hR.reader, if_false, or_self] at hcall
    exact (pipeReadWait_returns hR.wf hcall).2.2
  · rw [← hR.delivered, ← hR.accepted]
    exact hloss.delivered_prefix
  · rw [← hR.delivered, ← hR.accepted, ← hR.queue]
    exact hloss.conserved

/-- A reader that blocks on the empty pipe and is woken by a write. -/
theorem pipe_refines_fifo_run : ∃ s : PipeState,
    s.delivered = [1, 2] ∧ s.accepted = [1, 2, 3] ∧ s.accepted = s.delivered ++ s.pipe.queue := by
  obtain ⟨s, hs, hp⟩ := exists_reach_of_exec PipeState.step (.initial 0 1 fun _ => 0)
    [.read 1 2, .write 0 [1, 2, 3], .resume 1]
    (fun s => s.delivered = [1, 2] ∧ s.accepted = [1, 2, 3]) (by decide)
  obtain ⟨hd, ha⟩ := of_decide_eq_true hp
  exact ⟨s, hd, ha, (pipe_refines_fifo hs).2.2.2.2.2.2.2.2⟩

end TinyOS
