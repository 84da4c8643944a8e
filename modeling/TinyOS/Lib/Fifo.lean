import TinyOS.Lib.Transition

/-! The abstract bounded queue: a store that takes as much of each batch as fits
and gives back entries in the order in which it took them. -/

namespace Fifo

open Transition

/-- A queue with the histories of what it took and what it gave back. -/
structure State (α : Type*) where
  queue : List α
  accepted : List α
  delivered : List α

inductive Op (α : Type*)
  | enqueue (batch : List α)
  | dequeue (n : Nat)

variable {α : Type*}

def State.step (cap : Nat) (s : State α) : Op α → Option (State α)
  | .enqueue batch =>
    let taken := batch.take (cap - s.queue.length)
    some { s with queue := s.queue ++ taken, accepted := s.accepted ++ taken }
  | .dequeue n =>
    some { s with queue := s.queue.drop n, delivered := s.delivered ++ s.queue.take n }

/-- Nothing is lost, duplicated or reordered, and the capacity is kept. -/
structure State.Lossless (cap : Nat) (s : State α) : Prop where
  conserved : s.accepted = s.delivered ++ s.queue
  bounded : s.queue.length ≤ cap

theorem State.Lossless.step {cap : Nat} {s t : State α} {o : Op α} (h : s.Lossless cap)
    (ho : s.step cap o = some t) : t.Lossless cap := by
  cases o with
  | enqueue batch =>
    obtain rfl := Option.some.inj ho
    refine ⟨by simp [h.conserved, List.append_assoc], ?_⟩
    have := h.bounded
    simp only [List.length_append, List.length_take]
    omega
  | dequeue n =>
    obtain rfl := Option.some.inj ho
    refine ⟨by simp [h.conserved, List.append_assoc], ?_⟩
    have := h.bounded
    simp only [List.length_drop]
    omega

theorem State.Lossless.reach {cap : Nat} {s t : State α} (h : s.Lossless cap)
    (hr : Reach (State.step cap) Always s t) : t.Lossless cap :=
  hr.invariant h fun _ _ _ hu _ he => hu.step he

theorem State.Lossless.delivered_prefix {cap : Nat} {s : State α} (h : s.Lossless cap) :
    s.delivered <+: s.accepted :=
  ⟨s.queue, h.conserved.symm⟩

end Fifo
