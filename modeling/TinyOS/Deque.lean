import TinyOS.RlistOps

/-! Resource lists as double-ended queues: a run of pushes and pops on one sentinel, beside the same
run of a functional queue. -/

namespace TinyOS

open Ring

variable {K N : Type*}

inductive DequeOp (N : Type*)
  | pushFront (n : N)
  | pushBack (n : N)
  | popFront
  | popBack
deriving DecidableEq

def DequeOp.pushed : DequeOp N → List N
  | .pushFront n | .pushBack n => [n]
  | .popFront | .popBack => []

/-- The functional queue; a pop of the empty one answers `list`. -/
def DequeOp.apply (list : N) (xs : List N) : DequeOp N → List N × Option N
  | .pushFront n => (n :: xs, none)
  | .pushBack n => (xs ++ [n], none)
  | .popFront => (xs.tail, some (xs.headD list))
  | .popBack => (xs.dropLast, some (xs.getLastD list))

def DequeOp.Legal (h : Heap K N) (list : N) (op : DequeOp N) : Prop :=
  ∀ n ∈ op.pushed, h.IsRing n [] ∧ ∀ xs, h.IsRing list xs → n ∉ list :: xs

variable [DecidableEq N]

def DequeOp.run (h : Heap K N) (list : N) : DequeOp N → Heap K N × Option N
  | .pushFront n => (rlistPushFront h list n, none)
  | .pushBack n => (rlistPushBack h list n, none)
  | .popFront => ((rlistPopFront h list).1, some (rlistPopFront h list).2)
  | .popBack => ((rlistPopBack h list).1, some (rlistPopBack h list).2)

/-- The operation does to the list `xs` what it does to the functional queue. -/
structure DequeOp.Exact (h : Heap K N) (list : N) (xs : List N) (op : DequeOp N) : Prop where
  ring : (op.run h list).1.IsRing list (op.apply list xs).1
  returned : (op.run h list).2 = (op.apply list xs).2
  popped : ∀ n, (op.run h list).2 = some n → n ≠ list → (op.run h list).1.IsRing n []
  empty : xs = [] → op.pushed = [] → (op.run h list).1 = h
  untouched : h.Untouched (op.run h list).1 (list :: op.pushed)

def LegalRun (list : N) : Heap K N → List (DequeOp N) → Prop
  | _, [] => True
  | h, op :: ops => op.Legal h list ∧ LegalRun list (op.run h list).1 ops

def ExactRun (list : N) : Heap K N → List N → List (DequeOp N) → Prop
  | _, _, [] => True
  | h, xs, op :: ops =>
    op.Exact h list xs ∧ ExactRun list (op.run h list).1 (op.apply list xs).1 ops

def PopsShort (list : N) : List N → List (DequeOp N) → Prop
  | _, [] => True
  | xs, op :: ops => (op = .popBack → xs.length ≤ 1) ∧ PopsShort list (op.apply list xs).1 ops

variable {h : Heap K N} {list : N} {xs : List N} {op : DequeOp N} {ops : List (DequeOp N)}

theorem DequeOp.run_untouched (hw : h.WellFormed) (list : N) (op : DequeOp N) :
    h.Untouched (op.run h list).1 (list :: op.pushed) := by
  cases op with
  | pushFront n => exact rlistPushFront_untouched hw list n
  | pushBack n => exact rlistPushBack_untouched hw list n
  | popFront => exact rlistPopFront_untouched hw list
  | popBack => exact rlistPopBack_untouched hw list

theorem exact_pushFront {n : N} (hw : h.WellFormed) (hr : h.IsRing list xs)
    (hl : (DequeOp.pushFront n).Legal h list) : (DequeOp.pushFront n).Exact h list xs := by
  obtain ⟨hn, hout⟩ := hl n List.mem_cons_self
  refine ⟨?_, rfl, by simp [DequeOp.run], by simp [DequeOp.pushed], DequeOp.run_untouched hw list _⟩
  exact rlistPushFront_ring hr hn (hout xs hr)

theorem exact_pushBack {n : N} (hw : h.WellFormed) (hr : h.IsRing list xs)
    (hl : (DequeOp.pushBack n).Legal h list) : (DequeOp.pushBack n).Exact h list xs := by
  obtain ⟨hn, hout⟩ := hl n List.mem_cons_self
  refine ⟨?_, rfl, by simp [DequeOp.run], by simp [DequeOp.pushed], DequeOp.run_untouched hw list _⟩
  have hring : (rlistPushBack h list n).IsRing list (xs ++ [n]) := by
    simpa using rlistPushBack_ring hw hr hn (hout xs hr)
  exact hring

theorem exact_popFront (hw : h.WellFormed) (hr : h.IsRing list xs) :
    DequeOp.popFront.Exact h list xs := by
  have hu := DequeOp.run_untouched hw list (.popFront)
  cases xs with
  | nil =>
    have hsame := rlistPopFront_nil hr
    refine ⟨?_, ?_, ?_, fun _ _ => ?_, hu⟩
    · simpa [DequeOp.run, DequeOp.apply, hsame] using hr
    · simp [DequeOp.run, DequeOp.apply, hsame]
    · simp [DequeOp.run, hsame, eq_comm]
    · simp [DequeOp.run, hsame]
  | cons x xs =>
    obtain ⟨hx, hring, hsingle⟩ := rlistPopFront_ring hr
    refine ⟨hring, ?_, ?_, by simp, hu⟩
    · simp [DequeOp.run, DequeOp.apply, hx]
    · intro n hn _
      obtain rfl : x = n := hx.symm.trans (Option.some.inj hn)
      exact hsingle

/-- The last node comes back with all the others, so that the list is left right only when there are
none. -/
theorem exact_popBack_iff (hw : h.WellFormed) (hr : h.IsRing list xs) :
    DequeOp.popBack.Exact h list xs ↔ xs.length ≤ 1 := by
  have hu := DequeOp.run_untouched hw list (.popBack)
  rcases List.eq_nil_or_concat' xs with rfl | ⟨l, x, rfl⟩
  · have hsame := rlistPopBack_nil hw hr
    refine iff_of_true ⟨?_, ?_, ?_, fun _ _ => ?_, hu⟩ (by simp)
    · simpa [DequeOp.run, DequeOp.apply, hsame] using hr
    · simp [DequeOp.run, DequeOp.apply, hsame]
    · simp [DequeOp.run, hsame, eq_comm]
    · simp [DequeOp.run, hsame]
  · obtain ⟨hx, hring, hrest⟩ := rlistPopBack_ring hw hr
    constructor
    · intro hexact
      have hl : (rlistPopBack h list).1.IsRing list l := by
        simpa [DequeOp.run, DequeOp.apply] using hexact.ring
      simp [hl.unique hring]
    · intro hlen
      obtain rfl : l = [] := by simpa using hlen
      refine ⟨hring, ?_, ?_, by simp, hu⟩
      · simp [DequeOp.run, DequeOp.apply, hx]
      · intro n hn _
        obtain rfl : x = n := hx.symm.trans (Option.some.inj hn)
        exact hrest

theorem DequeOp.exact_iff (hw : h.WellFormed) (hr : h.IsRing list xs) (hl : op.Legal h list) :
    op.Exact h list xs ↔ (op = .popBack → xs.length ≤ 1) := by
  cases op with
  | pushFront n => exact iff_of_true (exact_pushFront hw hr hl) (by simp)
  | pushBack n => exact iff_of_true (exact_pushBack hw hr hl) (by simp)
  | popFront => exact iff_of_true (exact_popFront hw hr) (by simp)
  | popBack => simpa using exact_popBack_iff hw hr

/-- A run on a resource list is a run of the functional queue if and only if it pops from the back
of no list of two or more nodes. -/
theorem deque_exact_iff (hw : h.WellFormed) (hr : h.IsRing list xs) (hl : LegalRun list h ops) :
    ExactRun list h xs ops ↔ PopsShort list xs ops := by
  induction ops generalizing h xs with
  | nil => exact Iff.rfl
  | cons op ops ih =>
    have hstep := DequeOp.exact_iff hw hr hl.1
    constructor
    · rintro ⟨hexact, hrun⟩
      exact ⟨hstep.mp hexact, (ih hexact.untouched.wellFormed hexact.ring hl.2).mp hrun⟩
    · rintro ⟨hshort, hrun⟩
      have hexact := hstep.mpr hshort
      exact ⟨hexact, (ih hexact.untouched.wellFormed hexact.ring hl.2).mpr hrun⟩

theorem threeRing_list : threeRing.WellFormed ∧ threeRing.IsRing 0 [1, 2] :=
  ⟨⟨by decide, by decide⟩, ⟨by decide, rfl, rfl, rfl⟩⟩

theorem deque_exact_iff_pop : ExactRun 0 threeRing [1, 2] [.popFront, .popBack] ↔
    PopsShort (0 : Fin 3) [1, 2] [.popFront, .popBack] :=
  deque_exact_iff threeRing_list.1 threeRing_list.2
    (by simp [LegalRun, DequeOp.Legal, DequeOp.pushed])

/-- Two nodes, one pop from the back: the other node is gone as well. -/
theorem pop_back_empties : threeRing.WellFormed ∧ threeRing.IsRing 0 [1, 2] ∧
    LegalRun 0 threeRing [.popBack] ∧ ¬ ExactRun 0 threeRing [1, 2] [.popBack] := by
  refine ⟨threeRing_list.1, threeRing_list.2, by simp [LegalRun, DequeOp.Legal, DequeOp.pushed],
    fun hrun => ?_⟩
  have hring : (rlistPopBack threeRing 0).1.IsRing 0 [1] := hrun.1.ring
  exact absurd hring.walk.1 (by decide)

end TinyOS
