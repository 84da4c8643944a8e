import TinyOS.Lib.Circle
import TinyOS.CondMachine

/-! The ring of a condition variable as a list of its waiters. -/

namespace TinyOS

open Ring

variable {K N : Type*} {h : Heap K N} {a x : N} {l ws : List N}

/-- The nodes of the heap form the circle `ws`; every other one is a singleton. -/
structure RingHeap (h : Heap K N) (ws : List N) : Prop where
  wf : h.WellFormed
  circle : Circle h.succ ws

theorem RingHeap.prev_first (hr : RingHeap h (a :: l)) : (h a).prev = endOf a l :=
  hr.wf.prev_eq hr.circle.succ_last

theorem RingHeap.prev_single (hr : RingHeap h ws) (hx : x ∉ ws) : (h x).prev = x :=
  hr.wf.prev_eq (hr.circle.singleton hx)

variable [DecidableEq N]

theorem RingHeap.init (hr : RingHeap h ws) (hx : x ∉ ws) (ptr : K) :
    RingHeap (rlnodeInit h x ptr) ws := by
  have hnext : (h x).next = x := hr.circle.singleton hx
  have hprev := hr.prev_single hx
  have hn : ∀ n, (rlnodeInit h x ptr n).next = (h n).next := by
    intro n
    by_cases hnx : n = x
    · simp [rlnodeInit, hnx, hnext]
    · simp [rlnodeInit, hnx]
  have hp : ∀ n, (rlnodeInit h x ptr n).prev = (h n).prev := by
    intro n
    by_cases hnx : n = x
    · simp [rlnodeInit, hnx, hprev]
    · simp [rlnodeInit, hnx]
  have hsucc : (rlnodeInit h x ptr).succ = h.succ := funext hn
  refine ⟨⟨fun n => ?_, fun n => ?_⟩, hsucc ▸ hr.circle⟩
  · rw [hp, hn, hr.wf.prev_next]
  · rw [hn, hp, hr.wf.next_prev]

theorem RingHeap.push (hr : RingHeap h (a :: l)) (hx : x ∉ a :: l) :
    RingHeap (rlistPushBack h a x) (a :: (l ++ [x])) := by
  rw [rlistPushBack, hr.prev_first]
  exact ⟨hr.wf.rlSplice _ _, by rw [succ_rlSplice]; exact hr.circle.push hx⟩

theorem RingHeap.erase (hr : RingHeap h ws) (hx : x ∈ ws) :
    RingHeap (rlistRemove h x) (ws.erase x) := by
  have hpred : h.succ (h x).prev = x := hr.wf.next_prev x
  refine ⟨hr.wf.rlSplice _ _, ?_⟩
  rw [rlistRemove, succ_rlSplice]
  exact hr.circle.erase hx hpred hr.wf.succ_injective

/-- `cv->waitset` and the nodes of the waiters. -/
structure CondState.Ring (c : CondState) (ws : List ThreadId) : Prop where
  heap : RingHeap c.nodes ws
  first : c.waitset = ws.head?
  obj : ∀ t, (c.nodes t).obj = t

section Condition

variable {c : CondState} {ws : List ThreadId} {t : ThreadId}

theorem CondState.Ring.same {c' : CondState} (h : c.Ring ws) (hnodes : c'.nodes = c.nodes)
    (hwaitset : c'.waitset = c.waitset) : c'.Ring ws where
  heap := hnodes ▸ h.heap
  first := hwaitset.trans h.first
  obj t := by
    rw [hnodes]
    exact h.obj t

theorem bootCond_ring (n : Nat) : (bootCond n).Ring [] :=
  ⟨⟨⟨fun _ => rfl, fun _ => rfl⟩, fun _ => rfl⟩, rfl, fun _ => rfl⟩

theorem CondState.Ring.init (hr : c.Ring ws) (ht : t ∉ ws) :
    ({ c with nodes := rlnodeInit c.nodes t t } : CondState).Ring ws := by
  refine ⟨hr.heap.init ht t, hr.first, fun u => ?_⟩
  show (rlnodeInit c.nodes t t u).obj = u
  by_cases hu : u = t
  · simp [rlnodeInit, hu]
  · simpa [rlnodeInit, hu] using hr.obj u

theorem CondState.Ring.enter (hr : c.Ring ws) (ht : t ∉ ws) : (c.enter t).Ring (ws ++ [t]) := by
  have hfirst := hr.first
  unfold CondState.enter
  cases ws with
  | nil =>
    rw [hfirst]
    exact ⟨⟨hr.heap.wf, hr.heap.circle.start t⟩, rfl, hr.obj⟩
  | cons a l =>
    rw [hfirst]
    refine ⟨hr.heap.push ht, rfl, fun u => ?_⟩
    show (rlistPushBack c.nodes a t u).obj = u
    rw [rlistPushBack_obj]
    exact hr.obj u

theorem removeFromRing_nodes (c : CondState) (w : ThreadId) :
    (removeFromRing c w).nodes = rlistRemove c.nodes w := by
  unfold removeFromRing
  split <;> rfl

@[simp] theorem removeFromRing_threads (c : CondState) (w : ThreadId) :
    (removeFromRing c w).threads = c.threads := by
  unfold removeFromRing
  split <;> rfl

@[simp] theorem removeFromRing_lock (c : CondState) (w : ThreadId) :
    (removeFromRing c w).waitsetLock = c.waitsetLock := by
  unfold removeFromRing
  split <;> rfl

@[simp] theorem removeFromRing_entries (c : CondState) (w : ThreadId) :
    (removeFromRing c w).entries = c.entries := by
  unfold removeFromRing
  split <;> rfl

theorem removeFromRing_waitset (c : CondState) (w : ThreadId) :
    (removeFromRing c w).waitset =
      if c.waitset = some w then
        (if (c.nodes (c.nodes w).next).obj = w then none else some (c.nodes (c.nodes w).next).obj)
      else c.waitset := by
  unfold removeFromRing
  split <;> rfl

/-- `waitset` is made safe when it is the first waiter that is cut out. -/
theorem CondState.Ring.remove (hr : c.Ring ws) {w : ThreadId} (hw : w ∈ ws) :
    (removeFromRing c w).Ring (ws.erase w) := by
  refine ⟨?_, ?_, fun u => ?_⟩
  · rw [removeFromRing_nodes]
    exact hr.heap.erase hw
  · rw [removeFromRing_waitset, hr.first]
    cases ws with
    | nil => simp at hw
    | cons a l =>
      by_cases ha : a = w
      · subst ha
        have hnext : (c.nodes a).next = l.headD a := hr.heap.circle.succ_first
        rw [List.head?_cons, if_pos rfl, hr.obj, hnext, List.erase_cons_head]
        cases l with
        | nil => simp
        | cons b l =>
          have hab : b ≠ a := by
            rintro rfl
            exact absurd List.mem_cons_self (List.nodup_cons.mp hr.heap.circle.nodup).1
          simp [hab]
      · rw [List.head?_cons, if_neg (by simpa using ha), List.erase_cons_tail (by simpa using ha)]
        rfl
  · rw [removeFromRing_nodes, rlistRemove_obj]
    exact hr.obj u

end Condition

end TinyOS
