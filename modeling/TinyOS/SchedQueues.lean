import TinyOS.RlistSpec
import TinyOS.Scheduler

/-! The scheduler queue and the timeout list, as lists of the threads whose nodes they hold. -/

namespace TinyOS

open Ring

def schedLists (q ts : List TcbId) : SchedList → List SchedNode
  | .sched => q.map .tcb
  | .timeoutList => ts.map .tcb

/-- `SCHED` holds `q` and `TIMEOUT_LIST` holds `ts`; every other node is a singleton. -/
structure SchedLists (h : Heap (Option TcbId) SchedNode) (q ts : List TcbId) : Prop where
  hangs : Hangs h SchedNode.head (schedLists q ts)
  obj_tcb : ∀ t, (h (.tcb t)).obj = some t
  obj_head : ∀ l, (h (.head l)).obj = none

section Queues

variable {h : Heap (Option TcbId) SchedNode} {q ts l m : List TcbId} {t u : TcbId}

theorem update_sched (q q' ts : List TcbId) :
    Function.update (schedLists q ts) .sched (q'.map .tcb) = schedLists q' ts := by
  funext i
  cases i with
  | sched => simp [schedLists]
  | timeoutList => simp [schedLists]

theorem update_timeouts (q ts ts' : List TcbId) :
    Function.update (schedLists q ts) .timeoutList (ts'.map .tcb) = schedLists q ts' := by
  funext i
  cases i with
  | sched => simp [schedLists]
  | timeoutList => simp [schedLists]

theorem tcb_mem_map {l : List TcbId} : SchedNode.tcb t ∈ l.map SchedNode.tcb ↔ t ∈ l := by
  simp

theorem tcb_notMem (hq : t ∉ q) (ht : t ∉ ts) (i : SchedList) :
    SchedNode.tcb t ∉ schedLists q ts i := by
  cases i with
  | sched => simpa [schedLists] using hq
  | timeoutList => simpa [schedLists] using ht

theorem tcb_ne_head (t : TcbId) (i : SchedList) : SchedNode.tcb t ≠ .head i := by
  intro he
  cases he

theorem SchedLists.nodup_sched (hl : SchedLists h q ts) : q.Nodup :=
  List.Nodup.of_map _ (hl.hangs.lists.nodup .sched)

theorem SchedLists.nodup_timeouts (hl : SchedLists h q ts) : ts.Nodup :=
  List.Nodup.of_map _ (hl.hangs.lists.nodup .timeoutList)

theorem emptyLists_lists : SchedLists emptyLists [] [] := by
  refine ⟨⟨⟨fun n => ?_, fun n => ?_⟩, ⟨fun i => ?_, ?_, ?_, ?_, ?_, fun x _ _ => ?_⟩⟩,
    fun _ => rfl, fun _ => rfl⟩
  · cases n <;> rfl
  · cases n <;> rfl
  · cases i <;> rfl
  · intro i j hij
    cases hij
    rfl
  · intro i j
    cases j <;> simp [schedLists]
  · intro i
    cases i <;> simp [schedLists]
  · intro i j x hx
    cases i <;> simp [schedLists] at hx
  · cases x <;> rfl

theorem SchedLists.init (hl : SchedLists h q ts) (hq : t ∉ q) (ht : t ∉ ts) :
    SchedLists (rlnodeInit h (.tcb t) (some t)) q ts := by
  refine ⟨hl.hangs.init _ (tcb_ne_head t) (tcb_notMem hq ht), fun u => ?_, fun i => ?_⟩
  · by_cases hu : u = t
    · simp [rlnodeInit, hu]
    · simpa [rlnodeInit, hu] using hl.obj_tcb u
  · simpa [rlnodeInit] using hl.obj_head i

theorem SchedLists.push (hl : SchedLists h q ts) (hq : t ∉ q) (ht : t ∉ ts) :
    SchedLists (rlistPushBack h (.head .sched) (.tcb t)) (q ++ [t]) ts := by
  have hpush := hl.hangs.push_back .sched (tcb_ne_head t) (tcb_notMem hq ht)
  have hmap : schedLists q ts .sched ++ [SchedNode.tcb t] = (q ++ [t]).map .tcb := by
    simp [schedLists]
  rw [hmap, update_sched] at hpush
  refine ⟨hpush, fun u => ?_, fun i => ?_⟩
  · rw [rlistPushBack_obj]
    exact hl.obj_tcb u
  · rw [rlistPushBack_obj]
    exact hl.obj_head i

theorem SchedLists.remove (hl : SchedLists h q (l ++ t :: m)) :
    SchedLists (rlistRemove h (.tcb t)) q (l ++ m) := by
  have hi : schedLists q (l ++ t :: m) .timeoutList = l.map .tcb ++ .tcb t :: m.map .tcb := by
    simp [schedLists]
  have hrem := hl.hangs.remove_mem hi
  rw [← List.map_append, update_timeouts] at hrem
  refine ⟨hrem, fun u => ?_, fun i => ?_⟩
  · rw [rlistRemove_obj]
    exact hl.obj_tcb u
  · rw [rlistRemove_obj]
    exact hl.obj_head i

/-- The node before which an entry is inserted. -/
def nodeOf (m : List TcbId) : SchedNode := (m.map SchedNode.tcb).headD (.head .timeoutList)

theorem SchedLists.insert (hl : SchedLists h q (l ++ m)) (hq : t ∉ q) (ht : t ∉ l ++ m) :
    SchedLists (rlSplice h (h (nodeOf m)).prev (.tcb t)) q (l ++ t :: m) := by
  have hi : schedLists q (l ++ m) .timeoutList = l.map .tcb ++ m.map .tcb := by simp [schedLists]
  have hins := hl.hangs.insert hi (tcb_ne_head t) (tcb_notMem hq ht)
  have hmap : l.map SchedNode.tcb ++ .tcb t :: m.map .tcb = (l ++ t :: m).map .tcb := by simp
  rw [hmap, update_timeouts] at hins
  have hprev : (h (nodeOf m)).prev = endOf (.head .timeoutList) (l.map SchedNode.tcb) := by
    cases m with
    | nil =>
      show (h (.head .timeoutList)).prev = _
      rw [hl.hangs.prev_head .timeoutList, hi]
      simp
    | cons u m => exact hl.hangs.prev_mem hi
  rw [hprev]
  refine ⟨hins, fun u => ?_, fun i => ?_⟩
  · rw [rlSplice_obj]
    exact hl.obj_tcb u
  · rw [rlSplice_obj]
    exact hl.obj_head i

theorem SchedLists.pop (hl : SchedLists h (t :: q) ts) :
    (rlistPopFront h (.head .sched)).2 = .tcb t ∧
    SchedLists (rlistPopFront h (.head .sched)).1 q ts := by
  have hi : schedLists (t :: q) ts .sched = .tcb t :: q.map .tcb := rfl
  obtain ⟨hsel, hpop⟩ := hl.hangs.pop_front hi
  rw [update_sched] at hpop
  refine ⟨hsel, hpop, fun u => ?_, fun i => ?_⟩
  · rw [rlistPopFront_obj]
    exact hl.obj_tcb u
  · rw [rlistPopFront_obj]
    exact hl.obj_head i

theorem SchedLists.pop_nil (hl : SchedLists h [] ts) :
    (rlistPopFront h (.head .sched)).2 = .head .sched ∧
      SchedLists (rlistPopFront h (.head .sched)).1 [] ts := by
  obtain ⟨hsel, hpop⟩ := hl.hangs.pop_front_nil (i := .sched) rfl
  refine ⟨hsel, hpop, fun u => ?_, fun i => ?_⟩
  · rw [rlistPopFront_obj]
    exact hl.obj_tcb u
  · rw [rlistPopFront_obj]
    exact hl.obj_head i

theorem SchedLists.empty_iff (hl : SchedLists h q ts) : isRlistEmpty h (.head .timeoutList) = true ↔
    ts = [] := by
  rw [hl.hangs.empty_iff .timeoutList]
  simp [schedLists]

theorem SchedLists.first (hl : SchedLists h q ts) : (h (.head .timeoutList)).next = nodeOf ts :=
  hl.hangs.next_head .timeoutList

/-- The nodes of the timeout list follow each other. -/
theorem SchedLists.next (hl : SchedLists h q (l ++ t :: m)) : (h (.tcb t)).next = nodeOf m := by
  have hw := hl.hangs.lists.walk .timeoutList
  have hi : schedLists q (l ++ t :: m) .timeoutList = l.map .tcb ++ .tcb t :: m.map .tcb := by
    simp [schedLists]
  rw [hi] at hw
  have hrest := (walk_append_cons.mp hw).2
  cases m with
  | nil => exact hrest
  | cons u m => exact hrest.1

theorem SchedLists.linked (hl : SchedLists h q ts) (ht : t ∈ ts) : (h (.tcb t)).next ≠ .tcb t := by
  obtain ⟨l, m, rfl⟩ := List.append_of_mem ht
  rw [hl.next]
  have hnd := (List.nodup_append.mp hl.nodup_timeouts).2.1
  cases m with
  | nil =>
    intro he
    cases he
  | cons u m =>
    intro he
    obtain rfl : u = t := by simpa [nodeOf] using he
    exact (List.nodup_cons.mp hnd).1 List.mem_cons_self

theorem SchedLists.single (hl : SchedLists h q ts) (hq : t ∉ q) (ht : t ∉ ts) :
    (h (.tcb t)).next = .tcb t ∧ (h (.tcb t)).prev = .tcb t := by
  constructor
  · exact hl.hangs.lists.singleton _ (tcb_ne_head t) (tcb_notMem hq ht)
  · exact hl.hangs.prev_single (tcb_ne_head t) (tcb_notMem hq ht)

end Queues

end TinyOS
