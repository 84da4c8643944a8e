import Mathlib.Data.Fintype.Card
import TinyOS.Lib.Links
import TinyOS.ProcessMachine

/-! The invariant of the process table: which lists its nodes form, and how the
lists, the parents and the states of the processes fit together. -/

namespace TinyOS

open Ring Links

/-- The lists of the process table, as lists of PCBs and of PTCBs. -/
structure TableView where
  free : List Pid
  children : Pid → List Pid
  exited : Pid → List Pid
  ptcbs : Pid → List Tid

inductive ProcList
  | children (p : Pid)
  | exited (p : Pid)
  | ptcbs (p : Pid)
deriving DecidableEq

def ProcList.head : ProcList → ProcNode
  | .children p => .childrenList p
  | .exited p => .exitedList p
  | .ptcbs p => .ptcbList p

namespace TableView

def members (v : TableView) : ProcList → List ProcNode
  | .children p => (v.children p).map .childrenNode
  | .exited p => (v.exited p).map .exitedNode
  | .ptcbs p => (v.ptcbs p).map .ptcbListNode

def setChildren (v : TableView) (p : Pid) (l : List Pid) : TableView :=
  { v with children := Function.update v.children p l }

def setExited (v : TableView) (p : Pid) (l : List Pid) : TableView :=
  { v with exited := Function.update v.exited p l }

def setPtcbs (v : TableView) (p : Pid) (l : List Tid) : TableView :=
  { v with ptcbs := Function.update v.ptcbs p l }

def dropPid (v : TableView) (p : Pid) : TableView :=
  { v with
    children := fun q => (v.children q).erase p
    exited := fun q => (v.exited q).erase p }

def dropTid (v : TableView) (a : Tid) : TableView :=
  { v with ptcbs := fun q => (v.ptcbs q).erase a }

variable (v : TableView)

theorem members_setChildren (p : Pid) (l : List Pid) :
    (v.setChildren p l).members =
      Function.update v.members (.children p) (l.map .childrenNode) := by
  funext i
  cases i with
  | children q => by_cases hq : q = p <;> simp [setChildren, members, hq]
  | exited q => rfl
  | ptcbs q => rfl

theorem members_setExited (p : Pid) (l : List Pid) :
    (v.setExited p l).members = Function.update v.members (.exited p) (l.map .exitedNode) := by
  funext i
  cases i with
  | children q => rfl
  | exited q => by_cases hq : q = p <;> simp [setExited, members, hq]
  | ptcbs q => rfl

theorem members_setPtcbs (p : Pid) (l : List Tid) :
    (v.setPtcbs p l).members = Function.update v.members (.ptcbs p) (l.map .ptcbListNode) := by
  funext i
  cases i with
  | children q => rfl
  | exited q => rfl
  | ptcbs q => by_cases hq : q = p <;> simp [setPtcbs, members, hq]

theorem childrenNode_mem {p : Pid} {i : ProcList} :
    ProcNode.childrenNode p ∈ v.members i ↔ ∃ q, i = .children q ∧ p ∈ v.children q := by
  cases i <;> simp [members]

theorem exitedNode_mem {p : Pid} {i : ProcList} :
    ProcNode.exitedNode p ∈ v.members i ↔ ∃ q, i = .exited q ∧ p ∈ v.exited q := by
  cases i <;> simp [members]

theorem ptcbListNode_mem {a : Tid} {i : ProcList} :
    ProcNode.ptcbListNode a ∈ v.members i ↔ ∃ q, i = .ptcbs q ∧ a ∈ v.ptcbs q := by
  cases i <;> simp [members]

theorem members_dropPid (p : Pid) :
    (v.dropPid p).members =
      fun i => ((v.members i).erase (.childrenNode p)).erase (.exitedNode p) := by
  have hc : Function.Injective ProcNode.childrenNode := fun a b h => by simpa using h
  have he : Function.Injective ProcNode.exitedNode := fun a b h => by simpa using h
  funext i
  cases i with
  | children q =>
    rw [List.erase_of_not_mem (a := ProcNode.exitedNode p)
      (fun hm => by simpa [members] using List.mem_of_mem_erase hm)]
    exact List.map_erase hc _
  | exited q =>
    rw [List.erase_of_not_mem (a := ProcNode.childrenNode p) (by simp [members])]
    exact List.map_erase he _
  | ptcbs q =>
    rw [List.erase_of_not_mem (a := ProcNode.childrenNode p) (by simp [members]),
      List.erase_of_not_mem (by simp [members])]
    rfl

theorem members_dropTid (a : Tid) :
    (v.dropTid a).members = fun i => (v.members i).erase (.ptcbListNode a) := by
  have hp : Function.Injective ProcNode.ptcbListNode := fun a b h => by simpa using h
  funext i
  cases i with
  | children q => exact (List.erase_of_not_mem (by simp [members])).symm
  | exited q => exact (List.erase_of_not_mem (by simp [members])).symm
  | ptcbs q => exact List.map_erase hp _

end TableView

theorem ProcList.head_injective : Function.Injective ProcList.head := by
  intro i j h
  cases i <;> cases j <;> simp_all [ProcList.head]

theorem ProcList.childrenNode_ne (p : Pid) (i : ProcList) : .childrenNode p ≠ i.head := by
  cases i <;> simp [ProcList.head]

theorem ProcList.exitedNode_ne (p : Pid) (i : ProcList) : .exitedNode p ≠ i.head := by
  cases i <;> simp [ProcList.head]

theorem ProcList.ptcbListNode_ne (a : Tid) (i : ProcList) : .ptcbListNode a ≠ i.head := by
  cases i <;> simp [ProcList.head]

/-- The heap consists of these lists, and every member is keyed by its block. -/
structure TableLists (h : Heap NodeKey ProcNode) (v : TableView) : Prop where
  hangs : Hangs h ProcList.head v.members
  key_children : ∀ p, (h (.childrenNode p)).obj = .pcb p
  key_exited : ∀ p, (h (.exitedNode p)).obj = .pcb p
  key_ptcb : ∀ p, ∀ a ∈ v.ptcbs p, (h (.ptcbListNode a)).obj = .ptcb a

namespace TableLists

variable {h h' : Heap NodeKey ProcNode} {v w : TableView}

/-- Operations that only relink nodes keep the keys. -/
theorem relink (ht : TableLists h v) (hobj : ∀ n, (h' n).obj = (h n).obj)
    (hh : Hangs h' ProcList.head w.members) (hp : ∀ p, ∀ a ∈ w.ptcbs p, ∃ q, a ∈ v.ptcbs q) :
    TableLists h' w where
  hangs := hh
  key_children p := (hobj _).trans (ht.key_children p)
  key_exited p := (hobj _).trans (ht.key_exited p)
  key_ptcb p a ha := by
    obtain ⟨q, hq⟩ := hp p a ha
    exact (hobj _).trans (ht.key_ptcb q a hq)

theorem nodup_children (ht : TableLists h v) (p : Pid) : (v.children p).Nodup :=
  .of_map _ (ht.hangs.lists.nodup (.children p))

theorem nodup_exited (ht : TableLists h v) (p : Pid) : (v.exited p).Nodup :=
  .of_map _ (ht.hangs.lists.nodup (.exited p))

theorem nodup_ptcbs (ht : TableLists h v) (p : Pid) : (v.ptcbs p).Nodup :=
  .of_map _ (ht.hangs.lists.nodup (.ptcbs p))

theorem ptcbs_disjoint (ht : TableLists h v) {p q : Pid} {a : Tid} (hp : a ∈ v.ptcbs p)
    (hq : a ∈ v.ptcbs q) : p = q := by
  have he := ht.hangs.lists.disjoint (.ptcbs p) (.ptcbs q) (.ptcbListNode a)
    (v.ptcbListNode_mem.mpr ⟨p, rfl, hp⟩) (v.ptcbListNode_mem.mpr ⟨q, rfl, hq⟩)
  simpa using he

theorem children_disjoint (ht : TableLists h v) {p q c : Pid} (hp : c ∈ v.children p)
    (hq : c ∈ v.children q) : p = q := by
  have he := ht.hangs.lists.disjoint (.children p) (.children q) (.childrenNode c)
    (v.childrenNode_mem.mpr ⟨p, rfl, hp⟩) (v.childrenNode_mem.mpr ⟨q, rfl, hq⟩)
  simpa using he

theorem empty_children (ht : TableLists h v) (p : Pid) :
    isRlistEmpty h (.childrenList p) = true ↔ v.children p = [] := by
  simpa [TableView.members, ProcList.head] using ht.hangs.empty_iff (.children p)

theorem empty_exited (ht : TableLists h v) (p : Pid) :
    isRlistEmpty h (.exitedList p) = true ↔ v.exited p = [] := by
  simpa [TableView.members, ProcList.head] using ht.hangs.empty_iff (.exited p)

theorem empty_ptcbs (ht : TableLists h v) (p : Pid) :
    isRlistEmpty h (.ptcbList p) = true ↔ v.ptcbs p = [] := by
  simpa [TableView.members, ProcList.head] using ht.hangs.empty_iff (.ptcbs p)

/-- A node on no list of its kind is linked to itself. -/
theorem childrenNode_single (ht : TableLists h v) {p : Pid} (hp : ∀ q, p ∉ v.children q) :
    isRlistEmpty h (.childrenNode p) = true := by
  have hs := ht.hangs.lists.singleton (.childrenNode p) (ProcList.childrenNode_ne p)
    (fun i hm => by obtain ⟨q, _, hq⟩ := v.childrenNode_mem.mp hm; exact hp q hq)
  rw [isRlistEmpty, beq_iff_eq]
  exact hs.symm

theorem exitedNode_single (ht : TableLists h v) {p : Pid} (hp : ∀ q, p ∉ v.exited q) :
    isRlistEmpty h (.exitedNode p) = true := by
  have hs := ht.hangs.lists.singleton (.exitedNode p) (ProcList.exitedNode_ne p)
    (fun i hm => by obtain ⟨q, _, hq⟩ := v.exitedNode_mem.mp hm; exact hp q hq)
  rw [isRlistEmpty, beq_iff_eq]
  exact hs.symm

theorem push_child (ht : TableLists h v) (q : Pid) {p : Pid} (hp : ∀ r, p ∉ v.children r) :
    TableLists (rlistPushFront h (.childrenList q) (.childrenNode p))
      (v.setChildren q (p :: v.children q)) := by
  refine ht.relink (fun n => rlistPushFront_obj h _ _ n) ?_ (fun r a ha => ⟨r, ha⟩)
  rw [TableView.members_setChildren]
  refine ht.hangs.push_front (.children q) (ProcList.childrenNode_ne p) fun i hm => ?_
  obtain ⟨r, _, hr⟩ := v.childrenNode_mem.mp hm
  exact hp r hr

theorem push_exited (ht : TableLists h v) (q : Pid) {p : Pid} (hp : ∀ r, p ∉ v.exited r) :
    TableLists (rlistPushFront h (.exitedList q) (.exitedNode p))
      (v.setExited q (p :: v.exited q)) := by
  refine ht.relink (fun n => rlistPushFront_obj h _ _ n) ?_ (fun r a ha => ⟨r, ha⟩)
  rw [TableView.members_setExited]
  refine ht.hangs.push_front (.exited q) (ProcList.exitedNode_ne p) fun i hm => ?_
  obtain ⟨r, _, hr⟩ := v.exitedNode_mem.mp hm
  exact hp r hr

theorem pop_child (ht : TableLists h v) {q p : Pid} {l : List Pid} (hq : v.children q = p :: l) :
    (rlistPopFront h (.childrenList q)).2 = .childrenNode p ∧
      TableLists (rlistPopFront h (.childrenList q)).1 (v.setChildren q l) := by
  obtain ⟨hn, hh⟩ := ht.hangs.pop_front (i := .children q) (x := .childrenNode p)
    (m := l.map .childrenNode) (by simp [TableView.members, hq])
  refine ⟨hn, ht.relink (fun n => rlistPopFront_obj h _ n) ?_ (fun r a ha => ⟨r, ha⟩)⟩
  rw [TableView.members_setChildren]
  exact hh

theorem pop_ptcb (ht : TableLists h v) {q : Pid} {a : Tid} {l : List Tid}
    (hq : v.ptcbs q = a :: l) : (rlistPopFront h (.ptcbList q)).2 = .ptcbListNode a ∧
      TableLists (rlistPopFront h (.ptcbList q)).1 (v.setPtcbs q l) := by
  obtain ⟨hn, hh⟩ := ht.hangs.pop_front (i := .ptcbs q) (x := .ptcbListNode a)
    (m := l.map .ptcbListNode) (by simp [TableView.members, hq])
  refine ⟨hn, ht.relink (fun n => rlistPopFront_obj h _ n) ?_ fun r b hb => ?_⟩
  · rw [TableView.members_setPtcbs]
    exact hh
  · by_cases hr : r = q
    · subst r
      exact ⟨q, by rw [hq]; simp [TableView.setPtcbs] at hb; simp [hb]⟩
    · exact ⟨r, by simpa [TableView.setPtcbs, hr] using hb⟩

theorem append_exited (ht : TableLists h v) {p q : Pid} (hpq : p ≠ q) :
    TableLists (rlistAppend h (.exitedList p) (.exitedList q))
      ((v.setExited p (v.exited p ++ v.exited q)).setExited q []) := by
  refine ht.relink (fun n => rlistAppend_obj h _ _ n) ?_ (fun r a ha => ⟨r, ha⟩)
  rw [TableView.members_setExited, TableView.members_setExited, List.map_append, List.map_nil]
  exact ht.hangs.append (i := .exited p) (j := .exited q) (by simpa using hpq)

theorem drop_pid (ht : TableLists h v) (p : Pid) :
    TableLists (rlistRemove (rlistRemove h (.childrenNode p)) (.exitedNode p)) (v.dropPid p) := by
  refine ht.relink (fun n => by simp) ?_ (fun r a ha => ⟨r, ha⟩)
  rw [TableView.members_dropPid]
  exact (ht.hangs.remove (ProcList.childrenNode_ne p)).remove (ProcList.exitedNode_ne p)

theorem drop_tid (ht : TableLists h v) (a : Tid) :
    TableLists (rlistRemove h (.ptcbListNode a)) (v.dropTid a) := by
  refine ht.relink (fun n => by simp) ?_ (fun r b hb => ⟨r, List.mem_of_mem_erase hb⟩)
  rw [TableView.members_dropTid]
  exact ht.hangs.remove (ProcList.ptcbListNode_ne a)

theorem init_ptcb (ht : TableLists h v) {a : Tid} (ha : ∀ p, a ∉ v.ptcbs p) :
    TableLists (rlnodeInit h (.ptcbListNode a) (.ptcb a)) v where
  hangs := ht.hangs.init _ (ProcList.ptcbListNode_ne a) fun i hm => by
    obtain ⟨q, _, hq⟩ := v.ptcbListNode_mem.mp hm
    exact ha q hq
  key_children p := by simp [rlnodeInit, ht.key_children p]
  key_exited p := by simp [rlnodeInit, ht.key_exited p]
  key_ptcb p b hb := by
    have hne : b ≠ a := fun he => ha p (he ▸ hb)
    simp [rlnodeInit, hne, ht.key_ptcb p b hb]

theorem push_ptcb (ht : TableLists h v) (p : Pid) {a : Tid} (ha : ∀ q, a ∉ v.ptcbs q) :
    TableLists (rlistPushBack (rlnodeInit h (.ptcbListNode a) (.ptcb a)) (.ptcbList p)
      (.ptcbListNode a)) (v.setPtcbs p (v.ptcbs p ++ [a])) where
  hangs := by
    rw [TableView.members_setPtcbs, List.map_append]
    refine (ht.init_ptcb ha).hangs.push_back (.ptcbs p) (ProcList.ptcbListNode_ne a) fun i hm => ?_
    obtain ⟨q, _, hq⟩ := v.ptcbListNode_mem.mp hm
    exact ha q hq
  key_children q := by rw [rlistPushBack_obj, (ht.init_ptcb ha).key_children q]
  key_exited q := by rw [rlistPushBack_obj, (ht.init_ptcb ha).key_exited q]
  key_ptcb q b hb := by
    rw [rlistPushBack_obj]
    by_cases hba : b = a
    · simp [rlnodeInit, hba]
    · by_cases hq : q = p
      · subst q
        have hb' : b ∈ v.ptcbs p := by simpa [TableView.setPtcbs, hba] using hb
        exact (ht.init_ptcb ha).key_ptcb p b hb'
      · exact (ht.init_ptcb ha).key_ptcb q b (by simpa [TableView.setPtcbs, hq] using hb)

end TableLists

/-- What only an ALIVE process may have. -/
structure Vacated (pt : Pid → PCB) (v : TableView) (p : Pid) : Prop where
  children : v.children p = []
  exited : v.exited p = []
  ptcbs : v.ptcbs p = []
  threadCount : (pt p).threadCount = 0
  fidt : ∀ i < maxFileid, (pt p).fidt i = none

/-- How states, parents, the free list and the lists of relatives fit together. -/
structure Family (pt : Pid → PCB) (freelist : Option Pid) (count : Int) (v : TableView) :
    Prop where
  free_threaded : Threaded (fun p => (pt p).parent) freelist v.free
  free_nodup : v.free.Nodup
  mem_free : ∀ p, p ∈ v.free ↔ (pt p).pstate = .free
  count_eq : count = (Finset.univ.filter fun p => (pt p).pstate ≠ .free).card
  vacated : ∀ p, (pt p).pstate ≠ .alive → Vacated pt v p
  roots : ∀ p : Pid, p.val ≤ 1 → (pt p).pstate = .alive ∧ (pt p).parent = none
  has_parent : ∀ p : Pid, 1 < p.val → (pt p).pstate ≠ .free →
    ∃ q, (pt p).parent = some q ∧ (pt q).pstate = .alive
  descends : ∀ p : Pid, 1 < p.val → (pt p).pstate ≠ .free →
    Leads (fun q => (pt q).parent) p 1
  mem_children : ∀ q, (pt q).pstate ≠ .free →
    ∀ p, p ∈ v.children q ↔ (pt p).pstate ≠ .free ∧ (pt p).parent = some q
  mem_exited : ∀ q, (pt q).pstate ≠ .free →
    ∀ p, p ∈ v.exited q ↔ (pt p).pstate = .zombie ∧ (pt p).parent = some q

theorem Pid.one_lt {p : Pid} (h0 : p ≠ 0) (h1 : p ≠ 1) : 1 < p.val := by
  have hp0 : p.val ≠ 0 := fun h => h0 (Fin.ext h)
  have hp1 : p.val ≠ 1 := fun h => h1 (Fin.ext h)
  omega

namespace Family

variable {pt pt' : Pid → PCB} {freelist : Option Pid} {count : Int} {v w : TableView}

theorem ne_free_of_alive {p : Pid} (h : (pt p).pstate = .alive) : (pt p).pstate ≠ .free := by
  simp [h]

theorem one_alive (hf : Family pt freelist count v) : (pt 1).pstate = .alive :=
  (hf.roots 1 (by decide)).1

theorem one_lt (hf : Family pt freelist count v) {p : Pid} (hp : (pt p).pstate ≠ .alive) :
    1 < p.val := by
  by_contra hle
  exact hp (hf.roots p (by omega)).1

theorem parent_alive (hf : Family pt freelist count v) {p q : Pid} (hp : (pt p).pstate ≠ .free)
    (hq : (pt p).parent = some q) : 1 < p.val ∧ (pt q).pstate = .alive := by
  have hlt : 1 < p.val := by
    by_contra hle
    simp [(hf.roots p (by omega)).2] at hq
  obtain ⟨r, hr, ha⟩ := hf.has_parent p hlt hp
  obtain rfl : q = r := Option.some.inj (hq.symm.trans hr)
  exact ⟨hlt, ha⟩

theorem alive_of_child (hf : Family pt freelist count v) {p q : Pid} (hp : p ∈ v.children q) :
    (pt q).pstate = .alive := by
  by_contra hq
  simp [(hf.vacated q hq).children] at hp

theorem alive_of_exited (hf : Family pt freelist count v) {p q : Pid} (hp : p ∈ v.exited q) :
    (pt q).pstate = .alive := by
  by_contra hq
  simp [(hf.vacated q hq).exited] at hp

theorem not_child (hf : Family pt freelist count v) {p : Pid} (hp : (pt p).pstate = .free)
    (q : Pid) : p ∉ v.children q := fun hm =>
  ((hf.mem_children q (ne_free_of_alive (hf.alive_of_child hm)) p).mp hm).1 hp

theorem not_exited (hf : Family pt freelist count v) {p : Pid} (hp : (pt p).pstate ≠ .zombie)
    (q : Pid) : p ∉ v.exited q := fun hm =>
  hp ((hf.mem_exited q (ne_free_of_alive (hf.alive_of_exited hm)) p).mp hm).1

theorem parent_ne_self (hf : Family pt freelist count v) {p : Pid} (hlt : 1 < p.val)
    (hp : (pt p).pstate ≠ .free) : (pt p).parent ≠ some p :=
  (hf.descends p hlt hp).ne_self fun he => by simp [he] at hlt

/-- Changes that touch neither states nor parents, and threads, streams and PTCBs of
ALIVE processes only. -/
theorem frame (hf : Family pt freelist count v) (hst : ∀ p, (pt' p).pstate = (pt p).pstate)
    (hpar : ∀ p, (pt' p).parent = (pt p).parent)
    (hvac : ∀ p, (pt p).pstate ≠ .alive →
      (pt' p).threadCount = (pt p).threadCount ∧ (pt' p).fidt = (pt p).fidt)
    {m : Pid → List Tid} (hm : ∀ p, (pt p).pstate ≠ .alive → m p = v.ptcbs p) :
    Family pt' freelist count { v with ptcbs := m } where
  free_threaded := hf.free_threaded.congr fun p _ => hpar p
  free_nodup := hf.free_nodup
  mem_free p := by rw [hst]; exact hf.mem_free p
  count_eq := by simp only [hst]; exact hf.count_eq
  vacated p hp := by
    rw [hst] at hp
    obtain ⟨hc, he, ht, hn, hd⟩ := hf.vacated p hp
    refine ⟨hc, he, (hm p hp).trans ht, (hvac p hp).1.trans hn, fun i hi => ?_⟩
    rw [(hvac p hp).2]
    exact hd i hi
  roots p hp := by rw [hst, hpar]; exact hf.roots p hp
  has_parent p hp hs := by
    simp only [hst, hpar] at hs ⊢
    exact hf.has_parent p hp hs
  descends p hp hs := by
    simp only [hst, hpar] at hs ⊢
    exact hf.descends p hp hs
  mem_children q hq p := by
    simp only [hst, hpar] at hq ⊢
    exact hf.mem_children q hq p
  mem_exited q hq p := by
    simp only [hst, hpar] at hq ⊢
    exact hf.mem_exited q hq p

theorem card_acquire {n : Pid} (hn : (pt n).pstate = .free) (hn' : (pt' n).pstate ≠ .free)
    (hst : ∀ p, p ≠ n → (pt' p).pstate = (pt p).pstate) :
    (Finset.univ.filter fun p => (pt' p).pstate ≠ .free).card =
      (Finset.univ.filter fun p => (pt p).pstate ≠ .free).card + 1 := by
  have hins : (Finset.univ.filter fun p => (pt' p).pstate ≠ .free) =
      insert n (Finset.univ.filter fun p => (pt p).pstate ≠ .free) := by
    ext p
    by_cases hp : p = n
    · simp [hp, hn']
    · simp [hp, hst p hp]
  rw [hins, Finset.card_insert_of_notMem (by simp [hn])]

/-- A new process `n`, taken from the free list by a process `c`. -/
theorem spawn (hf : Family pt freelist count v) {n c : Pid} {rest : List Pid}
    (hfree : v.free = n :: rest) (hc : (pt c).pstate = .alive) (hc0 : c ≠ 0)
    (hn : (pt' n).pstate = .alive) (hnp : (pt' n).parent = some c)
    (hst : ∀ p, p ≠ n → (pt' p).pstate = (pt p).pstate)
    (hpar : ∀ p, p ≠ n → (pt' p).parent = (pt p).parent)
    (hvac : ∀ p, p ≠ n → (pt p).pstate ≠ .alive →
      (pt' p).threadCount = (pt p).threadCount ∧ (pt' p).fidt = (pt p).fidt)
    {m : Pid → List Tid} (hm : ∀ p, p ≠ n → m p = v.ptcbs p) :
    Family pt' (pt n).parent (count + 1)
      { v.setChildren c (n :: v.children c) with free := rest, ptcbs := m } := by
  have hnfree : (pt n).pstate = .free := (hf.mem_free n).mp (by simp [hfree])
  have hnlt : 1 < n.val := hf.one_lt (by simp [hnfree])
  have hcn : c ≠ n := fun he => by simp [he, hnfree] at hc
  have hth := hf.free_threaded
  have hnd := hf.free_nodup
  rw [hfree] at hth hnd
  have hnrest := (List.nodup_cons.mp hnd).1
  have hold : ∀ p, (pt p).pstate ≠ .free → p ≠ n := fun p hp he => hp (he ▸ hnfree)
  have hdesc : ∀ p : Pid, 1 < p.val → (pt p).pstate ≠ .free →
      Leads (fun q => (pt' q).parent) p 1 := fun p hp hs =>
    (hf.descends p hp hs).redirect (P := fun x => (pt x).pstate ≠ .free) hs
      fun x y hx _ hxy =>
        ⟨ne_free_of_alive (hf.parent_alive hx hxy).2, .inl (by rw [hpar x (hold x hx), hxy])⟩
  refine ⟨?_, (List.nodup_cons.mp hnd).2, fun p => ?_, ?_, fun p hp => ?_, fun p hp => ?_,
    fun p hp hs => ?_, fun p hp hs => ?_, fun q hq p => ?_, fun q hq p => ?_⟩
  · exact hth.2.congr fun p hp => hpar p fun he => hnrest (he ▸ hp)
  · have hmf := hf.mem_free p
    rw [hfree, List.mem_cons] at hmf
    by_cases hp : p = n
    · simp [hp, hn, hnrest]
    · simpa [hp, hst p hp] using hmf
  · rw [card_acquire hnfree (by simp [hn]) hst, hf.count_eq]
    push_cast
    rfl
  · have hpn : p ≠ n := fun he => hp (he ▸ hn)
    rw [hst p hpn] at hp
    obtain ⟨hch, hex, hpt, htc, hfd⟩ := hf.vacated p hp
    have hpc : p ≠ c := fun he => hp (he ▸ hc)
    refine ⟨by simpa [TableView.setChildren, hpc] using hch, hex, (hm p hpn).trans hpt,
      (hvac p hpn hp).1.trans htc, fun i hi => ?_⟩
    rw [(hvac p hpn hp).2]
    exact hfd i hi
  · have hpn : p ≠ n := fun he => by rw [he] at hp; omega
    rw [hst p hpn, hpar p hpn]
    exact hf.roots p hp
  · by_cases hpn : p = n
    · exact ⟨c, hpn ▸ hnp, by rw [hst c hcn]; exact hc⟩
    · rw [hst p hpn] at hs
      obtain ⟨q, hq, ha⟩ := hf.has_parent p hp hs
      exact ⟨q, by rw [hpar p hpn]; exact hq,
        by rw [hst q (hold q (ne_free_of_alive ha))]; exact ha⟩
  · by_cases hpn : p = n
    · subst p
      by_cases hc1 : c = 1
      · exact .single (hc1 ▸ hnp)
      · exact .head hnp (hdesc c (Pid.one_lt hc0 hc1) (ne_free_of_alive hc))
    · rw [hst p hpn] at hs
      exact hdesc p hp hs
  · have hmem := hf.mem_children q
    by_cases hqn : q = n
    · subst q
      have hno : ∀ r, (pt r).pstate ≠ .free → (pt r).parent ≠ some n := fun r hr he => by
        have ha := (hf.parent_alive hr he).2
        simp [hnfree] at ha
      have hch := (hf.vacated n (by simp [hnfree])).children
      by_cases hpn : p = n
      · simp [TableView.setChildren, hcn.symm, hch, hpn, hnp, hcn]
      · simp only [TableView.setChildren, Function.update_of_ne hcn.symm,
          hch, hst p hpn, hpar p hpn]
        simpa using hno p
    · rw [hst q hqn] at hq
      by_cases hpn : p = n
      · subst p
        have hnot := hf.not_child hnfree q
        by_cases hqc : q = c
        · simp [TableView.setChildren, hqc, hn, hnp]
        · simp [TableView.setChildren, hqc, hnot, hnp, Ne.symm hqc]
      · rw [hst p hpn, hpar p hpn, ← hmem hq p]
        by_cases hqc : q = c
        · simp [TableView.setChildren, hqc, hpn]
        · simp [TableView.setChildren, hqc]
  · by_cases hqn : q = n
    · subst q
      have hex := (hf.vacated n (by simp [hnfree])).exited
      have hno : (pt' p).pstate = .zombie → (pt' p).parent ≠ some n := fun hz he => by
        have hpn : p ≠ n := fun heq => by simp [heq, hn] at hz
        rw [hst p hpn] at hz
        rw [hpar p hpn] at he
        have ha := (hf.parent_alive (by simp [hz]) he).2
        simp [hnfree] at ha
      simpa [TableView.setChildren, hex] using hno
    · rw [hst q hqn] at hq
      by_cases hpn : p = n
      · subst p
        have hnot : n ∉ v.exited q := hf.not_exited (by simp [hnfree]) q
        simp [TableView.setChildren, hnot, hn]
      · rw [hst p hpn, hpar p hpn]
        exact hf.mem_exited q hq p

/-- Process `d`, a child of `q`, becomes a zombie and gives up all it has; its
children go to init. -/
theorem die (hf : Family pt freelist count v) {d q : Pid} (hd : (pt d).pstate = .alive)
    (hd1 : 1 < d.val) (hq : (pt d).parent = some q)
    (hst : ∀ p, (pt' p).pstate = if p = d then .zombie else (pt p).pstate)
    (hpar : ∀ p, (pt' p).parent = if p ∈ v.children d then some 1 else (pt p).parent)
    (hdc : (pt' d).threadCount = 0) (hdf : ∀ i < maxFileid, (pt' d).fidt i = none)
    (hvac : ∀ p, (pt p).pstate ≠ .alive →
      (pt' p).threadCount = (pt p).threadCount ∧ (pt' p).fidt = (pt p).fidt)
    (hfree : w.free = v.free)
    (hch : ∀ r p, p ∈ w.children r ↔
      r ≠ d ∧ (p ∈ v.children r ∨ r = 1 ∧ p ∈ v.children d))
    (hex : ∀ r p, p ∈ w.exited r ↔
      r = q ∧ p = d ∨ r ≠ d ∧ (p ∈ v.exited r ∨ r = 1 ∧ p ∈ v.exited d))
    (hpt : ∀ r, w.ptcbs r = if r = d then [] else v.ptcbs r) :
    Family pt' freelist count w := by
  have hdn : (pt d).pstate ≠ .free := ne_free_of_alive hd
  have hqd : q ≠ d := fun he => hf.parent_ne_self hd1 hdn (he ▸ hq)
  have h1d : (1 : Pid) ≠ d := fun he => by simp [← he] at hd1
  have hqa := (hf.parent_alive hdn hq).2
  have hchd := hf.mem_children d hdn
  have hdd : d ∉ v.children d := fun hm => hf.parent_ne_self hd1 hdn ((hchd d).mp hm).2
  have hfr : ∀ p, (pt' p).pstate = .free ↔ (pt p).pstate = .free := fun p => by
    by_cases hp : p = d
    · simp [hst, hp, hd]
    · simp [hst, hp]
  have hnf : ∀ p, (pt' p).pstate ≠ .free ↔ (pt p).pstate ≠ .free := fun p => not_congr (hfr p)
  have halive : ∀ p, p ≠ d → (pt p).pstate = .alive → (pt' p).pstate = .alive := fun p hp ha => by
    rw [hst, if_neg hp, ha]
  refine ⟨?_, hfree ▸ hf.free_nodup, fun p => ?_, ?_, fun p hp => ?_, fun p hp => ?_,
    fun p hp hs => ?_, fun p hp hs => ?_, fun r hr p => ?_, fun r hr p => ?_⟩
  · rw [hfree]
    refine hf.free_threaded.congr fun p hp => ?_
    have hnc : p ∉ v.children d := hf.not_child ((hf.mem_free p).mp hp) d
    simp only [hpar, if_neg hnc]
  · rw [hfree, hfr]
    exact hf.mem_free p
  · simp only [hnf]
    exact hf.count_eq
  · by_cases hpd : p = d
    · subst p
      refine ⟨List.eq_nil_iff_forall_not_mem.mpr fun x hx => ((hch d x).mp hx).1 rfl,
        List.eq_nil_iff_forall_not_mem.mpr fun x hx => ?_, by simp [hpt], hdc, hdf⟩
      rcases (hex d x).mp hx with ⟨he, _⟩ | ⟨he, _⟩
      · exact hqd he.symm
      · exact he rfl
    · rw [hst, if_neg hpd] at hp
      obtain ⟨hc, he, ht, hn, hfd⟩ := hf.vacated p hp
      have hp1 : p ≠ 1 := fun h => hp (h ▸ hf.one_alive)
      have hpq : p ≠ q := fun h => hp (h ▸ hqa)
      refine ⟨List.eq_nil_iff_forall_not_mem.mpr fun x hx => ?_,
        List.eq_nil_iff_forall_not_mem.mpr fun x hx => ?_, by simp [hpt, hpd, ht],
        (hvac p hp).1.trans hn, fun i hi => ?_⟩
      · have hm := ((hch p x).mp hx).2
        simp [hc, hp1] at hm
      · have hm := (hex p x).mp hx
        simp [he, hp1, hpq] at hm
      · rw [(hvac p hp).2]
        exact hfd i hi
  · have hpd : p ≠ d := fun he => by rw [he] at hp; omega
    have hnc : p ∉ v.children d := fun hm => by
      have hp' := ((hchd p).mp hm).2
      simp [(hf.roots p hp).2] at hp'
    rw [hpar, if_neg hnc]
    exact ⟨halive p hpd (hf.roots p hp).1, (hf.roots p hp).2⟩
  · by_cases hpc : p ∈ v.children d
    · exact ⟨1, by rw [hpar, if_pos hpc], halive 1 h1d hf.one_alive⟩
    · rw [hnf] at hs
      obtain ⟨r, hr, ha⟩ := hf.has_parent p hp hs
      have hrd : r ≠ d := fun he => hpc ((hchd p).mpr ⟨hs, he ▸ hr⟩)
      exact ⟨r, by rw [hpar, if_neg hpc, hr], halive r hrd ha⟩
  · rw [hnf] at hs
    refine (hf.descends p hp hs).redirect (P := fun x => (pt x).pstate ≠ .free) hs
      fun x y hx _ hxy => ⟨ne_free_of_alive (hf.parent_alive hx hxy).2, ?_⟩
    by_cases hxc : x ∈ v.children d
    · exact .inr (by rw [hpar, if_pos hxc])
    · exact .inl (by rw [hpar, if_neg hxc, hxy])
  · rw [hnf] at hr
    rw [hch, hnf, hpar, hf.mem_children r hr]
    by_cases hpc : p ∈ v.children d
    · have hp' := (hchd p).mp hpc
      rw [if_pos hpc]
      simp only [hp', hpc, ne_eq, and_true, Option.some.injEq, not_false_eq_true, true_and]
      refine ⟨fun ⟨hrd, h⟩ => ?_, fun h => ⟨h ▸ h1d, .inr h.symm⟩⟩
      rcases h with h | h
      · exact absurd h.symm hrd
      · exact h.symm
    · rw [if_neg hpc]
      simp only [hpc, and_false, or_false]
      refine ⟨fun h => h.2, fun h => ⟨fun hrd => hpc ((hchd p).mpr ?_), h⟩⟩
      exact hrd ▸ h
  · rw [hnf] at hr
    rw [hex, hst, hpar, hf.mem_exited r hr, hf.mem_exited d hdn]
    by_cases hpd : p = d
    · subst p
      simp [hdd, hq, hd, eq_comm]
    · by_cases hpc : p ∈ v.children d
      · have hp' := (hchd p).mp hpc
        rw [if_neg hpd, if_pos hpc]
        simp only [hpd, and_false, hp'.2, and_true, Option.some.injEq, false_or]
        refine ⟨fun ⟨hrd, h⟩ => ?_, fun h => ⟨h.2 ▸ h1d, .inr ⟨h.2.symm, h.1⟩⟩⟩
        rcases h with h | h
        · exact absurd h.2.symm hrd
        · exact ⟨h.2, h.1.symm⟩
      · rw [if_neg hpd, if_neg hpc]
        have hno : ¬((pt p).pstate = .zombie ∧ (pt p).parent = some d) := fun h =>
          hpc ((hchd p).mpr ⟨by simp [h.1], h.2⟩)
        simp only [hpd, and_false, hno, or_false, false_or]
        exact ⟨fun h => h.2, fun h => ⟨fun hrd => hno (hrd ▸ h), h⟩⟩

theorem card_release {n : Pid} (hn : (pt n).pstate ≠ .free) (hn' : (pt' n).pstate = .free)
    (hst : ∀ p, p ≠ n → (pt' p).pstate = (pt p).pstate) :
    (Finset.univ.filter fun p => (pt p).pstate ≠ .free).card =
      (Finset.univ.filter fun p => (pt' p).pstate ≠ .free).card + 1 :=
  card_acquire hn' hn fun p hp => (hst p hp).symm

theorem reap (hf : Family pt freelist count v) {z : Pid} (hz : (pt z).pstate = .zombie)
    (hzs : (pt' z).pstate = .free) (hzp : (pt' z).parent = freelist)
    (hst : ∀ p, p ≠ z → (pt' p).pstate = (pt p).pstate)
    (hpar : ∀ p, p ≠ z → (pt' p).parent = (pt p).parent)
    (hvac : ∀ p, (pt p).pstate ≠ .alive →
      (pt' p).threadCount = (pt p).threadCount ∧ (pt' p).fidt = (pt p).fidt)
    (hnch : ∀ r, (v.children r).Nodup) (hnex : ∀ r, (v.exited r).Nodup) :
    Family pt' (some z) (count - 1) { v.dropPid z with free := z :: v.free } := by
  have hzn : (pt z).pstate ≠ .free := by simp [hz]
  have hza : (pt z).pstate ≠ .alive := by simp [hz]
  have hzfree : z ∉ v.free := fun hm => hzn ((hf.mem_free z).mp hm)
  have hne : ∀ p, (pt p).pstate = .alive → p ≠ z := fun p ha he => hza (he ▸ ha)
  have hnf : ∀ p, (pt' p).pstate ≠ .free ↔ p ≠ z ∧ (pt p).pstate ≠ .free := fun p => by
    by_cases hp : p = z
    · simp [hp, hzs]
    · simp [hp, hst p hp]
  refine ⟨⟨rfl, ?_⟩, List.nodup_cons.mpr ⟨hzfree, hf.free_nodup⟩, fun p => ?_, ?_, fun p hp => ?_,
    fun p hp => ?_, fun p hp hs => ?_, fun p hp hs => ?_, fun r hr p => ?_, fun r hr p => ?_⟩
  · simp only [hzp]
    exact hf.free_threaded.congr fun p hp => hpar p fun he => hzfree (he ▸ hp)
  · by_cases hp : p = z
    · simp [hp, hzs]
    · simpa [hp, hst p hp] using hf.mem_free p
  · rw [hf.count_eq, card_release hzn hzs hst]
    push_cast
    omega
  · have hpa : (pt p).pstate ≠ .alive := fun ha => hp (by rw [hst p (hne p ha), ha])
    obtain ⟨hc, he, ht, hn, hfd⟩ := hf.vacated p hpa
    refine ⟨by simp [TableView.dropPid, hc], by simp [TableView.dropPid, he], ht,
      (hvac p hpa).1.trans hn, fun i hi => ?_⟩
    rw [(hvac p hpa).2]
    exact hfd i hi
  · have hpz := hne p (hf.roots p hp).1
    rw [hst p hpz, hpar p hpz]
    exact hf.roots p hp
  · obtain ⟨hpz, hs⟩ := (hnf p).mp hs
    obtain ⟨r, hr, ha⟩ := hf.has_parent p hp hs
    exact ⟨r, by rw [hpar p hpz, hr], by rw [hst r (hne r ha), ha]⟩
  · obtain ⟨hpz, hs⟩ := (hnf p).mp hs
    refine (hf.descends p hp hs).redirect (P := fun x => x ≠ z ∧ (pt x).pstate ≠ .free) ⟨hpz, hs⟩
      fun x y hx _ hxy => ?_
    have ha := (hf.parent_alive hx.2 hxy).2
    exact ⟨⟨hne y ha, ne_free_of_alive ha⟩, .inl (by rw [hpar x hx.1, hxy])⟩
  · obtain ⟨hrz, hr⟩ := (hnf r).mp hr
    rw [hnf]
    simp only [TableView.dropPid, (hnch r).mem_erase_iff, hf.mem_children r hr p]
    by_cases hp : p = z
    · simp [hp]
    · simp [hp, hpar p hp]
  · obtain ⟨hrz, hr⟩ := (hnf r).mp hr
    simp only [TableView.dropPid, (hnex r).mem_erase_iff, hf.mem_exited r hr p]
    by_cases hp : p = z
    · simp [hp, hzs]
    · simp [hp, hpar p hp, hst p hp]

end Family

end TinyOS
