import Mathlib.Data.List.FinRange
import TinyOS.ProcessOps

/-! The state after boot, and the invariant of the process table from there on. -/

namespace TinyOS

open Ring Links

def nextFin {n : Nat} (p : Fin n) : Option (Fin n) :=
  if h : p.val + 1 < n then some ⟨p.val + 1, h⟩ else none

def nextPid : Pid → Option Pid := nextFin

theorem linkFree_eq {n : Nat} (hn : n ≤ maxProc) (pt : Pid → PCB) (freelist : Option Pid) :
    linkFree n (pt, freelist) =
      (fun p => if p.val < n then
          { pt p with parent := if p.val + 1 < n then nextPid p else freelist } else pt p,
        if h : 0 < n then some ⟨0, by omega⟩ else freelist) := by
  induction n generalizing pt freelist with
  | zero => simp [linkFree]
  | succ n ih =>
    have hlt : n < maxProc := hn
    rw [linkFree, dif_pos hlt, ih (by omega)]
    refine Prod.ext (funext fun p => ?_) ?_
    · by_cases hp : p.val < n
      · have hne : p ≠ ⟨n, hlt⟩ := fun he => by simp [he] at hp
        by_cases hs : p.val + 1 < n
        · simp [hp, hs, hne, Nat.lt_succ_of_lt hp, Nat.lt_succ_of_lt hs]
        · have he : p.val + 1 = n := by omega
          simp [hp, hne, he, nextPid, nextFin, hlt]
          omega
      · by_cases he : p = ⟨n, hlt⟩
        · simp [he]
        · have hne : ¬ p.val < n + 1 := fun h => he (Fin.ext (by simp; omega))
          simp [hp, hne, he]
    · by_cases h0 : 0 < n
      · simp [h0]
      · have hz : n = 0 := by omega
        subst hz
        simp

def freePcb (p : Pid) : PCB := { initializePCB PCB.zeroed with parent := nextPid p }

theorem initializeProcesses_eq : initializeProcesses =
    { pt := freePcb
      processCount := 0
      pcbFreelist := some 0
      heap := fun n => ⟨n.key, n, n⟩
      ptcbs := fun _ => none
      threads := []
      files := initializeFiles
      panicked := false
      acquired := fun _ => 0
      reaps := []
      freed := [] } := by
  have hpt : (fun p : Pid => if p.val < maxProc then
      { initializePCB PCB.zeroed with
        parent := if p.val + 1 < maxProc then nextPid p else none } else
      initializePCB PCB.zeroed) = freePcb := by
    funext p
    by_cases hp : p.val + 1 < maxProc <;> simp [p.isLt, freePcb, nextPid, nextFin, hp]
  simp only [initializeProcesses, linkFree_eq (Nat.le_refl maxProc)]
  rw [hpt]
  rfl

def idlePcb : PCB := { freePcb 0 with pstate := .alive, parent := none }

def initPcb (task : Task) (argl : Int) (args : ExecArgs argl) : PCB :=
  { freePcb 1 with
    pstate := .alive
    parent := none
    mainThread := some 0
    mainTask := some task
    argl := argl
    args := args.map (·.1.take argl.toNat)
    threadCount := 1 }

def emptyHeap : Heap NodeKey ProcNode := fun n => ⟨n.key, n, n⟩

theorem bootKernel_eq (task : Task) (argl : Int) (args : ExecArgs argl) (a : Tid) :
    bootKernel task argl args a =
      { pt := Function.update (Function.update freePcb 0 idlePcb) 1 (initPcb task argl args)
        processCount := 2
        pcbFreelist := some 2
        heap := rlistPushBack (rlnodeInit emptyHeap (.ptcbListNode a) (.ptcb a)) (.ptcbList 1)
          (.ptcbListNode a)
        ptcbs := Function.update (fun _ => none) a
          (some (initializePtcb (some 0) (some task) argl (args.map (·.1.take argl.toNat))))
        threads := [⟨1, some a, .startMainThread, .user⟩]
        files := initializeFiles
        panicked := false
        acquired := Function.update (Function.update (fun _ => 0) 0 1) 1 1
        reaps := []
        freed := [] } := by
  have h0 : nextPid 0 = some 1 := rfl
  have h1 : nextPid 1 = some 2 := rfl
  rw [bootKernel, initializeProcesses_eq, bootProcesses]
  simp [sysExec, acquirePCB, Kernel.setPCB, freePcb, h0, h1, initPcb, idlePcb, PCB.zeroed,
    initializePCB, spawnThread, addTcbToProcess, Kernel.attachPtcb]
  rfl

theorem threaded_drop {n : Nat} (i : Nat) :
    Threaded nextFin (if h : i < n then some ⟨i, h⟩ else none) ((List.finRange n).drop i) := by
  by_cases hi : i < n
  · rw [List.drop_eq_getElem_cons (by simpa using hi), List.getElem_finRange]
    exact ⟨by simp [hi], by simpa [nextFin] using threaded_drop (i + 1)⟩
  · rw [List.drop_eq_nil_of_le (by simpa using hi), dif_neg hi]
    rfl
termination_by n - i

theorem mem_drop_finRange {n : Nat} (i : Nat) (p : Fin n) :
    p ∈ (List.finRange n).drop i ↔ i ≤ p.val := by
  by_cases hi : i < n
  · rw [List.drop_eq_getElem_cons (by simpa using hi), List.getElem_finRange, List.mem_cons,
      mem_drop_finRange (i + 1) p, Fin.ext_iff]
    simp only [Fin.val_cast]
    omega
  · rw [List.drop_eq_nil_of_le (by simpa using hi)]
    have hp := p.isLt
    simp only [List.not_mem_nil, false_iff]
    omega
termination_by n - i

/-- The free list once the idle and the init process have been taken from it. -/
theorem exists_threaded {n i : Nat} (hi : i < n) : ∃ free : List (Fin n),
    Threaded nextFin (some ⟨i, hi⟩) free ∧ free.Nodup ∧ ∀ p, p ∈ free ↔ i ≤ p.val :=
  ⟨_, by simpa only [dif_pos hi] using threaded_drop (n := n) i,
    (List.nodup_finRange n).sublist (List.drop_sublist _ _), mem_drop_finRange i⟩

def bootView (free : List Pid) (a : Tid) : TableView where
  free := free
  children _ := []
  exited _ := []
  ptcbs := Function.update (fun _ => []) 1 [a]

theorem hangs_emptyHeap : TableLists emptyHeap
    { free := [], children := fun _ => [], exited := fun _ => [], ptcbs := fun _ => [] } where
  hangs :=
    { wf := ⟨fun _ => rfl, fun _ => rfl⟩
      lists :=
        { walk := fun i => by cases i <;> rfl
          head_injective := ProcList.head_injective
          head_notMem := fun i j => by cases j <;> simp [TableView.members]
          nodup := fun i => by cases i <;> simp [TableView.members]
          disjoint := fun i j x hx => by cases i <;> simp [TableView.members] at hx
          singleton := fun _ _ _ => rfl } }
  key_children _ := rfl
  key_exited _ := rfl
  key_ptcb _ _ h := by simp at h

theorem ProcessTable.boot (task : Task) (argl : Int) (args : ExecArgs argl) (a : Tid) :
    ∃ free, ProcessTable (bootKernel task argl args a) (bootView free a) := by
  obtain ⟨free, hth, hnd, hmem⟩ := exists_threaded (show 2 < maxProc by decide)
  have hpt : ∀ p, p ≠ 0 → p ≠ 1 → (bootKernel task argl args a).pt p =
      freePcb p := fun p h0 h1 => by
    simp [bootKernel_eq, h0, h1]
  have h0 : (bootKernel task argl args a).pt 0 = idlePcb := by simp [bootKernel_eq]
  have h1 : (bootKernel task argl args a).pt 1 = initPcb task argl args := by simp [bootKernel_eq]
  have hst : ∀ p, ((bootKernel task argl args a).pt p).pstate = .free ↔ p ≠ 0 ∧ p ≠ 1 := fun p => by
    by_cases hp0 : p = 0
    · simp [hp0, h0, idlePcb]
    · by_cases hp1 : p = 1
      · simp [hp1, h1, initPcb]
      · simp [hpt p hp0 hp1, hp0, hp1, freePcb, initializePCB]
  have hal : ∀ p, ((bootKernel task argl args a).pt p).pstate ≠ .free →
      ((bootKernel task argl args a).pt p).pstate = .alive ∧
        ((bootKernel task argl args a).pt p).parent = none := fun p hp => by
    by_cases hp0 : p = 0
    · simp [hp0, h0, idlePcb]
    · by_cases hp1 : p = 1
      · simp [hp1, h1, initPcb]
      · exact absurd ((hst p).mpr ⟨hp0, hp1⟩) hp
  have hlt : ∀ p : Pid, 1 < p.val ↔ p ≠ 0 ∧ p ≠ 1 := fun p =>
    ⟨fun hp => ⟨fun he => by simp [he] at hp, fun he => by simp [he] at hp⟩,
      fun hp => Pid.one_lt hp.1 hp.2⟩
  refine ⟨free, ?_, ⟨?_, hnd, fun p => ?_, ?_, fun p hp => ?_, fun p hp => hal p fun he => ?_,
    fun p hp hs => absurd ((hst p).mpr ((hlt p).mp hp)) hs,
    fun p hp hs => absurd ((hst p).mpr ((hlt p).mp hp)) hs,
    fun q hq p => ?_, fun q hq p => ?_⟩, fun p b hb => ?_⟩
  · rw [bootKernel_eq]
    obtain ⟨hh, hkc, hke, hkp⟩ := hangs_emptyHeap.push_ptcb 1 (a := a) (by simp)
    exact ⟨hh, hkc, hke, hkp⟩
  · rw [bootKernel_eq]
    refine hth.congr fun p hp => ?_
    obtain ⟨hp0, hp1⟩ := (hlt p).mp ((hmem p).mp hp)
    simp [hp0, hp1, freePcb, nextPid]
  · rw [hst, ← hlt]
    exact hmem p
  · have hset : (Finset.univ.filter fun p => ((bootKernel task argl args a).pt p).pstate ≠ .free) =
        {0, 1} := by
      ext p
      simp only [Finset.mem_filter, Finset.mem_univ, true_and, ne_eq, hst, Finset.mem_insert,
        Finset.mem_singleton, not_and_or, not_not]
    rw [hset, Finset.card_pair (by decide), bootKernel_eq]
    rfl
  · have hfree : ((bootKernel task argl args a).pt p).pstate = .free := by
      by_contra hne
      exact hp (hal p hne).1
    obtain ⟨hp0, hp1⟩ := (hst p).mp hfree
    refine ⟨rfl, rfl, by simp [bootView, hp1], ?_, fun i hi => ?_⟩ <;> rw [hpt p hp0 hp1]
    · rfl
    · simp [freePcb, initializePCB, hi]
  · have hp' := (hlt p).mpr ((hst p).mp he)
    omega
  · refine ⟨fun h => by simp [bootView] at h, fun h => ?_⟩
    simp [(hal p h.1).2] at h
  · refine ⟨fun h => by simp [bootView] at h, fun h => ?_⟩
    simp [(hal p (by simp [h.1])).2] at h
  · have hba : b = a := by
      by_cases hp : p = 1
      · simpa [bootView, hp] using hb
      · simp [bootView, hp] at hb
    simp [bootKernel_eq, hba]

end TinyOS
