import TinyOS.FcbReserve
import TinyOS.IoMachine

/-! What `sys_Socket` does to the PCB of its caller. `FCB_reserve` gets the address of
`FIDT[MAX_FILEID]` as its array `fcb`. -/

namespace TinyOS

/-! ### The indices of FIDT -/

/-- The slots that the search from `f` on looks at. -/
def skipUsedReads (fidt : Nat → Option FcbId) : Nat → Nat → List Nat
  | 0, _ => []
  | fuel + 1, f =>
    if f < maxFileid then f :: if fidt f ≠ none then skipUsedReads fidt fuel (f + 1) else [] else []

def findFidsReads (fidt : Nat → Option FcbId) : Nat → Nat → List Nat
  | 0, _ => []
  | num + 1, f =>
    skipUsedReads fidt maxFileid f ++
      let f := skipUsed fidt maxFileid f
      if f = maxFileid then [] else findFidsReads fidt num (f + 1)

/-- The indices of FIDT that `FCB_reserve` uses when the array `fcb` begins at `FIDT[base]`: the
search, the stores of the loop that allocates, and then either the roll-back or the last loop. -/
def fcbReserveAccesses (files : FileTable) (fidt : Nat → Option FcbId)
    (num base : Nat) : List Nat :=
  let fid := findFids fidt num 0
  findFidsReads fidt num 0 ++
    if fid.length < num then []
    else
      let fcb := (acquireFCBs num files).2
      (List.range fcb.length).map (base + ·) ++
        if fcb.contains none then (List.range (fcb.length - 1)).reverse.map (base + ·)
        else fid.zipIdx.flatMap fun s => [base + s.2, s.1, base + s.2]

/-- The last access is the one that fills in `socket_cb->fcb`. -/
def sysSocketAccesses (k : IoKernel) (p : Pid) (port : Int) : List Nat :=
  if port > maxPort ∨ port < noPort then []
  else
    fcbReserveAccesses k.files (k.procs p).fidt 1 maxFileid ++
      match (k.reserve p).2 with
      | ⟨[s], [some _], true⟩ => [s]
      | _ => []

section Accesses

variable {fidt : Nat → Option FcbId} {i : Nat}

theorem skipUsedReads_lt {fuel f : Nat} (h : i ∈ skipUsedReads fidt fuel f) : i < maxFileid := by
  induction fuel generalizing f with
  | zero => simp [skipUsedReads] at h
  | succ fuel ih =>
    by_cases hf : f < maxFileid
    · simp only [skipUsedReads, hf, if_true, List.mem_cons] at h
      rcases h with rfl | h
      · exact hf
      · split at h
        · exact ih h
        · cases h
    · simp [skipUsedReads, hf] at h

theorem findFidsReads_lt {num f : Nat} (h : i ∈ findFidsReads fidt num f) : i < maxFileid := by
  induction num generalizing f with
  | zero => simp [findFidsReads] at h
  | succ num ih =>
    simp only [findFidsReads, List.mem_append] at h
    rcases h with h | h
    · exact skipUsedReads_lt h
    · split at h
      · cases h
      · exact ih h

theorem acquireFCBs_length (num : Nat) (files : FileTable) (h : 0 < num) :
    0 < (acquireFCBs num files).2.length := by
  cases num with
  | zero => exact absurd h (Nat.lt_irrefl 0)
  | succ num =>
    simp only [acquireFCBs]
    split <;> simp

/-- Once the search has succeeded, the first store goes to `FIDT[base]`. -/
theorem base_mem_accesses {num base : Nat} (files : FileTable) (hnum : 0 < num)
    (hroom : num ≤ (emptyFids fidt 0).length) : base ∈ fcbReserveAccesses files fidt num base := by
  have hlen : ¬ (findFids fidt num 0).length < num := by
    rw [findFids_eq fidt num 0 (Nat.zero_le _), List.length_take]
    omega
  have hmem : base ∈ (List.range (acquireFCBs num files).2.length).map (base + ·) :=
    List.mem_map.mpr ⟨0, List.mem_range.mpr (acquireFCBs_length num files hnum), rfl⟩
  simp only [fcbReserveAccesses, hlen, if_false]
  exact List.mem_append_right _ (List.mem_append_left _ hmem)

/-- When the search fails, nothing but the search touches FIDT. -/
theorem accesses_short {num base : Nat} (files : FileTable)
    (hroom : (emptyFids fidt 0).length < num)
    (h : i ∈ fcbReserveAccesses files fidt num base) : i < maxFileid := by
  have hlen : (findFids fidt num 0).length < num := by
    rw [findFids_eq fidt num 0 (Nat.zero_le _), List.length_take]
    omega
  simp only [fcbReserveAccesses, hlen, if_true, List.append_nil] at h
  exact findFidsReads_lt h

end Accesses

/-! ### The slot of a socket -/

structure OwnSlotOnly (k : IoKernel) (p : Pid) (port : Int) : Prop where
  opened : ∀ s : Nat, (sysSocket k p port).2 = s → ∃ f rest, k.Free p s f rest ∧
    (sysSocket k p port).1.procs p =
      { k.procs p with fidt := Function.update (k.procs p).fidt s (some f) } ∧
    ((sysSocket k p port).1.files.ft f).refcount = 1 ∧
    ((sysSocket k p port).1.files.ft f).streamobj = .socket k.sockets.length ∧
    (sysSocket k p port).1.sockets =
    k.sockets ++ [⟨0, some f, .unbound, port, .uninitialized, condInit⟩]
  failed : (sysSocket k p port).2 = noFile → (sysSocket k p port).1.procs p = k.procs p
  bounds : ∀ i ∈ sysSocketAccesses k p port, i < maxFileid

theorem reserve_full {k : IoKernel} {p : Pid} (h : (emptyFids (k.procs p).fidt 0).length < 1) :
    k.reserve p = (k, ⟨[], [], false⟩) := by
  have hfind : findFids (k.procs p).fidt 1 0 = [] := by
    rw [findFids_eq _ 1 0 (Nat.zero_le _), List.length_eq_zero_iff.mp (Nat.lt_one_iff.mp h)]
    rfl
  simp [IoKernel.reserve, fcbReserve, hfind, setProc_same]

/-- `sys_Socket` keeps to its slot exactly when it never gets to store an FCB. -/
theorem socket_slot_exact (k : IoKernel) (p : Pid) (port : Int) : OwnSlotOnly k p port ↔
    (port > maxPort ∨ port < noPort) ∨ ∀ i, i < maxFileid → (k.procs p).fidt i ≠ none := by
  have hempty : (∀ i, i < maxFileid → (k.procs p).fidt i ≠ none) ↔
      (emptyFids (k.procs p).fidt 0).length < 1 := by
    rw [Nat.lt_one_iff, List.length_eq_zero_iff, List.eq_nil_iff_forall_not_mem]
    simp only [mem_emptyFids, Nat.zero_le, true_and, not_and]
  rw [hempty]
  constructor
  · intro h
    by_contra hnot
    obtain ⟨hport, hroom⟩ := not_or.mp hnot
    have hmem : maxFileid ∈ sysSocketAccesses k p port := by
      simp only [sysSocketAccesses, hport, if_false]
      exact List.mem_append_left _ (base_mem_accesses k.files Nat.one_pos (Nat.le_of_not_lt hroom))
    exact absurd (h.bounds maxFileid hmem) (Nat.lt_irrefl _)
  · intro h
    have hrefused : sysSocket k p port = (k, noFile) := by
      rcases h with hport | hroom
      · simp only [sysSocket, hport, if_true]
      · unfold sysSocket
        rw [reserve_full hroom]
        split <;> rfl
    refine ⟨fun s hs => ?_, fun _ => by rw [hrefused], fun i hi => ?_⟩
    · rw [hrefused] at hs
      simp only [noFile] at hs
      omega
    · simp only [sysSocketAccesses] at hi
      split at hi
      · cases hi
      · rename_i hport
        have hroom := h.resolve_left hport
        rw [reserve_full hroom] at hi
        simp only [List.append_nil] at hi
        exact accesses_short k.files hroom hi

def oneFcb : IoKernel := { bootIo 0 with files := { initializeFiles with fcbFreelist := [0] } }

theorem socket_slot_ptcbList : (sysSocket oneFcb 1 0).2 = 0 ∧
    (oneFcb.procs 1).fidt maxFileid = none ∧
    ((sysSocket oneFcb 1 0).1.procs 1).fidt maxFileid = some 0 ∧ ¬ OwnSlotOnly oneFcb 1 0 := by
  refine ⟨by decide, rfl, by decide, fun h => ?_⟩
  exact absurd (h.bounds maxFileid (by decide)) (Nat.lt_irrefl _)

end TinyOS
