import TinyOS.ExecFormat

/-! The information stream of `OpenInfo`: `procinfo_read` scans `PT` from the cursor. -/

namespace TinyOS

open LittleEndian

def sizeofProcinfo : Nat := 168

/-- `info` is the record that the pointer `addr` leads to, if it leads to one. -/
structure ProcInfoCb where
  addr : BitVec 64
  info : Option ProcInfo
  cursor : Nat

/-- `sys_OpenInfo` gives the cursor its value; the pointer is what `xmalloc` left there. -/
def openInfoCb (addr : BitVec 64) (info : Option ProcInfo) : ProcInfoCb := ⟨addr, info, 0⟩

def ProcInfoCb.block (cb : ProcInfoCb) : List UInt8 :=
  store 8 cb.addr.toNat ++ store 4 cb.cursor ++ List.replicate 4 0

/-- `memcpy`, which may not go beyond either block. -/
def memcpy (dest src : List UInt8) (n : Nat) : Option (List UInt8) :=
  if n ≤ src.length ∧ n ≤ dest.length then some (src.take n ++ dest.drop n) else none

theorem memcpy_length {dest src out : List UInt8} {n : Nat} (h : memcpy dest src n = some out) :
    out.length = dest.length := by
  unfold memcpy at h
  split at h
  · rename_i hn
    obtain rfl := Option.some.inj h
    simp only [List.length_append, List.length_take, List.length_drop]
    omega
  · simp at h

theorem memcpy_isSome_iff {dest src : List UInt8} {n : Nat} :
    (memcpy dest src n).isSome = true ↔ n ≤ src.length ∧ n ≤ dest.length := by
  by_cases h : n ≤ src.length ∧ n ≤ dest.length <;> simp [memcpy, h]

def ProcInfo.fill (info : ProcInfo) (p : Pid) (pcb : PCB) : Option ProcInfo :=
  match h : memcpy info.args (pcb.args.getD []) (toUnsigned 64 pcb.argl) with
  | none => none
  | some args => some {
      pid := getPid (some p)
      ppid := getPid pcb.parent
      alive := if pcb.pstate = .alive then 1 else 0
      threadCount := toUnsigned 64 pcb.threadCount
      mainTask := pcb.mainTask
      argl := pcb.argl
      args := args
      argsSize := (memcpy_length h).trans info.argsSize }

theorem ProcInfo.fill_isSome_iff (info : ProcInfo) (p : Pid) (pcb : PCB) :
    (info.fill p pcb).isSome = true ↔ toUnsigned 64 pcb.argl ≤ (pcb.args.getD []).length ∧
      toUnsigned 64 pcb.argl ≤ procinfoMaxArgsSize := by
  rw [← info.argsSize, ← memcpy_isSome_iff, ProcInfo.fill]
  split
  · rename_i h
    simp [h]
  · rename_i h
    simp [h]

/-- The loop of `procinfo_read`, from index `i` on: the stream, the buffer and the value
returned. -/
def procinfoReadFrom (pt : Pid → PCB) (i : Nat) (cb : ProcInfoCb) (buf : List UInt8) :
    Option (ProcInfoCb × List UInt8 × Int) :=
  if hi : i < maxProc - 1 then
    if hc : cb.cursor < maxProc then
      let pcb := pt ⟨cb.cursor, hc⟩
      if pcb.pstate = .alive ∨ pcb.pstate = .zombie then
        (cb.info.bind fun info => info.fill ⟨cb.cursor, hc⟩ pcb).bind fun info =>
          let cb := { cb with info := some info }
          -- from `&procinfocb->info`, which is where the pointer is
          (memcpy buf cb.block sizeofProcinfo).map fun buf =>
            ({ cb with cursor := cb.cursor + 1 }, buf, if i = maxProc - 1 then 0
              else sizeofProcinfo)
      else procinfoReadFrom pt (i + 1) { cb with cursor := cb.cursor + 1 } buf
    else none
  else some (cb, buf, 0)
termination_by maxProc - 1 - i
decreasing_by omega

def procinfoRead (pt : Pid → PCB) (cb : ProcInfoCb) (buf : List UInt8) :
    Option (ProcInfoCb × List UInt8 × Int) :=
  procinfoReadFrom pt cb.cursor cb buf

/-- Reads with buffers of `size` bytes until one returns 0, with what each of the others leaves in
the first `sizeof(procinfo)` bytes of its buffer. -/
inductive InfoReads (pt : Pid → PCB) (size : Nat) : ProcInfoCb → List (List UInt8) → Prop
  | last {cb cb' : ProcInfoCb} {buf buf' : List UInt8} : buf.length = size →
      procinfoRead pt cb buf = some (cb', buf', 0) → InfoReads pt size cb []
  | more {cb cb' : ProcInfoCb} {buf buf' : List UInt8} {r : Int} {rest : List (List UInt8)} :
      buf.length = size → procinfoRead pt cb buf = some (cb', buf', r) →
      0 < r → InfoReads pt size cb' rest →
      InfoReads pt size cb (buf'.take sizeofProcinfo :: rest)

/-! ### What the stream is for -/

def ProcInfo.bytes (r : ProcInfo) : List UInt8 :=
  store 4 (toUnsigned 32 r.pid) ++ store 4 (toUnsigned 32 r.ppid) ++ store 4
    (toUnsigned 32 r.alive) ++
    List.replicate 4 0 ++ store 8 (toUnsigned 64 r.threadCount) ++ store 8 (r.mainTask.getD 0) ++
    store 4 (toUnsigned 32 r.argl) ++ r.args ++ List.replicate 4 0

structure ProcInfo.IsOf (r : ProcInfo) (p : Pid) (pcb : PCB) : Prop where
  pid : r.pid = p.val
  ppid : r.ppid = (pcb.parent.map fun q => (q.val : Int)).getD noProc
  alive : r.alive ≠ 0 ↔ pcb.pstate = .alive
  threadCount : r.threadCount = pcb.threadCount
  mainTask : r.mainTask = pcb.mainTask
  argl : r.argl = pcb.argl
  args : ∀ i, i < min pcb.argl.toNat procinfoMaxArgsSize → r.args[i]? = (pcb.args.getD [])[i]?

def usedPids (pt : Pid → PCB) : List Pid := (List.finRange maxProc).filter fun p =>
  (pt p).pstate ≠ .free

/-- The stream returns the records of all the processes, in the order of their pids. -/
def InfoComplete (pt : Pid → PCB) (addr : BitVec 64) (info : Option ProcInfo) : Prop :=
  ∀ size, sizeofProcinfo ≤ size → ∃ out, InfoReads pt size (openInfoCb addr info) out ∧
    List.Forall₂ (fun p bytes => ∃ r : ProcInfo, r.IsOf p (pt p) ∧ bytes = r.bytes)
      (usedPids pt) out

structure FirstUsed (pt : Pid → PCB) (cursor : Nat) (p : Pid) : Prop where
  le : cursor ≤ p.val
  lt : p.val < maxProc - 1
  used : (pt p).pstate ≠ .free
  least : ∀ q : Pid, cursor ≤ q.val → q.val < p.val → (pt q).pstate = .free

section Reads

variable {pt : Pid → PCB} {cb cb' : ProcInfoCb} {buf buf' : List UInt8} {i j : Nat} {r : Int}

theorem ProcInfoCb.block_length (cb : ProcInfoCb) : cb.block.length = 16 := by
  simp [ProcInfoCb.block]

theorem memcpy_block (cb : ProcInfoCb) (buf : List UInt8) :
    memcpy buf cb.block sizeofProcinfo = none := by
  rw [memcpy, if_neg]
  rw [cb.block_length]
  exact fun h => absurd h.1 (by decide)

theorem procinfoReadFrom_skip (hij : i ≤ j) (hj : j ≤ maxProc - 1) (hcursor : cb.cursor = i)
    (hfree : ∀ q : Pid, i ≤ q.val → q.val < j → (pt q).pstate = .free) :
    procinfoReadFrom pt i cb buf = procinfoReadFrom pt j { cb with cursor := j } buf := by
  induction hk : j - i generalizing i cb with
  | zero =>
    obtain rfl : i = j := by omega
    rw [← hcursor]
  | succ d ih =>
    have hc : cb.cursor < maxProc := by omega
    have hthis : (pt ⟨cb.cursor, hc⟩).pstate = .free :=
      hfree _ (by simp [hcursor]) (by simp only; omega)
    conv_lhs => unfold procinfoReadFrom
    rw [dif_pos (by omega), dif_pos hc]
    simp only [hthis]
    rw [if_neg (by simp)]
    refine ih (by omega) (by simp [hcursor]) (fun q hq => hfree q (by omega)) (by omega)

/-- At a PCB that is not free the loop fills the record and copies it. -/
theorem procinfoReadFrom_record {p : Pid} (hp : p.val < maxProc - 1) (hcursor : cb.cursor = p.val)
    (hused : (pt p).pstate ≠ .free) : procinfoReadFrom pt p cb buf =
      (cb.info.bind fun info => info.fill p (pt p)).bind fun info =>
        (memcpy buf { cb with info := some info }.block sizeofProcinfo).map fun buf =>
          (({ cb with info := some info, cursor := cb.cursor + 1 } : ProcInfoCb), buf,
            if p.val = maxProc - 1 then (0 : Int) else sizeofProcinfo) := by
  have hc : cb.cursor < maxProc := by omega
  have hthis : (⟨cb.cursor, hc⟩ : Pid) = p := Fin.ext hcursor
  have hpstate : (pt p).pstate = .alive ∨ (pt p).pstate = .zombie := by
    cases hs : (pt p).pstate with
    | free => exact absurd hs hused
    | alive => exact .inl rfl
    | zombie => exact .inr rfl
  unfold procinfoReadFrom
  rw [dif_pos hp, dif_pos hc, hthis]
  simp only [if_pos hpstate]

/-- That goes through a pointer without an object, or beyond one. -/
theorem procinfoReadFrom_used {p : Pid} (hp : p.val < maxProc - 1) (hcursor : cb.cursor = p.val)
    (hused : (pt p).pstate ≠ .free) : procinfoReadFrom pt p cb buf = none := by
  rw [procinfoReadFrom_record hp hcursor hused]
  simp only [memcpy_block, Option.map_none]
  cases cb.info.bind fun info => info.fill p (pt p) <;> rfl

theorem exists_firstUsed
    (h : ¬ ∀ q : Pid, i ≤ q.val → q.val < maxProc - 1 → (pt q).pstate = .free) :
    ∃ p, FirstUsed pt i p := by
  push Not at h
  obtain ⟨q, h1, h2, hused⟩ := h
  have hex : ∃ n, ∃ hn : n < maxProc, i ≤ n ∧ (pt ⟨n, hn⟩).pstate ≠ .free :=
    ⟨q.val, q.isLt, h1, hused⟩
  classical
  obtain ⟨hlt, hle, hne⟩ := Nat.find_spec hex
  have hmin : Nat.find hex ≤ q.val := Nat.find_min' hex ⟨q.isLt, h1, hused⟩
  refine ⟨⟨Nat.find hex, hlt⟩, hle, hmin.trans_lt h2, hne, fun r hr hrlt => ?_⟩
  by_contra hr'
  exact Nat.find_min hex hrlt ⟨r.isLt, hr, hr'⟩

theorem procinfoRead_used {p : Pid} (h : FirstUsed pt cb.cursor p) :
    procinfoRead pt cb buf = none := by
  rw [procinfoRead, procinfoReadFrom_skip h.le (Nat.le_of_lt h.lt) rfl h.least]
  exact procinfoReadFrom_used h.lt rfl h.used

theorem procinfoRead_unused
    (hfree : ∀ q : Pid, cb.cursor ≤ q.val → q.val < maxProc - 1 → (pt q).pstate = .free) :
    procinfoRead pt cb buf = some ({ cb with cursor := max cb.cursor (maxProc - 1) }, buf, 0) := by
  rcases Nat.le_total cb.cursor (maxProc - 1) with hle | hle
  · rw [procinfoRead, procinfoReadFrom_skip hle (Nat.le_refl _) rfl hfree, Nat.max_eq_right hle]
    unfold procinfoReadFrom
    rw [dif_neg (Nat.lt_irrefl _)]
  · rw [procinfoRead, Nat.max_eq_left hle]
    unfold procinfoReadFrom
    rw [dif_neg (Nat.not_lt.mpr hle)]

theorem mem_usedPids {p : Pid} : p ∈ usedPids pt ↔ (pt p).pstate ≠ .free := by
  simp [usedPids]

theorem InfoComplete.free {addr : BitVec 64} {info : Option ProcInfo}
    (h : InfoComplete pt addr info) (p : Pid) :
    (pt p).pstate = .free := by
  obtain ⟨out, hreads, hall⟩ := h sizeofProcinfo (Nat.le_refl _)
  have hbelow : ∀ q : Pid, q.val < maxProc - 1 → (pt q).pstate = .free := by
    intro q hq
    by_contra hused
    obtain ⟨p, hp⟩ := exists_firstUsed (i := 0) fun h => hused (h q (Nat.zero_le _) hq)
    have hnone : ∀ buf, procinfoRead pt (openInfoCb addr info) buf = none := fun _ =>
      procinfoRead_used hp
    cases hreads with
    | last _ hr => simp [hnone] at hr
    | more _ hr => simp [hnone] at hr
  -- so the first read returns 0, and there is no record
  cases hreads with
  | last _ _ =>
    by_contra hused
    have hmem := mem_usedPids.mpr hused
    rw [List.forall₂_nil_right_iff] at hall
    simp [hall] at hmem
  | more _ hr hpos _ =>
    rw [procinfoRead_unused fun q _ hq => hbelow q hq] at hr
    simp only [Option.some.injEq, Prod.mk.injEq] at hr
    omega

end Reads

theorem infoComplete_iff (pt : Pid → PCB) (addr : BitVec 64) (info : Option ProcInfo) :
    InfoComplete pt addr info ↔ ∀ p, (pt p).pstate = .free := by
  constructor
  · exact fun h p => h.free p
  · intro h size hsize
    refine ⟨[], .last (List.length_replicate (n := size) (a := 0))
      (procinfoRead_unused fun q _ _ => h q), ?_⟩
    rw [List.forall₂_nil_right_iff, usedPids, List.filter_eq_nil_iff]
    simp [h]

/-- The idle process and the initial process are alive. -/
theorem bootKernel_infoIncomplete : ¬ InfoComplete (bootKernel 0 0 none 1).pt 0 none := by
  intro h
  have hidle := h.free 0
  rw [bootKernel_eq] at hidle
  simp [idlePcb] at hidle

end TinyOS
