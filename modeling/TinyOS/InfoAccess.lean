import TinyOS.InfoStream

/-! The memory that `procinfo_read` uses, apart from the process table: the stream object, the
arguments of processes and the buffer of the caller. -/

namespace TinyOS

open LittleEndian

/-- Bytes of the stream object that are read or written; what is copied into the field `args`, and
from where; the number of bytes that are written to the buffer. -/
inductive InfoAccess
  | object (offset len : Nat)
  | args (src : Args) (n : Nat)
  | buffer (n : Nat)

/-- The pointer `info` takes the first 8 bytes of the object. -/
def InfoAccess.info : InfoAccess := .object 0 8

def InfoAccess.cursor : InfoAccess := .object 8 4

/-- What the loop does for a process: each field of the record is reached through `info`, and the
record is copied from `&procinfocb->info`. -/
def recordAccesses (pcb : PCB) : List InfoAccess :=
  [.info, .info, .info, .info, .info, .info, .info, .args pcb.args (toUnsigned 64 pcb.argl),
    .object 0 sizeofProcinfo, .buffer sizeofProcinfo, .cursor]

def roundAccesses (pt : Pid → PCB) : Nat → Nat → List InfoAccess
  | 0, _ => []
  | rounds + 1, cursor =>
    if hc : cursor < maxProc then
      let pcb := pt ⟨cursor, hc⟩
      if pcb.pstate = .alive ∨ pcb.pstate = .zombie then .cursor :: recordAccesses pcb
      else .cursor :: .cursor :: roundAccesses pt rounds (cursor + 1)
    else []

def infoAccesses (pt : Pid → PCB) (cursor : Nat) : List InfoAccess :=
  .cursor :: roundAccesses pt (maxProc - 1 - cursor) cursor

/-- What is asked of a `Read` with a buffer of `size` bytes, of a stream of whose object
`sys_OpenInfo` has initialised the cursor. -/
structure ReadWithin (pt : Pid → PCB) (cursor size : Nat) : Prop where
  buffer : ∀ n, .buffer n ∈ infoAccesses pt cursor → n ≤ size
  field : ∀ src n, .args src n ∈ infoAccesses pt cursor → n ≤ procinfoMaxArgsSize
  block : ∀ src n, .args src n ∈ infoAccesses pt cursor → n ≤ (src.getD []).length
  object : ∀ offset len, .object offset len ∈ infoAccesses pt cursor →
    8 ≤ offset ∧ offset + len ≤ 12

section Accesses

variable {pt : Pid → PCB} {cursor size : Nat} {p : Pid}

/-- Passing over free PCBs takes nothing but the cursor. -/
theorem roundAccesses_skip {n : Nat} (hj : cursor + n ≤ maxProc - 1)
    (hfree : ∀ q : Pid, cursor ≤ q.val → q.val < cursor + n → (pt q).pstate = .free) :
    ∃ l, (∀ a ∈ l, a = InfoAccess.cursor) ∧
      roundAccesses pt (maxProc - 1 - cursor) cursor =
        l ++ roundAccesses pt (maxProc - 1 - (cursor + n)) (cursor + n) := by
  induction n generalizing cursor with
  | zero => exact ⟨[], by simp, rfl⟩
  | succ n ih =>
    obtain ⟨l, hl, hrest⟩ := @ih (cursor + 1) (by omega) fun q h1 h2 =>
      hfree q (by omega) (by omega)
    have hc : cursor < maxProc := by omega
    have hthis : (pt ⟨cursor, hc⟩).pstate = .free := hfree _ (Nat.le_refl _) (by simp only; omega)
    refine ⟨.cursor :: .cursor :: l, by simpa using hl, ?_⟩
    rw [show maxProc - 1 - cursor = maxProc - 1 - (cursor + 1) + 1 by omega,
      roundAccesses, dif_pos hc]
    simp only [hthis]
    rw [if_neg (by simp), hrest, show cursor + 1 + n = cursor + (n + 1) by omega]
    rfl

theorem infoAccesses_used (h : FirstUsed pt cursor p) :
    ∃ l, (∀ a ∈ l, a = InfoAccess.cursor) ∧ infoAccesses pt cursor =
    l ++ recordAccesses (pt p) := by
  have hle := h.le
  have hlt := h.lt
  obtain ⟨l, hl, hrest⟩ := @roundAccesses_skip pt cursor (p.val - cursor) (by omega)
    fun q h1 h2 => h.least q h1 (by omega)
  have hpstate : (pt p).pstate = .alive ∨ (pt p).pstate = .zombie := by
    cases hs : (pt p).pstate with
    | free => exact absurd hs h.used
    | alive => exact .inl rfl
    | zombie => exact .inr rfl
  have hround : roundAccesses pt (maxProc - 1 - p.val) p.val =
      .cursor :: recordAccesses (pt p) := by
    rw [show maxProc - 1 - p.val = maxProc - 1 - p.val - 1 + 1 by omega,
      roundAccesses, dif_pos p.isLt]
    simp only [if_pos hpstate]
  rw [show cursor + (p.val - cursor) = p.val by omega, hround] at hrest
  refine ⟨.cursor :: l ++ [.cursor], fun a ha => ?_, ?_⟩
  · simp only [List.cons_append, List.mem_cons, List.mem_append, List.not_mem_nil, or_false] at ha
    rcases ha with ha | ha | ha
    · exact ha
    · exact hl a ha
    · exact ha
  · rw [infoAccesses, hrest]
    simp

theorem infoAccesses_unused
    (h : ∀ q : Pid, cursor ≤ q.val → q.val < maxProc - 1 → (pt q).pstate = .free) :
    ∀ a ∈ infoAccesses pt cursor, a = .cursor := by
  intro a ha
  rw [infoAccesses, List.mem_cons] at ha
  rcases ha with ha | ha
  · exact ha
  · by_cases hle : cursor ≤ maxProc - 1
    · obtain ⟨l, hl, hrest⟩ := @roundAccesses_skip pt cursor (maxProc - 1 - cursor) (by omega)
        fun q h1 h2 => h q h1 (by omega)
      rw [hrest, show maxProc - 1 - (cursor + (maxProc - 1 - cursor)) = 0 by omega, roundAccesses,
        List.append_nil] at ha
      exact hl a ha
    · rw [show maxProc - 1 - cursor = 0 by omega, roundAccesses] at ha
      cases ha

end Accesses

/-- The blocks of the stream object, of the record that the pointer leads to, of the arguments of
the process and of the caller's buffer. -/
def InfoAccess.Inside (cb : ProcInfoCb) (size : Nat) : InfoAccess → Prop
  | .object offset len => offset + len ≤ cb.block.length
  | .args src n => cb.info.isSome = true ∧ n ≤ (src.getD []).length ∧ n ≤ procinfoMaxArgsSize
  | .buffer n => n ≤ size

theorem InfoAccess.cursor_inside (cb : ProcInfoCb) (size : Nat) :
    InfoAccess.cursor.Inside cb size := by
  show 8 + 4 ≤ cb.block.length
  rw [cb.block_length]
  decide

theorem recordAccesses_inside {cb : ProcInfoCb} {size : Nat} {pcb : PCB} :
    (∀ a ∈ recordAccesses pcb, a.Inside cb size) ↔
      (cb.info.isSome = true ∧ toUnsigned 64 pcb.argl ≤ (pcb.args.getD []).length ∧
        toUnsigned 64 pcb.argl ≤ procinfoMaxArgsSize) ∧
      sizeofProcinfo ≤ cb.block.length ∧ sizeofProcinfo ≤ size := by
  have hcursor := InfoAccess.cursor_inside cb size
  have hinfo : InfoAccess.info.Inside cb size := by
    show 0 + 8 ≤ cb.block.length
    rw [cb.block_length]
    decide
  simp only [recordAccesses, List.forall_mem_cons, hcursor, hinfo, true_and]
  simp [InfoAccess.Inside]

/-- A read is defined exactly if each of its accesses stays inside its block. -/
theorem procinfoRead_isSome_iff (pt : Pid → PCB) (cb : ProcInfoCb) (buf : List UInt8) :
    (procinfoRead pt cb buf).isSome = true ↔
      ∀ a ∈ infoAccesses pt cb.cursor, a.Inside cb buf.length := by
  by_cases hfree : ∀ q : Pid, cb.cursor ≤ q.val → q.val < maxProc - 1 → (pt q).pstate = .free
  · refine iff_of_true (by rw [procinfoRead_unused hfree]; rfl) fun a ha => ?_
    rw [infoAccesses_unused hfree a ha]
    exact InfoAccess.cursor_inside cb _
  · obtain ⟨p, hp⟩ := exists_firstUsed hfree
    obtain ⟨l, hl, htrace⟩ := infoAccesses_used hp
    have hrecord : (∀ a ∈ infoAccesses pt cb.cursor, a.Inside cb buf.length) ↔
        ∀ a ∈ recordAccesses (pt p), a.Inside cb buf.length := by
      rw [htrace, List.forall_mem_append]
      exact and_iff_right fun a ha => hl a ha ▸ InfoAccess.cursor_inside cb _
    rw [procinfoRead, procinfoReadFrom_skip hp.le (Nat.le_of_lt hp.lt) rfl hp.least,
      procinfoReadFrom_record hp.lt rfl hp.used, hrecord, recordAccesses_inside]
    cases hinfo : cb.info with
    | none => simp
    | some info =>
      rw [Option.bind_some, ← info.fill_isSome_iff p]
      cases hfill : info.fill p (pt p) with
      | none => simp
      | some info' => simp [memcpy_isSome_iff, ProcInfoCb.block_length]

/-- What a `Read` that finds the process `p` keeps of each bound. -/
structure BoundsKept (pt : Pid → PCB) (cursor size : Nat) (p : Pid) : Prop where
  buffer : (∀ n, .buffer n ∈ infoAccesses pt cursor → n ≤ size) ↔ sizeofProcinfo ≤ size
  field : (∀ src n, .args src n ∈ infoAccesses pt cursor → n ≤ procinfoMaxArgsSize) ↔
    toUnsigned 64 (pt p).argl ≤ procinfoMaxArgsSize
  block : (∀ src n, .args src n ∈ infoAccesses pt cursor → n ≤ (src.getD []).length) ↔
    toUnsigned 64 (pt p).argl ≤ ((pt p).args.getD []).length
  object : ¬ ∀ offset len, .object offset len ∈ infoAccesses pt cursor →
    8 ≤ offset ∧ offset + len ≤ 12

theorem FirstUsed.boundsKept {pt : Pid → PCB} {cursor : Nat} {p : Pid}
    (h : FirstUsed pt cursor p) (size : Nat) :
    BoundsKept pt cursor size p := by
  obtain ⟨l, hl, htrace⟩ := infoAccesses_used h
  have hmem : ∀ a, a ≠ InfoAccess.cursor →
      (a ∈ infoAccesses pt cursor ↔ a ∈ recordAccesses (pt p)) := by
    intro a ha
    rw [htrace, List.mem_append]
    exact or_iff_right fun hm => ha (hl a hm)
  have hbuffer : ∀ n, InfoAccess.buffer n ∈ infoAccesses pt cursor ↔
      n = sizeofProcinfo := fun n => by
    rw [hmem _ (by simp [InfoAccess.cursor])]
    simp [recordAccesses, InfoAccess.info, InfoAccess.cursor]
  have hargs : ∀ src n, InfoAccess.args src n ∈ infoAccesses pt cursor ↔
      src = (pt p).args ∧ n = toUnsigned 64 (pt p).argl := fun src n => by
    rw [hmem _ (by simp [InfoAccess.cursor])]
    simp [recordAccesses, InfoAccess.info, InfoAccess.cursor]
  refine ⟨?_, ?_, ?_, fun hobject => ?_⟩
  · simp only [hbuffer, forall_eq]
  · simp only [hargs, and_imp, forall_eq_apply_imp_iff, forall_eq]
  · simp only [hargs, and_imp, forall_eq_apply_imp_iff, forall_eq]
  · have hrecord : InfoAccess.info ∈ recordAccesses (pt p) := by simp [recordAccesses]
    have hinfo := (hmem InfoAccess.info (by simp [InfoAccess.info, InfoAccess.cursor])).mpr hrecord
    exact absurd (hobject 0 8 hinfo).1 (by decide)

/-- A `Read` stays within its bounds exactly if it finds no process. One that does goes through the
pointer that `sys_OpenInfo` has left out, and may break each of the other bounds. -/
theorem info_read_within (pt : Pid → PCB) (cursor size : Nat) :
    (ReadWithin pt cursor size ↔ ∀ q : Pid, cursor ≤ q.val → q.val < maxProc - 1 →
      (pt q).pstate = .free) ∧ ∀ p, FirstUsed pt cursor p → BoundsKept pt cursor size p := by
  refine ⟨⟨fun h => ?_, fun hfree => ?_⟩, fun p h => h.boundsKept size⟩
  · by_contra hnot
    obtain ⟨p, hp⟩ := exists_firstUsed hnot
    exact (hp.boundsKept size).object h.object
  · have honly := infoAccesses_unused hfree
    refine ⟨fun n h => ?_, fun src n h => ?_, fun src n h => ?_, fun offset len h => ?_⟩
    · cases honly _ h
    · cases honly _ h
    · cases honly _ h
    · obtain ⟨rfl, rfl⟩ : offset = 8 ∧ len = 4 := by simpa [InfoAccess.cursor] using honly _ h
      decide

/-- The first `Read` after booting finds the idle process. -/
theorem bootKernel_readBeyond : ¬ ReadWithin (bootKernel 0 0 none 1).pt 0 sizeofProcinfo := by
  intro h
  have hinfo : InfoAccess.info ∈ infoAccesses (bootKernel 0 0 none 1).pt 0 := by
    have hused : FirstUsed (bootKernel 0 0 none 1).pt 0 0 := by
      refine ⟨Nat.le_refl _, by decide, ?_, fun q _ hq => absurd hq (Nat.not_lt_zero _)⟩
      rw [bootKernel_eq]
      simp [idlePcb]
    obtain ⟨l, -, htrace⟩ := infoAccesses_used hused
    rw [htrace]
    simp [recordAccesses]
  exact absurd (h.object 0 8 hinfo).1 (by decide)

end TinyOS
