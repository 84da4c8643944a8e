import TinyOS.IoRun

/-! `process_line` of the shell: a command line is split into the fragments of a pipeline, which are
started from left to right. -/

namespace TinyOS

open Transition

/-- The fragments between the words that are `|`. -/
def pipelineFragments : List String → List (List String)
  | [] => [[]]
  | a :: rest =>
    if a = "|" then [] :: pipelineFragments rest
    else
      match pipelineFragments rest with
      | [] => [[a]]
      | frag :: frags => (a :: frag) :: frags

def cmdnames : List String :=
  ["help", "ls", "sysinfo", "runterm", "sh", "repeat", "fibo", "cap", "lcase",
    "wc", "lenum", "more", "symposium",
    "symp_thr", "hanoi", "rserver", "rcli", "echo"]

def accepted (frags : List (List String)) : Bool :=
  frags.all fun frag =>
    match frag with
    | [] => false
    | name :: _ => cmdnames.contains name

def IoResult.result (res : IoResult) : Option (IoKernel × IoRet) :=
  res.bind fun (k, ret) => ret.map fun ret => (k, ret)

/-- Absent if the assertion fails. -/
def savefid (k : IoKernel) (p : Pid) (fsaved : Int) : Option (IoKernel × Int) :=
  (sysOpenNull k p).result.bind fun (k, savior) =>
    if savior.val = noFile then none
    else (sysDup2 k p fsaved savior.val).result.map fun (k, _) => (k, savior.val)

/-- `Dup2(from, to); Close(from)`. -/
def moveFid (k : IoKernel) (p : Pid) (oldfd newfd : Int) : Option IoKernel :=
  (sysDup2 k p oldfd newfd).result.bind fun (k, _) => (sysClose k p oldfd).result.map Prod.fst

/-- `Execute`, which gets the PCB `child` from the free list. -/
def executeChild (k : IoKernel) (p child : Pid) : Option IoKernel :=
  if (k.procs child).pstate = .free then (ioExec k p child true).result.map Prod.fst else none

/-- What a pipeline has been given: the FCBs of the read end and of the write end of each pipe, and
the children. -/
structure Pipeline where
  kernel : IoKernel
  pipes : List (Option FcbId × Option FcbId)
  children : List Pid

/-- The loop of `process_line`, for the fragments that are left. -/
def startFragments (p : Pid) (savein saveout : Int) (garbage : Nat → UInt8) :
    List (List String) → List Pid → IoKernel → Option Pipeline
  | [], _, k => some ⟨k, [], []⟩
  | _ :: _, [], _ => none
  | [_], child :: _, k =>
    (moveFid k p saveout 1).bind fun k => (executeChild k p child).bind fun k =>
      (moveFid k p savein 0).map fun k => ⟨k, [], [child]⟩
  | _ :: frag :: frags, child :: pids, k =>
    (sysPipe k p garbage).result.bind fun (k, ret) =>
      match ret with
      | ⟨0, _, [read, write]⟩ =>
        let ends := (getFcb k p read, getFcb k p write)
        (moveFid k p write 1).bind fun k => (executeChild k p child).bind fun k =>
          (moveFid k p read 0).bind fun k =>
          (startFragments p savein saveout garbage (frag :: frags) pids k).map fun r =>
            ⟨r.kernel, ends :: r.pipes, child :: r.children⟩
      -- the fids are not those of a pipe
      | _ => none

/-- `process_line` of process `p`, up to the point where the children are started; `pids` are those
that the free list of PCBs hands out. The inner value is absent for a line that is not accepted. -/
def processLine (k : IoKernel) (p : Pid) (argv : List String) (pids : List Pid)
    (garbage : Nat → UInt8) :
    Option (Option Pipeline) :=
  let frags := pipelineFragments argv
  if accepted frags then
    (savefid k p 0).bind fun (k, savein) => (savefid k p 1).bind fun (k, saveout) =>
      (startFragments p savein saveout garbage frags pids k).map some
  else some none

/-- The pipe ends are held by their users only, and the streams of the shell are what they were in
`k`. -/
structure Pipeline.Clean (r : Pipeline) (k : IoKernel) (p : Pid) : Prop where
  writes : ∀ (i : Nat) read write q fd, r.pipes[i]? = some (read, some write) → fd < maxFileid →
    (r.kernel.procs q).fidt fd = some write → r.children[i]? = some q
  reads : ∀ (i : Nat) read write q fd, r.pipes[i]? = some (some read, write) → fd < maxFileid →
    (r.kernel.procs q).fidt fd = some read → r.children[i + 1]? = some q
  stdin : ∀ q, r.children.head? = some q → (r.kernel.procs q).fidt 0 = (k.procs p).fidt 0
  stdout : ∀ q, r.children.getLast? = some q → (r.kernel.procs q).fidt 1 = (k.procs p).fidt 1
  restored : ∀ fd, fd < maxFileid → (r.kernel.procs p).fidt fd = (k.procs p).fidt fd

section Calls

variable {k k' : IoKernel} {p q child : Pid} {i j : Nat} {f : FcbId} {ret : IoRet}

theorem result_some {res : IoResult} (h : res.result = some (k', ret)) :
    res = some (k', some ret) := by
  obtain ⟨⟨k₁, o⟩, rfl, ho⟩ := Option.bind_eq_some_iff.mp h
  obtain ⟨r, rfl, hr⟩ := Option.map_eq_some_iff.mp ho
  obtain ⟨rfl, rfl⟩ := Prod.mk.inj hr
  rfl

theorem fidt_setFidt (k : IoKernel) (p : Pid) (i : Nat) (x : Option FcbId) :
    ((k.setFidt p i x).procs p).fidt = Function.update (k.procs p).fidt i x := by
  simp [IoKernel.setFidt, IoKernel.setProc]

theorem procs_setFidt_ne (k : IoKernel) (i : Nat) (x : Option FcbId) (hq : q ≠ p) :
    (k.setFidt p i x).procs q = k.procs q := by
  simp [IoKernel.setFidt, IoKernel.setProc, hq]

theorem procs_setFidt_same (h : (k.procs p).fidt i = some f) :
    (k.setFidt p i (some f)).procs = k.procs := by
  funext q
  by_cases hq : q = p
  · subst hq
    simp [IoKernel.setFidt, IoKernel.setProc, ← h]
  · exact procs_setFidt_ne k i _ hq

theorem procs_setFidt_again (k : IoKernel) (p : Pid) (i : Nat) (x y : Option FcbId) :
    ((k.setFidt p i x).setFidt p i y).procs = (k.setFidt p i y).procs := by
  simp [IoKernel.setFidt, IoKernel.setProc]

theorem procs_setFidt_congr (h : k'.procs = k.procs) (p : Pid) (i : Nat) (x : Option FcbId) :
    (k'.setFidt p i x).procs = (k.setFidt p i x).procs := by
  simp only [IoKernel.setFidt, IoKernel.setProc, h]

theorem openNull_procs (h : (sysOpenNull k p).result = some (k', ret)) (hval : ret.val ≠ noFile) :
    ∃ i f, i < maxFileid ∧ (k.procs p).fidt i = none ∧ ret.val = i ∧
    k'.procs = (k.setFidt p i (some f)).procs := by
  have hres := reserve_spec k p
  have h := result_some h
  unfold sysOpenNull openStream at h
  generalize k.reserve p = res at hres h
  cases hres with
  | full =>
    obtain ⟨-, rfl⟩ : _ ∧ _ = ret := by simpa [IoKernel.ret] using h
    exact absurd rfl hval
  | exhausted =>
    obtain ⟨-, rfl⟩ : _ ∧ _ = ret := by simpa [IoKernel.ret] using h
    exact absurd rfl hval
  | grabbed i f rest hf =>
    obtain ⟨rfl, rfl⟩ : _ = k' ∧ _ = ret := by simpa [IoKernel.ret] using h
    exact ⟨i, f, hf.lt, hf.empty, rfl, rfl⟩

theorem dup2_procs (hi : i < maxFileid) (hj : j < maxFileid) (hf : (k.procs p).fidt i = some f)
    (h : (sysDup2 k p i j).result = some (k', ret)) :
    k'.procs = (k.setFidt p j (some f)).procs := by
  have h := result_some h
  unfold sysDup2 at h
  rw [if_neg (by omega), getFcb_nat hi, hf] at h
  simp only [getFcb_nat hj] at h
  split at h
  · rename_i hsame
    obtain ⟨rfl, -⟩ : k = k' ∧ _ := by simpa [IoKernel.ret] using h
    exact (procs_setFidt_same hsame).symm
  · obtain ⟨⟨k₁, v⟩, hclosed, hret⟩ := Option.bind_eq_some_iff.mp h
    have hprocs : k₁.procs = k.procs := by
      split at hclosed
      · obtain ⟨rfl, -⟩ := Prod.mk.inj (Option.some.inj hclosed)
        rfl
      · exact (decref_same hclosed).procs
    obtain ⟨rfl, -⟩ : _ = k' ∧ _ := by simpa [IoKernel.ret] using hret
    exact procs_setFidt_congr hprocs p j _

theorem close_procs (hi : i < maxFileid) (h : (sysClose k p i).result = some (k', ret)) :
    k'.procs = (k.setFidt p i none).procs := by
  have h := result_some h
  unfold sysClose at h
  rw [getFcb_nat hi] at h
  split at h
  · rename_i hnone
    obtain ⟨rfl, -⟩ : k = k' ∧ _ := by simpa [IoKernel.ret] using h
    rw [setFidt_self hnone]
  · obtain ⟨⟨k₁, v⟩, hd, hret⟩ := Option.bind_eq_some_iff.mp h
    obtain ⟨rfl, -⟩ : k₁ = k' ∧ _ := by simpa [IoKernel.ret] using hret
    exact (decref_same hd).procs

theorem moveFid_procs (hi : i < maxFileid) (hj : j < maxFileid) (hf : (k.procs p).fidt i = some f)
    (h : moveFid k p i j = some k') :
    k'.procs = ((k.setFidt p j (some f)).setFidt p i none).procs := by
  obtain ⟨⟨k₁, r⟩, hdup, hclose⟩ := Option.bind_eq_some_iff.mp h
  obtain ⟨⟨k₂, r'⟩, hclosed, rfl⟩ := Option.map_eq_some_iff.mp hclose
  show k₂.procs = _
  rw [close_procs hi hclosed]
  exact procs_setFidt_congr (dup2_procs hi hj hf hdup) p i none

theorem pipe_procs {garbage : Nat → UInt8} {bytes : List UInt8} {read write : Nat}
    (h : (sysPipe k p garbage).result = some (k', ⟨0, bytes, [read, write]⟩)) :
    ∃ reader writer, read < maxFileid ∧ write < maxFileid ∧ read ≠ write ∧
      (k.procs p).fidt read = none ∧ (k.procs p).fidt write = none ∧
      k'.procs = ((k.setFidt p read (some reader)).setFidt p write (some writer)).procs := by
  rcases sysPipe_cases (result_some h) with ⟨-, _, hr⟩ |
    ⟨i, f, rest, hf, ⟨-, ⟨_, hr⟩, -⟩ | ⟨j, g, rest', hg, hr, rfl⟩⟩
  · simp at hr
  · simp at hr
  · obtain ⟨-, rfl, rfl⟩ : bytes = [] ∧ read = i ∧ write = j := by simpa using hr
    have hempty := hg.empty
    change ((k.setFidt p read (some f)).procs p).fidt write = none at hempty
    rw [fidt_setFidt] at hempty
    have hij : read ≠ write := by
      rintro rfl
      simp at hempty
    rw [Function.update_of_ne hij.symm] at hempty
    exact ⟨f, g, hf.lt, hg.lt, hij, hf.empty, hempty, rfl⟩

/-- A process that exists is not one that is yet to be made. -/
theorem ne_of_free (hq : (k.procs q).pstate = .free) (hp : (k.procs p).pstate = .alive) :
    p ≠ q := by
  rintro rfl
  simp [hq] at hp

theorem exec_procs (h : executeChild k p child = some k') (hp : (k.procs p).pstate = .alive)
    (hchild : 2 ≤ child.val) :
    (k.procs child).pstate = .free ∧ (k'.procs child).pstate = .alive ∧
    (∀ i, i < maxFileid → (k'.procs child).fidt i = (k.procs p).fidt i) ∧ ∀ q,
    q ≠ child → k'.procs q = k.procs q := by
  unfold executeChild at h
  split at h
  · rename_i hfree
    have hne := ne_of_free hfree hp
    obtain ⟨⟨k₁, r⟩, hexec, rfl⟩ := Option.map_eq_some_iff.mp h
    have hexec := result_some hexec
    unfold ioExec at hexec
    simp only [if_neg (show ¬child.val ≤ 1 by omega), if_true] at hexec
    obtain ⟨rfl, -⟩ : _ = k₁ ∧ _ := by simpa [IoKernel.ret] using hexec
    refine ⟨hfree, ?_, fun i hi => ?_, fun q hq => ?_⟩
    · simp [IoKernel.addThread, IoKernel.setProc]
    · simp [IoKernel.addThread, IoKernel.setProc, hi, hne]
    · simp [IoKernel.addThread, IoKernel.setProc, hq]
  · simp at h

theorem savefid_procs {a : Int} (hi : i < maxFileid) (hf : (k.procs p).fidt i = some f)
    (h : savefid k p i = some (k', a)) :
    ∃ j, j < maxFileid ∧ (k.procs p).fidt j = none ∧ a = j ∧
    k'.procs = (k.setFidt p j (some f)).procs := by
  obtain ⟨⟨k₁, ret⟩, hopen, h⟩ := Option.bind_eq_some_iff.mp h
  by_cases hval : ret.val = noFile
  · simp [hval] at h
  · simp only [if_neg hval] at h
    obtain ⟨⟨k₂, ret'⟩, hdup, h⟩ := Option.map_eq_some_iff.mp h
    obtain ⟨rfl, rfl⟩ := Prod.mk.inj h
    obtain ⟨j, g, hj, hempty, ha, hprocs⟩ := openNull_procs hopen hval
    rw [ha] at hdup ⊢
    have hij : i ≠ j := by
      rintro rfl
      rw [hempty] at hf
      cases hf
    refine ⟨j, hj, hempty, rfl, ?_⟩
    have hf₁ : (k₁.procs p).fidt i = some f := by
      rw [hprocs, fidt_setFidt, Function.update_of_ne hij, hf]
    show k₂.procs = _
    rw [dup2_procs hi hj hf₁ hdup, procs_setFidt_congr hprocs, procs_setFidt_again]

end Calls

section Loop

variable {k k' : IoKernel} {p q child : Pid} {a b : Nat} {garbage : Nat → UInt8}
  {frags : List (List String)} {pids : List Pid} {r : Pipeline}

/-- The places of the shell's own streams and of the saved ones. -/
structure Saved (k : IoKernel) (p : Pid) (a b : Nat) : Prop where
  alive : (k.procs p).pstate = .alive
  savein : a < maxFileid ∧ 2 ≤ a ∧ (k.procs p).fidt a ≠ none
  saveout : b < maxFileid ∧ 2 ≤ b ∧ (k.procs p).fidt b ≠ none
  distinct : a ≠ b
  stdin : (k.procs p).fidt 0 ≠ none
  stdout : (k.procs p).fidt 1 ≠ none

/-- One round of the loop that makes a pipe: the states after `Pipe`, `Dup2` and `Close`, `Execute`,
and the end. -/
structure Round (k : IoKernel) (p child : Pid) (garbage : Nat → UInt8)
    (k₁ k₂ k₃ k₄ : IoKernel) (read write : Nat) :
    Prop where
  pipe : ∃ bytes, (sysPipe k p garbage).result = some (k₁, ⟨0, bytes, [read, write]⟩)
  write : moveFid k₁ p write 1 = some k₂
  execute : executeChild k₂ p child = some k₃
  read : moveFid k₃ p read 0 = some k₄

theorem startFragments_cons {savein saveout : Int} {frag frag' : List String}
    (h : startFragments p savein saveout garbage (frag :: frag' :: frags) (child :: pids) k =
      some r) :
    ∃ k₁ k₂ k₃ k₄ read write r', Round k p child garbage k₁ k₂ k₃ k₄ read write ∧
      startFragments p savein saveout garbage (frag' :: frags) pids k₄ = some r' ∧
      r = ⟨r'.kernel, (getFcb k₁ p read, getFcb k₁ p write) :: r'.pipes, child :: r'.children⟩ := by
  obtain ⟨⟨k₁, ret⟩, hpipe, h⟩ := Option.bind_eq_some_iff.mp h
  simp only at h
  split at h
  · rename_i bytes read write
    obtain ⟨k₂, hwrite, h⟩ := Option.bind_eq_some_iff.mp h
    obtain ⟨k₃, hexec, h⟩ := Option.bind_eq_some_iff.mp h
    obtain ⟨k₄, hread, h⟩ := Option.bind_eq_some_iff.mp h
    obtain ⟨r', hrest, rfl⟩ := Option.map_eq_some_iff.mp h
    exact ⟨k₁, k₂, k₃, k₄, read, write, r', ⟨⟨bytes, hpipe⟩, hwrite, hexec, hread⟩, hrest, rfl⟩
  · simp at h

/-- What a round leaves: the child keeps the read end of the pipe that it writes to. -/
structure Round.Left (k : IoKernel) (p child : Pid) (k₁ k₄ : IoKernel)
    (read write : Nat) (a b : Nat) : Prop where
  saved : Saved k₄ p a b
  held : (k₄.procs child).fidt read = (k₄.procs p).fidt 0 ∧
    (k₄.procs child).fidt 1 = (k₄.procs p).fidt 1
  room : read ≠ write ∧ write < maxFileid ∧ (k₄.procs p).fidt read = none ∧
    (k₄.procs p).fidt write = none
  leak : ∃ reader, getFcb k₁ p read = some reader ∧ (k₄.procs child).fidt read = some reader ∧
    read < maxFileid
  free : (k.procs child).pstate = .free
  started : (k₄.procs child).pstate = .alive
  others : ∀ q, q ≠ p → q ≠ child → k₄.procs q = k.procs q

theorem ne_of_empty {F : Nat → Option FcbId} {i j : Nat} (hi : F i = none)
    (hj : F j ≠ none) : j ≠ i := by
  rintro rfl
  exact hj hi

theorem Round.left {k₁ k₂ k₃ k₄ : IoKernel} {read write : Nat}
    (h : Round k p child garbage k₁ k₂ k₃ k₄ read write)
    (hs : Saved k p a b) (hchild : 2 ≤ child.val) : Round.Left k p child k₁ k₄ read write a b := by
  obtain ⟨⟨bytes, hpipe⟩, hwrite, hexec, hread⟩ := h
  obtain ⟨reader, writer, hlr, hlw, hrw, hempty, hempty', hp₁⟩ := pipe_procs hpipe
  have hr0 := ne_of_empty hempty hs.stdin
  have hr1 := ne_of_empty hempty hs.stdout
  have hra := ne_of_empty hempty hs.savein.2.2
  have hrb := ne_of_empty hempty hs.saveout.2.2
  have hw0 := ne_of_empty hempty' hs.stdin
  have hw1 := ne_of_empty hempty' hs.stdout
  have hwa := ne_of_empty hempty' hs.savein.2.2
  have hwb := ne_of_empty hempty' hs.saveout.2.2
  have hf₁ : (k₁.procs p).fidt =
      Function.update (Function.update (k.procs p).fidt read (some reader)) write
        (some writer) := by
    rw [hp₁, fidt_setFidt, fidt_setFidt]
  have hwriter : (k₁.procs p).fidt write = some writer := by
    rw [hf₁, Function.update_self]
  have hp₂ := moveFid_procs hlw (show 1 < maxFileid by decide) hwriter hwrite
  have hf₂ : (k₂.procs p).fidt =
      Function.update (Function.update (k₁.procs p).fidt 1 (some writer)) write none := by
    rw [hp₂, fidt_setFidt, fidt_setFidt]
  have halive₂ : (k₂.procs p).pstate = .alive := by
    rw [hp₂, pstate_setFidt, pstate_setFidt, hp₁, pstate_setFidt, pstate_setFidt]
    exact hs.alive
  obtain ⟨hfree, hstarted, hinherits, hothers⟩ := exec_procs hexec halive₂ hchild
  have hpc := ne_of_free hfree halive₂
  have hf₃ : (k₃.procs p).fidt = (k₂.procs p).fidt := by
    rw [hothers p hpc]
  have hreader : (k₂.procs p).fidt read = some reader := by
    rw [hf₂, hf₁, Function.update_of_ne hrw, Function.update_of_ne hr1.symm,
      Function.update_of_ne hrw,
      Function.update_self]
  have hp₄ := moveFid_procs hlr (show 0 < maxFileid by decide) (by rw [hf₃, hreader]) hread
  have hf₄ : (k₄.procs p).fidt =
      Function.update (Function.update (k₂.procs p).fidt 0 (some reader)) read none := by
    rw [hp₄, fidt_setFidt, fidt_setFidt, hf₃]
  -- the slots of the saved streams are none of those that the round uses
  have hkept : ∀ i, 2 ≤ i → (k.procs p).fidt i ≠ none → (k₄.procs p).fidt i =
      (k.procs p).fidt i := by
    intro i hi hne
    rw [hf₄, Function.update_of_ne (ne_of_empty hempty hne), Function.update_of_ne (by omega), hf₂,
      Function.update_of_ne (ne_of_empty hempty' hne), Function.update_of_ne (by omega), hf₁,
      Function.update_of_ne (ne_of_empty hempty' hne), Function.update_of_ne
        (ne_of_empty hempty hne)]
  have houtside : ∀ q, q ≠ p → k₂.procs q = k.procs q := fun q hq => by
    rw [hp₂, procs_setFidt_ne _ _ _ hq, procs_setFidt_ne _ _ _ hq, hp₁, procs_setFidt_ne _ _ _ hq,
      procs_setFidt_ne _ _ _ hq]
  have hafter : ∀ q, q ≠ p → k₄.procs q = k₃.procs q := fun q hq => by
    rw [hp₄, procs_setFidt_ne _ _ _ hq, procs_setFidt_ne _ _ _ hq]
  refine ⟨⟨?_, ⟨hs.savein.1, hs.savein.2.1, ?_⟩, ⟨hs.saveout.1, hs.saveout.2.1, ?_⟩,
    hs.distinct, ?_, ?_⟩, ⟨?_, ?_⟩,
    ⟨hrw, hlw, ?_, ?_⟩, ⟨reader, ?_, ?_, hlr⟩, ?_, ?_, fun q hq hqc => ?_⟩
  · rw [hp₄, pstate_setFidt, pstate_setFidt, hothers p hpc]
    exact halive₂
  · rw [hkept a hs.savein.2.1 hs.savein.2.2]
    exact hs.savein.2.2
  · rw [hkept b hs.saveout.2.1 hs.saveout.2.2]
    exact hs.saveout.2.2
  · rw [hf₄, Function.update_of_ne hr0, Function.update_self]
    simp
  · rw [hf₄, Function.update_of_ne hr1, Function.update_of_ne (by decide),
      hf₂, Function.update_of_ne hw1,
      Function.update_self]
    simp
  · rw [hafter child hpc.symm, hinherits read hlr, hreader, hf₄, Function.update_of_ne hr0,
      Function.update_self]
  · rw [hafter child hpc.symm, hinherits 1 (by decide), hf₄, Function.update_of_ne hr1,
      Function.update_of_ne (by decide)]
  · rw [hf₄, Function.update_self]
  · rw [hf₄, Function.update_of_ne hrw.symm, Function.update_of_ne hw0.symm,
      hf₂, Function.update_self]
  · rw [getFcb_nat hlr, hf₁, Function.update_of_ne hrw, Function.update_self]
  · rw [hafter child hpc.symm, hinherits read hlr, hreader]
  · rw [← houtside child hpc.symm]
    exact hfree
  · rw [hafter child hpc.symm]
    exact hstarted
  · rw [hafter q hq, hothers q hqc, houtside q hq]

structure LastRound (k : IoKernel) (p child : Pid) (r : Pipeline) (a b : Nat) : Prop where
  pipes : r.pipes = []
  children : r.children = [child]
  free : (k.procs child).pstate = .free
  stdin : (r.kernel.procs child).fidt 0 = (k.procs p).fidt 0
  stdout : (r.kernel.procs child).fidt 1 = (k.procs p).fidt b
  fidt : (r.kernel.procs p).fidt = Function.update
    (Function.update (Function.update (Function.update (k.procs p).fidt 1
    ((k.procs p).fidt b)) b none) 0 ((k.procs p).fidt a)) a none
  others : ∀ q, q ≠ p → q ≠ child → r.kernel.procs q = k.procs q

theorem lastRound {frag : List String} (hs : Saved k p a b) (hchild : 2 ≤ child.val)
    (h : startFragments p a b garbage [frag] (child :: pids) k = some r) :
    LastRound k p child r a b := by
  obtain ⟨k₁, hout, h⟩ := Option.bind_eq_some_iff.mp h
  obtain ⟨k₂, hexec, h⟩ := Option.bind_eq_some_iff.mp h
  obtain ⟨k₃, hin, rfl⟩ := Option.map_eq_some_iff.mp h
  obtain ⟨fin, hfin⟩ := Option.ne_none_iff_exists'.mp hs.savein.2.2
  obtain ⟨fout, hfout⟩ := Option.ne_none_iff_exists'.mp hs.saveout.2.2
  have ha := hs.savein.2.1
  have hb := hs.saveout.2.1
  have hp₁ := moveFid_procs hs.saveout.1 (show 1 < maxFileid by decide) hfout hout
  have hf₁ : (k₁.procs p).fidt =
      Function.update (Function.update (k.procs p).fidt 1 (some fout)) b none := by
    rw [hp₁, fidt_setFidt, fidt_setFidt]
  have halive₁ : (k₁.procs p).pstate = .alive := by
    rw [hp₁, pstate_setFidt, pstate_setFidt]
    exact hs.alive
  obtain ⟨hfree, -, hinherits, hothers⟩ := exec_procs hexec halive₁ hchild
  have hpc := ne_of_free hfree halive₁
  have hsaved : (k₂.procs p).fidt a = some fin := by
    rw [hothers p hpc, hf₁, Function.update_of_ne hs.distinct,
      Function.update_of_ne (by omega), hfin]
  have hp₃ := moveFid_procs hs.savein.1 (show 0 < maxFileid by decide) hsaved hin
  have hafter : ∀ q, q ≠ p → k₃.procs q = k₂.procs q := fun q hq => by
    rw [hp₃, procs_setFidt_ne _ _ _ hq, procs_setFidt_ne _ _ _ hq]
  refine ⟨rfl, rfl, ?_, ?_, ?_, ?_, fun q hq hqc => ?_⟩
  · rw [hp₁, procs_setFidt_ne _ _ _ hpc.symm, procs_setFidt_ne _ _ _ hpc.symm] at hfree
    exact hfree
  · show (k₃.procs child).fidt 0 = _
    rw [hafter child hpc.symm, hinherits 0 (by decide), hf₁, Function.update_of_ne (by omega),
      Function.update_of_ne (by decide)]
  · show (k₃.procs child).fidt 1 = _
    rw [hafter child hpc.symm, hinherits 1 (by decide), hf₁, Function.update_of_ne (by omega),
      Function.update_self, hfout]
  · show (k₃.procs p).fidt = _
    rw [hp₃, fidt_setFidt, fidt_setFidt, hothers p hpc, hf₁, hfin, hfout]
  · show k₃.procs q = _
    rw [hafter q hq, hothers q hqc, hp₁, procs_setFidt_ne _ _ _ hq, procs_setFidt_ne _ _ _ hq]

/-- The processes that exist are neither changed nor children. -/
theorem startFragments_others (hs : Saved k p a b) (hpids : ∀ c ∈ pids, 2 ≤ c.val)
    (h : startFragments p a b garbage frags pids k = some r) (hq : q ≠ p)
    (hlive : (k.procs q).pstate ≠ .free) :
    r.kernel.procs q = k.procs q ∧ q ∉ r.children := by
  induction frags generalizing pids k r with
  | nil =>
    obtain rfl := Option.some.inj h
    exact ⟨rfl, List.not_mem_nil⟩
  | cons frag frags ih =>
    cases pids with
    | nil => simp [startFragments] at h
    | cons child pids =>
      have hchild := hpids child List.mem_cons_self
      cases frags with
      | nil =>
        have hlast := lastRound hs hchild h
        have hqc : q ≠ child := by
          rintro rfl
          exact hlive hlast.free
        exact ⟨hlast.others q hq hqc, by simp [hlast.children, hqc]⟩
      | cons frag' frags =>
        obtain ⟨k₁, k₂, k₃, k₄, read, write, r', hround, hrest, rfl⟩ := startFragments_cons h
        have hleft := hround.left hs hchild
        have hqc : q ≠ child := by
          rintro rfl
          exact hlive hleft.free
        have hsame := hleft.others q hq hqc
        obtain ⟨hprocs, hnot⟩ :=
          ih hleft.saved (fun c hc => hpids c (List.mem_cons_of_mem _ hc)) hrest
          (by rw [hsame]; exact hlive)
        exact ⟨hprocs.trans hsame, by simp [hqc, hnot]⟩

/-- The first child of two or more keeps the read end of its own pipe. -/
theorem startFragments_leak {frag frag' : List String} {k₀ : IoKernel} (hs : Saved k p a b)
    (hpids : ∀ c ∈ pids, 2 ≤ c.val)
    (h : startFragments p a b garbage (frag :: frag' :: frags) pids k = some r) :
    ¬ r.Clean k₀ p := by
  cases pids with
  | nil => simp [startFragments] at h
  | cons child pids =>
    obtain ⟨k₁, k₂, k₃, k₄, read, write, r', hround, hrest, rfl⟩ := startFragments_cons h
    have hleft := hround.left hs (hpids child List.mem_cons_self)
    obtain ⟨reader, hreader, hheld, hlt⟩ := hleft.leak
    have hpc := (ne_of_free hleft.free hs.alive).symm
    obtain ⟨hprocs, hnot⟩ := startFragments_others hleft.saved
      (fun c hc => hpids c (List.mem_cons_of_mem _ hc)) hrest hpc
      (by rw [hleft.started]; simp)
    intro hclean
    have hmem := hclean.reads 0 reader (getFcb k₁ p write) child read
      (by simp only [List.getElem?_cons_zero, hreader]) hlt
      (by rw [hprocs]; exact hheld)
    exact hnot (List.mem_of_getElem? (by simpa using hmem))

end Loop

section Line

variable {k k' : IoKernel} {p : Pid} {argv : List String} {pids : List Pid}
  {garbage : Nat → UInt8} {r : Pipeline}

theorem pipelineFragments_ne_nil (argv : List String) : pipelineFragments argv ≠ [] := by
  cases argv with
  | nil => simp [pipelineFragments]
  | cons a rest =>
    rw [pipelineFragments]
    split
    · simp
    · split <;> simp

structure Saving (k : IoKernel) (p : Pid) (k₁ : IoKernel) (a b : Nat) : Prop where
  saved : Saved k₁ p a b
  savein : (k.procs p).fidt a = none
  saveout : (k.procs p).fidt b = none
  fidt : (k₁.procs p).fidt = Function.update
    (Function.update (k.procs p).fidt a ((k.procs p).fidt 0)) b
    ((k.procs p).fidt 1)
  others : ∀ q, q ≠ p → k₁.procs q = k.procs q

theorem saving {k₁ k₂ : IoKernel} {a b : Int} (hp : (k.procs p).pstate = .alive)
    (hin : (k.procs p).fidt 0 ≠ none)
    (hout : (k.procs p).fidt 1 ≠ none) (hsavein : savefid k p 0 = some (k₁, a))
    (hsaveout : savefid k₁ p 1 = some (k₂, b)) : ∃ i j : Nat, a = i ∧ b = j ∧
    Saving k p k₂ i j := by
  obtain ⟨fin, hfin⟩ := Option.ne_none_iff_exists'.mp hin
  obtain ⟨fout, hfout⟩ := Option.ne_none_iff_exists'.mp hout
  obtain ⟨i, hi, hie, rfl, hp₁⟩ := savefid_procs (show 0 < maxFileid by decide) hfin hsavein
  have hf₁ : (k₁.procs p).fidt = Function.update (k.procs p).fidt i (some fin) := by
    rw [hp₁, fidt_setFidt]
  have hi0 := ne_of_empty hie hin
  have hi1 := ne_of_empty hie hout
  obtain ⟨j, hj, hje, rfl, hp₂⟩ := savefid_procs (k := k₁) (show 1 < maxFileid by decide)
    (by rw [hf₁, Function.update_of_ne hi1, hfout]) hsaveout
  have hf₂ : (k₂.procs p).fidt = Function.update (k₁.procs p).fidt j (some fout) := by
    rw [hp₂, fidt_setFidt]
  have hij : i ≠ j := by
    rintro rfl
    rw [hf₁, Function.update_self] at hje
    cases hje
  rw [hf₁, Function.update_of_ne hij.symm] at hje
  have hj0 := ne_of_empty hje hin
  have hj1 := ne_of_empty hje hout
  refine ⟨i, j, rfl, rfl, ⟨?_, ⟨hi, by omega, ?_⟩, ⟨hj, by omega, ?_⟩, hij, ?_, ?_⟩,
    hie, hje, ?_, fun q hq => ?_⟩
  · rw [hp₂, pstate_setFidt, hp₁, pstate_setFidt]
    exact hp
  · rw [hf₂, Function.update_of_ne hij, hf₁, Function.update_self]
    simp
  · rw [hf₂, Function.update_self]
    simp
  · rw [hf₂, Function.update_of_ne hj0, hf₁, Function.update_of_ne hi0]
    exact hin
  · rw [hf₂, Function.update_of_ne hj1, hf₁, Function.update_of_ne hi1]
    exact hout
  · rw [hf₂, hf₁, hfin, hfout]
  · rw [hp₂, procs_setFidt_ne _ _ _ hq, hp₁, procs_setFidt_ne _ _ _ hq]

theorem processLine_cases (hp : (k.procs p).pstate = .alive) (hin : (k.procs p).fidt 0 ≠ none)
    (hout : (k.procs p).fidt 1 ≠ none) (h : processLine k p argv pids garbage = some (some r)) :
    ∃ k₁ a b, Saving k p k₁ a b ∧ startFragments p a b garbage (pipelineFragments argv) pids k₁ =
    some r := by
  unfold processLine at h
  simp only at h
  split at h
  · obtain ⟨⟨k₁, a⟩, hsavein, h⟩ := Option.bind_eq_some_iff.mp h
    obtain ⟨⟨k₂, b⟩, hsaveout, h⟩ := Option.bind_eq_some_iff.mp h
    obtain ⟨r', hrun, hr⟩ := Option.map_eq_some_iff.mp h
    obtain rfl := Option.some.inj hr
    obtain ⟨i, j, rfl, rfl, hs⟩ := saving hp hin hout hsavein hsaveout
    exact ⟨k₂, i, j, hs, hrun⟩
  · simp at h

theorem Pipeline.Clean.single (hp : (k.procs p).pstate = .alive) (hin : (k.procs p).fidt 0 ≠ none)
    (hout : (k.procs p).fidt 1 ≠ none) (hpids : ∀ c ∈ pids, 2 ≤ c.val)
    (h : processLine k p argv pids garbage = some (some r)) (hclean : r.Clean k p) :
    (pipelineFragments argv).length = 1 := by
  obtain ⟨k₁, a, b, hs, hrun⟩ := processLine_cases hp hin hout h
  match hfrags : pipelineFragments argv, hrun with
  | [], _ => exact absurd hfrags (pipelineFragments_ne_nil argv)
  | [_], _ => rfl
  | _ :: _ :: _, hrun => exact absurd hclean (startFragments_leak hs.saved hpids hrun)

/-- A single fragment needs no pipe. -/
theorem Pipeline.clean_of_single (hp : (k.procs p).pstate = .alive)
    (hin : (k.procs p).fidt 0 ≠ none)
    (hout : (k.procs p).fidt 1 ≠ none) (hpids : ∀ c ∈ pids, 2 ≤ c.val)
    (h : processLine k p argv pids garbage = some (some r))
    (hlength : (pipelineFragments argv).length = 1) :
    r.Clean k p := by
  obtain ⟨k₁, a, b, hs, hrun⟩ := processLine_cases hp hin hout h
  obtain ⟨frag, hfrags⟩ := List.length_eq_one_iff.mp hlength
  rw [hfrags] at hrun
  cases pids with
  | nil => simp [startFragments] at hrun
  | cons child pids =>
    have hlast := lastRound hs.saved (hpids child List.mem_cons_self) hrun
    have ha := hs.saved.savein.2.1
    have hb := hs.saved.saveout.2.1
    have hina : (k₁.procs p).fidt a = (k.procs p).fidt 0 := by
      rw [hs.fidt, Function.update_of_ne hs.saved.distinct, Function.update_self]
    have houtb : (k₁.procs p).fidt b = (k.procs p).fidt 1 := by
      rw [hs.fidt, Function.update_self]
    have hother : ∀ i, i ≠ a → i ≠ b → (k₁.procs p).fidt i =
        (k.procs p).fidt i := fun i hia hib => by
      rw [hs.fidt, Function.update_of_ne hib, Function.update_of_ne hia]
    refine ⟨by simp [hlast.pipes], by simp [hlast.pipes], fun q hq => ?_,
      fun q hq => ?_, fun fd hfd => ?_⟩
    · obtain rfl : child = q := by simpa [hlast.children] using hq
      rw [hlast.stdin, hother 0 (by omega) (by omega)]
    · obtain rfl : child = q := by simpa [hlast.children] using hq
      rw [hlast.stdout, houtb]
    · rw [hlast.fidt]
      by_cases hfa : fd = a
      · rw [hfa, Function.update_self, hs.savein]
      · rw [Function.update_of_ne hfa]
        by_cases hf0 : fd = 0
        · rw [hf0, Function.update_self, hina]
        · rw [Function.update_of_ne hf0]
          by_cases hfb : fd = b
          · rw [hfb, Function.update_self, hs.saveout]
          · rw [Function.update_of_ne hfb]
            by_cases hf1 : fd = 1
            · rw [hf1, Function.update_self, houtb]
            · rw [Function.update_of_ne hf1, hother fd hfa hfb]

end Line

end TinyOS
