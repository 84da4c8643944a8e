import TinyOS.ArgvPack
import TinyOS.Lib.LittleEndian
import TinyOS.ProcessBoot

/-! The argument buffer of `Execute`: a program pointer and the packed strings, written by the
parent and read by `exec_wrapper` in the child and by `ParseProcInfo` in anyone. -/

namespace TinyOS

open Delimited LittleEndian

abbrev Program := BitVec 64

def procinfoMaxArgsSize : Nat := 128

structure ProcInfo where
  pid : Int
  ppid : Int
  alive : Int
  threadCount : Int
  mainTask : Option Task
  argl : Int
  args : List UInt8
  argsSize : args.length = procinfoMaxArgsSize

structure ProgramCall where
  prog : Program
  argc : Nat
  argv : List Nat

def threadStackSize : Nat := 128 * 1024

/-- The bytes left of the stack of a thread, where its arrays of variable length go. -/
abbrev StackRoom := Fin (threadStackSize + 1)

theorem StackRoom.le (room : StackRoom) : room.val ≤ 128 * 1024 := Nat.le_of_lt_succ room.isLt

def execArgs (argl : Int) (args : List UInt8) : Option (ExecArgs argl) :=
  if h : 0 ≤ argl ∧ argl ≤ args.length then some (some ⟨args, h⟩) else none

section Format

variable (wrapper : Task)

/-- `wrapper` is the address of `exec_wrapper`, `frame` what the stack holds before. -/
def execute (room : StackRoom) (frame : Nat → UInt8) (k : Kernel) (cur : Pid) (prog : Program)
    (argv : List CString) (a : Tid) : Option (Kernel × Int) :=
  let argl : Nat := (argvlen argv + 8) % 2 ^ 64
  -- `char args[argl]`, which has to hold the pointer at least
  if argl ≤ room ∧ 8 ≤ argl then
    let args := (List.range argl).map frame
    let args := store 8 prog.toNat ++ args.drop 8
    (argvpack (args.drop 8) argv).bind fun r =>
      let argl := toSigned 32 argl
      (execArgs argl (args.take 8 ++ r.1)).map fun args => sysExec k cur (some wrapper) argl args a
  else none

/-- The buffer lies at address `base`; `junk` is what the vector of pointers holds before. -/
def execWrapper (room : StackRoom) (junk : Nat → Nat) (base : Nat) (argl : Int)
    (args : List UInt8) : Option ProgramCall :=
  if 8 ≤ args.length then
    let prog := BitVec.ofNat 64 (load (args.take 8))
    let argl := toSigned 32 (argl - 8)
    let args := args.drop 8
    (argscount argl args).bind fun argc =>
      -- `const char* argv[argc]`
      if 8 * argc ≤ room then
        (argvunpack argc ((List.range argc).map junk) (base + 8) args).map fun r =>
          ⟨prog, argc, r.1⟩
      else none
  else none

/-- The returned value, `*prog` and the vector afterwards; each pointer may be `NULL`. -/
structure Parsed where
  ret : Int
  prog : Option Program
  argv : Option (List Nat)

/-- `memcpy(&prog, args, sizeof(prog))` writes over the parameter, which is not read again: `*prog`
keeps its value. -/
def parseProcInfo (base : Nat) (pinfo : ProcInfo) (prog : Option Program) (argc : Int)
    (argv : Option (List Nat)) : Option Parsed :=
  if pinfo.mainTask ≠ some wrapper then some ⟨-1, prog, argv⟩
  else if pinfo.argl > procinfoMaxArgsSize then some ⟨-1, prog, argv⟩
  else
    let argl := pinfo.argl
    let args := pinfo.args
    let argl := toSigned 32 (argl - 8)
    let args := args.drop 8
    (argscount argl args).bind fun n =>
      match argv with
      | none => some ⟨n, prog, none⟩
      | some argv =>
        let argc : Int := if toUnsigned 64 argc > n then toSigned 32 n else argc
        (argvunpack (toUnsigned 64 argc) argv (base + 8) args).map fun r => ⟨n, prog, some r.1⟩

variable {wrapper} {k : Kernel} {cur n : Pid} {prog : Program} {argv : List CString} {a : Tid}
  {frame : Nat → UInt8} {room : StackRoom}

def execBuffer (prog : Program) (argv : List CString) : List UInt8 :=
  store 8 prog.toNat ++ packed argv

theorem execBuffer_length (prog : Program) (argv : List CString) :
    (execBuffer prog argv).length = (packed argv).length + 8 := by
  rw [execBuffer, List.length_append, store_length, Nat.add_comm]

def execBlock (prog : Program) (argv : List CString) :
    ExecArgs ((packed argv).length + 8 : Nat) :=
  some ⟨execBuffer prog argv, Int.natCast_nonneg _, by rw [execBuffer_length]⟩

theorem toSigned_strings {n : Nat} (hn : n < 2 ^ 31) :
    toSigned 32 ((n + 8 : Nat) - 8 : Int) = n := by
  rw [toSigned_of_range (by omega) (by omega)]
  push_cast
  omega

theorem execute_eq (hroom : (packed argv).length + 8 ≤ room) :
    execute wrapper room frame k cur prog argv a =
      some (sysExec k cur (some wrapper) ((packed argv).length + 8 : Nat)
        (execBlock prog argv) a) := by
  have hsmall := room.le
  have hlen : argvlen argv = (packed argv).length := argvlen_eq (by omega)
  have hfront : ∀ rest : List UInt8, (store 8 prog.toNat ++ rest).drop 8 = rest := fun rest =>
    List.drop_left' (store_length 8 _)
  have hhead : ∀ rest : List UInt8, (store 8 prog.toNat ++ rest).take 8 = store 8 prog.toNat :=
    fun rest => List.take_left' (store_length 8 _)
  have hrest : (((List.range ((packed argv).length + 8)).map frame).drop 8).length =
      (packed argv).length := by simp
  have hpack := argvpack_eq (Nat.le_of_eq hrest.symm) (by omega)
  rw [List.drop_of_length_le (Nat.le_of_eq hrest), List.append_nil] at hpack
  have hint : toSigned 32 ((packed argv).length + 8 : Nat) = ((packed argv).length + 8 : Nat) :=
    toSigned_of_range (by omega) (by omega)
  have hsize := execBuffer_length prog argv
  have hargs : execArgs ((packed argv).length + 8 : Nat) (store 8 prog.toNat ++ packed argv) =
      some (execBlock prog argv) := dif_pos ⟨by omega, by rw [← hsize]; exact Int.le_refl _⟩
  have hmod : (argvlen argv + 8) % 2 ^ 64 = (packed argv).length + 8 := by
    rw [hlen, Nat.mod_eq_of_lt (by omega)]
  simp only [execute]
  rw [hmod, if_pos ⟨hroom, by omega⟩, hfront, hpack, hhead, Option.bind_some, hint, hargs,
    Option.map_some]

/-- The buffer of a call that goes well fits in the stack. -/
theorem execute_fits {r : Kernel × Int}
    (h : execute wrapper room frame k cur prog argv a = some r) :
    (packed argv).length + 8 ≤ room := by
  have hsmall := room.le
  simp only [execute] at h
  split at h
  next hfits =>
    obtain ⟨hle, h8⟩ := hfits
    obtain ⟨s, hpack, -⟩ := Option.bind_eq_some_iff.mp h
    have hroom := argvpack_fits hpack
    rw [List.drop_left' (store_length 8 _), List.length_drop, List.length_map,
      List.length_range] at hroom
    rw [argvlen_mod] at hle hroom
    omega
  · cases h

theorem sysExec_none (hfree : k.pcbFreelist = none) (cur : Pid) (a : Tid) (call : Option Task)
    (argl : Int) (args : ExecArgs argl) : (sysExec k cur call argl args a).2 = noProc := by
  simp [sysExec, acquirePCB, hfree, getPid]

/-- The new process runs the given task on a copy of the arguments. -/
theorem sysExec_args (hfree : k.pcbFreelist = some n) (cur : Pid) (a : Tid) (call : Task)
    (argl : Int) (args : ExecArgs argl) :
    (sysExec k cur (some call) argl args a).2 = n.val ∧
      ((sysExec k cur (some call) argl args a).1.pt n).mainTask = some call ∧
      ((sysExec k cur (some call) argl args a).1.pt n).argl = argl ∧
      ((sysExec k cur (some call) argl args a).1.pt n).args =
        args.map (·.1.take argl.toNat) := by
  by_cases hn : n.val ≤ 1 <;>
    simp [sysExec, acquirePCB, hfree, hn, getPid, spawnThread, addTcbToProcess,
      Kernel.attachPtcb, Kernel.setPCB]

theorem load_execBuffer (prog : Program) (argv : List CString) (rest : List UInt8) :
    BitVec.ofNat 64 (load ((execBuffer prog argv ++ rest).take 8)) = prog := by
  have hhead : (execBuffer prog argv ++ rest).take 8 = store 8 prog.toNat := by
    rw [execBuffer, List.append_assoc]
    exact List.take_left' (store_length 8 _)
  rw [hhead, load_store (by exact prog.isLt)]
  simp

theorem drop_execBuffer (prog : Program) (argv : List CString) (rest : List UInt8) :
    (execBuffer prog argv ++ rest).drop 8 = packed argv ++ rest := by
  rw [execBuffer, List.append_assoc]
  exact List.drop_left' (store_length 8 _)

theorem argscount_packed (argv : List CString) (rest : List UInt8) :
    argscount (packed argv).length (packed argv ++ rest) = some argv.length := by
  rw [argscount_eq (by simp), List.take_left, packed, count_pack (nulFree_chars argv),
    List.length_map]

/-- The pointers that unpacking stores, and what they lead to. -/
theorem argvunpack_packed (argv : List CString) (base : Nat) (rest : List UInt8) {argc : Nat}
    {out : List Nat} (hargc : argc ≤ argv.length) (hout : argc ≤ out.length) :
    ∃ ps : List Nat, ps.length = argc ∧
      (argvunpack argc out base (packed argv ++ rest)).map Prod.fst = some (ps ++ out.drop argc) ∧
      ps.map (stringAt base (packed argv ++ rest)) = (argv.take argc).map fun s =>
        some s.chars := by
  have hmap : (argv.map CString.chars).length = argv.length := List.length_map _
  obtain ⟨hun, hstr⟩ := argvunpack_eq base (nulFree_chars argv)
    (show packed argv ++ rest = pack 0 (argv.map CString.chars) ++ rest from rfl)
    (hargc.trans (Nat.le_of_eq hmap.symm)) hout
  refine ⟨starts base ((argv.map CString.chars).take argc), ?_, ?_, ?_⟩
  · rw [starts_length, List.length_take]
    omega
  · rw [hun]
    rfl
  · rw [hstr, ← List.map_take, List.map_map]
    rfl

theorem execWrapper_eq (hlt : (packed argv).length + 8 < 2 ^ 31) (hroom : 8 * argv.length ≤ room)
    (junk : Nat → Nat) (base : Nat) :
    ∃ ps : List Nat, execWrapper room junk base ((packed argv).length + 8 : Nat)
        (execBuffer prog argv) = some ⟨prog, argv.length, ps⟩ ∧
      ps.map (stringAt (base + 8) (packed argv)) = argv.map fun s => some s.chars := by
  have hdrop := drop_execBuffer prog argv []
  have hload := load_execBuffer prog argv []
  have hcount := argscount_packed argv []
  have hout : argv.length ≤ ((List.range argv.length).map junk).length := by simp
  obtain ⟨ps, -, hun, hstr⟩ := argvunpack_packed argv (base + 8) [] (Nat.le_refl _) hout
  simp only [List.append_nil] at hdrop hload hcount hun hstr
  have hsize := execBuffer_length prog argv
  have hint := toSigned_strings (n := (packed argv).length) (by omega)
  refine ⟨ps, ?_, by simpa using hstr⟩
  obtain ⟨r, hr, hps⟩ := Option.map_eq_some_iff.mp hun
  have hps' : r.1 = ps := by
    rw [hps, List.drop_of_length_le (by simp), List.append_nil]
  rw [execWrapper, if_pos (by omega)]
  simp only [hload, hdrop, hint, hcount, Option.bind_some, if_pos hroom, hr, Option.map_some, hps']

theorem execWrapper_fits {junk : Nat → Nat} {base : Nat} {c : ProgramCall}
    (hlt : (packed argv).length + 8 < 2 ^ 31)
    (h : execWrapper room junk base ((packed argv).length + 8 : Nat) (execBuffer prog argv) =
      some c) :
    8 * argv.length ≤ room := by
  have hdrop := drop_execBuffer prog argv []
  have hcount := argscount_packed argv []
  simp only [List.append_nil] at hdrop hcount
  have hsize := execBuffer_length prog argv
  have hint := toSigned_strings (n := (packed argv).length) (by omega)
  rw [execWrapper, if_pos (by omega)] at h
  simp only [hdrop, hint, hcount, Option.bind_some] at h
  by_contra hover
  rw [if_neg hover] at h
  cases h

structure ProcInfo.Describes (pinfo : ProcInfo) (task : Option Task) (l : Int)
    (buf : List UInt8) : Prop where
  mainTask : pinfo.mainTask = task
  argl : pinfo.argl = l
  args : pinfo.args.take l.toNat = buf

theorem exists_describes (task : Option Task) (buf : List UInt8)
    (hbuf : buf.length ≤ procinfoMaxArgsSize) :
    ∃ pinfo : ProcInfo, pinfo.Describes task buf.length buf := by
  have hsize : (buf ++ List.replicate (procinfoMaxArgsSize - buf.length) 0).length =
      procinfoMaxArgsSize := by
    rw [List.length_append, List.length_replicate]
    omega
  exact ⟨⟨2, 1, 1, 1, task, buf.length, _, hsize⟩, rfl, rfl, by simp⟩

theorem parseProcInfo_eq {pinfo : ProcInfo}
    (hp : pinfo.Describes (some wrapper) ((packed argv).length + 8 : Nat) (execBuffer prog argv))
    (hlt : pinfo.argl ≤ procinfoMaxArgsSize) (base : Nat) (p : Option Program) (av : List Nat)
    {n : Nat} (hn : n ≤ av.length) (hn' : n < 2 ^ 31) :
    ∃ ps : List Nat, parseProcInfo wrapper base pinfo p n (some av) =
        some ⟨argv.length, p, some (ps ++ av.drop (min n argv.length))⟩ ∧
      ps.map (stringAt (base + 8) (pinfo.args.drop 8)) = (argv.take n).map fun s =>
        some s.chars := by
  have hargl := hp.argl
  have hsize := packed_length argv
  have hsmall : (packed argv).length + 8 ≤ 128 := by
    rw [hargl, procinfoMaxArgsSize] at hlt
    omega
  have hargs : pinfo.args = execBuffer prog argv ++ pinfo.args.drop ((packed argv).length + 8) := by
    have htake := hp.args
    rw [Int.toNat_natCast] at htake
    rw [← htake, List.take_append_drop]
  generalize hrest : pinfo.args.drop ((packed argv).length + 8) = rest at hargs
  have hint := toSigned_strings (n := (packed argv).length) (by omega)
  have hsigned : toSigned 32 argv.length = (argv.length : Int) :=
    toSigned_of_range (by omega) (by omega)
  have hargc : toUnsigned 64 (if toUnsigned 64 n > argv.length then toSigned 32 argv.length
      else (n : Int)) = min n argv.length := by
    rw [toUnsigned_natCast (by omega), hsigned]
    split
    · rw [toUnsigned_natCast (by omega)]
      omega
    · rw [toUnsigned_natCast (by omega)]
      omega
  have hcount := argscount_packed argv rest
  obtain ⟨ps, -, hun, hstr⟩ := argvunpack_packed argv (base + 8) rest
    (Nat.min_le_right n argv.length)
    ((Nat.min_le_left n argv.length).trans hn)
  obtain ⟨r, hr, hps⟩ := Option.map_eq_some_iff.mp hun
  refine ⟨ps, ?_, ?_⟩
  · rw [parseProcInfo, if_neg (by simp [hp.mainTask]), if_neg (by omega), hargl, hargs]
    simp only [drop_execBuffer, hint, hcount, Option.bind_some, hargc, hr, Option.map_some, hps]
  · rw [hargs, drop_execBuffer, hstr, ← List.take_eq_take_min]

theorem parseProcInfo_unknown {pinfo : ProcInfo}
    (h : pinfo.mainTask ≠ some wrapper ∨ pinfo.argl > procinfoMaxArgsSize) (base : Nat)
    (p : Option Program) (n : Int) (av : Option (List Nat)) :
    parseProcInfo wrapper base pinfo p n av = some ⟨-1, p, av⟩ := by
  by_cases hm : pinfo.mainTask ≠ some wrapper
  · rw [parseProcInfo, if_pos hm]
  · rw [parseProcInfo, if_neg hm, if_pos (h.resolve_left hm)]

/-- The one format of `Execute`, `exec_wrapper` and `ParseProcInfo`: the process calls the program
with the same strings, and parsing what describes it gives the strings and leaves `q` in `*prog`,
where `p` was before. -/
structure ExecAgrees (wrapper : Task) (room : StackRoom) (c : PCB) (prog : Program)
    (argv : List CString) (p q : Program) : Prop where
  calls : ∃ buf, c.mainTask = some wrapper ∧ c.args = some buf ∧ ∀ junk base, ∃ ps : List Nat,
    execWrapper room junk base c.argl buf = some ⟨prog, argv.length, ps⟩ ∧
      ps.map (stringAt (base + 8) (buf.drop 8)) = argv.map fun s => some s.chars
  parses : ∀ (buf : List UInt8) (pinfo : ProcInfo), c.args = some buf →
    ProcInfo.Describes pinfo (some wrapper) c.argl buf → pinfo.argl ≤ procinfoMaxArgsSize →
    ∀ (base : Nat) (av : List Nat) (n : Nat), n ≤ av.length → n < 2 ^ 31 →
      ∃ ps : List Nat, parseProcInfo wrapper base pinfo (some p) n (some av) =
          some ⟨argv.length, some q, some (ps ++ av.drop (min n argv.length))⟩ ∧
        ps.map (stringAt (base + 8) (pinfo.args.drop 8)) = (argv.take n).map fun s => some s.chars
  refuses : ∀ pinfo : ProcInfo, pinfo.mainTask ≠ some wrapper ∨ pinfo.argl > procinfoMaxArgsSize →
    ∀ base p n av, parseProcInfo wrapper base pinfo p n av = some ⟨-1, p, av⟩

section Started

variable {c : PCB} {p q : Program}

theorem execAgrees_iff (htask : c.mainTask = some wrapper)
    (hargl : c.argl = ((packed argv).length + 8 : Nat))
    (hargs : c.args = some (execBuffer prog argv))
    (hlt : (packed argv).length + 8 < 2 ^ 31) : ExecAgrees wrapper room c prog argv p q ↔
      8 * argv.length ≤ room ∧ (procinfoMaxArgsSize < (packed argv).length + 8 ∨ p = q) := by
  have hsize := execBuffer_length prog argv
  constructor
  · intro h
    obtain ⟨buf, -, hbuf, hcalls⟩ := h.calls
    obtain rfl : execBuffer prog argv = buf := Option.some.inj (hargs.symm.trans hbuf)
    obtain ⟨ps, hcall, -⟩ := hcalls id 0
    rw [hargl] at hcall
    refine ⟨execWrapper_fits hlt hcall, or_iff_not_imp_left.mpr fun hshort => ?_⟩
    -- a record that describes the process shows what `*prog` holds
    obtain ⟨pinfo, hp⟩ := exists_describes (some wrapper) (execBuffer prog argv) (by omega)
    rw [hsize] at hp
    have hsmall : pinfo.argl ≤ procinfoMaxArgsSize := by
      rw [hp.argl]
      omega
    obtain ⟨ps₁, hparse, -⟩ := h.parses _ pinfo hargs (hargl ▸ hp) hsmall 0 [] 0 (Nat.le_refl _)
      (by omega)
    obtain ⟨ps₂, hkept, -⟩ := parseProcInfo_eq hp hsmall 0 (some p) [] (Nat.le_refl 0)
      (by omega)
    rw [hkept] at hparse
    simp only [Option.some.injEq, Parsed.mk.injEq] at hparse
    exact hparse.2.1
  · rintro ⟨hroom, hp⟩
    refine ⟨⟨_, htask, hargs, fun junk base => ?_⟩, ?_, ?_⟩
    · have hdrop := drop_execBuffer prog argv []
      simp only [List.append_nil] at hdrop
      rw [hargl, hdrop]
      exact execWrapper_eq hlt hroom junk base
    · intro buf pinfo hbuf hdesc hsmall base av m hm hm'
      obtain rfl : execBuffer prog argv = buf := Option.some.inj (hargs.symm.trans hbuf)
      rw [hargl] at hdesc
      obtain rfl : p = q := hp.resolve_left fun hlong => by
        have hl := hdesc.argl
        omega
      exact parseProcInfo_eq hdesc hsmall base _ av hm hm'
    · exact fun pinfo h base p m av => parseProcInfo_unknown h base p m av

end Started

/-- What `Execute` does when its buffer fits in the stack. -/
theorem execute_spec (wrapper : Task) (frame : Nat → UInt8) (k : Kernel) (cur : Pid)
    (prog : Program) (a : Tid) (hroom : (packed argv).length + 8 ≤ room) :
    ∃ (k' : Kernel) (pid : Int), execute wrapper room frame k cur prog argv a = some (k', pid) ∧
      (k.pcbFreelist = none → pid = noProc) ∧
      ∀ n, k.pcbFreelist = some n → pid = n.val ∧ ∀ (room' : StackRoom) (p q : Program),
        ExecAgrees wrapper room' (k'.pt n) prog argv p q ↔ 8 * argv.length ≤ room' ∧
          (procinfoMaxArgsSize < (packed argv).length + 8 ∨ p = q) := by
  have hsmall := room.le
  cases hr : sysExec k cur (some wrapper) ((packed argv).length + 8 : Nat)
    (execBlock prog argv) a with
  | mk k' pid =>
  refine ⟨k', pid, (execute_eq hroom).trans (congrArg some hr), fun hfree => ?_, fun n hfree => ?_⟩
  · have hnone := sysExec_none hfree cur a (some wrapper) _ (execBlock prog argv)
    rwa [hr] at hnone
  · obtain ⟨hret, htask, hargl, hargs⟩ := sysExec_args hfree cur a wrapper _ (execBlock prog argv)
    rw [hr] at hret htask hargl hargs
    have hbuf : (k'.pt n).args = some (execBuffer prog argv) := by
      rw [hargs, execBlock, Option.map_some, Int.toNat_natCast,
        List.take_of_length_le (Nat.le_of_eq (execBuffer_length prog argv))]
    exact ⟨hret, fun room' p q => execAgrees_iff htask hargl hbuf (by omega)⟩

/-- `Execute` is in agreement with the two readers of its buffer on these inputs and no others. -/
theorem execute_agrees_iff (wrapper : Task) (room room' : StackRoom) (frame : Nat → UInt8)
    (k : Kernel) (cur : Pid) (prog p : Program) (argv : List CString) (a : Tid) :
    (∃ (k' : Kernel) (pid : Int), execute wrapper room frame k cur prog argv a = some (k', pid) ∧
      (pid = noProc ∨ ∃ n : Pid, pid = n.val ∧
        ExecAgrees wrapper room' (k'.pt n) prog argv p prog)) ↔
      (packed argv).length + 8 ≤ room ∧ (k.pcbFreelist = none ∨
        8 * argv.length ≤ room' ∧ (procinfoMaxArgsSize < (packed argv).length + 8 ∨ p = prog)) := by
  constructor
  · rintro ⟨k', pid, hk, hpid⟩
    have hroom := execute_fits hk
    obtain ⟨k₁, pid₁, hk₁, -, hsome⟩ := execute_spec wrapper frame k cur prog a hroom
    obtain ⟨rfl, rfl⟩ := Prod.mk.inj (Option.some.inj (hk.symm.trans hk₁))
    refine ⟨hroom, ?_⟩
    cases hfree : k.pcbFreelist with
    | none => exact .inl rfl
    | some n =>
      obtain ⟨hret, hiff⟩ := hsome n hfree
      rcases hpid with hno | ⟨m, hm, hagrees⟩
      · rw [hret, noProc] at hno
        omega
      · obtain rfl : n = m := Fin.ext (by omega)
        exact .inr ((hiff room' p prog).mp hagrees)
  · rintro ⟨hroom, hcond⟩
    obtain ⟨k', pid, hk, hnone, hsome⟩ := execute_spec wrapper frame k cur prog a hroom
    refine ⟨k', pid, hk, ?_⟩
    rcases hcond with hfree | hcond
    · exact .inl (hnone hfree)
    · cases hfree : k.pcbFreelist with
      | none => exact .inl (hnone hfree)
      | some n =>
        obtain ⟨hret, hiff⟩ := hsome n hfree
        exact .inr ⟨n, hret, (hiff room' p prog).mpr hcond⟩

/-- Of the program `5`, started with the one string "ls", `*prog` gets nothing. -/
theorem parseProcInfo_keeps_prog : ∃ (k' : Kernel) (buf : List UInt8) (pinfo : ProcInfo),
    execute 9 1000 (fun _ => 7) (bootKernel 0 0 none 1) 1 5#64 [⟨[108, 115], by decide⟩] 2 =
        some (k', 2) ∧ (k'.pt 2).args = some buf ∧
      pinfo.Describes (some 9) (k'.pt 2).argl buf ∧ pinfo.argl = 11 ∧
      parseProcInfo 9 0 pinfo (some 0#64) 0 (some []) = some ⟨1, some 0#64, some []⟩ ∧
      ¬ ExecAgrees 9 1000 (k'.pt 2) 5#64 [⟨[108, 115], by decide⟩] 0#64 5#64 := by
  have hfree : (bootKernel 0 0 none 1).pcbFreelist = some 2 := by rw [bootKernel_eq]
  obtain ⟨argv, hargv⟩ : ∃ argv : List CString, argv = [⟨[108, 115], by decide⟩] := ⟨_, rfl⟩
  rw [← hargv]
  have hlen : (packed argv).length = 3 := by rw [hargv]; rfl
  have hone : argv.length = 1 := by rw [hargv]; rfl
  obtain ⟨hret, htask, hargl, hargs⟩ := sysExec_args hfree 1 2 9 _ (execBlock 5#64 argv)
  cases hr : sysExec (bootKernel 0 0 none 1) 1 (some 9) ((packed argv).length + 8 : Nat)
      (execBlock 5#64 argv) 2 with
  | mk k' pid =>
  rw [hr] at hret htask hargl hargs
  obtain rfl : pid = 2 := hret
  have hsize := execBuffer_length 5#64 argv
  have hbuf : (k'.pt 2).args = some (execBuffer 5#64 argv) := by
    rw [hargs, execBlock, Option.map_some, Int.toNat_natCast,
      List.take_of_length_le (Nat.le_of_eq hsize)]
  obtain ⟨pinfo, hp⟩ := exists_describes (some 9) (execBuffer 5#64 argv)
    (by rw [hsize, hlen]; decide)
  rw [hsize] at hp
  have hl : pinfo.argl = 11 := by
    rw [hp.argl, hlen]
    rfl
  obtain ⟨ps, hparse, hstr⟩ := parseProcInfo_eq hp (by rw [hl]; decide) 0 (some 0#64) []
    (Nat.le_refl 0) (by omega)
  obtain rfl : ps = [] := by simpa using hstr
  refine ⟨k', _, pinfo, (execute_eq (by rw [hlen]; decide)).trans (congrArg some hr), hbuf,
    hargl ▸ hp, hl, by simpa [hone] using hparse, ?_⟩
  rw [execAgrees_iff htask hargl hbuf (by omega), hlen]
  exact fun h => absurd h.2 (by decide)

end Format

end TinyOS
