import TinyOS.Lib.Delimited
import Mathlib.Algebra.Group.Int.Defs

/-! The argument vectors of `util.h`: strings packed into a buffer of bytes and unpacked again. -/

namespace TinyOS

open Delimited

/-- A C string, without its terminator. -/
structure CString where
  chars : List UInt8
  nulFree : 0 ∉ chars
deriving DecidableEq

def CString.object (s : CString) : List UInt8 := s.chars ++ [0]

def strlen (s : CString) : Nat := (s.object.takeWhile (· ≠ 0)).length

def argvlen (argv : List CString) : Nat := argv.foldl (fun l s => (l + (strlen s + 1)) % 2 ^ 64) 0

/-- `n++` on an `int`; nothing is defined beyond its range. -/
def intSucc (n : Int) : Option Int := if n < 2 ^ 31 - 1 then some (n + 1) else none

structure PackState where
  args : List UInt8
  pos : Nat
  argl : Int

/-- `while ((*pos++ = *s++)) argl++`. -/
def packString : List UInt8 → PackState → Option PackState
  | [], _ => none
  | b :: s, st =>
    if st.pos < st.args.length then
      let st := { st with args := st.args.set st.pos b, pos := st.pos + 1 }
      if b ≠ 0 then (intSucc st.argl).bind fun argl => packString s { st with argl := argl }
        else some st
    else none

/-- The buffer afterwards, and the returned length. -/
def argvpack (args : List UInt8) (argv : List CString) : Option (List UInt8 × Nat) :=
  (argv.foldlM (fun st s => packString s.object st) ⟨args, 0, 0⟩).map fun st =>
    (st.args, (st.argl.toNat + argv.length) % 2 ^ 64)

def argscount (argl : Int) (args : List UInt8) : Option Nat :=
  (List.range argl.toNat).foldlM (fun n i => (args[i]?).map fun a => if a = 0 then n + 1 else n) 0

def skipString : List UInt8 → Option Nat
  | [] => none
  | b :: a => if b ≠ 0 then (skipString a).map (· + 1) else some 1

/-- The loop of `argvunpack`; the buffer lies at address `base`. -/
def argvunpackFrom (base : Nat) (args : List UInt8) : Nat → Nat → List Nat →
    Nat → Option (List Nat × Nat)
  | 0, _, argv, a => some (argv, base + a)
  | n + 1, i, argv, a =>
    if i < argv.length then
      (skipString (args.drop a)).bind fun k => argvunpackFrom base args n
        (i + 1) (argv.set i (base + a)) (a + k)
    else none

/-- The vector of pointers afterwards, and the first address not unpacked. -/
def argvunpack (argc : Nat) (argv : List Nat) (base : Nat) (args : List UInt8) :
    Option (List Nat × Nat) :=
  argvunpackFrom base args argc 0 argv 0

def stringAt (base : Nat) (args : List UInt8) (p : Nat) : Option (List UInt8) :=
  if base ≤ p ∧ 0 ∈ args.drop (p - base) then some ((args.drop (p - base)).takeWhile (· ≠ 0))
    else none

def packed (argv : List CString) : List UInt8 := pack 0 (argv.map CString.chars)

section

variable {argv : List CString} {args : List UInt8} {argc : Nat} {ss : List (List UInt8)}
  {s : List UInt8}

theorem takeWhile_chars (hs : 0 ∉ s) (rest : List UInt8) :
    (s ++ 0 :: rest).takeWhile (· ≠ 0) = s := by
  induction s with
  | nil => simp
  | cons b s ih =>
    have hb : b ≠ 0 := fun hb => hs (hb ▸ List.mem_cons_self)
    simpa [hb] using ih fun hm => hs (List.mem_cons_of_mem _ hm)

@[simp] theorem strlen_eq (s : CString) : strlen s = s.chars.length := by
  rw [strlen, CString.object, takeWhile_chars s.nulFree]

theorem nulFree_chars (argv : List CString) : ∀ s ∈ argv.map CString.chars, 0 ∉ s := by
  intro s hs
  obtain ⟨c, -, rfl⟩ := List.mem_map.mp hs
  exact c.nulFree

theorem packed_cons (s : CString) (argv : List CString) :
    packed (s :: argv) = s.object ++ packed argv := by
  simp [packed, CString.object]

theorem packed_cons_length (s : CString) (argv : List CString) :
    (packed (s :: argv)).length = s.chars.length + 1 + (packed argv).length := by
  rw [packed_cons, List.length_append, CString.object, List.length_append, List.length_singleton]

theorem argvlen_mod (argv : List CString) : argvlen argv = (packed argv).length % 2 ^ 64 := by
  have hfold : ∀ (argv : List CString) (l : Nat),
      argv.foldl (fun l s => (l + (strlen s + 1)) % 2 ^ 64) (l % 2 ^ 64) =
        (l + (packed argv).length) % 2 ^ 64 := by
    intro argv
    induction argv with
    | nil => exact fun l => rfl
    | cons s argv ih =>
      intro l
      rw [List.foldl_cons, strlen_eq, Nat.mod_add_mod, ih, packed_cons_length, Nat.add_assoc]
  have hall := hfold argv 0
  rwa [Nat.zero_mod, Nat.zero_add] at hall

theorem argvlen_eq (h : (packed argv).length < 2 ^ 64) : argvlen argv = (packed argv).length := by
  rw [argvlen_mod, Nat.mod_eq_of_lt h]

/-! ### The packer -/

theorem packString_eq (hs : 0 ∉ s) (pre old post : List UInt8) (hold : old.length = s.length + 1)
    (argl : Int)
    (hargl : argl + s.length < 2 ^ 31) :
    packString (s ++ [0]) ⟨pre ++ (old ++ post), pre.length, argl⟩ =
      some ⟨pre ++ (s ++ [0]) ++ post, pre.length + (s.length + 1), argl + s.length⟩ := by
  induction s generalizing pre old argl with
  | nil =>
    obtain ⟨o, rfl⟩ := List.length_eq_one_iff.mp hold
    simp [packString]
  | cons b s ih =>
    cases old with
    | nil => simp at hold
    | cons o old =>
      have hb : b ≠ 0 := fun hb => hs (hb ▸ List.mem_cons_self)
      have hlt : argl < 2 ^ 31 - 1 := by
        push_cast [List.length_cons] at hargl
        omega
      have hrest := ih (fun hm => hs (List.mem_cons_of_mem _ hm)) (pre ++ [b]) old
        (by simpa using hold) (argl + 1)
        (by push_cast [List.length_cons] at hargl; omega)
      simp only [List.append_assoc, List.length_append, List.length_singleton,
        List.singleton_append] at hrest
      simp only [List.cons_append, packString, intSucc, if_pos hlt, Option.bind_some]
      rw [if_pos (by simp), if_pos hb]
      simp only [List.set_append_right _ _ (Nat.le_refl _), Nat.sub_self, List.set_cons_zero]
      rw [hrest]
      simp
      omega

theorem packStrings_eq (pre old post : List UInt8) (hold : old.length = (packed argv).length)
    (argl : Int) (hargl : argl + (packed argv).length < 2 ^ 31) :
    argv.foldlM (fun st s => packString s.object st) ⟨pre ++ (old ++ post), pre.length, argl⟩ =
      some ⟨pre ++ packed argv ++ post, pre.length + (packed argv).length,
        argl + (argv.map fun s => s.chars.length).sum⟩ := by
  induction argv generalizing pre old argl with
  | nil =>
    obtain rfl : old = [] := List.length_eq_zero_iff.mp hold
    simp [packed]
  | cons s argv ih =>
    have hlen := packed_cons_length s argv
    have hsplit : old = old.take (s.chars.length + 1) ++ old.drop (s.chars.length + 1) :=
      (List.take_append_drop _ _).symm
    have htake : (old.take (s.chars.length + 1)).length = s.chars.length + 1 := by
      rw [List.length_take]
      omega
    have hfirst := packString_eq s.nulFree pre (old.take (s.chars.length + 1))
      (old.drop (s.chars.length + 1) ++ post)
      htake argl (by omega)
    have hrest := ih (pre ++ s.object) (old.drop (s.chars.length + 1))
      (by rw [List.length_drop]; omega)
      (argl + s.chars.length) (by omega)
    rw [List.foldlM_cons]
    rw [← List.append_assoc (old.take _), ← hsplit] at hfirst
    rw [CString.object] at hrest ⊢
    rw [hfirst]
    simp only [Option.bind_eq_bind, Option.bind_some]
    rw [List.length_append, List.length_append, List.length_singleton] at hrest
    rw [hrest, packed_cons, CString.object]
    simp
    omega

theorem packed_length (argv : List CString) :
    (packed argv).length = (argv.map fun s => s.chars.length).sum + argv.length := by
  rw [packed, pack_length, List.map_map, List.length_map]
  rfl

/-- The packer fills the front of the buffer and leaves the rest of it. -/
theorem argvpack_eq (hargs : (packed argv).length ≤ args.length)
    (hlt : (packed argv).length < 2 ^ 31) :
    argvpack args argv =
    some (packed argv ++ args.drop (packed argv).length, (packed argv).length) := by
  have htake : (args.take (packed argv).length).length = (packed argv).length := by
    rw [List.length_take]
    omega
  have hfold := packStrings_eq [] _ (args.drop (packed argv).length) htake 0 (by omega)
  rw [List.take_append_drop] at hfold
  simp only [List.nil_append, List.length_nil, Nat.zero_add, Int.zero_add] at hfold
  have hlen := packed_length argv
  rw [argvpack, hfold, Option.map_some, Int.toNat_natCast, ← hlen, Nat.mod_eq_of_lt (by omega)]

theorem packString_fits (hs : 0 ∉ s) {st st' : PackState}
    (h : packString (s ++ [0]) st = some st') :
    st'.args.length = st.args.length ∧ st'.pos = st.pos + (s.length + 1) ∧
      st'.pos ≤ st'.args.length := by
  induction s generalizing st with
  | nil =>
    rw [List.nil_append, packString] at h
    split at h
    next hlt =>
      obtain rfl : _ = st' := by simpa using h
      refine ⟨List.length_set, rfl, ?_⟩
      rw [List.length_set]
      exact hlt
    · cases h
  | cons b s ih =>
    have hb : b ≠ 0 := fun hb => hs (hb ▸ List.mem_cons_self)
    rw [List.cons_append, packString] at h
    split at h
    · obtain ⟨argl, -, hrest⟩ := Option.bind_eq_some_iff.mp h
      obtain ⟨hargs, hpos, hle⟩ := ih (fun hm => hs (List.mem_cons_of_mem _ hm)) hrest
      simp only [List.length_set] at hargs hpos
      refine ⟨hargs, ?_, hle⟩
      rw [hpos, List.length_cons]
      omega
    · cases h

theorem packStrings_fits {st st' : PackState} (hst : st.pos ≤ st.args.length)
    (h : argv.foldlM (fun st s => packString s.object st) st = some st') :
    st'.args.length = st.args.length ∧ st'.pos = st.pos + (packed argv).length ∧
      st'.pos ≤ st'.args.length := by
  induction argv generalizing st with
  | nil =>
    obtain rfl : st = st' := Option.some.inj h
    exact ⟨rfl, rfl, hst⟩
  | cons s argv ih =>
    rw [List.foldlM_cons] at h
    obtain ⟨st₁, hfirst, hrest⟩ := Option.bind_eq_some_iff.mp h
    obtain ⟨hargs₁, hpos₁, hle₁⟩ := packString_fits s.nulFree hfirst
    obtain ⟨hargs, hpos, hle⟩ := ih hle₁ hrest
    refine ⟨hargs.trans hargs₁, ?_, hle⟩
    rw [hpos, hpos₁, packed_cons_length]
    omega

theorem argvpack_fits {r : List UInt8 × Nat} (h : argvpack args argv = some r) :
    (packed argv).length ≤ args.length := by
  obtain ⟨st, hst, -⟩ := Option.map_eq_some_iff.mp h
  obtain ⟨hargs, hpos, hle⟩ := packStrings_fits (Nat.zero_le _) hst
  simp only at hargs hpos
  omega

/-! ### The counter -/

theorem argscount_eq {n : Nat} (hn : n ≤ args.length) :
    argscount n args = some ((args.take n).count 0) := by
  rw [argscount, Int.toNat_natCast]
  induction n with
  | zero => rfl
  | succ n ih =>
    have hlt : n < args.length := by omega
    have hget : args[n]? = some args[n] := List.getElem?_eq_getElem hlt
    rw [List.range_succ, List.foldlM_append, ih (by omega), List.take_add_one,
      List.count_append, hget]
    by_cases hz : args[n] = 0
    · simp [hget, hz]
    · simp [hget, hz]

theorem argscount_all (args : List UInt8) : argscount args.length args = some (args.count 0) := by
  rw [argscount_eq (Nat.le_refl _), List.take_length]

/-! ### The unpacker -/

theorem skipString_eq (hs : 0 ∉ s) (rest : List UInt8) :
    skipString (s ++ 0 :: rest) = some (s.length + 1) := by
  induction s with
  | nil => simp [skipString]
  | cons b s ih =>
    have hb : b ≠ 0 := fun hb => hs (hb ▸ List.mem_cons_self)
    rw [List.cons_append, skipString, if_pos hb, ih fun hm => hs (List.mem_cons_of_mem _ hm)]
    rfl

theorem argvunpackFrom_eq (base : Nat) (hss : ∀ s ∈ ss, 0 ∉ s) (pre rest : List UInt8)
    (out old : List Nat)
    (hold : ss.length ≤ old.length) :
    argvunpackFrom base (pre ++ (pack 0 ss ++ rest)) ss.length out.length
      (out ++ old) pre.length = some (out ++ (starts (base + pre.length) ss ++ old.drop ss.length),
        base + (pre ++ pack 0 ss).length) := by
  induction ss generalizing pre out old with
  | nil => simp [argvunpackFrom, starts]
  | cons s ss ih =>
    cases old with
    | nil => simp at hold
    | cons o old =>
      have hskip : skipString ((pre ++ (pack 0 (s :: ss) ++ rest)).drop pre.length) =
          some (s.length + 1) := by
        rw [List.drop_left, pack_cons, List.append_assoc]
        exact skipString_eq (hss s List.mem_cons_self) _
      have hrest := ih (fun t ht => hss t (List.mem_cons_of_mem _ ht))
        (pre ++ (s ++ [0])) (out ++ [base + pre.length])
        old (by simpa using hold)
      rw [List.length_cons, argvunpackFrom, if_pos (by simp), hskip, Option.bind_some,
        List.set_append_right _ _ (Nat.le_refl _), Nat.sub_self, List.set_cons_zero]
      simp only [List.append_assoc, List.length_append, List.length_singleton,
        pack_cons, List.cons_append,
        List.nil_append] at hrest ⊢
      rw [hrest]
      simp [starts, Nat.add_assoc, Nat.add_comm, Nat.add_left_comm]

theorem stringAt_pack (base : Nat) (hs : 0 ∉ s) (pre rest : List UInt8) :
    stringAt base (pre ++ (s ++ 0 :: rest)) (base + pre.length) = some s := by
  have hdrop : (pre ++ (s ++ 0 :: rest)).drop (base + pre.length - base) = s ++ 0 :: rest := by
    rw [Nat.add_sub_cancel_left, List.drop_left]
  rw [stringAt, hdrop, if_pos ⟨by omega, by simp⟩, takeWhile_chars hs]

theorem stringAt_starts (base : Nat) (hss : ∀ s ∈ ss, 0 ∉ s) (pre rest : List UInt8) :
    (starts (base + pre.length) ss).map (stringAt base (pre ++ (pack 0 ss ++ rest))) =
    ss.map some := by
  induction ss generalizing pre with
  | nil => rfl
  | cons s ss ih =>
    have hrest := ih (fun t ht => hss t (List.mem_cons_of_mem _ ht)) (pre ++ (s ++ [0]))
    have hfirst := stringAt_pack base (hss s List.mem_cons_self) pre (pack 0 ss ++ rest)
    simp only [List.append_assoc, List.length_append, List.length_singleton, List.cons_append,
      List.nil_append, pack_cons, starts, List.map_cons] at hrest hfirst ⊢
    rw [hfirst, ← hrest]
    simp only [Nat.add_assoc]

/-- What `argvunpack` makes of `argc` of the strings that the buffer holds. -/
theorem argvunpack_eq (base : Nat) (hss : ∀ s ∈ ss, 0 ∉ s) (hargs : args = pack 0 ss ++ s)
    (hargc : argc ≤ ss.length)
    {out : List Nat} (hout : argc ≤ out.length) : argvunpack argc out base args =
      some (starts base (ss.take argc) ++ out.drop argc, base + (pack 0 (ss.take argc)).length) ∧
      (starts base (ss.take argc)).map (stringAt base args) = (ss.take argc).map some := by
  have htake : ∀ t ∈ ss.take argc, 0 ∉ t := fun t ht => hss t (List.mem_of_mem_take ht)
  have hlen : (ss.take argc).length = argc := by
    rw [List.length_take]
    omega
  have hbuf : args = pack 0 (ss.take argc) ++ (pack 0 (ss.drop argc) ++ s) := by
    rw [hargs, ← List.append_assoc, ← pack_append, List.take_append_drop]
  have hrun := argvunpackFrom_eq base htake [] (pack 0 (ss.drop argc) ++ s) [] out (by omega)
  have hstr := stringAt_starts base htake [] (pack 0 (ss.drop argc) ++ s)
  rw [List.nil_append, ← hbuf] at hrun hstr
  rw [hlen] at hrun
  exact ⟨hrun, hstr⟩

/-! ### Both ways -/

/-- Packing, counting and unpacking the strings of `argv` in a buffer that is large enough. -/
structure PacksExactly (argv : List CString) (args : List UInt8) (base : Nat)
    (out : List Nat) : Prop where
  len : argvlen argv = (packed argv).length
  pack : argvpack args argv = some (packed argv ++ args.drop (argvlen argv), argvlen argv)
  count : argscount (argvlen argv) (packed argv) = some argv.length
  unpack : ∃ ps : List Nat, argvunpack argv.length out base (packed argv) =
    some (ps ++ out.drop argv.length, base + argvlen argv) ∧
    ps.map (stringAt base (packed argv)) = argv.map fun s => some s.chars

theorem packs_exactly (base : Nat) {out : List Nat} (hlt : (packed argv).length < 2 ^ 31)
    (hargs : (packed argv).length ≤ args.length) (hout : argv.length ≤ out.length) :
    PacksExactly argv args base out := by
  have hlen : argvlen argv = (packed argv).length := argvlen_eq (by omega)
  have hcount : (packed argv).count 0 = argv.length := by
    rw [packed, count_pack (nulFree_chars argv), List.length_map]
  refine ⟨hlen, ?_, ?_, starts base (argv.map CString.chars), ?_⟩
  · rw [hlen, argvpack_eq hargs hlt]
  · rw [hlen, argscount_all, hcount]
  · have hmap : (argv.map CString.chars).length = argv.length := List.length_map _
    obtain ⟨hun, hstr⟩ := argvunpack_eq base (nulFree_chars argv)
      (List.append_nil (packed argv)).symm
      (Nat.le_of_eq hmap.symm) hout
    rw [List.take_of_length_le (Nat.le_of_eq hmap)] at hun hstr
    refine ⟨?_, ?_⟩
    · rw [hun, hlen, packed]
    · rw [hstr, List.map_map]
      rfl

theorem exists_argv (hss : ∀ s ∈ ss, 0 ∉ s) : ∃ argv : List CString,
    argv.map CString.chars = ss := by
  induction ss with
  | nil => exact ⟨[], rfl⟩
  | cons s ss ih =>
    obtain ⟨argv, rfl⟩ := ih fun t ht => hss t (List.mem_cons_of_mem _ ht)
    exact ⟨⟨s, hss s List.mem_cons_self⟩ :: argv, rfl⟩

/-- Argument vectors survive packing, buffers survive unpacking, and no string is read past the
end. -/
theorem argv_round_trip :
    (∀ (argv : List CString) (args : List UInt8) (base : Nat) (out : List Nat),
      (packed argv).length < 2 ^ 31 →
      (packed argv).length ≤ args.length → argv.length ≤ out.length →
      PacksExactly argv args base out) ∧
    (∀ (buf : List UInt8) (base : Nat), buf.length < 2 ^ 31 → buf = [] ∨ buf.getLast? = some 0 →
      ∃ (argv : List CString) (ps : List Nat), argscount buf.length buf = some argv.length ∧
        (∀ out : List Nat, argv.length ≤ out.length → argvunpack argv.length out base buf =
          some (ps ++ out.drop argv.length, base + buf.length)) ∧
        ps.map (stringAt base buf) = argv.map (fun s => some s.chars) ∧
        ∀ args : List UInt8, args.length = buf.length → argvpack args argv =
        some (buf, buf.length)) ∧ (∀ (buf : List UInt8) (n argc base : Nat) (out : List Nat),
        argscount buf.length buf = some n → argc ≤ n →
      argc ≤ out.length → ∃ ps a, argvunpack argc out base buf = some (ps, a) ∧
      a ≤ base + buf.length) := by
  refine ⟨fun argv args base out hlt hargs hout => packs_exactly base hlt hargs hout, ?_, ?_⟩
  · intro buf base hlt hend
    obtain ⟨ss, hss, rfl⟩ := exists_pack_of_last hend
    obtain ⟨argv, rfl⟩ := exists_argv hss
    have hmap : (argv.map CString.chars).length = argv.length := List.length_map _
    have hun : ∀ out : List Nat, argv.length ≤ out.length → _ := fun out hout =>
      argvunpack_eq base (nulFree_chars argv)
        (List.append_nil (pack 0 (argv.map CString.chars))).symm
        (Nat.le_of_eq hmap.symm) hout
    rw [List.take_of_length_le (Nat.le_of_eq hmap)] at hun
    refine ⟨argv, starts base (argv.map CString.chars), ?_, fun out hout => (hun out hout).1,
      ?_, fun args hargs => ?_⟩
    · rw [argscount_all, count_pack hss, hmap]
    · rw [(hun (List.replicate argv.length 0) (by simp)).2, List.map_map]
      rfl
    · have hlen : args.length = (packed argv).length := hargs
      rw [argvpack_eq (Nat.le_of_eq hlen.symm) hlt, List.drop_of_length_le (Nat.le_of_eq hlen),
        List.append_nil]
      rfl
  · intro buf n argc base out hcount hargc hout
    obtain ⟨ss, rest, hss, hrest, rfl⟩ := exists_pack 0 buf
    have hn : n = ss.length := by
      rw [argscount_all, List.count_append, count_pack hss, List.count_eq_zero.mpr hrest] at hcount
      simpa using hcount.symm
    obtain ⟨hun, -⟩ := argvunpack_eq base hss rfl (hn ▸ hargc) hout
    refine ⟨_, _, hun, ?_⟩
    have hle : (pack 0 (ss.take argc)).length ≤ (pack 0 ss).length := by
      have hsplit : pack 0 (ss.take argc) ++ pack 0 (ss.drop argc) = pack 0 ss := by
        rw [← pack_append, List.take_append_drop]
      rw [← hsplit, List.length_append]
      omega
    rw [List.length_append]
    omega

/-- Two strings, the first of them empty, in a buffer with a byte to spare. -/
theorem argv_round_trip_two :
    PacksExactly [⟨[], by simp⟩, ⟨[104, 105], by decide⟩] (List.replicate 5 7) 100 [0, 0, 0] ∧
      ∃ ps a, argvunpack 1 [0, 0] 100 [104, 0, 105] = some (ps, a) ∧ a ≤ 103 :=
  ⟨argv_round_trip.1 _ _ 100 _ (by decide) (by decide) (by decide),
    argv_round_trip.2.2 [104, 0, 105] 1 1 100 [0, 0] (by decide) (by decide) (by decide)⟩

end

end TinyOS
