import TinyOS.Lib.Counting
import TinyOS.ProcessLine

/-! The loop of `process_line` that splits the command line, with its two arrays of `argc`
entries. -/

namespace TinyOS

open Counting

/-- The variables of the loop; `vargv` holds offsets into `argv`, and `used` the indices at which
`Vargc` and `Vargv` have been accessed. -/
structure Splitting where
  frag : Nat
  vargc : Nat → Nat
  vargv : Nat → Nat
  used : List Nat

def Splitting.setVargc (s : Splitting) (i n : Nat) : Splitting :=
  { s with vargc := Function.update s.vargc i n, used := s.used ++ [i] }

def Splitting.setVargv (s : Splitting) (i n : Nat) : Splitting :=
  { s with vargv := Function.update s.vargv i n, used := s.used ++ [i] }

/-- One round, for the word `argv[i]`. -/
def Splitting.word (s : Splitting) (i : Nat) (a : String) : Splitting :=
  if a ≠ "|" then
    let s := s.setVargc s.frag (s.vargc s.frag + 1)
    if s.vargc s.frag = 1 then s.setVargv s.frag i else s
  else
    let s := { s with frag := s.frag + 1 }
    s.setVargc s.frag 0

def Splitting.words (s : Splitting) (i : Nat) : List String → Splitting
  | [] => s
  | a :: rest => (s.word i a).words (i + 1) rest

/-- The state after the loop, before `frag++`; the arrays start with `garbage`. -/
def splitLine (argv : List String) (garbage : Nat → Nat × Nat) : Splitting :=
  (Splitting.setVargc ⟨0, fun i => (garbage i).1, fun i => (garbage i).2, []⟩ 0 0).words 0 argv

/-- What is printed before `process_line` returns 0, or the array `comd`. -/
inductive LineCheck
  | error (message : String)
  | start (comd : List Nat)
deriving DecidableEq

def LineCheck.cons (c : Nat) : LineCheck → LineCheck
  | .error message => .error message
  | .start comd => .start (c :: comd)

def checkFragments (argv : List String) (s : Splitting) : List Nat → LineCheck
  | [] => .start []
  | i :: is =>
    if s.vargc i = 0 then .error "Error: a pipeline fragment was empty.\n"
    else
      let name := argv.getD (s.vargv i) ""
      match cmdnames.findIdx? (· = name) with
      | none => .error ("Command not found: '" ++ name ++ "'\n")
      | some c => (checkFragments argv s is).cons c

def checkLine (argv : List String) (garbage : Nat → Nat × Nat) : LineCheck :=
  let s := splitLine argv garbage
  checkFragments argv s (List.range (s.frag + 1))

/-! ### The fragments -/

section Fragments

theorem pipelineFragments_eq (argv : List String) : pipelineFragments argv = argv.splitOn "|" := by
  induction argv with
  | nil => rfl
  | cons a rest ih =>
    rw [List.splitOn_cons_eq_if_modifyHead, pipelineFragments, ih]
    by_cases ha : a = "|"
    · simp [ha]
    · have hne := List.splitOn_ne_nil "|" rest
      cases hrest : rest.splitOn "|" with
      | nil => exact absurd hrest hne
      | cons frag frags => simp [ha]

theorem bar_notMem (argv : List String) : ∀ seg ∈ pipelineFragments argv, "|" ∉ seg := by
  induction argv with
  | nil => simp [pipelineFragments]
  | cons a rest ih =>
    rw [pipelineFragments]
    by_cases ha : a = "|"
    · simpa [ha] using ih
    · cases hrest : pipelineFragments rest with
      | nil => simpa [ha] using Ne.symm ha
      | cons frag frags =>
        rw [hrest] at ih
        simp only [ha, if_false, List.mem_cons, forall_eq_or_imp] at ih ⊢
        exact ⟨fun hm => hm.elim (fun h => ha h.symm) ih.1, ih.2⟩

/-- One word more lengthens the last fragment or begins a new one. -/
theorem pipelineFragments_concat (done : List String) (a : String) :
    ∃ init cur, pipelineFragments done = init ++ [cur] ∧
      pipelineFragments (done ++ [a]) = if a = "|" then init ++ [cur, []]
        else init ++ [cur ++ [a]] := by
  induction done with
  | nil =>
    refine ⟨[], [], rfl, ?_⟩
    by_cases ha : a = "|" <;> simp [pipelineFragments, ha]
  | cons b done ih =>
    obtain ⟨init, cur, hdone, hnext⟩ := ih
    by_cases hb : b = "|"
    · refine ⟨[] :: init, cur, by simp [pipelineFragments, hb, hdone], ?_⟩
      rw [List.cons_append, pipelineFragments, if_pos hb, hnext]
      split <;> rfl
    · cases init with
      | nil =>
        refine ⟨[], b :: cur, by simp [pipelineFragments, hb, hdone], ?_⟩
        rw [List.cons_append, pipelineFragments, if_neg hb, hnext]
        by_cases ha : a = "|" <;> simp [ha]
      | cons frag init =>
        refine ⟨(b :: frag) :: init, cur, by simp [pipelineFragments, hb, hdone], ?_⟩
        rw [List.cons_append, pipelineFragments, if_neg hb, hnext]
        by_cases ha : a = "|" <;> simp [ha]

theorem pipelineFragments_length (argv : List String) :
    (pipelineFragments argv).length = argv.count "|" + 1 := by
  induction argv with
  | nil => rfl
  | cons a rest ih =>
    rw [pipelineFragments]
    by_cases ha : a = "|"
    · simp [ha, ih]
    · cases hrest : pipelineFragments rest with
      | nil => simp [hrest] at ih
      | cons frag frags =>
        rw [hrest] at ih
        simpa [ha, List.count_cons] using ih

end Fragments

/-! ### The loop -/

/-- After the words `done`: the arrays hold their fragments, and `frag` is the last index used. -/
structure SplitInv (done : List String) (s : Splitting) : Prop where
  frag : s.frag = done.count "|"
  count : ∀ i seg, (pipelineFragments done)[i]? = some seg → s.vargc i = seg.length
  slice : ∀ i seg, (pipelineFragments done)[i]? = some seg → seg ≠ [] →
    ∃ post, done.drop (s.vargv i) = seg ++ post
  current : ∀ seg, (pipelineFragments done)[s.frag]? = some seg → seg ≠ [] →
    done.drop (s.vargv s.frag) = seg
  used : ∀ i ∈ s.used, i ≤ s.frag
  last : s.frag ∈ s.used

section Loop

variable {done : List String} {a : String} {s : Splitting}

theorem drop_concat {v : Nat} {post seg : List String} (hseg : seg ≠ [])
    (h : done.drop v = seg ++ post)
    (a : String) : (done ++ [a]).drop v = seg ++ (post ++ [a]) := by
  have hle : v ≤ done.length := by
    by_contra hlt
    rw [List.drop_eq_nil_of_le (by omega)] at h
    exact hseg (List.append_eq_nil_iff.mp h.symm).1
  rw [List.drop_append_of_le_length hle, h, List.append_assoc]

/-- After a separator there is one more fragment, and it is empty. -/
theorem fragments_bar {i : Nat} {seg : List String}
    (h : (pipelineFragments (done ++ ["|"]))[i]? = some seg) :
    (i < (pipelineFragments done).length ∧ (pipelineFragments done)[i]? = some seg) ∨
      (i = (pipelineFragments done).length ∧ seg = []) := by
  obtain ⟨init, cur, hdone, hnext⟩ := pipelineFragments_concat done "|"
  rw [if_pos rfl, show init ++ [cur, []] = pipelineFragments done ++ [[]] by simp [hdone]] at hnext
  rw [hnext] at h
  rcases getElem?_concat_cases h with ⟨hi, hnil⟩ | ⟨-, hold⟩
  · exact .inr ⟨hi, hnil⟩
  · exact .inl ⟨(List.getElem?_eq_some_iff.mp hold).1, hold⟩

/-- Another word is added to the last fragment. -/
theorem fragments_plain (ha : a ≠ "|") : ∃ cur, (pipelineFragments done)[done.count "|"]? =
    some cur ∧ ∀ i seg, (pipelineFragments (done ++ [a]))[i]? = some seg →
      (i < done.count "|" ∧ (pipelineFragments done)[i]? = some seg) ∨
        (i = done.count "|" ∧ seg = cur ++ [a]) := by
  obtain ⟨init, cur, hdone, hnext⟩ := pipelineFragments_concat done a
  rw [if_neg ha] at hnext
  have hinit : init.length = done.count "|" := by
    have hlen := pipelineFragments_length done
    rw [hdone, List.length_append, List.length_singleton] at hlen
    omega
  refine ⟨cur, by rw [hdone, ← hinit, List.getElem?_concat_length], fun i seg hseg => ?_⟩
  rw [hnext] at hseg
  rcases getElem?_concat_cases hseg with ⟨hi, hlast⟩ | ⟨-, hold⟩
  · exact .inr ⟨hi.trans hinit, hlast⟩
  · have hi := (List.getElem?_eq_some_iff.mp hold).1
    refine .inl ⟨hinit ▸ hi, ?_⟩
    rw [hdone, List.getElem?_append_left hi]
    exact hold

/-- A word that is no separator: it is counted, and the pointer is set if it is the first of its
fragment. -/
theorem Splitting.word_plain (ha : a ≠ "|") (i : Nat) : s.word i a =
    if s.vargc s.frag = 0 then (s.setVargc s.frag (s.vargc s.frag + 1)).setVargv s.frag i
    else s.setVargc s.frag (s.vargc s.frag + 1) := by
  simp [Splitting.word, ha, Splitting.setVargc]

theorem SplitInv.bar (h : SplitInv done s) : SplitInv (done ++ ["|"]) (s.word done.length "|") := by
  have hlen := pipelineFragments_length done
  rw [← h.frag] at hlen
  have hword : s.word done.length "|" =
      ({ s with frag := s.frag + 1 } : Splitting).setVargc (s.frag + 1) 0 := by
    simp [Splitting.word]
  have hcases := fun i seg (hseg : (pipelineFragments (done ++ ["|"]))[i]? = some seg) =>
    fragments_bar hseg
  rw [hlen] at hcases
  rw [hword]
  refine ⟨?_, fun i seg hseg => ?_, fun i seg hseg hne => ?_, fun seg hseg hne => ?_,
    fun i hi => ?_, ?_⟩
  · simp [Splitting.setVargc, List.count_append, h.frag]
  · rcases hcases i seg hseg with ⟨hi, hold⟩ | ⟨rfl, rfl⟩
    · simp only [Splitting.setVargc]
      rw [Function.update_of_ne (by omega)]
      exact h.count i seg hold
    · simp [Splitting.setVargc]
  · rcases hcases i seg hseg with ⟨-, hold⟩ | ⟨-, hnil⟩
    · obtain ⟨post, hpost⟩ := h.slice i seg hold hne
      exact ⟨post ++ ["|"], drop_concat hne hpost "|"⟩
    · exact absurd hnil hne
  · rcases hcases _ seg hseg with ⟨hi, -⟩ | ⟨-, hnil⟩
    · exact absurd hi (Nat.lt_irrefl _)
    · exact absurd hnil hne
  · simp only [Splitting.setVargc, List.mem_append, List.mem_singleton] at hi ⊢
    rcases hi with hi | rfl
    · exact (h.used i hi).trans (Nat.le_succ _)
    · exact Nat.le_refl _
  · simp [Splitting.setVargc]

/-- What a word that is no separator leaves. -/
theorem SplitInv.word_fields {cur : List String} (h : SplitInv done s)
    (hcur : (pipelineFragments done)[s.frag]? = some cur) (ha : a ≠ "|") :
    (s.word done.length a).frag = s.frag ∧
      (s.word done.length a).vargc = Function.update s.vargc s.frag (cur.length + 1) ∧
      (done ++ [a]).drop ((s.word done.length a).vargv s.frag) = cur ++ [a] ∧
      (∀ i, i ≠ s.frag → (s.word done.length a).vargv i = s.vargv i) ∧
      ∀ i, i ∈ (s.word done.length a).used ↔ i ∈ s.used ∨ i = s.frag := by
  rw [Splitting.word_plain ha, h.count s.frag cur hcur]
  by_cases hnil : cur = []
  · rw [if_pos (by rw [hnil]; rfl)]
    refine ⟨rfl, rfl, ?_, fun i hi => Function.update_of_ne hi _ _, fun i => ?_⟩
    · simp [Splitting.setVargv, hnil]
    · simp [Splitting.setVargv, Splitting.setVargc]
  · rw [if_neg (by simpa using hnil)]
    have hdrop := drop_concat hnil ((h.current cur hcur hnil).trans (List.append_nil cur).symm) a
    exact ⟨rfl, rfl, by rwa [List.nil_append] at hdrop, fun i _ => rfl,
      fun i => by simp [Splitting.setVargc]⟩

theorem SplitInv.plain (h : SplitInv done s) (ha : a ≠ "|") :
    SplitInv (done ++ [a]) (s.word done.length a) := by
  obtain ⟨cur, hcur, hcases⟩ := @fragments_plain done _ ha
  rw [← h.frag] at hcur hcases
  obtain ⟨hfrag, hvargc, hslice, hkept, hused⟩ := h.word_fields hcur ha
  refine ⟨?_, fun i seg hseg => ?_, fun i seg hseg hne => ?_, fun seg hseg hne => ?_,
    fun i hi => ?_, ?_⟩
  · simp [hfrag, List.count_append, h.frag, ha]
  · rw [hvargc]
    rcases hcases i seg hseg with ⟨hi, hold⟩ | ⟨rfl, rfl⟩
    · rw [Function.update_of_ne hi.ne]
      exact h.count i seg hold
    · simp
  · rcases hcases i seg hseg with ⟨hi, hold⟩ | ⟨rfl, rfl⟩
    · obtain ⟨post, hpost⟩ := h.slice i seg hold hne
      rw [hkept i hi.ne]
      exact ⟨post ++ [a], drop_concat hne hpost a⟩
    · exact ⟨[], by rw [hslice, List.append_nil]⟩
  · rw [hfrag] at hseg ⊢
    rcases hcases _ seg hseg with ⟨hi, -⟩ | ⟨-, rfl⟩
    · exact absurd hi (Nat.lt_irrefl _)
    · exact hslice
  · rw [hfrag]
    rcases (hused i).mp hi with hi | rfl
    · exact h.used i hi
    · exact Nat.le_refl _
  · rw [hfrag]
    exact (hused _).mpr (.inr rfl)

theorem SplitInv.word (h : SplitInv done s) (a : String) :
    SplitInv (done ++ [a]) (s.word done.length a) := by
  by_cases ha : a = "|"
  · subst ha
    exact h.bar
  · exact h.plain ha

theorem SplitInv.words (h : SplitInv done s) (rest : List String) :
    SplitInv (done ++ rest) (s.words done.length rest) := by
  induction rest generalizing done s with
  | nil => simpa [Splitting.words] using h
  | cons a rest ih =>
    have hnext := ih (h.word a)
    rwa [List.append_assoc, List.singleton_append, List.length_append,
      List.length_singleton] at hnext

theorem splitLine_inv (argv : List String) (garbage : Nat → Nat × Nat) :
    SplitInv argv (splitLine argv garbage) := by
  have hstart : SplitInv []
      (Splitting.setVargc ⟨0, fun i => (garbage i).1, fun i => (garbage i).2, []⟩ 0 0) := by
    have hseg : ∀ i seg, (pipelineFragments [])[i]? = some seg → i = 0 ∧ seg = [] := by
      intro i seg h
      cases i with
      | zero => exact ⟨rfl, (Option.some.inj h).symm⟩
      | succ i => simp [pipelineFragments] at h
    refine ⟨rfl, fun i seg h => ?_, fun i seg h hne => absurd (hseg i seg h).2 hne,
      fun seg h hne => absurd (hseg _ seg h).2 hne,
        by simp [Splitting.setVargc], by simp [Splitting.setVargc]⟩
    obtain ⟨rfl, rfl⟩ := hseg i seg h
    rfl
  exact hstart.words argv

end Loop

/-! ### The check -/

section Check

def Startable (seg : List String) : Prop := ∃ name args, seg = name :: args ∧ name ∈ cmdnames

theorem cons_start {c : Nat} {l : LineCheck} : (∃ comd, l.cons c = .start comd) ↔
    ∃ comd, l = .start comd := by
  cases l <;> simp [LineCheck.cons]

theorem checkFragments_iff (argv : List String) (garbage : Nat → Nat × Nat) {is : List Nat}
    (his : ∀ i ∈ is, i < (pipelineFragments argv).length) :
    (∃ comd, checkFragments argv (splitLine argv garbage) is = .start comd) ↔
      ∀ i ∈ is, ∀ seg, (pipelineFragments argv)[i]? = some seg → Startable seg := by
  have hinv := splitLine_inv argv garbage
  induction is with
  | nil => simp [checkFragments]
  | cons i is ih =>
    have hrest := ih fun j hj => his j (List.mem_cons_of_mem _ hj)
    obtain ⟨seg, hseg⟩ : ∃ seg, (pipelineFragments argv)[i]? = some seg :=
      ⟨_, List.getElem?_eq_getElem (his i List.mem_cons_self)⟩
    have hcount := hinv.count i seg hseg
    simp only [List.mem_cons, forall_eq_or_imp, hseg, Option.some.injEq, forall_eq', checkFragments]
    refine Iff.trans ?_ (and_congr Iff.rfl hrest)
    cases seg with
    | nil => simp [hcount, Startable]
    | cons name args =>
      obtain ⟨post, hpost⟩ := hinv.slice i _ hseg (List.cons_ne_nil _ _)
      have hname : argv.getD ((splitLine argv garbage).vargv i) "" = name := by
        have hget := congrArg List.head? hpost
        rw [List.head?_drop] at hget
        rw [List.getD_eq_getElem?_getD, hget]
        rfl
      have hne : (splitLine argv garbage).vargc i ≠ 0 := by simp [hcount]
      have hstart : Startable (name :: args) ↔ name ∈ cmdnames := by simp [Startable]
      rw [if_neg hne, hname, hstart]
      cases hfind : cmdnames.findIdx? (· = name) with
      | none =>
        have hno : name ∉ cmdnames := fun hm => by
          simpa using List.findIdx?_eq_none_iff.mp hfind name hm
        simp [hno]
      | some c =>
        have hyes : name ∈ cmdnames := by
          by_contra hno
          have hnone : cmdnames.findIdx? (· = name) = none :=
            List.findIdx?_eq_none_iff.mpr fun x hx =>
            decide_eq_false fun h => hno (h ▸ hx)
          rw [hnone] at hfind
          cases hfind
        simp only [hyes, true_and]
        exact cons_start

theorem checkLine_iff (argv : List String) (garbage : Nat → Nat × Nat) :
    (∃ comd, checkLine argv garbage = .start comd) ↔ ∀ seg ∈ pipelineFragments argv,
    Startable seg := by
  have hinv := splitLine_inv argv garbage
  have hlen : (splitLine argv garbage).frag + 1 = (pipelineFragments argv).length := by
    rw [pipelineFragments_length, hinv.frag]
  simp only [checkLine, hlen]
  rw [checkFragments_iff argv garbage fun i hi => List.mem_range.mp hi]
  constructor
  · intro h seg hseg
    obtain ⟨i, hi⟩ := List.mem_iff_getElem?.mp hseg
    exact h i (List.mem_range.mpr (List.getElem?_eq_some_iff.mp hi).1) seg hi
  · exact fun h i _ seg hseg => h seg (List.mem_of_getElem? hseg)

theorem accepted_iff (frags : List (List String)) : accepted frags = true ↔
    ∀ seg ∈ frags, Startable seg := by
  simp only [accepted, List.all_eq_true]
  refine forall₂_congr fun seg _ => ?_
  cases seg <;> simp [Startable]

end Check

/-- What is asked of `process_line`: the loop stays within its arrays and leaves the fragments in
them, and children are started exactly when each fragment has a command. -/
structure LineSplit (argv : List String) (garbage : Nat → Nat × Nat) : Prop where
  bounds : ∀ i ∈ (splitLine argv garbage).used, i < argv.length
  frag : (splitLine argv garbage).frag = argv.count "|"
  joined : ["|"].intercalate (pipelineFragments argv) = argv
  free : ∀ seg ∈ pipelineFragments argv, "|" ∉ seg
  number : (pipelineFragments argv).length = (splitLine argv garbage).frag + 1
  pairs : ∀ i seg, (pipelineFragments argv)[i]? = some seg →
    (splitLine argv garbage).vargc i = seg.length ∧
    (seg ≠ [] → (argv.drop ((splitLine argv garbage).vargv i)).take
      ((splitLine argv garbage).vargc i) = seg)
  starts : (∃ comd, checkLine argv garbage = .start comd) ↔
    ∀ seg ∈ pipelineFragments argv, ∃ name args, seg = name :: args ∧ name ∈ cmdnames
  refused : ∀ message, checkLine argv garbage = .error message →
    ∀ k p pids buf, processLine k p argv pids buf = some none

/-- The arrays are long enough exactly if some word is not a bar. -/
theorem line_split_exact (argv : List String) (garbage : Nat → Nat × Nat) :
    LineSplit argv garbage ↔ ∃ a ∈ argv, a ≠ "|" := by
  have hinv := splitLine_inv argv garbage
  have hlong : argv.count "|" < argv.length ↔ ∃ a ∈ argv, a ≠ "|" := by
    have hall := List.count_eq_length (a := "|") (l := argv)
    have hle := List.count_le_length (a := "|") (l := argv)
    rw [← not_iff_not, not_lt]
    push Not
    constructor
    · exact fun h a ha => (hall.mp (by omega) a ha).symm
    · exact fun h => (hall.mpr fun b hb => (h b hb).symm).ge
  rw [← hlong, ← hinv.frag]
  constructor
  · exact fun h => h.bounds _ hinv.last
  · intro h
    refine ⟨fun i hi => (hinv.used i hi).trans_lt h, hinv.frag, ?_, bar_notMem argv,
      ?_, fun i seg hseg => ?_, checkLine_iff argv garbage, fun message hmsg k p pids buf => ?_⟩
    · rw [pipelineFragments_eq, List.intercalate_splitOn]
    · rw [pipelineFragments_length, hinv.frag]
    · have hcount := hinv.count i seg hseg
      refine ⟨hcount, fun hne => ?_⟩
      obtain ⟨post, hpost⟩ := hinv.slice i seg hseg hne
      rw [hcount, hpost, List.take_left]
    · have hno : ¬ accepted (pipelineFragments argv) = true := by
        rw [accepted_iff, ← checkLine_iff argv garbage, hmsg]
        simp
      simp only [processLine, hno, Bool.false_eq_true, if_false]

/-- A line that is a single bar. -/
theorem line_split_bar : ¬ LineSplit ["|"] fun _ => (0, 0) := by
  intro h
  exact absurd (h.bounds 1 (by decide)) (by decide)

end TinyOS
