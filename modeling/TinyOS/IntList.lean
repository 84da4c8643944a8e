import Mathlib.Data.List.Sort
import Mathlib.Data.List.Dedup
import Mathlib.Data.Int.Interval
import Mathlib.Order.Interval.Finset.Basic

/-! `parse_int_list` of the test driver. Duplicates are looked up in `nlist`, which the loop never
writes, while the values go to `args`. -/

namespace TinyOS

/-! ### Library functions -/

def strtokTokens (arg : List Char) : List (List Char) := (arg.splitOn ',').filter (· ≠ [])

def isSpace (c : Char) : Bool := c.toNat = 32 ∨ (9 ≤ c.toNat ∧ c.toNat ≤ 13)

def readNumber (token : List Char) : Option (Int × List Char) :=
  let s := token.dropWhile isSpace
  let (neg, s) := match s with
    | '-' :: s => (true, s)
    | '+' :: s => (false, s)
    | s => (false, s)
  let digits := s.takeWhile Char.isDigit
  let value : Int := digits.foldl (fun n d => 10 * n + (d.toNat - 48)) 0
  if digits = [] then none else some (if neg then -value else value, s.dropWhile Char.isDigit)

def longMin : Int := -2 ^ 63

def longMax : Int := 2 ^ 63 - 1

def intMax : Int := 2 ^ 31 - 1

/-- `strtol` in base 10: the value, and the rest at which `endptr` points. -/
def strtol (token : List Char) : Int × List Char :=
  match readNumber token with
  | none => (0, token)
  | some (v, rest) => (max longMin (min v longMax), rest)

def toInt (v : Int) : Int := v.bmod (2 ^ 32)

def cmpint (a b : Int) : Int := if b < a then 1 else 0

/-- Sorting with a comparison that is asked only whether it is positive. -/
def qsort (args : List Int) (cmp : Int → Int → Int) : List Int :=
  args.insertionSort fun a b => cmp a b ≤ 0

def memcpyInts (nlist : Nat → Int) (l : List Int) (j : Nat) : Int := l.getD j (nlist j)

/-! ### The parser -/

/-- The value that a token gets past the two checks with. -/
def acceptToken (low high : Int32) (token : List Char) : Option Int :=
  let r := strtol token
  let num := toInt r.1
  if r.2 = token ∨ r.2 ≠ [] then none
  else if num < low.toInt ∨ num > high.toInt then none
  else some num

def oldEntries (nlist : Nat → Int) (n : Nat) : List Int := (List.range n).map nlist

/-- The loop: the values stored in `args`, and whether it got to the end of the tokens. -/
def scanTokens (nlist : Nat → Int) (low high : Int32) : List (List Char) →
    List Int → List Int × Bool
  | [], args => (args, true)
  | token :: rest, args =>
    match acceptToken low high token with
    | none => (args, false)
    | some num =>
      if num ∈ oldEntries nlist args.length then scanTokens nlist low high rest args
      else scanTokens nlist low high rest (args ++ [num])

/-- What the call returns and leaves; `stored` is the number of entries of `args` that it wrote. -/
structure IntListParse where
  ret : Int
  nlen : Int
  nlist : Nat → Int
  stored : Nat

def parseIntList (arg : List Char) (nlen : Int) (nlist : Nat → Int)
    (low high : Int32) : IntListParse :=
  let r := scanTokens nlist low high (strtokTokens arg) []
  if r.2 then
    { ret := if (r.1.length : Int) > 0 then 1 else 0
      nlen := r.1.length
      nlist := memcpyInts nlist (qsort r.1 cmpint)
      stored := r.1.length }
  else { ret := 0, nlen := nlen, nlist := nlist, stored := r.1.length }

/-! ### What is asked of it -/

def decimal (token : List Char) : Option Int :=
  match readNumber token with
  | some (v, []) => some v
  | _ => none

def ValidList (tokens : List (List Char)) (low high : Int32) : Prop :=
  tokens ≠ [] ∧ ∀ t ∈ tokens, ∃ v, decimal t = some v ∧ low.toInt ≤ v ∧ v ≤ high.toInt

/-- The contract in the comment above the function; `fits` says that the size of `args` is an
`int`. -/
structure IntListContract (arg : List Char) (nlen : Int) (nlist : Nat → Int)
    (low high : Int32) : Prop where
  fits : high.toInt - low.toInt + 1 ≤ intMax
  bounds : ((parseIntList arg nlen nlist low high).stored : Int) ≤ high.toInt - low.toInt + 1
  valid : ValidList (strtokTokens arg) low high → (parseIntList arg nlen nlist low high).ret = 1 ∧
    ∃ l : List Int, l.Pairwise (· < ·) ∧ (∀ v, v ∈ l ↔ ∃ t ∈ strtokTokens arg, decimal t = some v) ∧
      (parseIntList arg nlen nlist low high).nlen = l.length ∧
      ∀ j v, l[j]? = some v → (parseIntList arg nlen nlist low high).nlist j = v
  invalid : ¬ ValidList (strtokTokens arg) low high →
    (parseIntList arg nlen nlist low high).ret = 0 ∧
    (parseIntList arg nlen nlist low high).nlen = nlen ∧
    (parseIntList arg nlen nlist low high).nlist = nlist

/-! ### When it holds -/

def acceptedValues (low high : Int32) : List (List Char) → List Int
  | [] => []
  | token :: rest =>
    match acceptToken low high token with
    | none => []
    | some v => v :: acceptedValues low high rest

/-- A value occurred before exactly if it is one of the first `d` old entries, where `d` counts the
distinct values before it. -/
def Harmless (nlist : Nat → Int) (values : List Int) : Prop :=
  ∀ pre v post, values = pre ++ v :: post → (v ∈ oldEntries nlist pre.dedup.length ↔ v ∈ pre)

/-- No value of `s` is among as many old entries as there are values before it. -/
def Unlisted (nlist : Nat → Int) (s : List Int) : Prop := ∀ j v, s[j]? = some v →
    v ∉ oldEntries nlist j

structure ListHarmless (arg : List Char) (nlen : Int) (nlist : Nat → Int)
    (low high : Int32) : Prop where
  fits : high.toInt - low.toInt + 1 ≤ intMax
  empty : strtokTokens arg = [] → nlen = 0
  valid : ValidList (strtokTokens arg) low high → Harmless nlist
    (acceptedValues low high (strtokTokens arg))
  refused : strtokTokens arg ≠ [] → ¬ ValidList (strtokTokens arg) low high →
    (∃ t ∈ strtokTokens arg, acceptToken low high t = none) ∧
      ∀ s, s.Sublist (acceptedValues low high (strtokTokens arg)) → Unlisted nlist s →
        (s.length : Int) ≤ high.toInt - low.toInt + 1

section Tokens

variable {low high : Int32} {t : List Char} {v : Int} {tokens : List (List Char)}
  {nlist : Nat → Int}

theorem toInt_eq (hl : low.toInt ≤ v) (hh : v ≤ high.toInt) : toInt v = v := by
  have h1 := low.le_toInt
  have h2 := high.toInt_lt
  exact Int.bmod_eq_of_le (by omega) (by omega)

theorem acceptToken_of_decimal (h : decimal t = some v) (hl : low.toInt ≤ v) (hh : v ≤ high.toInt) :
    acceptToken low high t = some v := by
  have h1 := low.le_toInt
  have h2 := high.toInt_lt
  unfold decimal at h
  split at h
  · rename_i w hread
    obtain rfl := Option.some.inj h
    have hne : t ≠ [] := by
      rintro rfl
      simp [readNumber] at hread
    have hclamp : max longMin (min w longMax) = w := by
      simp only [longMin, longMax]
      omega
    have hstrtol : strtol t = (w, []) := by simp only [strtol, hread, hclamp]
    simp only [acceptToken, hstrtol, toInt_eq hl hh]
    rw [if_neg (by simpa using Ne.symm hne), if_neg (by omega)]
  · cases h

theorem acceptedValues_all (h : ∀ t ∈ tokens, acceptToken low high t ≠ none) :
    (acceptedValues low high tokens).length = tokens.length ∧
      ∀ v, v ∈ acceptedValues low high tokens ↔ ∃ t ∈ tokens, acceptToken low high t = some v := by
  induction tokens with
  | nil => simp [acceptedValues]
  | cons t rest ih =>
    obtain ⟨hlen, hmem⟩ := ih fun u hu => h u (List.mem_cons_of_mem _ hu)
    obtain ⟨v, hv⟩ := Option.ne_none_iff_exists'.mp (h t List.mem_cons_self)
    have hcons : acceptedValues low high (t :: rest) = v :: acceptedValues low high rest := by
      simp only [acceptedValues, hv]
    refine ⟨by simp [hcons, hlen], fun w => ?_⟩
    rw [hcons, List.mem_cons, hmem]
    simp [hv, eq_comm]

end Tokens

/-! ### The values that are kept -/

def keepNew (nlist : Nat → Int) : List Int → List Int → List Int
  | [], args => args
  | v :: rest, args =>
    if v ∈ oldEntries nlist args.length then keepNew nlist rest args
      else keepNew nlist rest (args ++ [v])

section Keep

variable {nlist : Nat → Int} {values args pre s : List Int} {v : Int} {m n : Nat}

theorem scanTokens_eq (nlist : Nat → Int) (low high : Int32) (tokens : List (List Char))
    (args : List Int) :
    (scanTokens nlist low high tokens args).1 =
    keepNew nlist (acceptedValues low high tokens) args ∧
      ((scanTokens nlist low high tokens args).2 = true ↔ ∀ t ∈ tokens,
        acceptToken low high t ≠ none) := by
  induction tokens generalizing args with
  | nil => simp [scanTokens, acceptedValues, keepNew]
  | cons t rest ih =>
    cases ht : acceptToken low high t with
    | none => simp [scanTokens, acceptedValues, keepNew, ht]
    | some v =>
      have hhead : (∀ u ∈ t :: rest, acceptToken low high u ≠ none) ↔
          ∀ u ∈ rest, acceptToken low high u ≠ none := by
        simp [ht]
      rw [hhead]
      simp only [scanTokens, acceptedValues, ht, keepNew]
      by_cases hv : v ∈ oldEntries nlist args.length
      · rw [if_pos hv, if_pos hv]
        exact ih args
      · rw [if_neg hv, if_neg hv]
        exact ih (args ++ [v])

theorem oldEntries_mono (h : m ≤ n) (hv : v ∈ oldEntries nlist m) : v ∈ oldEntries nlist n := by
  simp only [oldEntries, List.mem_map, List.mem_range] at hv ⊢
  obtain ⟨j, hj, rfl⟩ := hv
  exact ⟨j, hj.trans_le h, rfl⟩

theorem keepNew_starts (nlist : Nat → Int) (values args : List Int) :
    args <+: keepNew nlist values args := by
  induction values generalizing args with
  | nil => exact List.prefix_refl _
  | cons v rest ih =>
    rw [keepNew]
    split
    · exact ih args
    · exact (List.prefix_append _ _).trans (ih _)

/-- The values kept are some of those read, and none was listed when its turn came. -/
theorem keepNew_sublist (nlist : Nat → Int) (values args : List Int) :
    ∃ s, s.Sublist values ∧ keepNew nlist values args = args ++ s ∧
      ∀ j v, s[j]? = some v → v ∉ oldEntries nlist (args.length + j) := by
  induction values generalizing args with
  | nil => exact ⟨[], .slnil, by simp [keepNew], by simp⟩
  | cons v rest ih =>
    rw [keepNew]
    split
    · obtain ⟨s, hs, hkeep, hnew⟩ := ih args
      exact ⟨s, hs.cons v, hkeep, hnew⟩
    · rename_i hv
      obtain ⟨s, hs, hkeep, hnew⟩ := ih (args ++ [v])
      refine ⟨v :: s, hs.cons_cons v, by simpa using hkeep, fun j w hj => ?_⟩
      cases j with
      | zero =>
        obtain rfl : v = w := by simpa using hj
        exact hv
      | succ j =>
        have hw := hnew j w (by simpa using hj)
        rwa [List.length_append, List.length_singleton, Nat.add_assoc, Nat.add_comm 1 j] at hw

/-- Keeping every value that is not listed keeps as many as possible. -/
theorem keepNew_longest (hs : s.Sublist values) (hm : m ≤ args.length)
    (hnew : ∀ j v, s[j]? = some v → v ∉ oldEntries nlist (m + j)) :
    m + s.length ≤ (keepNew nlist values args).length := by
  induction hs generalizing m args with
  | slnil => simpa [keepNew] using hm
  | cons v hs ih =>
    rw [keepNew]
    split
    · exact ih hm hnew
    · exact ih (hm.trans (by simp)) hnew
  | @cons_cons s rest v hs ih =>
    have htail : ∀ j w, s[j]? = some w → w ∉ oldEntries nlist (m + 1 + j) := fun j w hj => by
      have hw := hnew (j + 1) w (by simpa using hj)
      rwa [Nat.add_comm j 1, ← Nat.add_assoc] at hw
    have hlen : m + (v :: s).length = m + 1 + s.length := by
      rw [List.length_cons]
      omega
    rw [keepNew, hlen]
    split
    · rename_i hv
      have hlt : m < args.length := by
        by_contra hge
        exact hnew 0 v (by simp) (oldEntries_mono (by omega) hv)
      exact ih hlt htail
    · exact ih (by simpa using hm) htail

/-- A value that is listed while it is not kept never will be. -/
theorem keepNew_never (hv : v ∈ oldEntries nlist args.length) (hno : v ∉ args) :
    v ∉ keepNew nlist values args := by
  induction values generalizing args with
  | nil => simpa [keepNew] using hno
  | cons w rest ih =>
    rw [keepNew]
    split
    · exact ih hv hno
    · rename_i hw
      refine ih (oldEntries_mono (by simp) hv) fun hm => ?_
      rcases List.mem_append.mp hm with hm | hm
      · exact hno hm
      · rw [List.mem_singleton.mp hm] at hv
        exact hw hv

structure KeptDistinct (pre args : List Int) : Prop where
  nodup : args.Nodup
  mem : ∀ v, v ∈ args ↔ v ∈ pre

theorem KeptDistinct.length (h : KeptDistinct pre args) : args.length = pre.dedup.length := by
  have hperm : args.Perm pre.dedup :=
    (List.perm_ext_iff_of_nodup h.nodup (List.nodup_dedup pre)).mpr fun v => by
    rw [h.mem, List.mem_dedup]
  exact hperm.length_eq

theorem KeptDistinct.old (h : KeptDistinct pre args) (hv : v ∈ pre) :
    KeptDistinct (pre ++ [v]) args :=
  ⟨h.nodup, fun w => by
    rw [h.mem, List.mem_append, List.mem_singleton]
    exact ⟨.inl, fun hw => hw.elim id fun he => he ▸ hv⟩⟩

theorem KeptDistinct.new (h : KeptDistinct pre args) (hv : v ∉ pre) :
    KeptDistinct (pre ++ [v]) (args ++ [v]) := by
  refine ⟨?_, fun w => by rw [List.mem_append, List.mem_append, h.mem]⟩
  rw [List.nodup_append]
  refine ⟨h.nodup, List.nodup_singleton v, fun a ha b hb => ?_⟩
  rw [List.mem_singleton.mp hb]
  rintro rfl
  exact hv ((h.mem _).mp ha)

/-- The ways to split a list at an element: at its head, or in its tail. -/
theorem forall_split_cons {α : Type*} {P : List α → α → Prop} {v : α} {rest : List α} :
    (∀ mid w post, v :: rest = mid ++ w :: post → P mid w) ↔
      P [] v ∧ ∀ mid w post, rest = mid ++ w :: post → P (v :: mid) w := by
  constructor
  · intro hall
    exact ⟨hall [] v rest rfl, fun mid w post hrest => hall (v :: mid) w post (by simp [hrest])⟩
  · rintro ⟨hv, hrest⟩ mid w post heq
    cases mid with
    | nil =>
      obtain ⟨rfl, -⟩ : v = w ∧ rest = post := by simpa using heq
      exact hv
    | cons u mid =>
      obtain ⟨rfl, hr⟩ : v = u ∧ rest = mid ++ w :: post := by simpa using heq
      exact hrest mid w post hr

/-- The loop keeps the distinct values exactly if every decision it takes is right. -/
theorem keepNew_kept_iff (h : KeptDistinct pre args) :
    KeptDistinct (pre ++ values) (keepNew nlist values args) ↔
    ∀ mid v post, values = mid ++ v :: post →
      (v ∈ oldEntries nlist (pre ++ mid).dedup.length ↔ v ∈ pre ++ mid) := by
  induction values generalizing pre args with
  | nil => simpa [keepNew] using h
  | cons v rest ih =>
    rw [forall_split_cons
      (P := fun mid v => v ∈ oldEntries nlist (pre ++ mid).dedup.length ↔ v ∈ pre ++ mid),
      List.append_nil, ← h.length, keepNew]
    by_cases hold : v ∈ oldEntries nlist args.length
    · rw [if_pos hold]
      by_cases hv : v ∈ pre
      · have hrest := ih (h.old hv)
        simp only [List.append_assoc, List.singleton_append] at hrest
        rw [hrest]
        simp [hold, hv]
      · refine iff_of_false (fun hkept => ?_) fun hright => hv (hright.1.mp hold)
        exact keepNew_never hold (fun hm => hv ((h.mem v).mp hm)) ((hkept.mem v).mpr (by simp))
    · rw [if_neg hold]
      by_cases hv : v ∈ pre
      · refine iff_of_false (fun hkept => ?_) fun hright => hold (hright.1.mpr hv)
        have hnd := hkept.nodup.sublist (keepNew_starts nlist rest (args ++ [v])).sublist
        rw [List.nodup_append] at hnd
        exact hnd.2.2 v ((h.mem v).mpr hv) v (List.mem_singleton_self v) rfl
      · have hrest := ih (h.new hv)
        simp only [List.append_assoc, List.singleton_append] at hrest
        rw [hrest]
        simp [hold, hv]

end Keep

/-! ### The contract -/

section Contract

variable {arg : List Char} {nlen : Int} {nlist : Nat → Int} {low high : Int32} {args : List Int}

theorem qsort_cmpint (args : List Int) : (qsort args cmpint).Pairwise (· ≤ ·) ∧
    (qsort args cmpint).Perm args := by
  have hcmp : ∀ a b, cmpint a b ≤ 0 ↔ a ≤ b := by
    intro a b
    unfold cmpint
    split <;> omega
  have hsort : qsort args cmpint = args.insertionSort (· ≤ ·) := by
    unfold qsort
    congr 1
    funext a b
    exact propext (hcmp a b)
  rw [hsort]
  exact ⟨List.pairwise_insertionSort _ _, List.perm_insertionSort _ _⟩

theorem memcpyInts_get (nlist : Nat → Int) {l : List Int} {j : Nat} {v : Int} (h : l[j]? = some v) :
    memcpyInts nlist l j = v := by
  rw [memcpyInts, List.getD_eq_getElem?_getD, h]
  rfl

theorem kept_length (hlh : low.toInt ≤ high.toInt) (hnd : args.Nodup)
    (hb : ∀ v ∈ args, low.toInt ≤ v ∧ v ≤ high.toInt) :
    (args.length : Int) ≤ high.toInt - low.toInt + 1 := by
  have hsub : args.toFinset ⊆ Finset.Icc low.toInt high.toInt := fun v hv =>
    Finset.mem_Icc.mpr (hb v (List.mem_toFinset.mp hv))
  have hcard := Finset.card_le_card hsub
  rw [List.toFinset_card_of_nodup hnd, Int.card_Icc] at hcard
  omega

/-- The contract for a valid list says that the values kept are the distinct ones. -/
theorem sorted_iff_kept (nlist : Nat → Int) (args : List Int) (values : List Int) :
    (∃ l : List Int, l.Pairwise (· < ·) ∧ (∀ v, v ∈ l ↔ v ∈ values) ∧ args.length = l.length ∧
      ∀ j v, l[j]? = some v → memcpyInts nlist (qsort args cmpint) j = v) ↔
      KeptDistinct values args := by
  obtain ⟨hle, hperm⟩ := qsort_cmpint args
  constructor
  · rintro ⟨l, hlt, hmem, hlen, hget⟩
    have heq : l = qsort args cmpint := by
      refine List.ext_getElem (by rw [hperm.length_eq, hlen]) fun j h1 h2 => ?_
      have hj := hget j _ (List.getElem?_eq_getElem h1)
      rwa [memcpyInts_get nlist (List.getElem?_eq_getElem h2), eq_comm] at hj
    subst heq
    refine ⟨hperm.nodup_iff.mp (hlt.imp fun h => ne_of_lt h), fun v => ?_⟩
    rw [← hperm.mem_iff, hmem]
  · intro hkept
    have hnd : (qsort args cmpint).Nodup := hperm.nodup_iff.mpr hkept.nodup
    have hlt : (qsort args cmpint).Pairwise (· < ·) := (hle.and hnd).imp fun h =>
      lt_of_le_of_ne h.1 h.2
    refine ⟨qsort args cmpint, hlt, fun v => ?_, hperm.length_eq.symm,
      fun j v hj => memcpyInts_get nlist hj⟩
    rw [hperm.mem_iff, hkept.mem]

theorem parseIntList_done (nlen : Int) (h : ∀ t ∈ strtokTokens arg, acceptToken low high t ≠ none) :
    parseIntList arg nlen nlist low high =
      let args := keepNew nlist (acceptedValues low high (strtokTokens arg)) []
      { ret := if (args.length : Int) > 0 then 1 else 0
        nlen := args.length
        nlist := memcpyInts nlist (qsort args cmpint)
        stored := args.length } := by
  obtain ⟨hargs, hdone⟩ := scanTokens_eq nlist low high (strtokTokens arg) []
  simp only [parseIntList, hdone.mpr h, if_true, hargs]

theorem parseIntList_refused (nlen : Int)
    (h : ∃ t ∈ strtokTokens arg, acceptToken low high t = none) :
    parseIntList arg nlen nlist low high =
      { ret := 0, nlen := nlen, nlist := nlist
        stored := (keepNew nlist (acceptedValues low high (strtokTokens arg)) []).length } := by
  obtain ⟨hargs, hdone⟩ := scanTokens_eq nlist low high (strtokTokens arg) []
  have hno : ¬ (scanTokens nlist low high (strtokTokens arg) []).2 = true := by
    rw [hdone]
    push Not
    exact h
  simp only [parseIntList, hno, Bool.false_eq_true, if_false, hargs]

/-- For a valid list the values read are those it stands for. -/
theorem ValidList.values {tokens : List (List Char)} (h : ValidList tokens low high) :
    (∀ t ∈ tokens, acceptToken low high t ≠ none) ∧ acceptedValues low high tokens ≠ [] ∧
      ∀ v, v ∈ acceptedValues low high tokens ↔ ∃ t ∈ tokens, decimal t = some v := by
  have hall : ∀ t ∈ tokens, ∀ v, acceptToken low high t = some v ↔ decimal t = some v := by
    intro t ht v
    obtain ⟨w, hw, hl, hh⟩ := h.2 t ht
    rw [acceptToken_of_decimal hw hl hh, hw]
  have hok : ∀ t ∈ tokens, acceptToken low high t ≠ none := by
    intro t ht hnone
    obtain ⟨w, hw, -, -⟩ := h.2 t ht
    rw [(hall t ht w).mpr hw] at hnone
    cases hnone
  obtain ⟨hlen, hmem⟩ := acceptedValues_all hok
  refine ⟨hok, fun hnil => h.1 ?_, fun v => ?_⟩
  · rw [hnil] at hlen
    exact List.length_eq_zero_iff.mp hlen.symm
  · rw [hmem]
    exact exists_congr fun t => and_congr_right fun ht => hall t ht v

theorem keepNew_pos {values : List Int} (h : values ≠ []) :
    0 < (keepNew nlist values []).length := by
  cases values with
  | nil => exact absurd rfl h
  | cons v rest =>
    have hnew : v ∉ oldEntries nlist ([] : List Int).length := by simp [oldEntries]
    rw [keepNew, if_neg hnew]
    exact (keepNew_starts nlist rest [v]).length_le

theorem harmless_iff (nlist : Nat → Int) (values : List Int) :
    KeptDistinct values (keepNew nlist values []) ↔ Harmless nlist values := by
  have hkept : KeptDistinct [] [] := ⟨List.nodup_nil, fun _ => .rfl⟩
  have hiff := @keepNew_kept_iff nlist values [] [] hkept
  simpa only [List.nil_append, Harmless] using hiff

theorem unlisted_iff (nlist : Nat → Int) (values : List Int) (n : Int) :
    ((keepNew nlist values []).length : Int) ≤ n ↔
      ∀ s, s.Sublist values → Unlisted nlist s → (s.length : Int) ≤ n := by
  constructor
  · intro h s hs hnew
    have hlong : 0 + s.length ≤ (keepNew nlist values []).length :=
      keepNew_longest hs (Nat.zero_le _) fun j v hj => by
        rw [Nat.zero_add]
        exact hnew j v hj
    omega
  · intro h
    obtain ⟨s, hs, hkeep, hnew⟩ := keepNew_sublist nlist values []
    rw [hkeep]
    refine h s hs fun j v hj => ?_
    have hv := hnew j v hj
    rwa [List.length_nil, Nat.zero_add] at hv

theorem parseIntList_valid (nlen : Int) (h : ValidList (strtokTokens arg) low high) :
    ((parseIntList arg nlen nlist low high).ret = 1 ∧ ∃ l : List Int, l.Pairwise (· < ·) ∧
      (∀ v, v ∈ l ↔ ∃ t ∈ strtokTokens arg, decimal t = some v) ∧
      (parseIntList arg nlen nlist low high).nlen = l.length ∧
      ∀ j v, l[j]? = some v → (parseIntList arg nlen nlist low high).nlist j = v) ↔
    Harmless nlist (acceptedValues low high (strtokTokens arg)) := by
  obtain ⟨hok, hne, hmem⟩ := h.values
  have hpos := @keepNew_pos nlist _ hne
  rw [parseIntList_done nlen hok, ← harmless_iff, ← sorted_iff_kept nlist]
  simp only [hmem, Nat.cast_inj]
  rw [if_pos (by omega)]
  exact and_iff_right rfl

end Contract

/-- `parse_int_list` keeps its contract exactly when what `nlist` held before does no harm. -/
theorem parse_int_list_exact (arg : List Char) (nlen : Int) (nlist : Nat → Int) (low high : Int32)
    (hlh : low.toInt ≤ high.toInt) :
    IntListContract arg nlen nlist low high ↔ ListHarmless arg nlen nlist low high := by
  constructor
  · intro h
    refine ⟨h.fits, fun hnil => ?_, fun hv => (parseIntList_valid nlen hv).mp (h.valid hv),
      fun hne hno => ?_⟩
    · have hnlen := (h.invalid fun hv => hv.1 hnil).2.1
      rw [parseIntList_done nlen (by simp [hnil]), hnil] at hnlen
      exact hnlen.symm
    · have hrefused : ∃ t ∈ strtokTokens arg, acceptToken low high t = none := by
        by_contra hall
        push Not at hall
        have hvalues : acceptedValues low high (strtokTokens arg) ≠ [] := fun hnil => by
          have hlen := (acceptedValues_all hall).1
          rw [hnil] at hlen
          exact hne (List.length_eq_zero_iff.mp hlen.symm)
        have hpos := @keepNew_pos nlist _ hvalues
        have hret := (h.invalid hno).1
        rw [parseIntList_done nlen hall] at hret
        simp only at hret
        rw [if_pos (by omega)] at hret
        exact absurd hret (by decide)
      have hbounds := h.bounds
      rw [parseIntList_refused nlen hrefused] at hbounds
      exact ⟨hrefused, (unlisted_iff nlist _ _).mp hbounds⟩
  · intro h
    have hcases : strtokTokens arg = [] ∨ ValidList (strtokTokens arg) low high ∨
        (strtokTokens arg ≠ [] ∧ ¬ ValidList (strtokTokens arg) low high) := by tauto
    refine ⟨h.fits, ?_, fun hv => (parseIntList_valid nlen hv).mpr (h.valid hv), fun hno => ?_⟩
    · rcases hcases with hnil | hv | ⟨hne, hno⟩
      · rw [parseIntList_done nlen (by simp [hnil]), hnil]
        simp only [acceptedValues, keepNew, List.length_nil]
        omega
      · obtain ⟨hok, -, hmem⟩ := hv.values
        have hkept := (harmless_iff nlist _).mpr (h.valid hv)
        rw [parseIntList_done nlen hok]
        refine kept_length hlh hkept.nodup fun v hm => ?_
        obtain ⟨t, ht, htv⟩ := (hmem v).mp ((hkept.mem v).mp hm)
        obtain ⟨w, hw, hl, hh⟩ := hv.2 t ht
        obtain rfl : w = v := Option.some.inj (hw.symm.trans htv)
        exact ⟨hl, hh⟩
      · obtain ⟨hrefused, hroom⟩ := h.refused hne hno
        rw [parseIntList_refused nlen hrefused]
        exact (unlisted_iff nlist _ _).mpr hroom
    · by_cases hnil : strtokTokens arg = []
      · rw [parseIntList_done nlen (by simp [hnil]), hnil, h.empty hnil]
        exact ⟨rfl, rfl, funext fun j => rfl⟩
      · rw [parseIntList_refused nlen (h.refused hnil hno).1]
        exact ⟨rfl, rfl, rfl⟩

/-- What a program that has just started has in its list of cores. -/
def defaultList (j : Nat) : Int := if j = 0 then 1 else 0

/-- The option `-c 2,1`, with the default list of cores. -/
theorem parse_int_list_stale : ¬ IntListContract ['2', ',', '1'] 1 defaultList 1 32 := by
  intro h
  have htokens : strtokTokens ['2', ',', '1'] = [['2'], ['1']] := by decide
  have htwo : decimal ['2'] = some 2 := by decide
  have hone : decimal ['1'] = some 1 := by decide
  have hvalid : ValidList (strtokTokens ['2', ',', '1']) 1 32 := by
    rw [htokens]
    refine ⟨by simp, fun t ht => ?_⟩
    rcases List.mem_pair.mp ht with rfl | rfl
    · exact ⟨2, htwo, by decide, by decide⟩
    · exact ⟨1, hone, by decide, by decide⟩
  obtain ⟨-, l, -, hmem, hlen, -⟩ := h.valid hvalid
  have hnlen : (parseIntList ['2', ',', '1'] 1 defaultList 1 32).nlen = 1 := by decide
  have h2 : (2 : Int) ∈ l := (hmem 2).mpr ⟨['2'], by simp [htokens], htwo⟩
  have h1 : (1 : Int) ∈ l := (hmem 1).mpr ⟨['1'], by simp [htokens], hone⟩
  obtain ⟨v, rfl⟩ := List.length_eq_one_iff.mp (show l.length = 1 by omega)
  have heq := (List.mem_singleton.mp h2).trans (List.mem_singleton.mp h1).symm
  exact absurd heq (by decide)

/-- The option `-c 1,2,1`: the old list has a 1 too, so the second 1 is taken for what it is. -/
theorem parse_int_list_exact_repeated :
    IntListContract ['1', ',', '2', ',', '1'] 1 defaultList 1 32 := by
  have htokens : strtokTokens ['1', ',', '2', ',', '1'] = [['1'], ['2'], ['1']] := by decide
  have hone : decimal ['1'] = some 1 := by decide
  have htwo : decimal ['2'] = some 2 := by decide
  have hvalues : acceptedValues 1 32 [['1'], ['2'], ['1']] = [1, 2, 1] := by decide
  refine (parse_int_list_exact ['1', ',', '2', ',', '1'] 1 defaultList 1 32 (by decide)).mpr
    ⟨by decide, ?_, ?_, ?_⟩ <;> rw [htokens]
  · intro hnil
    cases hnil
  · intro _ pre v post heq
    rw [hvalues] at heq
    -- the places where the list can be cut
    rcases pre with _ | ⟨a, _ | ⟨b, _ | ⟨c, pre⟩⟩⟩
    · obtain ⟨rfl, -⟩ : 1 = v ∧ _ := by simpa using heq
      decide
    · obtain ⟨rfl, rfl, -⟩ : 1 = a ∧ 2 = v ∧ _ := by simpa using heq
      decide
    · obtain ⟨rfl, rfl, rfl, -⟩ : 1 = a ∧ 2 = b ∧ 1 = v ∧ _ := by simpa using heq
      decide
    · simp at heq
  · refine fun _ hno => absurd ⟨by simp, fun t ht => ?_⟩ hno
    simp only [List.mem_cons, List.not_mem_nil, or_false] at ht
    rcases ht with rfl | rfl | rfl
    · exact ⟨1, hone, by decide, by decide⟩
    · exact ⟨2, htwo, by decide, by decide⟩
    · exact ⟨1, hone, by decide, by decide⟩

end TinyOS
