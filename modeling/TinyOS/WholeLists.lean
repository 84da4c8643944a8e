import TinyOS.RlistOps

/-! The list operations of `util.h` that walk a whole ring, and all of them as operations on
functional lists. The loops have fuel; the results say how much is enough. -/

namespace TinyOS

open Ring

variable {K N : Type*} [DecidableEq N]

/-- `rlnode_swap(&p->prev, &p->next)`. -/
def rlnodeTurn (h : Heap K N) (p : N) : Heap K N :=
  let temp := h.load p .prev
  let h := h.store p .prev (h.load p .next)
  h.store p .next temp

/-- The loop of `rlist_reverse`, whose condition comes last. -/
def rlistReverseFrom (l : N) : Nat → Heap K N → N → Option (Heap K N)
  | 0, _, _ => none
  | fuel + 1, h, p =>
    let h := rlnodeTurn h p
    let p := (h p).next
    if p ≠ l then rlistReverseFrom l fuel h p else some h

def rlistReverse (fuel : Nat) (h : Heap K N) (l : N) : Option (Heap K N) :=
  rlistReverseFrom l fuel h l

/-- `count` is an `unsigned int`. -/
def rlistLenFrom (h : Heap K N) (list : N) : Nat → N → Nat → Option Nat
  | 0, _, _ => none
  | fuel + 1, p, count =>
    if p ≠ list then rlistLenFrom h list fuel (h p).next ((count + 1) % 2 ^ 32) else some count

def rlistLen (fuel : Nat) (h : Heap K N) (list : N) : Option Nat :=
  rlistLenFrom h list fuel (h list).next 0

section Keys

variable [DecidableEq K]

def rlistEqualFrom (h : Heap K N) (l1 l2 : N) : Nat → N → N → Option Bool
  | 0, _, _ => none
  | fuel + 1, i1, i2 =>
    if i1 ≠ l1 then
      if i2 = l2 ∨ (h i1).obj ≠ (h i2).obj then some false
      else rlistEqualFrom h l1 l2 fuel (h i1).next (h i2).next
    else some (i2 = l2)

def rlistEqual (fuel : Nat) (h : Heap K N) (l1 l2 : N) : Option Bool :=
  rlistEqualFrom h l1 l2 fuel (h l1).next (h l2).next

/-- `rlist_find` with any `fail`, which may be `NULL`. -/
def rlistFindOrFrom (h : Heap K N) (list : N) (key : K) (fail : Option N) :
    Nat → N → Option (Option N)
  | 0, _ => none
  | fuel + 1, i =>
    if i ≠ list then
      if (h i).obj = key then some (some i) else rlistFindOrFrom h list key fail fuel (h i).next
    else some fail

def rlistFindOr (fuel : Nat) (h : Heap K N) (list : N) (key : K) (fail : Option N) :
    Option (Option N) := rlistFindOrFrom h list key fail fuel (h list).next

end Keys

variable {h h' : Heap K N} {a b d s : N} {l m xs ys : List N} {fuel : Nat}

/-! ### The walks -/

theorem rlistLenFrom_eq (hw : Walk h.succ a l b) (hb : b ∉ l) (hf : l.length < fuel) (count : Nat) :
    rlistLenFrom h b fuel (h a).next (count % 2 ^ 32) = some ((count + l.length) % 2 ^ 32) := by
  induction fuel generalizing a l count with
  | zero => omega
  | succ fuel ih =>
    cases l with
    | nil =>
      have hab : (h a).next = b := hw
      simp [rlistLenFrom, hab]
    | cons x l =>
      have hax : (h a).next = x := hw.1
      have hxb : x ≠ b := fun he => hb (he ▸ List.mem_cons_self)
      have hrest := ih hw.2 (fun hm => hb (List.mem_cons_of_mem _ hm))
        (by simpa using hf) (count + 1)
      rw [rlistLenFrom, hax, if_pos hxb, Nat.mod_add_mod, hrest, List.length_cons]
      congr 2
      omega

theorem rlistLen_eq (hr : h.IsRing a xs) (hf : xs.length < fuel) (hlt : xs.length < 2 ^ 32) :
    rlistLen fuel h a = some xs.length := by
  have hlen := rlistLenFrom_eq hr.walk (List.nodup_cons.mp hr.nodup).1 hf 0
  rwa [Nat.zero_mod, Nat.zero_add, Nat.mod_eq_of_lt hlt] at hlen

def Heap.keys (h : Heap K N) (l : List N) : List K := l.map fun n => (h n).obj

section Keys

variable [DecidableEq K]

theorem rlistFindOrFrom_eq {key : K} {fail : Option N} (hw : Walk h.succ a l b)
    (hb : b ∉ l) (hf : l.length < fuel) :
    rlistFindOrFrom h b key fail fuel (h a).next =
    some ((l.find? fun n => (h n).obj = key).or fail) := by
  induction fuel generalizing a l with
  | zero => omega
  | succ fuel ih =>
    cases l with
    | nil =>
      have hab : (h a).next = b := hw
      simp [rlistFindOrFrom, hab]
    | cons x l =>
      have hax : (h a).next = x := hw.1
      have hxb : x ≠ b := fun he => hb (he ▸ List.mem_cons_self)
      have hrest := ih hw.2 (fun hm => hb (List.mem_cons_of_mem _ hm)) (by simpa using hf)
      rw [rlistFindOrFrom, hax, if_pos hxb]
      by_cases hk : (h x).obj = key
      · simp [hk]
      · rw [if_neg hk, hrest, List.find?_cons_of_neg (by simpa using hk)]

theorem rlistEqualFrom_eq {c e : N} (hw : Walk h.succ a l b) (hb : b ∉ l)
    (hw' : Walk h.succ c m e) (he : e ∉ m)
    (hf : l.length < fuel) : rlistEqualFrom h b e fuel (h a).next (h c).next =
      some (decide (h.keys l = h.keys m)) := by
  induction fuel generalizing a c l m with
  | zero => omega
  | succ fuel ih =>
    cases l with
    | nil =>
      have hab : (h a).next = b := hw
      cases m with
      | nil =>
        have hce : (h c).next = e := hw'
        simp [rlistEqualFrom, hab, hce, Heap.keys]
      | cons y m =>
        have hcy : (h c).next = y := hw'.1
        have hye : y ≠ e := fun hy => he (hy ▸ List.mem_cons_self)
        simp [rlistEqualFrom, hab, hcy, hye, Heap.keys]
    | cons x l =>
      have hax : (h a).next = x := hw.1
      have hxb : x ≠ b := fun hx => hb (hx ▸ List.mem_cons_self)
      cases m with
      | nil =>
        have hce : (h c).next = e := hw'
        simp [rlistEqualFrom, hax, hxb, hce, Heap.keys]
      | cons y m =>
        have hcy : (h c).next = y := hw'.1
        have hye : y ≠ e := fun hy => he (hy ▸ List.mem_cons_self)
        rw [rlistEqualFrom, hax, hcy, if_pos hxb]
        by_cases hk : (h x).obj = (h y).obj
        · rw [if_neg (by simp [hye, hk]), ih hw.2 (fun hm => hb (List.mem_cons_of_mem _ hm)) hw'.2
            (fun hm => he (List.mem_cons_of_mem _ hm)) (by simpa using hf)]
          refine congrArg some (decide_eq_decide.mpr ?_)
          simp [Heap.keys, hk]
        · simp [Heap.keys, hk]

end Keys

/-! ### Reversal -/

def Rlnode.turn (x : Rlnode K N) : Rlnode K N := { x with prev := x.next, next := x.prev }

def Heap.turned (h : Heap K N) (s : List N) : Heap K N := fun n => if n ∈ s then (h n).turn else h n

theorem rlnodeTurn_eq (h : Heap K N) (p : N) : rlnodeTurn h p = h.turned [p] := by
  funext n
  by_cases hn : n = p
  · subst hn
    simp [rlnodeTurn, Heap.turned, Rlnode.turn, Heap.load, Heap.store]
  · simp [rlnodeTurn, Heap.turned, Heap.load, Heap.store, hn]

theorem rlistReverseFrom_eq (hw : Walk (fun n => (h n).prev) a l b) (hnd : (a :: l).Nodup)
    (hb : b ∉ l)
    (hf : l.length < fuel) : rlistReverseFrom b fuel h a = some (h.turned (a :: l)) := by
  induction fuel generalizing h a l with
  | zero => omega
  | succ fuel ih =>
    have hnext : (rlnodeTurn h a a).next = (h a).prev := by
      rw [rlnodeTurn_eq]
      simp [Heap.turned, Rlnode.turn]
    cases l with
    | nil =>
      have hab : (h a).prev = b := hw
      rw [rlistReverseFrom, hnext, hab, if_neg (by simp), rlnodeTurn_eq]
    | cons x l =>
      have hax : (h a).prev = x := hw.1
      have hxb : x ≠ b := fun hx => hb (hx ▸ List.mem_cons_self)
      have hout := (List.nodup_cons.mp hnd).1
      have hne : ∀ n ∈ x :: l, n ≠ a := fun n hn he => hout (he ▸ hn)
      have hrest : Walk (fun n => (rlnodeTurn h a n).prev) x l b := by
        refine hw.2.congr fun n hn => ?_
        rw [rlnodeTurn_eq]
        simp [Heap.turned, hne n hn]
      rw [rlistReverseFrom, hnext, hax, if_pos hxb,
        ih hrest (List.nodup_cons.mp hnd).2 (fun hm => hb (List.mem_cons_of_mem _ hm))
          (by simpa using hf)]
      congr 1
      funext n
      rw [rlnodeTurn_eq]
      by_cases hn : n = a
      · subst hn
        simp only [Heap.turned, hout, if_false, List.mem_cons_self, if_true]
      · simp [Heap.turned, hn]

omit [DecidableEq N] in
/-- The predecessors lead the other way round. -/
theorem walk_reverse (hwf : h.WellFormed) (hw : Walk h.succ a l b) :
    Walk (fun n => (h n).prev) b l.reverse a := by
  induction l generalizing a with
  | nil => exact hwf.prev_eq hw
  | cons x l ih =>
    rw [List.reverse_cons, walk_append_cons]
    exact ⟨ih hw.2, hwf.prev_eq hw.1⟩

theorem rlistReverse_eq (hw : h.WellFormed) (hr : h.IsRing a xs) (hf : xs.length < fuel) :
    rlistReverse fuel h a = some (h.turned (a :: xs)) := by
  have hnd := List.nodup_cons.mp hr.nodup
  have hback := rlistReverseFrom_eq (walk_reverse hw hr.walk)
    (List.nodup_cons.mpr ⟨by simpa using hnd.1, List.nodup_reverse.mpr hnd.2⟩)
    (by simpa using hnd.1) (by simpa using hf)
  rw [rlistReverse, hback]
  congr 1
  funext n
  simp [Heap.turned]

theorem turned_wellFormed (hw : h.WellFormed) (hr : h.IsRing a xs) :
    (h.turned (a :: xs)).WellFormed := by
  have hnext : ∀ n, (h n).next ∈ a :: xs ↔ n ∈ a :: xs := by
    intro n
    constructor
    · intro hm
      have hprev := hr.prev_mem hw hm
      rwa [hw.prev_next] at hprev
    · exact closed_of_walk hr.walk n
  have hprev : ∀ n, (h n).prev ∈ a :: xs ↔ n ∈ a :: xs := by
    intro n
    rw [← hnext, hw.next_prev]
  constructor
  · intro n
    by_cases hn : n ∈ a :: xs
    · have hm := (hprev n).mpr hn
      simp only [Heap.turned, if_pos hn, Rlnode.turn, if_pos hm, hw.next_prev]
    · have hm := fun hm => hn ((hnext n).mp hm)
      simp only [Heap.turned, if_neg hn, if_neg hm, hw.prev_next]
  · intro n
    by_cases hn : n ∈ a :: xs
    · have hm := (hnext n).mpr hn
      simp only [Heap.turned, if_pos hn, Rlnode.turn, if_pos hm, hw.prev_next]
    · have hm := fun hm => hn ((hprev n).mp hm)
      simp only [Heap.turned, if_neg hn, if_neg hm, hw.next_prev]

theorem turned_ring (hw : h.WellFormed) (hr : h.IsRing a xs) :
    (h.turned (a :: xs)).IsRing a xs.reverse := by
  have hnd := List.nodup_cons.mp hr.nodup
  refine ⟨List.nodup_cons.mpr ⟨by simpa using hnd.1, List.nodup_reverse.mpr hnd.2⟩, ?_⟩
  refine (walk_reverse hw hr.walk).congr fun n hn => ?_
  have hm : n ∈ a :: xs := by simpa using hn
  simp only [Heap.succ, Heap.turned, if_pos hm, Rlnode.turn]

theorem turned_untouched (hw : h.WellFormed) (hr : h.IsRing a xs) :
    h.Untouched (h.turned (a :: xs)) [a] where
  wellFormed := turned_wellFormed hw hr
  obj n := by
    unfold Heap.turned
    split <;> rfl
  rings c l hc hs := by
    have hdis := hr.disjoint hc fun hm => hs a (by simp) ?_
    · refine ⟨hc.nodup, hc.walk.congr fun n hn => ?_⟩
      have hout : n ∉ a :: xs := fun hm => List.disjoint_left.mp hdis hm hn
      simp only [Heap.succ, Heap.turned, if_neg hout]
    · exact end_mem_of_closed (S := fun n => n ∈ c :: l)
        (closed_of_walk hc.walk) hr.walk hm List.mem_cons_self

/-! ### All the operations -/

theorem rlistAppend_ring (hw : h.WellFormed) (hd : h.IsRing d xs) (hs : h.IsRing s ys)
    (hne : s ∉ d :: xs) :
    (rlistAppend h d s).IsRing d (xs ++ ys) ∧ (rlistAppend h d s).IsRing s [] := by
  have hwf := (rlistPushBack_untouched hw d s).wellFormed
  have hback := rlistPushBack_ring hw hd hs hne
  constructor
  · have hring : (rlistAppend h d s).IsRing d ((xs ++ ys) ++ []) := rlistRemove_ring hwf hback
    rwa [List.append_nil] at hring
  · exact rlistRemove_self hwf hback.rotate

theorem rlistPrepend_ring (hw : h.WellFormed) (hd : h.IsRing d xs) (hs : h.IsRing s ys)
    (hne : s ∉ d :: xs) :
    (rlistPrepend h d s).IsRing d (ys ++ xs) ∧ (rlistPrepend h d s).IsRing s [] := by
  have hwf := (rlistPushFront_untouched hw d s).wellFormed
  have hfront := rlistPushFront_ring hd hs hne
  exact ⟨rlistRemove_ring hwf hfront, rlistRemove_self hwf hfront.rotate⟩

omit [DecidableEq N] in
theorem Heap.Untouched.trans {h'' : Heap K N} (hu : h.Untouched h' [d, s])
    (hu' : h'.Untouched h'' [s]) :
    h.Untouched h'' [d, s] where
  wellFormed := hu'.wellFormed
  obj n := (hu'.obj n).trans (hu.obj n)
  rings c l hr hs := hu'.rings c l (hu.rings c l hr hs) (by simpa using hs s (by simp))

omit [DecidableEq N] in
theorem Heap.IsRing.length_lt [Fintype N] (hr : h.IsRing a xs) : xs.length < Fintype.card N :=
  hr.nodup.length_le_card

/-- What the operations of `util.h` do in a heap, by the lists that hang on its nodes. -/
structure WholeLists [DecidableEq K] (h : Heap K N) : Prop where
  lists : ∀ a, ∃! xs, h.IsRing a xs
  pushFront : ∀ a b xs ys, h.IsRing a xs → h.IsRing b ys → b ∉ a :: xs →
    (rlistPushFront h a b).IsRing a ((ys ++ [b]) ++ xs) ∧ h.Untouched (rlistPushFront h a b) [a, b]
  pushBack : ∀ a b xs ys, h.IsRing a xs → h.IsRing b ys → b ∉ a :: xs →
    (rlistPushBack h a b).IsRing a (xs ++ (ys ++ [b])) ∧ h.Untouched (rlistPushBack h a b) [a, b]
  remove : ∀ b, (rlistRemove h b).IsRing b [] ∧ h.Untouched (rlistRemove h b) [b] ∧
    ∀ a xs ys, h.IsRing a (xs ++ b :: ys) → (rlistRemove h b).IsRing a (xs ++ ys)
  append : ∀ d s xs ys, h.IsRing d xs → h.IsRing s ys → s ∉ d :: xs →
    (rlistAppend h d s).IsRing d (xs ++ ys) ∧ (rlistAppend h d s).IsRing s [] ∧
    h.Untouched (rlistAppend h d s) [d, s]
  prepend : ∀ d s xs ys, h.IsRing d xs → h.IsRing s ys → s ∉ d :: xs →
    (rlistPrepend h d s).IsRing d (ys ++ xs) ∧ (rlistPrepend h d s).IsRing s [] ∧
    h.Untouched (rlistPrepend h d s) [d, s]
  reverse : ∀ a xs fuel, h.IsRing a xs → xs.length < fuel →
    ∃ h', rlistReverse fuel h a = some h' ∧ h'.IsRing a xs.reverse ∧ h.Untouched h' [a]
  len : ∀ a xs fuel, h.IsRing a xs → xs.length < fuel → rlistLen fuel h a = some xs.length
  find : ∀ a xs fuel key fail, h.IsRing a xs → xs.length < fuel →
    rlistFindOr fuel h a key fail = some ((xs.find? fun n => (h n).obj = key).or fail)
  equal : ∀ a b xs ys fuel, h.IsRing a xs → h.IsRing b ys → xs.length < fuel →
    rlistEqual fuel h a b = some (decide (h.keys xs = h.keys ys))

/-- In a heap of fewer than 2^32 nodes the operations on whole lists are those on functional
lists. -/
theorem whole_lists_functional [DecidableEq K] [Fintype N] (hw : h.WellFormed)
    (hcard : Fintype.card N < 2 ^ 32) :
    WholeLists h where
  lists a := by
    obtain ⟨xs, hx⟩ := hw.exists_ring a
    exact ⟨xs, hx, fun ys hy => hy.unique hx⟩
  pushFront a b xs ys hx hy hb := by
    have hring := rlistPushFront_ring hx hy hb
    exact ⟨by simpa using hring, rlistPushFront_untouched hw a b⟩
  pushBack a b xs ys hx hy hb := by
    have hring := rlistPushBack_ring hw hx hy hb
    exact ⟨by simpa using hring, rlistPushBack_untouched hw a b⟩
  remove b := by
    obtain ⟨ys, hy⟩ := hw.exists_ring b
    exact ⟨rlistRemove_self hw hy, rlistRemove_untouched hw b,
      fun a xs zs hr => rlistRemove_ring hw hr⟩
  append d s xs ys hd hs hne := by
    obtain ⟨hring, hempty⟩ := rlistAppend_ring hw hd hs hne
    have hu := rlistPushBack_untouched hw d s
    exact ⟨hring, hempty, hu.trans (rlistRemove_untouched hu.wellFormed s)⟩
  prepend d s xs ys hd hs hne := by
    obtain ⟨hring, hempty⟩ := rlistPrepend_ring hw hd hs hne
    have hu := rlistPushFront_untouched hw d s
    exact ⟨hring, hempty, hu.trans (rlistRemove_untouched hu.wellFormed s)⟩
  reverse a xs fuel hr hf :=
    ⟨_, rlistReverse_eq hw hr hf, turned_ring hw hr, turned_untouched hw hr⟩
  len a xs fuel hr hf := rlistLen_eq hr hf (hr.length_lt.trans hcard)
  find a xs fuel key fail hr hf := rlistFindOrFrom_eq hr.walk (List.nodup_cons.mp hr.nodup).1 hf
  equal a b xs ys fuel hx hy hf :=
    rlistEqualFrom_eq hx.walk (List.nodup_cons.mp hx.nodup).1 hy.walk
      (List.nodup_cons.mp hy.nodup).1 hf

theorem whole_lists_functional_three : WholeLists threeRing :=
  whole_lists_functional ⟨by decide, by decide⟩ (by simp)

end TinyOS
