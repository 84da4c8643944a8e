import TinyOS.Lib.Lists

/-! The intrusive circular lists of `util.h`: nodes, splicing, and the list
operations built on it. -/

namespace TinyOS

open Ring

/-- A node of type `rlnode`; `obj` is its key. -/
structure Rlnode (K N : Type*) where
  obj : K
  prev : N
  next : N

abbrev Heap (K N : Type*) := N → Rlnode K N

inductive Link
  | prev
  | next
deriving DecidableEq

variable {K N : Type*}

def Heap.succ (h : Heap K N) (n : N) : N := (h n).next

/-- `p->next->prev == p->prev->next == p`. -/
structure Heap.WellFormed (h : Heap K N) : Prop where
  prev_next : ∀ n, (h (h n).next).prev = n
  next_prev : ∀ n, (h (h n).prev).next = n

def Heap.load (h : Heap K N) (n : N) : Link → N
  | .prev => (h n).prev
  | .next => (h n).next

variable [DecidableEq N]

def Heap.store (h : Heap K N) (n : N) : Link → N → Heap K N
  | .prev, v => Function.update h n { h n with prev := v }
  | .next, v => Function.update h n { h n with next := v }

def rlnodeNew (h : Heap K N) (p : N) : Heap K N :=
  Function.update h p { h p with prev := p, next := p }

def rlnodeInit (h : Heap K N) (p : N) (ptr : K) : Heap K N :=
  Function.update h p { obj := ptr, prev := p, next := p }

/-- Swap the same link of two nodes. -/
def rlnodeSwap (h : Heap K N) (p q : N) (k : Link) : Heap K N :=
  let temp := h.load p k
  let h := h.store p k (h.load q k)
  h.store q k temp

/-- The source returns `b`; so do the callers that use the value. -/
def rlSplice (h : Heap K N) (a b : N) : Heap K N :=
  let h := rlnodeSwap h (h a).next (h b).next .prev
  rlnodeSwap h a b .next

def rlistRemove (h : Heap K N) (a : N) : Heap K N := rlSplice h a (h a).prev

def isRlistEmpty (h : Heap K N) (a : N) : Bool := a == (h a).next

def rlistPushFront (h : Heap K N) (list node : N) : Heap K N := rlSplice h list node

def rlistPushBack (h : Heap K N) (list node : N) : Heap K N := rlSplice h (h list).prev node

def rlistPopFront (h : Heap K N) (list : N) : Heap K N × N :=
  (rlSplice h list (h list).next, (h list).next)

def rlistAppend (h : Heap K N) (ldest lsrc : N) : Heap K N :=
  rlistRemove (rlistPushBack h ldest lsrc) lsrc

@[simp] theorem Heap.store_obj (h : Heap K N) (n v x : N) (k : Link) :
    (h.store n k v x).obj = (h x).obj := by
  cases k <;> by_cases hx : x = n <;> simp [Heap.store, hx]

@[simp] theorem Heap.load_store (h : Heap K N) (n v x : N) (k : Link) :
    (h.store n k v).load x k = if x = n then v else h.load x k := by
  cases k <;> by_cases hx : x = n <;> simp [Heap.store, Heap.load, hx]

@[simp] theorem Heap.load_store_of_ne (h : Heap K N) (n v x : N) {j k : Link} (hjk : j ≠ k) :
    (h.store n k v).load x j = h.load x j := by
  cases j <;> cases k <;> by_cases hx : x = n <;> simp_all [Heap.store, Heap.load]

theorem load_rlnodeSwap (h : Heap K N) (p q x : N) (k : Link) :
    (rlnodeSwap h p q k).load x k = h.load (Equiv.swap p q x) k := by
  simp only [rlnodeSwap, Heap.load_store, Equiv.swap_apply_def]
  by_cases hp : x = p
  · subst hp
    by_cases hq : x = q
    · subst hq
      simp
    · simp [hq]
  · by_cases hq : x = q
    · subst hq
      simp [hp]
    · simp [hp, hq]

theorem load_rlnodeSwap_of_ne (h : Heap K N) (p q x : N) {j k : Link} (hjk : j ≠ k) :
    (rlnodeSwap h p q k).load x j = h.load x j := by
  simp [rlnodeSwap, hjk]

theorem rlSplice_obj (h : Heap K N) (a b n : N) : (rlSplice h a b n).obj = (h n).obj := by
  simp [rlSplice, rlnodeSwap]

@[simp] theorem rlistRemove_obj (h : Heap K N) (a n : N) : (rlistRemove h a n).obj = (h n).obj :=
  rlSplice_obj h _ _ n

@[simp] theorem rlistPushFront_obj (h : Heap K N) (list a n : N) :
    (rlistPushFront h list a n).obj = (h n).obj :=
  rlSplice_obj h _ _ n

@[simp] theorem rlistPushBack_obj (h : Heap K N) (list a n : N) :
    (rlistPushBack h list a n).obj = (h n).obj :=
  rlSplice_obj h _ _ n

@[simp] theorem rlistPopFront_obj (h : Heap K N) (list n : N) :
    ((rlistPopFront h list).1 n).obj = (h n).obj :=
  rlSplice_obj h _ _ n

@[simp] theorem rlistAppend_obj (h : Heap K N) (a b n : N) :
    (rlistAppend h a b n).obj = (h n).obj := by
  simp [rlistAppend]

theorem succ_rlSplice (h : Heap K N) (a b : N) :
    (rlSplice h a b).succ = swapSucc h.succ a b := by
  funext n
  have hswap := load_rlnodeSwap (rlnodeSwap h (h a).next (h b).next .prev) a b n .next
  rw [load_rlnodeSwap_of_ne h _ _ _ (by decide)] at hswap
  exact hswap

theorem rlSplice_prev (h : Heap K N) (a b n : N) :
    (rlSplice h a b n).prev = (h (Equiv.swap (h a).next (h b).next n)).prev := by
  have hswap := load_rlnodeSwap_of_ne (rlnodeSwap h (h a).next (h b).next .prev) a b n
    (show Link.prev ≠ Link.next by decide)
  rw [load_rlnodeSwap] at hswap
  exact hswap

omit [DecidableEq N] in
theorem Heap.WellFormed.succ_injective {h : Heap K N} (hw : h.WellFormed) :
    Function.Injective h.succ :=
  fun a b hab => by
    rw [← hw.prev_next a, ← hw.prev_next b]; exact congrArg (fun n => (h n).prev) hab

omit [DecidableEq N] in
theorem Heap.WellFormed.prev_eq {h : Heap K N} (hw : h.WellFormed) {a b : N} (hab : h.succ a = b) :
    (h b).prev = a := by
  rw [← hab]
  exact hw.prev_next a

theorem Heap.WellFormed.rlSplice {h : Heap K N} (hw : h.WellFormed) (a b : N) :
    (rlSplice h a b).WellFormed := by
  have hinj := hw.succ_injective
  have hnext : ∀ n, (TinyOS.rlSplice h a b n).next = (h (Equiv.swap a b n)).next :=
    fun n => congrFun (succ_rlSplice h a b) n
  have hcomm : ∀ n, Equiv.swap (h a).next (h b).next (h n).next = (h (Equiv.swap a b n)).next :=
    fun n => hinj.swap_apply a b n
  refine ⟨fun n => ?_, fun n => ?_⟩
  · rw [rlSplice_prev, hnext, ← hcomm, Equiv.swap_apply_self, hw.prev_next]
  · rw [hnext, rlSplice_prev, ← hcomm, hw.next_prev, Equiv.swap_apply_self]

end TinyOS
