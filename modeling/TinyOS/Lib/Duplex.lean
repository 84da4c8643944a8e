import Mathlib.Data.List.Basic
import Mathlib.Logic.Function.Basic

/-! The abstract two-way channel: two ends, a stream of entries from each to the other, and
ends that can be shut for reading or for writing. -/

namespace Duplex

inductive End
  | left
  | right
deriving DecidableEq

def End.other : End → End
  | .left => .right
  | .right => .left

variable {α : Type*}

inductive Call (α : Type*)
  | write (s : End) (batch : List α)
  | read (s : End) (n : Nat)
  | shut (s : End) (reading writing : Bool)

/-- The value of a call and the entries it delivers. -/
structure Outcome (α : Type*) where
  val : Int
  entries : List α

/-- The entries under way to each end, and the ends that are shut. -/
structure State (α : Type*) where
  buf : End → List α
  shutRead : End → Bool
  shutWrite : End → Bool

def State.initial : State α := ⟨fun _ => [], fun _ => false, fun _ => false⟩

/-- What a call may return. Writing fails once the direction is shut at either end, reading once
it is shut at the reader; a reader finds the end of the stream once the writer has shut it and
everything has been delivered. -/
inductive Step (x : State α) : Call α → Outcome α → State α → Prop
  | write (s : End) (batch : List α) (n : Nat) (hw : x.shutWrite s = false)
    (hr : x.shutRead s.other = false) (hn : n ≤ batch.length) (hpos : batch ≠ [] → 0 < n) :
    Step x (.write s batch) ⟨n, []⟩
      { x with buf := Function.update x.buf s.other (x.buf s.other ++ batch.take n) }
  | writeFails (s : End) (batch : List α) (h : x.shutWrite s = true ∨ x.shutRead s.other = true) :
    Step x (.write s batch) ⟨-1, []⟩ x
  | read (s : End) (n : Nat) (h : x.shutRead s = false)
    (hend : n ≠ 0 → x.buf s = [] → x.shutWrite s.other = true) :
    Step x (.read s n) ⟨((x.buf s).take n).length, (x.buf s).take n⟩
      { x with buf := Function.update x.buf s ((x.buf s).drop n) }
  | readFails (s : End) (n : Nat) (h : x.shutRead s = true) : Step x (.read s n) ⟨-1, []⟩ x
  | shut (s : End) (reading writing : Bool) :
    Step x (.shut s reading writing) ⟨0, []⟩ { x with
      shutRead := Function.update x.shutRead s (x.shutRead s || reading)
      shutWrite := Function.update x.shutWrite s (x.shutWrite s || writing) }

abbrev Trace (α : Type*) := List (Call α × Outcome α)

inductive Run (x : State α) : Trace α → State α → Prop
  | nil : Run x [] x
  | snoc {tr : Trace α} {y z : State α} {c : Call α} {o : Outcome α} (h : Run x tr y)
    (hs : Step y c o z) : Run x (tr ++ [(c, o)]) z

/-- The entries taken from the writers at one end. -/
def sent (s : End) (tr : Trace α) : List α :=
  tr.flatMap fun d => match d.1 with
    | .write s' batch => if s' = s then batch.take d.2.val.toNat else []
    | _ => []

/-- The entries given to the readers at one end. -/
def received (s : End) (tr : Trace α) : List α :=
  tr.flatMap fun d => match d.1 with
    | .read s' _ => if s' = s then d.2.entries else []
    | _ => []

/-- Each direction delivers in order what it takes, whatever happens to the other. -/
theorem Run.conserved {tr : Trace α} {y : State α} (h : Run .initial tr y) (s : End) :
    sent s.other tr = received s tr ++ y.buf s := by
  induction h with
  | nil => simp [sent, received, State.initial]
  | snoc h hs ih =>
    have hsent : ∀ (tr : Trace α) d, sent s.other (tr ++ [d]) =
        sent s.other tr ++ sent s.other [d] :=
      fun tr d => List.flatMap_append ..
    have hrecv : ∀ (tr : Trace α) d, received s (tr ++ [d]) = received s tr ++ received s [d] :=
      fun tr d => List.flatMap_append ..
    rw [hsent, hrecv, ih]
    cases hs with
    | write s' batch n hw hr hn =>
      by_cases hss : s' = s.other
      · have hso : s = s'.other := by
          rw [hss]
          cases s <;> rfl
        subst hso
        have hoo : s'.other.other = s' := by cases s' <;> rfl
        simp [sent, received, hoo]
      · have hso : s ≠ s'.other := by
          rintro rfl
          exact hss (by cases s' <;> rfl)
        simp [sent, received, hss, hso]
    | writeFails s' batch => simp [sent, received]
    | read s' n =>
      by_cases hss : s' = s
      · subst hss
        simp [sent, received]
      · have hso : s ≠ s' := Ne.symm hss
        simp [sent, received, hss, hso]
    | readFails s' n => simp [sent, received]
    | shut s' reading writing => simp [sent, received]

theorem Run.received_prefix {tr : Trace α} {y : State α} (h : Run .initial tr y) (s : End) :
    received s tr <+: sent s.other tr :=
  ⟨y.buf s, (h.conserved s).symm⟩

def Call.isShut : Call α → Bool
  | .shut .. => true
  | _ => false

/-- Nothing is shut by other calls. -/
theorem Run.unshut {tr : Trace α} {y : State α} (h : Run .initial tr y)
    (hno : ∀ d ∈ tr, d.1.isShut = false) (s : End) : y.shutRead s = false ∧
    y.shutWrite s = false := by
  induction h with
  | nil => exact ⟨rfl, rfl⟩
  | snoc h hs ih =>
    have hprev := ih fun d hd => hno d (List.mem_append_left _ hd)
    cases hs with
    | shut s' reading writing =>
      have hlast := hno (.shut s' reading writing, ⟨0, []⟩)
        (List.mem_append_right _ (List.mem_singleton.mpr rfl))
      simp [Call.isShut] at hlast
    | _ => exact hprev

/-- Calls on a channel that is never shut do not fail. -/
theorem Run.never_fails {tr : Trace α} {y : State α} (h : Run .initial tr y)
    (hno : ∀ d ∈ tr, d.1.isShut = false) : ∀ d ∈ tr, d.2.val ≠ -1 := by
  induction h with
  | nil => exact fun d hd => absurd hd List.not_mem_nil
  | @snoc tr y z c o h hs ih =>
    have hprev : ∀ d ∈ tr, d.1.isShut = false := fun d hd => hno d (List.mem_append_left _ hd)
    have hopen := h.unshut hprev
    intro d hd
    rcases List.mem_append.mp hd with hd | hd
    · exact ih hprev d hd
    · obtain rfl := List.mem_singleton.mp hd
      cases hs with
      | write s batch n => simp only; omega
      | writeFails s batch hshut =>
        rcases hshut with hshut | hshut
        · rw [(hopen s).2] at hshut
          simp at hshut
        · rw [(hopen s.other).1] at hshut
          simp at hshut
      | read s n => simp only; omega
      | readFails s n hshut =>
        rw [(hopen s).1] at hshut
        simp at hshut
      | shut s reading writing => simp

end Duplex
