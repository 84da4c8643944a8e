import Mathlib.Data.Finset.Card
import Mathlib.Logic.Function.Basic

/-! A barrier that a fixed set of parties passes again and again: the last to arrive opens it for
all. -/

namespace Rendezvous

/-- The number of parties that have arrived since it was last opened, and how often that was. -/
structure Barrier where
  count : Nat
  gen : Nat
deriving DecidableEq

def Barrier.closed : Barrier := ⟨0, 0⟩

def Barrier.arrive (b : Barrier) (n : Nat) : Barrier :=
  if b.count + 1 = n then ⟨0, b.gen + 1⟩ else ⟨b.count + 1, b.gen⟩

variable {ι : Type*}

/-- The parties in `s`: which of them are inside, and how often each has passed. -/
structure Inv (b : Barrier) (s : Finset ι) (inside : ι → Bool) (passes : ι → Nat) : Prop where
  out : ∀ i ∈ s, inside i = false → passes i = b.gen
  waits : ∀ i ∈ s, inside i = true → passes i ≤ b.gen ∧ b.gen ≤ passes i + 1
  count : b.count = (s.filter fun i => inside i = true ∧ passes i = b.gen).card
  below : b.count < s.card

variable {b : Barrier} {s : Finset ι} {inside inside' : ι → Bool} {passes passes' : ι → Nat}
  {i j : ι}

theorem Inv.closed (hs : s.Nonempty) (hin : ∀ i ∈ s, inside i = false)
    (hp : ∀ i ∈ s, passes i = 0) :
    Inv .closed s inside passes where
  out i hi _ := hp i hi
  waits i hi hwait := by simp [hin i hi] at hwait
  count := by
    symm
    apply Finset.card_eq_zero.mpr
    apply Finset.filter_eq_empty_iff.mpr
    rintro i hi ⟨hwait, -⟩
    simp [hin i hi] at hwait
  below := Finset.card_pos.mpr hs

/-- Only the parties count. -/
theorem Inv.congr (h : Inv b s inside passes) (hin : ∀ i ∈ s, inside' i = inside i)
    (hp : ∀ i ∈ s, passes' i = passes i) : Inv b s inside' passes' where
  out i hi ho := by
    rw [hp i hi]
    exact h.out i hi (by rw [← hin i hi, ho])
  waits i hi hw := by
    rw [hp i hi]
    exact h.waits i hi (by rw [← hin i hi, hw])
  count := by
    rw [h.count]
    apply congrArg Finset.card
    apply Finset.filter_congr
    intro i hi
    rw [hin i hi, hp i hi]
  below := h.below

/-- A party has passed no oftener than any other has arrived. -/
theorem Inv.arrived (h : Inv b s inside passes) (hi : i ∈ s) (hj : j ∈ s) :
    passes j ≤ passes i + if inside i = true then 1 else 0 := by
  have hjgen : passes j ≤ b.gen := by
    cases hw : inside j with
    | false => exact Nat.le_of_eq (h.out j hj hw)
    | true => exact (h.waits j hj hw).1
  cases hw : inside i with
  | false =>
    rw [h.out i hi hw]
    simpa using hjgen
  | true =>
    have := (h.waits i hi hw).2
    simp only [if_true]
    omega

/-- Somebody who is inside can leave, or somebody is outside. -/
theorem Inv.live (h : Inv b s inside passes) : (∃ i ∈ s, inside i = false) ∨ ∃ i ∈ s,
    inside i = true ∧ passes i < b.gen := by
  by_contra hno
  rw [not_or, not_exists, not_exists] at hno
  have hall : (s.filter fun i => inside i = true ∧ passes i = b.gen) = s := by
    apply Finset.filter_true_of_mem
    intro i hi
    have hw : inside i = true := by
      by_contra hout
      exact hno.1 i ⟨hi, by simpa using hout⟩
    refine ⟨hw, ?_⟩
    have hle := (h.waits i hi hw).1
    by_contra hne
    exact hno.2 i ⟨hi, hw, by omega⟩
  have hcount := h.count
  rw [hall] at hcount
  exact absurd h.below (by omega)

variable [DecidableEq ι]

/-- When one party is outside and the others have all arrived, it is the last. -/
theorem Inv.last (h : Inv b s inside passes) (hi : i ∈ s) (ho : inside i = false)
    (hlast : b.count + 1 = s.card)
    (hj : j ∈ s) (hne : j ≠ i) : inside j = true ∧ passes j = b.gen := by
  have hsub : (s.filter fun i => inside i = true ∧ passes i = b.gen) ⊆ s.erase i := by
    intro k hk
    obtain ⟨hks, hwait, -⟩ := Finset.mem_filter.mp hk
    refine Finset.mem_erase.mpr ⟨?_, hks⟩
    rintro rfl
    simp [ho] at hwait
  have heq := Finset.eq_of_subset_of_card_le hsub (by
    rw [Finset.card_erase_of_mem hi, ← h.count]
    omega)
  have hmem : j ∈ s.erase i := Finset.mem_erase.mpr ⟨hne, hj⟩
  rw [← heq] at hmem
  exact (Finset.mem_filter.mp hmem).2

theorem Inv.arrive (h : Inv b s inside passes) (hi : i ∈ s) (ho : inside i = false)
    (hin : ∀ j ∈ s, inside' j = if j = i then true else inside j)
    (hp : ∀ j ∈ s, passes' j = passes j) :
    Inv (b.arrive s.card) s inside' passes' := by
  have hpi := h.out i hi ho
  suffices hupdate : Inv (b.arrive s.card) s (fun j => if j = i then true else inside j) passes from
    hupdate.congr hin hp
  unfold Barrier.arrive
  split
  · rename_i hlast
    have hall : ∀ j ∈ s, passes j = b.gen := by
      intro j hj
      by_cases hne : j = i
      · rw [hne, hpi]
      · exact (h.last hi ho hlast hj hne).2
    refine ⟨fun j hj hout => ?_, fun j hj _ => ?_, ?_, ?_⟩
    · by_cases hne : j = i
      · simp [hne] at hout
      · simp [hne, (h.last hi ho hlast hj hne).1] at hout
    · have := hall j hj
      simp only
      omega
    · symm
      apply Finset.card_eq_zero.mpr
      apply Finset.filter_eq_empty_iff.mpr
      rintro j hj ⟨-, hgen⟩
      have := hall j hj
      simp only at hgen
      omega
    · exact Finset.card_pos.mpr ⟨i, hi⟩
  · rename_i hmore
    refine ⟨fun j hj hout => ?_, fun j hj hwait => ?_, ?_, ?_⟩
    · by_cases hne : j = i
      · simp [hne] at hout
      · exact h.out j hj (by simpa [hne] using hout)
    · by_cases hne : j = i
      · subst hne
        exact ⟨Nat.le_of_eq hpi, by rw [hpi]; exact Nat.le_succ _⟩
      · exact h.waits j hj (by simpa [hne] using hwait)
    · have hinsert :
          (s.filter fun j => (if j = i then true else inside j) = true ∧ passes j = b.gen) =
          insert i (s.filter fun j => inside j = true ∧ passes j = b.gen) := by
        ext j
        simp only [Finset.mem_filter, Finset.mem_insert]
        by_cases hne : j = i
        · subst hne
          simp [hi, hpi]
        · simp [hne]
      rw [hinsert, Finset.card_insert_of_notMem (by simp [ho]), ← h.count]
    · have := h.below
      simp only
      omega

theorem Inv.leave (h : Inv b s inside passes) (hi : i ∈ s) (hwait : inside i = true)
    (hlt : passes i < b.gen) (hin : ∀ j ∈ s, inside' j = if j = i then false else inside j)
    (hp : ∀ j ∈ s, passes' j = if j = i then passes j + 1 else passes j) :
    Inv b s inside' passes' := by
  have hgen : b.gen = passes i + 1 := by
    have := (h.waits i hi hwait).2
    omega
  suffices hupdate : Inv b s (fun j => if j = i then false else inside j)
      (fun j => if j = i then passes j + 1 else passes j) from hupdate.congr hin hp
  refine ⟨fun j hj hout => ?_, fun j hj hw => ?_, ?_, h.below⟩
  · by_cases hne : j = i
    · subst hne
      simp [hgen]
    · simp only [hne, if_false] at hout ⊢
      exact h.out j hj hout
  · by_cases hne : j = i
    · simp [hne] at hw
    · simp only [hne, if_false] at hw ⊢
      exact h.waits j hj hw
  · rw [h.count]
    apply congrArg Finset.card
    apply Finset.filter_congr
    intro j hj
    by_cases hne : j = i
    · subst hne
      simp [Nat.ne_of_lt hlt]
    · simp [hne]

end Rendezvous
