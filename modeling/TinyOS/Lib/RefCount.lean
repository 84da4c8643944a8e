import Mathlib.Data.List.Nodup

/-! Objects that carry a count of the references to them, and the list of those that are
free: the counts stay exact while references come and go. -/

namespace RefCount

variable {ι : Type*}

structure Exact (valid : ι → Prop) (count : ι → Int) (free : List ι) (refs : ι → Nat) : Prop where
  nodup : free.Nodup
  mem_valid : ∀ i ∈ free, valid i
  unused : ∀ i ∈ free, refs i = 0
  count_eq : ∀ i, valid i → i ∉ free → count i = refs i
  used : ∀ i, valid i → i ∉ free → 0 < refs i
  outside : ∀ i, ¬valid i → refs i = 0

variable {valid : ι → Prop} {count count' : ι → Int} {free rest : List ι}
  {refs refs' : ι → Nat} {i : ι}

/-- All objects free, and no reference to any of them. -/
theorem Exact.initial {valid : ι → Prop} (count : ι → Int) {free : List ι} (hnd : free.Nodup)
    (hfree : ∀ i, i ∈ free ↔ valid i) : Exact valid count free fun _ => 0 where
  nodup := hnd
  mem_valid i hi := (hfree i).mp hi
  unused _ _ := rfl
  count_eq i hv hi := absurd ((hfree i).mpr hv) hi
  used i hv hi := absurd ((hfree i).mpr hv) hi
  outside _ _ := rfl

theorem Exact.inUse (h : Exact valid count free refs) (hi : 0 < refs i) : valid i ∧ i ∉ free := by
  constructor
  · by_contra hv
    have h0 := h.outside i hv
    omega
  · intro hf
    have h0 := h.unused i hf
    omega

/-- A change of the references to one object that is in use before and after. -/
theorem Exact.adjust (h : Exact valid count free refs) (hi : 0 < refs i) (hi' : 0 < refs' i)
    (hc : count' i = refs' i) (hcount : ∀ j, j ≠ i → count' j = count j)
    (hrefs : ∀ j, j ≠ i → refs' j = refs j) : Exact valid count' free refs' where
  nodup := h.nodup
  mem_valid := h.mem_valid
  unused j hj := by
    have hji : j ≠ i := fun he => (h.inUse hi).2 (he ▸ hj)
    rw [hrefs j hji]
    exact h.unused j hj
  count_eq j hv hj := by
    by_cases hji : j = i
    · subst hji
      exact hc
    · rw [hcount j hji, hrefs j hji]
      exact h.count_eq j hv hj
  used j hv hj := by
    by_cases hji : j = i
    · subst hji
      exact hi'
    · rw [hrefs j hji]
      exact h.used j hv hj
  outside j hv := by
    have hji : j ≠ i := fun he => hv (he ▸ (h.inUse hi).1)
    rw [hrefs j hji]
    exact h.outside j hv

theorem Exact.retain (h : Exact valid count free refs) (hi : 0 < refs i)
    (hri : refs' i = refs i + 1)
    (hc : count' i = count i + 1) (hcount : ∀ j, j ≠ i → count' j = count j)
    (hrefs : ∀ j, j ≠ i → refs' j = refs j) : Exact valid count' free refs' := by
  have hci := h.count_eq i (h.inUse hi).1 (h.inUse hi).2
  exact h.adjust hi (by omega) (by omega) hcount hrefs

theorem Exact.release (h : Exact valid count free refs) (hri : refs i = refs' i + 1)
    (hc : count' i = count i - 1) (hne : count' i ≠ 0) (hcount : ∀ j, j ≠ i → count' j = count j)
    (hrefs : ∀ j, j ≠ i → refs' j = refs j) : Exact valid count' free refs' := by
  have hi : 0 < refs i := by omega
  have hci := h.count_eq i (h.inUse hi).1 (h.inUse hi).2
  exact h.adjust hi (by omega) (by omega) hcount hrefs

/-- The last reference goes, and the object with it. -/
theorem Exact.release_last (h : Exact valid count free refs) (hri : refs i = refs' i + 1)
    (hc : count i - 1 = 0) (hcount : ∀ j, j ≠ i → count' j = count j)
    (hrefs : ∀ j, j ≠ i → refs' j = refs j) : Exact valid count' (free ++ [i]) refs' := by
  have hi : 0 < refs i := by omega
  obtain ⟨hv, hf⟩ := h.inUse hi
  have hci := h.count_eq i hv hf
  have hzero : refs' i = 0 := by omega
  refine ⟨List.nodup_append.mpr ⟨h.nodup, by simp, ?_⟩, fun j hj => ?_, fun j hj => ?_,
    fun j hvj hj => ?_, fun j hvj hj => ?_, fun j hvj => ?_⟩
  · intro a ha b hb hab
    obtain rfl : b = i := by simpa using hb
    exact hf (hab ▸ ha)
  · rcases List.mem_append.mp hj with hj | hj
    · exact h.mem_valid j hj
    · obtain rfl : j = i := by simpa using hj
      exact hv
  · rcases List.mem_append.mp hj with hj | hj
    · rw [hrefs j fun he => hf (he ▸ hj)]
      exact h.unused j hj
    · obtain rfl : j = i := by simpa using hj
      exact hzero
  · obtain ⟨hjf, hji⟩ : j ∉ free ∧ j ≠ i := by simpa using hj
    rw [hcount j hji, hrefs j hji]
    exact h.count_eq j hvj hjf
  · obtain ⟨hjf, hji⟩ : j ∉ free ∧ j ≠ i := by simpa using hj
    rw [hrefs j hji]
    exact h.used j hvj hjf
  · rw [hrefs j fun he => hvj (he ▸ hv)]
    exact h.outside j hvj

/-- The first free object gets its first reference. -/
theorem Exact.alloc (h : Exact valid count (i :: rest) refs) (hri : refs' i = 1) (hc : count' i = 1)
    (hcount : ∀ j, j ≠ i → count' j = count j) (hrefs : ∀ j, j ≠ i → refs' j = refs j) :
    Exact valid count' rest refs' := by
  have hv : valid i := h.mem_valid i List.mem_cons_self
  obtain ⟨hi, hnd⟩ := List.nodup_cons.mp h.nodup
  refine ⟨hnd, fun j hj => h.mem_valid j (List.mem_cons_of_mem _ hj), fun j hj => ?_,
    fun j hvj hj => ?_, fun j hvj hj => ?_, fun j hvj => ?_⟩
  · rw [hrefs j fun he => hi (he ▸ hj)]
    exact h.unused j (List.mem_cons_of_mem _ hj)
  · by_cases hji : j = i
    · subst hji
      omega
    · rw [hcount j hji, hrefs j hji]
      exact h.count_eq j hvj (by simp [hji, hj])
  · by_cases hji : j = i
    · subst hji
      omega
    · rw [hrefs j hji]
      exact h.used j hvj (by simp [hji, hj])
  · rw [hrefs j fun he => hvj (he ▸ hv)]
    exact h.outside j hvj

/-- An object is taken from the free list and put back unused. -/
theorem Exact.rotate (h : Exact valid count (i :: rest) refs)
    (hcount : ∀ j, j ≠ i → count' j = count j) : Exact valid count' (rest ++ [i]) refs := by
  have hperm : (rest ++ [i]).Perm (i :: rest) := List.perm_append_singleton i rest
  refine ⟨hperm.nodup_iff.mpr h.nodup, fun j hj => h.mem_valid j (hperm.mem_iff.mp hj),
    fun j hj => h.unused j (hperm.mem_iff.mp hj), fun j hv hj => ?_,
    fun j hv hj => h.used j hv (mt hperm.mem_iff.mpr hj), h.outside⟩
  have hj' : j ∉ i :: rest := mt hperm.mem_iff.mpr hj
  rw [hcount j fun he => hj' (he ▸ List.mem_cons_self)]
  exact h.count_eq j hv hj'

end RefCount
