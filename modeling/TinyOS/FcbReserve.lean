import TinyOS.IoFiles

/-! `FCB_reserve` and `FCB_unreserve` for any number of streams: all or nothing, and one the
inverse of the other. -/

namespace TinyOS

def emptyFids (fidt : Nat → Option FcbId) (f : Nat) : List Nat :=
  (List.range' f (maxFileid - f)).filter fun i => fidt i = none

section Fids

variable {fidt : Nat → Option FcbId} {f g i num : Nat}

theorem mem_emptyFids : i ∈ emptyFids fidt f ↔ f ≤ i ∧ i < maxFileid ∧ fidt i = none := by
  have hrange : f ≤ i ∧ i < f + (maxFileid - f) ↔ f ≤ i ∧ i < maxFileid := by omega
  simp only [emptyFids, List.mem_filter, List.mem_range'_1, decide_eq_true_eq, hrange, and_assoc]

theorem emptyFids_sorted (fidt : Nat → Option FcbId) (f : Nat) :
    (emptyFids fidt f).Pairwise (· < ·) :=
  List.Pairwise.filter _ List.pairwise_lt_range'

theorem emptyFids_nodup (fidt : Nat → Option FcbId) (f : Nat) : (emptyFids fidt f).Nodup :=
  (emptyFids_sorted fidt f).imp fun h => Nat.ne_of_lt h

theorem emptyFids_skip (hfg : f ≤ g) (hg : g ≤ maxFileid)
    (hused : ∀ j, f ≤ j → j < g → fidt j ≠ none) :
    emptyFids fidt f = emptyFids fidt g := by
  have hsplit : List.range' f (maxFileid - f) = List.range' f (g - f) ++
      List.range' g (maxFileid - g) := by
    have happend := List.range'_append_1 (s := f) (m := g - f) (n := maxFileid - g)
    rw [show f + (g - f) = g by omega, show g - f + (maxFileid - g) =
      maxFileid - f by omega] at happend
    exact happend.symm
  have hnone : (List.range' f (g - f)).filter (fun i => fidt i = none) = [] := by
    refine List.filter_eq_nil_iff.mpr fun j hj => ?_
    have hj' := List.mem_range'_1.mp hj
    simpa using hused j hj'.1 (by omega)
  rw [emptyFids, hsplit, List.filter_append, hnone, List.nil_append, emptyFids]

theorem emptyFids_cons (hf : f < maxFileid) (hnone : fidt f = none) :
    emptyFids fidt f = f :: emptyFids fidt (f + 1) := by
  have hlen : maxFileid - f = maxFileid - (f + 1) + 1 := by omega
  rw [emptyFids, hlen, List.range'_succ, List.filter_cons_of_pos (by simpa using hnone), emptyFids]

theorem findFids_eq (fidt : Nat → Option FcbId) (num f : Nat) (hf : f ≤ maxFileid) :
    findFids fidt num f = (emptyFids fidt f).take num := by
  induction num generalizing f with
  | zero => rfl
  | succ num ih =>
    obtain ⟨hle, hmax, hused, hempty⟩ := skipUsed_spec fidt maxFileid f hf (by omega)
    rw [findFids, emptyFids_skip hle hmax hused]
    generalize skipUsed fidt maxFileid f = g at hle hmax hused hempty ⊢
    by_cases hg : g = maxFileid
    · have hnil : emptyFids fidt maxFileid = [] := by simp [emptyFids]
      simp [hg, hnil]
    · have hlt : g < maxFileid := by omega
      simp only [hg, if_false]
      rw [emptyFids_cons hlt (hempty hlt), List.take_succ_cons, ih (g + 1) hlt]

end Fids

/-! ### Acquiring and releasing -/

section Fcbs

variable {files : FileTable} {num : Nat} {f : FcbId} {rest : List FcbId}

theorem acquireFCB_cons (h : files.fcbFreelist = f :: rest) : ∃ next : FileTable,
    acquireFCB files = (next, some f) ∧ next.fcbFreelist = rest ∧
      ∀ g, next.ft g = if g = f then { files.ft g with refcount := 0 } else files.ft g := by
  refine ⟨_, by rw [acquireFCB, h], rfl, fun g => ?_⟩
  by_cases hg : g = f <;> simp [FileTable.setRefcount, FileTable.record, hg]

/-- What the loop that allocates FCBs leaves, when there are enough of them. -/
theorem acquireFCBs_enough (h : num ≤ files.fcbFreelist.length) :
    (acquireFCBs num files).2 = (files.fcbFreelist.take num).map some ∧
      (acquireFCBs num files).1.fcbFreelist = files.fcbFreelist.drop num ∧
      ∀ g, (acquireFCBs num files).1.ft g =
        if g ∈ files.fcbFreelist.take num then { files.ft g with refcount := 0 }
          else files.ft g := by
  induction num generalizing files with
  | zero => simp [acquireFCBs]
  | succ num ih =>
    cases hlist : files.fcbFreelist with
    | nil => simp [hlist] at h
    | cons f rest =>
      obtain ⟨next, hacq, hfree, hft⟩ := acquireFCB_cons hlist
      simp only [acquireFCBs, hacq]
      obtain ⟨hout, hleft, hcount⟩ := @ih next (by rw [hfree]; simpa [hlist] using h)
      rw [hfree] at hout hleft hcount
      refine ⟨by simp [hout], by simp [hleft], fun g => ?_⟩
      rw [hcount, hft]
      by_cases hg : g = f <;> by_cases hm : g ∈ rest.take num <;> simp [hg, hm]

/-- With too few FCBs the loop breaks when all of them are taken. -/
theorem acquireFCBs_short (h : files.fcbFreelist.length < num) :
    (acquireFCBs num files).2 = files.fcbFreelist.map some ++ [none] ∧
      (acquireFCBs num files).1.fcbFreelist = [] := by
  induction num generalizing files with
  | zero => exact absurd h (Nat.not_lt_zero _)
  | succ num ih =>
    cases hlist : files.fcbFreelist with
    | nil => simp [acquireFCBs, acquireFCB, hlist]
    | cons f rest =>
      obtain ⟨next, hacq, hfree, -⟩ := acquireFCB_cons hlist
      simp only [acquireFCBs, hacq]
      obtain ⟨hout, hleft⟩ := @ih next (by rw [hfree]; simpa [hlist] using h)
      rw [hfree] at hout
      exact ⟨by simp [hout], hleft⟩

theorem foldl_releaseFCB (l : List FcbId) (files : FileTable) :
    (l.foldl releaseFCB files).fcbFreelist = files.fcbFreelist ++ l := by
  induction l generalizing files with
  | nil => simp
  | cons f l ih => rw [List.foldl_cons, ih]; simp [releaseFCB, FileTable.record]

theorem foldl_fcbIncref (l : List FcbId) (files : FileTable) :
    (l.foldl fcbIncref files).fcbFreelist = files.fcbFreelist ∧
      ∀ g, (l.foldl fcbIncref files).ft g = { files.ft g with
          refcount := (files.ft g).refcount + l.count g } := by
  induction l generalizing files with
  | nil => simp
  | cons f l ih =>
    obtain ⟨hfree, hft⟩ := ih (fcbIncref files f)
    rw [List.foldl_cons]
    refine ⟨hfree, fun g => ?_⟩
    rw [hft]
    by_cases hg : g = f
    · subst hg
      simp only [fcbIncref, FileTable.setRefcount, Function.update_self, List.count_cons_self]
      congr 1
      push_cast
      omega
    · simp only [fcbIncref, FileTable.setRefcount, Function.update_of_ne hg,
        List.count_cons_of_ne (Ne.symm hg)]

end Fcbs

/-! ### The slots -/

section Slots

variable {fidt : Nat → Option FcbId} {fids : List Nat} {fcbs : List FcbId}

theorem foldl_slots_notMem {xs : List (Option FcbId)} {j : Nat} (hj : j ∉ fids) :
    (fids.zip xs).foldl (fun fidt s => Function.update fidt s.1 s.2) fidt j = fidt j := by
  induction fids generalizing fidt xs with
  | nil => rfl
  | cons i fids ih =>
    rw [List.mem_cons, not_or] at hj
    obtain ⟨hji, hj⟩ := hj
    cases xs with
    | nil => rfl
    | cons x xs => rw [List.zip_cons_cons, List.foldl_cons, ih hj, Function.update_of_ne hji]

theorem foldl_slots_get {xs : List (Option FcbId)} {n j : Nat} {x : Option FcbId} (hnd : fids.Nodup)
    (hj : fids[n]? = some j) (hx : xs[n]? = some x) :
    (fids.zip xs).foldl (fun fidt s => Function.update fidt s.1 s.2) fidt j = x := by
  induction fids generalizing fidt xs n with
  | nil => simp at hj
  | cons i fids ih =>
    obtain ⟨hi, hnd⟩ := List.nodup_cons.mp hnd
    cases xs with
    | nil => simp at hx
    | cons y xs =>
      rw [List.zip_cons_cons, List.foldl_cons]
      cases n with
      | zero =>
        obtain rfl : i = j := by simpa using hj
        obtain rfl : y = x := by simpa using hx
        rw [foldl_slots_notMem hi, Function.update_self]
      | succ n => exact ih hnd (by simpa using hj) (by simpa using hx)

theorem fcbUnreserve_eq (files : FileTable) (fidt : Nat → Option FcbId)
    (slots : List (Nat × FcbId)) :
    (fcbUnreserve files fidt slots).1.fcbFreelist = files.fcbFreelist ++ slots.map Prod.snd ∧
      ∀ j, (fcbUnreserve files fidt slots).2 j = if j ∈ slots.map Prod.fst then none
        else fidt j := by
  induction slots generalizing files fidt with
  | nil => simp [fcbUnreserve]
  | cons s slots ih =>
    obtain ⟨hfree, hslots⟩ := ih (releaseFCB files s.2) (Function.update fidt s.1 none)
    refine ⟨hfree.trans (by simp [releaseFCB, FileTable.record]), fun j => (hslots j).trans ?_⟩
    by_cases hm : j ∈ slots.map Prod.fst
    · simp [hm]
    · by_cases hj : j = s.1 <;> simp [hm, hj]

end Slots

/-! ### Reserving -/

structure Granted (files : FileTable) (fidt : Nat → Option FcbId) (num : Nat)
    (r : FileTable × (Nat → Option FcbId) × Reservation) : Prop where
  fid : r.2.2.fid = (emptyFids fidt 0).take num
  fcb : r.2.2.fcb = (files.fcbFreelist.take num).map some
  distinct : r.2.2.fcb.Nodup
  left : r.1.fcbFreelist = files.fcbFreelist.drop num
  slots : ∀ i, i < num → ∃ j f, r.2.2.fid[i]? = some j ∧ r.2.2.fcb[i]? = some (some f) ∧
    r.2.1 j = some f
  counts : ∀ f, some f ∈ r.2.2.fcb → r.1.ft f = { files.ft f with refcount := 1 }
  slots_kept : ∀ j, j ∉ r.2.2.fid → r.2.1 j = fidt j
  fcbs_kept : ∀ f, some f ∉ r.2.2.fcb → r.1.ft f = files.ft f

section Reserve

variable {files : FileTable} {fidt : Nat → Option FcbId} {num : Nat}

theorem fcbReserve_granted (hfids : num ≤ (emptyFids fidt 0).length)
    (hfcbs : num ≤ files.fcbFreelist.length)
    (hnd : files.fcbFreelist.Nodup) : (fcbReserve files fidt num).2.2.ok = true ∧
      Granted files fidt num (fcbReserve files fidt num) := by
  have hfind := findFids_eq fidt num 0 (Nat.zero_le _)
  obtain ⟨hout, hleft, hzero⟩ := acquireFCBs_enough hfcbs
  have htaken : (files.fcbFreelist.take num).Nodup := hnd.sublist (List.take_sublist _ _)
  have hres : fcbReserve files fidt num =
      ((files.fcbFreelist.take num).foldl fcbIncref (acquireFCBs num files).1,
        (((emptyFids fidt 0).take num).zip ((files.fcbFreelist.take num).map some)).foldl
          (fun fidt s => Function.update fidt s.1 s.2) fidt,
        ⟨(emptyFids fidt 0).take num, (files.fcbFreelist.take num).map some, true⟩) := by
    have hlen : ¬ ((emptyFids fidt 0).take num).length < num := by
      rw [List.length_take]
      omega
    simp only [fcbReserve, hfind, hout, if_neg hlen]
    have hall : none ∉ (files.fcbFreelist.take num).map some := fun hm => by
      obtain ⟨_, _, h⟩ := List.mem_map.mp hm
      cases h
    have hid : ((files.fcbFreelist.take num).map some).filterMap id =
        files.fcbFreelist.take num := by
      rw [List.filterMap_map]
      exact List.filterMap_some
    rw [if_neg hall, hid]
  obtain ⟨hfree, hcount⟩ := foldl_fcbIncref (files.fcbFreelist.take num) (acquireFCBs num files).1
  rw [hres]
  refine ⟨rfl, rfl, rfl, htaken.map (Option.some_injective _), hfree.trans hleft,
    fun i hi => ?_, fun f hf => ?_,
    fun j hj => foldl_slots_notMem hj, fun f hf => ?_⟩
  · have hj : i < ((emptyFids fidt 0).take num).length := by
      rw [List.length_take]
      omega
    have hf : i < (files.fcbFreelist.take num).length := by
      rw [List.length_take]
      omega
    have hget : ((files.fcbFreelist.take num).map some)[i]? =
        some (some (files.fcbFreelist.take num)[i]) := by
      rw [List.getElem?_map, List.getElem?_eq_getElem hf, Option.map_some]
    have hnodup := (emptyFids_nodup fidt 0).sublist (List.take_sublist num _)
    exact ⟨_, _, List.getElem?_eq_getElem hj, hget,
      foldl_slots_get hnodup (List.getElem?_eq_getElem hj) hget⟩
  · have hmem : f ∈ files.fcbFreelist.take num :=
      (List.mem_map_of_injective (Option.some_injective _)).mp hf
    rw [hcount, hzero, if_pos hmem, List.count_eq_one_of_mem htaken hmem]
    rfl
  · have hmem : f ∉ files.fcbFreelist.take num := fun hm => hf (List.mem_map_of_mem hm)
    rw [hcount, hzero, if_neg hmem, List.count_eq_zero_of_not_mem hmem]
    simp

theorem fcbReserve_refused (h : (emptyFids fidt 0).length < num ∨ files.fcbFreelist.length < num) :
    (fcbReserve files fidt num).2.2.ok = false ∧ (fcbReserve files fidt num).2.1 = fidt ∧
      (fcbReserve files fidt num).1.fcbFreelist.Perm files.fcbFreelist := by
  have hfind := findFids_eq fidt num 0 (Nat.zero_le _)
  by_cases hfids : (emptyFids fidt 0).length < num
  · have hlen : ((emptyFids fidt 0).take num).length < num := by
      rw [List.length_take]
      omega
    have hres : fcbReserve files fidt num =
        (files, fidt, ⟨(emptyFids fidt 0).take num, [], false⟩) := by
      simp only [fcbReserve, hfind, if_pos hlen]
    rw [hres]
    exact ⟨rfl, rfl, .refl _⟩
  · obtain ⟨hout, hleft⟩ := acquireFCBs_short (h.resolve_left hfids)
    have hlen : ¬ ((emptyFids fidt 0).take num).length < num := by
      rw [List.length_take]
      omega
    simp only [fcbReserve, hfind, if_neg hlen, hout]
    rw [if_pos (by simp)]
    refine ⟨rfl, rfl, ?_⟩
    have hback : ((files.fcbFreelist.map some ++ [none]).filterMap id) = files.fcbFreelist := by
      rw [List.filterMap_append, List.filterMap_map]
      simp
    rw [foldl_releaseFCB, hleft, hback, List.nil_append]
    exact List.reverse_perm _

/-- What `FCB_unreserve` makes of a reservation, and what comes of its FCBs later. -/
structure GivenBack (files : FileTable) (fidt : Nat → Option FcbId) (num : Nat)
    (u : FileTable × (Nat → Option FcbId)) : Prop where
  fidt : u.2 = fidt
  free : u.1.fcbFreelist.Perm files.fcbFreelist
  next : ∀ fidt' m, (fcbReserve u.1 fidt' m).2.2.ok = true → (fcbReserve u.1 fidt' m).2.2.fcb =
    ((files.fcbFreelist.drop num ++ files.fcbFreelist.take num).take m).map some
  later : ∀ (later : FileTable) fidt' m, later.fcbFreelist.Nodup →
    (fcbReserve later fidt' m).2.2.ok = true →
    ∀ f ∈ files.fcbFreelist.take num, some f ∈ (fcbReserve later fidt' m).2.2.fcb →
      ((fcbReserve later fidt' m).1.ft f).refcount = 1

theorem fcbReserve_ok_iff (hnd : files.fcbFreelist.Nodup) :
    (fcbReserve files fidt num).2.2.ok = true ↔
    num ≤ (emptyFids fidt 0).length ∧ num ≤ files.fcbFreelist.length := by
  constructor
  · intro hok
    by_contra hnot
    have hshort : (emptyFids fidt 0).length < num ∨ files.fcbFreelist.length < num := by omega
    rw [(fcbReserve_refused hshort).1] at hok
    exact absurd hok (by decide)
  · exact fun h => (fcbReserve_granted h.1 h.2 hnd).1

def Reservation.slots (r : Reservation) : List (Nat × FcbId) := r.fid.zip (r.fcb.filterMap id)

theorem fcbUnreserve_givenBack (hfids : num ≤ (emptyFids fidt 0).length)
    (hfcbs : num ≤ files.fcbFreelist.length)
    (hnd : files.fcbFreelist.Nodup) :
    GivenBack files fidt num (fcbUnreserve (fcbReserve files fidt num).1
      (fcbReserve files fidt num).2.1 (fcbReserve files fidt num).2.2.slots) := by
  have hg := (fcbReserve_granted hfids hfcbs hnd).2
  obtain ⟨hfree, hslots⟩ := fcbUnreserve_eq (fcbReserve files fidt num).1
    (fcbReserve files fidt num).2.1
    (fcbReserve files fidt num).2.2.slots
  have hfcb : (fcbReserve files fidt num).2.2.fcb.filterMap id = files.fcbFreelist.take num := by
    rw [hg.fcb, List.filterMap_map]
    simp
  have hlen : ((emptyFids fidt 0).take num).length = (files.fcbFreelist.take num).length := by
    rw [List.length_take, List.length_take]
    omega
  have hfst : (fcbReserve files fidt num).2.2.slots.map Prod.fst = (emptyFids fidt 0).take num := by
    rw [Reservation.slots, hfcb, hg.fid]
    exact List.map_fst_zip hlen.le
  have hsnd : (fcbReserve files fidt num).2.2.slots.map Prod.snd = files.fcbFreelist.take num := by
    rw [Reservation.slots, hfcb, hg.fid]
    exact List.map_snd_zip hlen.ge
  rw [hsnd, hg.left] at hfree
  have hperm : (files.fcbFreelist.drop num ++ files.fcbFreelist.take num).Perm
      files.fcbFreelist := by
    have hswap := @List.perm_append_comm _ (files.fcbFreelist.drop num) (files.fcbFreelist.take num)
    rwa [List.take_append_drop] at hswap
  rw [← hfree] at hperm
  refine ⟨funext fun j => ?_, hperm, fun fidt' m hok => ?_, fun later fidt' m hl hok f _ hf => ?_⟩
  · rw [hslots, hfst]
    by_cases hj : j ∈ (emptyFids fidt 0).take num
    · rw [if_pos hj]
      exact (mem_emptyFids.mp (List.mem_of_mem_take hj)).2.2.symm
    · rw [if_neg hj]
      exact hg.slots_kept j (by rwa [hg.fid])
  · have hnd' := hperm.nodup_iff.mpr hnd
    obtain ⟨h1, h2⟩ := (fcbReserve_ok_iff hnd').mp hok
    rw [(fcbReserve_granted h1 h2 hnd').2.fcb, hfree]
  · obtain ⟨h1, h2⟩ := (fcbReserve_ok_iff hl).mp hok
    rw [(fcbReserve_granted h1 h2 hl).2.counts f hf]

end Reserve

/-- `FCB_reserve` is all or nothing, and `FCB_unreserve` is its inverse. -/
theorem fcb_reserve_exact (files : FileTable) (fidt : Nat → Option FcbId) (num : Nat)
    (hnd : files.fcbFreelist.Nodup) :
    ((fcbReserve files fidt num).2.2.ok = true ↔
      num ≤ (emptyFids fidt 0).length ∧ num ≤ files.fcbFreelist.length) ∧
    ((fcbReserve files fidt num).2.2.ok = true →
      Granted files fidt num (fcbReserve files fidt num) ∧
      GivenBack files fidt num
        (fcbUnreserve (fcbReserve files fidt num).1 (fcbReserve files fidt num).2.1
        (fcbReserve files fidt num).2.2.slots)) ∧
    ((fcbReserve files fidt num).2.2.ok = false → (fcbReserve files fidt num).2.1 = fidt ∧
      (fcbReserve files fidt num).1.fcbFreelist.Perm files.fcbFreelist) := by
  have hiff : _ ↔ _ ∧ _ := @fcbReserve_ok_iff files fidt num hnd
  refine ⟨hiff, fun hok => ?_, fun hno => ?_⟩
  · obtain ⟨hfids, hfcbs⟩ := hiff.mp hok
    exact ⟨(fcbReserve_granted hfids hfcbs hnd).2, fcbUnreserve_givenBack hfids hfcbs hnd⟩
  · have hshort : (emptyFids fidt 0).length < num ∨ files.fcbFreelist.length < num := by
      by_contra hnot
      have hok := hiff.mpr (by omega)
      rw [hno] at hok
      exact absurd hok (by decide)
    exact (fcbReserve_refused hshort).2

/-- Two streams out of two FCBs. -/
theorem fcb_reserve_exact_two :
    Granted { initializeFiles with fcbFreelist := [3, 1] } (fun _ => none) 2
      (fcbReserve { initializeFiles with fcbFreelist := [3, 1] } (fun _ => none) 2) :=
  ((fcb_reserve_exact { initializeFiles with fcbFreelist := [3, 1] } (fun _ => none) 2
    (by decide)).2.1
    (by decide)).1

end TinyOS
