import Mathlib.Algebra.GroupWithZero.Nat
import Mathlib.Algebra.Order.BigOperators.Group.Finset
import TinyOS.Lib.Progress
import TinyOS.Symposium

/-! Every symposium comes to its end: the statements that remain are counted down by each statement
executed, and the table is never left with somebody hungry and nobody to run. -/

namespace TinyOS

open Monitors Transition

/-! ### What a philosopher has still to do -/

/-- The statements up to the end of this turn, for a thread inside whose philosopher has state
`s`. -/
def PhilPc.statements (s : Phil) : PhilPc → Nat
  | .hungry => 17
  | .test .self => 16
  | .take .self => 15
  | .signal .self => 14
  -- a hungry philosopher waits, and tests again when it is woken
  | .loop => if s = .hungry then 15 else 13
  | .check => 12
  | .served => 11
  | .done => 8
  | .test .left => 7
  | .take .left => 6
  | .signal .left => 5
  | .test .right => 4
  | .take .right => 3
  | .signal .right => 2
  | .freed | .arrived | .leaving => 1
  | .arrive | .leave => 2
  | .start | .think | .eat | .gone => 0

def PhilThread.afterwards (bites : Nat) (x : PhilThread) : Nat :=
  match x.pc with
  | .start | .arrive | .arrived => 19 * (bites - x.j) + 4
  | .leave | .leaving | .gone => 0
  | _ => 19 * (bites - (x.j + 1)) + 4

def philosopherWork (bites : Nat) (s : Phil) : Position PhilThread Nat → Nat
  | .out x =>
    match x.pc with
    | .start => 4 + x.afterwards bites
    | .think => 19 * (bites - x.j) + 4
    | .eat => 10 + x.afterwards bites
    | _ => 0
  | .locking x => x.pc.statements s + 1 + x.afterwards bites
  | .inside x => x.pc.statements s + x.afterwards bites
  | .waiting _ x => 14 + x.afterwards bites

def Table.workOf (bites : Nat) (m : Table) (i : Nat) : Nat :=
  (m.places[i]?).elim 0 (philosopherWork bites (m.shared i))

def Table.work (n bites : Nat) (m : Table) : Nat := ∑ i ∈ Finset.range n, m.workOf bites i

def statementsOf : Event → Nat
  | .run _ => 1
  | .wake _ => 0

/-- The statements that an event adds: to lock the mutex and to test again. -/
def repeatedBy : Event → Nat
  | .run _ => 0
  | .wake _ => 2

/-- The bites that a philosopher can have had at a place of its code. -/
def PhilThread.Counted (bites : Nat) (x : PhilThread) : Prop :=
  match x.pc with
  | .start | .arrive | .arrived => x.j = 0
  | .think => x.j ≤ bites
  | .leave | .leaving | .gone => x.j = bites
  | _ => x.j < bites

/-- What holds besides `Table.Inv`: whoever is signalled eats, and the bites are counted. -/
structure Table.Counts (n bites : Nat) (m : Table) : Prop extends Table.Inv n m where
  signalled : ∀ (t : Nat) (x : PhilThread) (k : TrySite), m.places[t]? = some (.inside x) →
    x.pc = .signal k → m.shared (k.target n t) = .eating
  counted : ∀ (i : Nat) (p : Position PhilThread Nat), m.places[i]? = some p → p.data.Counted bites

/-! ### The bites -/

section Counts

variable {n bites t : Nat} {m m' : Table} {x y : PhilThread} {e : Event}

theorem counted_outside {o : Out PhilThread} (h : x.Counted bites)
    (ho : philosopherOutside bites x = some o)
    (hy : o.data = some y) : y.Counted bites := by
  unfold philosopherOutside at ho
  split at ho
  · rename_i hpc
    obtain rfl := Option.some.inj ho
    obtain rfl := Option.some.inj hy
    simpa [PhilThread.Counted, hpc, PhilThread.goto] using h
  · rename_i hpc
    obtain rfl := Option.some.inj ho
    obtain rfl := Option.some.inj hy
    simp only [PhilThread.Counted, hpc] at h
    by_cases hj : x.j < bites
    · simp [PhilThread.Counted, PhilThread.goto, hj]
    · simp only [PhilThread.Counted, PhilThread.goto, if_neg hj]
      omega
  · rename_i hpc
    obtain rfl := Option.some.inj ho
    obtain rfl := Option.some.inj hy
    simpa [PhilThread.Counted, hpc, PhilThread.goto] using h
  · simp at ho

theorem counted_inside {state : Nat → Phil} (h : x.Counted bites)
    (hy : (philosopherInside n t x state).data = some y) : y.Counted bites := by
  have hgoto : ∀ pc, x.goto pc = y → (PhilThread.mk pc x.j).Counted bites → y.Counted bites :=
    fun _ he hc => he ▸ hc
  cases hpc : x.pc with
  | test k =>
    simp only [philosopherInside, hpc, Act.data, Option.some.injEq] at hy
    simp only [PhilThread.Counted, hpc] at h
    refine hgoto _ hy ?_
    split
    · exact h
    · cases k <;> exact h
  | signal k =>
    simp only [philosopherInside, hpc, Act.data, Option.some.injEq] at hy
    simp only [PhilThread.Counted, hpc] at h
    refine hgoto _ hy ?_
    cases k <;> exact h
  | loop =>
    simp only [philosopherInside, hpc] at hy
    simp only [PhilThread.Counted, hpc] at h
    split at hy
    · obtain rfl := Option.some.inj hy
      simpa [PhilThread.Counted, hpc] using h
    · exact hgoto _ (Option.some.inj hy) h
  | check =>
    simp only [philosopherInside, hpc] at hy
    simp only [PhilThread.Counted, hpc] at h
    split at hy
    · exact hgoto _ (Option.some.inj hy) h
    · simp [Act.data] at hy
  | freed =>
    simp only [philosopherInside, hpc] at hy
    simp only [PhilThread.Counted, hpc] at h
    obtain rfl := Option.some.inj hy
    exact h
  | arrived =>
    simp only [philosopherInside, hpc] at hy
    simp only [PhilThread.Counted, hpc] at h
    exact hgoto _ (Option.some.inj hy) (by simp [PhilThread.Counted, h])
  | _ =>
    simp only [philosopherInside, hpc] at hy
    simp only [PhilThread.Counted, hpc] at h
    obtain rfl := Option.some.inj hy
    simpa [PhilThread.Counted, PhilThread.goto, hpc] using h

/-- Only the thread that makes a philosopher eat comes to signal it. -/
theorem inside_signal {state : Nat → Phil} {k : TrySite} (hy : y.pc = .signal k)
    (h : (philosopherInside n t x state).data = some y) : x.pc = .take k := by
  have hnext : ∀ l : TrySite, l.next ≠ .signal k := by
    intro l
    cases l <;> simp [TrySite.next]
  have hgoto : ∀ pc, x.goto pc = y → pc = .signal k := fun _ he =>
    (congrArg PhilThread.pc he).trans hy
  cases hpc : x.pc with
  | take l =>
    simp only [philosopherInside, hpc, Act.data, Option.some.injEq] at h
    rw [PhilPc.signal.inj (hgoto _ h)]
  | test l =>
    simp only [philosopherInside, hpc, Act.data, Option.some.injEq] at h
    have hto := hgoto _ h
    split at hto
    · simp at hto
    · exact absurd hto (hnext l)
  | signal l =>
    simp only [philosopherInside, hpc, Act.data, Option.some.injEq] at h
    exact absurd (hgoto _ h) (hnext l)
  | loop =>
    simp only [philosopherInside, hpc] at h
    split at h
    · obtain rfl := Option.some.inj h
      simp [hpc] at hy
    · simpa using hgoto _ (Option.some.inj h)
  | check =>
    simp only [philosopherInside, hpc] at h
    split at h
    · simpa using hgoto _ (Option.some.inj h)
    · simp [Act.data] at h
  | _ =>
    simp only [philosopherInside, hpc] at h
    obtain rfl := Option.some.inj h
    simp [PhilThread.goto, hpc] at hy

theorem Table.Counts.signals (h : Counts n bites m) (hs : Steps (philosopher n bites) m m')
    (hp' : m'.places[t]? = some (.inside x)) {k : TrySite} (hk : x.pc = .signal k) :
    m'.shared (k.target n t) = .eating := by
  have hkept : ∀ {u : Nat} {p q : Position PhilThread Nat}, m.places[u]? = some p →
      (∀ z, q ≠ .inside z) → (m.places.set u q)[t]? = some (.inside x) →
      m.shared (k.target n t) = .eating := by
    intro u p q hp hq hset
    by_cases htu : t = u
    · subst htu
      exact absurd (Option.some.inj ((getElem?_set_self hp q).symm.trans hset)) (hq x)
    · exact h.signalled t x k ((getElem?_set_other htu q).symm.trans hset) hk
  have hinv := h.toInv.steps hs
  cases hs with
  | move hp => exact hkept hp (by simp) hp'
  | lock hp => exact hkept hp (by simp) hp'
  | quit => exact h.signalled t x k hp' hk
  | wake hp => exact hkept hp (by simp) hp'
  | @enter u z hp =>
    by_cases htu : t = u
    · subst htu
      obtain rfl := Position.inside.inj (Option.some.inj ((getElem?_set_self hp _).symm.trans hp'))
      obtain ⟨-, hfits⟩ := h.allowed t _ hp
      rcases hfits with hx | hx | hx | hx | hx <;> simp [hk] at hx
    · exact h.signalled t x k ((getElem?_set_other htu _).symm.trans hp') hk
  | @act u z hp =>
    obtain rfl : t = u := by
      rcases act_places hp _ hp' with ⟨htu, -⟩ | ⟨-, hin | ⟨q, c, hq, hr⟩⟩
      · exact htu
      · exact Option.some.inj ((h.disciplined.owned hin).symm.trans (h.disciplined.owned hp))
      · rw [rouse_inside_iff.mp hr.symm] at hq
        exact Option.some.inj ((h.disciplined.owned hq).symm.trans (h.disciplined.owned hp))
    rcases act_places hp _ hp' with ⟨-, hdata | ⟨hnone, -⟩⟩ | ⟨hne, -⟩
    · have hz := inside_signal hk hdata
      have hact : (philosopher n bites).inside t z m.shared =
          .goto (z.goto (.signal k)) (Function.update m.shared (k.target n t) .eating) := by
        simp [philosopher, philosopherInside, hz]
      rw [hact]
      exact Function.update_self ..
    · -- the thread inside has failed its assertion
      have hfailed := hinv.unfailed
      cases hact : (philosopher n bites).inside t z m.shared <;>
        simp [hact, Act.data, State.act] at hnone hfailed
    · exact absurd rfl hne

theorem Table.Counts.steps (h : Counts n bites m) (hs : Steps (philosopher n bites) m m') :
    Counts n bites m' := ⟨h.toInv.steps hs, fun _ _ _ hp' hk => h.signals hs hp' hk, fun _ _ hp' =>
    hs.data (D := fun _ x => x.Counted bites) (fun _ _ _ _ hx ho hy => counted_outside hx ho hy)
      (fun _ _ _ hx hy => counted_inside hx hy) h.counted hp'⟩

theorem Table.Counts.start (n bites : Nat) : Counts n bites (tableInit n) := by
  have hplaces : ∀ (i : Nat) p, (tableInit n).places[i]? = some p →
      p = Position.out (PhilThread.mk .start 0) := by
    intro i p hp
    simp only [tableInit, List.map_replicate, List.getElem?_replicate] at hp
    split at hp
    · exact (Option.some.inj hp).symm
    · simp at hp
  refine ⟨Inv.start n, fun t x k hp _ => ?_, fun i p hp => ?_⟩
  · have := hplaces t _ hp
    simp at this
  · rw [hplaces i p hp]
    exact (rfl : (0 : Nat) = 0)

end Counts

/-! ### The work that is left -/

section Work

variable {n bites t d a : Nat} {m m' : Table} {x y : PhilThread} {p q : Position PhilThread Nat}
  {s : Phil}

theorem philosopherWork_eating (p : Position PhilThread Nat) :
    philosopherWork bites .eating p ≤ philosopherWork bites s p := by
  have hle : ∀ pc : PhilPc, pc.statements .eating ≤ pc.statements s := by
    intro pc
    cases pc with
    | loop =>
      simp only [PhilPc.statements, reduceCtorEq, if_false]
      split <;> omega
    | test k | take k | signal k => cases k <;> exact Nat.le_refl _
    | _ => exact Nat.le_refl _
  cases p with
  | out x => exact Nat.le_refl _
  | waiting c x => exact Nat.le_refl _
  | locking x =>
    have := hle x.pc
    simp only [philosopherWork]
    omega
  | inside x =>
    have := hle x.pc
    simp only [philosopherWork]
    omega

theorem Table.workOf_of_place (hp : m.places[t]? = some p) :
    m.workOf bites t = philosopherWork bites (m.shared t) p := by
  simp [Table.workOf, hp]

/-- One philosopher does some of its work, and nobody gets more. -/
theorem Table.work_le (ht : t < n) (hself : m'.workOf bites t + d ≤ m.workOf bites t + a)
    (hothers : ∀ i, i ≠ t → m'.workOf bites i ≤ m.workOf bites i) :
    m'.work n bites + d ≤ m.work n bites + a := by
  have hmem : t ∈ Finset.range n := Finset.mem_range.mpr ht
  have hrest : ∑ i ∈ (Finset.range n).erase t, m'.workOf bites i ≤ ∑ i ∈ (Finset.range n).erase t,
      m.workOf bites i := Finset.sum_le_sum fun i hi => hothers i (Finset.ne_of_mem_erase hi)
  unfold Table.work
  rw [← Finset.add_sum_erase _ _ hmem, ← Finset.add_sum_erase _ _ hmem]
  omega

/-- A thread moves; the states of the others stay, or become eating. -/
theorem Table.work_set (ht : t < n) (hp : m.places[t]? = some p)
    (hplaces : m'.places = m.places.set t q)
    (hself : philosopherWork bites (m'.shared t) q + d ≤ philosopherWork bites (m.shared t) p + a)
    (hothers : ∀ i, i ≠ t → m'.shared i = m.shared i ∨ m'.shared i = .eating) :
    m'.work n bites + d ≤ m.work n bites + a := by
  have hq : m'.places[t]? = some q := hplaces ▸ getElem?_set_self hp q
  refine Table.work_le ht ?_ fun i hi => ?_
  · rw [Table.workOf_of_place hq, Table.workOf_of_place hp]
    exact hself
  · have hsame : m'.places[i]? = m.places[i]? := by rw [hplaces, getElem?_set_other hi]
    unfold Table.workOf
    rw [hsame]
    cases m.places[i]? with
    | none => exact Nat.le_refl _
    | some r =>
      rcases hothers i hi with he | he
      · rw [he]
      · rw [he]
        exact philosopherWork_eating r

theorem work_lock (ho : philosopherOutside bites x = some (.lock y)) :
    philosopherWork bites s (.locking y) + 1 ≤ philosopherWork bites s (.out x) := by
  unfold philosopherOutside at ho
  split at ho
  · rename_i hpc
    obtain rfl := Out.lock.inj (Option.some.inj ho)
    simp only [philosopherWork, PhilThread.afterwards, PhilThread.goto, PhilPc.statements, hpc]
    omega
  · rename_i hpc
    obtain rfl := Out.lock.inj (Option.some.inj ho)
    by_cases hj : x.j < bites
    · simp only [philosopherWork, PhilThread.afterwards, PhilThread.goto,
        if_pos hj, PhilPc.statements, hpc]
      omega
    · simp only [philosopherWork, PhilThread.afterwards, PhilThread.goto,
        if_neg hj, PhilPc.statements, hpc]
      omega
  · rename_i hpc
    obtain rfl := Out.lock.inj (Option.some.inj ho)
    simp only [philosopherWork, PhilThread.afterwards, PhilThread.goto, PhilPc.statements, hpc]
    omega
  · simp at ho

theorem Table.Counts.work_signal (h : Counts n bites m) {k : TrySite}
    (hp : m.places[t]? = some (.inside x))
    (hk : x.pc = .signal k) :
    Table.work n bites ((m.signal (k.target n t)).put t (.inside (x.goto k.next))) + 1 ≤
    m.work n bites := by
  have hp₁ := signal_inside (c := k.target n t).mpr hp
  have heats := h.signalled t x k hp hk
  obtain ⟨hallows, -⟩ := h.allowed t _ hp
  refine Table.work_le (a := 0) (h.lt hp) ?_ fun i hi => ?_
  · rw [Table.workOf_of_place (getElem?_set_self hp₁ _), Table.workOf_of_place hp]
    show philosopherWork bites ((m.signal _).shared t) _ + 1 ≤ _
    rw [signal_shared]
    simp only [Position.data, hk] at hallows
    cases k with
    | self =>
      simp only [PhilPc.allows] at hallows
      simp only [philosopherWork, PhilThread.goto, TrySite.next, hk, hallows,
        PhilPc.statements, PhilThread.afterwards,
        reduceCtorEq, if_false]
      omega
    | left =>
      simp only [philosopherWork, PhilThread.goto, TrySite.next, hk, PhilPc.statements,
        PhilThread.afterwards]
      omega
    | right =>
      simp only [philosopherWork, PhilThread.goto, TrySite.next, hk, PhilPc.statements,
        PhilThread.afterwards]
      omega
  · have hplace : ((m.signal (k.target n t)).put t (.inside (x.goto k.next))).places[i]? =
        (m.signal (k.target n t)).places[i]? := getElem?_set_other hi _
    unfold Table.workOf
    rw [hplace]
    show ((m.signal _).places[i]?).elim 0 (philosopherWork bites ((m.signal _).shared i)) ≤ _
    rw [signal_shared]
    rcases signal_places m (k.target n t) i with hs | hs
    · rw [hs]
    · rw [hs]
      cases hq : m.places[i]? with
      | none => exact Nat.le_refl _
      | some q =>
        obtain ⟨-, hfits⟩ := h.allowed i q hq
        show philosopherWork bites (m.shared i) (q.rouse _) ≤ philosopherWork bites (m.shared i) q
        cases q with
        | waiting c z =>
          obtain ⟨rfl, hz⟩ := hfits
          by_cases htarget : c = k.target n t
          · subst htarget
            simp [Position.rouse, philosopherWork, heats, hz, PhilPc.statements]
          · simp [Position.rouse, if_neg htarget]
        | _ => exact Nat.le_refl _

theorem Table.Counts.work_act (h : Counts n bites m) (hp : m.places[t]? = some (.inside x)) :
    Table.work n bites (m.act t (philosopherInside n t x m.shared)) + 1 ≤ m.work n bites := by
  have ht := h.lt hp
  obtain ⟨hallows, hfits⟩ := h.allowed t _ hp
  have hother : ∀ (v : Phil) i, i ≠ t → Function.update m.shared t v i = m.shared i ∨
      Function.update m.shared t v i = .eating := fun v i hi => .inl (Function.update_of_ne hi ..)
  have hsame : ∀ i, i ≠ t → m.shared i = m.shared i ∨ m.shared i = .eating := fun _ _ => .inl rfl
  cases hpc : x.pc with
  | start => exact absurd hpc hfits.1
  | think => exact absurd hpc hfits.2.1
  | eat => exact absurd hpc hfits.2.2.1
  | gone => exact absurd hpc hfits.2.2.2
  | arrive | hungry | done | leave =>
    simp only [philosopherInside, hpc]
    refine Table.work_set (a := 0) ht hp rfl ?_ (hother _)
    simp only [philosopherWork, PhilThread.goto, PhilThread.afterwards, PhilPc.statements, hpc]
    omega
  | test k =>
    simp only [philosopherInside, hpc]
    simp only [Position.data, hpc] at hallows
    refine Table.work_set (a := 0) ht hp rfl ?_ hsame
    show philosopherWork bites (m.shared t) _ + 1 ≤ _
    split
    · cases k <;> simp only [philosopherWork, PhilThread.goto, PhilThread.afterwards,
        PhilPc.statements, hpc] <;> omega
    · cases k with
      | self =>
        simp only [PhilPc.allows] at hallows
        simp only [philosopherWork, PhilThread.goto, TrySite.next, PhilThread.afterwards,
          PhilPc.statements, hpc, hallows, if_true]
        omega
      | left | right =>
        simp only [philosopherWork, PhilThread.goto, TrySite.next, PhilThread.afterwards,
          PhilPc.statements, hpc]
        omega
  | take k =>
    simp only [philosopherInside, hpc]
    refine Table.work_set (a := 0) ht hp rfl ?_ fun i hi => ?_
    · cases k <;> simp only [philosopherWork, PhilThread.goto, PhilThread.afterwards,
        PhilPc.statements, hpc] <;> omega
    · show Function.update m.shared (k.target n t) .eating i = _ ∨
        Function.update m.shared (k.target n t) .eating i = _
      by_cases hit : i = k.target n t
      · exact .inr (by rw [hit, Function.update_self])
      · exact .inl (Function.update_of_ne hit ..)
  | signal k =>
    simp only [philosopherInside, hpc]
    exact h.work_signal hp hpc
  | loop =>
    simp only [philosopherInside, hpc]
    by_cases hhungry : m.shared t = .hungry
    · rw [if_pos hhungry]
      refine Table.work_set (a := 0) ht hp rfl ?_ hsame
      simp only [philosopherWork, PhilThread.afterwards, PhilPc.statements, hpc, if_pos hhungry]
      omega
    · rw [if_neg hhungry]
      refine Table.work_set (a := 0) ht hp rfl ?_ hsame
      simp only [philosopherWork, PhilThread.goto, PhilThread.afterwards,
        PhilPc.statements, hpc, if_neg hhungry]
      omega
  | check =>
    simp only [Position.data, hpc, PhilPc.allows] at hallows
    simp only [philosopherInside, hpc, if_pos hallows]
    refine Table.work_set (a := 0) ht hp rfl ?_ hsame
    simp only [philosopherWork, PhilThread.goto, PhilThread.afterwards, PhilPc.statements, hpc]
    omega
  | arrived | served | freed | leaving =>
    simp only [philosopherInside, hpc]
    refine Table.work_set (a := 0) ht hp rfl ?_ hsame
    simp only [philosopherWork, PhilThread.goto, PhilThread.afterwards, PhilPc.statements, hpc]
    omega

/-- A statement does some of the work; to wake up without a signal adds two statements. -/
theorem Table.Counts.work_step {e : Event} (h : Counts n bites m)
    (hs : m.step (philosopher n bites) e = some m') :
    m'.work n bites + statementsOf e ≤ m.work n bites + repeatedBy e := by
  cases e with
  | wake u =>
    simp only [State.step] at hs
    split at hs
    · rename_i c x hp
      obtain rfl := Option.some.inj hs
      obtain ⟨-, -, hx⟩ := h.allowed u _ hp
      refine Table.work_set (h.lt hp) hp rfl ?_ fun _ _ => .inl rfl
      simp only [philosopherWork, hx, PhilPc.statements, statementsOf, repeatedBy]
      split <;> omega
    · simp at hs
  | run u =>
    simp only [State.step] at hs
    split at hs
    · rename_i x hp
      split at hs
      · rename_i y ho
        have ho' : philosopherOutside bites x = some (.move y) := ho
        unfold philosopherOutside at ho'
        split at ho' <;> simp at ho'
      · rename_i y ho
        obtain rfl := Option.some.inj hs
        exact Table.work_set (a := 0) (h.lt hp) hp rfl (work_lock ho) fun _ _ => .inl rfl
      · rename_i ho
        have ho' : philosopherOutside bites x = some .fail := ho
        unfold philosopherOutside at ho'
        split at ho' <;> simp at ho'
      · simp at hs
    · rename_i x hp
      obtain ⟨-, rfl⟩ : m.mutex = none ∧ _ = m' := by simpa using hs
      refine Table.work_set (a := 0) (h.lt hp) hp rfl ?_ fun _ _ => .inl rfl
      simp only [philosopherWork, State.put, statementsOf]
      omega
    · rename_i x hp
      obtain rfl := Option.some.inj hs
      exact h.work_act hp
    · simp at hs

/-- The first work: `bites` turns, and to arrive and to leave. -/
theorem Table.work_start (n bites : Nat) : (tableInit n).work n bites = n * (19 * bites + 8) := by
  have heach : ∀ i ∈ Finset.range n, (tableInit n).workOf bites i = 19 * bites + 8 := by
    intro i hi
    simp [Table.workOf, tableInit, Finset.mem_range.mp hi, philosopherWork,
      PhilThread.afterwards]
    omega
  rw [Table.work, Finset.sum_congr rfl heach, Finset.sum_const, Finset.card_range, Nat.nsmul_eq_mul]

end Work

/-! ### The end -/

/-- Everybody has eaten all the bites and has left. -/
def Table.Over (n bites : Nat) (m : Table) : Prop :=
  m.mutex = none ∧ m.places = List.replicate n (.out ⟨.gone, bites⟩) ∧
    ∀ i, i < n → m.shared i = .notHere

section Ends

variable {n bites : Nat} {m m' : Table}

theorem Table.Counts.start_reach {ok : Table → Event → Prop}
    (h : Reach (State.step (philosopher n bites)) ok (tableInit n) m) : Counts n bites m :=
  h.invariant (start n bites) fun _ _ _ hu _ hs => hu.steps (steps_of_step hs)

/-- A table at which nobody can run is over: a neighbour of whoever is hungry would be eating. -/
theorem Table.Counts.ended (h : Counts n bites m) (hs : m.Stuck (philosopher n bites)) :
    m.Over n bites := by
  obtain ⟨hfree, hplaces⟩ := h.disciplined.stuck hs
  have hok := h.ok
  rw [holder_of_free hfree] at hok
  have hgone : ∀ {x : PhilThread}, x.pc = .start ∨ x.pc = .think ∨ x.pc = .eat ∨ x.pc = .gone →
      philosopherOutside bites x = none → x.pc = .gone := by
    intro x hx ho
    rcases hx with hx | hx | hx | hx
    · simp [philosopherOutside, hx] at ho
    · simp [philosopherOutside, hx] at ho
    · simp [philosopherOutside, hx] at ho
    · exact hx
  have hnobody : ∀ j, j < n → m.shared j ≠ .eating := by
    intro j hj heats
    obtain ⟨p, hp⟩ : ∃ p, m.places[j]? = some p :=
      ⟨_, List.getElem?_eq_getElem (h.length.symm ▸ hj)⟩
    rcases hplaces j p hp with ⟨c, x, rfl⟩ | ⟨x, rfl, ho⟩
    · obtain ⟨t, y, k, hy, -⟩ := hok.woken j ⟨c, x, hp⟩ heats
      simp at hy
    · obtain ⟨hallows, hfits⟩ := h.allowed j _ hp
      have hx := hgone hfits ho
      simp [Position.data, hx, PhilPc.allows, heats] at hallows
  have hout : ∀ (i : Nat) (p : Position PhilThread Nat), m.places[i]? = some p →
      p = .out ⟨.gone, bites⟩ := by
    intro i p hp
    have hi := h.lt hp
    obtain ⟨hallows, hfits⟩ := h.allowed i p hp
    rcases hplaces i p hp with ⟨c, x, rfl⟩ | ⟨x, rfl, ho⟩
    · simp only [Position.data, hfits.2, PhilPc.allows] at hallows
      rcases hallows with hhungry | heats
      · rcases hok.hungry i hi hhungry with hl | hr | ⟨t, y, hy, -⟩
        · exact absurd hl (hnobody _ (leftOf_lt (by omega) i))
        · exact absurd hr (hnobody _ (rightOf_lt (by omega) i))
        · simp at hy
      · exact absurd heats (hnobody i hi)
    · have hx := hgone hfits ho
      have hj := h.counted i _ hp
      simp only [Position.data, PhilThread.Counted, hx] at hj
      obtain ⟨pc, j⟩ := x
      obtain rfl : pc = .gone := hx
      obtain rfl : j = bites := hj
      rfl
  have hall : m.places = List.replicate n (.out ⟨.gone, bites⟩) := by
    refine List.eq_replicate_iff.mpr ⟨h.length, fun p hp => ?_⟩
    obtain ⟨i, hi⟩ := List.mem_iff_getElem?.mp hp
    exact hout i p hi
  refine ⟨hfree, hall, fun i hi => ?_⟩
  have hp : m.places[i]? = some (.out ⟨.gone, bites⟩) := by
    rw [hall, List.getElem?_replicate, if_pos hi]
  exact (h.allowed i _ hp).1

/-- The threads that have left execute nothing more. -/
theorem Table.Over.stuck (h : m.Over n bites) : m.Stuck (philosopher n bites) := by
  obtain ⟨-, hplaces, -⟩ := h
  intro t
  by_cases ht : t < n
  · have hp : m.places[t]? = some (.out ⟨.gone, bites⟩) := by
      rw [hplaces, List.getElem?_replicate, if_pos ht]
    simp [State.step, hp, philosopher, philosopherOutside]
  · have hp : m.places[t]? = none := by rw [hplaces, List.getElem?_replicate, if_neg ht]
    simp [State.step, hp]

theorem Table.Counts.finishes (h : Counts n bites m) :
    ∃ m', Reach (State.step (philosopher n bites)) (fun _ e => statementsOf e = 1) m m' ∧
    Table.Over n bites m' := by
  refine exists_reach_over (Table.work n bites) (fun _ _ _ hu hs => hu.steps (steps_of_step hs))
    (fun u hu hover => ?_) h
  have hrun : ¬u.Stuck (philosopher n bites) := fun hs => hover (hu.ended hs)
  obtain ⟨t, ht⟩ := not_forall.mp hrun
  obtain ⟨v, hs⟩ := Option.ne_none_iff_exists'.mp ht
  have hwork := hu.work_step hs
  simp only [statementsOf, repeatedBy] at hwork
  exact ⟨.run t, v, rfl, hs, by omega⟩

end Ends

/-- The philosophers execute at most so many statements, whoever runs when, and two more for each
time one of them wakes up by itself; nobody can run exactly when all have eaten their bites and
left; and to that every run can go on. -/
theorem symposium_ends {n bites : Nat} {es : List Event} {m : Table}
    (h : exec (State.step (philosopher n bites)) (tableInit n) es = some m) :
    (es.map statementsOf).sum ≤ n * (19 * bites + 8) + (es.map repeatedBy).sum ∧
      (m.Stuck (philosopher n bites) ↔ m.Over n bites) ∧
      ∃ m', Reach (State.step (philosopher n bites)) (fun _ e => statementsOf e = 1) m m' ∧
      Table.Over n bites m' := by
  have hm : Table.Counts n bites m := .start_reach (reach_of_exec h)
  refine ⟨?_, ⟨hm.ended, Table.Over.stuck⟩, hm.finishes⟩
  have hwork : m.work n bites + (es.map statementsOf).sum ≤ (tableInit n).work n bites +
      (es.map repeatedBy).sum :=
    exec_work h (I := Table.Counts n bites) (.start n bites)
      (fun _ _ _ hu hs => hu.steps (steps_of_step hs))
      fun _ _ _ hu hs => hu.work_step hs
  rw [Table.work_start] at hwork
  omega

/-- Philosopher 1 wakes up by itself while philosopher 0 eats, and both come to leave. -/
theorem symposium_ends_two : ∃ m m' : Table, m.places[1]? = some (.locking ⟨.loop, 0⟩) ∧
    m.shared 0 = .eating ∧ Reach (State.step (philosopher 2 1))
    (fun _ e => statementsOf e = 1) m m' ∧ m'.Over 2 1 := by
  obtain ⟨m, hm, hp⟩ : ∃ m, exec (State.step (philosopher 2 1)) (tableInit 2)
      (List.replicate 13 (.run 0) ++ List.replicate 9 (.run 1) ++ [.wake 1]) = some m ∧
      (m.places[1]? = some (.locking ⟨.loop, 0⟩) && m.shared 0 = .eating) = true :=
    (Option.any_eq_true _ _).mp (by decide +kernel)
  simp only [Bool.and_eq_true, decide_eq_true_eq] at hp
  obtain ⟨hplace, heats⟩ := hp
  obtain ⟨-, -, m', hreach, hover⟩ := symposium_ends hm
  exact ⟨m, m', hplace, heats, hreach, hover⟩

end TinyOS
