import TinyOS.Lib.Locks
import TinyOS.Lib.Transition
import Mathlib.Data.List.Basic
import Mathlib.Logic.Function.Basic

/-! Programs written as monitors: one mutex, condition variables, and threads that execute one
statement at a time. A sleeping thread may also wake up by itself. -/

namespace Monitors

open Transition

variable {σ L C : Type*}

/-- Where a thread is, with its local data: outside the mutex, about to lock it, inside, or asleep
on a condition variable and not signalled. -/
inductive Position (L C : Type*)
  | out (l : L)
  | locking (l : L)
  | inside (l : L)
  | waiting (c : C) (l : L)
deriving DecidableEq

def Position.data : Position L C → L
  | .out l | .locking l | .inside l | .waiting _ l => l

inductive Act (σ L C : Type*)
  | goto (l : L) (s : σ)
  | unlock (l : L)
  | wait (c : C) (l : L)
  | signal (c : C) (l : L) (s : σ)
  | broadcast (c : C) (l : L) (s : σ)
  | fail

inductive Out (L : Type*)
  | move (l : L)
  | lock (l : L)
  | fail

structure Code (σ L C : Type*) where
  inside : Nat → L → σ → Act σ L C
  outside : Nat → L → Option (Out L)

/-- The waiters of a condition variable are in the order of their arrival. -/
structure State (σ L C : Type*) where
  mutex : Option Nat
  shared : σ
  waitset : C → List Nat
  places : List (Position L C)
  failed : Bool

inductive Event
  | run (t : Nat)
  | wake (t : Nat)
deriving DecidableEq

def State.put (m : State σ L C) (t : Nat) (p : Position L C) : State σ L C :=
  { m with places := m.places.set t p }

variable [DecidableEq C]

def Position.rouse (c : C) : Position L C → Position L C
  | .waiting d l => if d = c then .locking l else .waiting d l
  | p => p

def State.signal (m : State σ L C) (c : C) : State σ L C :=
  match m.waitset c with
  | [] => m
  | w :: ws => { m with
      waitset := Function.update m.waitset c ws, places := m.places.modify w (Position.rouse c) }

def State.broadcast (m : State σ L C) (c : C) : State σ L C :=
  { m with waitset := Function.update m.waitset c [], places := m.places.map (Position.rouse c) }

def State.act (m : State σ L C) (t : Nat) : Act σ L C → State σ L C
  | .goto l s => { m with shared := s }.put t (.inside l)
  | .unlock l => { m with mutex := none }.put t (.out l)
  | .wait c l =>
    { m with mutex := none, waitset := Function.update m.waitset c (m.waitset c ++ [t]) }.put t
      (.waiting c l)
  | .signal c l s => ({ m with shared := s }.signal c).put t (.inside l)
  | .broadcast c l s => ({ m with shared := s }.broadcast c).put t (.inside l)
  | .fail => { m with failed := true }

def State.step (P : Code σ L C) (m : State σ L C) : Event → Option (State σ L C)
  | .run t =>
    match m.places[t]? with
    | some (.out l) =>
      match P.outside t l with
      | some (.move l) => some (m.put t (.out l))
      | some (.lock l) => some (m.put t (.locking l))
      | some .fail => some { m with failed := true }
      | none => none
    | some (.locking l) =>
      if m.mutex = none then some ({ m with mutex := some t }.put t (.inside l)) else none
    | some (.inside l) => some (m.act t (P.inside t l m.shared))
    | _ => none
  | .wake t =>
    match m.places[t]? with
    | some (.waiting c l) =>
      some ({ m with waitset := Function.update m.waitset c ((m.waitset c).erase t) }.put t
        (.locking l))
    | _ => none

inductive Steps (P : Code σ L C) (m : State σ L C) : State σ L C → Prop
  | move {t : Nat} {l l' : L} : m.places[t]? = some (.out l) → P.outside t l = some (.move l') →
      Steps P m (m.put t (.out l'))
  | lock {t : Nat} {l l' : L} : m.places[t]? = some (.out l) → P.outside t l = some (.lock l') →
      Steps P m (m.put t (.locking l'))
  | quit {t : Nat} {l : L} : m.places[t]? = some (.out l) → P.outside t l = some .fail →
      Steps P m { m with failed := true }
  | enter {t : Nat} {l : L} : m.places[t]? = some (.locking l) → m.mutex = none →
      Steps P m ({ m with mutex := some t }.put t (.inside l))
  | act {t : Nat} {l : L} :
      m.places[t]? = some (.inside l) → Steps P m (m.act t (P.inside t l m.shared))
  | wake {t : Nat} {c : C} {l : L} : m.places[t]? = some (.waiting c l) →
      Steps P m ({ m with waitset := Function.update m.waitset c ((m.waitset c).erase t) }.put t
        (.locking l))

theorem steps_of_step {P : Code σ L C} {m m' : State σ L C} {e : Event}
    (h : m.step P e = some m') : Steps P m m' := by
  cases e with
  | run t =>
    simp only [State.step] at h
    split at h
    · rename_i l hp
      split at h
      · rename_i l' ho
        obtain rfl := Option.some.inj h
        exact .move hp ho
      · rename_i l' ho
        obtain rfl := Option.some.inj h
        exact .lock hp ho
      · rename_i ho
        obtain rfl := Option.some.inj h
        exact .quit hp ho
      · simp at h
    · rename_i l hp
      obtain ⟨hfree, rfl⟩ : m.mutex = none ∧ _ = m' := by simpa using h
      exact .enter hp hfree
    · rename_i l hp
      obtain rfl := Option.some.inj h
      exact .act hp
    · simp at h
  | wake t =>
    simp only [State.step] at h
    split at h
    · rename_i c l hp
      obtain rfl := Option.some.inj h
      exact .wake hp
    · simp at h

/-- The mutex belongs to the thread that is inside, and the waiters are the threads asleep. -/
structure Disciplined (m : State σ L C) : Prop where
  owner : ∀ t, m.mutex = some t ↔ ∃ l, m.places[t]? = some (.inside l)
  queued : ∀ c t, t ∈ m.waitset c ↔ ∃ l, m.places[t]? = some (.waiting c l)
  nodup : ∀ c, (m.waitset c).Nodup

section Rouse

variable {m : State σ L C} {t u : Nat} {c d : C} {l : L} {p : Position L C}

@[simp] theorem rouse_data (c : C) (p : Position L C) : (p.rouse c).data = p.data := by
  unfold Position.rouse
  split
  · split <;> rfl
  · rfl

theorem rouse_inside_iff : p.rouse c = .inside l ↔ p = .inside l := by
  unfold Position.rouse
  split
  · split <;> simp
  · rfl

theorem rouse_waiting_iff : p.rouse c = .waiting d l ↔ d ≠ c ∧ p = .waiting d l := by
  unfold Position.rouse
  split
  · rename_i c' l'
    split
    · rename_i hc
      simp only [reduceCtorEq, Position.waiting.injEq, false_iff, not_and]
      rintro hd rfl
      exact absurd hc hd
    · rename_i hc
      simp only [Position.waiting.injEq]
      constructor
      · rintro ⟨rfl, rfl⟩
        exact ⟨hc, rfl, rfl⟩
      · exact fun h => h.2
  · rename_i hp
    constructor
    · rintro rfl
      exact absurd rfl (hp d l)
    · exact fun h => h.2

omit [DecidableEq C] in
theorem getElem?_set_self (hp : m.places[t]? = some p) (p' : Position L C) :
    (m.places.set t p')[t]? = some p' := by
  obtain ⟨ht, -⟩ := List.getElem?_eq_some_iff.mp hp
  rw [List.getElem?_set_self ht]

omit [DecidableEq C] in
theorem getElem?_set_other (ht : u ≠ t) (p' : Position L C) :
    (m.places.set t p')[u]? = m.places[u]? :=
  List.getElem?_set_ne (Ne.symm ht)

theorem signal_places (m : State σ L C) (c : C) (t : Nat) : (m.signal c).places[t]? = m.places[t]? ∨
    (m.signal c).places[t]? = (m.places[t]?).map (Position.rouse c) := by
  unfold State.signal
  split
  · exact .inl rfl
  · rename_i w ws hw
    show (m.places.modify w _)[t]? = _ ∨ (m.places.modify w _)[t]? = _
    by_cases ht : t = w
    · subst ht
      exact .inr (List.getElem?_modify_eq _ _ _)
    · exact .inl (List.getElem?_modify_ne _ _ (Ne.symm ht))

theorem broadcast_places (m : State σ L C) (c : C) (t : Nat) :
    (m.broadcast c).places[t]? = (m.places[t]?).map (Position.rouse c) :=
  List.getElem?_map

theorem signal_inside : (m.signal c).places[t]? = some (.inside l) ↔
    m.places[t]? = some (.inside l) := by
  rcases signal_places m c t with hs | hs
  · rw [hs]
  · rw [hs, Option.map_eq_some_iff]
    constructor
    · rintro ⟨p, hp, hr⟩
      rw [hp, rouse_inside_iff.mp hr]
    · exact fun hp => ⟨_, hp, rfl⟩

theorem broadcast_inside : (m.broadcast c).places[t]? = some (.inside l) ↔
    m.places[t]? = some (.inside l) := by
  rw [broadcast_places, Option.map_eq_some_iff]
  constructor
  · rintro ⟨p, hp, hr⟩
    rw [hp, rouse_inside_iff.mp hr]
  · exact fun hp => ⟨_, hp, rfl⟩

@[simp] theorem signal_shared (m : State σ L C) (c : C) : (m.signal c).shared = m.shared := by
  unfold State.signal
  split <;> rfl

@[simp] theorem signal_mutex (m : State σ L C) (c : C) : (m.signal c).mutex = m.mutex := by
  unfold State.signal
  split <;> rfl

@[simp] theorem signal_failed (m : State σ L C) (c : C) : (m.signal c).failed = m.failed := by
  unfold State.signal
  split <;> rfl

@[simp] theorem signal_length (m : State σ L C) (c : C) :
    (m.signal c).places.length = m.places.length := by
  unfold State.signal
  split <;> simp

theorem signal_waitset (m : State σ L C) (c : C) : (m.signal c).waitset c = (m.waitset c).tail := by
  unfold State.signal
  split
  · rename_i hw
    rw [hw, List.tail_nil]
  · rename_i w ws hw
    rw [hw]
    exact Function.update_self ..

omit [DecidableEq C] in
/-- One thread moves, and the mutex and the waiters follow it. -/
theorem Disciplined.put (h : Disciplined m) (hp : m.places[t]? = some p)
    {p' : Position L C} {m' : State σ L C}
    (hplaces : m'.places = m.places.set t p') (hself : m'.mutex = some t ↔ ∃ l, p' = .inside l)
    (hother : ∀ u, u ≠ t → (m'.mutex = some u ↔ m.mutex = some u))
    (hwaits : ∀ c, t ∈ m'.waitset c ↔ ∃ l, p' = .waiting c l)
    (hothers : ∀ c u, u ≠ t → (u ∈ m'.waitset c ↔ u ∈ m.waitset c))
    (hnodup : ∀ c, (m'.waitset c).Nodup) :
    Disciplined m' := by
  refine ⟨fun u => ?_, fun c u => ?_, hnodup⟩
  · by_cases hu : u = t
    · subst hu
      rw [hself, hplaces, getElem?_set_self hp]
      simp
    · rw [hother u hu, hplaces, getElem?_set_other hu]
      exact h.owner u
  · by_cases hu : u = t
    · subst hu
      rw [hwaits, hplaces, getElem?_set_self hp]
      simp
    · rw [hothers c u hu, hplaces, getElem?_set_other hu]
      exact h.queued c u

theorem Disciplined.signal (h : Disciplined m) (c : C) : Disciplined (m.signal c) := by
  refine ⟨fun t => ?_, fun d t => ?_, fun d => ?_⟩
  · simp only [signal_mutex, signal_inside]
    exact h.owner t
  · unfold State.signal
    split
    · exact h.queued d t
    · rename_i w ws hw
      have hnd := h.nodup c
      rw [hw] at hnd
      show t ∈ Function.update m.waitset c ws d ↔ ∃ l, (m.places.modify w (Position.rouse c))[t]? =
        some (.waiting d l)
      by_cases ht : t = w
      · subst ht
        rw [List.getElem?_modify_eq]
        simp only [Option.map_eq_map, Option.map_eq_some_iff, rouse_waiting_iff]
        by_cases hd : d = c
        · subst hd
          rw [Function.update_self]
          simpa using (List.nodup_cons.mp hnd).1
        · rw [Function.update_of_ne hd, h.queued d t]
          simp [hd]
      · rw [List.getElem?_modify_ne _ _ (Ne.symm ht), ← h.queued d t]
        by_cases hd : d = c
        · subst hd
          rw [Function.update_self, hw, List.mem_cons]
          simp [ht]
        · rw [Function.update_of_ne hd]
  · unfold State.signal
    split
    · exact h.nodup d
    · rename_i w ws hw
      have hnd := h.nodup c
      rw [hw] at hnd
      show (Function.update m.waitset c ws d).Nodup
      by_cases hd : d = c
      · subst hd
        rw [Function.update_self]
        exact (List.nodup_cons.mp hnd).2
      · rw [Function.update_of_ne hd]
        exact h.nodup d

theorem Disciplined.broadcast (h : Disciplined m) (c : C) : Disciplined (m.broadcast c) := by
  refine ⟨fun t => ?_, fun d t => ?_, fun d => ?_⟩
  · show m.mutex = some t ↔ _
    rw [h.owner]
    exact exists_congr fun l => broadcast_inside.symm
  · rw [broadcast_places]
    simp only [Option.map_eq_some_iff, rouse_waiting_iff]
    show t ∈ Function.update m.waitset c [] d ↔ _
    by_cases hd : d = c
    · subst hd
      simp
    · rw [Function.update_of_ne hd, h.queued d t]
      simp [hd]
  · show (Function.update m.waitset c [] d).Nodup
    by_cases hd : d = c
    · subst hd
      simp
    · rw [Function.update_of_ne hd]
      exact h.nodup d

omit [DecidableEq C] in
theorem Disciplined.owned (h : Disciplined m) (hp : m.places[t]? = some (.inside l)) :
    m.mutex = some t := (h.owner t).mpr ⟨l, hp⟩

omit [DecidableEq C] in
theorem Disciplined.not_waiting (h : Disciplined m) (hp : m.places[t]? = some p)
    (hw : ∀ c l, p ≠ .waiting c l) (c : C) :
    t ∉ m.waitset c := by
  rw [h.queued]
  rintro ⟨l, hl⟩
  exact hw c l (Option.some.inj (hp.symm.trans hl))

end Rouse

theorem Disciplined.steps {P : Code σ L C} {m m' : State σ L C} (h : Disciplined m)
    (hs : Steps P m m') :
    Disciplined m' := by
  have hfree : ∀ {t : Nat} {p : Position L C}, m.places[t]? = some p →
      (∀ l, p ≠ .inside l) → m.mutex ≠ some t := by
    intro t p hp hin hmx
    obtain ⟨l, hl⟩ := (h.owner t).mp hmx
    exact hin l (Option.some.inj (hp.symm.trans hl))
  cases hs with
  | @move t l l' hp ho =>
    have hmx := hfree hp (by simp)
    have hw := h.not_waiting hp (by simp)
    exact h.put hp rfl (by simpa [State.put] using hmx) (fun _ _ => .rfl)
      (by simpa [State.put] using hw) (fun _ _ _ => .rfl) h.nodup
  | @lock t l l' hp ho =>
    have hmx := hfree hp (by simp)
    have hw := h.not_waiting hp (by simp)
    exact h.put hp rfl (by simpa [State.put] using hmx) (fun _ _ => .rfl)
      (by simpa [State.put] using hw) (fun _ _ _ => .rfl) h.nodup
  | quit hp ho => exact ⟨h.owner, h.queued, h.nodup⟩
  | @enter t l hp hnone =>
    have hw := h.not_waiting hp (by simp)
    refine h.put hp rfl (by simp [State.put]) (fun u hu => ?_) (by simpa [State.put] using hw)
      (fun _ _ _ => .rfl) h.nodup
    simp [State.put, hnone, Ne.symm hu]
  | @wake t c l hp =>
    have hmx := hfree hp (by simp)
    refine h.put hp rfl (by simpa [State.put] using hmx) (fun _ _ => .rfl)
      (fun d => ?_) (fun d u hu => ?_) (fun d => ?_)
    · by_cases hd : d = c
      · subst hd
        simp [State.put, (h.nodup d).mem_erase_iff]
      · have hout : t ∉ m.waitset d := by
          rw [h.queued]
          rintro ⟨l', hl'⟩
          rw [hp] at hl'
          simp only [Option.some.injEq, Position.waiting.injEq] at hl'
          exact hd hl'.1.symm
        simpa [State.put, Function.update_of_ne hd] using hout
    · by_cases hd : d = c
      · subst hd
        simp [State.put, (h.nodup d).mem_erase_iff, hu]
      · simp [State.put, Function.update_of_ne hd]
    · by_cases hd : d = c
      · subst hd
        simpa [State.put] using (h.nodup d).erase t
      · simpa [State.put, Function.update_of_ne hd] using h.nodup d
  | @act t l hp =>
    have hmx := h.owned hp
    have hw := h.not_waiting hp (by simp)
    have hothers : ∀ u, u ≠ t → m.mutex ≠ some u := fun u hu he =>
      hu (Option.some.inj (he.symm.trans hmx))
    cases hact : P.inside t l m.shared with
    | goto l' s =>
      exact h.put hp rfl (by simpa [State.act, State.put] using hmx) (fun _ _ => .rfl)
        (by simpa [State.act, State.put] using hw)
        (fun _ _ _ => .rfl) h.nodup
    | unlock l' =>
      refine h.put hp rfl (by simp [State.act, State.put]) (fun u hu => ?_)
        (by simpa [State.act, State.put] using hw)
        (fun _ _ _ => .rfl) h.nodup
      simp [State.act, State.put, hothers u hu]
    | wait c l' =>
      refine h.put hp rfl (by simp [State.act, State.put]) (fun u hu => ?_)
        (fun d => ?_) (fun d u hu => ?_) (fun d => ?_)
      · simp [State.act, State.put, hothers u hu]
      · by_cases hd : d = c
        · subst hd
          simp [State.act, State.put]
        · simpa [State.act, State.put, Function.update_of_ne hd, Ne.symm hd] using hw d
      · by_cases hd : d = c
        · subst hd
          simp [State.act, State.put, hu]
        · simp [State.act, State.put, Function.update_of_ne hd]
      · by_cases hd : d = c
        · subst hd
          have hnd : (m.waitset d ++ [t]).Nodup :=
            List.nodup_append.mpr
              ⟨h.nodup d, by simp, fun u hu v hv huv => hw d (List.mem_singleton.mp hv ▸ huv ▸ hu)⟩
          simpa [State.act, State.put] using hnd
        · simpa [State.act, State.put, Function.update_of_ne hd] using h.nodup d
    | signal c l' s =>
      have hm : Disciplined ({ m with shared := s } : State σ L C) := ⟨h.owner, h.queued, h.nodup⟩
      have h' := hm.signal c
      have hp' : ({ m with shared := s }.signal c).places[t]? = some (.inside l) :=
        signal_inside.mpr hp
      exact h'.put hp' rfl (by simpa [State.act, State.put] using hmx) (fun _ _ => .rfl)
        (by simpa [State.act, State.put] using h'.not_waiting hp' (by simp))
        (fun _ _ _ => .rfl) h'.nodup
    | broadcast c l' s =>
      have hm : Disciplined ({ m with shared := s } : State σ L C) := ⟨h.owner, h.queued, h.nodup⟩
      have h' := hm.broadcast c
      have hp' : ({ m with shared := s }.broadcast c).places[t]? = some (.inside l) :=
        broadcast_inside.mpr hp
      exact h'.put hp' rfl (by simpa [State.act, State.put, State.broadcast] using hmx)
        (fun _ _ => .rfl)
        (by simpa [State.act, State.put] using h'.not_waiting hp' (by simp))
        (fun _ _ _ => .rfl) h'.nodup
    | fail => exact ⟨h.owner, h.queued, h.nodup⟩

theorem Disciplined.step {P : Code σ L C} {m m' : State σ L C} {e : Event} (h : Disciplined m)
    (hs : m.step P e = some m') : Disciplined m' :=
  h.steps (steps_of_step hs)

omit [DecidableEq C] in
/-- Threads that are all outside, with nobody asleep. -/
theorem Disciplined.start (s : σ) (ls : List L) :
    Disciplined (⟨none, s, fun _ => [], ls.map .out, false⟩ : State σ L C) := by
  refine ⟨fun t => ?_, fun c t => ?_, fun c => List.nodup_nil⟩
  · simp [List.getElem?_map]
  · simp [List.getElem?_map]

def State.holder (m : State σ L C) : Option (Nat × L) :=
  m.mutex.bind fun t => (m.places[t]?).map fun p => (t, p.data)

section Holder

omit [DecidableEq C]

variable {m m' : State σ L C} {t : Nat} {l : L} {p p' : Position L C}

theorem holder_of_inside (h : Disciplined m) (hp : m.places[t]? = some (.inside l)) :
    m.holder = some (t, l) := by
  simp [State.holder, h.owned hp, hp, Position.data]

theorem holder_of_free (h : m.mutex = none) : m.holder = none := by
  simp [State.holder, h]

/-- A thread that is not inside moves, and does not come in. -/
theorem holder_of_set (h : Disciplined m) (hp : m.places[t]? = some p) (hin : ∀ l, p ≠ .inside l)
    (hmutex : m'.mutex = m.mutex) (hplaces : m'.places = m.places.set t p') :
    m'.holder = m.holder := by
  unfold State.holder
  rw [hmutex, hplaces]
  cases hm : m.mutex with
  | none => rfl
  | some u =>
    have hu : u ≠ t := by
      rintro rfl
      obtain ⟨l, hl⟩ := (h.owner u).mp hm
      exact hin l (Option.some.inj (hp.symm.trans hl))
    simp only [Option.bind_some]
    rw [List.getElem?_set_ne (Ne.symm hu)]

end Holder

section Progress

def Act.data : Act σ L C → Option L
  | .goto l _ | .unlock l | .wait _ l | .signal _ l _ | .broadcast _ l _ => some l
  | .fail => none

def Act.place (l : L) : Act σ L C → Position L C
  | .goto l' _ | .signal _ l' _ | .broadcast _ l' _ => .inside l'
  | .unlock l' => .out l'
  | .wait c l' => .waiting c l'
  | .fail => .inside l

def Act.shared (s : σ) : Act σ L C → σ
  | .goto _ s' | .signal _ _ s' | .broadcast _ _ s' => s'
  | .unlock _ | .wait _ _ | .fail => s

def Out.data : Out L → Option L
  | .move l | .lock l => some l
  | .fail => none

variable {P : Code σ L C} {m m' : State σ L C} {i t : Nat} {l : L} {p p' : Position L C}

theorem act_shared (m : State σ L C) (t : Nat) (a : Act σ L C) :
    (m.act t a).shared = a.shared m.shared := by
  cases a <;> simp [State.act, State.put, Act.shared, State.broadcast]

theorem act_place_self (hp : m.places[t]? = some (.inside l)) (a : Act σ L C) :
    (m.act t a).places[t]? = some (a.place l) := by
  cases a with
  | goto l' s | unlock l' | wait c l' => exact getElem?_set_self hp _
  | signal c l' s =>
    have hin : ({ m with shared := s }.signal c).places[t]? = some (.inside l) :=
      signal_inside.mpr hp
    exact getElem?_set_self hin _
  | broadcast c l' s =>
    have hin : ({ m with shared := s }.broadcast c).places[t]? = some (.inside l) :=
      broadcast_inside.mpr hp
    exact getElem?_set_self hin _
  | fail => exact hp

theorem act_place_other (hi : i ≠ t) (a : Act σ L C) (hp' : (m.act t a).places[i]? = some p') :
    m.places[i]? = some p' ∨ ∃ p c, m.places[i]? = some p ∧ p' = p.rouse c := by
  cases a with
  | goto l' s | unlock l' | wait c l' => exact .inl ((getElem?_set_other hi _).symm.trans hp')
  | signal c l' s =>
    have hset : ({ m with shared := s }.signal c).places[i]? = some p' :=
      (getElem?_set_other hi _).symm.trans hp'
    rcases signal_places { m with shared := s } c i with hs | hs
    · exact .inl (hs.symm.trans hset)
    · obtain ⟨p, hp, rfl⟩ := Option.map_eq_some_iff.mp (hs.symm.trans hset)
      exact .inr ⟨p, c, hp, rfl⟩
  | broadcast c l' s =>
    have hset : ({ m with shared := s }.broadcast c).places[i]? = some p' :=
      (getElem?_set_other hi _).symm.trans hp'
    obtain ⟨p, hp, rfl⟩ := Option.map_eq_some_iff.mp ((broadcast_places _ c i).symm.trans hset)
    exact .inr ⟨p, c, hp, rfl⟩
  | fail => exact .inl hp'

omit [DecidableEq C] in
theorem place_data (l : L) (a : Act σ L C) : a.data = some (a.place l).data ∨
    a.data = none ∧ a.place l = .inside l := by
  cases a with
  | fail => exact .inr ⟨rfl, rfl⟩
  | _ => exact .inl rfl

/-- A place after a step is the place before it, roused perhaps, or that of the thread that
moves. -/
theorem act_places (hp : m.places[t]? = some (.inside l)) (a : Act σ L C)
    (hp' : (m.act t a).places[i]? = some p') :
    (i = t ∧ (a.data = some p'.data ∨ a.data = none ∧ p' = .inside l)) ∨
      i ≠ t ∧ (m.places[i]? = some p' ∨ ∃ p c, m.places[i]? = some p ∧ p' = p.rouse c) := by
  by_cases hi : i = t
  · subst hi
    obtain rfl : a.place l = p' := Option.some.inj ((act_place_self hp a).symm.trans hp')
    exact .inl ⟨rfl, place_data l a⟩
  · exact .inr ⟨hi, act_place_other hi a hp'⟩

/-- What holds of the place of every thread, when each statement keeps it for the thread that
executes it. -/
theorem Steps.fits {F : Nat → Position L C → Prop} (hs : Steps P m m')
    (hmove : ∀ t l l', F t (.out l) → P.outside t l = some (.move l') → F t (.out l'))
    (hlock : ∀ t l l', F t (.out l) → P.outside t l = some (.lock l') → F t (.locking l'))
    (henter : ∀ t l, F t (.locking l) → F t (.inside l))
    (hact : ∀ t l, F t (.inside l) → F t ((P.inside t l m.shared).place l))
    (hwake : ∀ t c l, F t (.waiting c l) → F t (.locking l))
    (h : ∀ i p, m.places[i]? = some p → F i p) (hp' : m'.places[i]? = some p') : F i p' := by
  have hset : ∀ {t : Nat} {p q : Position L C}, m.places[t]? = some p → F t q →
      (m.places.set t q)[i]? = some p' → F i p' := by
    intro t p q hp hq hset
    by_cases hit : i = t
    · subst hit
      exact Option.some.inj ((getElem?_set_self hp q).symm.trans hset) ▸ hq
    · exact h i p' ((getElem?_set_other hit q).symm.trans hset)
  cases hs with
  | move hp ho => exact hset hp (hmove _ _ _ (h _ _ hp) ho) hp'
  | lock hp ho => exact hset hp (hlock _ _ _ (h _ _ hp) ho) hp'
  | quit => exact h i p' hp'
  | enter hp => exact hset hp (henter _ _ (h _ _ hp)) hp'
  | wake hp => exact hset hp (hwake _ _ _ (h _ _ hp)) hp'
  | @act t l hp =>
    by_cases hit : i = t
    · subst hit
      exact Option.some.inj ((act_place_self hp _).symm.trans hp') ▸ hact _ _ (h _ _ hp)
    · rcases act_place_other hit _ hp' with hsame | ⟨p, c, hsame, rfl⟩
      · exact h i p' hsame
      · have hp := h i p hsame
        cases p with
        | waiting d l' =>
          unfold Position.rouse
          dsimp only
          split
          · exact hwake _ _ _ hp
          · exact hp
        | _ => exact hp

/-- What holds of the data of every thread, when each statement keeps it for the thread that
executes it. -/
theorem Steps.data {D : Nat → L → Prop} (hs : Steps P m m')
    (hout : ∀ t l o l', D t l → P.outside t l = some o → o.data = some l' → D t l')
    (hin : ∀ t l l', D t l → (P.inside t l m.shared).data = some l' → D t l')
    (h : ∀ i p, m.places[i]? = some p → D i p.data) (hp' : m'.places[i]? = some p') :
    D i p'.data := by
  refine hs.fits (F := fun t p => D t p.data) (fun t l l' hl ho => hout t l _ l' hl ho rfl)
    (fun t l l' hl ho => hout t l _ l' hl ho rfl) (fun _ _ hl => hl) (fun t l hl => ?_)
    (fun _ _ _ hl => hl) h hp'
  rcases place_data l (P.inside t l m.shared) with hdata | ⟨-, hplace⟩
  · exact hin t l _ hl hdata
  · rw [hplace]
    exact hl

def State.Stuck (P : Code σ L C) (m : State σ L C) : Prop := ∀ t, m.step P (.run t) = none

/-- Then the mutex is free, and every thread is asleep or at the end of its code. -/
theorem Disciplined.stuck (h : Disciplined m) (hs : m.Stuck P) : m.mutex = none ∧
    ∀ t p, m.places[t]? = some p → (∃ c l, p = .waiting c l) ∨ ∃ l,
    p = .out l ∧ P.outside t l = none := by
  have hfree : m.mutex = none := by
    cases hm : m.mutex with
    | none => rfl
    | some t =>
      obtain ⟨l, hl⟩ := (h.owner t).mp hm
      have ht := hs t
      simp [State.step, hl] at ht
  refine ⟨hfree, fun t p hp => ?_⟩
  have ht := hs t
  cases p with
  | waiting c l => exact .inl ⟨c, l, rfl⟩
  | locking l => simp [State.step, hp, hfree] at ht
  | inside l => simp [State.step, hp] at ht
  | out l =>
    refine .inr ⟨l, rfl, ?_⟩
    cases ho : P.outside t l with
    | none => rfl
    | some o => cases o <;> simp [State.step, hp, ho] at ht

theorem signal_datas (m : State σ L C) (c : C) : (m.signal c).places.map Position.data =
    m.places.map Position.data := by
  refine List.ext_getElem? fun i => ?_
  rw [List.getElem?_map, List.getElem?_map]
  rcases signal_places m c i with hs | hs
  · rw [hs]
  · rw [hs, Option.map_map]
    exact congrArg (fun f => (m.places[i]?).map f) (funext fun p => rouse_data c p)

theorem broadcast_datas (m : State σ L C) (c : C) :
    (m.broadcast c).places.map Position.data = m.places.map Position.data := by
  simp [State.broadcast]

/-- The data of the threads after a step differ in that of the thread that moves. -/
theorem act_datas (hp : m.places[t]? = some (.inside l)) (a : Act σ L C) :
    (m.act t a).places.map Position.data = (m.places.map Position.data).set t (a.place l).data := by
  cases a with
  | goto l' s | unlock l' | wait c l' => exact List.map_set
  | signal c l' s =>
    rw [← signal_datas { m with shared := s } c]
    exact List.map_set
  | broadcast c l' s =>
    rw [← broadcast_datas { m with shared := s } c]
    exact List.map_set
  | fail =>
    obtain ⟨ht, hget⟩ := List.getElem?_eq_some_iff.mp hp
    have hlt : t < (m.places.map Position.data).length := by simpa using ht
    have hself : (m.places.map Position.data)[t] = l := by simp [hget, Position.data]
    exact (hself ▸ List.set_getElem_self _).symm

omit [DecidableEq C] in
/-- A thread that is outside moves, without coming in, and perhaps changes the shared data. -/
theorem Disciplined.put_out (h : Disciplined m) (hp : m.places[t]? = some (.out l)) (s : σ)
    (hin : ∀ l, p' ≠ .inside l) (hwait : ∀ c l, p' ≠ .waiting c l) :
    Disciplined ({ m with shared := s }.put t p') := by
  have hmx : m.mutex ≠ some t := by
    intro hm
    obtain ⟨l', hl'⟩ := (h.owner t).mp hm
    rw [hp] at hl'
    simp at hl'
  have hw := h.not_waiting hp (by simp)
  refine h.put hp rfl ?_ (fun _ _ => .rfl) (fun c => ?_) (fun _ _ _ => .rfl) h.nodup
  · exact iff_of_false hmx fun ⟨l', hl'⟩ => hin l' hl'
  · exact iff_of_false (hw c) fun ⟨l', hl'⟩ => hwait c l' hl'

omit [DecidableEq C] in
/-- A new thread comes to lock the mutex. -/
theorem Disciplined.spawn (h : Disciplined m) (l : L) :
    Disciplined { m with places := m.places ++ [.locking l] } := by
  have hplace : ∀ {u : Nat} {p : Position L C}, p ≠ .locking l →
      ((m.places ++ [.locking l])[u]? = some p ↔ m.places[u]? = some p) := by
    intro u p hp
    rcases Nat.lt_trichotomy u m.places.length with hu | rfl | hu
    · rw [List.getElem?_append_left hu]
    · simp [Ne.symm hp]
    · rw [List.getElem?_eq_none (by simp; omega), List.getElem?_eq_none (by omega)]
  refine ⟨fun u => ?_, fun c u => ?_, h.nodup⟩
  · simp only [hplace (show Position.inside _ ≠ .locking l by simp)]
    exact h.owner u
  · simp only [hplace (show Position.waiting c _ ≠ .locking l by simp)]
    exact h.queued c u

end Progress

end Monitors
