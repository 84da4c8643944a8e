import TinyOS.Symposium

/-! `Mutex_Lock` and `Mutex_Unlock` of `kernel_cc.c` under any program written as a monitor: a
test-and-set, a loop that only looks, and a yield from time to time. -/

namespace TinyOS

open Monitors Transition

/-- Where a thread is in `Mutex_Lock`: at the test-and-set, at the load of the inner loop, or in
`yield`. -/
inductive LockPc
  | testAndSet
  | load (spin : Nat)
  | yield (spin : Nat)
deriving DecidableEq

def mutexSpins (cores : Nat) : Nat := if 1 < cores then 1000 else 10000

/-- The next step of `Mutex_Lock`: the lock after it, and where the thread is if the call has not
returned. -/
def mutexLock (cores : Nat) (lock interrupts : Bool) : LockPc → Bool × Option LockPc
  | .testAndSet => (true, if lock then some (.load (mutexSpins cores)) else none)
  | .load spin =>
    if lock then
      if 0 < spin then (lock, some (.load (spin - 1)))
      else (lock, some (if interrupts then .yield (mutexSpins cores) else .load (mutexSpins cores)))
    else (lock, some .testAndSet)
  | .yield spin => (lock, some (.load spin))

variable {σ L C : Type*}

/-- The state of a monitor whose mutex is the byte `lock`; a thread at `locking` is in
`Mutex_Lock`. -/
structure SpinState (σ L C : Type*) where
  lock : Bool
  shared : σ
  waitset : C → List Nat
  places : List (Position L C)
  pc : Nat → LockPc
  failed : Bool

inductive SpinEvent
  | run (t : Nat) (interrupts : Bool)
  | wake (t : Nat)
deriving DecidableEq

/-- All of it but the mutex. -/
def SpinState.monitor (m : SpinState σ L C) : State σ L C :=
  ⟨none, m.shared, m.waitset, m.places, m.failed⟩

def SpinState.put (m : SpinState σ L C) (s : State σ L C) : SpinState σ L C :=
  { m with shared := s.shared, waitset := s.waitset, places := s.places, failed := s.failed }

/-- The statements with `Mutex_Unlock` in them. -/
def unlocks : Act σ L C → Bool
  | .unlock _ | .wait _ _ => true
  | _ => false

def SpinState.start (s : σ) (ls : List L) : SpinState σ L C :=
  ⟨false, s, fun _ => [], ls.map .out, fun _ => .testAndSet, false⟩

variable [DecidableEq C]

def SpinState.step (P : Code σ L C) (cores : Nat) (m : SpinState σ L C) :
    SpinEvent → Option (SpinState σ L C)
  | .run t interrupts =>
    match m.places[t]? with
    | some (.locking l) =>
      match mutexLock cores m.lock interrupts (m.pc t) with
      | (lock, some pc) => some { m with lock := lock, pc := Function.update m.pc t pc }
      | (lock, none) =>
        some { m with
          lock := lock
          pc := Function.update m.pc t .testAndSet
          places := m.places.set t (.inside l) }
    | some (.inside l) =>
      let a := P.inside t l m.shared
      some { m.put (m.monitor.act t a) with lock := if unlocks a then false else m.lock }
    | _ => (m.monitor.step P (.run t)).map m.put
  | .wake t => (m.monitor.step P (.wake t)).map m.put

/-- The monitor that a state stands for. -/
structure Refines (cores : Nat) (m : SpinState σ L C) (s : State σ L C) : Prop where
  shared : s.shared = m.shared
  waitset : s.waitset = m.waitset
  places : s.places = m.places
  failed : s.failed = m.failed
  lock : m.lock = s.mutex.isSome
  disciplined : Disciplined s
  spins : ∀ t spin, m.pc t = .load spin ∨ m.pc t = .yield spin → spin ≤ mutexSpins cores

section Steps

variable {P : Code σ L C} {cores t : Nat} {m m' : SpinState σ L C} {s s' : State σ L C}
  {e : SpinEvent} {e' : Event} {l : L}

omit [DecidableEq C] in
theorem Refines.monitor_eq (h : Refines cores m s) : s = { m.monitor with mutex := s.mutex } := by
  obtain ⟨mutex, shared, waitset, places, failed⟩ := s
  obtain rfl := h.shared
  obtain rfl := h.waitset
  obtain rfl := h.places
  obtain rfl := h.failed
  rfl

/-- The mutex plays no part in a statement, unless it is unlocked. -/
theorem act_mutex (n : State σ L C) (mutex : Option Nat) (a : Act σ L C) :
    ({ n with mutex := mutex } : State σ L C).act t a =
      { n.act t a with mutex := if unlocks a then none else mutex } := by
  cases a with
  | signal c l s =>
    show (({ n with mutex := mutex, shared := s } : State σ L C).signal c).put t (.inside l) =
      { (({ n with shared := s } : State σ L C).signal c).put t (.inside l) with mutex := mutex }
    unfold State.signal
    cases n.waitset c <;> rfl
  | _ => rfl

theorem mutexLock_spins {lock lock' interrupts : Bool} {pc pc' : LockPc}
    (hpc : ∀ spin, pc = .load spin ∨ pc = .yield spin → spin ≤ mutexSpins cores)
    (h : mutexLock cores lock interrupts pc = (lock', some pc')) (spin : Nat)
    (hspin : pc' = .load spin ∨ pc' = .yield spin) : spin ≤ mutexSpins cores := by
  cases pc with
  | testAndSet =>
    cases lock <;>
      simp only [mutexLock, Prod.mk.injEq, if_true, Bool.false_eq_true, if_false, reduceCtorEq,
      and_false, Option.some.injEq] at h
    obtain ⟨-, rfl⟩ := h
    rcases hspin with hspin | hspin <;> cases hspin
    exact Nat.le_refl _
  | load n =>
    have hn := hpc n (.inl rfl)
    simp only [mutexLock] at h
    split at h
    · split at h
      · obtain ⟨-, rfl⟩ : lock = lock' ∧ LockPc.load (n - 1) = pc' := by simpa using h
        rcases hspin with hspin | hspin <;> cases hspin
        omega
      · obtain ⟨-, rfl⟩ : lock = lock' ∧ _ = pc' := by simpa using h
        cases interrupts <;> rcases hspin with hspin | hspin <;> cases hspin <;> exact Nat.le_refl _
    · obtain ⟨-, rfl⟩ : lock = lock' ∧ LockPc.testAndSet = pc' := by simpa using h
      rcases hspin with hspin | hspin <;> cases hspin
  | yield n =>
    obtain ⟨-, rfl⟩ : lock = lock' ∧ LockPc.load n = pc' := by simpa [mutexLock] using h
    rcases hspin with hspin | hspin <;> cases hspin
    exact hpc _ (.inr rfl)

/-- The call returns exactly from a test-and-set that finds the lock free; no other step changes the
lock. -/
theorem mutexLock_lock {lock lock' interrupts : Bool} {pc : LockPc} {o : Option LockPc}
    (h : mutexLock cores lock interrupts pc = (lock', o)) :
    o = none ∧ lock = false ∧ lock' = true ∨ o ≠ none ∧ lock' = lock := by
  cases pc with
  | testAndSet =>
    obtain ⟨rfl, rfl⟩ := Prod.mk.inj h
    cases lock
    · exact .inl ⟨rfl, rfl, rfl⟩
    · exact .inr ⟨by simp, rfl⟩
  | load n =>
    simp only [mutexLock] at h
    refine .inr ?_
    split at h
    · split at h <;> obtain ⟨rfl, rfl⟩ := Prod.mk.inj h <;> exact ⟨by simp, rfl⟩
    · obtain ⟨rfl, rfl⟩ := Prod.mk.inj h
      exact ⟨by simp, rfl⟩
  | yield n =>
    obtain ⟨rfl, rfl⟩ := Prod.mk.inj h
    exact .inr ⟨by simp, rfl⟩

theorem Refines.frame (h : Refines cores m s) (hs : s.step P e' = some s')
    (hshared : m'.shared = s'.shared)
    (hwaits : m'.waitset = s'.waitset) (hplaces : m'.places = s'.places)
    (hfailed : m'.failed = s'.failed)
    (hlock : m'.lock = s'.mutex.isSome) (hpc : m'.pc = m.pc) : Refines cores m' s' :=
  ⟨hshared.symm, hwaits.symm, hplaces.symm, hfailed.symm, hlock, h.disciplined.step hs,
    by rw [hpc]; exact h.spins⟩

/-- Outside, and when it wakes up, a thread does the same whatever the mutex is. -/
theorem step_mutex (n : State σ L C) (mutex : Option Nat) {e : Event}
    (he : ∀ u, e = .run u → ∀ l, n.places[u]? ≠ some (.locking l) ∧
      n.places[u]? ≠ some (.inside l)) :
    ({ n with mutex := mutex } : State σ L C).step P e = (n.step P e).map fun s =>
      { s with mutex := mutex } := by
  cases e with
  | run u =>
    have hu := he u rfl
    simp only [State.step]
    cases hp : n.places[u]? with
    | none => rfl
    | some p =>
      cases p with
      | out l =>
        cases ho : P.outside u l with
        | none => simp [ho]
        | some o => cases o <;> simp [ho, State.put]
      | locking l => exact absurd hp (hu l).1
      | inside l => exact absurd hp (hu l).2
      | waiting c l => rfl
  | wake u =>
    simp only [State.step]
    cases hp : n.places[u]? with
    | none => rfl
    | some p => cases p <;> rfl

/-- A step of the code of `Mutex_Lock` is the step of the mutex, or none at all. -/
theorem Refines.simulate (h : Refines cores m s) (hs : m.step P cores e = some m') :
    ∃ s', Reach (State.step P) Always s s' ∧ Refines cores m' s' := by
  -- a step that has nothing to do with the mutex
  have haside : ∀ {e' : Event},
      (∀ u, e' = .run u → ∀ l, m.places[u]? ≠ some (.locking l) ∧ m.places[u]? ≠ some (.inside l)) →
      (m.monitor.step P e').map m.put = some m' → ∃ s', Reach (State.step P) Always s s' ∧
      Refines cores m' s' := by
    intro e' he hstep
    obtain ⟨n, hn, rfl⟩ := Option.map_eq_some_iff.mp hstep
    have hs' : s.step P e' = some { n with mutex := s.mutex } := by
      rw [h.monitor_eq, step_mutex m.monitor s.mutex he, hn]
      rfl
    exact ⟨_, .single ⟨e', trivial, hs'⟩, h.frame hs' rfl rfl rfl rfl h.lock rfl⟩
  cases e with
  | wake u => exact haside (fun _ he => by simp at he) hs
  | run u interrupts =>
    simp only [SpinState.step] at hs
    split at hs
    · rename_i l hp
      have hsp : s.places[u]? = some (.locking l) := by rw [h.places, hp]
      split at hs
      · rename_i lock pc hlock
        obtain rfl := Option.some.inj hs
        rcases mutexLock_lock hlock with ⟨hnone, -, -⟩ | ⟨-, rfl⟩
        · simp at hnone
        · refine ⟨s, .refl, h.shared, h.waitset, h.places, h.failed, h.lock,
            h.disciplined, fun t spin hspin => ?_⟩
          by_cases htu : t = u
          · subst htu
            simp only [Function.update_self] at hspin
            exact mutexLock_spins (h.spins t) hlock spin hspin
          · simp only [Function.update_of_ne htu] at hspin
            exact h.spins t spin hspin
      · rename_i lock hlock
        obtain rfl := Option.some.inj hs
        rcases mutexLock_lock hlock with ⟨-, hfree, rfl⟩ | ⟨hsome, -⟩
        · have hmutex : s.mutex = none := by
            have := h.lock
            rw [hfree] at this
            exact Option.not_isSome_iff_eq_none.mp (by simp [← this])
          have hs' : s.step P (.run u) = some ({ s with mutex := some u }.put u (.inside l)) := by
            simp [State.step, hsp, hmutex]
          refine ⟨_, .single ⟨.run u, trivial, hs'⟩, h.shared, h.waitset, ?_, h.failed, rfl,
            h.disciplined.step hs', fun t spin hspin => ?_⟩
          · show s.places.set u _ = m.places.set u _
            rw [h.places]
          · by_cases htu : t = u
            · subst htu
              simp [Function.update_self] at hspin
            · simp only [Function.update_of_ne htu] at hspin
              exact h.spins t spin hspin
        · simp at hsome
    · rename_i l hp
      obtain rfl := Option.some.inj hs
      have hsp : s.places[u]? = some (.inside l) := by rw [h.places, hp]
      have hs' : s.step P (.run u) = some { m.monitor.act u (P.inside u l m.shared) with
          mutex := if unlocks (P.inside u l m.shared) then none else s.mutex } := by
        simp only [State.step, hsp]
        rw [h.shared, h.monitor_eq, act_mutex]
      refine ⟨_, .single ⟨.run u, trivial, hs'⟩, h.frame hs' rfl rfl rfl rfl ?_ rfl⟩
      simp only [h.lock]
      split <;> rfl
    · rename_i hlocking hinside
      refine haside (fun v he l => ?_) hs
      cases he
      exact ⟨fun hp => hlocking l hp, fun hp => hinside l hp⟩

/-- After `k` more steps of its own, with interrupts on or off, thread `t` has the mutex. -/
def SpinState.EntersIn (P : Code σ L C) (cores t : Nat) (l : L) (k : Nat)
    (m : SpinState σ L C) : Prop :=
  ∀ bs : List Bool, bs.length = k →
    ∃ m', exec (SpinState.step P cores) m (bs.map (.run t)) = some m' ∧
      m'.places[t]? = some (.inside l)

theorem entersIn_succ {k : Nat}
    (h : ∀ b, ∃ m', m.step P cores (.run t b) = some m' ∧ m'.EntersIn P cores t l k) :
    m.EntersIn P cores t l (k + 1) := by
  intro bs hbs
  obtain ⟨b, bs, rfl⟩ := List.exists_cons_of_length_eq_add_one hbs
  obtain ⟨m', hs, hm'⟩ := h b
  obtain ⟨m'', hexec, hin⟩ := hm' bs (by simpa using hbs)
  exact ⟨m'', by rw [List.map_cons, exec, hs, Option.bind_some, hexec], hin⟩

theorem SpinState.enters_test (hp : m.places[t]? = some (.locking l)) (hfree : m.lock = false)
    (hpc : m.pc t = .testAndSet) : m.EntersIn P cores t l 1 := by
  refine entersIn_succ fun b => ⟨{ m with
    lock := true
    pc := Function.update m.pc t .testAndSet
    places := m.places.set t (.inside l) },
      by simp [SpinState.step, hp, hpc, mutexLock, hfree], fun bs hbs => ?_⟩
  obtain rfl := List.length_eq_zero_iff.mp hbs
  exact ⟨_, rfl, getElem?_set_self (m := m.monitor) hp _⟩

theorem SpinState.enters_load (hp : m.places[t]? = some (.locking l)) (hfree : m.lock = false)
    {spin : Nat} (hpc : m.pc t = .load spin) : m.EntersIn P cores t l 2 :=
  entersIn_succ fun b => ⟨{ m with pc := Function.update m.pc t .testAndSet },
    by simp [SpinState.step, hp, hpc, mutexLock,
      hfree], enters_test hp hfree (Function.update_self ..)⟩

/-- Whoever is in `Mutex_Lock` while the lock stays free has it after three steps at most. -/
theorem SpinState.enters (hp : m.places[t]? = some (.locking l)) (hfree : m.lock = false) :
    ∃ k, k ≤ 3 ∧ m.EntersIn P cores t l k := by
  cases hpc : m.pc t with
  | testAndSet => exact ⟨1, by omega, enters_test hp hfree hpc⟩
  | load spin => exact ⟨2, by omega, enters_load hp hfree hpc⟩
  | yield spin =>
    refine ⟨3, Nat.le_refl _, entersIn_succ fun b =>
      ⟨{ m with pc := Function.update m.pc t (.load spin) }, ?_, ?_⟩⟩
    · simp [SpinState.step, hp, hpc, mutexLock]
    · exact enters_load hp hfree (Function.update_self ..)

end Steps

/-- The mutex of the kernel is the mutex of a monitor: whatever program the threads run, and however
they spin and yield, the states they come to are states of the monitor. One thread at most is
inside, exactly when the lock is taken; while it is free, whoever is in `Mutex_Lock` has it in three
steps; and `spin` is never above its bound. -/
theorem mutex_refines {P : Code σ L C} {cores : Nat} {s₀ : σ} {ls : List L} {m : SpinState σ L C}
    (h : Reach (SpinState.step P cores) Always (.start s₀ ls) m) :
    (∃ s, Reach (State.step P) Always ⟨none, s₀, fun _ => [], ls.map .out, false⟩ s ∧
      s = { m.monitor with mutex := s.mutex } ∧
      (m.lock = true ↔ ∃ (t : Nat) (l : L), m.places[t]? = some (.inside l))) ∧
      (∀ (t u : Nat) (l l' : L), m.places[t]? = some (.inside l) →
        m.places[u]? = some (.inside l') → t = u) ∧
      (∀ (t : Nat) (l : L), m.lock = false → m.places[t]? = some (.locking l) → ∃ k,
        k ≤ 3 ∧ m.EntersIn P cores t l k) ∧
      ∀ t spin, m.pc t = .load spin ∨ m.pc t = .yield spin → spin ≤ mutexSpins cores := by
  have hstart : Refines cores (.start s₀ ls)
      (⟨none, s₀, fun _ => [], ls.map .out, false⟩ : State σ L C) :=
    ⟨rfl, rfl, rfl, rfl, rfl, .start s₀ ls, fun t spin hspin => by simp [SpinState.start] at hspin⟩
  obtain ⟨s, hs, hm⟩ := h.simulate hstart fun u e v b hu _ hstep => hu.simulate hstep
  refine ⟨⟨s, hs, hm.monitor_eq, ?_⟩, fun t u l l' ht hu => ?_,
    fun t l hfree hp => SpinState.enters hp hfree, hm.spins⟩
  · rw [hm.lock, Option.isSome_iff_exists, ← hm.places]
    exact exists_congr fun t => hm.disciplined.owner t
  · have ht' := hm.disciplined.owned (hm.places ▸ ht)
    have hu' := hm.disciplined.owned (hm.places ▸ hu)
    exact Option.some.inj (ht'.symm.trans hu')

/-- Philosopher 1 finds the lock taken and goes round the inner loop, while philosopher 0
arrives. -/
theorem mutex_refines_symposium : ∃ m : SpinState (Nat → Phil) PhilThread Nat,
    m.lock = true ∧ m.pc 1 = .load 998 ∧
    ∃ s, Reach (State.step (philosopher 2 1)) Always (tableInit 2) s ∧ s.places = m.places := by
  obtain ⟨m, hm, hp⟩ := exists_reach_of_exec (SpinState.step (philosopher 2 1) 2)
    (.start (fun _ => .notHere) (List.replicate 2 ⟨.start, 0⟩))
    [.run 0 true, .run 1 true, .run 0 true, .run 1 true, .run 0 true, .run 1 true, .run 1 false]
    (fun m => m.lock && m.pc 1 = .load 998) (by decide +kernel)
  simp only [Bool.and_eq_true, decide_eq_true_eq] at hp
  obtain ⟨⟨s, hs, hplaces, -⟩, -⟩ := mutex_refines hm
  exact ⟨m, hp.1, hp.2, s, hs, by rw [hplaces]; rfl⟩

end TinyOS
