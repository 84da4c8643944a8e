import TinyOS.Lib.Monitors

/-! The dining philosophers of `symposium.c`: the monitor with its states and condition variables,
one statement at a time. -/

namespace TinyOS

open Monitors

inductive Phil
  | notHere
  | thinking
  | hungry
  | eating
deriving DecidableEq

def leftOf (i n : Nat) : Nat := (i + 1) % n

def rightOf (i n : Nat) : Nat := (i + n - 1) % n

/-- The three calls of `trytoeat`: for the philosopher and for each neighbour. -/
inductive TrySite
  | self
  | left
  | right
deriving DecidableEq

inductive PhilPc
  | start
  | arrive
  | arrived
  | think
  | hungry
  -- `trytoeat`: the test, the new state, `Cond_Signal`
  | test (k : TrySite)
  | take (k : TrySite)
  | signal (k : TrySite)
  | loop
  | check
  | served
  | eat
  | done
  | freed
  | leave
  | leaving
  | gone
deriving DecidableEq

/-- `j` counts the bites. -/
structure PhilThread where
  pc : PhilPc
  j : Nat
deriving DecidableEq

def PhilThread.goto (x : PhilThread) (pc : PhilPc) : PhilThread := { x with pc := pc }

def TrySite.target (n i : Nat) : TrySite → Nat
  | .self => i
  | .left => leftOf i n
  | .right => rightOf i n

def TrySite.next : TrySite → PhilPc
  | .self => .loop
  | .left => .test .right
  | .right => .freed

def CanEat (n : Nat) (state : Nat → Phil) (i : Nat) : Prop :=
  state i = .hungry ∧ state (leftOf i n) ≠ .eating ∧ state (rightOf i n) ≠ .eating

instance (n : Nat) (state : Nat → Phil) (i : Nat) : Decidable (CanEat n state i) :=
  inferInstanceAs (Decidable (_ ∧ _ ∧ _))

/-- With the mutex; `hungry[i]` is the condition variable `i`. -/
def philosopherInside (n i : Nat) (x : PhilThread) (state : Nat → Phil) :
    Act (Nat → Phil) PhilThread Nat :=
  match x.pc with
  | .arrive => .goto (x.goto .arrived) (Function.update state i .thinking)
  | .arrived => .unlock (x.goto .think)
  | .hungry => .goto (x.goto (.test .self)) (Function.update state i .hungry)
  | .test k => .goto (x.goto (if CanEat n state (k.target n i) then .take k else k.next)) state
  | .take k => .goto (x.goto (.signal k)) (Function.update state (k.target n i) .eating)
  | .signal k => .signal (k.target n i) (x.goto k.next) state
  | .loop => if state i = .hungry then .wait i x else .goto (x.goto .check) state
  | .check => if state i = .eating then .goto (x.goto .served) state else .fail
  | .served => .unlock (x.goto .eat)
  | .done => .goto (x.goto (.test .left)) (Function.update state i .thinking)
  | .freed => .unlock ⟨.think, x.j + 1⟩
  | .leave => .goto (x.goto .leaving) (Function.update state i .notHere)
  | .leaving => .unlock (x.goto .gone)
  | .start | .think | .eat | .gone => .goto x state

def philosopherOutside (bites : Nat) (x : PhilThread) : Option (Out PhilThread) :=
  match x.pc with
  | .start => some (.lock (x.goto .arrive))
  | .think => some (.lock (x.goto (if x.j < bites then .hungry else .leave)))
  | .eat => some (.lock (x.goto .done))
  | _ => none

def philosopher (n bites : Nat) : Code (Nat → Phil) PhilThread Nat where
  inside := philosopherInside n
  outside _ := philosopherOutside bites

abbrev Table := State (Nat → Phil) PhilThread Nat

def tableInit (n : Nat) : Table :=
  ⟨none, fun _ => .notHere, fun _ => [], (List.replicate n ⟨.start, 0⟩).map .out, false⟩

/-! ### The invariant -/

/-- The states that a philosopher can have at a place of its code. -/
def PhilPc.allows : PhilPc → Phil → Prop
  | .start, s | .arrive, s | .leaving, s | .gone, s => s = .notHere
  | .test .self, s | .take .self, s => s = .hungry
  | .loop, s => s = .hungry ∨ s = .eating
  | .signal .self, s | .check, s | .served, s | .eat, s | .done, s => s = .eating
  | _, s => s = .thinking

def Fits (i : Nat) : Position PhilThread Nat → Prop
  | .out x => x.pc = .start ∨ x.pc = .think ∨ x.pc = .eat ∨ x.pc = .gone
  | .locking x => x.pc = .arrive ∨ x.pc = .hungry ∨ x.pc = .done ∨ x.pc = .leave ∨ x.pc = .loop
  | .inside x => x.pc ≠ .start ∧ x.pc ≠ .think ∧ x.pc ≠ .eat ∧ x.pc ≠ .gone
  | .waiting c x => c = i ∧ x.pc = .loop

/-- The philosophers that the thread inside still has to try. -/
def PhilPc.owes (n i : Nat) : PhilPc → List Nat
  | .test .self | .take .self => [i]
  | .test .left | .take .left => [leftOf i n, rightOf i n]
  | .signal .left | .test .right | .take .right => [rightOf i n]
  | _ => []

/-- What holds of the states, with thread `o` inside and some philosophers asleep. -/
structure TableOk (n : Nat) (state : Nat → Phil) (o : Option (Nat × PhilThread))
    (asleep : Nat → Prop) : Prop where
  adjacent : ∀ i, i < n → leftOf i n ≠ i → state i = .eating → state (leftOf i n) ≠ .eating
  hungry : ∀ i, i < n → state i = .hungry → state (leftOf i n) = .eating ∨
    state (rightOf i n) = .eating ∨
    ∃ t x, o = some (t, x) ∧ i ∈ x.pc.owes n t
  taking : ∀ t x k, o = some (t, x) → x.pc = .take k → CanEat n state (k.target n t)
  woken : ∀ i, asleep i → state i = .eating → ∃ t x k, o = some (t, x) ∧
    x.pc = .signal k ∧ k.target n t = i

section Neighbours

variable {n i : Nat}

theorem leftOf_lt (hn : 0 < n) (i : Nat) : leftOf i n < n := Nat.mod_lt _ hn

theorem rightOf_lt (hn : 0 < n) (i : Nat) : rightOf i n < n := Nat.mod_lt _ hn

theorem rightOf_leftOf (hi : i < n) : rightOf (leftOf i n) n = i := by
  unfold rightOf leftOf
  by_cases h : i + 1 = n
  · rw [h, Nat.mod_self, Nat.zero_add, Nat.mod_eq_of_lt (by omega)]
    omega
  · rw [Nat.mod_eq_of_lt (show i + 1 < n by omega), show i + 1 + n - 1 = i + n by omega,
      Nat.add_mod_right, Nat.mod_eq_of_lt hi]

theorem leftOf_rightOf (hi : i < n) : leftOf (rightOf i n) n = i := by
  unfold rightOf leftOf
  cases i with
  | zero =>
    rw [Nat.zero_add, Nat.mod_eq_of_lt (show n - 1 < n by omega), show n - 1 + 1 = n by omega,
      Nat.mod_self]
  | succ i =>
    rw [show i + 1 + n - 1 = i + n by omega, Nat.add_mod_right,
      Nat.mod_eq_of_lt (show i < n by omega),
      Nat.mod_eq_of_lt hi]

end Neighbours

section TableOk

variable {n t : Nat} {state : Nat → Phil} {o : Option (Nat × PhilThread)} {x y : PhilThread}
  {asleep asleep' : Nat → Prop} {k : TrySite}

theorem TrySite.target_lt (hn : 0 < n) (ht : t < n) (k : TrySite) : k.target n t < n := by
  cases k
  · exact ht
  · exact leftOf_lt hn t
  · exact rightOf_lt hn t

theorem TrySite.owes_test (n i : Nat) (k : TrySite) :
    (PhilPc.test k).owes n i = k.target n i :: k.next.owes n i := by
  cases k <;> rfl

theorem TrySite.owes_take (n i : Nat) (k : TrySite) :
    (PhilPc.take k).owes n i = k.target n i :: k.next.owes n i := by
  cases k <;> rfl

theorem TrySite.owes_signal (n i : Nat) (k : TrySite) :
    (PhilPc.signal k).owes n i = k.next.owes n i := by
  cases k <;> rfl

theorem TrySite.next_ne_take (k l : TrySite) : k.next ≠ .take l := by
  cases k <;> simp [TrySite.next]

theorem TableOk.owed (h : TableOk n state (some (t, x)) asleep) (hi : i < n)
    (hhungry : state i = .hungry) :
    state (leftOf i n) = .eating ∨ state (rightOf i n) = .eating ∨ i ∈ x.pc.owes n t := by
  rcases h.hungry i hi hhungry with hl | hr | ⟨u, y, hu, howes⟩
  · exact .inl hl
  · exact .inr (.inl hr)
  · obtain ⟨rfl, rfl⟩ := Prod.mk.inj (Option.some.inj hu)
    exact .inr (.inr howes)

theorem TableOk.signalled (h : TableOk n state (some (t, x)) asleep) (hi : asleep i)
    (heats : state i = .eating) :
    ∃ k, x.pc = .signal k ∧ k.target n t = i := by
  obtain ⟨u, y, k, hu, hy, htarget⟩ := h.woken i hi heats
  obtain ⟨rfl, rfl⟩ := Prod.mk.inj (Option.some.inj hu)
  exact ⟨k, hy, htarget⟩

/-- The states stay, and the thread inside owes nothing and signals nobody. -/
theorem TableOk.pass (h : TableOk n state (some (t, x)) asleep) (hx : x.pc.owes n t = [])
    (hsignal : ∀ k, x.pc ≠ .signal k) (ho : ∀ u y k, o = some (u, y) → y.pc ≠ .take k)
    (hasleep : ∀ i, asleep' i → asleep i ∨ state i ≠ .eating) : TableOk n state o asleep' := by
  refine ⟨h.adjacent, fun i hi hhungry => ?_, fun u y k hu hy => absurd hy (ho u y k hu),
    fun i hi heats => ?_⟩
  · rcases h.owed hi hhungry with hl | hr | howes
    · exact .inl hl
    · exact .inr (.inl hr)
    · simp [hx] at howes
  · rcases hasleep i hi with hi | hne
    · obtain ⟨k, hy, -⟩ := h.signalled hi heats
      exact absurd hy (hsignal k)
    · exact absurd heats hne

theorem TableOk.next (h : TableOk n state (some (t, x)) asleep) (hx : x.pc.owes n t = [])
    (hsignal : ∀ k, x.pc ≠ .signal k) (hy : ∀ k, y.pc ≠ .take k) :
    TableOk n state (some (t, y)) asleep := by
  refine h.pass hx hsignal (fun u z k hu => ?_) fun i hi => .inl hi
  obtain ⟨-, rfl⟩ := Prod.mk.inj (Option.some.inj hu)
  exact hy k

theorem TableOk.open (h : TableOk n state none asleep)
    (ho : ∀ u y k, o = some (u, y) → y.pc ≠ .take k) :
    TableOk n state o asleep := by
  refine ⟨h.adjacent, fun i hi hhungry => ?_, fun u y k hu hy => absurd hy (ho u y k hu),
    fun i hi heats => ?_⟩
  · rcases h.hungry i hi hhungry with hl | hr | ⟨u, y, hu, -⟩
    · exact .inl hl
    · exact .inr (.inl hr)
    · simp at hu
  · obtain ⟨u, y, k, hu, -⟩ := h.woken i hi heats
    simp at hu

theorem TableOk.mono (h : TableOk n state o asleep) (hasleep : ∀ i, asleep' i → asleep i) :
    TableOk n state o asleep' :=
  ⟨h.adjacent, h.hungry, h.taking, fun i hi => h.woken i (hasleep i hi)⟩

/-- A philosopher changes its own state, and will try those whom that concerns. -/
theorem TableOk.set (h : TableOk n state (some (t, x)) asleep) {v : Phil} (hv : v ≠ .eating)
    (hx : x.pc.owes n t = []) (hsignal : ∀ k, x.pc ≠ .signal k) (hy : ∀ k, y.pc ≠ .take k)
    (hfreed : state t = .eating → leftOf t n ∈ y.pc.owes n t ∧ rightOf t n ∈ y.pc.owes n t)
    (hwants : v = .hungry → t ∈ y.pc.owes n t) :
    TableOk n (Function.update state t v) (some (t, y)) asleep := by
  have heating : ∀ i, Function.update state t v i = .eating → i ≠ t ∧ state i = .eating := by
    intro i hi
    by_cases hit : i = t
    · subst hit
      rw [Function.update_self] at hi
      exact absurd hi hv
    · rw [Function.update_of_ne hit] at hi
      exact ⟨hit, hi⟩
  -- whoever ate before still eats, unless it is the thread itself
  have hstill : ∀ i, state i = .eating → i ≠ t → Function.update state t v i = .eating := by
    intro i hi hit
    rw [Function.update_of_ne hit]
    exact hi
  refine ⟨fun i hi hne hie hle => ?_, fun i hi hhungry => ?_, fun u z k hu hz => ?_,
    fun i hi heats => ?_⟩
  · exact h.adjacent i hi hne (heating i hie).2 (heating _ hle).2
  · by_cases hit : i = t
    · subst hit
      rw [Function.update_self] at hhungry
      exact .inr (.inr ⟨i, y, rfl, hwants hhungry⟩)
    · rw [Function.update_of_ne hit] at hhungry
      rcases h.owed hi hhungry with hl | hr | howes
      · by_cases hlt : leftOf i n = t
        · have hback : rightOf t n = i := by rw [← hlt, rightOf_leftOf hi]
          exact .inr (.inr ⟨t, y, rfl, hback ▸ (hfreed (hlt ▸ hl)).2⟩)
        · exact .inl (hstill _ hl hlt)
      · by_cases hrt : rightOf i n = t
        · have hback : leftOf t n = i := by rw [← hrt, leftOf_rightOf hi]
          exact .inr (.inr ⟨t, y, rfl, hback ▸ (hfreed (hrt ▸ hr)).1⟩)
        · exact .inr (.inl (hstill _ hr hrt))
      · simp [hx] at howes
  · obtain ⟨rfl, rfl⟩ := Prod.mk.inj (Option.some.inj hu)
    exact absurd hz (hy k)
  · obtain ⟨k, hz, -⟩ := h.signalled hi (heating i heats).2
    exact absurd hz (hsignal k)

theorem TableOk.test (h : TableOk n state (some (t, x)) asleep) (hx : x.pc = .test k)
    (hy : y.pc = if CanEat n state (k.target n t) then .take k else k.next) :
    TableOk n state (some (t, y)) asleep := by
  refine ⟨h.adjacent, fun i hi hhungry => ?_, fun u z l hu hz => ?_, fun i hi heats => ?_⟩
  · rcases h.owed hi hhungry with hl | hr | howes
    · exact .inl hl
    · exact .inr (.inl hr)
    · rw [hx, TrySite.owes_test, List.mem_cons] at howes
      by_cases hcan : CanEat n state (k.target n t)
      · refine .inr (.inr ⟨t, y, rfl, ?_⟩)
        rw [hy, if_pos hcan, TrySite.owes_take, List.mem_cons]
        exact howes
      · rcases howes with rfl | howes
        · simp only [CanEat, hhungry, true_and, not_and_or, not_not] at hcan
          rcases hcan with hl | hr
          · exact .inl hl
          · exact .inr (.inl hr)
        · refine .inr (.inr ⟨t, y, rfl, ?_⟩)
          rw [hy, if_neg hcan]
          exact howes
  · obtain ⟨rfl, rfl⟩ := Prod.mk.inj (Option.some.inj hu)
    by_cases hcan : CanEat n state (k.target n t)
    · rw [hy, if_pos hcan] at hz
      obtain rfl : k = l := PhilPc.take.inj hz
      exact hcan
    · rw [hy, if_neg hcan] at hz
      exact absurd hz (TrySite.next_ne_take k l)
  · obtain ⟨l, hz, -⟩ := h.signalled hi heats
    simp [hx] at hz

theorem TableOk.take (h : TableOk n state (some (t, x)) asleep) (hn : 0 < n)
    (ht : t < n) (hx : x.pc = .take k)
    (hy : y.pc = .signal k) :
    TableOk n (Function.update state (k.target n t) .eating) (some (t, y)) asleep := by
  obtain ⟨hwants, hleft, hright⟩ := h.taking t x k rfl hx
  have hlt := k.target_lt hn ht
  generalize hj : k.target n t = j at hwants hleft hright hlt ⊢
  have hold : ∀ i, i ≠ j → Function.update state j .eating i = state i :=
    fun i hi => Function.update_of_ne hi _ _
  have hstill : ∀ i, state i = .eating → Function.update state j .eating i = .eating := by
    intro i hi
    by_cases hij : i = j
    · rw [hij, Function.update_self]
    · rw [hold i hij, hi]
  refine ⟨fun i hi hne hie hle => ?_, fun i hi hhungry => ?_, fun u z l hu hz => ?_,
    fun i hi heats => ?_⟩
  · by_cases hij : i = j
    · subst hij
      rw [hold _ hne] at hle
      exact hleft hle
    · rw [hold i hij] at hie
      by_cases hlj : leftOf i n = j
      · have hback : rightOf j n = i := by rw [← hlj, rightOf_leftOf hi]
        exact hright (hback ▸ hie)
      · rw [hold _ hlj] at hle
        exact h.adjacent i hi hne hie hle
  · have hij : i ≠ j := by
      rintro rfl
      rw [Function.update_self] at hhungry
      cases hhungry
    rw [hold i hij] at hhungry
    rcases h.owed hi hhungry with hl | hr | howes
    · exact .inl (hstill _ hl)
    · exact .inr (.inl (hstill _ hr))
    · rw [hx, TrySite.owes_take, hj, List.mem_cons] at howes
      refine .inr (.inr ⟨t, y, rfl, ?_⟩)
      rw [hy, TrySite.owes_signal]
      exact howes.resolve_left hij
  · obtain ⟨rfl, rfl⟩ := Prod.mk.inj (Option.some.inj hu)
    simp [hy] at hz
  · by_cases hij : i = j
    · exact ⟨t, y, k, rfl, hy, hj.trans hij.symm⟩
    · rw [hold i hij] at heats
      obtain ⟨l, hz, -⟩ := h.signalled hi heats
      simp [hx] at hz

theorem TableOk.signal (h : TableOk n state (some (t, x)) asleep) (hx : x.pc = .signal k)
    (hy : y.pc = k.next)
    (hasleep : ∀ i, asleep' i → asleep i ∧ i ≠ k.target n t) :
    TableOk n state (some (t, y)) asleep' := by
  refine ⟨h.adjacent, fun i hi hhungry => ?_, fun u z l hu hz => ?_, fun i hi heats => ?_⟩
  · rcases h.owed hi hhungry with hl | hr | howes
    · exact .inl hl
    · exact .inr (.inl hr)
    · rw [hx, TrySite.owes_signal] at howes
      exact .inr (.inr ⟨t, y, rfl, hy ▸ howes⟩)
  · obtain ⟨rfl, rfl⟩ := Prod.mk.inj (Option.some.inj hu)
    exact absurd (hy.symm.trans hz) (TrySite.next_ne_take k l)
  · obtain ⟨hi, hne⟩ := hasleep i hi
    obtain ⟨l, hz, htarget⟩ := h.signalled hi heats
    obtain rfl : k = l := PhilPc.signal.inj (hx.symm.trans hz)
    exact absurd htarget.symm hne

end TableOk

/-! ### Runs -/

def Table.Asleep (m : Table) (i : Nat) : Prop := ∃ c x, m.places[i]? = some (.waiting c x)

structure Table.Inv (n : Nat) (m : Table) : Prop where
  disciplined : Disciplined m
  length : m.places.length = n
  allowed : ∀ i p, m.places[i]? = some p → p.data.pc.allows (m.shared i) ∧ Fits i p
  ok : TableOk n m.shared m.holder m.Asleep
  unfailed : m.failed = false

namespace Table.Inv

variable {n bites t : Nat} {m m' : Table} {x y : PhilThread} {p p' : Position PhilThread Nat}

theorem lt (h : Inv n m) (hp : m.places[t]? = some p) : t < n :=
  h.length ▸ (List.getElem?_eq_some_iff.mp hp).1

theorem start (n : Nat) : Inv n (tableInit n) := by
  have hplaces : ∀ (i : Nat) p, (tableInit n).places[i]? = some p →
      p = Position.out (PhilThread.mk .start 0) := by
    intro i p hp
    simp only [tableInit, List.map_replicate, List.getElem?_replicate] at hp
    split at hp
    · exact (Option.some.inj hp).symm
    · simp at hp
  refine ⟨Disciplined.start _ _, by simp [tableInit], fun i p hp => ?_, ⟨?_, ?_, ?_, ?_⟩, rfl⟩
  · rw [hplaces i p hp]
    exact ⟨rfl, .inl rfl⟩
  · simp [tableInit]
  · simp [tableInit]
  · simp [holder_of_free, tableInit]
  · simp [tableInit]

theorem allowed_set (h : Inv n m) (hp : m.places[t]? = some p) (hshared : m'.shared = m.shared)
    (hplaces : m'.places = m.places.set t p') (hallows : p'.data.pc.allows (m.shared t))
    (hfits : Fits t p')
    (i : Nat) (q) (hq : m'.places[i]? = some q) : q.data.pc.allows (m'.shared i) ∧ Fits i q := by
  rw [hplaces] at hq
  rw [hshared]
  by_cases hit : i = t
  · subst hit
    rw [getElem?_set_self hp] at hq
    obtain rfl := Option.some.inj hq
    exact ⟨hallows, hfits⟩
  · rw [getElem?_set_other hit] at hq
    exact h.allowed i q hq

theorem aside (h : Inv n m) (hd : Disciplined m') (hp : m.places[t]? = some p)
    (hin : ∀ x, p ≠ .inside x)
    (hmutex : m'.mutex = m.mutex) (hshared : m'.shared = m.shared)
    (hplaces : m'.places = m.places.set t p')
    (hfailed : m'.failed = m.failed) (hallows : p'.data.pc.allows (m.shared t)) (hfits : Fits t p')
    (hwaits : ∀ c x, p' ≠ .waiting c x) : Inv n m' := by
  refine ⟨hd, by rw [hplaces, List.length_set, h.length],
    h.allowed_set hp hshared hplaces hallows hfits, ?_,
    hfailed.trans h.unfailed⟩
  rw [hshared, holder_of_set h.disciplined hp hin hmutex hplaces]
  refine h.ok.mono fun i => ?_
  rintro ⟨c, x, hx⟩
  rw [hplaces] at hx
  by_cases hit : i = t
  · subst hit
    rw [getElem?_set_self hp] at hx
    exact absurd (Option.some.inj hx) (hwaits c x)
  · rw [getElem?_set_other hit] at hx
    exact ⟨c, x, hx⟩

theorem goto (h : Inv n m) (hd : Disciplined ({ m with shared := state }.put t (.inside y)))
    (hp : m.places[t]? = some (.inside x)) (hself : y.pc.allows (state t))
    (hfits : Fits t (.inside y))
    (hothers : ∀ i q, i ≠ t → m.places[i]? = some q → q.data.pc.allows (state i))
    (hok : TableOk n state (some (t, y)) m.Asleep) :
    Inv n ({ m with shared := state }.put t (.inside y)) := by
  have hp' : ({ m with shared := state }.put t (.inside y)).places[t]? = some (.inside y) :=
    getElem?_set_self hp _
  refine ⟨hd, by simp [State.put, h.length], fun i q hq => ?_, ?_, h.unfailed⟩
  · by_cases hit : i = t
    · subst hit
      obtain rfl := Option.some.inj (hp'.symm.trans hq)
      exact ⟨hself, hfits⟩
    · have hq' : m.places[i]? = some q := by
        rw [← hq]
        exact (getElem?_set_other hit _).symm
      exact ⟨hothers i q hit hq', (h.allowed i q hq').2⟩
  · rw [holder_of_inside hd hp']
    refine hok.mono fun i => ?_
    rintro ⟨c, z, hz⟩
    by_cases hit : i = t
    · subst hit
      simp [hp'] at hz
    · exact ⟨c, z, (getElem?_set_other hit _).symm.trans hz⟩

theorem release (h : Inv n m) (hd : Disciplined m') (hp : m.places[t]? = some (.inside x))
    (hmutex : m'.mutex = none)
    (hshared : m'.shared = m.shared) (hplaces : m'.places = m.places.set t p')
    (hfailed : m'.failed = m.failed)
    (hallows : p'.data.pc.allows (m.shared t)) (hfits : Fits t p') (hx : x.pc.owes n t = [])
    (hsignal : ∀ k, x.pc ≠ .signal k) (hwaits : ∀ c y, p' = .waiting c y → m.shared t ≠ .eating) :
    Inv n m' := by
  refine ⟨hd, by rw [hplaces, List.length_set, h.length],
    h.allowed_set hp hshared hplaces hallows hfits, ?_,
    hfailed.trans h.unfailed⟩
  have hok := h.ok
  rw [holder_of_inside h.disciplined hp] at hok
  rw [hshared, holder_of_free hmutex]
  refine hok.pass hx hsignal (by simp) fun i => ?_
  rintro ⟨c, y, hy⟩
  rw [hplaces] at hy
  by_cases hit : i = t
  · subst hit
    rw [getElem?_set_self hp] at hy
    exact .inr (hwaits c y (Option.some.inj hy))
  · rw [getElem?_set_other hit] at hy
    exact .inl ⟨c, y, hy⟩

theorem holder_ok (h : Inv n m) (hp : m.places[t]? = some (.inside x)) :
    TableOk n m.shared (some (t, x)) m.Asleep :=
  holder_of_inside h.disciplined hp ▸ h.ok

theorem others (h : Inv n m) (t : Nat) (v : Phil) :
    ∀ i q, i ≠ t → m.places[i]? = some q → q.data.pc.allows (Function.update m.shared t v i) := by
  intro i q hit hq
  rw [Function.update_of_ne hit]
  exact (h.allowed i q hq).1

theorem loops (h : Inv n m) {i : Nat} {q : Position PhilThread Nat} (hq : m.places[i]? = some q)
    (hin : ∀ z, q ≠ .inside z) (hhungry : m.shared i = .hungry) : q.data.pc = .loop := by
  obtain ⟨hallows, hfits⟩ := h.allowed i q hq
  rw [hhungry] at hallows
  cases q with
  | inside z => exact absurd rfl (hin z)
  | waiting c z => exact hfits.2
  | out z =>
    rcases hfits with hz | hz | hz | hz <;> simp [Position.data, hz, PhilPc.allows] at hallows
  | locking z =>
    rcases hfits with hz | hz | hz | hz | hz
    · simp [Position.data, hz, PhilPc.allows] at hallows
    · simp [Position.data, hz, PhilPc.allows] at hallows
    · simp [Position.data, hz, PhilPc.allows] at hallows
    · simp [Position.data, hz, PhilPc.allows] at hallows
    · exact hz

theorem take (h : Inv n m) {k : TrySite} (hp : m.places[t]? = some (.inside x))
    (hx : x.pc = .take k) (hd : Disciplined
      ({ m with shared := Function.update m.shared (k.target n t) .eating }.put t
        (.inside (x.goto (.signal k))))) :
    Inv n ({ m with shared := Function.update m.shared (k.target n t) .eating }.put t
      (.inside (x.goto (.signal k)))) := by
  have hlt := h.lt hp
  have hok := h.holder_ok hp
  obtain ⟨hhungry, -, -⟩ := hok.taking t x k rfl hx
  obtain ⟨hallows, -⟩ := h.allowed t _ hp
  -- only the call for itself can find the thread inside hungry
  have hself : k.target n t = t → k = .self := by
    intro htarget
    rw [htarget] at hhungry
    cases k with
    | self => rfl
    | left => simp [Position.data, hx, hhungry, PhilPc.allows] at hallows
    | right => simp [Position.data, hx, hhungry, PhilPc.allows] at hallows
  refine h.goto hd hp ?_ (by simp [Fits, PhilThread.goto]) (fun i q hit hq => ?_)
    (hok.take (by omega) hlt hx rfl)
  · cases k with
    | self => simp [PhilThread.goto, PhilPc.allows, TrySite.target]
    | left =>
      rw [Function.update_of_ne fun he => by simpa using hself he.symm]
      simpa [Position.data, hx, PhilPc.allows, PhilThread.goto] using hallows
    | right =>
      rw [Function.update_of_ne fun he => by simpa using hself he.symm]
      simpa [Position.data, hx, PhilPc.allows, PhilThread.goto] using hallows
  · by_cases htarget : i = k.target n t
    · subst htarget
      have hin : ∀ z, q ≠ .inside z := by
        rintro z rfl
        have := (h.disciplined.owned hq).symm.trans (h.disciplined.owned hp)
        exact hit (Option.some.inj this)
      rw [h.loops hq hin hhungry, Function.update_self]
      exact .inr rfl
    · rw [Function.update_of_ne htarget]
      exact (h.allowed i q hq).1

theorem waitset_sub (h : Inv n m) {c i : Nat} (hi : i ∈ m.waitset c) : i = c := by
  obtain ⟨z, hz⟩ := (h.disciplined.queued c i).mp hi
  exact (h.allowed i _ hz).2.1.symm

theorem signal_asleep (h : Inv n m) (c : Nat) {i : Nat} (hi : Table.Asleep (m.signal c) i) :
    m.Asleep i ∧ i ≠ c := by
  obtain ⟨d, z, hz⟩ := hi
  have hz' : m.places[i]? = some (.waiting d z) := by
    rcases signal_places m c i with hs | hs
    · exact hs.symm.trans hz
    · obtain ⟨q, hq, hr⟩ := Option.map_eq_some_iff.mp (hs.symm.trans hz)
      rw [hq, (rouse_waiting_iff.mp hr).2]
  refine ⟨⟨d, z, hz'⟩, ?_⟩
  rintro rfl
  obtain rfl : d = i := (h.allowed i _ hz').2.1
  have hmem := ((h.disciplined.signal d).queued d d).mpr ⟨z, hz⟩
  have hnodup := h.disciplined.nodup d
  rw [signal_waitset] at hmem
  cases hw : m.waitset d with
  | nil => simp [hw] at hmem
  | cons w ws =>
    obtain rfl : w = d := h.waitset_sub (c := d) (by simp [hw])
    rw [hw] at hmem hnodup
    exact (List.nodup_cons.mp hnodup).1 hmem

theorem signal (h : Inv n m) {k : TrySite} (hp : m.places[t]? = some (.inside x))
    (hx : x.pc = .signal k)
    (hd : Disciplined ((m.signal (k.target n t)).put t (.inside (x.goto k.next)))) :
    Inv n ((m.signal (k.target n t)).put t (.inside (x.goto k.next))) := by
  have hok := h.holder_ok hp
  obtain ⟨hallows, -⟩ := h.allowed t _ hp
  have hp₁ := signal_inside (c := k.target n t).mpr hp
  refine ⟨hd, by simp [State.put, signal_length, h.length], fun i q hq => ?_, ?_, ?_⟩
  · show q.data.pc.allows ((m.signal _).shared i) ∧ Fits i q
    rw [signal_shared]
    by_cases hit : i = t
    · subst hit
      obtain rfl := Option.some.inj ((getElem?_set_self hp₁ _).symm.trans hq)
      simp only [Position.data, hx] at hallows
      cases k with
      | self => exact ⟨.inr hallows, by simp [Fits, PhilThread.goto, TrySite.next]⟩
      | left => exact ⟨hallows, by simp [Fits, PhilThread.goto, TrySite.next]⟩
      | right => exact ⟨hallows, by simp [Fits, PhilThread.goto, TrySite.next]⟩
    · have hq' : (m.signal (k.target n t)).places[i]? = some q :=
        (getElem?_set_other hit _).symm.trans hq
      rcases signal_places m (k.target n t) i with hs | hs
      · exact h.allowed i q (hs.symm.trans hq')
      · obtain ⟨r, hr, hrq⟩ := Option.map_eq_some_iff.mp (hs.symm.trans hq')
        obtain ⟨hra, hrf⟩ := h.allowed i r hr
        rw [← hrq, rouse_data]
        refine ⟨hra, ?_⟩
        unfold Position.rouse
        split
        · split
          · exact .inr (.inr (.inr (.inr hrf.2)))
          · exact hrf
        · exact hrf
  · rw [holder_of_inside hd (getElem?_set_self hp₁ _)]
    show TableOk n (m.signal _).shared _ _
    rw [signal_shared]
    refine hok.signal hx rfl fun i hi => h.signal_asleep _ ?_
    obtain ⟨c, z, hz⟩ := hi
    by_cases hit : i = t
    · subst hit
      have := (getElem?_set_self hp₁ _).symm.trans hz
      simp at this
    · exact ⟨c, z, (getElem?_set_other hit _).symm.trans hz⟩
  · show (m.signal _).failed = false
    rw [signal_failed, h.unfailed]

theorem act (h : Inv n m) (hp : m.places[t]? = some (.inside x))
    (hd : Disciplined (m.act t (philosopherInside n t x m.shared))) :
    Inv n (m.act t (philosopherInside n t x m.shared)) := by
  have hn : 0 < n := by have := h.lt hp; omega
  have hok := h.holder_ok hp
  obtain ⟨hallows, hfits⟩ := h.allowed t _ hp
  have hsame : ∀ i q, i ≠ t → m.places[i]? = some q → q.data.pc.allows (m.shared i) :=
    fun i q _ hq => (h.allowed i q hq).1
  cases hpc : x.pc with
  | start => exact absurd hpc hfits.1
  | think => exact absurd hpc hfits.2.1
  | eat => exact absurd hpc hfits.2.2.1
  | gone => exact absurd hpc hfits.2.2.2
  | arrive =>
    simp only [Position.data, hpc, PhilPc.allows] at hallows
    simp only [philosopherInside, hpc] at hd ⊢
    exact h.goto hd hp (by simp [PhilThread.goto, PhilPc.allows]) (by simp [Fits, PhilThread.goto])
      (h.others t _)
      (hok.set (by simp) (by simp [hpc, PhilPc.owes]) (by simp [hpc]) (by simp [PhilThread.goto])
        (by simp [hallows]) (by simp))
  | hungry =>
    simp only [Position.data, hpc, PhilPc.allows] at hallows
    simp only [philosopherInside, hpc] at hd ⊢
    exact h.goto hd hp (by simp [PhilThread.goto, PhilPc.allows]) (by simp [Fits, PhilThread.goto])
      (h.others t _)
      (hok.set (by simp) (by simp [hpc, PhilPc.owes]) (by simp [hpc]) (by simp [PhilThread.goto])
        (by simp [hallows]) (by simp [PhilThread.goto, PhilPc.owes]))
  | done =>
    simp only [philosopherInside, hpc] at hd ⊢
    exact h.goto hd hp (by simp [PhilThread.goto, PhilPc.allows]) (by simp [Fits, PhilThread.goto])
      (h.others t _)
      (hok.set (by simp) (by simp [hpc, PhilPc.owes]) (by simp [hpc]) (by simp [PhilThread.goto])
        (by simp [PhilThread.goto, PhilPc.owes]) (by simp))
  | leave =>
    simp only [Position.data, hpc, PhilPc.allows] at hallows
    simp only [philosopherInside, hpc] at hd ⊢
    exact h.goto hd hp (by simp [PhilThread.goto, PhilPc.allows]) (by simp [Fits, PhilThread.goto])
      (h.others t _)
      (hok.set (by simp) (by simp [hpc, PhilPc.owes]) (by simp [hpc]) (by simp [PhilThread.goto])
        (by simp [hallows]) (by simp))
  | test k =>
    simp only [philosopherInside, hpc] at hd ⊢
    refine h.goto hd hp ?_ ?_ hsame (hok.test hpc rfl)
    · simp only [Position.data, hpc] at hallows
      by_cases hcan : CanEat n m.shared (k.target n t)
      · cases k <;> simpa [PhilThread.goto, hcan, PhilPc.allows] using hallows
      · cases k with
        | self => simpa [PhilThread.goto, hcan, PhilPc.allows, TrySite.next] using Or.inl hallows
        | left => simpa [PhilThread.goto, hcan, PhilPc.allows, TrySite.next] using hallows
        | right => simpa [PhilThread.goto, hcan, PhilPc.allows, TrySite.next] using hallows
    · by_cases hcan : CanEat n m.shared (k.target n t)
      · simp [Fits, PhilThread.goto, hcan]
      · cases k <;> simp [Fits, PhilThread.goto, hcan, TrySite.next]
  | take k =>
    simp only [philosopherInside, hpc] at hd ⊢
    exact h.take hp hpc hd
  | signal k =>
    simp only [philosopherInside, hpc] at hd ⊢
    exact h.signal hp hpc hd
  | loop =>
    simp only [Position.data, hpc, PhilPc.allows] at hallows
    by_cases hhungry : m.shared t = .hungry
    · simp only [philosopherInside, hpc, if_pos hhungry] at hd ⊢
      exact h.release hd hp rfl rfl rfl rfl
        (by simpa [Position.data, hpc, PhilPc.allows] using hallows) ⟨rfl, hpc⟩
        (by simp [hpc, PhilPc.owes]) (by simp [hpc]) (by simp [hhungry])
    · simp only [philosopherInside, hpc, if_neg hhungry] at hd ⊢
      exact h.goto hd hp (hallows.resolve_left hhungry) (by simp [Fits, PhilThread.goto]) hsame
        (hok.next (by simp [hpc, PhilPc.owes]) (by simp [hpc]) (by simp [PhilThread.goto]))
  | check =>
    simp only [Position.data, hpc, PhilPc.allows] at hallows
    simp only [philosopherInside, hpc, if_pos hallows] at hd ⊢
    exact h.goto hd hp hallows (by simp [Fits, PhilThread.goto]) hsame
      (hok.next (by simp [hpc, PhilPc.owes]) (by simp [hpc]) (by simp [PhilThread.goto]))
  | arrived =>
    simp only [philosopherInside, hpc] at hd ⊢
    exact h.release hd hp rfl rfl rfl rfl
      (by simpa [Position.data, hpc, PhilThread.goto, PhilPc.allows] using hallows)
      (by simp [Fits, PhilThread.goto]) (by simp [hpc, PhilPc.owes]) (by simp [hpc]) (by simp)
  | served =>
    simp only [philosopherInside, hpc] at hd ⊢
    exact h.release hd hp rfl rfl rfl rfl
      (by simpa [Position.data, hpc, PhilThread.goto, PhilPc.allows] using hallows)
      (by simp [Fits, PhilThread.goto]) (by simp [hpc, PhilPc.owes]) (by simp [hpc]) (by simp)
  | freed =>
    simp only [philosopherInside, hpc] at hd ⊢
    exact h.release hd hp rfl rfl rfl rfl
      (by simpa [Position.data, hpc, PhilPc.allows] using hallows)
      (by simp [Fits]) (by simp [hpc, PhilPc.owes]) (by simp [hpc]) (by simp)
  | leaving =>
    simp only [philosopherInside, hpc] at hd ⊢
    exact h.release hd hp rfl rfl rfl rfl
      (by simpa [Position.data, hpc, PhilThread.goto, PhilPc.allows] using hallows)
      (by simp [Fits, PhilThread.goto]) (by simp [hpc, PhilPc.owes]) (by simp [hpc]) (by simp)

theorem steps (h : Inv n m) (hs : Steps (philosopher n bites) m m') : Inv n m' := by
  have hd := h.disciplined.steps hs
  cases hs with
  | @move t x y hp ho =>
    exfalso
    revert ho
    show philosopherOutside bites x = some (.move y) → False
    unfold philosopherOutside
    split <;> simp
  | @quit t x hp ho =>
    exfalso
    revert ho
    show philosopherOutside bites x = some .fail → False
    unfold philosopherOutside
    split <;> simp
  | @lock t x y hp ho =>
    obtain ⟨hallows, -⟩ := h.allowed t _ hp
    have hy : philosopherOutside bites x = some (.lock y) := ho
    refine h.aside hd hp (by simp) rfl rfl rfl rfl ?_ ?_ (by simp)
    · unfold philosopherOutside at hy
      split at hy
      · rename_i hpc
        obtain rfl := Out.lock.inj (Option.some.inj hy)
        simpa [Position.data, PhilThread.goto, hpc, PhilPc.allows] using hallows
      · rename_i hpc
        obtain rfl := Out.lock.inj (Option.some.inj hy)
        simp only [Position.data, hpc, PhilPc.allows] at hallows
        by_cases hj : x.j < bites
        · simpa [Position.data, PhilThread.goto, hj, PhilPc.allows] using hallows
        · simpa [Position.data, PhilThread.goto, hj, PhilPc.allows] using hallows
      · rename_i hpc
        obtain rfl := Out.lock.inj (Option.some.inj hy)
        simpa [Position.data, PhilThread.goto, hpc, PhilPc.allows] using hallows
      · simp at hy
    · unfold philosopherOutside at hy
      split at hy
      · obtain rfl := Out.lock.inj (Option.some.inj hy)
        simp [Fits, PhilThread.goto]
      · obtain rfl := Out.lock.inj (Option.some.inj hy)
        simp only [Fits, PhilThread.goto]
        split <;> simp
      · obtain rfl := Out.lock.inj (Option.some.inj hy)
        simp [Fits, PhilThread.goto]
      · simp at hy
  | @enter t x hp hfree =>
    obtain ⟨hallows, hfits⟩ := h.allowed t _ hp
    have hp' := getElem?_set_self hp (.inside x)
    refine ⟨hd, by simp [State.put, h.length], fun i q hq => ?_, ?_, h.unfailed⟩
    · by_cases hit : i = t
      · subst hit
        obtain rfl := Option.some.inj (hp'.symm.trans hq)
        refine ⟨hallows, ?_⟩
        rcases hfits with hx | hx | hx | hx | hx <;> simp [Fits, hx]
      · exact h.allowed i q ((getElem?_set_other hit _).symm.trans hq)
    · have hok := h.ok
      rw [holder_of_free hfree] at hok
      rw [holder_of_inside hd hp']
      refine (hok.open fun u y k hu hy => ?_).mono fun i hi => ?_
      · obtain ⟨rfl, rfl⟩ := Prod.mk.inj (Option.some.inj hu)
        rcases hfits with hx | hx | hx | hx | hx <;> simp [hx] at hy
      · obtain ⟨c, z, hz⟩ := hi
        by_cases hit : i = t
        · subst hit
          have := hp'.symm.trans hz
          simp at this
        · exact ⟨c, z, (getElem?_set_other hit _).symm.trans hz⟩
  | @wake t c x hp =>
    obtain ⟨hallows, hfits⟩ := h.allowed t _ hp
    exact h.aside hd hp (by simp) rfl rfl rfl rfl hallows (by simp [Fits, hfits.2]) (by simp)
  | @act t x hp => exact h.act hp hd

theorem run
    (h : Transition.Reach (State.step (philosopher n bites)) Transition.Always (tableInit n) m) :
    Inv n m :=
  h.invariant (start n) fun _ _ _ hu _ hs => hu.steps (steps_of_step hs)

end Table.Inv

theorem symposium_monitor {n bites : Nat} {m : Table}
    (h : Transition.Reach (State.step (philosopher n bites)) Transition.Always (tableInit n) m) :
    m.failed = false ∧ (m.mutex = none →
      (∀ i, i < n → leftOf i n ≠ i → ¬(m.shared i = .eating ∧ m.shared (leftOf i n) = .eating)) ∧
      (∀ i, i < n → m.shared i = .hungry →
        m.shared (leftOf i n) = .eating ∨ m.shared (rightOf i n) = .eating) ∧
      ∀ i c x, m.places[i]? = some (.waiting c x) → m.shared i ≠ .eating) := by
  have hinv := Table.Inv.run h
  refine ⟨hinv.unfailed, fun hfree => ?_⟩
  have hok := hinv.ok
  rw [holder_of_free hfree] at hok
  refine ⟨fun i hi hne hboth => hok.adjacent i hi hne hboth.1 hboth.2, fun i hi hhungry => ?_,
    fun i c x hx heats => ?_⟩
  · rcases hok.hungry i hi hhungry with hl | hr | ⟨t, x, ht, -⟩
    · exact .inl hl
    · exact .inr hr
    · simp at ht
  · obtain ⟨t, y, k, ht, -⟩ := hok.woken i ⟨c, x, hx⟩ heats
    simp at ht

/-- Philosopher 0 eats, and philosopher 1 sleeps hungry. -/
theorem symposium_monitor_two : ∃ m : Table, m.mutex = none ∧ m.shared 1 = .hungry ∧
    m.failed = false ∧ m.shared 0 = .eating ∧ m.shared 1 ≠ .eating := by
  obtain ⟨m, hm, hp⟩ := Transition.exists_reach_of_exec (State.step (philosopher 2 1)) (tableInit 2)
    (List.replicate 13 (.run 0) ++ List.replicate 9 (.run 1))
    (fun m => m.mutex = none && m.shared 1 = .hungry && m.places[1]? = some (.waiting 1 ⟨.loop, 0⟩))
    (by decide +kernel)
  simp only [Bool.and_eq_true, decide_eq_true_eq] at hp
  obtain ⟨⟨hfree, hhungry⟩, hwaits⟩ := hp
  obtain ⟨hfailed, hlaws⟩ := symposium_monitor hm
  obtain ⟨-, hneighbour, hasleep⟩ := hlaws hfree
  refine ⟨m, hfree, hhungry, hfailed, ?_, hasleep 1 1 _ hwaits⟩
  rcases hneighbour 1 (by decide) hhungry with hl | hr
  · exact hl
  · exact hr

end TinyOS
