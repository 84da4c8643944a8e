import TinyOS.Lib.Monitors
import Mathlib.Algebra.BigOperators.Group.List.Basic
import Mathlib.Algebra.GroupWithZero.Nat

/-! `BarrierSync`, called again and again by `n` threads. -/

namespace TinyOS

open Monitors Transition

inductive BarPc
  | user
  | read
  | check
  | count
  | test
  | bump
  | reset
  | broadcast
  | loop
  | unlock
deriving DecidableEq

/-- `round` is the round in which the call read the epoch, and `history` has the rounds of the calls
that returned; the code reads neither. -/
structure BarThread where
  pc : BarPc
  epoch : Int
  round : Nat
  history : List Nat
deriving DecidableEq

def BarThread.goto (x : BarThread) (pc : BarPc) : BarThread := { x with pc := pc }

/-- Without the mutex and the condition variable. `rounds` is the number of times that the epoch was
bumped, `completed` the number of broadcasts. -/
structure Barrier where
  count : Nat
  epoch : BitVec 32
  rounds : Nat
  completed : Nat

/-- `int epoch = bar->epoch`, and the comparison, are conversions between `int` and `unsigned
int`. -/
def barrierSyncInside (n : Nat) (x : BarThread) (bar : Barrier) : Act Barrier BarThread Unit :=
  match x.pc with
  | .user => .goto x bar
  | .read => .goto { x with pc := .check, epoch := bar.epoch.toInt, round := bar.rounds } bar
  | .check => if bar.count < n then .goto (x.goto .count) bar else .fail
  | .count => .goto (x.goto .test) { bar with count := (bar.count + 1) % 2 ^ 32 }
  | .test => .goto (x.goto (if bar.count = n then .bump else .loop)) bar
  | .bump => .goto (x.goto .reset) { bar with epoch := bar.epoch + 1, rounds := bar.rounds + 1 }
  | .reset => .goto (x.goto .broadcast) { bar with count := 0 }
  | .broadcast => .broadcast () (x.goto .loop) { bar with completed := bar.completed + 1 }
  | .loop => if BitVec.ofInt 32 x.epoch = bar.epoch then .wait () x else .goto (x.goto .unlock) bar
  | .unlock => .unlock { x with pc := .user, history := x.history ++ [x.round] }

def barrierSyncOutside (n : Nat) (x : BarThread) : Option (Out BarThread) :=
  match x.pc with
  | .user => some (if 0 < n then .lock (x.goto .read) else .fail)
  | _ => none

def barrierSync (n : Nat) : Code Barrier BarThread Unit where
  inside _ := barrierSyncInside n
  outside _ := barrierSyncOutside n

abbrev BarState := State Barrier BarThread Unit

def barrierInit (n : Nat) : BarState :=
  ⟨none, ⟨0, 0, 0, 0⟩, fun _ => [], (List.replicate n ⟨.user, 0, 0, []⟩).map .out, false⟩

def BarThread.arrived (x : BarThread) : Nat :=
  match x.pc with
  | .user | .read | .check | .count => x.history.length
  | .test | .bump | .reset | .broadcast | .loop | .unlock => x.history.length + 1

def BarState.returned (m : BarState) (k : Nat) : Nat :=
  (m.places.map fun p => p.data.history.count k).sum

/-- The threads that are counted in round `k` and have not returned. -/
def BarState.leaving (m : BarState) (k : Nat) : Nat :=
  m.places.countP fun p => p.data.arrived = k + 1 && p.data.history.length = k

/-! ### The invariant -/

/-- The value of the local `epoch` in a call of round `k`. -/
def epochOf (k : Nat) : Int := (BitVec.ofNat 32 k).toInt

def BarThread.Calls (x : BarThread) (rounds : Nat) : Prop :=
  match x.pc with
  | .user | .read => x.history.length = rounds
  | .check | .count | .test | .bump =>
    x.history.length = rounds ∧ x.round = rounds ∧ x.epoch = epochOf rounds
  | .loop =>
    (x.history.length = rounds ∨ x.history.length + 1 = rounds) ∧ x.round = x.history.length ∧
    x.epoch = epochOf x.history.length
  | .reset | .broadcast | .unlock => x.history.length + 1 = rounds ∧ x.round = x.history.length ∧
    x.epoch = epochOf x.history.length

def BarFits : Position BarThread Unit → Prop
  | .out x => x.pc = .user
  | .locking x => x.pc = .read ∨ x.pc = .loop
  | .inside x => x.pc ≠ .user
  | .waiting _ x => x.pc = .loop

def BarThread.counted (x : BarThread) (rounds : Nat) : Bool :=
  (x.pc = .test || x.pc = .bump || x.pc = .loop) && x.history.length = rounds

def BarState.counted (m : BarState) : Nat := m.places.countP fun p => p.data.counted m.shared.rounds

/-- The counter, when `a` threads count and the thread inside is at `pc`. -/
def CountOk (n : Nat) (bar : Barrier) (a : Nat) (pc : Option BarPc) : Prop :=
  match pc with
  | some .test => bar.count = a ∧ bar.completed = bar.rounds
  | some .bump => a = n ∧ bar.completed = bar.rounds
  | some .reset => a = 0 ∧ bar.completed + 1 = bar.rounds
  | some .broadcast => bar.count = 0 ∧ a = 0 ∧ bar.completed + 1 = bar.rounds
  | _ => bar.count = a ∧ a < n ∧ bar.completed = bar.rounds

structure BarState.Inv (n : Nat) (m : BarState) : Prop where
  disciplined : Disciplined m
  length : m.places.length = n
  calls : ∀ p ∈ m.places, p.data.Calls m.shared.rounds ∧ BarFits p
  history : ∀ p ∈ m.places, p.data.history = List.range p.data.history.length ∧
    p.data.history.length ≤ m.shared.completed
  count : CountOk n m.shared m.counted (m.holder.map (·.2.pc))
  epoch : m.shared.epoch = BitVec.ofNat 32 m.shared.rounds
  asleep : ∀ c x, Position.waiting c x ∈ m.places → m.shared.completed ≤ x.round
  unfailed : m.failed = false

namespace BarState.Inv

variable {n t : Nat} {m m' : BarState} {x y : BarThread} {p p' : Position BarThread Unit}

theorem start (hn : 1 ≤ n) : Inv n (barrierInit n) := by
  have hplaces : ∀ p ∈ (barrierInit n).places, p = Position.out (BarThread.mk .user 0 0 []) := by
    intro p hp
    simp only [barrierInit, List.map_replicate] at hp
    exact List.eq_of_mem_replicate hp
  refine ⟨Disciplined.start _ _, by simp [barrierInit], fun p hp => ?_,
    fun p hp => ?_, ?_, rfl, fun c x hx => ?_, rfl⟩
  · rw [hplaces p hp]
    exact ⟨rfl, rfl⟩
  · rw [hplaces p hp]
    exact ⟨rfl, Nat.zero_le _⟩
  · have hnone : (barrierInit n).counted = 0 := by
      unfold BarState.counted
      rw [List.countP_eq_zero]
      intro p hp
      rw [hplaces p hp]
      simp [Position.data, BarThread.counted]
    rw [hnone, holder_of_free rfl]
    exact ⟨rfl, by omega, rfl⟩
  · exact absurd (hplaces _ hx) (by simp)

/-- One thread moves, and neither the epoch nor the completed rounds change. -/
theorem set (h : Inv n m) (hd : Disciplined m') (hplaces : m'.places = m.places.set t p')
    (hrounds : m'.shared.rounds = m.shared.rounds)
    (hcompleted : m'.shared.completed = m.shared.completed)
    (hepoch : m'.shared.epoch = m.shared.epoch) (hfailed : m'.failed = m.failed)
    (hcalls : p'.data.Calls m.shared.rounds) (hfits : BarFits p')
    (hhistory : p'.data.history = List.range p'.data.history.length ∧
      p'.data.history.length ≤ m.shared.completed)
    (hcount : CountOk n m'.shared m'.counted (m'.holder.map (·.2.pc)))
    (hasleep : ∀ c x, p' = .waiting c x → m.shared.completed ≤ x.round) : Inv n m' := by
  have hmem : ∀ q ∈ m'.places, q ∈ m.places ∨ q = p' := fun q hq =>
    List.mem_or_eq_of_mem_set (hplaces ▸ hq)
  refine ⟨hd, by rw [hplaces, List.length_set, h.length], fun q hq => ?_, fun q hq => ?_, hcount,
    by rw [hepoch, hrounds, h.epoch], fun c x hx => ?_, hfailed.trans h.unfailed⟩
  · rw [hrounds]
    rcases hmem q hq with hq | rfl
    · exact h.calls q hq
    · exact ⟨hcalls, hfits⟩
  · rw [hcompleted]
    rcases hmem q hq with hq | rfl
    · exact h.history q hq
    · exact hhistory
  · rw [hcompleted]
    rcases hmem _ hx with hq | hq
    · exact h.asleep c x hq
    · exact hasleep c x hq.symm

theorem counted_set (hp : m.places[t]? = some p) (hplaces : m'.places = m.places.set t p')
    (hrounds : m'.shared.rounds = m.shared.rounds) :
    m'.counted + (if p.data.counted m.shared.rounds then 1 else 0) =
      m.counted + if p'.data.counted m.shared.rounds then 1 else 0 := by
  obtain ⟨ht, rfl⟩ := List.getElem?_eq_some_iff.mp hp
  unfold BarState.counted
  rw [hplaces, hrounds, List.countP_set ht]
  have hpos : m.places[t].data.counted m.shared.rounds = true →
      0 < m.places.countP fun p => p.data.counted m.shared.rounds := fun hc =>
    List.countP_pos_iff.mpr ⟨_, List.getElem_mem ht, hc⟩
  by_cases hc : m.places[t].data.counted m.shared.rounds = true
  · have := hpos hc
    simp only [hc, if_true]
    omega
  · simp only [hc]
    simp

theorem counted_put (m₁ : BarState) (hp : m.places[t]? = some p) (hplaces : m₁.places = m.places)
    (hrounds : m₁.shared.rounds = m.shared.rounds) (p' : Position BarThread Unit) :
    BarState.counted (m₁.put t p') + (if p.data.counted m.shared.rounds then 1 else 0) =
      m.counted + if p'.data.counted m.shared.rounds then 1 else 0 :=
  counted_set hp (congrArg (List.set · t p') hplaces) hrounds

theorem same_epoch_iff (h : Inv n m) {k : Nat}
    (hk : k = m.shared.rounds ∨ k + 1 = m.shared.rounds) :
    BitVec.ofInt 32 (epochOf k) = m.shared.epoch ↔ k = m.shared.rounds := by
  rw [h.epoch, epochOf, BitVec.ofInt_toInt]
  constructor
  · intro he
    have hnat := congrArg BitVec.toNat he
    simp only [BitVec.toNat_ofNat] at hnat
    omega
  · rintro rfl
    rfl

theorem aside (h : Inv n m) (hd : Disciplined m') (hp : m.places[t]? = some p)
    (hin : ∀ x, p ≠ .inside x)
    (hmutex : m'.mutex = m.mutex) (hshared : m'.shared = m.shared)
    (hplaces : m'.places = m.places.set t p')
    (hfailed : m'.failed = m.failed) (hcalls : p'.data.Calls m.shared.rounds) (hfits : BarFits p')
    (hhistory : p'.data.history = p.data.history)
    (hcounted : p'.data.counted m.shared.rounds = p.data.counted m.shared.rounds)
    (hwaits : ∀ c x, p' ≠ .waiting c x) : Inv n m' := by
  have hsame := counted_set hp hplaces (by rw [hshared])
  rw [hcounted, Nat.add_right_cancel_iff] at hsame
  refine h.set hd hplaces (by rw [hshared]) (by rw [hshared])
    (by rw [hshared]) hfailed hcalls hfits ?_ ?_
    fun c x hx => absurd hx (hwaits c x)
  · rw [hhistory]
    exact h.history p (List.mem_of_getElem? hp)
  · rw [hsame, hshared, holder_of_set h.disciplined hp hin hmutex hplaces]
    exact h.count

theorem goto (h : Inv n m) {bar : Barrier}
    (hd : Disciplined ({ m with shared := bar }.put t (.inside y)))
    (hp : m.places[t]? = some (.inside x)) (hrounds : bar.rounds = m.shared.rounds)
    (hcompleted : bar.completed = m.shared.completed) (hepoch : bar.epoch = m.shared.epoch)
    (hcalls : y.Calls m.shared.rounds) (hy : y.pc ≠ .user) (hhistory : y.history = x.history)
    (hcount : ∀ a, a + (if x.counted m.shared.rounds then 1 else 0) =
      m.counted + (if y.counted m.shared.rounds then 1 else 0) → a ≤ n →
      CountOk n bar a (some y.pc)) :
    Inv n ({ m with shared := bar }.put t (.inside y)) := by
  have hsame : ({ m with shared := bar }.put t (.inside y) : BarState).counted +
      (if x.counted m.shared.rounds then 1 else 0) = m.counted + if y.counted m.shared.rounds then 1
      else 0 := counted_put { m with shared := bar } hp rfl hrounds (.inside y)
  have hle : ({ m with shared := bar }.put t (.inside y) : BarState).counted ≤ n := by
    refine Nat.le_trans List.countP_le_length ?_
    simp [State.put, h.length]
  refine h.set hd rfl hrounds hcompleted hepoch rfl hcalls hy ?_ ?_ (by simp)
  · show y.history = List.range y.history.length ∧ y.history.length ≤ _
    rw [hhistory]
    exact h.history (.inside x) (List.mem_of_getElem? hp)
  · rw [holder_of_inside hd (getElem?_set_self hp _)]
    exact hcount _ hsame hle

theorem release (h : Inv n m) (hd : Disciplined m') (hp : m.places[t]? = some (.inside x))
    (hmutex : m'.mutex = none)
    (hshared : m'.shared = m.shared) (hplaces : m'.places = m.places.set t p')
    (hfailed : m'.failed = m.failed)
    (hcalls : p'.data.Calls m.shared.rounds) (hfits : BarFits p')
    (hhistory : p'.data.history = List.range p'.data.history.length ∧
      p'.data.history.length ≤ m.shared.completed)
    (hcounted : p'.data.counted m.shared.rounds = x.counted m.shared.rounds)
    (hcount : CountOk n m.shared m.counted none)
    (hwaits : ∀ c y, p' = .waiting c y → m.shared.completed ≤ y.round) :
    Inv n m' := by
  have hsame := counted_set hp hplaces (by rw [hshared])
  rw [hcounted] at hsame
  change _ = _ + (if x.counted _ then 1 else 0) at hsame
  refine h.set hd hplaces (by rw [hshared]) (by rw [hshared])
    (by rw [hshared]) hfailed hcalls hfits hhistory ?_ hwaits
  rw [holder_of_free hmutex, hshared, Nat.add_right_cancel hsame]
  exact hcount

theorem count_at (h : Inv n m) (hp : m.places[t]? = some (.inside x)) :
    CountOk n m.shared m.counted (some x.pc) := by
  have hcount := h.count
  rw [holder_of_inside h.disciplined hp] at hcount
  exact hcount

/-- When the last thread has come, all the threads are in the loop of the round. -/
theorem all_counted (h : Inv n m) (hall : m.counted = n) {q : Position BarThread Unit}
    (hq : q ∈ m.places) :
    q.data.counted m.shared.rounds = true := by
  unfold BarState.counted at hall
  rw [← h.length, List.countP_eq_length] at hall
  exact hall q hq

theorem bump (h : Inv n m) (hp : m.places[t]? = some (.inside x)) (hx : x.pc = .bump)
    {bar : Barrier}
    (hbar : bar = { m.shared with epoch := m.shared.epoch + 1, rounds := m.shared.rounds + 1 })
    (hd : Disciplined ({ m with shared := bar }.put t (.inside (x.goto .reset)))) :
    Inv n ({ m with shared := bar }.put t (.inside (x.goto .reset))) := by
  obtain ⟨hall, hcompleted⟩ : m.counted = n ∧ m.shared.completed = m.shared.rounds := by
    simpa [CountOk, hx] using h.count_at hp
  have hmine := (h.calls _ (List.mem_of_getElem? hp)).1
  simp only [Position.data, BarThread.Calls, hx] at hmine
  obtain ⟨hlength, hround, hepoch⟩ := hmine
  have hthen : ∀ q ∈ m.places, q.data.history.length = m.shared.rounds := by
    intro q hq
    have := h.all_counted hall hq
    simp only [BarThread.counted, Bool.and_eq_true, decide_eq_true_eq] at this
    exact this.2
  -- the others are in the loop, since only the thread inside is at the other statements
  have hloop : ∀ i q, i ≠ t → m.places[i]? = some q → q.data.pc = .loop := by
    intro i q hit hq
    have hc := h.all_counted hall (List.mem_of_getElem? hq)
    have hfits := (h.calls q (List.mem_of_getElem? hq)).2
    cases q with
    | out z => simp [Position.data, BarThread.counted, show z.pc = .user from hfits] at hc
    | locking z =>
      rcases hfits with hz | hz
      · simp [Position.data, BarThread.counted, hz] at hc
      · exact hz
    | inside z =>
      have := (h.disciplined.owned hq).symm.trans (h.disciplined.owned hp)
      exact absurd (Option.some.inj this) hit
    | waiting c z => exact hfits
  have hplace : ∀ q ∈ ({ m with shared := bar }.put t (.inside (x.goto .reset)) : BarState).places,
      q = .inside (x.goto .reset) ∨ q ∈ m.places ∧ q.data.pc = .loop := by
    intro q hq
    obtain ⟨i, hi⟩ := List.getElem?_of_mem hq
    by_cases hit : i = t
    · subst hit
      exact .inl (Option.some.inj ((getElem?_set_self hp _).symm.trans hi)).symm
    · have hi' := (getElem?_set_other hit _).symm.trans hi
      exact .inr ⟨List.mem_of_getElem? hi', hloop i q hit hi'⟩
  subst hbar
  refine ⟨hd, by simp [State.put, h.length], fun q hq => ?_, fun q hq => ?_,
    ?_, ?_, fun c z hz => ?_, h.unfailed⟩
  · rcases hplace q hq with rfl | ⟨hq', hpc⟩
    · refine ⟨?_, by simp [BarFits, BarThread.goto]⟩
      simp only [Position.data, BarThread.goto, BarThread.Calls, State.put, hlength]
      exact ⟨trivial, hround, hepoch⟩
    · obtain ⟨hcalls, hfits⟩ := h.calls q hq'
      refine ⟨?_, hfits⟩
      simp only [BarThread.Calls, hpc] at hcalls ⊢
      exact ⟨.inr (by simp [State.put, hthen q hq']), hcalls.2⟩
  · show _ ∧ _ ≤ m.shared.completed
    rcases hplace q hq with rfl | ⟨hq', -⟩
    · have hmine := h.history (.inside x) (List.mem_of_getElem? hp)
      exact hmine
    · exact h.history q hq'
  · rw [holder_of_inside hd (getElem?_set_self hp _)]
    refine ⟨?_, ?_⟩
    · unfold BarState.counted
      rw [List.countP_eq_zero]
      intro q hq
      rcases hplace q hq with rfl | ⟨hq', -⟩
      · simp [Position.data, BarThread.goto, BarThread.counted]
      · simp [BarThread.counted, State.put, hthen q hq']
    · simp [State.put, hcompleted]
  · show m.shared.epoch + 1 = BitVec.ofNat 32 (m.shared.rounds + 1)
    rw [h.epoch, BitVec.ofNat_add]
    rfl
  · rcases hplace _ hz with hz' | ⟨hz', -⟩
    · simp at hz'
    · exact h.asleep c z hz'

theorem broadcast (h : Inv n m) (hp : m.places[t]? = some (.inside x))
    (hx : x.pc = .broadcast) {bar : Barrier}
    (hbar : bar = { m.shared with completed := m.shared.completed + 1 })
    (hd : Disciplined (({ m with shared := bar }.broadcast ()).put t (.inside (x.goto .loop))))
    (hn : 1 ≤ n) :
    Inv n (({ m with shared := bar }.broadcast ()).put t (.inside (x.goto .loop))) := by
  obtain ⟨hcount, hnone, hcompleted⟩ : m.shared.count = 0 ∧ m.counted = 0 ∧
      m.shared.completed + 1 = m.shared.rounds := by
    simpa [CountOk, hx] using h.count_at hp
  have hp₁ : ({ m with shared := bar }.broadcast () : BarState).places[t]? = some (.inside x) :=
    broadcast_inside.mpr hp
  have hmine := (h.calls _ (List.mem_of_getElem? hp)).1
  simp only [Position.data, BarThread.Calls, hx] at hmine
  obtain ⟨hlength, hround, hepoch⟩ := hmine
  have hplace : ∀ q ∈
    (({ m with shared := bar }.broadcast ()).put t (.inside (x.goto .loop)) : BarState).places,
      q = .inside (x.goto .loop) ∨ ∃ r ∈ m.places, q = r.rouse () := by
    intro q hq
    rcases List.mem_or_eq_of_mem_set hq with hq | rfl
    · obtain ⟨r, hr, rfl⟩ := List.mem_map.mp hq
      exact .inr ⟨r, hr, rfl⟩
    · exact .inl rfl
  subst hbar
  refine ⟨hd, by simp [State.put, State.broadcast, h.length], fun q hq => ?_,
    fun q hq => ?_, ?_, h.epoch,
    fun c z hz => ?_, h.unfailed⟩
  · show _ ∧ _
    rcases hplace q hq with rfl | ⟨r, hr, rfl⟩
    · exact ⟨⟨.inr hlength, hround, hepoch⟩, by simp [BarFits, BarThread.goto]⟩
    · obtain ⟨hcalls, hfits⟩ := h.calls r hr
      rw [rouse_data]
      refine ⟨hcalls, ?_⟩
      unfold Position.rouse
      split
      · exact .inr hfits
      · exact hfits
  · show _ ∧ _ ≤ m.shared.completed + 1
    rcases hplace q hq with rfl | ⟨r, hr, rfl⟩
    · obtain ⟨hrange, hle⟩ := h.history _ (List.mem_of_getElem? hp)
      exact ⟨hrange, Nat.le_succ_of_le hle⟩
    · rw [rouse_data]
      obtain ⟨hrange, hle⟩ := h.history r hr
      exact ⟨hrange, Nat.le_succ_of_le hle⟩
  · rw [holder_of_inside hd (getElem?_set_self hp₁ _)]
    have hnobody : BarState.counted
      (({ m with shared := { m.shared with completed := m.shared.completed + 1 } }.broadcast ()).put
        t (.inside (x.goto .loop))) = 0 := by
      unfold BarState.counted at hnone ⊢
      rw [List.countP_eq_zero] at hnone ⊢
      intro q hq
      rcases hplace q hq with rfl | ⟨r, hr, rfl⟩
      · have hne : x.history.length ≠ m.shared.rounds := by omega
        simp [Position.data, BarThread.goto, BarThread.counted, State.put, State.broadcast, hne]
      · rw [rouse_data]
        exact hnone r hr
    rw [hnobody]
    exact ⟨hcount, hn, hcompleted⟩
  · rcases hplace _ hz with hz' | ⟨r, hr, hz'⟩
    · simp at hz'
    · exact absurd rfl (rouse_waiting_iff.mp hz'.symm).1

theorem act (h : Inv n m) (hn : 1 ≤ n) (hmax : n < 2 ^ 32) (hp : m.places[t]? = some (.inside x))
    (hd : Disciplined (m.act t (barrierSyncInside n x m.shared))) :
    Inv n (m.act t (barrierSyncInside n x m.shared)) := by
  obtain ⟨hmine, hfits⟩ := h.calls _ (List.mem_of_getElem? hp)
  have hrange := h.history _ (List.mem_of_getElem? hp)
  have hcount := h.count_at hp
  simp only [Position.data] at hmine hrange
  cases hpc : x.pc with
  | user => exact absurd hpc hfits
  | read =>
    simp only [BarThread.Calls, hpc] at hmine
    simp only [hpc, CountOk] at hcount
    simp only [barrierSyncInside, hpc] at hd ⊢
    refine h.goto hd hp rfl rfl rfl ⟨hmine, rfl, ?_⟩ (by simp) rfl fun a ha _ => ?_
    · rw [h.epoch, epochOf]
    · simp [BarThread.counted, hpc] at ha
      simp only [CountOk, ha]
      exact hcount
  | check =>
    simp only [BarThread.Calls, hpc] at hmine
    simp only [hpc, CountOk] at hcount
    have hlt : m.shared.count < n := by omega
    simp only [barrierSyncInside, hpc, if_pos hlt] at hd ⊢
    refine h.goto hd hp rfl rfl rfl hmine (by simp [BarThread.goto]) rfl fun a ha _ => ?_
    simp [BarThread.counted, BarThread.goto, hpc] at ha
    simp only [CountOk, BarThread.goto, ha]
    exact hcount
  | count =>
    simp only [BarThread.Calls, hpc] at hmine
    simp only [hpc, CountOk] at hcount
    simp only [barrierSyncInside, hpc] at hd ⊢
    refine h.goto hd hp rfl rfl rfl hmine (by simp [BarThread.goto]) rfl fun a ha hle => ?_
    simp [BarThread.counted, BarThread.goto, hpc, hmine.1] at ha
    simp only [CountOk, BarThread.goto]
    refine ⟨?_, hcount.2.2⟩
    rw [hcount.1, ha, Nat.mod_eq_of_lt (by omega)]
  | test =>
    simp only [BarThread.Calls, hpc] at hmine
    simp only [hpc, CountOk] at hcount
    simp only [barrierSyncInside, hpc] at hd ⊢
    by_cases hall : m.shared.count = n
    · simp only [if_pos hall] at hd ⊢
      refine h.goto hd hp rfl rfl rfl hmine (by simp [BarThread.goto]) rfl fun a ha _ => ?_
      simp [BarThread.counted, BarThread.goto, hpc, hmine.1] at ha
      simp only [CountOk, BarThread.goto]
      omega
    · simp only [if_neg hall] at hd ⊢
      refine h.goto hd hp rfl rfl rfl ?_ (by simp [BarThread.goto]) rfl fun a ha hle => ?_
      · simp only [BarThread.Calls, BarThread.goto, hmine.1, hmine.2]
        simp
      · simp [BarThread.counted, BarThread.goto, hpc, hmine.1] at ha
        simp only [CountOk, BarThread.goto]
        omega
  | bump =>
    simp only [barrierSyncInside, hpc] at hd ⊢
    exact h.bump hp hpc rfl hd
  | reset =>
    simp only [BarThread.Calls, hpc] at hmine
    simp only [hpc, CountOk] at hcount
    simp only [barrierSyncInside, hpc] at hd ⊢
    refine h.goto hd hp rfl rfl rfl hmine (by simp [BarThread.goto]) rfl fun a ha _ => ?_
    simp [BarThread.counted, BarThread.goto, hpc] at ha
    simp only [CountOk, BarThread.goto, ha]
    exact ⟨trivial, hcount⟩
  | broadcast =>
    simp only [barrierSyncInside, hpc] at hd ⊢
    exact h.broadcast hp hpc rfl hd hn
  | loop =>
    simp only [BarThread.Calls, hpc] at hmine
    obtain ⟨hrounds, hround, hepoch⟩ := hmine
    simp only [hpc, CountOk] at hcount
    have hsame := h.same_epoch_iff hrounds
    by_cases hlength : x.history.length = m.shared.rounds
    · simp only [barrierSyncInside, hpc, hepoch, if_pos (hsame.mpr hlength)] at hd ⊢
      refine h.release hd hp rfl rfl rfl rfl ?_ hpc hrange rfl hcount fun c y hy => ?_
      · simp only [Position.data, BarThread.Calls, hpc]
        exact ⟨hrounds, hround, hepoch⟩
      · obtain ⟨-, rfl⟩ := Position.waiting.inj hy
        omega
    · simp only [barrierSyncInside, hpc, hepoch, if_neg fun he => hlength (hsame.mp he)] at hd ⊢
      refine h.goto hd hp rfl rfl rfl ⟨hrounds.resolve_left hlength, hround, hepoch⟩
        (by simp [BarThread.goto]) rfl
        fun a ha _ => ?_
      simp [BarThread.counted, BarThread.goto, hpc, hlength] at ha
      simp only [CountOk, BarThread.goto, ha]
      exact hcount
  | unlock =>
    simp only [BarThread.Calls, hpc] at hmine
    simp only [hpc, CountOk] at hcount
    simp only [barrierSyncInside, hpc] at hd ⊢
    refine h.release hd hp rfl rfl rfl rfl ?_ rfl ⟨?_, ?_⟩ ?_ hcount (by simp)
    · simpa [Position.data, BarThread.Calls] using hmine.1
    · simp only [Position.data, List.length_append, List.length_singleton,
        List.range_succ, hmine.2.1]
      rw [← hrange.1]
    · simp only [Position.data, List.length_append, List.length_singleton]
      omega
    · simp [Position.data, BarThread.counted, hpc]

theorem steps (h : Inv n m) (hn : 1 ≤ n) (hmax : n < 2 ^ 32) (hs : Steps (barrierSync n) m m') :
    Inv n m' := by
  have hd := h.disciplined.steps hs
  cases hs with
  | @move t x y hp ho =>
    exfalso
    revert ho
    show barrierSyncOutside n x = some (.move y) → False
    simp only [barrierSyncOutside, show 0 < n from hn, if_true]
    split <;> simp
  | @quit t x hp ho =>
    exfalso
    revert ho
    show barrierSyncOutside n x = some .fail → False
    simp only [barrierSyncOutside, show 0 < n from hn, if_true]
    split <;> simp
  | @lock t x y hp ho =>
    obtain ⟨hcalls, hfits⟩ := h.calls _ (List.mem_of_getElem? hp)
    have hpc : x.pc = .user := hfits
    obtain rfl : x.goto .read = y := by
      have hy : barrierSyncOutside n x = some (.lock y) := ho
      simpa [barrierSyncOutside, hpc, show 0 < n from hn] using hy
    simp only [Position.data, BarThread.Calls, hpc] at hcalls
    exact h.aside hd hp (by simp) rfl rfl rfl rfl hcalls (.inl rfl) rfl
      (by simp [Position.data, BarThread.counted, BarThread.goto, hpc]) (by simp)
  | @enter t x hp hfree =>
    obtain ⟨hcalls, hfits⟩ := h.calls _ (List.mem_of_getElem? hp)
    have hsame : ({ m with mutex := some t }.put t (.inside x) : BarState).counted +
        (if x.counted m.shared.rounds then 1 else 0) = m.counted + if x.counted m.shared.rounds then
        1 else 0 := counted_put { m with mutex := some t } hp rfl rfl (.inside x)
    rw [Nat.add_right_cancel_iff] at hsame
    have hcount := h.count
    rw [holder_of_free hfree] at hcount
    simp only [Option.map_none, CountOk] at hcount
    refine h.set hd rfl rfl rfl rfl rfl hcalls ?_ (h.history (.locking x) (List.mem_of_getElem? hp))
      ?_ (by simp)
    · rcases hfits with hx | hx <;> simp [BarFits, hx]
    · rw [holder_of_inside hd (getElem?_set_self hp _), hsame]
      rcases hfits with hx | hx
      · simp only [Option.map_some, hx, CountOk]
        exact hcount
      · simp only [Option.map_some, hx, CountOk]
        exact hcount
  | @wake t c x hp =>
    obtain ⟨hcalls, hfits⟩ := h.calls _ (List.mem_of_getElem? hp)
    exact h.aside hd hp (by simp) rfl rfl rfl rfl hcalls (.inr hfits) rfl rfl (by simp)
  | @act t x hp => exact h.act hn hmax hp hd

theorem run (hn : 1 ≤ n) (hmax : n < 2 ^ 32)
    (h : Reach (State.step (barrierSync n)) Always (barrierInit n) m) : Inv n m :=
  h.invariant (start hn) fun _ _ _ hu _ hs => hu.steps hn hmax (steps_of_step hs)

end BarState.Inv

/-- A part of the calls and the rest of them. -/
theorem sum_add_countP {α : Type*} {l : List α} {f : α → Nat} {q : α → Bool}
    (h : ∀ a ∈ l, f a + (if q a then 1 else 0) = 1) : (l.map f).sum + l.countP q = l.length := by
  induction l with
  | nil => rfl
  | cons a l ih =>
    have ha := h a List.mem_cons_self
    have hl := ih fun b hb => h b (List.mem_cons_of_mem _ hb)
    rw [List.map_cons, List.sum_cons, List.countP_cons, List.length_cons]
    omega

namespace BarState.Inv

variable {n k : Nat} {m : BarState} {p : Position BarThread Unit}

theorem count_history (h : Inv n m) (hp : p ∈ m.places) :
    p.data.history.count k = if k < p.data.history.length then 1 else 0 := by
  rw [(h.history p hp).1, List.length_range]
  simp [List.count_range]

theorem arrived_of_lt (h : Inv n m) (hp : p ∈ m.places) (hk : k < m.shared.rounds) :
    k < p.data.arrived := by
  have hcalls := (h.calls p hp).1
  unfold BarThread.Calls at hcalls
  unfold BarThread.arrived
  split at hcalls <;> simp_all <;> omega

theorem completed_le (h : Inv n m) : m.shared.completed ≤ m.shared.rounds := by
  have hcount := h.count
  unfold CountOk at hcount
  split at hcount <;> omega

theorem returned_add_leaving (h : Inv n m) (hk : k < m.shared.completed) :
    m.returned k + m.leaving k = n := by
  rw [BarState.returned, BarState.leaving, ← h.length]
  refine sum_add_countP fun p hp => ?_
  have harrived := h.arrived_of_lt hp (Nat.lt_of_lt_of_le hk h.completed_le)
  have hle : p.data.arrived ≤ p.data.history.length + 1 := by
    unfold BarThread.arrived
    split <;> omega
  rw [h.count_history hp]
  by_cases hlt : k < p.data.history.length
  · simp only [if_pos hlt]
    have : p.data.history.length ≠ k := by omega
    simp [this]
  · have hlength : p.data.history.length = k := by omega
    have : p.data.arrived = k + 1 := by omega
    simp [hlength, this]

theorem returned_eq_zero (h : Inv n m) (hk : m.shared.completed ≤ k) : m.returned k = 0 := by
  refine List.sum_eq_zero fun a ha => ?_
  obtain ⟨p, hp, rfl⟩ := List.mem_map.mp ha
  have := (h.history p hp).2
  rw [h.count_history hp, if_neg (by omega)]

theorem lt_completed (h : Inv n m) (hfree : m.mutex = none)
    (hall : ∀ p ∈ m.places, k < p.data.arrived) :
    k < m.shared.completed := by
  have hcount := h.count
  rw [holder_of_free hfree] at hcount
  obtain ⟨-, hlt, hcompleted⟩ := hcount
  by_contra hk
  suffices m.counted = n by omega
  unfold BarState.counted
  rw [← h.length, List.countP_eq_length]
  intro p hp
  have hthere := hall p hp
  have hcalls := (h.calls p hp).1
  unfold BarThread.Calls at hcalls
  unfold BarThread.arrived at hthere
  unfold BarThread.counted
  split at hcalls <;> simp_all <;> omega

end BarState.Inv

theorem barrier_sync {n : Nat} {m : BarState} (hn : 1 ≤ n) (hmax : n < 2 ^ 32)
    (h : Reach (State.step (barrierSync n)) Always (barrierInit n) m) :
    m.failed = false ∧
    (∀ p ∈ m.places, p.data.history = List.range p.data.history.length) ∧
    (∀ p ∈ m.places, ∀ k ∈ p.data.history, ∀ q ∈ m.places, k < q.data.arrived) ∧
    (∀ k, k < m.shared.completed → m.returned k + m.leaving k = n) ∧
    (∀ k, m.shared.completed ≤ k → m.returned k = 0) ∧
    (∀ c x, Position.waiting c x ∈ m.places → m.shared.completed ≤ x.round ∧
      x.arrived = x.round + 1) ∧
    (m.mutex = none → ∀ k, (∀ p ∈ m.places, k < p.data.arrived) → k < m.shared.completed) := by
  have hinv := BarState.Inv.run hn hmax h
  refine ⟨hinv.unfailed, fun p hp => (hinv.history p hp).1, fun p hp k hk q hq => ?_,
    fun k => hinv.returned_add_leaving, fun k => hinv.returned_eq_zero, fun c x hx =>
      ?_, fun hfree k => hinv.lt_completed hfree⟩
  · obtain ⟨hrange, hle⟩ := hinv.history p hp
    rw [hrange, List.mem_range] at hk
    exact hinv.arrived_of_lt hq (Nat.lt_of_lt_of_le (Nat.lt_of_lt_of_le hk hle) hinv.completed_le)
  · obtain ⟨hcalls, hpc⟩ := hinv.calls _ hx
    refine ⟨hinv.asleep c x hx, ?_⟩
    have hloop : x.pc = .loop := hpc
    simp only [Position.data, BarThread.Calls, hloop] at hcalls
    simp [BarThread.arrived, hloop, hcalls.2.1]

/-- Thread 0 has returned from round 0 and sleeps in round 1, and thread 1 is still in round 0. -/
theorem barrier_sync_two : ∃ m : BarState, m.shared.completed = 1 ∧
    Position.waiting () ⟨.loop, 1, 1, [0]⟩ ∈ m.places ∧
    m.failed = false ∧ m.returned 0 + m.leaving 0 = 2 := by
  obtain ⟨m, hm, hp⟩ := exists_reach_of_exec (State.step (barrierSync 2)) (barrierInit 2)
    (List.replicate 7 (.run 1) ++ List.replicate 18 (.run 0))
    (fun m => m.shared.completed = 1 && decide (Position.waiting () ⟨.loop, 1, 1, [0]⟩ ∈ m.places))
    (by decide +kernel)
  simp only [Bool.and_eq_true, decide_eq_true_eq] at hp
  obtain ⟨hcompleted, hwaits⟩ := hp
  obtain ⟨hfailed, -, -, hround, -⟩ := barrier_sync (by decide) (by decide) hm
  exact ⟨m, hcompleted, hwaits, hfailed, hround 0 (by omega)⟩

end TinyOS
