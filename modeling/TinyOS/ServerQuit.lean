import Mathlib.Data.BitVec
import Mathlib.Tactic.Abel
import TinyOS.Lib.Counting
import TinyOS.Lib.Monitors
import TinyOS.RemoteServer

/-! How the remote server of the shell quits. It waits until no connection is active, by a counter
that the client threads change with the mutex and the listener without it. -/

namespace TinyOS

open Monitors Transition

/-! ### The threads of the server -/

inductive ConsoleLine
  | quit
  | statistics
  | help
  | log
  | empty
  | unknown
deriving DecidableEq

def remoteServerDefaultPort : Int := 20

inductive LogRecord
  | failedToAccept (port : Int)
  | client (m : LogMessage)
deriving DecidableEq

/-- `struct __rs_globals`; as history, what the stores to `active_conn` have missed: the value that
a store should have found less the value in memory. -/
structure ServerGlobals where
  quit : Bool
  activeConn : BitVec 64
  totalConn : BitVec 64
  connIdCounter : BitVec 64
  log : List (BitVec 64 × LogRecord)
  logcount : BitVec 64
  missed : BitVec 64
deriving DecidableEq

def ServerGlobals.append (g : ServerGlobals) (r : LogRecord) : ServerGlobals :=
  { g with logcount := g.logcount + 1, log := g.log ++ [(g.logcount + 1, r)] }

def ServerGlobals.store (g : ServerGlobals) (loaded value : BitVec 64) : ServerGlobals :=
  { g with activeConn := value, missed := g.missed + (loaded - g.activeConn) }

/-- The statements of `RemoteServer`, with the lines that are still to come on the console. -/
inductive MainPc
  | console (lines : List ConsoleLine)
  | print (lines : List ConsoleLine)
  | printed (lines : List ConsoleLine)
  | closing
  | joining
  | test
  | leaving
  | left
  | truncate
  | truncated
  | returned
  | endOfInput
deriving DecidableEq

/-- The statements of `rsrv_listener_thread`. A connection comes with what its client thread will
find: no request, or the status of the command. -/
inductive ListenerPc
  | listen
  | accept
  | refused
  | log
  | logged
  | load (request : Option Int)
  | store (request : Option Int) (loaded : BitVec 64)
  | total (request : Option Int)
  | create (request : Option Int)
  | returned
deriving DecidableEq

inductive ClientPc
  | draw (request : Option Int)
  | drawn (request : Option Int) (id : BitVec 64)
  | started (request : Option Int) (id : BitVec 64)
  | logStart (request : Option Int) (id : BitVec 64)
  | startLogged (request : Option Int) (id : BitVec 64)
  | serve (request : Option Int) (id : BitVec 64)
  | logEnd (request : Option Int) (id : BitVec 64)
  | endLogged
  | finish
  | load
  | store (loaded : BitVec 64)
  | broadcast
  | counted
  | returned
deriving DecidableEq

inductive ServerPc
  | main (pc : MainPc)
  | listener (pc : ListenerPc)
  | client (pc : ClientPc)
deriving DecidableEq

def lastMessage (id : BitVec 64) : Option Int → LogMessage
  | none => .aborting id
  | some status => .finished id status

/-- The statements with the mutex. The condition variable is `conn_done`. -/
def serverInside (_ : Nat) (l : ServerPc) (g : ServerGlobals) : Act ServerGlobals ServerPc Unit :=
  match l with
  | .main (.print lines) => .goto (.main (.printed lines)) g
  | .main (.printed lines) => .unlock (.main (.console lines))
  | .main .test => if 0 < g.activeConn then .wait () (.main .test) else .goto (.main .leaving) g
  | .main .leaving => .unlock (.main .left)
  | .main .truncate => .goto (.main .truncated) { g with log := [] }
  | .main .truncated => .unlock (.main .returned)
  | .listener .log => .goto (.listener .logged) (g.append (.failedToAccept remoteServerDefaultPort))
  | .listener .logged => .unlock (.listener .accept)
  | .client (.draw r) =>
    .goto (.client (.drawn r (g.connIdCounter + 1))) { g with connIdCounter := g.connIdCounter + 1 }
  | .client (.drawn r id) => .unlock (.client (.started r id))
  | .client (.logStart r id) =>
    .goto (.client (.startLogged r id)) (g.append (.client (.started id)))
  | .client (.startLogged r id) => .unlock (.client (.serve r id))
  | .client (.logEnd r id) => .goto (.client .endLogged) (g.append (.client (lastMessage id r)))
  | .client .endLogged => .unlock (.client .finish)
  | .client .load => .goto (.client (.store g.activeConn)) g
  | .client (.store v) => .goto (.client .broadcast) (g.store v (v - 1))
  | .client .broadcast => .broadcast () (.client .counted) g
  | .client .counted => .unlock (.client .returned)
  | _ => .fail

/-- The statements without it that read and write nothing shared. -/
def serverOutside (_ : Nat) : ServerPc → Option (Out ServerPc)
  | .main (.console []) => some (.move (.main .endOfInput))
  | .main (.console (.log :: lines)) => some (.lock (.main (.print lines)))
  | .main (.console (.quit :: _)) => none
  | .main (.console (_ :: lines)) => some (.move (.main (.console lines)))
  | .main .closing => some (.move (.main .joining))
  | .main .left => some (.lock (.main .truncate))
  | .client (.started r id) => some (.lock (.client (.logStart r id)))
  | .client (.serve r id) => some (.lock (.client (.logEnd r id)))
  | .client .finish => some (.lock (.client .load))
  | _ => none

def serverCode : Code ServerGlobals ServerPc Unit := ⟨serverInside, serverOutside⟩

/-- Thread 0 is that of `RemoteServer`, thread 1 the listener, and the others are the clients'. -/
abbrev Server := State ServerGlobals ServerPc Unit

def Server.start (lines : List ConsoleLine) : Server :=
  ⟨none, ⟨false, 0, 0, 0, [], 0, 0⟩, fun _ => [],
    [.out (.main (.console lines)), .out (.listener .listen)], false⟩

inductive ServerEvent
  | thread (e : Event)
  | unlocked (t : Nat)
  | listen (ok : Bool)
  | accept (connection : Option (Option Int))
deriving DecidableEq

/-- The statements on shared data, or on another thread, that are executed without the mutex. -/
def Server.unlocked (m : Server) (t : Nat) : Option Server :=
  match m.places[t]? with
  | some (.out (.main (.console (.quit :: _)))) =>
    some ({ m with shared := { m.shared with quit := true } }.put t (.out (.main .closing)))
  | some (.out (.main .joining)) =>
    if m.places[1]? = some (.out (.listener .returned)) then some (m.put t (.locking (.main .test)))
      else none
  | some (.out (.listener .refused)) =>
    if m.shared.quit then some (m.put t (.out (.listener .returned)))
      else some (m.put t (.locking (.listener .log)))
  | some (.out (.listener (.load r))) =>
    some (m.put t (.out (.listener (.store r m.shared.activeConn))))
  | some (.out (.listener (.store r v))) =>
    some ({ m with shared := m.shared.store v (v + 1) }.put t (.out (.listener (.total r))))
  | some (.out (.listener (.total r))) =>
    some ({ m with shared := { m.shared with totalConn := m.shared.totalConn + 1 } }.put t
      (.out (.listener (.create r))))
  | some (.out (.listener (.create r))) =>
    some ({ m with places := m.places ++ [Position.locking (ServerPc.client (.draw r))] }.put t
      (.out (.listener .accept)))
  | _ => none

/-- The globals are on the stack of `RemoteServer`: nothing is said of what comes after its
return. -/
def Server.over (m : Server) : Bool :=
  m.places[0]? = some (.out (.main .returned)) || m.places[0]? = some (.out (.main .endOfInput))

def Server.step (m : Server) (e : ServerEvent) : Option Server :=
  if m.over then none
  else
    match e with
    | .thread e => State.step serverCode m e
    | .unlocked t => m.unlocked t
    | .listen ok =>
      if m.places[1]? = some (.out (.listener .listen)) then
        some (m.put 1 (.out (.listener (if ok then .accept else .returned))))
      else none
    | .accept connection =>
      if m.places[1]? = some (.out (.listener .accept)) then
        some (m.put 1 (.out (.listener (connection.elim .refused .load))))
      else none

/-! ### What holds throughout -/

/-- The connections that the counter should count: those of the clients that have still to decrement
it, and the one for which the listener has not yet created a thread. -/
def ServerPc.owes : ServerPc → Bool
  | .listener (.total _) | .listener (.create _) => true
  | .client .broadcast | .client .counted | .client .returned => false
  | .client _ => true
  | _ => false

def ServerPc.joined : ServerPc → Bool
  | .main .test | .main .leaving | .main .left | .main .truncate | .main .truncated
  | .main .returned => true
  | _ => false

def ServerPc.past : ServerPc → Bool
  | .main .leaving | .main .left | .main .truncate | .main .truncated | .main .returned => true
  | _ => false

def ServerPc.role (t : Nat) : ServerPc → Prop
  | .main _ => t = 0
  | .listener _ => t = 1
  | .client _ => 2 ≤ t

def ServerFits (t : Nat) (p : Position ServerPc Unit) : Prop :=
  p.data.role t ∧
    match p with
    | .out (.client pc) => (ServerPc.client pc).owes = true ∨ pc = .returned
    | .locking (.client pc) => (ServerPc.client pc).owes = true ∧ ∀ v, pc ≠ .store v
    | .locking (.listener pc) => pc ≠ .returned
    | .locking (.main pc) => pc ≠ .leaving
    | .inside (.client pc) => pc ≠ .returned
    | .waiting _ l => l = .main .test
    | _ => True

def Server.datas (m : Server) : List ServerPc := m.places.map Position.data

def Server.owed (m : Server) : Nat := m.datas.countP ServerPc.owes

/-- What the counter would be if no store had missed anything. -/
def ServerGlobals.balance (g : ServerGlobals) : BitVec 64 := g.activeConn - g.missed

/-- The client threads have all returned. -/
def Server.Served (m : Server) : Prop :=
  ∀ (t : Nat) (p : Position ServerPc Unit), 2 ≤ t → m.places[t]? = some p →
    p = .out (.client .returned)

structure Server.Inv (m : Server) : Prop where
  disciplined : Disciplined m
  fits : ∀ (t : Nat) (p : Position ServerPc Unit), m.places[t]? = some p → ServerFits t p
  balance : m.shared.balance = BitVec.ofNat 64 m.owed
  joined : ∀ (t : Nat) (l : ServerPc), m.datas[t]? = some l → l.joined = true →
    m.datas[1]? = some (.listener .returned)
  slept : ∀ (t : Nat) (c : Unit) (l : ServerPc), m.places[t]? = some (Position.waiting c l) →
    m.shared.activeConn ≠ 0 ∨ ∃ u : Nat, m.places[u]? = some (Position.inside (.client .broadcast))
  leaving : ∀ t : Nat, m.places[t]? = some (Position.inside (.main .leaving)) →
    m.shared.activeConn = 0
  fresh : ∀ (t : Nat) (l : ServerPc) (u : Nat) (v : BitVec 64), m.datas[t]? = some l →
    l.past = true →
    m.places[u]? = some (Position.inside (.client (.store v))) → v = m.shared.activeConn
  settled : ∀ (t : Nat) (l : ServerPc), m.datas[t]? = some l → l.past = true →
    m.places.length < 2 ^ 64 →
    m.shared.missed = 0 → m.Served

section Code

variable {t : Nat} {l l' : ServerPc} {p p' : Position ServerPc Unit} {g : ServerGlobals}

theorem balance_store (g : ServerGlobals) (loaded value : BitVec 64) :
    (g.store loaded value).balance = g.balance + (value - loaded) := by
  simp only [ServerGlobals.balance, ServerGlobals.store]
  abel

theorem serverInside_test (t : Nat) (g : ServerGlobals) : serverInside t (.main .test) g =
    if 0 < g.activeConn then .wait () (.main .test) else .goto (.main .leaving) g := rfl

/-- Only the decrement of a client changes the counter with the mutex. -/
theorem inside_quiet (t : Nat) (g : ServerGlobals) (hl : ∀ v, l ≠ .client (.store v)) :
    ((serverInside t l g).shared g).activeConn = g.activeConn ∧
    ((serverInside t l g).shared g).missed = g.missed ∧
      ((serverInside t l g).place l).data.owes = l.owes := by
  cases l with
  | main pc =>
    cases pc with
    | test =>
      rw [serverInside_test]
      split <;> exact ⟨rfl, rfl, rfl⟩
    | _ => exact ⟨rfl, rfl, rfl⟩
  | listener pc => cases pc <;> exact ⟨rfl, rfl, rfl⟩
  | client pc =>
    cases pc with
    | store v => exact absurd rfl (hl v)
    | _ => exact ⟨rfl, rfl, rfl⟩

theorem inside_joined (t : Nat) (l : ServerPc) (g : ServerGlobals) :
    ((serverInside t l g).place l).data.joined = l.joined := by
  cases l with
  | main pc =>
    cases pc with
    | test =>
      rw [serverInside_test]
      split <;> rfl
    | _ => rfl
  | listener pc | client pc => cases pc <;> rfl

theorem inside_past (h : ((serverInside t l g).place l).data.past = true) :
    l.past = true ∨ l = .main .test ∧ g.activeConn = 0 := by
  cases l with
  | main pc =>
    cases pc with
    | test =>
      refine .inr ⟨rfl, ?_⟩
      rw [serverInside_test] at h
      split at h
      · exact absurd h (by decide)
      · rename_i hpos
        simpa using hpos
    | _ => exact .inl h
  | listener pc | client pc => cases pc <;> exact absurd h Bool.false_ne_true

theorem inside_waits {c : Unit} (h : (serverInside t l g).place l = .waiting c l') :
    g.activeConn ≠ 0 := by
  cases l with
  | main pc =>
    cases pc with
    | test =>
      rw [serverInside_test] at h
      split at h
      · rename_i hpos
        rintro hzero
        simp [hzero] at hpos
      · cases h
    | _ => cases h
  | listener pc | client pc => cases pc <;> cases h

theorem inside_store {v : BitVec 64}
    (h : (serverInside t l g).place l = .inside (.client (.store v))) :
    l = .client .load ∧ v = g.activeConn := by
  cases l with
  | main pc =>
    cases pc with
    | test =>
      rw [serverInside_test] at h
      split at h <;> cases h
    | _ => cases h
  | listener pc => cases pc <;> cases h
  | client pc =>
    cases pc with
    | load =>
      cases h
      exact ⟨rfl, rfl⟩
    | _ => cases h

theorem joined_of_past (h : l.past = true) : l.joined = true := by
  cases l with
  | main pc => cases pc <;> first | rfl | cases h
  | listener pc | client pc => cases h

theorem inside_fits (h : ServerFits t (.inside l)) :
    ServerFits t ((serverInside t l g).place l) := by
  obtain ⟨hrole, hplace⟩ := h
  cases l with
  | main pc =>
    cases pc with
    | test =>
      rw [serverInside_test]
      split
      · exact ⟨hrole, rfl⟩
      · exact ⟨hrole, trivial⟩
    | _ => exact ⟨hrole, trivial⟩
  | listener pc => cases pc <;> exact ⟨hrole, trivial⟩
  | client pc =>
    cases pc with
    | drawn | startLogged | endLogged => exact ⟨hrole, .inl rfl⟩
    | counted => exact ⟨hrole, .inr rfl⟩
    | returned => exact absurd rfl hplace
    | _ => exact ⟨hrole, ClientPc.noConfusion⟩

/-- A statement without the mutex is not a statement of the counter, and comes before the threads
are joined. -/
theorem outside_fits {o : Out ServerPc} (h : ServerFits t (.out l))
    (ho : serverOutside t l = some o) :
    (∃ l', o = .move l' ∧ ServerFits t (.out l') ∧ l'.owes = l.owes ∧ l'.joined = l.joined ∧
      l'.past = l.past) ∨ ∃ l', o = .lock l' ∧ ServerFits t (.locking l') ∧
      l'.owes = l.owes ∧ l'.joined = l.joined ∧ l'.past = l.past := by
  obtain ⟨hrole, -⟩ := h
  cases l with
  | main pc =>
    cases pc with
    | console lines =>
      cases lines with
      | nil => exact .inl ⟨_, (Option.some.inj ho).symm, ⟨hrole, trivial⟩, rfl, rfl, rfl⟩
      | cons line lines =>
        cases line with
        | quit => cases ho
        | log =>
          exact .inr ⟨_, (Option.some.inj ho).symm, ⟨hrole, MainPc.noConfusion⟩, rfl, rfl, rfl⟩
        | _ => exact .inl ⟨_, (Option.some.inj ho).symm, ⟨hrole, trivial⟩, rfl, rfl, rfl⟩
    | closing => exact .inl ⟨_, (Option.some.inj ho).symm, ⟨hrole, trivial⟩, rfl, rfl, rfl⟩
    | left => exact .inr ⟨_, (Option.some.inj ho).symm, ⟨hrole, MainPc.noConfusion⟩, rfl, rfl, rfl⟩
    | _ => cases ho
  | listener pc => cases pc <;> cases ho
  | client pc =>
    cases pc with
    | started | serve | finish =>
      exact .inr
        ⟨_, (Option.some.inj ho).symm, ⟨hrole, rfl, fun _ => ClientPc.noConfusion⟩, rfl, rfl, rfl⟩
    | _ => cases ho

end Code

section Step

variable {m m' : Server} {t u : Nat} {l l' : ServerPc} {p p' : Position ServerPc Unit}

theorem Server.datas_of_place (hp : m.places[t]? = some p) : m.datas[t]? = some p.data := by
  rw [Server.datas, List.getElem?_map, hp]
  rfl

/-- How a count of the threads changes when one of them moves. -/
theorem countP_set_toNat {ls : List ServerPc} (f : ServerPc → Bool) (hl : ls[t]? = some l)
    (l' : ServerPc) :
    (ls.set t l').countP f + (f l).toNat = ls.countP f + (f l').toNat := by
  obtain ⟨ht, hget⟩ := List.getElem?_eq_some_iff.mp hl
  have hpos : f l = true → 0 < ls.countP f := Counting.countP_pos_of_getElem? hl
  rw [List.countP_set ht, hget]
  cases hold : f l with
  | false => cases hnew : f l' <;> simp
  | true =>
    have hle := hpos hold
    cases hnew : f l' <;> simp <;> omega

theorem owed_eq_zero (hlen : m.places.length < 2 ^ 64) (h : BitVec.ofNat 64 m.owed = 0) :
    m.owed = 0 := by
  have hle : m.owed ≤ m.datas.length := List.countP_le_length
  rw [Server.datas, List.length_map] at hle
  have hnat := congrArg BitVec.toNat h
  rwa [BitVec.toNat_ofNat, Nat.mod_eq_of_lt (by omega)] at hnat

/-- Nobody has joined the listener: what is to hold of the main thread later is not at stake yet. -/
theorem Server.Inv.unjoined (hd : Disciplined m)
    (hf : ∀ (t : Nat) (p : Position ServerPc Unit), m.places[t]? = some p → ServerFits t p)
    (hb : m.shared.balance = BitVec.ofNat 64 m.owed)
    (hj : ∀ (t : Nat) (l : ServerPc), m.datas[t]? = some l → l.joined = false) : m.Inv where
  disciplined := hd
  fits := hf
  balance := hb
  joined t l hl hjoined := by
    rw [hj t l hl] at hjoined
    cases hjoined
  slept t c l hp := by
    obtain ⟨-, rfl⟩ := hf t _ hp
    exact Bool.noConfusion (hj t _ (Server.datas_of_place hp))
  leaving t hp := Bool.noConfusion (hj t _ (Server.datas_of_place hp))
  fresh t l u v hl hpast := by
    have hj' := hj t l hl
    rw [joined_of_past hpast] at hj'
    cases hj'
  settled t l hl hpast := by
    have hj' := hj t l hl
    rw [joined_of_past hpast] at hj'
    cases hj'

theorem inside_unique (h : Disciplined m) (hp : m.places[t]? = some (.inside l))
    (hu : m.places[u]? = some (.inside l')) :
    u = t :=
  Option.some.inj ((h.owned hu).symm.trans (h.owned hp))

/-- After a statement nobody else is inside, and who sleeps has slept before. -/
theorem act_other (h : Disciplined m) (hp : m.places[t]? = some (.inside l))
    (a : Act ServerGlobals ServerPc Unit)
    (hu : u ≠ t) (hp' : (m.act t a).places[u]? = some p') :
    (∀ l', p' ≠ .inside l') ∧ ∀ c l', p' = .waiting c l' → m.places[u]? = some (.waiting c l') := by
  rcases act_place_other hu a hp' with hsame | ⟨q, c, hq, rfl⟩
  · refine ⟨?_, ?_⟩
    · rintro l' rfl
      exact hu (inside_unique h hp hsame)
    · rintro c l' rfl
      exact hsame
  · refine ⟨fun l' hl' => ?_, fun d l' hl' => ?_⟩
    · rw [rouse_inside_iff.mp hl'] at hq
      exact hu (inside_unique h hp hq)
    · exact absurd rfl (rouse_waiting_iff.mp hl').1

/-- The data of another thread, or of the one that has executed a statement. -/
theorem act_datas_cases (hp : m.places[t]? = some (.inside l)) {a : Act ServerGlobals ServerPc Unit}
    (h : (Server.datas (m.act t a))[u]? = some l') : (u = t ∧ l' = (a.place l).data) ∨
    (u ≠ t ∧ m.datas[u]? = some l') := by
  have hset : Server.datas (m.act t a) = m.datas.set t (a.place l).data := act_datas hp a
  rw [hset] at h
  by_cases hu : u = t
  · subst hu
    obtain ⟨hlt, -⟩ := List.getElem?_eq_some_iff.mp (Server.datas_of_place hp)
    rw [List.getElem?_set_self hlt] at h
    exact .inl ⟨rfl, (Option.some.inj h).symm⟩
  · rw [List.getElem?_set_ne (Ne.symm hu)] at h
    exact .inr ⟨hu, h⟩

theorem act_owed (hp : m.places[t]? = some (.inside l)) (a : Act ServerGlobals ServerPc Unit) :
    Server.owed (m.act t a) + l.owes.toNat = m.owed + (a.place l).data.owes.toNat := by
  have hset : Server.datas (m.act t a) = m.datas.set t (a.place l).data := act_datas hp a
  have hl : m.datas[t]? = some l := Server.datas_of_place hp
  rw [Server.owed, hset]
  exact countP_set_toNat _ hl _

theorem Server.Inv.act_balance (h : m.Inv) (hp : m.places[t]? = some (.inside l)) :
    (m.act t (serverInside t l m.shared)).shared.balance =
      BitVec.ofNat 64 (Server.owed (m.act t (serverInside t l m.shared))) := by
  have howed := act_owed hp (serverInside t l m.shared)
  rw [act_shared]
  by_cases hl : ∃ v, l = .client (.store v)
  · obtain ⟨v, rfl⟩ := hl
    have hone : Server.owed (m.act t (serverInside t (.client (.store v)) m.shared)) + 1 =
        m.owed := howed
    have hshared : (serverInside t (.client (.store v)) m.shared).shared m.shared =
        m.shared.store v (v - 1) := rfl
    rw [hshared, balance_store, h.balance, ← hone, BitVec.ofNat_add]
    abel
  · obtain ⟨hconn, hmissed, howes⟩ := inside_quiet t m.shared (not_exists.mp hl)
    rw [howes] at howed
    rw [Nat.add_right_cancel howed, ← h.balance, ServerGlobals.balance, hconn, hmissed]
    rfl

theorem act_past (hp : m.places[t]? = some (.inside l))
    (hu : (Server.datas (m.act t (serverInside t l m.shared)))[u]? = some l')
    (hpast : l'.past = true) :
    (∃ (u : Nat) (l'' : ServerPc), m.datas[u]? = some l'' ∧ l''.past = true) ∨
    l = .main .test ∧ m.shared.activeConn = 0 := by
  rcases act_datas_cases hp hu with ⟨rfl, rfl⟩ | ⟨-, hsame⟩
  · rcases inside_past hpast with hl | hl
    · exact .inl ⟨u, l, Server.datas_of_place hp, hl⟩
    · exact .inr hl
  · exact .inl ⟨u, l', hsame, hpast⟩

theorem Server.Inv.act_joined (h : m.Inv) (hp : m.places[t]? = some (.inside l))
    (hu : (Server.datas (m.act t (serverInside t l m.shared)))[u]? = some l')
    (hj : l'.joined = true) :
    (Server.datas (m.act t (serverInside t l m.shared)))[1]? = some (.listener .returned) := by
  have hold : m.datas[1]? = some (.listener .returned) := by
    rcases act_datas_cases hp hu with ⟨rfl, rfl⟩ | ⟨-, hsame⟩
    · rw [inside_joined] at hj
      exact h.joined u l (Server.datas_of_place hp) hj
    · exact h.joined u l' hsame hj
  have hset : Server.datas (m.act t (serverInside t l m.shared)) =
      m.datas.set t ((serverInside t l m.shared).place l).data := act_datas hp _
  rw [hset]
  by_cases ht : t = 1
  · -- the listener has returned, and is not inside
    subst ht
    obtain rfl : l = .listener .returned :=
      Option.some.inj ((Server.datas_of_place hp).symm.trans hold)
    obtain ⟨hlt, -⟩ := List.getElem?_eq_some_iff.mp hold
    rw [List.getElem?_set_self hlt]
    rfl
  · rw [List.getElem?_set_ne ht]
    exact hold

theorem Server.Inv.act_slept (h : m.Inv) (hp : m.places[t]? = some (.inside l)) {c : Unit}
    (hu : (m.act t (serverInside t l m.shared)).places[u]? = some (.waiting c l')) :
    (m.act t (serverInside t l m.shared)).shared.activeConn ≠ 0 ∨
      ∃ b : Nat, (m.act t (serverInside t l m.shared)).places[b]? =
      some (Position.inside (.client .broadcast)) := by
  have hself := act_place_self hp (serverInside t l m.shared)
  rw [act_shared]
  by_cases hl : ∃ v, l = .client (.store v)
  · obtain ⟨v, rfl⟩ := hl
    exact .inr ⟨t, hself⟩
  · obtain ⟨hconn, -, -⟩ := inside_quiet t m.shared (not_exists.mp hl)
    rw [hconn]
    by_cases hut : u = t
    · subst hut
      exact .inl (inside_waits (Option.some.inj (hself.symm.trans hu)))
    · have hold := (act_other h.disciplined hp _ hut hu).2 c l' rfl
      rcases h.slept u c l' hold with hne | ⟨b, hb⟩
      · exact .inl hne
      · -- the one inside is about to wake all
        obtain rfl : b = t := inside_unique h.disciplined hp hb
        obtain rfl : l = .client .broadcast := by simpa using hp.symm.trans hb
        have hwoken : (({ m with shared := m.shared } : Server).broadcast ()).places[u]? =
            some (.waiting c l') := (getElem?_set_other hut _).symm.trans hu
        rw [broadcast_places] at hwoken
        obtain ⟨q, -, hq⟩ := Option.map_eq_some_iff.mp hwoken
        exact absurd rfl (rouse_waiting_iff.mp hq).1

theorem Server.Inv.act_leaving (h : m.Inv) (hp : m.places[t]? = some (.inside l))
    (hu : (m.act t (serverInside t l m.shared)).places[u]? = some (.inside (.main .leaving))) :
    (m.act t (serverInside t l m.shared)).shared.activeConn = 0 := by
  by_cases hut : u = t
  · subst hut
    have hplace : (serverInside u l m.shared).place l = .inside (.main .leaving) :=
      Option.some.inj ((act_place_self hp _).symm.trans hu)
    have hpast : ((serverInside u l m.shared).place l).data.past = true := by rw [hplace]; rfl
    rcases inside_past hpast with hl | ⟨rfl, hzero⟩
    · -- whoever has left the loop does not come back
      cases l with
      | main pc => cases pc <;> first | cases hplace | cases hl
      | listener pc | client pc => cases hl
    · obtain ⟨hconn, -, -⟩ := inside_quiet u m.shared (l := .main .test) (fun v => by simp)
      rw [act_shared, hconn]
      exact hzero
  · exact absurd rfl ((act_other h.disciplined hp _ hut hu).1 _)

theorem Server.Inv.act_fresh (h : m.Inv) (hp : m.places[t]? = some (.inside l)) {v : BitVec 64}
    (hu : (m.act t (serverInside t l m.shared)).places[u]? = some (.inside (.client (.store v)))) :
    v = (m.act t (serverInside t l m.shared)).shared.activeConn := by
  by_cases hut : u = t
  · subst hut
    have hplace : (serverInside u l m.shared).place l = .inside (.client (.store v)) :=
      Option.some.inj ((act_place_self hp _).symm.trans hu)
    obtain ⟨rfl, rfl⟩ := inside_store hplace
    rw [act_shared]
    rfl
  · exact absurd rfl ((act_other h.disciplined hp _ hut hu).1 _)

/-- Everybody who is still owed a decrement is at work, and the one who has the mutex is not a
client. -/
theorem Server.Inv.served (h : m.Inv) {l : MainPc} (hp : m.places[t]? = some (.inside (.main l)))
    (howed : m.owed = 0) :
    m.Served := by
  intro u p hu hq
  obtain ⟨hrole, hplace⟩ := h.fits u p hq
  have howes : p.data.owes = false := by
    cases howes : p.data.owes with
    | false => rfl
    | true =>
      have hpos : 0 < m.owed := Counting.countP_pos_of_getElem? (Server.datas_of_place hq) howes
      omega
  have ht : t = 0 := (h.fits t _ hp).1
  obtain ⟨pc, hpc⟩ : ∃ pc, p.data = .client pc := by
    cases hd : p.data with
    | client pc => exact ⟨pc, rfl⟩
    | main pc | listener pc =>
      rw [hd] at hrole
      simp only [ServerPc.role] at hrole
      omega
  rw [hpc] at howes
  cases p with
  | out l' =>
    obtain rfl : l' = .client pc := hpc
    rcases hplace with hyes | rfl
    · exact absurd (howes.symm.trans hyes) Bool.false_ne_true
    · rfl
  | locking l' =>
    obtain rfl : l' = .client pc := hpc
    exact absurd (howes.symm.trans hplace.1) Bool.false_ne_true
  | inside l' =>
    obtain rfl := inside_unique h.disciplined hp hq
    omega
  | waiting c l' =>
    obtain rfl : l' = .main .test := hplace
    cases hpc

/-- A thread moves that is not a client at its end, and the others stay. -/
theorem Server.Served.moved (h : m.Served) (hp : m.places[t]? = some p)
    (hne : p ≠ .out (.client .returned))
    (hother : ∀ (u : Nat) (q : Position ServerPc Unit), u ≠ t → m'.places[u]? = some q →
      m.places[u]? = some q ∨ ∃ r c, m.places[u]? = some r ∧ q = Position.rouse c r) :
        m'.Served := by
  intro u q hu hq
  have hut : u ≠ t := by
    rintro rfl
    exact hne (h u p hu hp)
  rcases hother u q hut hq with hsame | ⟨r, c, hr, rfl⟩
  · exact h u q hu hsame
  · rw [h u r hu hr]
    rfl

theorem Server.Inv.act_settled (h : m.Inv) (hp : m.places[t]? = some (.inside l))
    (hu : (Server.datas (m.act t (serverInside t l m.shared)))[u]? = some l')
    (hpast : l'.past = true)
    (hlen : m.places.length < 2 ^ 64)
    (hm : (m.act t (serverInside t l m.shared)).shared.missed = 0) :
    Server.Served (m.act t (serverInside t l m.shared)) := by
  suffices hserved : m.Served from
    hserved.moved hp (by simp) fun w q hw hq => act_place_other hw _ hq
  rw [act_shared] at hm
  rcases act_past hp hu hpast with ⟨w, l'', hw, hl''⟩ | ⟨rfl, hzero⟩
  · refine h.settled w l'' hw hl'' hlen ?_
    by_cases hl : ∃ v, l = .client (.store v)
    · obtain ⟨v, rfl⟩ := hl
      have hv := h.fresh w l'' t v hw hl'' hp
      have hsame : (m.shared.store v (v - 1)).missed = m.shared.missed := by
        simp [ServerGlobals.store, hv]
      exact hsame.symm.trans hm
    · obtain ⟨-, hmissed, -⟩ := inside_quiet t m.shared (not_exists.mp hl)
      exact hmissed.symm.trans hm
  · obtain ⟨-, hmissed, -⟩ := inside_quiet t m.shared (l := .main .test) (fun v => by simp)
    have hb := h.balance
    rw [ServerGlobals.balance, hzero, ← hmissed, hm, sub_zero] at hb
    exact h.served hp (owed_eq_zero hlen hb.symm)

theorem steps_fits
    (h : ∀ (t : Nat) (p : Position ServerPc Unit), m.places[t]? = some p → ServerFits t p)
    (hs : Steps serverCode m m') (hp : m'.places[t]? = some p) : ServerFits t p := by
  refine hs.fits (fun t l l' hl ho => ?_) (fun t l l' hl ho => ?_) (fun t l hl => ?_)
    (fun t l hl => inside_fits hl)
    (fun t c l hl => ?_) h hp
  · rcases outside_fits hl ho with ⟨l'', heq, hfits, -⟩ | ⟨l'', heq, -⟩
    · cases heq
      exact hfits
    · cases heq
  · rcases outside_fits hl ho with ⟨l'', heq, -⟩ | ⟨l'', heq, hfits, -⟩
    · cases heq
    · cases heq
      exact hfits
  · obtain ⟨hrole, hplace⟩ := hl
    refine ⟨hrole, ?_⟩
    cases l with
    | client pc =>
      rintro rfl
      cases hplace.1
    | _ => trivial
  · obtain ⟨hrole, rfl⟩ := hl
    exact ⟨hrole, MainPc.noConfusion⟩

theorem datas_set_cases (hp : m.places[t]? = some p) (hplaces : m'.places = m.places.set t p')
    (h : m'.datas[u]? = some l') : (u = t ∧ l' = p'.data) ∨ (u ≠ t ∧ m.datas[u]? = some l') := by
  rw [Server.datas, hplaces, List.getElem?_map] at h
  obtain ⟨q, hq, rfl⟩ := Option.map_eq_some_iff.mp h
  by_cases hu : u = t
  · subst hu
    rw [getElem?_set_self hp] at hq
    exact .inl ⟨rfl, congrArg Position.data (Option.some.inj hq).symm⟩
  · rw [getElem?_set_other hu] at hq
    exact .inr ⟨hu, Server.datas_of_place hq⟩

theorem owed_set_place (hp : m.places[t]? = some p) (hplaces : m'.places = m.places.set t p') :
    m'.owed + p.data.owes.toNat = m.owed + p'.data.owes.toNat := by
  have hset : m'.datas = m.datas.set t p'.data := by rw [Server.datas, hplaces, List.map_set]; rfl
  rw [Server.owed, hset]
  exact countP_set_toNat _ (Server.datas_of_place hp) _

/-- A thread that is not inside moves, and the counter is left alone. -/
theorem Server.Inv.moved (h : m.Inv) (hp : m.places[t]? = some p)
    (hplaces : m'.places = m.places.set t p')
    (hconn : m'.shared.activeConn = m.shared.activeConn)
    (hmissed : m'.shared.missed = m.shared.missed)
    (hd : Disciplined m')
    (hf : ∀ (t : Nat) (p : Position ServerPc Unit), m'.places[t]? = some p → ServerFits t p)
    (howes : p'.data.owes = p.data.owes) (hpast : p'.data.past = p.data.past)
    (hreturned : p.data ≠ .listener .returned)
    (hjoined : p'.data.joined = true → m.datas[1]? = some (.listener .returned))
    (hin : ∀ l, p ≠ .inside l)
    (hend : p ≠ .out (.client .returned)) (hwaits : ∀ c l, p' ≠ .waiting c l)
    (hleaving : p' ≠ .inside (.main .leaving))
    (hstore : ∀ v, p' ≠ .inside (.client (.store v))) : m'.Inv := by
  have howed : m'.owed = m.owed := by
    have hset := owed_set_place hp hplaces
    rw [howes] at hset
    exact Nat.add_right_cancel hset
  have hplace : ∀ {u : Nat} {q : Position ServerPc Unit}, m'.places[u]? = some q →
      (u = t ∧ q = p') ∨ m.places[u]? = some q := by
    intro u q hq
    rw [hplaces] at hq
    by_cases hu : u = t
    · subst hu
      exact .inl ⟨rfl, (Option.some.inj ((getElem?_set_self hp p').symm.trans hq)).symm⟩
    · exact .inr ((getElem?_set_other hu p').symm.trans hq)
  have hold : ∀ {u : Nat} {l : ServerPc}, m'.datas[u]? = some l → l.past = true →
      ∃ (w : Nat) (l' : ServerPc), m.datas[w]? = some l' ∧ l'.past = true := by
    intro u l hl hl'
    rcases datas_set_cases hp hplaces hl with ⟨-, rfl⟩ | ⟨-, hsame⟩
    · exact ⟨t, p.data, Server.datas_of_place hp, hpast ▸ hl'⟩
    · exact ⟨u, l, hsame, hl'⟩
  refine ⟨hd, hf, ?_, fun u l hl hj => ?_, fun u c l hu => ?_, fun u hu => ?_,
    fun u l w v hl hl' hw => ?_,
    fun u l hl hl' hlen hm => ?_⟩
  · rw [howed, ← h.balance, ServerGlobals.balance, hconn, hmissed]
    rfl
  · have hlistener : m.datas[1]? = some (.listener .returned) := by
      rcases datas_set_cases hp hplaces hl with ⟨-, rfl⟩ | ⟨-, hsame⟩
      · exact hjoined hj
      · exact h.joined u l hsame hj
    have ht : t ≠ 1 := by
      rintro rfl
      exact hreturned (Option.some.inj ((Server.datas_of_place hp).symm.trans hlistener))
    rw [Server.datas, hplaces, List.map_set, List.getElem?_set_ne ht]
    exact hlistener
  · rw [hconn]
    rcases hplace hu with ⟨-, rfl⟩ | hu
    · exact absurd rfl (hwaits c l)
    · rcases h.slept u c l hu with hne | ⟨b, hb⟩
      · exact .inl hne
      · have hbt : b ≠ t := by
          rintro rfl
          exact hin _ (Option.some.inj (hp.symm.trans hb))
        exact .inr ⟨b, by rw [hplaces, getElem?_set_other hbt]; exact hb⟩
  · rw [hconn]
    rcases hplace hu with ⟨-, heq⟩ | hu
    · exact absurd heq.symm hleaving
    · exact h.leaving u hu
  · rw [hconn]
    obtain ⟨x, l'', hx, hl''⟩ := hold hl hl'
    rcases hplace hw with ⟨-, heq⟩ | hw
    · exact absurd heq.symm (hstore v)
    · exact h.fresh x l'' w v hx hl'' hw
  · obtain ⟨x, l'', hx, hl''⟩ := hold hl hl'
    rw [hplaces, List.length_set] at hlen
    refine (h.settled x l'' hx hl'' hlen (hmissed ▸ hm)).moved hp hend fun w q hw hq => .inl ?_
    rwa [hplaces, getElem?_set_other hw] at hq

theorem Server.Inv.act (h : m.Inv) (hp : m.places[t]? = some (.inside l)) :
    Server.Inv (State.act m t (serverInside t l m.shared)) where
  disciplined := h.disciplined.steps (Steps.act (P := serverCode) hp)
  fits _ _ hq := steps_fits h.fits (Steps.act (P := serverCode) hp) hq
  balance := h.act_balance hp
  joined _ _ hu hj := h.act_joined hp hu hj
  slept _ _ _ hu := h.act_slept hp hu
  leaving _ hu := h.act_leaving hp hu
  fresh _ _ _ _ _ _ hw := h.act_fresh hp hw
  settled _ _ hu hpast hlen hm := by
    have hlength : (m.act t (serverInside t l m.shared)).places.length = m.places.length := by
      have hmap := congrArg List.length (act_datas hp (serverInside t l m.shared))
      simpa using hmap
    exact h.act_settled hp hu hpast (hlength ▸ hlen) hm

theorem Server.Inv.steps (h : m.Inv) (hs : Steps serverCode m m') : m'.Inv := by
  have hd := h.disciplined.steps hs
  have hf : ∀ (t : Nat) (p : Position ServerPc Unit), m'.places[t]? = some p → ServerFits t p :=
    fun _ _ hq => steps_fits h.fits hs hq
  cases hs with
  | @move t l l' hp ho =>
    have hfits := h.fits t _ hp
    rcases outside_fits hfits ho with ⟨l'', heq, -, howes, hjoined, hpast⟩ | ⟨l'', heq, -⟩
    · obtain rfl := Out.move.inj heq
      exact h.moved hp rfl rfl rfl hd hf howes hpast (by rintro ⟨⟩; cases ho)
        (fun hj => h.joined t l (Server.datas_of_place hp) (hjoined ▸ hj))
        (by simp) (by rintro ⟨⟩; cases ho) (by simp)
        (by simp) (by simp)
    · cases heq
  | @lock t l l' hp ho =>
    have hfits := h.fits t _ hp
    rcases outside_fits hfits ho with ⟨l'', heq, -⟩ | ⟨l'', heq, -, howes, hjoined, hpast⟩
    · cases heq
    · obtain rfl := Out.lock.inj heq
      exact h.moved hp rfl rfl rfl hd hf howes hpast (by rintro ⟨⟩; cases ho)
        (fun hj => h.joined t l (Server.datas_of_place hp) (hjoined ▸ hj))
        (by simp) (by rintro ⟨⟩; cases ho) (by simp)
        (by simp) (by simp)
  | @quit t l hp ho =>
    rcases outside_fits (h.fits t _ hp) ho with ⟨l'', heq, -⟩ | ⟨l'', heq, -⟩ <;> cases heq
  | @enter t l hp hfree =>
    have hfits := (h.fits t _ hp).2
    refine h.moved hp rfl rfl rfl hd hf rfl rfl ?_
      (fun hj => h.joined t l (Server.datas_of_place hp) hj) (by simp)
      (by simp) (by simp) ?_ ?_
    · rintro ⟨⟩
      exact hfits rfl
    · intro heq
      obtain rfl := Position.inside.inj heq
      exact hfits rfl
    · intro v heq
      obtain rfl := Position.inside.inj heq
      exact hfits.2 v rfl
  | @wake t c l hp =>
    obtain ⟨-, rfl⟩ := h.fits t _ hp
    exact h.moved hp rfl rfl rfl hd hf rfl rfl ServerPc.noConfusion
      (fun hj => h.joined t _ (Server.datas_of_place hp) hj) (by simp)
      (by simp) (by simp) (by simp) (by simp)
  | act hp => exact h.act hp

theorem Server.Inv.unjoined_listener (h : m.Inv) {pc : ListenerPc}
    (hp : m.places[t]? = some (.out (.listener pc)))
    (hpc : pc ≠ .returned) (hu : m.datas[u]? = some l) : l.joined = false := by
  cases hj : l.joined with
  | false => rfl
  | true =>
    obtain rfl : t = 1 := (h.fits t _ hp).1
    have heq := (Server.datas_of_place hp).symm.trans (h.joined u l hu hj)
    exact absurd (ServerPc.listener.inj (Option.some.inj heq)) hpc

theorem Server.Inv.listener_moves (h : m.Inv) {pc pc' : ListenerPc} {g : ServerGlobals}
    (hp : m.places[t]? = some (.out (.listener pc))) (hpc : pc ≠ .returned)
    (hp' : p' = .out (.listener pc') ∨ p' = .locking (.listener pc') ∧ pc' ≠ .returned)
    (hb : g.balance + BitVec.ofNat 64 (ServerPc.listener pc).owes.toNat =
      m.shared.balance + BitVec.ofNat 64 (ServerPc.listener pc').owes.toNat) :
    Server.Inv ({ m with shared := g }.put t p') := by
  have hdata : p'.data = .listener pc' := by rcases hp' with rfl | ⟨rfl, -⟩ <;> rfl
  have hfits : ServerFits t p' := by
    have hrole := (h.fits t _ hp).1
    rcases hp' with rfl | ⟨rfl, hne⟩
    · exact ⟨hrole, trivial⟩
    · exact ⟨hrole, hne⟩
  have howed : Server.owed ({ m with shared := g }.put t p') + (ServerPc.listener pc).owes.toNat =
      m.owed + p'.data.owes.toNat := owed_set_place hp rfl
  refine .unjoined (h.disciplined.put_out hp g ?_ ?_) (fun u q hq => ?_) ?_ (fun u l hl => ?_)
  · rcases hp' with rfl | ⟨rfl, -⟩ <;> simp
  · rcases hp' with rfl | ⟨rfl, -⟩ <;> simp
  · by_cases hu : u = t
    · subst hu
      exact Option.some.inj ((getElem?_set_self hp p').symm.trans hq) ▸ hfits
    · exact h.fits u q ((getElem?_set_other hu p').symm.trans hq)
  · rw [hdata] at howed
    have hcast := congrArg (BitVec.ofNat 64) howed
    rw [BitVec.ofNat_add, BitVec.ofNat_add, ← h.balance, ← hb] at hcast
    exact (add_right_cancel hcast).symm
  · have hplaces : ({ m with shared := g }.put t p').places = m.places.set t p' := rfl
    rcases datas_set_cases hp hplaces hl with ⟨-, rfl⟩ | ⟨-, hsame⟩
    · rw [hdata]
      rfl
    · exact h.unjoined_listener hp hpc hsame

theorem Server.Inv.create (h : m.Inv) {r : Option Int}
    (hp : m.places[t]? = some (.out (.listener (.create r)))) :
    Server.Inv
      ({ m with places := m.places ++ [Position.locking (ServerPc.client (.draw r))] }.put t
      (.out (.listener .accept))) := by
  obtain ⟨hlt, -⟩ := List.getElem?_eq_some_iff.mp hp
  have ht : t = 1 := (h.fits t _ hp).1
  let n : Server := { m with places := m.places ++ [.locking (.client (.draw r))] }
  let n' : Server := n.put t (.out (.listener .accept))
  have hn' : n'.places = n.places.set t (.out (.listener .accept)) := rfl
  have hn : n.places[t]? = some (.out (.listener (.create r))) := by
    rw [← hp]
    exact List.getElem?_append_left hlt
  have hdatas : n.datas = m.datas ++ [.client (.draw r)] := by simp [n, Server.datas, Position.data]
  have howed : n'.owed = m.owed := by
    have hset : n'.owed + 1 = n.owed + 0 := owed_set_place hn hn'
    have hgrown : n.owed = m.owed + 1 := by simp [Server.owed, hdatas, ServerPc.owes]
    omega
  have hplace : ∀ {u : Nat} {q : Position ServerPc Unit}, n.places[u]? = some q →
      (u = m.places.length ∧ q = .locking (.client (.draw r))) ∨ m.places[u]? = some q := by
    intro u q hq
    rcases Counting.getElem?_concat_cases hq with ⟨hu, rfl⟩ | ⟨-, hq⟩
    · exact .inl ⟨hu, rfl⟩
    · exact .inr hq
  have hd : Disciplined n := h.disciplined.spawn _
  have hd' : Disciplined n' := hd.put_out hn n.shared (by simp) (by simp)
  suffices hinv : n'.Inv from hinv
  refine .unjoined hd' (fun u q hq => ?_) ?_ (fun u l hl => ?_)
  · by_cases hu : u = t
    · subst hu
      obtain rfl : q = .out (.listener .accept) :=
        Option.some.inj (hq.symm.trans (getElem?_set_self hn _))
      exact ⟨ht, trivial⟩
    · rcases hplace ((getElem?_set_other hu _).symm.trans hq) with ⟨rfl, rfl⟩ | hq
      · exact ⟨show 2 ≤ m.places.length by omega, rfl, fun _ => ClientPc.noConfusion⟩
      · exact h.fits u q hq
  · rw [howed, ← h.balance]
    rfl
  · rcases datas_set_cases hn hn' hl with ⟨-, rfl⟩ | ⟨-, hsame⟩
    · rfl
    · rw [hdatas] at hsame
      rcases Counting.getElem?_concat_cases hsame with ⟨-, rfl⟩ | ⟨-, hsame⟩
      · rfl
      · exact h.unjoined_listener hp ListenerPc.noConfusion hsame

/-- The main thread moves without the mutex. -/
theorem Server.Inv.main_moves (h : m.Inv) {pc pc' : MainPc} {g : ServerGlobals}
    (hp : m.places[t]? = some (.out (.main pc)))
    (hp' : p' = .out (.main pc') ∨ p' = .locking (.main pc') ∧ pc' ≠ .leaving)
    (hconn : g.activeConn = m.shared.activeConn) (hmissed : g.missed = m.shared.missed)
    (hpast : (ServerPc.main pc').past = (ServerPc.main pc).past)
    (hjoined : (ServerPc.main pc').joined = true → m.datas[1]? = some (.listener .returned)) :
    Server.Inv ({ m with shared := g }.put t p') := by
  have hdata : p'.data = .main pc' := by rcases hp' with rfl | ⟨rfl, -⟩ <;> rfl
  have hfits : ServerFits t p' := by
    have hrole := (h.fits t _ hp).1
    rcases hp' with rfl | ⟨rfl, hne⟩
    · exact ⟨hrole, trivial⟩
    · exact ⟨hrole, hne⟩
  have hout : (∀ l, p' ≠ .inside l) ∧ ∀ c l, p' ≠ .waiting c l := by
    rcases hp' with rfl | ⟨rfl, -⟩ <;> simp
  refine h.moved hp rfl hconn hmissed (h.disciplined.put_out hp g hout.1 hout.2) (fun u q hq => ?_)
    (by rw [hdata]; rfl) (by rw [hdata]; exact hpast) ServerPc.noConfusion
    (by rw [hdata]; exact hjoined) (by simp)
    (by simp) hout.2 (hout.1 _) fun v => hout.1 _
  by_cases hu : u = t
  · subst hu
    exact Option.some.inj ((getElem?_set_self hp p').symm.trans hq) ▸ hfits
  · exact h.fits u q ((getElem?_set_other hu p').symm.trans hq)

theorem Server.Inv.unlocked (h : m.Inv) (hs : m.unlocked t = some m') : m'.Inv := by
  unfold Server.unlocked at hs
  split at hs
  · rename_i lines hp
    obtain rfl := Option.some.inj hs
    exact h.main_moves hp (.inl rfl) rfl rfl rfl Bool.noConfusion
  · rename_i hp
    split at hs
    · rename_i hreturned
      obtain rfl := Option.some.inj hs
      exact h.main_moves hp (.inr ⟨rfl, MainPc.noConfusion⟩) rfl rfl rfl fun _ =>
        Server.datas_of_place hreturned
    · cases hs
  · rename_i hp
    split at hs
    · obtain rfl := Option.some.inj hs
      exact h.listener_moves hp ListenerPc.noConfusion (.inl rfl) rfl
    · obtain rfl := Option.some.inj hs
      exact h.listener_moves hp ListenerPc.noConfusion (.inr ⟨rfl, ListenerPc.noConfusion⟩) rfl
  · rename_i r hp
    obtain rfl := Option.some.inj hs
    exact h.listener_moves hp ListenerPc.noConfusion (.inl rfl) rfl
  · rename_i r v hp
    obtain rfl := Option.some.inj hs
    refine h.listener_moves hp ListenerPc.noConfusion (.inl rfl) ?_
    rw [balance_store]
    have hone : v + 1 - v = 1 := by abel
    rw [hone]
    exact add_zero _
  · rename_i r hp
    obtain rfl := Option.some.inj hs
    exact h.listener_moves hp ListenerPc.noConfusion (.inl rfl) rfl
  · rename_i r hp
    obtain rfl := Option.some.inj hs
    exact h.create hp
  · cases hs

theorem Server.Inv.step {e : ServerEvent} (h : m.Inv) (hs : m.step e = some m') : m'.Inv := by
  unfold Server.step at hs
  split at hs
  · cases hs
  · cases e with
    | thread e => exact h.steps (steps_of_step hs)
    | unlocked t => exact h.unlocked hs
    | listen ok =>
      simp only at hs
      split at hs
      · rename_i hp
        obtain rfl := Option.some.inj hs
        exact h.listener_moves hp ListenerPc.noConfusion (.inl rfl) (by cases ok <;> rfl)
      · cases hs
    | accept connection =>
      simp only at hs
      split at hs
      · rename_i hp
        obtain rfl := Option.some.inj hs
        exact h.listener_moves hp ListenerPc.noConfusion (.inl rfl) (by cases connection <;> rfl)
      · cases hs

theorem Server.Inv.start (lines : List ConsoleLine) : (Server.start lines).Inv := by
  have hplaces : ∀ (t : Nat) (p : Position ServerPc Unit),
      (Server.start lines).places[t]? = some p → (t = 0 ∧ p = .out (.main (.console lines))) ∨
        (t = 1 ∧ p = .out (.listener .listen)) := by
    intro t p hp
    cases t with
    | zero => exact .inl ⟨rfl, (Option.some.inj hp).symm⟩
    | succ t =>
      cases t with
      | zero => exact .inr ⟨rfl, (Option.some.inj hp).symm⟩
      | succ t => cases hp
  have hd : Disciplined (Server.start lines) :=
    Disciplined.start _ [ServerPc.main (.console lines), ServerPc.listener .listen]
  refine .unjoined hd (fun t p hp => ?_) ?_ (fun t l hl => ?_)
  · rcases hplaces t p hp with ⟨rfl, rfl⟩ | ⟨rfl, rfl⟩ <;> exact ⟨rfl, trivial⟩
  · simp [Server.start, ServerGlobals.balance, Server.owed, Server.datas,
      Position.data, ServerPc.owes]
  · rw [Server.datas, List.getElem?_map] at hl
    obtain ⟨p, hp, rfl⟩ := Option.map_eq_some_iff.mp hl
    rcases hplaces t p hp with ⟨rfl, rfl⟩ | ⟨rfl, rfl⟩ <;> rfl

theorem Server.Inv.run {lines : List ConsoleLine} {es : List ServerEvent}
    (h : exec Server.step (Server.start lines) es = some m) : m.Inv :=
  (reach_of_exec h).invariant (.start lines) fun _ _ _ hu _ hs => hu.step hs

theorem Server.Served.owed (h : m.Served) (hm : m.Inv)
    (hlistener : m.datas[1]? = some (.listener .returned)) :
    m.owed = 0 := by
  refine List.countP_eq_zero.mpr fun l hl => ?_
  obtain ⟨t, ht⟩ := List.mem_iff_getElem?.mp hl
  rw [Server.datas, List.getElem?_map] at ht
  obtain ⟨p, hp, rfl⟩ := Option.map_eq_some_iff.mp ht
  have hrole := (hm.fits t p hp).1
  cases hd : p.data with
  | main pc => simp [ServerPc.owes]
  | listener pc =>
    rw [hd] at hrole
    obtain rfl : t = 1 := hrole
    have heq := (Server.datas_of_place hp).symm.trans hlistener
    rw [← hd, Option.some.inj heq]
    simp [ServerPc.owes]
  | client pc =>
    rw [hd] at hrole
    rw [← hd, h t p hrole hp]
    simp [Position.data, ServerPc.owes]

end Step

/-! ### Quitting -/

/-- When the server leaves the loop, its clients have all returned exactly if the stores to the
counter have missed nothing; they have returned when it returns if nothing was missed; and it sleeps
for ever after the last client only if something was. -/
theorem quit_waits_for_clients {lines : List ConsoleLine} {es : List ServerEvent} {m : Server}
    (h : exec Server.step (Server.start lines) es = some m) (hlen : m.places.length < 2 ^ 64) :
    (m.places[0]? = some (.inside (.main .leaving)) → (m.Served ↔ m.shared.missed = 0)) ∧
      (m.places[0]? = some (.out (.main .returned)) → m.shared.missed = 0 → m.Served) ∧
      ∀ c l, m.places[0]? = some (.waiting c l) → m.Served → m.shared.missed ≠ 0 := by
  have hm := Server.Inv.run h
  refine ⟨fun hp => ⟨fun hserved => ?_, fun hmissed => ?_⟩, fun hp hmissed => ?_,
    fun c l hp hserved hmissed => ?_⟩
  · have howed := hserved.owed hm (hm.joined 0 _ (Server.datas_of_place hp) rfl)
    have hb := hm.balance
    rw [howed, ServerGlobals.balance, hm.leaving 0 hp] at hb
    simpa using hb
  · exact hm.settled 0 _ (Server.datas_of_place hp) rfl hlen hmissed
  · exact hm.settled 0 _ (Server.datas_of_place hp) rfl hlen hmissed
  · obtain ⟨-, rfl⟩ := hm.fits 0 _ hp
    have howed := hserved.owed hm (hm.joined 0 _ (Server.datas_of_place hp) rfl)
    have hb := hm.balance
    rw [howed, ServerGlobals.balance, hmissed] at hb
    rcases hm.slept 0 c _ hp with hne | ⟨b, hbroadcast⟩
    · exact hne (by simpa using hb)
    · -- nobody is left to wake the main thread
      have hrole : 2 ≤ b := (hm.fits b _ hbroadcast).1
      cases hserved b _ hrole hbroadcast

/-- The listener counts a second client in between the load and the store with which the first one
counts itself out: the server leaves while the second one is at its start. -/
theorem quit_waits_for_clients_early : ∃ m : Server,
    m.places[0]? = some (.inside (.main .leaving)) ∧
    m.places[3]? = some (.locking (.client (.draw none))) ∧ m.shared.missed ≠ 0 := by
  obtain ⟨m, hm, hp⟩ : ∃ m, exec Server.step (Server.start [.quit])
      ([.listen true, .accept (some none)] ++ List.replicate 4 (.unlocked 1) ++ List.replicate 14
        (.thread (.run 2)) ++ [.accept (some none), .unlocked 1, .unlocked 1,
          .thread (.run 2), .thread (.run 2), .thread (.run 2), .unlocked 1,
          .unlocked 1, .unlocked 0, .thread (.run 0), .accept none, .unlocked 1,
            .unlocked 0, .thread (.run 0),
          .thread (.run 0)]) = some m ∧
      (m.places[0]? = some (.inside (.main .leaving)) && m.places[3]? =
        some (.locking (.client (.draw none))) &&
        m.places.length < 2 ^ 64) = true :=
    (Option.any_eq_true _ _).mp (by decide +kernel)
  simp only [Bool.and_eq_true, decide_eq_true_eq] at hp
  obtain ⟨⟨hmain, hclient⟩, hlen⟩ := hp
  refine ⟨m, hmain, hclient, fun hmissed => ?_⟩
  have hserved := ((quit_waits_for_clients hm hlen).1 hmain).mpr hmissed
  cases hserved 3 _ (by decide) hclient

end TinyOS
