import TinyOS.ServerQuit

/-! The log of the remote server: its numbers, the numbers of the clients, and what it says of
each. -/

namespace TinyOS

open Monitors Transition

def LogMessage.client : LogMessage → BitVec 64
  | .started id | .aborting id | .finished id _ => id

def LogRecord.about (id : BitVec 64) : LogRecord → Option LogMessage
  | .client msg => if msg.client = id then some msg else none
  | .failedToAccept _ => none

def ServerGlobals.about (g : ServerGlobals) (id : BitVec 64) : List LogMessage :=
  g.log.filterMap fun entry => entry.2.about id

/-- The number that a client thread still has to use, with what it has logged. -/
def ServerPc.holding : ServerPc → Option (BitVec 64 × List LogMessage)
  | .client (.drawn _ id) | .client (.started _ id) | .client (.logStart _ id) => some (id, [])
  | .client (.startLogged _ id) | .client (.serve _ id) | .client (.logEnd _ id) =>
    some (id, [.started id])
  | _ => none

def Server.holding (m : Server) (t : Nat) : Option (BitVec 64 × List LogMessage) :=
  (m.datas[t]?).bind ServerPc.holding

def ServerPc.undrawn : ServerPc → Bool
  | .client (.draw _) => true
  | _ => false

def ServerPc.truncated : ServerPc → Bool
  | .main .truncated | .main .returned => true
  | _ => false

def Server.Open (m : Server) : Prop := ∀ (t : Nat) (l : ServerPc),
    m.datas[t]? = some l → l.truncated = false

/-- A number is not drawn yet, or one thread holds it, or its thread has logged its end. -/
inductive Told (holding : Nat → Option (BitVec 64 × List LogMessage)) (counter id : BitVec 64)
    (said : List LogMessage) : Prop
  | unused : id.toNat = 0 ∨ counter.toNat < id.toNat → (∀ t s, holding t ≠ some (id, s)) →
  said = [] → Told holding counter id said
  | held (t : Nat) : 0 < id.toNat → id.toNat ≤ counter.toNat → holding t = some (id, said) →
      (∀ u s, holding u = some (id, s) → u = t) → Told holding counter id said
  | done (r : Option Int) : 0 < id.toNat → id.toNat ≤ counter.toNat →
      (∀ t s, holding t ≠ some (id, s)) →
      said = [.started id, lastMessage id r] → Told holding counter id said

structure Server.LogInv (m : Server) : Prop where
  drawn : m.places.length < 2 ^ 64 →
    m.shared.connIdCounter.toNat + m.datas.countP ServerPc.undrawn + 2 = m.places.length
  told : m.places.length < 2 ^ 64 → m.Open → ∀ id, Told m.holding m.shared.connIdCounter id
    (m.shared.about id)
  numbered : m.Open → m.shared.logcount = BitVec.ofNat 64 m.shared.log.length ∧
    m.shared.log.map Prod.fst = (List.range' 1 m.shared.log.length).map (BitVec.ofNat 64)

section Told

variable {holding holding' : Nat → Option (BitVec 64 × List LogMessage)}
  {counter id id' : BitVec 64} {said : List LogMessage} {t : Nat}

theorem Told.draw (h : Told holding counter id said) (hnone : holding t = none)
    (hnext : id'.toNat = counter.toNat + 1)
    (hself : holding' t = some (id', [])) (hother : ∀ u, u ≠ t → holding' u = holding u) :
    Told holding' id' id said := by
  have hold : ∀ {u : Nat} {s : List LogMessage}, id ≠ id' → holding' u = some (id, s) →
      holding u = some (id, s) := by
    intro u s hne hu
    by_cases hut : u = t
    · subst hut
      rw [hself] at hu
      simp only [Option.some.injEq, Prod.mk.injEq] at hu
      exact absurd hu.1.symm hne
    · rwa [hother u hut] at hu
  cases h with
  | unused hid hnobody hsaid =>
    by_cases hne : id = id'
    · subst hne
      subst hsaid
      refine .held t (by omega) le_rfl hself fun u s hu => ?_
      by_contra hut
      rw [hother u hut] at hu
      exact hnobody u s hu
    · have hnat : id.toNat ≠ id'.toNat := fun heq => hne (BitVec.eq_of_toNat_eq heq)
      exact .unused (by omega) (fun u s hu => hnobody u s (hold hne hu)) hsaid
  | held w hpos hle hw huniq =>
    have hne : id ≠ id' := by
      rintro rfl
      omega
    have hwt : w ≠ t := by
      rintro rfl
      rw [hnone] at hw
      cases hw
    exact .held w hpos (by omega) ((hother w hwt).trans hw) fun u s hu => huniq u s (hold hne hu)
  | done r hpos hle hnobody hsaid =>
    have hne : id ≠ id' := by
      rintro rfl
      omega
    exact .done r hpos (by omega) (fun u s hu => hnobody u s (hold hne hu)) hsaid

theorem Told.start (h : Told holding counter id said) (ht : holding t = some (id', []))
    (hself : holding' t = some (id', [.started id']))
    (hother : ∀ u, u ≠ t → holding' u = holding u) :
    Told holding' counter id (said ++ if id' = id then [.started id'] else []) := by
  have hold : ∀ {u : Nat} {s : List LogMessage}, holding' u = some (id, s) →
      ∃ s', holding u = some (id, s') := by
    intro u s hu
    by_cases hut : u = t
    · subst hut
      rw [hself] at hu
      simp only [Option.some.injEq, Prod.mk.injEq] at hu
      exact ⟨[], hu.1 ▸ ht⟩
    · exact ⟨s, hother u hut ▸ hu⟩
  by_cases hne : id' = id
  · subst hne
    rw [if_pos rfl]
    cases h with
    | unused hid hnobody hsaid => exact absurd ht (hnobody t [])
    | held w hpos hle hw huniq =>
      obtain rfl : t = w := huniq t [] ht
      obtain rfl : said = [] := by
        rw [ht] at hw
        simp only [Option.some.injEq, Prod.mk.injEq, true_and] at hw
        exact hw.symm
      exact .held t hpos hle hself fun u s hu => (hold hu).elim fun s' hs' => huniq u s' hs'
    | done r hpos hle hnobody hsaid => exact absurd ht (hnobody t [])
  · rw [if_neg hne, List.append_nil]
    cases h with
    | unused hid hnobody hsaid =>
      exact .unused hid (fun u s hu => (hold hu).elim fun s' hs' => hnobody u s' hs') hsaid
    | held w hpos hle hw huniq =>
      have hwt : w ≠ t := by
        rintro rfl
        rw [ht] at hw
        simp only [Option.some.injEq, Prod.mk.injEq] at hw
        exact hne hw.1
      exact .held w hpos hle ((hother w hwt).trans hw) fun u s hu => (hold hu).elim fun s' hs' =>
        huniq u s' hs'
    | done r hpos hle hnobody hsaid =>
      exact .done r hpos hle (fun u s hu => (hold hu).elim fun s' hs' => hnobody u s' hs') hsaid

/-- A thread logs its end, and does not use its number any more. -/
theorem Told.finish (h : Told holding counter id said) (ht : holding t = some (id', [.started id']))
    (r : Option Int) (hself : holding' t = none) (hother : ∀ u, u ≠ t → holding' u = holding u) :
    Told holding' counter id (said ++ if id' = id then [lastMessage id' r] else []) := by
  have hold : ∀ {u : Nat} {s : List LogMessage}, holding' u = some (id, s) →
      u ≠ t ∧ holding u = some (id, s) := by
    intro u s hu
    have hut : u ≠ t := by
      rintro rfl
      rw [hself] at hu
      cases hu
    exact ⟨hut, hother u hut ▸ hu⟩
  by_cases hne : id' = id
  · subst hne
    rw [if_pos rfl]
    cases h with
    | unused hid hnobody hsaid => exact absurd ht (hnobody t _)
    | held w hpos hle hw huniq =>
      obtain rfl : t = w := huniq t _ ht
      obtain rfl : said = [.started id'] := by
        rw [ht] at hw
        simp only [Option.some.injEq, Prod.mk.injEq, true_and] at hw
        exact hw.symm
      exact .done r hpos hle (fun u s hu => (hold hu).1 (huniq u s (hold hu).2)) rfl
    | done r hpos hle hnobody hsaid => exact absurd ht (hnobody t _)
  · rw [if_neg hne, List.append_nil]
    cases h with
    | unused hid hnobody hsaid => exact .unused hid (fun u s hu => hnobody u s (hold hu).2) hsaid
    | held w hpos hle hw huniq =>
      have hwt : w ≠ t := by
        rintro rfl
        rw [ht] at hw
        simp only [Option.some.injEq, Prod.mk.injEq] at hw
        exact hne hw.1
      exact .held w hpos hle ((hother w hwt).trans hw) fun u s hu => huniq u s (hold hu).2
    | done r hpos hle hnobody hsaid =>
      exact .done r hpos hle (fun u s hu => hnobody u s (hold hu).2) hsaid

end Told

section Step

variable {m m' : Server} {t u : Nat} {l l' : ServerPc} {p p' : Position ServerPc Unit}
  {g : ServerGlobals}

/-- What a statement with the mutex does to the log and to the numbers. -/
theorem inside_log (t : Nat) (l : ServerPc) (g : ServerGlobals) :
    (((serverInside t l g).shared g).connIdCounter = g.connIdCounter ∧
      ((serverInside t l g).shared g).log = g.log ∧
        ((serverInside t l g).shared g).logcount = g.logcount ∧
        ((serverInside t l g).place l).data.holding = l.holding ∧
        ((serverInside t l g).place l).data.undrawn = l.undrawn ∧
        ((serverInside t l g).place l).data.truncated = l.truncated) ∨
      (∃ r, l = .client (.draw r)) ∨ (∃ r id, l = .client (.logStart r id)) ∨
      (∃ r id, l = .client (.logEnd r id)) ∨
      l = .listener .log ∨ l = .main .truncate := by
  cases l with
  | main pc =>
    cases pc with
    | test =>
      rw [serverInside_test]
      split <;> exact .inl ⟨rfl, rfl, rfl, rfl, rfl, rfl⟩
    | truncate => exact .inr (.inr (.inr (.inr (.inr rfl))))
    | _ => exact .inl ⟨rfl, rfl, rfl, rfl, rfl, rfl⟩
  | listener pc =>
    cases pc with
    | log => exact .inr (.inr (.inr (.inr (.inl rfl))))
    | _ => exact .inl ⟨rfl, rfl, rfl, rfl, rfl, rfl⟩
  | client pc =>
    cases pc with
    | draw r => exact .inr (.inl ⟨r, rfl⟩)
    | logStart r id => exact .inr (.inr (.inl ⟨r, id, rfl⟩))
    | logEnd r id => exact .inr (.inr (.inr (.inl ⟨r, id, rfl⟩)))
    | _ => exact .inl ⟨rfl, rfl, rfl, rfl, rfl, rfl⟩

theorem holding_set (hp : m.datas[t]? = some l) (hset : m'.datas = m.datas.set t l') (u : Nat) :
    m'.holding u = if u = t then l'.holding else m.holding u := by
  obtain ⟨hlt, -⟩ := List.getElem?_eq_some_iff.mp hp
  rw [Server.holding, hset]
  by_cases hu : u = t
  · subst hu
    rw [List.getElem?_set_self hlt, if_pos rfl]
    rfl
  · rw [List.getElem?_set_ne (Ne.symm hu), if_neg hu]
    rfl

theorem open_of_set (hp : m.datas[t]? = some l) (hset : m'.datas = m.datas.set t l')
    (htrunc : l.truncated = true → l'.truncated = true) (h : m'.Open) : m.Open := by
  intro u q hq
  obtain ⟨hlt, -⟩ := List.getElem?_eq_some_iff.mp hp
  by_cases hu : u = t
  · subst hu
    obtain rfl : l = q := Option.some.inj (hp.symm.trans hq)
    have hnew := h u l' (by rw [hset, List.getElem?_set_self hlt])
    cases hold : l.truncated with
    | false => rfl
    | true => rw [htrunc hold] at hnew; cases hnew
  · exact h u q (by rw [hset, List.getElem?_set_ne (Ne.symm hu)]; exact hq)

/-- A step that changes neither the log nor the numbers. -/
theorem Server.LogInv.quiet (h : m.LogInv) (hp : m.datas[t]? = some l)
    (hset : m'.datas = m.datas.set t l')
    (hcounter : m'.shared.connIdCounter = m.shared.connIdCounter)
    (hlog : m'.shared.log = m.shared.log)
    (hcount : m'.shared.logcount = m.shared.logcount) (hholding : l'.holding = l.holding)
    (hundrawn : l'.undrawn = l.undrawn) (htrunc : l'.truncated = l.truncated) : m'.LogInv := by
  have hlength : m'.places.length = m.places.length := by
    have hlen := congrArg List.length hset
    simpa [Server.datas] using hlen
  have hopen : m'.Open → m.Open := open_of_set hp hset fun ht => htrunc ▸ ht
  have hhold : m'.holding = m.holding := by
    funext u
    rw [holding_set hp hset u]
    split
    · rename_i hu
      rw [hu, hholding, Server.holding, hp]
      rfl
    · rfl
  refine ⟨fun hlen => ?_, fun hlen ho id => ?_, fun ho => ?_⟩
  · have hcountP := countP_set_toNat ServerPc.undrawn hp l'
    rw [hundrawn] at hcountP
    rw [hcounter, hlength, hset, Nat.add_right_cancel hcountP]
    exact h.drawn (hlength ▸ hlen)
  · rw [hhold, hcounter, ServerGlobals.about, hlog]
    exact h.told (hlength ▸ hlen) (hopen ho) id
  · rw [hlog, hcount]
    exact h.numbered (hopen ho)

theorem numbered_append {r : LogRecord} (h : g.logcount = BitVec.ofNat 64 g.log.length ∧
      g.log.map Prod.fst = (List.range' 1 g.log.length).map (BitVec.ofNat 64)) :
    (g.append r).logcount = BitVec.ofNat 64 (g.append r).log.length ∧
      (g.append r).log.map Prod.fst = (List.range' 1 (g.append r).log.length).map
        (BitVec.ofNat 64) := by
  obtain ⟨hcount, hnums⟩ := h
  have hlast : g.logcount + 1 = BitVec.ofNat 64 (g.log.length + 1) := by
    rw [hcount, BitVec.ofNat_add]
    rfl
  have hlength : (g.append r).log.length = g.log.length + 1 := by simp [ServerGlobals.append]
  refine ⟨?_, ?_⟩
  · rw [hlength]
    exact hlast
  · rw [hlength, List.range'_1_concat, List.map_append, ← hnums, List.map_singleton,
      Nat.add_comm 1, ← hlast]
    simp [ServerGlobals.append]

theorem about_append (r : LogRecord) (id : BitVec 64) :
    (g.append r).about id = g.about id ++ (r.about id).toList := by
  simp only [ServerGlobals.about, ServerGlobals.append, List.filterMap_append]
  cases hr : r.about id <;> simp [hr]

theorem Server.LogInv.append (h : m.LogInv) (hp : m.datas[t]? = some l)
    (hset : m'.datas = m.datas.set t l')
    {r : LogRecord} (hg : m'.shared = m.shared.append r)
    (hundrawn : l.undrawn = false ∧ l'.undrawn = false)
    (htrunc : l.truncated = false)
    (htold : ∀ id, Told m.holding m.shared.connIdCounter id (m.shared.about id) →
      Told m'.holding m.shared.connIdCounter id (m.shared.about id ++ (r.about id).toList)) :
        m'.LogInv := by
  have hlength : m'.places.length = m.places.length := by
    have hlen := congrArg List.length hset
    simpa [Server.datas] using hlen
  have hopen : m'.Open → m.Open := open_of_set hp hset fun ht => by rw [htrunc] at ht; cases ht
  refine ⟨fun hlen => ?_, fun hlen ho id => ?_, fun ho => ?_⟩
  · have hcountP := countP_set_toNat ServerPc.undrawn hp l'
    rw [hundrawn.1, hundrawn.2] at hcountP
    rw [hg, hlength, hset, Nat.add_right_cancel hcountP]
    exact h.drawn (hlength ▸ hlen)
  · rw [hg, about_append]
    exact htold id (h.told (hlength ▸ hlen) (hopen ho) id)
  · rw [hg]
    exact numbered_append (h.numbered (hopen ho))

theorem Server.LogInv.draw (h : m.LogInv) {r : Option Int}
    (hp : m.datas[t]? = some (.client (.draw r)))
    (hset : m'.datas = m.datas.set t (.client (.drawn r (m.shared.connIdCounter + 1))))
    (hg : m'.shared = { m.shared with connIdCounter := m.shared.connIdCounter + 1 }) :
    m'.LogInv := by
  have hlength : m'.places.length = m.places.length := by
    have hlen := congrArg List.length hset
    simpa [Server.datas] using hlen
  have hopen : m'.Open → m.Open := open_of_set hp hset Bool.noConfusion
  have hnext : m.places.length < 2 ^ 64 →
      (m.shared.connIdCounter + 1).toNat = m.shared.connIdCounter.toNat + 1 := by
    intro hlen
    have hdrawn := h.drawn hlen
    have hone : (1 : BitVec 64).toNat = 1 := rfl
    rw [BitVec.toNat_add, hone, Nat.mod_eq_of_lt (by omega)]
  refine ⟨fun hlen => ?_, fun hlen ho id => ?_, fun ho => ?_⟩
  · have hlen' := hlength ▸ hlen
    have hcountP : (m.datas.set t (.client (.drawn r (m.shared.connIdCounter + 1)))).countP
      ServerPc.undrawn + 1 = m.datas.countP ServerPc.undrawn + 0 := countP_set_toNat _ hp _
    have hdrawn := h.drawn hlen'
    rw [hg, hlength, hset]
    show (m.shared.connIdCounter + 1).toNat + _ + 2 = _
    rw [hnext hlen']
    omega
  · have hlen' := hlength ▸ hlen
    have hnone : m.holding t = none := by
      rw [Server.holding, hp]
      rfl
    rw [hg]
    refine (h.told hlen' (hopen ho) id).draw hnone (hnext hlen') ?_ fun u hu => ?_
    · rw [holding_set hp hset, if_pos rfl]
      rfl
    · rw [holding_set hp hset, if_neg hu]
  · rw [hg]
    exact h.numbered (hopen ho)

end Step

section Run

variable {m m' : Server} {t u : Nat} {l l' : ServerPc} {p p' : Position ServerPc Unit}

theorem about_client (msg : LogMessage) (id : BitVec 64) :
    ((LogRecord.client msg).about id).toList = if msg.client = id then [msg] else [] := by
  show (if msg.client = id then some msg else none).toList = _
  split <;> rfl

theorem lastMessage_client (id : BitVec 64) (r : Option Int) : (lastMessage id r).client = id := by
  cases r <;> rfl

theorem Server.holding_of_place (hp : m.places[t]? = some p) : m.holding t = p.data.holding := by
  rw [Server.holding, Server.datas_of_place hp]
  rfl

theorem Server.LogInv.act (h : m.LogInv) (hp : m.places[t]? = some (.inside l)) :
    Server.LogInv (State.act m t (serverInside t l m.shared)) := by
  have hl : m.datas[t]? = some l := Server.datas_of_place hp
  have hset : Server.datas (State.act m t (serverInside t l m.shared)) =
      m.datas.set t ((serverInside t l m.shared).place l).data := act_datas hp _
  have hg := act_shared m t (serverInside t l m.shared)
  have hself := holding_set hl hset t
  rw [if_pos rfl] at hself
  have hother : ∀ u, u ≠ t → Server.holding (State.act m t (serverInside t l m.shared)) u =
      m.holding u := fun u hu => (holding_set hl hset u).trans (if_neg hu)
  rcases inside_log t l m.shared with ⟨hcounter, hlog, hcount, hholding, hundrawn, htrunc⟩ |
    ⟨r, rfl⟩ | ⟨r, id, rfl⟩ |
    ⟨r, id, rfl⟩ | rfl | rfl
  · exact h.quiet hl hset (by rw [hg, hcounter]) (by rw [hg, hlog])
      (by rw [hg, hcount]) hholding hundrawn htrunc
  · exact h.draw hl hset hg
  · refine h.append (r := .client (.started id)) hl hset hg ⟨rfl, rfl⟩ rfl fun id' htold => ?_
    rw [about_client]
    exact htold.start (Server.holding_of_place hp) hself hother
  · refine h.append (r := .client (lastMessage id r)) hl hset hg ⟨rfl, rfl⟩ rfl fun id' htold => ?_
    rw [about_client, lastMessage_client]
    exact htold.finish (Server.holding_of_place hp) r hself hother
  · refine h.append (r := .failedToAccept remoteServerDefaultPort) hl hset hg
      ⟨rfl, rfl⟩ rfl fun id' htold => ?_
    have hhold : Server.holding (State.act m t (serverInside t (.listener .log) m.shared)) =
        m.holding := by
      funext u
      by_cases hu : u = t
      · subst hu
        exact hself.trans (Server.holding_of_place hp).symm
      · exact hother u hu
    rw [hhold]
    show Told m.holding _ id' (_ ++ [])
    rwa [List.append_nil]
  · -- nothing is left to be said of a truncated log
    have hclosed : ¬Server.Open (State.act m t (serverInside t (.main .truncate) m.shared)) := by
      intro ho
      obtain ⟨hlt, -⟩ := List.getElem?_eq_some_iff.mp hl
      have hnew := ho t _ (by rw [hset, List.getElem?_set_self hlt])
      cases hnew
    refine ⟨fun hlen => ?_, fun _ ho => absurd ho hclosed, fun ho => absurd ho hclosed⟩
    have hlength := congrArg List.length hset
    have hcountP := countP_set_toNat ServerPc.undrawn hl
      ((serverInside t (.main .truncate) m.shared).place (.main .truncate)).data
    rw [hg, hset, Nat.add_right_cancel hcountP]
    have hlen' : (State.act m t (serverInside t (.main .truncate) m.shared)).places.length =
        m.places.length := by
      simpa [Server.datas] using hlength
    rw [hlen']
    exact h.drawn (hlen' ▸ hlen)

theorem outside_log {o : Out ServerPc} (ho : serverOutside t l = some o) : ∃ l', o.data = some l' ∧
    l'.holding = l.holding ∧ l'.undrawn = l.undrawn ∧ l'.truncated = l.truncated := by
  cases l with
  | main pc =>
    cases pc with
    | console lines =>
      cases lines with
      | nil => exact ⟨_, congrArg Out.data (Option.some.inj ho).symm, rfl, rfl, rfl⟩
      | cons line lines =>
        cases line with
        | quit => cases ho
        | _ => exact ⟨_, congrArg Out.data (Option.some.inj ho).symm, rfl, rfl, rfl⟩
    | closing | left => exact ⟨_, congrArg Out.data (Option.some.inj ho).symm, rfl, rfl, rfl⟩
    | _ => cases ho
  | listener pc => cases pc <;> cases ho
  | client pc =>
    cases pc with
    | started | serve | finish =>
      exact ⟨_, congrArg Out.data (Option.some.inj ho).symm, rfl, rfl, rfl⟩
    | _ => cases ho

/-- A thread moves whose number and log are the same there. -/
theorem Server.LogInv.moved (h : m.LogInv) (hp : m.places[t]? = some p)
    (hplaces : m'.places = m.places.set t p')
    (hcounter : m'.shared.connIdCounter = m.shared.connIdCounter)
    (hlog : m'.shared.log = m.shared.log)
    (hcount : m'.shared.logcount = m.shared.logcount) (hholding : p'.data.holding = p.data.holding)
    (hundrawn : p'.data.undrawn = p.data.undrawn) (htrunc : p'.data.truncated = p.data.truncated) :
    m'.LogInv := h.quiet (Server.datas_of_place hp)
      (by rw [Server.datas, hplaces, List.map_set]; rfl) hcounter hlog hcount hholding
    hundrawn htrunc

theorem Server.LogInv.steps (h : m.LogInv) (hs : Steps serverCode m m') : m'.LogInv := by
  cases hs with
  | @move t l l' hp ho | @lock t l l' hp ho =>
    obtain ⟨l'', hl'', hholding, hundrawn, htrunc⟩ := outside_log (t := t) ho
    obtain rfl := Option.some.inj hl''
    exact h.moved hp rfl rfl rfl rfl hholding hundrawn htrunc
  | @quit t l hp ho =>
    obtain ⟨l', hl', -⟩ := outside_log (t := t) ho
    cases hl'
  | enter hp hfree => exact h.moved hp rfl rfl rfl rfl rfl rfl rfl
  | wake hp => exact h.moved hp rfl rfl rfl rfl rfl rfl rfl
  | act hp => exact h.act hp

theorem Server.LogInv.create (h : m.LogInv) {r : Option Int}
    (hp : m.places[t]? = some (.out (.listener (.create r)))) :
    Server.LogInv
      ({ m with places := m.places ++ [Position.locking (ServerPc.client (.draw r))] }.put t
      (.out (.listener .accept))) := by
  obtain ⟨hlt, -⟩ := List.getElem?_eq_some_iff.mp hp
  let n : Server := { m with places := m.places ++ [.locking (.client (.draw r))] }
  have hn : n.places[t]? = some (.out (.listener (.create r))) := by
    rw [← hp]
    exact List.getElem?_append_left hlt
  have hdatas : n.datas = m.datas ++ [.client (.draw r)] := by simp [n, Server.datas, Position.data]
  have hold : ∀ {u : Nat} {l : ServerPc}, m.datas[u]? = some l → n.datas[u]? = some l := by
    intro u l hl
    obtain ⟨hu, -⟩ := List.getElem?_eq_some_iff.mp hl
    rw [hdatas, List.getElem?_append_left hu]
    exact hl
  have hopen : n.Open → m.Open := fun ho u l hl => ho u l (hold hl)
  have hhold : n.holding = m.holding := by
    funext u
    rw [Server.holding, Server.holding]
    cases hm : m.datas[u]? with
    | some l => rw [hold hm]
    | none =>
      cases hu : n.datas[u]? with
      | none => rfl
      | some l =>
        rw [hdatas] at hu
        rcases Counting.getElem?_concat_cases hu with ⟨-, rfl⟩ | ⟨-, hsame⟩
        · rfl
        · rw [hm] at hsame
          cases hsame
  have hlength : n.places.length = m.places.length + 1 := by simp [n]
  have hinv : n.LogInv := by
    refine ⟨fun hlen => ?_, fun hlen ho id => ?_, fun ho => h.numbered (hopen ho)⟩
    · have hdrawn := h.drawn (by omega)
      rw [hlength, hdatas, List.countP_append]
      show m.shared.connIdCounter.toNat + (_ + 1) + 2 = _
      omega
    · rw [hhold]
      exact h.told (by omega) (hopen ho) id
  exact hinv.moved hn rfl rfl rfl rfl rfl rfl rfl

theorem Server.LogInv.unlocked (h : m.LogInv) (hs : m.unlocked t = some m') : m'.LogInv := by
  unfold Server.unlocked at hs
  split at hs
  · rename_i lines hp
    obtain rfl := Option.some.inj hs
    exact h.moved hp rfl rfl rfl rfl rfl rfl rfl
  · rename_i hp
    split at hs
    · obtain rfl := Option.some.inj hs
      exact h.moved hp rfl rfl rfl rfl rfl rfl rfl
    · cases hs
  · rename_i hp
    split at hs <;> obtain rfl := Option.some.inj hs <;>
      exact h.moved hp rfl rfl rfl rfl rfl rfl rfl
  · rename_i r hp
    obtain rfl := Option.some.inj hs
    exact h.moved hp rfl rfl rfl rfl rfl rfl rfl
  · rename_i r v hp
    obtain rfl := Option.some.inj hs
    exact h.moved hp rfl rfl rfl rfl rfl rfl rfl
  · rename_i r hp
    obtain rfl := Option.some.inj hs
    exact h.moved hp rfl rfl rfl rfl rfl rfl rfl
  · rename_i r hp
    obtain rfl := Option.some.inj hs
    exact h.create hp
  · cases hs

theorem Server.LogInv.step {e : ServerEvent} (h : m.LogInv) (hs : m.step e = some m') :
    m'.LogInv := by
  unfold Server.step at hs
  split at hs
  · cases hs
  · cases e with
    | thread e => exact h.steps (steps_of_step hs)
    | unlocked t => exact h.unlocked hs
    | listen ok =>
      simp only at hs
      split at hs
      · rename_i hp
        obtain rfl := Option.some.inj hs
        exact h.moved hp rfl rfl rfl rfl rfl rfl rfl
      · cases hs
    | accept connection =>
      simp only at hs
      split at hs
      · rename_i hp
        obtain rfl := Option.some.inj hs
        exact h.moved hp rfl rfl rfl rfl rfl rfl rfl
      · cases hs

theorem Server.LogInv.start (lines : List ConsoleLine) : (Server.start lines).LogInv := by
  refine ⟨fun _ => by simp [Server.start, Server.datas, Position.data, ServerPc.undrawn],
    fun _ _ id => .unused (by simp [Server.start]; omega) (fun t s ht => ?_) rfl, fun _ =>
      ⟨rfl, rfl⟩⟩
  cases t with
  | zero => cases ht
  | succ t =>
    cases t with
    | zero => cases ht
    | succ t => cases ht

theorem Server.LogInv.run {lines : List ConsoleLine} {es : List ServerEvent}
    (h : exec Server.step (Server.start lines) es = some m) : m.LogInv :=
  (reach_of_exec h).invariant (.start lines) fun _ _ _ hu _ hs => hu.step hs

theorem holding_said {id : BitVec 64} {s : List LogMessage} (h : l.holding = some (id, s)) :
    s = [] ∨ s = [.started id] := by
  cases l with
  | main pc | listener pc => cases h
  | client pc =>
    cases pc with
    | drawn | started | logStart =>
      cases h
      exact .inl rfl
    | startLogged | serve | logEnd =>
      cases h
      exact .inr rfl
    | _ => cases h

/-- Threads at their end hold no number and have drawn one. -/
theorem Server.Served.holding (h : m.Served) (hm : m.Inv) (u : Nat) : m.holding u = none := by
  cases hp : m.places[u]? with
  | none => simp [Server.holding, Server.datas, hp]
  | some p =>
    rw [Server.holding_of_place hp]
    have hrole := (hm.fits u p hp).1
    cases hd : p.data with
    | main pc | listener pc => rfl
    | client pc =>
      rw [hd] at hrole
      rw [← hd, h u p hrole hp]
      rfl

theorem Server.Served.undrawn (h : m.Served) (hm : m.Inv) :
    m.datas.countP ServerPc.undrawn = 0 := by
  refine List.countP_eq_zero.mpr fun l hl => ?_
  obtain ⟨u, hu⟩ := List.mem_iff_getElem?.mp hl
  rw [Server.datas, List.getElem?_map] at hu
  obtain ⟨p, hp, rfl⟩ := Option.map_eq_some_iff.mp hu
  have hrole := (hm.fits u p hp).1
  cases hd : p.data with
  | main pc | listener pc => simp [ServerPc.undrawn]
  | client pc =>
    rw [hd] at hrole
    rw [← hd, h u p hrole hp]
    simp [Position.data, ServerPc.undrawn]

end Run

/-! ### A client thread alone -/

section Alone

variable {m : Server} {t : Nat} {l l' : ServerPc} {p : Position ServerPc Unit}
  {g g' : ServerGlobals}

/-- A thread can go on without being disturbed: the mutex is free or its own. -/
structure Server.Alone (m : Server) (t : Nat) (p : Position ServerPc Unit)
    (g : ServerGlobals) : Prop where
  running : m.over = false
  client : t ≠ 0
  place : m.places[t]? = some p
  shared : m.shared = g
  mutex : (∀ l, p ≠ .inside l) → m.mutex = none

theorem over_put (h : m.over = false) (ht : t ≠ 0) (p : Position ServerPc Unit) :
    Server.over (m.put t p) = false := by
  have hplace : (m.put t p).places[0]? = m.places[0]? := getElem?_set_other (Ne.symm ht) p
  rw [Server.over, hplace]
  exact h

theorem Server.Alone.lock (h : m.Alone t (.locking l) g) :
    ∃ m', m.step (.thread (.run t)) = some m' ∧ Server.Alone m' t (.inside l) g := by
  have hfree := h.mutex (by simp)
  refine ⟨({ m with mutex := some t } : Server).put t (.inside l), ?_,
    over_put h.running h.client _, h.client,
    getElem?_set_self h.place _, h.shared, fun hin => absurd rfl (hin l)⟩
  simp [Server.step, h.running, State.step, h.place, hfree]

theorem Server.Alone.out (h : m.Alone t (.out l) g)
    (ho : ∀ t, serverOutside t l = some (.lock l')) :
    ∃ m', m.step (.thread (.run t)) = some m' ∧ Server.Alone m' t (.locking l') g := by
  refine ⟨m.put t (.locking l'), ?_, over_put h.running h.client _, h.client,
    getElem?_set_self h.place _, h.shared,
    fun _ => h.mutex (by simp)⟩
  have hcode : serverCode.outside t l = some (.lock l') := ho t
  simp [Server.step, h.running, State.step, h.place, hcode]

theorem Server.Alone.goto (h : m.Alone t (.inside l) g)
    (hi : ∀ t, serverInside t l g = .goto l' g') :
    ∃ m', m.step (.thread (.run t)) = some m' ∧ Server.Alone m' t (.inside l') g' := by
  refine ⟨({ m with shared := g' } : Server).put t (.inside l'), ?_, over_put h.running h.client _,
    h.client, getElem?_set_self h.place _, rfl, fun hin => absurd rfl (hin l')⟩
  have hcode : serverCode.inside t l m.shared = .goto l' g' := h.shared ▸ hi t
  simp [Server.step, h.running, State.step, h.place, hcode, State.act]

theorem Server.Alone.unlock (h : m.Alone t (.inside l) g)
    (hi : ∀ t, serverInside t l g = .unlock l') :
    ∃ m', m.step (.thread (.run t)) = some m' ∧ Server.Alone m' t (.out l') g := by
  refine ⟨({ m with mutex := none } : Server).put t (.out l'), ?_, over_put h.running h.client _,
    h.client, getElem?_set_self h.place _, h.shared, fun _ => rfl⟩
  have hcode : serverCode.inside t l m.shared = .unlock l' := h.shared ▸ hi t
  simp [Server.step, h.running, State.step, h.place, hcode, State.act]

theorem Server.Alone.broadcast (h : m.Alone t (.inside l) g)
    (hi : ∀ t, serverInside t l g = .broadcast () l' g) :
    ∃ m', m.step (.thread (.run t)) = some m' ∧ Server.Alone m' t (.inside l') g := by
  have hcode : serverCode.inside t l m.shared = .broadcast () l' g := h.shared ▸ hi t
  have hin : (({ m with shared := g } : Server).broadcast ()).places[t]? = some (.inside l) :=
    broadcast_inside.mpr h.place
  have hover : Server.over (({ m with shared := g } : Server).broadcast ()) = false := by
    have hplace : (({ m with shared := g } : Server).broadcast ()).places[0]? =
        (m.places[0]?).map (Position.rouse ()) :=
      broadcast_places _ _ _
    have hrouse : ∀ pc : ServerPc, (m.places[0]?).map (Position.rouse ()) = some (.out pc) →
        m.places[0]? = some (.out pc) := by
      intro pc hpc
      obtain ⟨q, hq, hr⟩ := Option.map_eq_some_iff.mp hpc
      cases q with
      | waiting c l =>
        unfold Position.rouse at hr
        split at hr <;> cases hr
      | _ => exact hr ▸ hq
    have hrun := h.running
    simp only [Server.over, Bool.or_eq_false_iff, decide_eq_false_iff_not] at hrun ⊢
    rw [hplace]
    exact ⟨fun hr => hrun.1 (hrouse _ hr), fun hr => hrun.2 (hrouse _ hr)⟩
  refine ⟨(({ m with shared := g } : Server).broadcast ()).put t (.inside l'),
    ?_, over_put hover h.client _, h.client,
    getElem?_set_self hin _, rfl, fun hin => absurd rfl (hin l')⟩
  simp [Server.step, h.running, State.step, h.place, hcode, State.act]

/-- What a client thread does to the globals. -/
def ServerGlobals.serve (g : ServerGlobals) (r : Option Int) : ServerGlobals :=
  let id := g.connIdCounter + 1
  let logged := ({ g with connIdCounter := id }.append (.client (.started id))).append
    (.client (lastMessage id r))
  logged.store logged.activeConn (logged.activeConn - 1)

theorem run_succ {m₁ m₂ : Server} {e : ServerEvent} (h : m₁.step e = some m₂) (n : Nat) :
    exec Server.step m₁ (List.replicate (n + 1) e) = exec Server.step m₂ (List.replicate n e) := by
  rw [List.replicate_succ, exec, h]
  rfl

theorem Server.Alone.serve {r : Option Int} (h : m.Alone t (.locking (.client (.draw r))) g) :
    ∃ m', exec Server.step m (List.replicate 17 (.thread (.run t))) = some m' ∧
      Server.Alone m' t (.out (.client .returned)) (g.serve r) := by
  obtain ⟨m₁, h₁, a₁⟩ := h.lock
  obtain ⟨m₂, h₂, a₂⟩ := a₁.goto fun _ => rfl
  obtain ⟨m₃, h₃, a₃⟩ := a₂.unlock fun _ => rfl
  obtain ⟨m₄, h₄, a₄⟩ := a₃.out fun _ => rfl
  obtain ⟨m₅, h₅, a₅⟩ := a₄.lock
  obtain ⟨m₆, h₆, a₆⟩ := a₅.goto fun _ => rfl
  obtain ⟨m₇, h₇, a₇⟩ := a₆.unlock fun _ => rfl
  obtain ⟨m₈, h₈, a₈⟩ := a₇.out fun _ => rfl
  obtain ⟨m₉, h₉, a₉⟩ := a₈.lock
  obtain ⟨m₁₀, h₁₀, a₁₀⟩ := a₉.goto fun _ => rfl
  obtain ⟨m₁₁, h₁₁, a₁₁⟩ := a₁₀.unlock fun _ => rfl
  obtain ⟨m₁₂, h₁₂, a₁₂⟩ := a₁₁.out fun _ => rfl
  obtain ⟨m₁₃, h₁₃, a₁₃⟩ := a₁₂.lock
  obtain ⟨m₁₄, h₁₄, a₁₄⟩ := a₁₃.goto fun _ => rfl
  obtain ⟨m₁₅, h₁₅, a₁₅⟩ := a₁₄.goto fun _ => rfl
  obtain ⟨m₁₆, h₁₆, a₁₆⟩ := a₁₅.broadcast fun _ => rfl
  obtain ⟨m₁₇, h₁₇, a₁₇⟩ := a₁₆.unlock fun _ => rfl
  refine ⟨m₁₇, ?_, a₁₇⟩
  rw [run_succ h₁ 16, run_succ h₂ 15, run_succ h₃ 14, run_succ h₄ 13, run_succ h₅ 12,
    run_succ h₆ 11, run_succ h₇ 10, run_succ h₈ 9, run_succ h₉ 8, run_succ h₁₀ 7,
    run_succ h₁₁ 6, run_succ h₁₂ 5, run_succ h₁₃ 4,
    run_succ h₁₄ 3, run_succ h₁₅ 2, run_succ h₁₆ 1, run_succ h₁₇ 0]
  rfl

def LogRecord.message : LogRecord → Option LogMessage
  | .client msg => some msg
  | .failedToAccept _ => none

def ServerGlobals.clientLog (g : ServerGlobals) : List LogMessage :=
  g.log.filterMap fun entry => entry.2.message

/-- What `rsrv_client` leaves in the globals, from whatever it receives. -/
theorem rsrvClient_globals {frame : Nat → UInt8} {sock status : Int} {s : Incoming}
    {c c' : RemoteGlobals} (h : rsrvClient frame sock status s c = some (.returned c')) :
    ∃ r, c'.activeConn = c.activeConn - 1 ∧ c'.connIdCounter = c.connIdCounter + 1 ∧
      c'.log = c.log ++ [.started (c.connIdCounter + 1), lastMessage (c.connIdCounter + 1) r] := by
  have habort : ∀ {o : Outcome}, (.returned c' : Outcome) = o →
      o = .returned
        (({ c with connIdCounter := c.connIdCounter + 1 }.logMessage
          (.started (c.connIdCounter + 1))).logMessage
        (.aborting (c.connIdCounter + 1))).finish → ∃ r, c'.activeConn = c.activeConn - 1 ∧
      c'.connIdCounter = c.connIdCounter + 1 ∧
      c'.log = c.log ++ [.started (c.connIdCounter + 1), lastMessage (c.connIdCounter + 1) r] := by
    rintro o rfl heq
    obtain rfl := Outcome.returned.inj heq
    exact ⟨none, rfl, rfl, by simp [RemoteGlobals.logMessage, RemoteGlobals.finish, lastMessage]⟩
  unfold rsrvClient at h
  obtain ⟨r, -, h⟩ := Option.bind_eq_some_iff.mp h
  split at h
  · exact habort (Option.some.inj h).symm rfl
  · simp only at h
    split at h
    · cases h
    · obtain ⟨r, -, h⟩ := Option.bind_eq_some_iff.mp h
      split at h
      · exact habort (Option.some.inj h).symm rfl
      · obtain ⟨argc, -, h⟩ := Option.bind_eq_some_iff.mp h
        obtain ⟨u, -, h⟩ := Option.bind_eq_some_iff.mp h
        obtain ⟨strings, -, h⟩ := Option.map_eq_some_iff.mp h
        obtain rfl := Outcome.returned.inj h
        exact ⟨some status, rfl, rfl,
          by simp [RemoteGlobals.logMessage, RemoteGlobals.finish, lastMessage]⟩

/-- A client thread of the machine that is not disturbed does what `rsrv_client` does. -/
theorem client_alone {frame : Nat → UInt8} {sock status : Int} {s : Incoming} {c c' : RemoteGlobals}
    (h : rsrvClient frame sock status s c = some (.returned c'))
    (hconn : g.activeConn = c.activeConn)
    (hid : g.connIdCounter = c.connIdCounter) (hlog : g.clientLog = c.log) :
    ∃ r, ∀ {m : Server} {t : Nat}, m.Alone t (.locking (.client (.draw r))) g →
      ∃ m', exec Server.step m (List.replicate 17 (.thread (.run t))) = some m' ∧
        m'.places[t]? = some (.out (.client .returned)) ∧ m'.shared.activeConn = c'.activeConn ∧
        m'.shared.connIdCounter = c'.connIdCounter ∧ m'.shared.clientLog = c'.log := by
  obtain ⟨r, hconn', hid', hlog'⟩ := rsrvClient_globals h
  refine ⟨r, fun halone => ?_⟩
  obtain ⟨m', hexec, hend⟩ := halone.serve
  refine ⟨m', hexec, hend.place, ?_, ?_, ?_⟩
  · rw [hend.shared, hconn', ← hconn]
    rfl
  · rw [hend.shared, hid', ← hid]
    rfl
  · rw [hend.shared, hlog', ← hlog, ← hid]
    simp [ServerGlobals.serve, ServerGlobals.store, ServerGlobals.append,
      ServerGlobals.clientLog, LogRecord.message]

end Alone

/-! ### The log -/

/-- As long as the log is there, its records have the numbers from 1 on, no two threads have the
same client number, of each client the log has nothing, its start, or its start and its end; and
once all client threads have returned it has both for exactly the numbers up to that of the
threads. -/
theorem server_log_told {lines : List ConsoleLine} {es : List ServerEvent} {m : Server}
    (h : exec Server.step (Server.start lines) es = some m) (hlen : m.places.length < 2 ^ 64)
    (hopen : m.Open) :
    m.shared.log.map Prod.fst = (List.range' 1 m.shared.log.length).map (BitVec.ofNat 64) ∧
      (∀ t u id s s', m.holding t = some (id, s) → m.holding u = some (id, s') → t = u) ∧
      (∀ id, m.shared.about id = [] ∨ m.shared.about id = [.started id] ∨
        ∃ r, m.shared.about id = [.started id, lastMessage id r]) ∧
      (m.Served → ∀ id : BitVec 64, (∃ r, m.shared.about id = [.started id, lastMessage id r]) ↔
        0 < id.toNat ∧ id.toNat + 2 ≤ m.places.length) := by
  have hm := Server.LogInv.run h
  refine ⟨(hm.numbered hopen).2, fun t u id s s' ht hu => ?_, fun id => ?_, fun hserved id => ?_⟩
  · cases hm.told hlen hopen id with
    | unused hid hnobody => exact absurd ht (hnobody t s)
    | held w hpos hle hw huniq => exact (huniq t s ht).trans (huniq u s' hu).symm
    | done r hpos hle hnobody => exact absurd ht (hnobody t s)
  · cases hm.told hlen hopen id with
    | unused hid hnobody hsaid => exact .inl hsaid
    | held w hpos hle hw =>
      obtain ⟨l, -, hl⟩ := Option.bind_eq_some_iff.mp hw
      rcases holding_said hl with hnil | hone
      · exact .inl hnil
      · exact .inr (.inl hone)
    | done r hpos hle hnobody hsaid => exact .inr (.inr ⟨r, hsaid⟩)
  · have hinv := Server.Inv.run h
    have hdrawn := hm.drawn hlen
    rw [hserved.undrawn hinv] at hdrawn
    cases hm.told hlen hopen id with
    | unused hid hnobody hsaid =>
      refine iff_of_false ?_ (by omega)
      rintro ⟨r, hr⟩
      rw [hsaid] at hr
      cases hr
    | held w hpos hle hw =>
      rw [hserved.holding hinv w] at hw
      cases hw
    | done r hpos hle hnobody hsaid => exact iff_of_true ⟨r, hsaid⟩ (by omega)

/-- The second client draws its number first, and the first one logs between its two records. -/
theorem server_log_told_two : ∃ m : Server, m.shared.log.map Prod.fst = [1, 2, 3] ∧
    m.shared.about 1 = [.started 1, .finished 1 0] ∧ m.shared.about 2 = [.started 2] := by
  obtain ⟨m, hm, hp⟩ : ∃ m, exec Server.step (Server.start [])
      ([.listen true, .accept (some none)] ++ List.replicate 4
        (.unlocked 1) ++ [.accept (some (some 0))] ++
        List.replicate 4 (.unlocked 1) ++ List.replicate 7 (.thread (.run 3)) ++ List.replicate 6
          (.thread (.run 2)) ++
          [.thread (.run 2), .thread (.run 3), .thread (.run 3), .thread (.run 3)]) = some m ∧
      (m.shared.log.length = 3 && m.places.length < 2 ^ 64 && m.datas.all (fun l => !l.truncated) &&
        m.shared.about 1 = [.started 1, .finished 1 0] && m.shared.about 2 = [.started 2]) = true :=
    (Option.any_eq_true _ _).mp (by decide +kernel)
  simp only [Bool.and_eq_true, decide_eq_true_eq] at hp
  obtain ⟨⟨⟨⟨hthree, hlen⟩, hall⟩, hfirst⟩, hsecond⟩ := hp
  have hopen : m.Open := fun t l hl => by
    simpa using List.all_eq_true.mp hall l (List.mem_of_getElem? hl)
  obtain ⟨hnumbers, -⟩ := server_log_told hm hlen hopen
  rw [hthree] at hnumbers
  exact ⟨m, hnumbers, hfirst, hsecond⟩

end TinyOS
