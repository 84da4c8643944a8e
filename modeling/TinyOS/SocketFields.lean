import TinyOS.IoEffects

/-! The parts of the control blocks of sockets, and the open files that lead to them. -/

namespace TinyOS

open Counting Transition Relation

/-- What `socket_close` and the port table depend on. -/
structure SocketCore where
  type : SocketType
  fcb : Option FcbId
  port : Int
deriving DecidableEq

def SocketCb.core (c : SocketCb) : SocketCore := ⟨c.type, c.fcb, c.port⟩

def IoKernel.field {α : Type} (k : IoKernel) (φ : SocketCb → α) (s : SockId) : Option α :=
  (k.sockets[s]?).map φ

def IoKernel.core (k : IoKernel) (s : SockId) : Option SocketCore := k.field SocketCb.core s

/-- The open file `f` is socket `s`. -/
structure IoKernel.Leads (k : IoKernel) (f : FcbId) (s : SockId) : Prop where
  valid : f < maxFiles
  used : f ∉ k.files.fcbFreelist
  stream : k.files.stream f = (.socket s, some .socketFileOps)

/-- No FCB, open or not, leads to a peer socket, and only listeners are bound to ports. -/
structure SocketRoles (k : IoKernel) : Prop where
  ops : ∀ f s, (k.files.stream f).1 = .socket s → (k.files.stream f).2 = some .socketFileOps
  role : ∀ f s, (k.files.stream f).1 = .socket s → ∃ c, k.core s = some c ∧ c.type ≠ .peer
  bound : ∀ port s, k.portMap port = some s →
    ∃ c, k.core s = some c ∧ c.type = .listener ∧ c.port = port ∧ 0 < port ∧ port ≤ maxPort

section Field

variable {α : Type} {φ : SocketCb → α} {k k' : IoKernel} {s : SockId} {g : SocketCb → SocketCb}
  {c : SocketCb}

theorem field_of_get (φ : SocketCb → α) (hc : k.sockets[s]? = some c) :
    k.field φ s = some (φ c) := by
  simp [IoKernel.field, hc]

theorem field_congr (hs : k'.sockets = k.sockets) : k'.field φ = k.field φ := by
  funext s
  simp only [IoKernel.field, hs]

theorem field_setSocket (hc : k.sockets[s]? = some c) (s' : SockId) :
    (k.setSocket s g).field φ s' = if s' = s then some (φ (g c)) else k.field φ s' := by
  by_cases h : s' = s
  · subst h
    simp [IoKernel.field, IoKernel.setSocket, hc]
  · have hne : s ≠ s' := Ne.symm h
    simp [IoKernel.field, IoKernel.setSocket, h, hne]

theorem field_setSocket_of (hs : k'.sockets = (k.setSocket s g).sockets)
    (hc : k.sockets[s]? = some c)
    (s' : SockId) : k'.field φ s' = if s' = s then some (φ (g c)) else k.field φ s' := by
  rw [← field_setSocket hc, field_congr (k := k.setSocket s g) hs]

/-- A change that leaves this part of every control block alone. -/
theorem field_setSocket_same (hg : ∀ c, φ (g c) = φ c) : (k.setSocket s g).field φ = k.field φ := by
  funext s'
  by_cases h : s' = s
  · subst h
    cases hc : k.sockets[s']? <;> simp [IoKernel.field, IoKernel.setSocket, hc, hg]
  · have hne : s ≠ s' := Ne.symm h
    simp [IoKernel.field, IoKernel.setSocket, hne]

theorem field_append {j : IoKernel} (hs : j.sockets = k.sockets ++ [c]) (s' : SockId) :
    j.field φ s' = if s' = k.sockets.length then some (φ c) else k.field φ s' := by
  by_cases h : s' = k.sockets.length
  · subst h
    simp [IoKernel.field, hs]
  · by_cases hlt : s' < k.sockets.length
    · simp [IoKernel.field, hs, h, List.getElem?_append_left hlt]
    · have hn : k.sockets[s']? = none := List.getElem?_eq_none (Nat.le_of_not_lt hlt)
      have hlt' : k.sockets.length < s' := Nat.lt_of_le_of_ne (Nat.le_of_not_lt hlt) (Ne.symm h)
      have hn' : (k.sockets ++ [c])[s']? = none :=
        List.getElem?_eq_none (by simpa using Nat.succ_le_of_lt hlt')
      simp [IoKernel.field, hs, h, hn, hn']

theorem field_lt {x : α} (hx : k.field φ s = some x) : s < k.sockets.length := by
  obtain ⟨c, hc, -⟩ := Option.map_eq_some_iff.mp hx
  exact (List.getElem?_eq_some_iff.mp hc).1

theorem field_none (hs : k.sockets.length ≤ s) : k.field φ s = none := by
  simp [IoKernel.field, List.getElem?_eq_none hs]

theorem core_of_get (hc : k.sockets[s]? = some c) : k.core s = some c.core := field_of_get _ hc

theorem core_lt {c : SocketCore} (hc : k.core s = some c) : s < k.sockets.length := field_lt hc

theorem core_congr (hs : k'.sockets = k.sockets) : k'.core = k.core := field_congr hs

theorem core_setSocket_of (hs : k'.sockets = (k.setSocket s g).sockets)
    (hc : k.sockets[s]? = some c)
    (s' : SockId) : k'.core s' = if s' = s then some (g c).core else k.core s' :=
  field_setSocket_of hs hc s'

/-- Counting references, waking and queueing leave the cores of sockets alone. -/
theorem core_setSocket_same (hg : ∀ c, (g c).core = c.core) : (k.setSocket s g).core = k.core :=
  field_setSocket_same hg

end Field

section Leads

variable {k k' : IoKernel} {p : Pid} {f g : FcbId} {s : SockId} {rest : List FcbId} {i : Nat}

theorem IoKernel.Leads.keep (h : k.Leads f s)
    (hfree : f ∈ k'.files.fcbFreelist → f ∈ k.files.fcbFreelist)
    (hstream : k'.files.stream f = k.files.stream f) : k'.Leads f s :=
  ⟨h.valid, fun hf => h.used (hfree hf), hstream ▸ h.stream⟩

theorem grabbed_ne (hf : k.Free p i f rest) (hl : k.Leads g s) : g ≠ f := by
  intro hgf
  apply hl.used
  rw [hf.free, hgf]
  exact List.mem_cons_self

theorem mem_of_rest (hf : k.Free p i f rest) (hg : g ∈ rest) : g ∈ k.files.fcbFreelist := by
  rw [hf.free]
  exact List.mem_cons_of_mem f hg

theorem not_mem_of_rest (hf : k.Free p i f rest) (hg : g ∉ rest) (hgf : g ≠ f) :
    g ∉ k.files.fcbFreelist := by
  rw [hf.free]
  simp [hg, hgf]

theorem stream_connectPeers (peer acc : SockId) (a : FcbId) (garbage : Nat → UInt8) {g : FcbId}
    (hgf : g ≠ f) (hga : g ≠ a) :
    (k.connectPeers peer acc f a garbage).files.stream g = k.files.stream g := by
  have hstream : (k.connectPeers peer acc f a garbage).files.stream g =
      ((k.addPipe f a garbage).addPipe a f garbage).files.stream g := rfl
  rw [hstream, stream_addPipe, stream_addPipe, if_neg hga, if_neg hgf, if_neg hgf, if_neg hga]

theorem stream_connectPeers_new (peer acc : SockId) (a : FcbId) (garbage : Nat → UInt8) {g : FcbId}
    (hg : g = f ∨ g = a) (s : SockId) :
    ((k.connectPeers peer acc f a garbage).files.stream g).1 ≠ .socket s := by
  have hstream : (k.connectPeers peer acc f a garbage).files.stream g =
      ((k.addPipe f a garbage).addPipe a f garbage).files.stream g := rfl
  rw [hstream, stream_addPipe]
  by_cases hga : g = a
  · simp [hga]
  · rcases hg with rfl | hg
    · simp [hga]
    · exact absurd hg hga

/-- A new connection changes the unions of its two sockets only. -/
theorem field_connectPeers {α : Type} {φ : SocketCb → α} (hφ : ∀ c u, φ { c with union := u } = φ c)
    (peer acc : SockId) (a : FcbId) (garbage : Nat → UInt8) :
    (k.connectPeers peer acc f a garbage).field φ = k.field φ := by
  have hset : ∀ (k : IoKernel) s w r, (k.setUnion s w r).field φ = k.field φ :=
    fun k s w r => field_setSocket_same fun c => hφ c _
  exact (hset _ acc _ _).trans (hset _ peer _ _)

theorem core_connectPeers (peer acc : SockId) (a : FcbId) (garbage : Nat → UInt8) :
    (k.connectPeers peer acc f a garbage).core = k.core :=
  field_connectPeers (fun _ _ => rfl) peer acc a garbage

end Leads

end TinyOS
