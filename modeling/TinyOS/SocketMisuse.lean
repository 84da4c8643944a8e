import TinyOS.IoMachine

/-! The socket calls on a stream that is not a socket. `streamobj` carries no type, and
only some paths end before it is taken for a `Socket_cb`. -/

namespace TinyOS

open Transition

inductive SocketCall
  | listen
  | accept (garbage : Nat → UInt8)
  | connect (port : Int)
  | shutDown (how : ShutdownMode)

def SocketCall.run (k : IoKernel) (t : ThreadId) (p : Pid) (sock : Int) : SocketCall → IoResult
  | .listen => sysListen k p sock
  | .accept garbage => sysAccept k t p sock garbage
  | .connect port => sysConnect k t p sock port
  | .shutDown how => (sysShutDown k p sock how).bind fun (k, v) => k.ret v

/-- The calls that return before they look at the stream's object. -/
def SocketCall.Early (k : IoKernel) (obj : StreamObj) : SocketCall → Prop
  | .accept _ => obj = .NULL
  | .connect port => port > maxPort ∨ port < noPort ∨ k.portMap port = none
  | _ => False

theorem IoKernel.socketOf_none {k : IoKernel} {obj : StreamObj} (h : ∀ s, obj ≠ .socket s) :
    k.socketOf obj = none := by
  cases obj with
  | socket s => exact absurd rfl (h s)
  | _ => rfl

theorem IoKernel.ret_ne_none (k : IoKernel) (v : Int) : k.ret v ≠ none := by simp [IoKernel.ret]

/-- On a stream that is not a socket, a call returns its error value, and changes nothing,
if and only if it is `Accept` on a `NULL` object or `Connect` to a port without a
listener; otherwise the object is taken for a socket. -/
theorem socketCall_rejects (k : IoKernel) (t : ThreadId) (p : Pid) (sock : Int) (call : SocketCall)
    {f : FcbId} (hf : getFcb k p sock = some f) (hobj : ∀ s, (k.files.ft f).streamobj ≠ .socket s) :
    call.run k t p sock = k.ret (-1) ↔ call.Early k (k.files.ft f).streamobj := by
  have hno := IoKernel.socketOf_none (k := k) hobj
  have hfault := (k.ret_ne_none (-1)).symm
  cases call with
  | listen =>
    simp only [SocketCall.run, sysListen, hf, hno, SocketCall.Early, iff_false]
    exact hfault
  | accept garbage =>
    simp only [SocketCall.run, sysAccept, hf, hno, SocketCall.Early]
    by_cases hnull : (k.files.ft f).streamobj = .NULL
    · simp [hnull, noFile]
    · simp only [hnull, if_false, iff_false]
      exact hfault
  | connect port =>
    simp only [SocketCall.run, sysConnect, hf, hno, SocketCall.Early]
    by_cases hport : port > maxPort ∨ port < noPort
    · simp only [hport, if_true, true_iff]
      exact hport.elim .inl fun h => .inr (.inl h)
    · have hport' := not_or.mp hport
      simp only [if_false, hport'.1, hport'.2, false_or]
      cases hmap : k.portMap port with
      | none => simp
      | some l =>
        simp only [reduceCtorEq, iff_false]
        exact hfault
  | shutDown how =>
    simp only [SocketCall.run, sysShutDown, hf, hno, SocketCall.Early, Option.bind_none, iff_false]
    exact hfault

/-- `Listen` on the null device follows a `NULL` pointer. -/
theorem listen_on_null_device : ∃ k f, Reach IoKernel.step Always (bootIo 0) k ∧
    getFcb k 1 0 = some f ∧ (k.files.ft f).streamobj = .NULL ∧
    SocketCall.listen.run k 0 1 0 ≠ k.ret (-1) := by
  obtain ⟨k, hk, hp⟩ := exists_reach_of_exec IoKernel.step (bootIo 0) [.openNull 0]
    (fun k => getFcb k 1 0 = some 0 ∧ (k.files.ft 0).streamobj = .NULL) (by decide +kernel)
  obtain ⟨hf, hnull⟩ := of_decide_eq_true hp
  refine ⟨k, 0, hk, hf, hnull, ?_⟩
  simp [SocketCall.run, sysListen, hf, hnull, IoKernel.socketOf, IoKernel.ret]

theorem socketCall_rejects_run : ∃ k : IoKernel, ∀ garbage,
    (SocketCall.accept garbage).run k 0 1 0 = k.ret (-1) := by
  obtain ⟨k, -, hp⟩ := exists_reach_of_exec IoKernel.step (bootIo 0) [.openNull 0]
    (fun k => getFcb k 1 0 = some 0 ∧ (k.files.ft 0).streamobj = .NULL) (by decide +kernel)
  obtain ⟨hf, hnull⟩ := of_decide_eq_true hp
  exact ⟨k, fun garbage => (socketCall_rejects k 0 1 0 (.accept garbage) hf
    (fun s => by simp [hnull])).mpr hnull⟩

end TinyOS
