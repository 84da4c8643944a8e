import TinyOS.RemoteServer

/-! The remote client of the shell, and one request from its arguments to the program that the
server executes. -/

namespace TinyOS

open Delimited LittleEndian

/-- The bytes that have gone out on a connection, and how many of them each `Write` takes at most;
it fails where that is less than one. -/
structure Outgoing where
  sent : List UInt8
  pieces : Nat → Int
  writes : Nat

def Outgoing.write (o : Outgoing) (data : List UInt8) : Int × Outgoing :=
  let n := o.pieces o.writes
  let o := { o with writes := o.writes + 1 }
  if n < 1 then (n, o)
  else (min n data.length, { o with sent := o.sent ++ data.take (min n data.length).toNat })

/-- The loop of `send_message`: how many bytes have been written. -/
def sendFrom (buf : List UInt8) : Nat → Outgoing → Nat → Option (Nat × Outgoing)
  | 0, _, _ => none
  | fuel + 1, o, count =>
    if count < buf.length then
      let r := o.write (buf.drop count)
      if r.1 < 1 then some (count, r.2) else sendFrom buf fuel r.2 (count + r.1.toNat)
    else some (count, o)

/-- False when the client exits. -/
def sendMessage (o : Outgoing) (buf : List UInt8) : Option (Bool × Outgoing) :=
  (sendFrom buf (buf.length + 1) o 0).map fun r => (r.1 = buf.length, r.2)

inductive ClientEnd
  | failed
  | exited (o : Outgoing)
  | shutDown (o : Outgoing)

/-- Up to `ShutDown`; the rest copies the server's bytes to the terminal. -/
def remoteClient (frame : Nat → UInt8) (connected : Bool) (o : Outgoing)
    (argv : List CString) : Option ClientEnd :=
  if argv.length ≤ 1 then some .failed
  else if connected = false then some .failed
  else
    let argl := toSigned 32 (argvlen argv.tail)
    (argvpack ((List.range argl.toNat).map frame) argv.tail).bind fun args =>
      (sendMessage o (store 4 (toUnsigned 32 argl))).bind fun r =>
        if r.1 = false then some (.exited r.2)
        else
          (sendMessage r.2 args.1).map fun r => if r.1 = false then .exited r.2 else .shutDown r.2

section

variable {o : Outgoing} {buf : List UInt8} {count fuel : Nat}

theorem Outgoing.write_reliable (ho : ∀ i, 1 ≤ o.pieces i) {data : List UInt8} (hdata : data ≠ []) :
    ∃ (n : Nat) (o' : Outgoing), o.write data = ((n : Int), o') ∧ 0 < n ∧ n ≤ data.length ∧
      o'.sent = o.sent ++ data.take n ∧ o'.pieces = o.pieces := by
  have hpos := List.length_pos_iff.mpr hdata
  have hone := ho o.writes
  have hcast : ((min (o.pieces o.writes) data.length).toNat : Int) =
      min (o.pieces o.writes) data.length :=
    Int.toNat_of_nonneg (by omega)
  simp only [Outgoing.write]
  rw [if_neg (by omega)]
  refine ⟨(min (o.pieces o.writes) data.length).toNat, { o with
    writes := o.writes + 1
    sent := o.sent ++ data.take (min (o.pieces o.writes) data.length).toNat },
      ?_, by omega, by omega, rfl, rfl⟩
  rw [hcast]

theorem sendFrom_eq (ho : ∀ i, 1 ≤ o.pieces i) (hcount : count ≤ buf.length)
    (hfuel : buf.length - count < fuel) :
    ∃ o' : Outgoing, sendFrom buf fuel o count = some (buf.length, o') ∧
    o'.sent = o.sent ++ buf.drop count ∧
      o'.pieces = o.pieces := by
  induction fuel generalizing o count with
  | zero => omega
  | succ fuel ih =>
    rw [sendFrom]
    by_cases hlt : count < buf.length
    · have hdata : buf.drop count ≠ [] := by
        rw [← List.length_pos_iff, List.length_drop]
        omega
      obtain ⟨n, o₁, hwrite, hpos, hle, hsent, hpieces⟩ := Outgoing.write_reliable ho hdata
      rw [List.length_drop] at hle
      obtain ⟨o', hrun, hsent', hpieces'⟩ := ih (o := o₁) (fun i => hpieces ▸ ho i)
        (show count + n ≤ buf.length by omega)
        (by omega)
      refine ⟨o', ?_, ?_, hpieces'.trans hpieces⟩
      · simp only [hwrite, Int.toNat_natCast]
        rw [if_pos hlt, if_neg (by omega), hrun]
      · rw [hsent', hsent, List.append_assoc, ← List.drop_drop, List.take_append_drop]
    · have heq : count = buf.length := by omega
      exact ⟨o, by rw [if_neg hlt, heq], by rw [heq, List.drop_length, List.append_nil], rfl⟩

theorem sendMessage_eq (ho : ∀ i, 1 ≤ o.pieces i) (buf : List UInt8) :
    ∃ o' : Outgoing, sendMessage o buf = some (true, o') ∧ o'.sent = o.sent ++ buf ∧
    o'.pieces = o.pieces := by
  obtain ⟨o', hrun, hsent, hpieces⟩ := sendFrom_eq ho (Nat.zero_le buf.length)
    (show buf.length - 0 < buf.length + 1 by omega)
  exact ⟨o', by simp [sendMessage, hrun], hsent, hpieces⟩

theorem remoteClient_sends (frame : Nat → UInt8) (ho : ∀ i, 1 ≤ o.pieces i)
    (name : CString) {args : List CString}
    (hargs : args ≠ []) (hlt : (packed args).length < 2 ^ 31) :
    ∃ o' : Outgoing, remoteClient frame true o (name :: args) = some (.shutDown o') ∧
      o'.sent = o.sent ++ (store 4 (packed args).length ++ packed args) := by
  have hlen : argvlen args = (packed args).length := argvlen_eq (by omega)
  have hargl : toSigned 32 ((packed args).length : Int) = (packed args).length :=
    toSigned_of_range (by omega) (by omega)
  have hsize : ((List.range (packed args).length).map frame).length =
      (packed args).length := by simp
  have hpack := argvpack_eq (Nat.le_of_eq hsize.symm) hlt
  rw [List.drop_of_length_le (Nat.le_of_eq hsize), List.append_nil] at hpack
  obtain ⟨o₁, hword, hsent, hpieces⟩ := sendMessage_eq ho (store 4 (packed args).length)
  obtain ⟨o₂, hbody, hsent', -⟩ := sendMessage_eq (o := o₁) (fun i => hpieces ▸ ho i) (packed args)
  have hargc : ¬ (name :: args).length ≤ 1 := by
    have := List.length_pos_iff.mpr hargs
    rw [List.length_cons]
    omega
  refine ⟨o₂, ?_, by rw [hsent', hsent, List.append_assoc]⟩
  rw [remoteClient, if_neg hargc, if_neg (by simp)]
  simp only [List.tail_cons, hlen, hargl, Int.toNat_natCast, hpack, Option.bind_some,
    toUnsigned_natCast (w := 32) (show (packed args).length < 2 ^ 32 by omega),
      hword, hbody, Option.map_some]
  simp

theorem completeRequest_sent {args : List CString} (hargs : args ≠ [])
    (hlen : (packed args).length ≤ 2048) :
    CompleteRequest (store 4 (packed args).length ++ packed args) ∧
      requestLength (store 4 (packed args).length ++ packed args) = (packed args).length := by
  have hpos := List.length_pos_iff.mpr hargs
  have hsize := packed_length args
  have hword : (store 4 (packed args).length ++ packed args).take 4 =
      store 4 (packed args).length :=
    List.take_left' (store_length 4 _)
  have hreq : requestLength (store 4 (packed args).length ++ packed args) =
      (packed args).length := by
    rw [requestLength, hword, load_store (by omega), toSigned_of_range (by omega) (by omega)]
  have hall : (store 4 (packed args).length ++ packed args).length = 4 + (packed args).length := by
    rw [List.length_append, store_length]
  refine ⟨⟨by omega, by omega, by omega, ?_⟩, hreq⟩
  rw [hreq, hall, Int.toNat_natCast]

theorem sprintfInt_length {n : Int} (hlo : -2 ^ 31 ≤ n) (hhi : n < 2 ^ 31) :
    (sprintfInt n).chars.length ≤ 11 := by
  have hdigits : (decimalDigits n.natAbs).length ≤ 10 := by
    unfold decimalDigits
    split
    · simp
    · rw [List.length_map, List.length_reverse, Nat.digits_length_le_iff (by decide)]
      omega
  unfold sprintfInt
  dsimp only
  split
  · rw [List.length_cons]
    omega
  · omega

/-- The size of the vector that the server hands to `Execute`. -/
theorem requestVector_length {sock : Int} (hlo : -2 ^ 31 ≤ sock) (hhi : sock < 2 ^ 31)
    (args : List CString) :
    (packed (rsrvProcessName :: sprintfInt sock :: args)).length ≤ (packed args).length + 25 ∧
      (rsrvProcessName :: sprintfInt sock :: args).length ≤ (packed args).length + 2 := by
  have hsock := sprintfInt_length hlo hhi
  have hname : rsrvProcessName.chars.length = 12 := rfl
  have hargs := packed_length args
  rw [packed_cons_length, packed_cons_length, hname, List.length_cons, List.length_cons]
  omega

/-- The request that the client sent, however the stream is split: the server hands its program the
name, the fid and the arguments of the client, and `Execute` passes them on. The arrays on the stack
of `rsrv_client` take less than 20 KiB, and it is enough that a quarter of a stack is left. -/
structure RequestServed (o' : Outgoing) (sock status : Int) (args : List CString) : Prop where
  served : ∀ s : Incoming, s.pending = o'.sent → ∀ (frame : Nat → UInt8) (g : RemoteGlobals),
    rsrvClient frame sock status s g = some (.returned (g.served sock status args))
  vector : ∀ g : RemoteGlobals, (g.served sock status args).executed =
    g.executed ++ [rsrvProcessName :: sprintfInt sock :: args]
  executed : ∀ (wrapper : Task) (room room' : StackRoom) (frame : Nat → UInt8) (k : Kernel)
    (cur : Pid) (prog : Program) (a : Tid), threadStackSize ≤ 4 * room →
    threadStackSize ≤ 4 * room' → ∃ (k' : Kernel) (pid : Int),
      execute wrapper room frame k cur prog (rsrvProcessName :: sprintfInt sock :: args) a =
        some (k', pid) ∧
      (pid = noProc ∨ ∃ n : Pid, pid = n.val ∧ ∀ p,
        ExecAgrees wrapper room' (k'.pt n) prog (rsrvProcessName :: sprintfInt sock :: args) p p)

/-- Requests of at most 2048 bytes arrive whole, and `recv_message` says exactly when a message
does. -/
theorem remote_request_framing :
    (∀ (frame : Nat → UInt8) (o : Outgoing) (name : CString) (args : List CString)
      (sock status : Int), (∀ i, 1 ≤ o.pieces i) → o.sent = [] → args ≠ [] →
      (packed args).length ≤ 2048 → -2 ^ 31 ≤ sock → sock < 2 ^ 31 →
      ∃ o' : Outgoing, remoteClient frame true o (name :: args) = some (.shutDown o') ∧
        RequestServed o' sock status args) ∧
    (∀ (s : Incoming) (buf : List UInt8) (len : Nat), buf.length = len →
      ∃ ok buf' s', recvMessage s buf len = some (ok, buf', s') ∧
      (ok = true ↔ len ≤ s.pending.length) ∧
        (ok = true → buf' = s.pending.take len ∧ s'.pending = s.pending.drop len)) := by
  constructor
  · intro frame o name args sock status ho hfresh hargs hlen hlo hhi
    obtain ⟨o', hrun, hsent⟩ := remoteClient_sends frame ho name hargs (by omega)
    rw [hfresh, List.nil_append] at hsent
    obtain ⟨hcomplete, hreq⟩ := completeRequest_sent hargs hlen
    refine ⟨o', hrun, fun s hs frame g => ?_, fun _ => rfl,
      fun wrapper room room' frame k cur prog a hroom hroom' => ?_⟩
    · rw [hsent] at hs
      have hbody : (s.pending.drop 4).take (requestLength s.pending).toNat = packed args ++ [] := by
        rw [hs, hreq, List.drop_left' (store_length 4 _), Int.toNat_natCast,
          List.take_length, List.append_nil]
      exact rsrvClient_complete (hs ▸ hcomplete) (by simp) hbody
    · obtain ⟨hsize, hargc⟩ := requestVector_length hlo hhi args
      change 128 * 1024 ≤ _ at hroom hroom'
      have hfits : (packed (rsrvProcessName :: sprintfInt sock :: args)).length + 8 ≤
          room := by omega
      obtain ⟨k', pid, hk, hnone, hsome⟩ := execute_spec wrapper frame k cur prog a hfits
      refine ⟨k', pid, hk, ?_⟩
      cases hfree : k.pcbFreelist with
      | none => exact .inl (hnone hfree)
      | some n =>
        obtain ⟨hret, hiff⟩ := hsome n hfree
        exact .inr ⟨n, hret, fun p => (hiff room' p p).mpr ⟨by omega, .inr rfl⟩⟩
  · intro s buf len hbuf
    obtain ⟨buf', s', hrecv, hgot⟩ := recvMessage_eq (s := s) hbuf
    exact ⟨_, buf', s', hrecv, by simp, fun hok => hgot (of_decide_eq_true hok)⟩

/-- One argument, written and read in single bytes. -/
theorem remote_request_framing_ls : ∃ o' : Outgoing,
    remoteClient (fun _ => 7) true ⟨[], fun _ => 1, 0⟩ [⟨[114], by decide⟩,
      ⟨[108, 115], by decide⟩] = some (.shutDown o') ∧
      RequestServed o' 3 0 [⟨[108, 115], by decide⟩] :=
  remote_request_framing.1 (fun _ => 7) ⟨[], fun _ => 1, 0⟩
    ⟨[114], by decide⟩ [⟨[108, 115], by decide⟩] 3 0
    (fun _ => Int.le_refl 1) rfl (by simp) (by decide) (by decide) (by decide)

end

end TinyOS
