import TinyOS.ExecFormat

/-! The remote server of the shell: how a thread of it receives one request, and what it has done
when it ends. -/

namespace TinyOS

open Delimited LittleEndian

/-- The bytes that still come in on a connection, and how many of them each `Read` gets at most. At
the end `Read` returns `ending`. -/
structure Incoming where
  pending : List UInt8
  pieces : Nat → Nat
  reads : Nat
  ending : Int
  endingLt : ending < 1

def Incoming.read (s : Incoming) (size : Nat) : Int × List UInt8 × Incoming :=
  if s.pending = [] then (s.ending, [], s)
  else
    let n := min (max 1 (s.pieces s.reads)) (min size s.pending.length)
    (n, s.pending.take n, { s with pending := s.pending.drop n, reads := s.reads + 1 })

/-- The loop of `recv_message`, with the bytes received so far in the front of the buffer. -/
def recvFrom (len : Nat) : Nat → Incoming → List UInt8 → Nat → Option (Bool × List UInt8 × Incoming)
  | 0, _, _, _ => none
  | fuel + 1, s, buf, count =>
    if count < len then
      let r := s.read (len - count)
      if r.1 < 1 then some (count = len, buf, r.2.2)
      else recvFrom len fuel r.2.2 (buf.take count ++ r.2.1 ++ buf.drop (count + r.2.1.length))
        (count + r.1.toNat)
    else some (count = len, buf, s)

/-- No more than `len` reads get a byte each. -/
def recvMessage (s : Incoming) (buf : List UInt8) (len : Nat) :
    Option (Bool × List UInt8 × Incoming) :=
  recvFrom len (len + 1) s buf 0

inductive LogMessage
  | started (id : BitVec 64)
  | aborting (id : BitVec 64)
  | finished (id : BitVec 64) (status : Int)
deriving DecidableEq

/-- The globals of the server that a client thread uses; as history, the fids it closed and the
argument vectors with which it executed `rsrv_process`. -/
structure RemoteGlobals where
  activeConn : BitVec 64
  connIdCounter : BitVec 64
  log : List LogMessage
  closed : List Int
  executed : List (List CString)

def RemoteGlobals.logMessage (g : RemoteGlobals) (m : LogMessage) : RemoteGlobals :=
  { g with log := g.log ++ [m] }

def RemoteGlobals.finish (g : RemoteGlobals) : RemoteGlobals :=
  { g with activeConn := g.activeConn - 1 }

inductive Outcome
  | returned (g : RemoteGlobals)
  | assertionFailed (g : RemoteGlobals)

theorem nulFree_takeWhile (l : List UInt8) : 0 ∉ l.takeWhile (· ≠ 0) := by
  induction l with
  | nil => simp
  | cons b l ih =>
    by_cases hb : b = 0
    · simp [hb]
    · simpa [hb, Ne.symm hb] using ih

def cstringAt (base : Nat) (args : List UInt8) (p : Nat) : Option CString :=
  if base ≤ p ∧ 0 ∈ args.drop (p - base) then
    some ⟨(args.drop (p - base)).takeWhile (· ≠ 0), nulFree_takeWhile _⟩
  else none

def rsrvProcessName : CString :=
  ⟨[114, 115, 114, 118, 95, 112, 114, 111, 99, 101, 115, 115], by decide⟩

def decimalDigits (n : Nat) : List UInt8 :=
  if n = 0 then [48] else (Nat.digits 10 n).reverse.map fun d => UInt8.ofNat (48 + d)

theorem decimalDigits_nulFree (n : Nat) : 0 ∉ decimalDigits n := by
  unfold decimalDigits
  split
  · decide
  · intro h
    obtain ⟨d, hd, hz⟩ := List.mem_map.mp h
    have hlt : d < 10 := Nat.digits_lt_base (by decide) (List.mem_reverse.mp hd)
    have hnat := congrArg UInt8.toNat hz
    rw [UInt8.toNat_ofNat', Nat.mod_eq_of_lt (by omega)] at hnat
    simp at hnat

def sprintfInt (n : Int) : CString where
  chars := if n < 0 then 45 :: decimalDigits n.natAbs else decimalDigits n.natAbs
  nulFree := by
    split
    · simpa using decimalDigits_nulFree n.natAbs
    · exact decimalDigits_nulFree n.natAbs

/-- `status` is what the executed process leaves, `frame` what the stack holds before. -/
def rsrvClient (frame : Nat → UInt8) (sock status : Int) (s : Incoming)
    (g : RemoteGlobals) : Option Outcome :=
  let id := g.connIdCounter + 1
  let g := { g with connIdCounter := id }.logMessage (.started id)
  (recvMessage s ((List.range 4).map frame) 4).bind fun r =>
    if r.1 = false then some (.returned (g.logMessage (.aborting id)).finish)
    else
      let argl := toSigned 32 (load r.2.1)
      if ¬ (0 < argl ∧ argl ≤ 2048) then some (.assertionFailed g)
      else
        (recvMessage r.2.2 ((List.range argl.toNat).map frame) argl.toNat).bind fun r =>
          if r.1 = false then some (.returned (g.logMessage (.aborting id)).finish)
          else
            let args := r.2.1
            (argscount argl args).bind fun argc =>
              (argvunpack argc (List.replicate argc 0) 0 args).bind fun u =>
                (u.1.mapM (cstringAt 0 args)).map fun strings =>
                  let argv := rsrvProcessName :: sprintfInt sock :: strings
                  let g := { g with executed := g.executed ++ [argv], closed := g.closed ++ [sock] }
                  .returned (g.logMessage (.finished id status)).finish

section

variable {s : Incoming} {buf : List UInt8} {len count fuel : Nat}

theorem Incoming.read_nil (hs : s.pending = []) (size : Nat) : s.read size = (s.ending, [], s) := by
  rw [Incoming.read, if_pos hs]

/-- Something is read, no more than was asked for, and the rest comes next. -/
theorem Incoming.read_cons (hs : s.pending ≠ []) (size : Nat) (hsize : 0 < size) :
    ∃ (n : Nat) (s' : Incoming), s.read size = ((n : Int), s.pending.take n, s') ∧
    0 < n ∧ n ≤ size ∧ n ≤ s.pending.length ∧
      s'.pending = s.pending.drop n := by
  have hpos := List.length_pos_iff.mpr hs
  rw [Incoming.read, if_neg hs]
  exact ⟨_, _, rfl, by omega, by omega, by omega, rfl⟩

/-- The message arrives exactly when enough bytes come in, and then the buffer holds it. -/
theorem recvFrom_eq (hbuf : buf.length = len) (hcount : count ≤ len) (hfuel : len - count < fuel) :
    ∃ buf' s', recvFrom len fuel s buf count =
    some (decide (len - count ≤ s.pending.length), buf', s') ∧
      (len - count ≤ s.pending.length →
        buf' = buf.take count ++ s.pending.take (len - count) ∧
        s'.pending = s.pending.drop (len - count)) := by
  induction fuel generalizing s buf count with
  | zero => omega
  | succ fuel ih =>
    rw [recvFrom]
    by_cases hlt : count < len
    · rw [if_pos hlt]
      by_cases hs : s.pending = []
      · have hend := s.endingLt
        simp only [Incoming.read_nil hs, if_pos hend]
        refine ⟨buf, s, ?_, fun hle => ?_⟩
        · have hne : count ≠ len := by omega
          simp [hs, hne]
          omega
        · rw [hs, List.length_nil] at hle
          omega
      · obtain ⟨n, t, hread, hpos, hle, hlen, ht⟩ := s.read_cons hs (len - count) (by omega)
        have htake : (s.pending.take n).length = n := List.length_take_of_le hlen
        have hbuf' :
            (buf.take count ++ s.pending.take n ++ buf.drop
              (count + (s.pending.take n).length)).length = len := by
          rw [List.length_append, List.length_append, htake, List.length_take, List.length_drop]
          omega
        obtain ⟨buf', s', heq, hrest⟩ := ih (s := t) hbuf' (show count + n ≤ len by omega)
          (by omega)
        have htlen : t.pending.length = s.pending.length - n := by rw [ht, List.length_drop]
        refine ⟨buf', s', ?_, fun hmsg => ?_⟩
        · simp only [hread, Int.toNat_natCast]
          rw [if_neg (by omega), heq, htlen]
          congr 2
          rw [decide_eq_decide]
          omega
        · obtain ⟨hb, hp⟩ := hrest (by omega)
          have hfront :
              (buf.take count ++ s.pending.take n ++ buf.drop
                (count + (s.pending.take n).length)).take
              (count + n) = buf.take count ++ s.pending.take n := by
            apply List.take_left'
            rw [List.length_append, htake, List.length_take]
            omega
          have hsub : len - (count + n) = len - count - n := by omega
          refine ⟨?_, ?_⟩
          · rw [hb, hfront, ht, hsub, List.append_assoc]
            congr 1
            have hsplit : s.pending.take (len - count) =
                s.pending.take (n + (len - count - n)) := by
              congr 1
              omega
            rw [hsplit, List.take_add]
          · rw [hp, ht, List.drop_drop]
            congr 1
            omega
    · have heq : count = len := by omega
      rw [if_neg hlt]
      refine ⟨buf, s, by simp [heq], fun _ => ?_⟩
      rw [heq, Nat.sub_self, List.take_zero, List.append_nil, List.drop_zero,
        List.take_of_length_le (by omega)]
      exact ⟨rfl, rfl⟩

theorem recvMessage_eq (hbuf : buf.length = len) :
    ∃ buf' s', recvMessage s buf len = some (decide (len ≤ s.pending.length), buf', s') ∧
      (len ≤ s.pending.length → buf' = s.pending.take len ∧ s'.pending = s.pending.drop len) := by
  have hrecv := recvFrom_eq (s := s) hbuf (Nat.zero_le _) (show len - 0 < len + 1 by omega)
  simpa [recvMessage] using hrecv

theorem recvMessage_frame (s : Incoming) (frame : Nat → UInt8) (len : Nat) :
    ∃ buf' s', recvMessage s ((List.range len).map frame) len =
    some (decide (len ≤ s.pending.length), buf', s') ∧
      (len ≤ s.pending.length → buf' = s.pending.take len ∧ s'.pending = s.pending.drop len) :=
  recvMessage_eq (by simp)

/-! ### What a client thread does -/

theorem cstringAt_of_stringAt {base p : Nat} {c : CString}
    (h : stringAt base buf p = some c.chars) :
    cstringAt base buf p = some c := by
  unfold stringAt at h
  unfold cstringAt
  split at h
  · rename_i hp
    rw [if_pos hp]
    obtain ⟨chars, hc⟩ := c
    simpa using h
  · simp at h

theorem mapM_cstringAt {base : Nat} {ps : List Nat} {argv : List CString}
    (h : ps.map (stringAt base buf) = argv.map fun c => some c.chars) :
    ps.mapM (cstringAt base buf) = some argv := by
  induction ps generalizing argv with
  | nil =>
    cases argv with
    | nil => rfl
    | cons c argv => simp at h
  | cons p ps ih =>
    cases argv with
    | nil => simp at h
    | cons c argv =>
      rw [List.map_cons, List.map_cons, List.cons.injEq] at h
      rw [List.mapM_cons, cstringAt_of_stringAt h.1, ih h.2]
      rfl

def requestLength (bytes : List UInt8) : Int := toSigned 32 (load (bytes.take 4))

/-- The stream has a length word in the accepted range and that many bytes after it. -/
structure CompleteRequest (bytes : List UInt8) : Prop where
  word : 4 ≤ bytes.length
  low : 0 < requestLength bytes
  high : requestLength bytes ≤ 2048
  body : 4 + (requestLength bytes).toNat ≤ bytes.length

def RemoteGlobals.served (g : RemoteGlobals) (sock status : Int) (argv : List CString) :
    RemoteGlobals where
  activeConn := g.activeConn - 1
  connIdCounter := g.connIdCounter + 1
  log := g.log ++ [.started (g.connIdCounter + 1)] ++ [.finished (g.connIdCounter + 1) status]
  closed := g.closed ++ [sock]
  executed := g.executed ++ [rsrvProcessName :: sprintfInt sock :: argv]

def RemoteGlobals.started (g : RemoteGlobals) : RemoteGlobals :=
  { g with connIdCounter := g.connIdCounter + 1, log := g.log ++ [.started (g.connIdCounter + 1)] }

def RemoteGlobals.aborted (g : RemoteGlobals) : RemoteGlobals :=
  { g with
    activeConn := g.activeConn - 1
    connIdCounter := g.connIdCounter + 1
    log := g.log ++ [.started (g.connIdCounter + 1)] ++ [.aborting (g.connIdCounter + 1)] }

variable {frame : Nat → UInt8} {sock status : Int} {g : RemoteGlobals}

theorem rsrvClient_complete (hs : CompleteRequest s.pending) {argv : List CString}
    {rest : List UInt8} (hrest : 0 ∉ rest)
    (hbody : (s.pending.drop 4).take (requestLength s.pending).toNat = packed argv ++ rest) :
    rsrvClient frame sock status s g = some (.returned (g.served sock status argv)) := by
  obtain ⟨hword, hlow, hhigh, hlen⟩ := hs
  obtain ⟨buf, t, hrecv, hgot⟩ := recvMessage_frame s frame 4
  obtain ⟨hb, ht⟩ := hgot hword
  obtain ⟨args, u, hrecv', hgot'⟩ := recvMessage_frame t frame (requestLength s.pending).toNat
  have hrem : (requestLength s.pending).toNat ≤ t.pending.length := by
    rw [ht, List.length_drop]
    omega
  obtain ⟨ha, -⟩ := hgot' hrem
  rw [ht, hbody] at ha
  have hargl : toSigned 32 (load buf) = requestLength s.pending := by rw [hb, requestLength]
  have hsize : (packed argv ++ rest).length = (requestLength s.pending).toNat := by
    rw [← hbody, List.length_take, List.length_drop]
    omega
  have hcount : argscount (requestLength s.pending) (packed argv ++ rest) = some argv.length := by
    have hcast : requestLength s.pending = ((packed argv ++ rest).length : Int) := by omega
    rw [hcast, argscount_all, List.count_append, packed, count_pack (nulFree_chars argv),
      List.length_map, List.count_eq_zero.mpr hrest]
    rfl
  have hout : argv.length ≤ (List.replicate argv.length 0).length := by simp
  obtain ⟨ps, -, hun, hstr⟩ := argvunpack_packed argv 0 rest (Nat.le_refl _) hout
  obtain ⟨r, hr, hps⟩ := Option.map_eq_some_iff.mp hun
  rw [List.drop_of_length_le (by simp), List.append_nil] at hps
  rw [List.take_length] at hstr
  have hstrings := mapM_cstringAt hstr
  simp only [rsrvClient, hrecv, decide_eq_true hword, Option.bind_some,
    hargl, hrecv', decide_eq_true hrem, ha, hcount, hr,
    hps, hstrings, Option.map_some]
  rw [if_neg (by simp), if_neg (by omega), if_neg (by simp)]
  rfl

theorem rsrvClient_short (hs : ¬ 4 ≤ s.pending.length) :
    rsrvClient frame sock status s g = some (.returned g.aborted) := by
  obtain ⟨buf, t, hrecv, -⟩ := recvMessage_frame s frame 4
  simp only [rsrvClient, hrecv, decide_eq_false hs, Option.bind_some]
  rfl

theorem rsrvClient_refuses (hword : 4 ≤ s.pending.length)
    (hs : ¬ (0 < requestLength s.pending ∧ requestLength s.pending ≤ 2048)) :
    rsrvClient frame sock status s g = some (.assertionFailed g.started) := by
  obtain ⟨buf, t, hrecv, hgot⟩ := recvMessage_frame s frame 4
  obtain ⟨hb, -⟩ := hgot hword
  have hargl : toSigned 32 (load buf) = requestLength s.pending := by rw [hb, requestLength]
  simp only [rsrvClient, hrecv, decide_eq_true hword, Option.bind_some, hargl]
  rw [if_neg (by simp), if_pos hs]
  rfl

theorem rsrvClient_truncated (hword : 4 ≤ s.pending.length)
    (hrange : 0 < requestLength s.pending ∧ requestLength s.pending ≤ 2048)
    (hs : ¬ 4 + (requestLength s.pending).toNat ≤ s.pending.length) :
    rsrvClient frame sock status s g = some (.returned g.aborted) := by
  obtain ⟨buf, t, hrecv, hgot⟩ := recvMessage_frame s frame 4
  obtain ⟨hb, ht⟩ := hgot hword
  obtain ⟨args, u, hrecv', -⟩ := recvMessage_frame t frame (requestLength s.pending).toNat
  have hrem : ¬ (requestLength s.pending).toNat ≤ t.pending.length := by
    rw [ht, List.length_drop]
    omega
  have hargl : toSigned 32 (load buf) = requestLength s.pending := by rw [hb, requestLength]
  simp only [rsrvClient, hrecv, decide_eq_true hword, Option.bind_some,
    hargl, hrecv', decide_eq_false hrem]
  rw [if_neg (by simp), if_neg (by simpa using hrange), if_pos trivial]
  rfl

/-- The client thread returns, and has left the count of connections and closed the fid once. -/
def Survives (g : RemoteGlobals) (sock : Int) (o : Option Outcome) : Prop :=
  ∃ g', o = some (.returned g') ∧ g'.activeConn = g.activeConn - 1 ∧ g'.closed = g.closed ++ [sock]

/-- A client thread survives exactly the streams that hold a complete request. -/
theorem rsrvClient_survives_iff (frame : Nat → UInt8) (sock status : Int)
    (s : Incoming) (g : RemoteGlobals) :
    Survives g sock (rsrvClient frame sock status s g) ↔ CompleteRequest s.pending := by
  constructor
  · rintro ⟨g', hret, -, hclosed⟩
    have habort : rsrvClient frame sock status s g = some (.returned g.aborted) → False := by
      intro ha
      obtain rfl : g.aborted = g' := by simpa [ha] using hret
      simp [RemoteGlobals.aborted] at hclosed
    by_cases hword : 4 ≤ s.pending.length
    · by_cases hrange : 0 < requestLength s.pending ∧ requestLength s.pending ≤ 2048
      · by_cases hbody : 4 + (requestLength s.pending).toNat ≤ s.pending.length
        · exact ⟨hword, hrange.1, hrange.2, hbody⟩
        · exact (habort (rsrvClient_truncated hword hrange hbody)).elim
      · simp [rsrvClient_refuses hword hrange] at hret
    · exact (habort (rsrvClient_short hword)).elim
  · intro hs
    obtain ⟨ss, rest, hss, hrest, hpack⟩ :=
      exists_pack 0 ((s.pending.drop 4).take (requestLength s.pending).toNat)
    obtain ⟨argv, rfl⟩ := exists_argv hss
    exact ⟨_, rsrvClient_complete hs hrest hpack, rfl, rfl⟩

def zeroLength : Incoming := ⟨[0, 0, 0, 0], fun _ => 1, 0, 0, by decide⟩

theorem rsrvClient_asserts : rsrvClient (fun _ => 7) 3 0 zeroLength ⟨1, 0, [], [], []⟩ =
      some (.assertionFailed ⟨1, 1, [.started 1], [], []⟩) ∧
    ¬ Survives ⟨1, 0, [], [], []⟩ 3
      (rsrvClient (fun _ => 7) 3 0 zeroLength ⟨1, 0, [], [], []⟩) := by
  have hrun : rsrvClient (fun _ => 7) 3 0 zeroLength ⟨1, 0, [], [], []⟩ =
      some (.assertionFailed ⟨1, 1, [.started 1], [], []⟩) :=
        rsrvClient_refuses (by decide) (by decide)
  refine ⟨hrun, fun hs => ?_⟩
  obtain ⟨g', hret, -⟩ := hs
  exact absurd (hrun.symm.trans hret) (by simp)

end

end TinyOS
