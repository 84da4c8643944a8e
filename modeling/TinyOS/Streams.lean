import TinyOS.Pipe

/-! File control blocks and their reference counts, from `kernel_streams.c`. -/

namespace TinyOS

def maxFileid : Nat := 16

/-- `maxFiles` is defined as `MAX_PROC`. -/
def maxFiles : Nat := 65536

def noFile : Int := -1

inductive FileOps
  | nulldevFops
  | serialFops
  | procinfoOps
  | readerFileOps
  | writerFileOps
  | socketFileOps
deriving DecidableEq

/-- What the untyped `streamobj` of an FCB points to. -/
inductive StreamObj
  | NULL
  | serial (devno : Nat)
  | procinfo (id : Nat)
  | pipe (id : Nat)
  | socket (id : Nat)
deriving DecidableEq

/-- `streamfunc` is absent in an FCB that has never been given a stream. -/
structure FCB where
  refcount : Int
  streamobj : StreamObj
  streamfunc : Option FileOps
deriving DecidableEq

/-- What happens to one FCB over time, kept as history: it leaves the free list,
its count drops to zero, its stream's `Close` is called, it is put back. -/
inductive FcbEvent
  | alloc (f : FcbId)
  | drop (f : FcbId)
  | close (f : FcbId)
  | release (f : FcbId)
deriving DecidableEq

structure FileTable where
  ft : FcbId → FCB
  fcbFreelist : List FcbId
  history : List FcbEvent

/-- `fcbFreelist` is filled in index order; the table is static, hence zeroed. -/
def initializeFiles : FileTable where
  ft _ := { refcount := 0, streamobj := .NULL, streamfunc := none }
  fcbFreelist := List.range maxFiles
  history := []

def FileTable.setRefcount (files : FileTable) (f : FcbId) (n : Int) : FileTable :=
  { files with ft := Function.update files.ft f { files.ft f with refcount := n } }

def FileTable.record (files : FileTable) (e : FcbEvent) : FileTable :=
  { files with history := files.history ++ [e] }

def acquireFCB (files : FileTable) : FileTable × Option FcbId :=
  match files.fcbFreelist with
  | f :: rest =>
    ((({ files with fcbFreelist := rest } : FileTable).setRefcount f 0).record (.alloc f), some f)
  | [] => (files, none)

def releaseFCB (files : FileTable) (f : FcbId) : FileTable :=
  ({ files with fcbFreelist := files.fcbFreelist ++ [f] } : FileTable).record (.release f)

def fcbIncref (files : FileTable) (f : FcbId) : FileTable :=
  files.setRefcount f ((files.ft f).refcount + 1)

/-- The count is decremented; when it reaches zero the stream is to be closed, by
a call through `streamfunc` on `streamobj`, and the FCB is released. The call is
returned, for the caller to carry out; it records itself only if it can be made. -/
def fcbDecref (files : FileTable) (f : FcbId) :
    FileTable × Option (Option FileOps × StreamObj) :=
  let fcb := files.ft f
  let files := files.setRefcount f (fcb.refcount - 1)
  if fcb.refcount - 1 = 0 then
    let files := files.record (.drop f)
    let files := if fcb.streamfunc.isSome then files.record (.close f) else files
    (releaseFCB files f, some (fcb.streamfunc, fcb.streamobj))
  else (files, none)

/-- `while(f<MAX_FILEID && cur->FIDT[f]!=NULL) f++`. -/
def skipUsed (fidt : Nat → Option FcbId) : Nat → Nat → Nat
  | 0, f => f
  | fuel + 1, f => if f < maxFileid ∧ fidt f ≠ none then skipUsed fidt fuel (f + 1) else f

def findFids (fidt : Nat → Option FcbId) : Nat → Nat → List Nat
  | 0, _ => []
  | num + 1, f =>
    let f := skipUsed fidt maxFileid f
    if f = maxFileid then [] else f :: findFids fidt num (f + 1)

/-- `Allocate FCBs`: the pointers stored in `fcb`, the last one `NULL` if the loop broke. -/
def acquireFCBs : Nat → FileTable → FileTable × List (Option FcbId)
  | 0, files => (files, [])
  | num + 1, files =>
    match acquireFCB files with
    | (files, none) => (files, [none])
    | (files, some f) =>
      let r := acquireFCBs num files
      (r.1, some f :: r.2)

/-- What `FCB_reserve` leaves in its two output arrays, and whether it succeeded. -/
structure Reservation where
  fid : List Nat
  fcb : List (Option FcbId)
  ok : Bool

def fcbReserve (files : FileTable) (fidt : Nat → Option FcbId) (num : Nat) :
    FileTable × (Nat → Option FcbId) × Reservation :=
  let fid := findFids fidt num 0
  if fid.length < num then (files, fidt, ⟨fid, [], false⟩)
  else
    let r := acquireFCBs num files
    if none ∈ r.2 then
      ((r.2.filterMap id).reverse.foldl releaseFCB r.1, fidt, ⟨fid, r.2, false⟩)
    else
      ((r.2.filterMap id).foldl fcbIncref r.1,
        (fid.zip r.2).foldl (fun fidt s => Function.update fidt s.1 s.2) fidt, ⟨fid, r.2, true⟩)

def fcbUnreserve (files : FileTable) (fidt : Nat → Option FcbId) (slots : List (Nat × FcbId)) :
    FileTable × (Nat → Option FcbId) :=
  slots.foldl (fun r s => (releaseFCB r.1 s.2, Function.update r.2 s.1 none)) (files, fidt)

def inheritStreams (files : FileTable) (fidt : Nat → Option FcbId) : FileTable :=
  (List.range maxFileid).foldl
    (fun files i => match fidt i with
      | some f => fcbIncref files f
      | none => files) files

end TinyOS
