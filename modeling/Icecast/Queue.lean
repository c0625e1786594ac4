import Icecast.Lib.RefHeap
import Icecast.Lib.Linked
import Icecast.Client

namespace Icecast
open RefHeap

-- refbuf_t without its _count, which the heap cell has. `seq` only records where its
-- data starts in all that the source produced.
structure Buf (α : Type u) where
  data : List UInt8
  associated : Option α
  next : Option Nat
  syncPoint : Bool
  seq : Nat
deriving DecidableEq,Repr

def Buf.len (b : Buf α) : UInt32 := UInt32.ofNat b.data.length

-- The stream queue of a source_t: its refbufs and the fields that point to or measure
-- them. `possibleStart` has the possible_start of each ogg codec that has one, by the
-- codec's serial number; `produced` only records the data of all refbufs so far.
structure Queue (α : Type u) where
  mount : Nat
  heap : Heap (Buf α)
  fresh : Nat
  streamData : Option Nat
  streamDataTail : Option Nat
  burstPoint : Option Nat
  queueSize : UInt32
  queueSizeLimit : UInt32
  burstOffset : UInt32
  burstSize : UInt32
  possibleStart : List (Nat × Nat)
  produced : List UInt8

def Queue.empty (mount : Nat) : Queue α :=
  { mount := mount, heap := RefHeap.empty, fresh := 0
    streamData := none, streamDataTail := none, burstPoint := none
    queueSize := 0, queueSizeLimit := 0, burstOffset := 0, burstSize := 0, possibleStart := [], produced := [] }

def Queue.next (q : Queue α) (a : Nat) : Option (Option Nat) := (read q.heap a).map (·.next)

-- The operations below are none when they touch a refbuf that is freed, or another
-- mount's.
def Queue.addref (q : Queue α) (a : Nat) : Option (Queue α) := (RefHeap.addref q.heap a).map fun h => {q with heap := h}
def Queue.release (q : Queue α) (a : Nat) : Option (Queue α) :=
  (RefHeap.release q.heap a).map fun h => {q with heap := h}

-- refbuf_release on client->refbuf. A buffer of the client's own has no other reference.
def Queue.releaseBuf (q : Queue α) : ClientBuf → Option (Queue α)
  | .queue mount a => if mount = q.mount then q.release a else none
  | _ => some q

def clientSetQueue (q : Queue α) (c : Listener δ) (refbuf : Option Nat) : Option (Queue α × Listener δ) :=
  (match refbuf with | some a => q.addref a | none => some q).bind fun q =>
  (q.releaseBuf c.refbuf).map fun q =>
    (q,{c with refbuf := match refbuf with | some a => .queue q.mount a | none => .null,pos := 0})

-- A refbuf the format plugin hands over. `kate` is set for a data page of a kate
-- stream: its serial number, and whether its granulepos makes it a possible start.
structure Page (α : Type u) where
  data : List UInt8
  associated : Option α
  syncPoint : Bool
  kate : Option (Nat × Bool)
deriving DecidableEq,Repr

def takeStart (codec : Nat) : List (Nat × Nat) → Option (Nat × List (Nat × Nat))
  | [] => none
  | start::rest => if start.1 = codec then some (start.2,rest) else
    (takeStart codec rest).map fun found => (found.1,start::found.2)

-- The page the codec remembered becomes a starting point.
def markStart (q : Queue α) (codec : Nat) : Option (Queue α) :=
  match takeStart codec q.possibleStart with
  | some (b,rest) =>
    (modify q.heap b fun (buf : Buf α) => {buf with syncPoint := true}).bind fun h =>
    Queue.release {q with heap := h,possibleStart := rest} b
  | none => some q

-- The end of process_kate_page for the refbuf just made at `a`.
def processKate (q : Queue α) (a codec : Nat) (possible : Bool) : Option (Queue α) :=
  (markStart q codec).bind fun q =>
  if possible then (q.addref a).map fun q => {q with possibleStart := (codec,a)::q.possibleStart} else some q

-- free_ogg_codecs, as far as it concerns the queue.
def freeCodecs (q : Queue α) : Option (Queue α) :=
  q.possibleStart.foldlM (fun q start => Queue.release q start.2) {q with possibleStart := []}

-- The while loop that moves the burst point; none is also the end of the fuel.
def advanceBurst : Nat → Queue α → Option (Queue α)
  | 0,_ => none
  | fuel+1,q =>
    if q.burstOffset > q.burstSize then
      q.burstPoint.bind fun toRelease =>
      (read q.heap toRelease).bind fun buf =>
      match buf.next with
      | some next =>
        (Queue.release {q with burstPoint := some next,burstOffset := q.burstOffset-buf.len} toRelease).bind
          (advanceBurst fuel)
      | none => some q
    else some q

-- refbuf_new and the copy of the page.
def newRefbuf (q : Queue α) (page : Page α) : Queue α :=
  {q with
    heap := alloc q.heap q.fresh ⟨page.data,page.associated,none,page.syncPoint,q.produced.length⟩
    fresh := q.fresh+1,produced := q.produced++page.data}

def linkTail (q : Queue α) (a : Nat) : Option (Queue α) :=
  match q.streamDataTail with
  | some tail => (modify q.heap tail fun (buf : Buf α) => {buf with next := some a}).map fun h => {q with heap := h}
  | none => some q

-- source_main puts a refbuf on the queue and references it for the burst.
def appendBuffer (q : Queue α) (a : Nat) (len : UInt32) : Option (Queue α) :=
  (linkTail (if q.streamData.isNone then {q with streamData := some a,burstPoint := some a} else q) a).bind fun q =>
  Queue.addref {q with
    streamDataTail := some a,queueSize := q.queueSize+len,burstOffset := q.burstOffset+len} a

-- What get_buffer does to a page of a kate stream before it returns the refbuf.
def getPage (q : Queue α) (page : Page α) : Option (Queue α) :=
  match page.kate with
  | some (codec,possible) => processKate (newRefbuf q page) q.fresh codec possible
  | none => some (newRefbuf q page)

-- get_buffer and the unlocked part of an iteration: `zap` for codecs freed before the
-- page was made.
def produce (q : Queue α) (zap : Bool) (page : Option (Page α)) : Option (Queue α) :=
  (if zap then freeCodecs q else some q).bind fun q =>
  match page with
  | none => some q
  | some page =>
    (getPage q page).bind fun next =>
    (appendBuffer next q.fresh (UInt32.ofNat page.data.length)).bind fun next => advanceBurst (next.fresh+1) next

-- The while loop that drops the head of the queue. The result is false where the
-- source logs an unexpected queue state and stops.
def trim : Nat → Queue α → Option (Queue α × Bool)
  | 0,_ => none
  | fuel+1,q =>
    match q.streamData with
    | none => none
    | some toGo =>
      (q.heap toGo).bind fun cell =>
      if cell.count = 1 then
        match cell.item.next with
        | none => some (q,false)
        | some next =>
          if q.burstPoint = some toGo then some (q,false) else
          (modify q.heap toGo fun (buf : Buf α) => {buf with next := none}).bind fun h =>
          (Queue.release {q with heap := h,streamData := some next,queueSize :=
            q.queueSize-cell.item.len} toGo).bind (trim fuel)
      else some (q,true)

-- source_clear_source on the queue, when the clients and the plugin are gone.
def clearQueue : Nat → Queue α → Option (Queue α)
  | 0,_ => none
  | fuel+1,q =>
    match q.streamData with
    | none => some {q with
        streamDataTail := none,burstPoint := none,burstSize := 0,burstOffset := 0,queueSize := 0,queueSizeLimit := 0}
    | some p =>
      (q.heap p).bind fun cell =>
      (modify q.heap p fun (buf : Buf α) => {buf with next := none}).bind fun h =>
      ((List.replicate cell.count p).foldlM Queue.release {q with heap := h,streamData := cell.item.next}).bind
        (clearQueue fuel)

end Icecast
