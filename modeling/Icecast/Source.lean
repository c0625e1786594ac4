import Icecast.Format

namespace Icecast
open RefHeap

-- Where the source's thread is: not running, before get_next_buffer, or between it and
-- the locked part of the iteration.
inductive Phase where
  | idle | top | mid
deriving DecidableEq,Repr

-- source_t. `removeFromQ` is the local of source_main; `departed` only records the
-- listeners that were dropped, destroyed or moved, as they were then.
structure Source (α : Type u) (δ : Type v) where
  mount : Mount
  queue : Queue α
  phase : Phase
  running : Bool
  onDemand : Bool
  onDemandReq : Bool
  removeFromQ : Bool
  listeners : UInt64
  prevListeners : UInt64
  maxListeners : Int
  clientTree : List (Listener δ)
  pendingTree : List (Listener δ)
  departed : List (Listener δ)

-- source_reserve
def Source.reserve (mount : Nat) : Source α δ :=
  { mount := ⟨false,false,none,none⟩, queue := .empty mount, phase := .idle, running := false, onDemand := false
    onDemandReq := false, removeFromQ := false, listeners := 0, prevListeners := 0, maxListeners := -1
    clientTree := [], pendingTree := [], departed := [] }

-- _free_client: a client without an answer is handed to the 404 responder, which
-- writes into the client's own buffer.
def freeClient (q : Queue α) (c : Listener δ) : Option (Queue α) :=
  if c.respcode = 0 then match c.refbuf with | .own _ => some q | _ => none
  else q.releaseBuf c.refbuf

def freeClients (q : Queue α) (clients : List (Listener δ)) : Option (Queue α) := clients.foldlM freeClient q

section Plugins
variable {α : Type u} {δ : Type v} (plugins : Nat → Plugin α δ)

-- The loop of send_to_listener, `loop` counting down from 10.
def sendLoop (m : Mount) (env : Nat → Turn δ) : Nat → Int → Queue α → Listener δ → Option (Queue α × Listener δ)
  | 0,_,q,c => some (q,{c with error := c.error || (env 0).expired})
  | loop+1,total,q,c =>
    let turn := env (loop+1)
    let c := {c with error := c.error || turn.expired}
    if c.error then some (q,c) else
    if total > 20000 then some (q,c) else
    (checkBuffer m q c turn).bind fun (go,q,c) =>
    if go then
      (writeToClient plugins q c turn.sends).bind fun (ret,c) =>
      if ret ≤ 0 then some (q,c) else sendLoop m env loop (total+ret) q c
    else some (q,c)

def sendToListener (m : Mount) (env : Nat → Turn δ) (deletionExpected : Bool) (q : Queue α) (c : Listener δ) :
    Option (Queue α × Listener δ) :=
  (sendLoop plugins m env 10 0 q c).map fun (q,c) =>
    (q,{c with error := c.error || (deletionExpected && (match c.refbuf with
      | .queue mount a => decide (mount = q.mount ∧ q.streamData = some a)
      | _ => false))})

-- What the pass over client_tree leaves: the queue, the clients kept and those dropped.
structure Pass (α : Type u) (δ : Type v) where
  queue : Queue α
  kept : List (Listener δ)
  dropped : List (Listener δ)

def sendAll (m : Mount) (env : Nat → Nat → Turn δ) (deletionExpected : Bool) (q : Queue α) :
    List (Listener δ) → Option (Pass α δ)
  | [] => some ⟨q,[],[]⟩
  | c::rest =>
    (sendToListener plugins m (env c.id) deletionExpected q c).bind fun (q,c) =>
    if c.error then
      (freeClient q c).bind fun q => (sendAll m env deletionExpected q rest).map fun p =>
        {p with dropped := c::p.dropped}
    else (sendAll m env deletionExpected q rest).map fun p => {p with kept := c::p.kept}

end Plugins

-- What the loop over pending_tree leaves.
structure Accepted (α : Type u) (δ : Type v) where
  queue : Queue α
  clientTree : List (Listener δ)
  listeners : UInt64
  refused : List (Listener δ)

def acceptPending (maxListeners : Int) : Accepted α δ → List (Listener δ) → Option (Accepted α δ)
  | s,[] => some s
  | s,c::rest =>
    if maxListeners ≠ -1 ∧ s.listeners ≥ UInt64.ofNat (maxListeners % 2^64).toNat then
      (freeClient s.queue c).bind fun q => acceptPending maxListeners {s with queue := q,refused := s.refused++[c]} rest
    else acceptPending maxListeners {s with clientTree := insertClient c s.clientTree,listeners := s.listeners+1} rest

-- The rest of an iteration once the listeners are served.
def settle (s : Source α δ) : Option (Source α δ) :=
  let idle := s.listeners ≠ s.prevListeners ∧ s.listeners = 0 ∧ s.onDemand
  let s := {s with prevListeners := s.listeners,running := s.running && !decide idle,phase := .top}
  if s.queue.streamData.isSome then
    (trim (s.queue.fresh+1) s.queue).map fun (q,ok) => {s with queue := q,running := s.running && ok}
  else some s

-- The locked part of source_main's iteration.
def Source.pass (plugins : Nat → Plugin α δ) (s : Source α δ) (env : Nat → Nat → Turn δ) : Option (Source α δ) :=
  (sendAll plugins s.mount env s.removeFromQ s.queue s.clientTree).bind fun sent =>
  (acceptPending s.maxListeners
    ⟨sent.queue,sent.kept,s.listeners-UInt64.ofNat sent.dropped.length,[]⟩ s.pendingTree).bind fun accepted =>
  settle {s with
    queue := accepted.queue,clientTree := accepted.clientTree,pendingTree := [],listeners := accepted.listeners
    departed := s.departed++sent.dropped++accepted.refused}

-- get_next_buffer and the unlocked part of the iteration.
def Source.produce (s : Source α δ) (zap : Bool) (page : Option (Page α)) : Option (Source α δ) :=
  (Icecast.produce s.queue zap page).map fun q =>
    {s with queue := q,removeFromQ := decide (q.queueSize > q.queueSizeLimit),phase := .mid}

-- What source_move_clients does to one client it takes from a tree.
def detachClient (m : Mount) (q : Queue α) (c : Listener δ) : Option (Queue α × Listener δ) :=
  if c.checkBuffer ≠ .http then
    (clientSetQueue q c none).map fun (q,c) =>
      (q,{c with
        checkBuffer := .file,introOffset := if m.con then c.introOffset else -1,placedAt := none,delivered := []})
  else some (q,c)

def detachClients (m : Mount) (q : Queue α) : List (Listener δ) → Option (Queue α × List (Listener δ))
  | [] => some (q,[])
  | c::rest =>
    (detachClient m q c).bind fun (q,c) => (detachClients m q rest).map fun (q,moved) => (q,c::moved)

-- The checks of source_move_clients.
def movable (plugins : Nat → Plugin α δ) (s d : Source α δ) : Bool :=
  s.queue.mount != d.queue.mount && (d.running || d.onDemand) && (s.onDemand || s.mount.format.isSome) &&
  match s.mount.format,d.mount.format with
  | some f,some g => (plugins f).type = (plugins g).type
  | _,_ => true

def sourceMoveClients (plugins : Nat → Plugin α δ) (s d : Source α δ) : Option (Source α δ × Source α δ) :=
  if movable plugins s d then
    (detachClients s.mount s.queue (s.pendingTree++s.clientTree)).map fun (q,moved) =>
      ({s with queue := q,pendingTree := [],clientTree := [],listeners := 0
               departed := s.departed++s.pendingTree++s.clientTree},
       {d with pendingTree := moved.foldl (fun tree c => insertClient c tree) d.pendingTree
               onDemandReq := d.onDemandReq || (!d.running && d.onDemand && !moved.isEmpty)})
  else some (s,d)

-- source_clear_source
def Source.clear (s : Source α δ) : Option (Source α δ) :=
  (freeClients s.queue (s.clientTree++s.pendingTree)).bind fun q =>
  (freeCodecs q).bind fun q =>
  (clearQueue (q.fresh+1) q).map fun q =>
    {s with
      mount := ⟨false,false,none,none⟩,queue := q,phase := .idle,listeners := 0,maxListeners := -1,prevListeners := 0
      onDemandReq := false,clientTree := [],pendingTree := [],departed := s.departed++s.clientTree++s.pendingTree}

-- A source client, a relay or a file fallback starts: source_init with the settings of
-- its mount.
structure Start where
  format : Nat
  client : Bool
  con : Bool
  introFile : Option (List UInt8)
  onDemand : Bool
  burstSize : UInt32
  queueSizeLimit : UInt32
  maxListeners : Int
deriving DecidableEq,Repr

def Source.start (s : Source α δ) (with_ : Start) : Source α δ :=
  {s with
    mount := ⟨with_.client,with_.con,with_.introFile,some with_.format⟩
    queue := {s.queue with burstSize := with_.burstSize,queueSizeLimit := with_.queueSizeLimit}
    phase := .top,running := true,onDemand := with_.onDemand,listeners := 0,prevListeners := -1
    maxListeners := with_.maxListeners}

-- source_update_settings on a source that may run.
def Source.settings (s : Source α δ) (burstSize queueSizeLimit : UInt32) (maxListeners : Int) : Source α δ :=
  {s with
    queue := {s.queue with burstSize := burstSize,queueSizeLimit := queueSizeLimit},maxListeners := maxListeners}

-- add_listener_to_source for a client that has been through authentication.
def Source.join (s : Source α δ) (id : Nat) (formatData : δ) : Source α δ :=
  {s with
    pendingTree := insertClient
      { id := id, error := false, respcode := 0, checkBuffer := .http, writeToClient := none
        refbuf := .own (List.replicate perClientRefbufSize 0), pos := 0, introOffset := 0, formatData := formatData
        placedAt := none, delivered := [] } s.pendingTree
    onDemandReq := s.onDemandReq || (!s.running && s.onDemand)}

-- command_kill_client
def Source.kick (s : Source α δ) (id : Nat) : Source α δ :=
  {s with clientTree := s.clientTree.map fun c => if c.id = id then {c with error := true} else c}

-- Everything that happens to the sources of a server. The source threads take `produce`
-- and `pass` in turn; the other steps come from other threads and hold the trees' locks.
inductive Event (α : Type u) (δ : Type v) where
  | start (i : Nat) (with_ : Start)
  | produce (i : Nat) (zap : Bool) (page : Option (Page α))
  | pass (i : Nat) (env : Nat → Nat → Turn δ)
  | stop (i : Nat)
  | clear (i : Nat)
  | join (i id : Nat) (formatData : δ)
  | kick (i id : Nat)
  | settings (i : Nat) (burstSize queueSizeLimit : UInt32) (maxListeners : Int)
  | onDemand (i : Nat) (value : Bool)
  | move (i j : Nat)

-- The sources by mount.
def Server (α : Type u) (δ : Type v) := Nat → Source α δ

def Server.initial : Server α δ := Source.reserve

def Server.set (s : Server α δ) (i : Nat) (source : Source α δ) : Server α δ := fun j => if j = i then source else s j

-- When a step can be taken.
def Event.enabled (s : Server α δ) : Event α δ → Bool
  | .start i _ => (s i).phase == .idle
  | .produce i _ _ => (s i).phase == .top && (s i).running
  | .pass i _ => (s i).phase == .mid
  | .clear i => (s i).phase != .mid && !(s i).running
  | _ => true

-- none on a step that is not enabled, or that touches freed memory.
def Server.next (plugins : Nat → Plugin α δ) (s : Server α δ) (event : Event α δ) : Option (Server α δ) :=
  if event.enabled s then
    match event with
    | .start i with_ => some (s.set i ((s i).start with_))
    | .produce i zap page => ((s i).produce zap page).map (s.set i)
    | .pass i env => ((s i).pass plugins env).map (s.set i)
    | .stop i => some (s.set i {s i with running := false})
    | .clear i => (s i).clear.map (s.set i)
    | .join i id formatData => some (s.set i ((s i).join id formatData))
    | .kick i id => some (s.set i ((s i).kick id))
    | .settings i burstSize queueSizeLimit maxListeners =>
      some (s.set i ((s i).settings burstSize queueSizeLimit maxListeners))
    | .onDemand i value => some (s.set i {s i with onDemand := value})
    | .move i j => (sourceMoveClients plugins (s i) (s j)).map fun (a,b) => (s.set i a).set j b
  else none

def Server.step (plugins : Nat → Plugin α δ) (s : Server α δ) (event : Event α δ) (t : Server α δ) : Prop :=
  s.next plugins event = some t

end Icecast
