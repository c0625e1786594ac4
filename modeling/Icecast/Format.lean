import Icecast.Queue

namespace Icecast
open RefHeap

inductive FormatType where
  | ogg | ebml | generic
deriving DecidableEq,Repr

-- What a write_to_client call leaves: its result, client->pos, con->error, the format
-- data, and the bytes that went out of the refbuf, with what was put between them.
structure Written (δ : Type u) where
  ret : Int
  pos : Nat
  error : Bool
  formatData : δ
  bytes : List UInt8
deriving DecidableEq,Repr

-- The refbuf a write function is given. `associated` is NULL in a client's own buffer.
structure View (α : Type u) where
  data : List UInt8
  associated : Option α
deriving DecidableEq,Repr

-- format_plugin_t as the listener code uses it. `sends` is what the con->send calls of
-- one write meet, in order; none is a read outside a buffer. `handsOver` has the client data
-- on which write_buf_to_client makes format_generic_write_to_client the client's writer and
-- calls it. Up to then such a plugin sends from elsewhere and leaves client->pos alone.
structure Plugin (α : Type u) (δ : Type v) where
  type : FormatType
  writeBufToClient : View α → Nat → δ → (Nat → Send) → Option (Written δ)
  handsOver : δ → Bool
  opens : ∀ d, handsOver d = true → ∀ view pos data sends w, writeBufToClient view pos data sends = some w →
    w.pos = pos ∧ w.bytes = []

def formatGenericWriteToClient (refbuf : View α) (pos : Nat) (data : δ) (sends : Nat → Send) : Option (Written δ) :=
  let out := clientSendBytes (refbuf.data.drop pos) (sends 0)
  some ⟨out.ret,if out.ret > 0 then pos+out.ret.toNat else pos,out.error,data,out.bytes⟩

-- What one round of send_to_listener's loop meets: whether the client's time is up, the
-- answer format_prepare_headers would make with the plugin's client data (none when it
-- fails), and the sends.
structure Turn (δ : Type u) where
  expired : Bool
  headers : Option (List UInt8 × δ)
  sends : Nat → Send

-- The fields of source_t that the listener code reads. `client` and `con` say that the
-- pointers are not NULL; `format` is the plugin.
structure Mount where
  client : Bool
  con : Bool
  introFile : Option (List UInt8)
  format : Option Nat
deriving DecidableEq,Repr

def perClientRefbufSize : Nat := 4096

-- client->refbuf as its owner sees it, with its next pointer.
def viewOf (q : Queue α) : ClientBuf → Option (View α × Option Nat)
  | .null => none
  | .own data => some (⟨data,none⟩,none)
  | .queue mount a =>
    if mount = q.mount then (read q.heap a).map fun buf => (⟨buf.data,buf.associated⟩,buf.next) else none

-- The walk of find_client_start over the burst; `size` is a size_t and wraps.
def skipBurst (q : Queue α) : Nat → UInt64 → Option Nat → Option (Option Nat)
  | 0,_,_ => none
  | _+1,_,none => some none
  | fuel+1,size,some a =>
    if size = 0 then some (some a) else
    (read q.heap a).bind fun buf =>
    match buf.next with
    | none => some (some a)
    | some next => skipBurst q fuel (size-UInt64.ofNat buf.len.toNat) (some next)

-- The first refbuf from here that is a sync point.
def firstSync (q : Queue α) : Nat → Option Nat → Option (Option Nat)
  | 0,_ => none
  | _+1,none => some none
  | fuel+1,some a => (read q.heap a).bind fun buf => if buf.syncPoint then some (some a) else firstSync q fuel buf.next

-- stream_data_tail with its sync_point.
def tailSync (q : Queue α) : Option Bool :=
  match q.streamDataTail with
  | none => some false
  | some tail => (read q.heap tail).map (·.syncPoint)

def startPoint (q : Queue α) (introOffset : Int) : Option (Option Nat) :=
  (if introOffset = -1 then tailSync q else some false).bind fun atTail =>
  (if atTail then some q.streamDataTail
    else skipBurst q (q.fresh+1) (UInt64.ofNat (introOffset % 2^64).toNat) q.burstPoint).bind (firstSync q (q.fresh+1))

def findClientStart (m : Mount) (q : Queue α) (c : Listener δ) : Option (Queue α × Listener δ) :=
  (startPoint q c.introOffset).bind fun
  | none => some (q,c)
  | some a =>
    -- source->format is read here
    m.format.bind fun format =>
    (read q.heap a).bind fun buf =>
    (clientSetQueue q c (some a)).map fun (q,c) =>
      (q,{c with
        checkBuffer := .advance,writeToClient := some format,introOffset := -1
        placedAt := some buf.seq,delivered := []})

-- get_file_data and what format_check_file_buffer does about its result, for a buffer
-- of the client's own that holds `data`. The Bool is false for a return value of -1.
def fileBuffer (m : Mount) (q : Queue α) (c : Listener δ) (data : List UInt8) : Option (Bool × Queue α × Listener δ) :=
  if c.pos = data.length then
    let bytes := if c.introOffset < 0 then [] else
      ((m.introFile.getD []).drop c.introOffset.toNat).take perClientRefbufSize
    if bytes ≠ [] then
      some (true,q,{c with refbuf := .own bytes,pos := 0,introOffset := c.introOffset+bytes.length})
    else if q.streamDataTail.isSome then
      (clientSetQueue q c none).bind fun (q,c) => (findClientStart m q c).map fun (q,c) => (false,q,c)
    else some (false,q,{c with introOffset := 0})
  else some (true,q,c)

-- The check_buffer functions.
def formatCheckFileBuffer (m : Mount) (q : Queue α) (c : Listener δ) : Option (Bool × Queue α × Listener δ) :=
  match c.refbuf with
  | .null =>
    if m.client then (findClientStart m q c).map fun (q,c) => (false,q,c) else
    let data := List.replicate perClientRefbufSize 0
    fileBuffer m q {c with refbuf := .own data,pos := data.length,introOffset := 0} data
  | .own data => fileBuffer m q c data
  -- the intro would be read into a refbuf of the queue
  | .queue _ _ => none

-- The end of format_check_http_buffer, for an answer of `data`.
def headersSent (m : Mount) (q : Queue α) (c : Listener δ) (data : List UInt8) : Option (Bool × Queue α × Listener δ) :=
  if c.pos = data.length then
    m.format.map fun format =>
      (false,q,{c with
        writeToClient := some format,checkBuffer := .file,introOffset := 0
        refbuf := .own (List.replicate perClientRefbufSize 0),pos := perClientRefbufSize})
  else some (true,q,c)

def formatCheckHttpBuffer (m : Mount) (q : Queue α) (c : Listener δ) (headers : Option (List UInt8 × δ)) :
    Option (Bool × Queue α × Listener δ) :=
  match c.refbuf with
  | .null => some (false,q,c)
  | .queue _ _ => none
  | .own data =>
    if c.respcode = 0 then
      match headers with
      -- the error responder has released the client's buffer
      | none => some (false,q,{c with respcode := 200,refbuf := .null,error := true})
      | some (text,formatData) =>
        headersSent m q {c with respcode := 200,refbuf := .own text,formatData := formatData} text
    else headersSent m q c data

def formatAdvanceQueue (q : Queue α) (c : Listener δ) : Option (Bool × Queue α × Listener δ) :=
  match c.refbuf with
  | .null => some (false,q,c)
  | buf =>
    (viewOf q buf).bind fun (view,next) =>
    if c.pos = view.data.length then
      match next with
      | none => some (false,q,c)
      | some next => (clientSetQueue q c (some next)).map fun (q,c) => (true,q,c)
    else some (true,q,c)

def checkBuffer (m : Mount) (q : Queue α) (c : Listener δ) (turn : Turn δ) : Option (Bool × Queue α × Listener δ) :=
  match c.checkBuffer with
  | .http => formatCheckHttpBuffer m q c turn.headers
  | .file => formatCheckFileBuffer m q c
  | .advance => formatAdvanceQueue q c

section Plugins
variable {α : Type u} {δ : Type v} (plugins : Nat → Plugin α δ)

def writeFunction (write : Option Nat) : View α → Nat → δ → (Nat → Send) → Option (Written δ) :=
  match write with
  | none => formatGenericWriteToClient
  | some format => (plugins format).writeBufToClient

def handOver (c : Listener δ) : Listener δ :=
  match c.writeToClient with
  | some format => if (plugins format).handsOver c.formatData then {c with writeToClient := none} else c
  | none => c

def writeToClient (q : Queue α) (c : Listener δ) (sends : Nat → Send) : Option (Int × Listener δ) :=
  (viewOf q c.refbuf).bind fun (view,_) =>
  let c := handOver plugins c
  (writeFunction plugins c.writeToClient view c.pos c.formatData sends).map fun w =>
    (w.ret,{c with
      pos := w.pos,error := c.error || w.error,formatData := w.formatData,delivered := c.delivered++w.bytes})

end Plugins

end Icecast
