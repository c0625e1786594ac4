import Icecast.Mp3State
import Icecast.Lib.IcyFormat
import Icecast.Lib.Transition

namespace Icecast.Mp3
open Bytes IcyFormat

-- The source's own client: the body bytes left in client->refbuf, and con->error.
structure SourceClient where
  refbuf : List UInt8
  error : Bool
deriving DecidableEq,Repr

-- What one con->read meets: bytes, the end of the stream (0 and an error), nothing
-- for now (-1), or a broken connection (-1 and an error).
inductive Recv where
  | data (bytes : List UInt8)
  | closed
  | blocked
  | failed
deriving DecidableEq,Repr

-- none is a return value of -1.
def connectionRead (c : SourceClient) (len : Nat) : Recv → SourceClient × Option (List UInt8)
  | .data bytes => (c,some (bytes.take len))
  | .closed => ({c with error := true},some [])
  | .blocked => (c,none)
  | .failed => ({c with error := true},none)

def clientReadBytes (c : SourceClient) (len : Nat) (recv : Recv) : SourceClient × Option (List UInt8) :=
  if c.refbuf ≠ [] then ({c with refbuf := c.refbuf.drop len},some (c.refbuf.take len))
  else connectionRead c len recv

-- read_count is reset when a new buffer is made.
def readOffset (s : Mp3State) : Nat := if s.readData.isSome then s.readCount else 0

-- complete_read: fill read_data up to 1400 bytes. The result is true when it is full;
-- none is a write outside the buffer.
def completeRead (c : SourceClient) (s : Mp3State) (recv : Recv) : Option (SourceClient × Mp3State × Bool) :=
  let buf := s.readData.getD (List.replicate refbufSize 0)
  let count := readOffset s
  match clientReadBytes c (refbufSize-count) recv with
  | (c,none) => some (c,{s with readData := if c.error then none else some buf,readCount := count},false)
  | (c,some bytes) => (memcpy buf count bytes).map fun buf =>
    let count := count+bytes.length
    if count < refbufSize then
      (c,{s with readData := if count = 0 then none else some buf,readCount := count},false)
    else (c,{s with readData := some buf,readCount := count},true)

-- A refbuf on its way to the stream queue.
structure StreamBuf where
  data : List UInt8
  associated : List UInt8
  syncPoint : Bool
deriving DecidableEq,Repr

-- What a get_buffer call leaves: source->running, the client, the plugin and its result.
structure Got where
  running : Bool
  client : SourceClient
  mp3 : Mp3State
  refbuf : Option StreamBuf
deriving DecidableEq,Repr

def takeTitle (s : Mp3State) : Option Mp3State :=
  if s.updateMetadata then (mp3SetTitle s).map fun s => {s with updateMetadata := false} else some s

def mp3GetNoMeta (c : SourceClient) (s : Mp3State) (recv : Recv) : Option Got :=
  (completeRead c s recv).bind fun
  | (c,s,false) => some ⟨true,c,s,none⟩
  | (c,s,true) => (takeTitle {s with readData := none}).map fun t =>
    ⟨true,c,t,some ⟨s.readData.getD [],t.metadata,true⟩⟩

-- The locals of mp3_get_filter_meta's loop. `src` is an offset into refbuf->data.
structure Filter where
  data : List UInt8
  src : Nat
  bytes : Nat
  len : Nat
  mp3 : Mp3State
deriving DecidableEq,Repr

inductive Outcome where
  | again (f : Filter)
  | stop (f : Filter)
  | reject (mp3 : Mp3State)
deriving DecidableEq,Repr

-- build_metadata_len == 0 says that the byte at src is a length byte.
def beginBlock (f : Filter) : Option Mp3State :=
  let s := f.mp3
  if s.buildMetadataLen = 0 then
    f.data[f.src]?.map fun k => {s with
      buildMetadata := List.replicate buildMetadataSize 0,buildMetadataOffset := 0,buildMetadataLen := 1+k.toNat*16}
  else some s

-- The block just completed becomes the current metadata if it has text and the text
-- is new; none is a block in another format.
def assignMetadata (s : Mp3State) : Option Mp3State :=
  if s.buildMetadataLen > 1 ∧ cstr (s.buildMetadata.drop 1) ≠ cstr (s.metadata.drop 1) then
    let block := s.buildMetadata.take s.buildMetadataLen
    if titleMark.isPrefixOf (block.drop 1) then
      some {s with metadata := block,inlineUrl := strstr urlMark (cstr (block.drop 1))}
    else none
  else some s

-- The part of the loop body that works on a metadata block.
def metadataStep (f : Filter) (s : Mp3State) : Option Outcome :=
  let remaining := s.buildMetadataLen-s.buildMetadataOffset
  if f.bytes < remaining then
    (slice f.data f.src f.bytes).bind fun part =>
    (memcpy s.buildMetadata s.buildMetadataOffset part).map fun build =>
      .stop {f with mp3 := {s with buildMetadata := build,buildMetadataOffset := s.buildMetadataOffset+f.bytes}}
  else
    -- the last byte is left out so that a NUL ends the text
    (slice f.data f.src (remaining-1)).bind fun part =>
    (memcpy s.buildMetadata s.buildMetadataOffset part).bind fun build =>
    (memmove f.data f.src (f.src+remaining) (f.bytes-remaining)).map fun data =>
      match assignMetadata {s with buildMetadata := build} with
      | none => .reject {s with buildMetadata := build}
      | some s => .again {f with data := data,bytes := f.bytes-remaining,mp3 := {s with offset := 0,buildMetadataLen := 0}}

-- One pass of the loop body, for bytes > 0; none is an access outside a buffer. The
-- differences are unsigned in the source and never negative in a run.
def filterStep (f : Filter) : Option Outcome :=
  let s := f.mp3
  let mp3Block := s.inlineMetadataInterval-s.offset
  if f.bytes ≤ mp3Block then
    some (.stop {f with len := f.len+f.bytes,mp3 := {s with offset := s.offset+f.bytes}})
  else if mp3Block ≠ 0 then
    some (.again {f with src := f.src+mp3Block,bytes := f.bytes-mp3Block,len := f.len+mp3Block
                         mp3 := {s with offset := s.offset+mp3Block}})
  else (beginBlock f).bind (metadataStep f)

-- The loop; `error` is the return that ends the stream. none is also the end of the fuel.
def filterLoop : Nat → Filter → Option (Except Mp3State Filter)
  | 0,_ => none
  | fuel+1,f =>
    if f.bytes = 0 then some (.ok f) else
    (filterStep f).bind fun
    | .again g => filterLoop fuel g
    | .stop g => some (.ok g)
    | .reject s => some (.error s)

-- What mp3_get_filter_meta returns after its loop: data that was only metadata is no refbuf.
def filtered (c : SourceClient) : Except Mp3State Filter → Got
  | .ok f => ⟨true,c,f.mp3,if f.len = 0 then none else some ⟨f.data.take f.len,f.mp3.metadata,true⟩⟩
  | .error s => ⟨false,c,s,none⟩

-- mp3_get_filter_meta once a read is complete.
def filterRead (c : SourceClient) (s : Mp3State) : Option Got :=
  (takeTitle {s with readData := none}).bind fun t =>
  (filterLoop (t.readCount+1) ⟨s.readData.getD [],0,t.readCount,0,t⟩).map (filtered c)

def mp3GetFilterMeta (c : SourceClient) (s : Mp3State) (recv : Recv) : Option Got :=
  (completeRead c s recv).bind fun
  | (c,s,false) => some ⟨true,c,s,none⟩
  | (c,s,true) => filterRead c s

-- plugin->get_buffer, as format_mp3_get_plugin sets it.
def getBuffer (c : SourceClient) (s : Mp3State) (recv : Recv) : Option Got :=
  if s.inlineMetadataInterval > 0 then mp3GetFilterMeta c s recv else mp3GetNoMeta c s recv

end Icecast.Mp3
