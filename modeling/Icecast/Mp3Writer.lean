import Icecast.Lib.IcyFormat
import Icecast.SourceRuns
import Icecast.Mp3State

namespace Icecast.Mp3

-- A metadata refbuf: the address a client remembers it by, and its data, a length byte
-- and that many units of sixteen bytes.
structure MetaBuf where
  addr : Nat
  data : List UInt8
  whole : IcyFormat.whole data = true
deriving DecidableEq

-- mp3_client_data
structure Mp3ClientData where
  interval : UInt32
  metadataOffset : Nat
  sinceMetaBlock : UInt32
  inMetadata : Bool
  associated : Option Nat
deriving DecidableEq,Repr

-- format_mp3_create_client_data
def Mp3ClientData.create (interval : UInt32) : Mp3ClientData := ⟨interval,0,0,false,none⟩

-- What is left of a metadata buffer at metadata_offset; none is a pointer behind its end.
def leftFrom (metadata : List UInt8) (offset : Nat) : Option (List UInt8) :=
  if offset ≤ metadata.length then some (metadata.drop offset) else none

-- The buffer send_stream_metadata hands to the socket.
def metadataLeft (d : Mp3ClientData) : Option MetaBuf → Option (List UInt8)
  | some buf => if d.associated ≠ some buf.addr then leftFrom buf.data d.metadataOffset else some [0]
  | none => leftFrom blankMetadata d.metadataOffset

def sendStreamMetadata (d : Mp3ClientData) (associated : Option MetaBuf) (send : Send) :
    Option (Mp3ClientData × Sent) :=
  (metadataLeft d associated).map fun metadata =>
    let out := clientSendBytes metadata send
    if out.ret = metadata.length then
      ({d with associated := associated.map (·.addr),metadataOffset := 0,inMetadata := false,sinceMetaBlock := 0},out)
    else ({d with metadataOffset := d.metadataOffset+out.ret.toNat,inMetadata := true},{out with ret := max out.ret 0})

-- The locals of format_mp3_write_buf_to_client and what it has done to the client.
structure Writing where
  data : Mp3ClientData
  pos : Nat
  error : Bool
  bytes : List UInt8
  ret : Int
  written : Int
deriving DecidableEq,Repr

def Writing.metadata (w : Writing) (associated : Option MetaBuf) (send : Send) : Option Writing :=
  (sendStreamMetadata w.data associated send).map fun (data,out) =>
    {w with data := data,error := w.error || out.error,bytes := w.bytes++out.bytes,ret := out.ret}

def Writing.audio (w : Writing) (buf : List UInt8) (send : Send) : Writing :=
  let out := clientSendBytes buf send
  {w with
    data := {w.data with sinceMetaBlock := w.data.sinceMetaBlock+UInt32.ofNat out.ret.toNat}
    pos := w.pos+out.ret.toNat,error := w.error || out.error,bytes := w.bytes++out.bytes,ret := out.ret}

-- written += ret; ret is always set again before it is read.
def Writing.count (w : Writing) : Writing := {w with written := w.written+w.ret,ret := 0}

-- What follows the loop.
def Writing.done (w : Writing) : Written Mp3ClientData :=
  ⟨if w.ret > 0 then w.written+w.ret else w.written,w.pos,w.error,w.data,w.bytes⟩

-- Sends mp3 unless there is none. The result is false where the source leaves the loop;
-- the lengths come from ints, so its casts to int change nothing.
def Writing.mp3 (w : Writing) (buf : List UInt8) (send : Send) : Writing × Bool :=
  if buf ≠ [] then
    let w := w.audio buf send
    if w.ret < buf.length then (w,false) else (w.count,true)
  else (w,true)

-- The loop body from the check for a due block on, for a client with an interval.
def writeInterval (associated : Option MetaBuf) (w : Writing) (buf : List UInt8)
    (sends : Nat → Send) : Option Writing :=
  let remaining := (w.data.interval-w.data.sinceMetaBlock).toNat
  if remaining ≤ buf.length then
    -- leading up to the metadata block
    match w.mp3 (buf.take remaining) (sends 1) with
    | (w,false) => some w
    | (w,true) =>
      (w.metadata associated (sends 2)).map fun w =>
        if w.data.inMetadata then w else
        -- limit how much mp3 is sent with small intervals
        (w.count.mp3 ((buf.drop remaining).take w.data.interval.toNat) (sends 3)).1
  else some (w.mp3 buf (sends 3)).1

def formatMp3WriteBufToClient (refbuf : View MetaBuf) (pos : Nat) (d : Mp3ClientData) (sends : Nat → Send) :
    Option (Written Mp3ClientData) :=
  if refbuf.data.length < pos then none else
  let w : Writing := ⟨d,pos,false,[],0,0⟩
  -- any unwritten metadata first
  (if d.inMetadata then w.metadata refbuf.associated (sends 0) else some w).bind fun w =>
  if w.data.inMetadata then some w.done else
  let w := w.count
  let buf := refbuf.data.drop pos
  if w.data.interval ≠ 0 then (writeInterval refbuf.associated w buf sends).map (·.done)
  else some (w.mp3 buf (sends 3)).1.done

@[simp] theorem count_data (w : Writing) : w.count.data = w.data := rfl
@[simp] theorem count_bytes (w : Writing) : w.count.bytes = w.bytes := rfl
@[simp] theorem count_pos (w : Writing) : w.count.pos = w.pos := rfl
@[simp] theorem done_formatData (w : Writing) : w.done.formatData = w.data := rfl
@[simp] theorem done_bytes (w : Writing) : w.done.bytes = w.bytes := rfl
@[simp] theorem done_pos (w : Writing) : w.done.pos = w.pos := rfl

theorem mp3_spec (w : Writing) (buf : List UInt8) (send : Send) :
    ∃ k, k ≤ buf.length ∧ (w.mp3 buf send).1.bytes = w.bytes++buf.take k ∧ (w.mp3 buf send).1.pos = w.pos+k ∧
      (w.mp3 buf send).1.data = {w.data with sinceMetaBlock := w.data.sinceMetaBlock+UInt32.ofNat k} ∧
      ((w.mp3 buf send).2 = true → k = buf.length) := by
  unfold Writing.mp3
  split
  · obtain ⟨front,most,length⟩ := send_bytes_spec buf send
    have whole : (clientSendBytes buf send).ret.toNat ≤ buf.length := by omega
    refine ⟨(clientSendBytes buf send).ret.toNat,whole,?_⟩
    dsimp only
    split
    · exact ⟨by rw [←front]; rfl,rfl,rfl,nofun⟩
    · rename_i all
      refine ⟨by rw [←front]; rfl,rfl,rfl,fun _ => ?_⟩
      simp only [Writing.audio] at all
      omega
  · rename_i empty
    rw [not_not.mp empty]
    exact ⟨0,Nat.le_refl _,(List.append_nil _).symm,rfl,
      by rw [show UInt32.ofNat 0 = 0 from rfl,UInt32.add_zero],fun _ => rfl⟩

theorem send_interval (sent : sendStreamMetadata d associated send = some (e,out)) : e.interval = d.interval := by
  obtain ⟨metadata,_,same⟩ := Option.map_eq_some_iff.mp sent
  dsimp only at same
  split at same <;> cases same <;> rfl

-- Metadata is only ever under way to a client with an interval.
def Mp3ClientData.Ok (d : Mp3ClientData) : Prop := d.inMetadata = true → d.interval ≠ 0

theorem metadata_interval (wrote : Writing.metadata w associated send = some v) :
    v.data.interval = w.data.interval := by
  obtain ⟨⟨e,out⟩,sent,same⟩ := Option.map_eq_some_iff.mp wrote
  cases same
  exact send_interval sent

theorem mp3_data (w : Writing) (buf : List UInt8) (send : Send) : (w.mp3 buf send).1.data.interval = w.data.interval ∧
    (w.mp3 buf send).1.data.inMetadata = w.data.inMetadata := by
  obtain ⟨k,_,_,_,data,_⟩ := mp3_spec w buf send
  exact data ▸ ⟨rfl,rfl⟩

theorem writeInterval_interval (wrote : writeInterval associated w buf sends = some v) :
    v.data.interval = w.data.interval := by
  unfold writeInterval at wrote
  dsimp only at wrote
  split at wrote
  · have first := (mp3_data w (buf.take (w.data.interval-w.data.sinceMetaBlock).toNat) (sends 1)).1
    split at wrote
    · rename_i lead
      cases Option.some.inj wrote
      rw [lead] at first
      exact first
    · rename_i lead
      obtain ⟨u,sent,same⟩ := Option.map_eq_some_iff.mp wrote
      rw [lead] at first
      have middle := metadata_interval sent
      split at same
      · exact same ▸ middle.trans first
      · rw [←same,(mp3_data _ _ _).1]
        exact middle.trans first
  · cases Option.some.inj wrote
    exact (mp3_data w buf (sends 3)).1

theorem write_ok (wrote : formatMp3WriteBufToClient refbuf pos d sends = some w) (ok : d.Ok) :
    w.formatData.interval = d.interval ∧ w.formatData.Ok := by
  unfold formatMp3WriteBufToClient at wrote
  split at wrote
  · cases wrote
  obtain ⟨v,unsent,rest⟩ := Option.bind_eq_some_iff.mp wrote
  have same : v.data.interval = d.interval := by
    split at unsent
    · exact metadata_interval unsent
    · cases Option.some.inj unsent
      rfl
  split at rest
  · rename_i still
    cases Option.some.inj rest
    refine ⟨same,fun _ => ?_⟩
    rw [done_formatData,same]
    split at unsent
    · rename_i started
      exact ok started
    · cases Option.some.inj unsent
      exact ok still
  · rename_i finished
    dsimp only at rest
    split at rest
    · rename_i interval
      obtain ⟨u,wrote,done⟩ := Option.map_eq_some_iff.mp rest
      have last := writeInterval_interval wrote
      rw [←done]
      exact ⟨last.trans same,fun _ => last ▸ interval⟩
    · cases Option.some.inj rest
      obtain ⟨interval,open_⟩ := mp3_data v.count (refbuf.data.drop pos) (sends 3)
      refine ⟨interval.trans same,fun started => absurd (open_.symm.trans started) finished⟩

-- format_data: NULL, the client data of the mp3 plugin, or another plugin's.
inductive ClientData (δ : Type v) where
  | null
  | mp3 (data : {d : Mp3ClientData // d.Ok})
  | other (data : δ)

def Mp3ClientData.fresh (interval : UInt32) : {d : Mp3ClientData // d.Ok} := ⟨.create interval,nofun⟩

-- write_buf_to_client of the mp3 plugin; none also for client data that is not its own.
def writeMp3Client (refbuf : View MetaBuf) (pos : Nat) (sends : Nat → Send) : ClientData δ →
    Option (Written (ClientData δ))
  | .mp3 d => (formatMp3WriteBufToClient refbuf pos d.1 sends).pmap
      (fun w ok => ⟨w.ret,w.pos,w.error,.mp3 ⟨w.formatData,ok⟩,w.bytes⟩) fun _ wrote => (write_ok wrote d.2).2
  | _ => none

def mp3Plugin : Plugin MetaBuf (ClientData δ) :=
  { type := .generic, writeBufToClient := fun refbuf pos data sends => writeMp3Client refbuf pos sends data,
    handsOver := fun _ => false
    opens := fun _ given => absurd given Bool.false_ne_true }

theorem writeMp3_inv {data : ClientData δ} (wrote : writeMp3Client refbuf pos sends data = some w) :
    ∃ d v ok, data = .mp3 d ∧ formatMp3WriteBufToClient refbuf pos d.1 sends = some v ∧
      w = ⟨v.ret,v.pos,v.error,.mp3 ⟨v.formatData,ok⟩,v.bytes⟩ := by
  cases data with
  | mp3 d =>
    unfold writeMp3Client at wrote
    obtain ⟨v,ok,written,same⟩ := Option.pmap_eq_some_iff.mp wrote
    exact ⟨d,v,ok,rfl,written,same⟩
  | null => cases wrote
  | other _ => cases wrote

theorem writeMp3_eq (d : {d : Mp3ClientData // d.Ok}) (wrote : formatMp3WriteBufToClient refbuf pos d.1 sends = some w)
    (ok : w.formatData.Ok) : writeMp3Client (δ := δ) refbuf pos sends (.mp3 d) =
      some ⟨w.ret,w.pos,w.error,.mp3 ⟨w.formatData,ok⟩,w.bytes⟩ := by
  unfold writeMp3Client
  exact Option.pmap_eq_some_iff.mpr ⟨w,ok,wrote,rfl⟩

theorem write_plain (wrote : formatMp3WriteBufToClient refbuf pos d sends = some w) (ok : d.Ok)
    (interval : d.interval = 0) :
    w.bytes <+: refbuf.data.drop pos ∧ w.pos = pos+w.bytes.length := by
  have idle : d.inMetadata = false := by
    cases started : d.inMetadata with
    | false => rfl
    | true => exact absurd interval (ok started)
  unfold formatMp3WriteBufToClient at wrote
  split at wrote
  · cases wrote
  simp only [idle,Bool.false_eq_true,if_false,Option.bind_some,count_data,interval,ne_eq,not_true_eq_false] at wrote
  cases Option.some.inj wrote
  obtain ⟨k,short,bytes,place,_⟩ := mp3_spec (Writing.count ⟨d,pos,false,[],0,0⟩) (refbuf.data.drop pos) (sends 3)
  rw [done_bytes,done_pos,bytes,place,count_bytes,count_pos,List.nil_append]
  refine ⟨List.take_prefix _ _,?_⟩
  rw [List.length_take,Nat.min_eq_left short]

-- The listeners whose queue data goes out by format_generic_write_to_client, at once or when
-- their plugin hands them over, or by the mp3 writer without an interval.
def Verbatim (plugins : Nat → Plugin MetaBuf (ClientData δ)) (c : Listener (ClientData δ)) : Prop :=
  c.writeToClient = none ∨ (∃ f d, c.writeToClient = some f ∧ (plugins f).handsOver d = true) ∨
    ∃ f d, c.writeToClient = some f ∧ plugins f = mp3Plugin ∧ c.formatData = .mp3 d ∧ d.1.interval = 0

theorem mp3_plain : PlainWrite (mp3Plugin (δ := δ)).writeBufToClient (fun data => ∃ d, data = .mp3 d ∧
    d.1.interval = 0) := by
  intro view pos data sends w wrote
  obtain ⟨d,v,ok,rfl,written,rfl⟩ := writeMp3_inv wrote
  have same := (write_ok written d.2).1
  refine ⟨⟨?_,?_⟩,?_⟩
  · rintro ⟨e,shape,zero⟩
    cases shape
    exact ⟨d,rfl,same.symm.trans zero⟩
  · rintro ⟨e,shape,zero⟩
    cases shape
    exact ⟨_,rfl,same.trans zero⟩
  · rintro ⟨e,shape,zero⟩ _
    cases shape
    exact write_plain written d.2 zero

theorem Verbatim.plain {plugins : Nat → Plugin MetaBuf (ClientData δ)} {c : Listener (ClientData δ)}
    (verbatim : Verbatim plugins c) :
    Plain plugins c := by
  rcases verbatim with generic | ⟨f,d,write,given⟩ | ⟨f,d,write,plugin,data,interval⟩
  · exact .generic generic
  · exact .opening write given
  · refine ⟨fun data => ∃ d, data = .mp3 d ∧ d.1.interval = 0,?_,d,data,interval⟩
    rw [write,writeFunction,plugin]
    exact mp3_plain

end Icecast.Mp3
