import Icecast.Lib.Transition
import Icecast.RequestFraming

namespace Icecast.SourceHandover
open Bytes Transition Terminator RequestFraming

-- refbuf_t, the `len` bytes of its data and its associated buffer.
structure Refbuf where
  data : List UInt8
  associated : Option (List UInt8)
deriving DecidableEq

-- Where the client is: with the file serving thread, or read by the source's format plugin.
inductive Phase where
  | serving | streaming
deriving DecidableEq

-- The client of a source: `unread` is what its peer sent and nobody read yet, `sent` what
-- went to the peer, `got` what client_read_bytes returned so far.
structure Client where
  refbuf : Option Refbuf
  pos : Nat
  unread : List UInt8
  sent : List UInt8
  got : List UInt8
  phase : Phase
deriving DecidableEq

inductive AuthStyle where
  | icecast | shoutcast
deriving DecidableEq

def okResponse : List UInt8 := ascii "HTTP/1.0 200 OK\r\n\r\n"

def sourceClientCallback (c : Client) :
    Client := {c with refbuf := c.refbuf.bind fun b => b.associated.map (⟨·,none⟩),phase := .streaming}

-- source_startup when the source is free and complete
def sourceStartup (c : Client) : AuthStyle → Client
  | .shoutcast => sourceClientCallback c
  | .icecast => {c with refbuf := some ⟨okResponse,c.refbuf.map (·.data)⟩,phase := .serving}

-- The client of a request that was framed, as the handler leaves it.
def clientOf (f : Framed) : Client := ⟨some ⟨f.left,none⟩,0,f.unread,[],[],.serving⟩

-- A turn of the file serving thread; the socket takes at most `room` bytes.
def serveTurn (c : Client) (room : Nat) : Client :=
  match c.refbuf with
  | none => c
  | some b =>
    if c.pos = b.data.length then sourceClientCallback c
    else
      let block := (b.data.drop c.pos).take room
      {c with pos := c.pos+block.length,sent := c.sent++block}

-- client_read_bytes of at most `len` bytes, with `here` bytes at the socket.
def clientReadBytes (c : Client) (len here : Nat) : Client :=
  match c.refbuf with
  | some ⟨b::data,associated⟩ =>
    {c with refbuf := some ⟨(b::data).drop len,associated⟩,got := c.got++(b::data).take len}
  | _ => {c with unread := c.unread.drop (min len here),got := c.got++c.unread.take (min len here)}

inductive Event where
  | turn (room : Nat)
  | read (len here : Nat)
deriving DecidableEq

def next (c : Client) : Event → Option Client
  | .turn room => if c.phase = .serving then some (serveTurn c room) else none
  | .read len here => if c.phase = .streaming then some (clientReadBytes c len here) else none

def Step (c : Client) (event : Event) (d : Client) : Prop := next c event = some d

-- What the client's buffer holds for the format plugin.
def held (c : Client) : List UInt8 :=
  match c.phase with
  | .serving => ((c.refbuf.bind (·.associated))).getD []
  | .streaming => (c.refbuf.map (·.data)).getD []

-- What was returned, what is held and what is unread make up the body, and nothing is
-- returned before the response went out.
structure Delivers (body : List UInt8) (c : Client) : Prop where
  whole : c.got++(held c++c.unread) = body
  response : c.phase = .serving → c.got = [] ∧ ∃ b, c.refbuf = some b ∧ b.data = okResponse ∧ c.pos ≤ b.data.length ∧
    c.sent = okResponse.take c.pos

theorem serveTurn_delivers (delivers : Delivers body c) (serving : c.phase = .serving) :
    Delivers body (serveTurn c room) := by
  obtain ⟨nothing,b,buffer,response,inside,sent⟩ := delivers.response serving
  have whole := delivers.whole
  unfold serveTurn
  rw [buffer]
  dsimp only
  split
  · refine ⟨?_,nofun⟩
    rw [←whole]
    simp only [sourceClientCallback,held,serving,buffer,Option.bind_some]
    cases b.associated <;> rfl
  · refine ⟨?_,fun _ => ⟨nothing,b,rfl,response,?_,?_⟩⟩
    · rw [←whole]
      simp only [held,serving,buffer]
    · simp only [List.length_take,List.length_drop]
      omega
    · dsimp only
      rw [sent,response,List.take_add]
      congr 1
      exact List.prefix_iff_eq_take.mp (List.take_prefix room _)

theorem clientReadBytes_delivers (delivers : Delivers body c) (streaming : c.phase = .streaming) :
    Delivers body (clientReadBytes c len here) := by
  have whole := delivers.whole
  unfold clientReadBytes
  split
  · rename_i b data associated buffer
    refine ⟨?_,fun serving => nomatch streaming.symm.trans serving⟩
    rw [←whole]
    simp only [held,streaming,buffer,Option.map_some,Option.getD_some,List.append_assoc]
    rw [←List.append_assoc (List.take len (b::data)),List.take_append_drop]
  · rename_i empty
    have nothing : held c = [] := by
      unfold held
      rw [streaming]
      dsimp only
      cases buffer : c.refbuf with
      | none => rfl
      | some r =>
        obtain ⟨data,associated⟩ := r
        cases data with
        | nil => rfl
        | cons b data => exact absurd buffer (empty b data associated)
    refine ⟨?_,fun serving => nomatch streaming.symm.trans serving⟩
    have same : held {c with unread := c.unread.drop (min len here),got := c.got++c.unread.take (min len here)} = held c := rfl
    rw [same,nothing,←whole,nothing]
    simp

theorem step_delivers (delivers : Delivers body c) (step : Step c event d) : Delivers body d := by
  unfold Step next at step
  cases event with
  | turn room =>
    dsimp only at step
    split at step
    · cases step
      exact serveTurn_delivers delivers ‹_›
    · cases step
  | read len here =>
    dsimp only at step
    split at step
    · cases step
      exact clientReadBytes_delivers delivers ‹_›
    · cases step

theorem startup_icecast (f : Framed) : Delivers (f.left++f.unread) (sourceStartup (clientOf f) .icecast) :=
  ⟨rfl,fun _ => ⟨rfl,_,rfl,rfl,Nat.zero_le _,rfl⟩⟩

theorem startup_shoutcast (f : Framed) : Delivers f.unread (sourceStartup (clientOf f) .shoutcast) := ⟨rfl,nofun⟩

-- The bytes the reads had taken when the request was framed, and the end of the header block
-- in them.
def readWith (f : Framed) : List UInt8 := f.header++f.left

def headerEnd (f : Framed) : Option Nat := firstEnd terminators (cstr (readWith f))

-- What the peer sent behind the header block.
def bodyOf (f : Framed) : List UInt8 := (readWith f++f.unread).drop ((headerEnd f).getD 0)

theorem accepted_headers (accepted : handleConnection port node = .accepted parser) : node.shoutcast ≠ 1 := by
  intro password
  unfold handleConnection handleShoutcastCompatible at accepted
  rw [if_pos (by omega)] at accepted
  dsimp only at accepted
  rw [if_pos password] at accepted
  split at accepted
  · cases accepted
  · split at accepted
    · cases accepted
    · cases accepted

theorem framed_search (framed : run port cuts i node chunk rest = some f) :
    ∃ start, search terminators (cstr (readWith f)) = some (start,f.header.length) := by
  induction rest generalizing i node chunk with
  | nil => cases framed
  | cons c rest ih =>
    rw [run] at framed
    dsimp only at framed
    split at framed
    · rw [readNode_pass] at framed
      cases found : search (kindsOf node) (cstr (node.data++(chunk++[c]))) with
      | none =>
        simp only [found] at framed
        rw [if_neg (by decide)] at framed
        split at framed
        · cases framed
        · exact ih framed
      | some split =>
        simp only [found,if_true] at framed
        split at framed
        · exact ih framed
        · rename_i parser accepted
          have passed := accepted_headers accepted
          have headers : node.shoutcast ≠ 1 := passed
          cases framed
          rw [kindsOf,if_neg headers] at found
          obtain ⟨_,_,_,_,_,inside,_⟩ := search_some (search_whole found)
          have shorter := (List.takeWhile_prefix (p := (· ≠ (0 : UInt8))) (l := node.data++(chunk++[c]))).length_le
          refine ⟨split.1,?_⟩
          simp only [readWith,if_neg headers,List.take_append_drop,List.length_take]
          rw [Nat.min_eq_left (Nat.le_trans inside shorter)]
          exact found
        · cases framed
    · exact ih framed

theorem framed_end (framed : run port cuts i node chunk rest = some f) :
    ∃ e, headerEnd f = some e ∧ e ≤ f.header.length ∧
    (Tidy terminators (cstr (readWith f)) ↔ e = f.header.length) := by
  obtain ⟨start,found⟩ := framed_search framed
  have whole := search_whole found
  unfold headerEnd
  cases first : firstEnd terminators (cstr (readWith f)) with
  | none =>
    rw [search_never first] at whole
    cases whole
  | some e =>
    have later : e ≤ f.header.length := search_later first whole
    refine ⟨e,rfl,later,fun tidy => ?_,?_⟩
    · obtain ⟨_,there,_⟩ := tidy.search first (firstEnd_some first).1
      cases whole.symm.trans there
      rfl
    · rintro rfl
      exact tidy_of_search first found

theorem runs_delivers (path : Runs Step c events d) (delivers : Delivers body c) : Delivers body d :=
  path.preserves (fun kept step => step_delivers kept step) delivers

theorem bodyOf_tidy (framed : run port cuts i node chunk rest = some f) (tidy : Tidy terminators (cstr (readWith f))) :
    bodyOf f = f.left++f.unread := by
  obtain ⟨e,ends,_,same⟩ := framed_end framed
  rw [bodyOf,ends,Option.getD_some,same.mp tidy,readWith,List.append_assoc,List.drop_left]

-- What the format plugin reads of a source's stream is its body, whatever the reads of the
-- login, the writes of the response and the plugin's reads are, exactly when no later end of a
-- header block was taken for the first and the login is not a shoutcast one with stream data
-- behind the headers in the buffer.
theorem handover (framed : run port cuts i node chunk rest = some f) (style : AuthStyle) :
    (∀ events c, Runs Step (sourceStartup (clientOf f) style) events c → c.got++(held c++c.unread) = bodyOf f) ↔
      Tidy terminators (cstr (readWith f)) ∧ (style = .icecast ∨ f.left = []) := by
  obtain ⟨e,ends,later,same⟩ := framed_end framed
  constructor
  · intro delivered
    have length : (bodyOf f).length = f.header.length+f.left.length+f.unread.length-e := by
      rw [bodyOf,ends,Option.getD_some,List.length_drop,readWith,List.length_append,List.length_append]
    cases style with
    | icecast =>
      have start : f.left++f.unread = bodyOf f := delivered [] _ .nil
      rw [←start,List.length_append] at length
      exact ⟨same.mpr (by omega),.inl rfl⟩
    | shoutcast =>
      have start : f.unread = bodyOf f := delivered [] _ .nil
      rw [←start] at length
      exact ⟨same.mpr (by omega),.inr (List.length_eq_zero_iff.mp (by omega))⟩
  · rintro ⟨tidy,whole⟩ events c path
    rw [bodyOf_tidy framed tidy]
    cases style with
    | icecast => exact (runs_delivers path (startup_icecast f)).whole
    | shoutcast =>
      have empty : f.left = [] := whole.resolve_left nofun
      rw [empty]
      exact (runs_delivers path (startup_shoutcast f)).whole

def liveStream : List UInt8 := ascii "SOURCE /live HTTP/1.0\r\n\r\nOggS\n\nmore"

theorem handover_live : ∃ f, run hackmePort (fun i => i = 30) 0 httpNode [] liveStream = some f ∧
    ∀ events c, Runs Step (sourceStartup (clientOf f) .icecast) events c →
    c.got++(held c++c.unread) = ascii "OggS\n\nmore" := by
  have ran : (run hackmePort (fun i => i = 30) 0 httpNode [] liveStream).map
      (fun f => (decide (Tidy terminators (cstr (readWith f))),bodyOf f)) =
        some (true,ascii "OggS\n\nmore") := by decide +kernel
  obtain ⟨f,framed,values⟩ := Option.map_eq_some_iff.mp ran
  have tidy : Tidy terminators (cstr (readWith f)) := of_decide_eq_true (congrArg (·.1) values)
  have body : bodyOf f = ascii "OggS\n\nmore" := congrArg (·.2) values
  exact ⟨f,framed,fun events c path => (((handover framed .icecast).mpr ⟨tidy,.inl rfl⟩) events c path).trans body⟩

-- A shoutcast login that sends its headers and the start of its stream at once.
def icyStream : List UInt8 := ascii "hackme\r\nicy-name:x\r\n\r\nMP3DATA"

theorem shoutcast_body_lost : ∃ f, run hackmePort (fun i => i = 7) 0 shoutcastNode [] icyStream = some f ∧
    bodyOf f = ascii "MP3DATA" ∧
    (sourceStartup (clientOf f) .shoutcast).phase = .streaming ∧ held (sourceStartup (clientOf f) .shoutcast) = [] ∧
    (sourceStartup (clientOf f) .shoutcast).unread = [] := by
  have ran : (run hackmePort (fun i => i = 7) 0 shoutcastNode [] icyStream).map (fun f => (bodyOf f,
    f.unread)) = some (ascii "MP3DATA",[]) := by
    decide +kernel
  obtain ⟨f,framed,values⟩ := Option.map_eq_some_iff.mp ran
  exact ⟨f,framed,congrArg (·.1) values,rfl,rfl,congrArg (·.2) values⟩

end Icecast.SourceHandover
