import Icecast.Base64
import Icecast.Lib.Transition
import Icecast.RelayUpdate
import Icecast.SocketReaders
import Icecast.StreamList

namespace Icecast.MasterList
open Bytes SocketReaders StreamList RelayUpdate Transition
open Httpp (cr lf)
open Stats (Trees)
open Base64 (utilBase64Encode)

-- The settings of ice_config_t that update_from_master reads.
structure Config where
  master_server : Option Text
  master_server_port : Int
  master_username : Text
  master_password : Option Text
  on_demand : Int

-- xmlURI, where the code reads it.
structure Uri where
  server : Option Text
  port : Int
  path : Option Text
deriving DecidableEq

-- The strings of a relay_server as RelayUpdate has them.
def str (text : Text) : String := String.ofList (text.map fun c => Char.ofNat c.toNat)

def listRequest (username password : Text) : Text :=
  ascii "GET /admin/streamlist.txt HTTP/1.0\r\nAuthorization: Basic "++utilBase64Encode
    (username++ascii ":"++password)++
    ascii "\r\n\r\n"

-- strncmp with "HTTP/1.0 200" and "HTTP/1.1 200"
def accepts (buf : List UInt8) : Bool := buf.take 12 = ascii "HTTP/1.0 200" ∨ buf.take 12 = ascii "HTTP/1.1 200"

-- sizeof (buf)
def bufSize : Nat := 256

-- The loop up to an empty line: buf and what is left of the stream. The number bounds the calls.
def skipHeader : Nat → List UInt8 → List Recv → Option (List UInt8 × List Recv)
  | 0,_,_ => none
  | calls+1,buf,stream => (sockReadLine bufSize buf stream).bind fun line =>
    if line.ret then
      if cstr line.buff = [] then some (line.buff,line.rest) else skipHeader calls line.buff line.rest
    else some (line.buff,line.rest)

section
variable (xmlParseURI : Text → Option Uri)

-- The relay of one entry of the list; none where strdup is given no path.
def relayOf (master : Text) (config : Config) (uri : Uri) : Option RelayServer := uri.path.map fun path => {
  server := str (uri.server.getD master)
  port := if uri.server.isSome then if uri.port = 0 then 80 else uri.port else config.master_server_port
  mount := str path
  localmount := str path
  mp3metadata := 1
  on_demand := config.on_demand
  username := none
  password := none
  bind := none
  source := none
  running := false
  cleanup := false
  start := 0
  thread := none }

-- The loop over the entries: new_relays, with the last one first.
def readRelays (master : Text) (config : Config) : Nat → List UInt8 → List Recv → List RelayServer →
    Option (List RelayServer)
  | 0,_,_,_ => none
  | calls+1,buf,stream,new_relays => (sockReadLine bufSize buf stream).bind fun line =>
    if line.ret then
      if cstr line.buff = [] then readRelays master config calls line.buff line.rest new_relays
      else match xmlParseURI (cstr line.buff) with
      | none => readRelays master config calls line.buff line.rest new_relays
      | some uri => (relayOf master config uri).bind fun r =>
        readRelays master config calls line.buff line.rest (r::new_relays)
    else some new_relays

-- What is read from the master: none inside where it rejected the request.
def readList (master : Text) (config : Config) (buf : List UInt8) (stream : List Recv) :
    Option (Option (List RelayServer)) :=
  (sockReadLine bufSize buf stream).bind fun line =>
    if line.ret && accepts line.buff then
      (skipHeader (stream.length+1) line.buff line.rest).bind fun (buf,rest) =>
        (readRelays xmlParseURI master config (stream.length+1) buf rest []).map some
    else some none

structure Polled where
  ret : Bool
  request : Option Text
  master_relays : List Relay
  cleanup_relays : List Relay

-- update_from_master up to relay_check_streams: `reply` is what the connection gives, none where
-- sock_connect_wto fails, and none of the result is a write outside of buf or a NULL string.
def updateFromMaster (config : Config) (fresh : Nat) (master_relays : List Relay) (buf : List UInt8)
    (reply : Option (List Recv)) : Option Polled :=
  match config.master_password,config.master_server with
  | some password,some master =>
    if config.master_server_port = 0 then some ⟨false,none,master_relays,[]⟩
    else match reply with
    | none => some ⟨true,none,master_relays,[]⟩
    | some stream => (readList xmlParseURI master config buf stream).map fun list =>
      let request := some (listRequest config.master_username password)
      match list with
      | none => ⟨true,request,master_relays,[]⟩
      | some new_relays =>
        let sets := updateRelays fresh master_relays new_relays
        ⟨true,request,sets.1,sets.2⟩
  | _,_ => some ⟨false,none,master_relays,[]⟩

end

-- The end of a connection: no byte comes any more.
def Silent (stream : List Recv) : Prop := ∀ c, Recv.byte c ∉ stream

-- The lines of which all has arrived among the first bytes of their text.
def arrived : Nat → List Text → List Text
  | _,[] => []
  | cut,line::lines => if (entryLine line).length ≤ cut then line::arrived (cut-(entryLine line).length) lines else []

-- A line that the buffer holds.
structure Short (line : Text) : Prop where
  width : line.length ≤ 255
  plain : cr ∉ line ∧ lf ∉ line ∧ (0 : UInt8) ∉ line

theorem length_entryLine (line : Text) : (entryLine line).length = line.length+2 := List.length_append

theorem arrived_prefix (cut : Nat) (lines : List Text) : arrived cut lines <+: lines := by
  induction lines generalizing cut with
  | nil => exact List.prefix_refl []
  | cons line lines ih =>
    unfold arrived
    split
    · exact List.cons_prefix_cons.mpr ⟨rfl,ih _⟩
    · exact List.nil_prefix

theorem take_listing (lines : List Text) (short : ∀ line ∈ lines,Short line) (cut : Nat) :
    ∃ part, (listing lines).take cut = listing (arrived cut lines)++part ∧ lf ∉ part ∧ part.length ≤ 256 := by
  induction lines generalizing cut with
  | nil => exact ⟨[],List.take_nil,List.not_mem_nil,Nat.zero_le _⟩
  | cons line lines ih =>
    have parts : listing (line::lines) = entryLine line++listing lines := List.flatMap_cons
    unfold arrived
    split
    · rename_i whole
      obtain ⟨part,took,clean,width⟩ := ih (fun line listed => short line (List.mem_cons_of_mem _ listed))
        (cut-(entryLine line).length)
      refine ⟨part,?_,clean,width⟩
      rw [parts,List.take_append,List.take_of_length_le whole,took,←List.append_assoc]
      rfl
    · rename_i half
      have here := short line List.mem_cons_self
      rw [length_entryLine] at half
      have inside : (listing (line::lines)).take cut = (line++[cr]).take cut := by
        have split : listing (line::lines) = (line++[cr])++(lf::listing lines) := by
          rw [parts,List.append_assoc,entryLine,List.append_assoc]
          rfl
        rw [split,List.take_append_of_le_length]
        rw [List.length_append,List.length_singleton]
        omega
      refine ⟨(line++[cr]).take cut,?_,?_,?_⟩
      · exact inside
      · intro member
        rcases List.mem_append.mp (List.mem_of_mem_take member) with text | last
        · exact here.plain.2.1 text
        · exact absurd (List.mem_singleton.mp last) (by decide)
      · have width := here.width
        rw [List.length_take,List.length_append,List.length_singleton]
        omega

theorem length_stripped (bytes : List UInt8) : (stripped bytes).length ≤ bytes.length := List.length_filter_le _ bytes

theorem readLoop_exact {tail : List UInt8} (text line : List UInt8) (rest : List Recv)
    (whole : text.length+tail.length = len)
    (clean : lf ∉ line) (room : (stripped line).length < tail.length) :
    ∃ rear, (stripped line).length+(rear.length+1) = tail.length ∧
      readLoop len text.length (text++tail) (line.map .byte++.byte lf::rest) =
      some ⟨true,text++stripped line++0::rear,rest⟩ := by
  induction line generalizing text tail with
  | nil =>
    have stops : ¬(lf ≠ lf ∧ text.length < len) := fun inside => inside.1 rfl
    have places : 0 < tail.length := room
    refine ⟨tail.tail,?_,?_⟩
    · rw [List.length_tail,show stripped [] = [] by rfl,List.length_nil]
      omega
    · rw [List.map_nil,List.nil_append,readLoop,if_neg stops,put_append text 0 places,Option.map_some,
        show stripped [] = [] by rfl,List.append_nil,List.append_assoc]
      rfl
  | cons c line ih =>
    have head : c ≠ lf := fun same => clean (same ▸ List.mem_cons_self)
    have parts : stripped (c::line) = stripped [c]++stripped line := List.filter_append [c] line
    rw [parts,List.length_append] at room
    obtain ⟨tail',places,step⟩ := readLoop_step text whole (by omega) head (line.map .byte++.byte lf::rest)
    have whole' : (text++stripped [c]).length+tail'.length = len := by
      rw [List.length_append]
      omega
    obtain ⟨rear,size,read⟩ :=
      ih (text++stripped [c]) whole' (fun member => clean (List.mem_cons_of_mem _ member)) (by omega)
    refine ⟨rear,?_,?_⟩
    · rw [parts,List.length_append]
      omega
    · rw [List.map_cons,List.cons_append,step,read,parts,List.append_assoc text]

theorem readLoop_silent {tail : List UInt8} (text part : List UInt8)
    (whole : text.length+tail.length = len) (clean : lf ∉ part)
    (room : part.length ≤ tail.length) (silent : Silent ending) :
    ∃ buff rest, buff.length = len ∧ Silent rest ∧
      readLoop len text.length (text++tail) (part.map .byte++ending) = some ⟨false,buff,rest⟩ := by
  induction part generalizing text tail with
  | nil =>
    have size : (text++tail).length = len := by
      rw [List.length_append,whole]
    cases ending with
    | nil => exact ⟨_,[],size,silent,rfl⟩
    | cons turn rest =>
      have later : Silent rest := fun c listed => silent c (List.mem_cons_of_mem _ listed)
      cases turn with
      | byte c => exact absurd List.mem_cons_self (silent c)
      | closed => exact ⟨_,rest,size,later,rfl⟩
      | failed => exact ⟨_,rest,size,later,rfl⟩
  | cons c part ih =>
    have head : c ≠ lf := fun same => clean (same ▸ List.mem_cons_self)
    rw [List.length_cons] at room
    obtain ⟨tail',places,step⟩ := readLoop_step text whole (by omega) head (part.map .byte++ending)
    have one : (stripped [c]).length ≤ 1 := length_stripped [c]
    have whole' : (text++stripped [c]).length+tail'.length = len := by
      rw [List.length_append]
      omega
    obtain ⟨buff,rest,size,later,read⟩ :=
      ih (text++stripped [c]) whole' (fun member => clean (List.mem_cons_of_mem _ member)) (by omega)
    refine ⟨buff,rest,size,later,?_⟩
    rw [List.map_cons,List.cons_append,step,read]

-- What is left on the connection: whole lines, a part of one and the end.
def sent (lines : List Text) (part : List UInt8) (ending : List Recv) : List Recv :=
  (listing lines++part).map .byte++ending

theorem sent_cons (line : Text) (lines : List Text) (part : List UInt8) (ending : List Recv) :
    sent (line::lines) part ending = (line++[cr]).map .byte++.byte lf::sent lines part ending := by
  have split : listing (line::lines)++part = (line++[cr])++lf::(listing lines++part) := by
    rw [listing,List.flatMap_cons,entryLine,List.append_assoc,List.append_assoc,List.append_assoc]
    rfl
  rw [sent,split,List.map_append,List.append_assoc,List.map_cons,List.cons_append,sent]

theorem stripped_line (short : Short line) : stripped (line++[cr]) = line := by
  have kept : stripped line = line := List.filter_eq_self.mpr fun c member => decide_eq_true fun same =>
    short.plain.1 (same ▸ member)
  have parts : stripped (line++[cr]) = stripped line++stripped [cr] := List.filter_append line [cr]
  rw [parts,kept,stripped_return]
  exact List.append_nil line

-- One call of sock_read_line: the next line, or 0 at the end.
theorem readLine_line (lines : List Text) (part : List UInt8) (ending : List Recv) (short : Short line)
    (size : buf.length = bufSize) :
    ∃ rear, (line++0::rear).length = bufSize ∧
      sockReadLine bufSize buf (sent (line::lines) part ending) = some ⟨true,line++0::rear,sent lines part ending⟩ := by
  have width := short.width
  have kept := stripped_line short
  have clean : lf ∉ line++[cr] := by
    intro member
    rcases List.mem_append.mp member with text | last
    · exact short.plain.2.1 text
    · exact absurd (List.mem_singleton.mp last) (by decide)
  obtain ⟨rear,whole,read⟩ :=
    readLoop_exact [] (line++[cr]) (sent lines part ending) (show ([] : List UInt8).length+buf.length = bufSize by
    rw [List.length_nil,size,Nat.zero_add]) clean (by rw [kept,size]; exact Nat.lt_succ_of_le width)
  rw [kept] at whole read
  refine ⟨rear,?_,?_⟩
  · rw [List.length_append,List.length_cons,whole,size]
  · rw [sockReadLine_eq (by decide),sent_cons]
    exact read

theorem readLine_end (clean : lf ∉ part) (narrow : part.length ≤ 256) (silent : Silent ending)
    (size : buf.length = bufSize) :
    ∃ buff rest, buff.length = bufSize ∧ Silent rest ∧
    sockReadLine bufSize buf (sent [] part ending) = some ⟨false,buff,rest⟩ := by
  obtain ⟨buff,rest,size,later,read⟩ := readLoop_silent [] part (show ([] : List UInt8).length+buf.length = bufSize by
    rw [List.length_nil,size,Nat.zero_add]) clean (by rw [size]; exact narrow) silent
  refine ⟨buff,rest,size,later,?_⟩
  rw [sockReadLine_eq (by decide)]
  exact read

theorem cstr_line (short : Short line) : cstr (line++0::rear) = line := cstr_stop.trans (cstr_whole short.plain.2.2)

-- The relay of a mount of the master.
def mirror (config : Config) (master : Text) (name : Text) : RelayServer where
  server := str master
  port := config.master_server_port
  mount := str name
  localmount := str name
  mp3metadata := 1
  on_demand := config.on_demand
  username := none
  password := none
  bind := none
  source := none
  running := false
  cleanup := false
  start := 0
  thread := none

-- A name that comes as one line, and that xmlParseURI takes for a path.
structure Listed (xmlParseURI : Text → Option Uri) (name : Text) : Prop where
  short : Short name
  named : name ≠ []
  path : xmlParseURI name = some ⟨none,0,some name⟩

-- The lines the master answers with: its response header and the mounts.
structure Response where
  status : Text
  head : List Text
  names : List Text

def Response.lines (r : Response) : List Text := r.status::(r.head++[]::r.names)

theorem Response.lines_behind (r : Response) : r.lines.drop (r.head.length+2) = r.names := by
  rw [Response.lines,List.drop_succ_cons,List.drop_append,List.drop_eq_nil_of_le (Nat.le_succ _),
    Nat.add_sub_cancel_left]
  rfl

structure Response.Right (xmlParseURI : Text → Option Uri) (r : Response) : Prop where
  ok : accepts r.status = true
  status : Short r.status
  head : ∀ line ∈ r.head,Short line ∧ line ≠ []
  names : ∀ name ∈ r.names,Listed xmlParseURI name

variable {xmlParseURI : Text → Option Uri} {master : Text} {config : Config}

theorem readRelays_lines (names : List Text) (listed : ∀ name ∈ names,Listed xmlParseURI name)
    (enough : names.length < calls)
    (clean : lf ∉ part) (narrow : part.length ≤ 256) (silent : Silent ending) (size : buf.length = bufSize)
    (new_relays : List RelayServer) :
    readRelays xmlParseURI master config calls buf (sent names part ending) new_relays =
      some ((names.map (mirror config master)).reverse++new_relays) := by
  induction names generalizing calls buf new_relays with
  | nil =>
    obtain ⟨buff,rest,_,_,read⟩ := readLine_end clean narrow silent size
    cases calls with
    | zero => exact absurd enough (Nat.not_lt_zero _)
    | succ calls =>
      rw [readRelays,read]
      rfl
  | cons name names ih =>
    obtain ⟨short,named,path⟩ := listed name List.mem_cons_self
    obtain ⟨rear,size',read⟩ := readLine_line names part ending short size
    cases calls with
    | zero => exact absurd enough (Nat.not_lt_zero _)
    | succ calls =>
      have more : names.length < calls := Nat.lt_of_succ_lt_succ enough
      rw [readRelays,read,Option.bind_some,if_pos rfl]
      simp only [cstr_line short,if_neg named,path]
      refine (ih (fun name member => listed name (List.mem_cons_of_mem _ member)) more size'
        (mirror config master name::new_relays)).trans ?_
      rw [List.map_cons,List.reverse_cons,List.append_assoc,List.singleton_append]

theorem short_nil : Short [] := ⟨Nat.zero_le _,List.not_mem_nil,List.not_mem_nil,List.not_mem_nil⟩

theorem skipHeader_lines (calls : Nat) (head names : List Text) (lines : ∀ line ∈ head,Short line ∧ line ≠ [])
    (front : got <+: head++[]::names)
    (enough : got.length < calls) (clean : lf ∉ part) (narrow : part.length ≤ 256) (silent : Silent ending)
    (size : buf.length = bufSize) :
    ∃ buf' part' ending',skipHeader calls buf (sent got part ending) =
    some (buf',sent (got.drop (head.length+1)) part' ending') ∧
      buf'.length = bufSize ∧ lf ∉ part' ∧ part'.length ≤ 256 ∧ Silent ending' := by
  induction head generalizing got calls buf with
  | nil =>
    cases calls with
    | zero => exact absurd enough (Nat.not_lt_zero _)
    | succ calls =>
      rcases List.prefix_cons_iff.mp front with rfl | ⟨rest,rfl,_⟩
      · obtain ⟨buff,rest,size,later,read⟩ := readLine_end clean narrow silent size
        refine ⟨buff,[],rest,?_,size,List.not_mem_nil,Nat.zero_le _,later⟩
        rw [skipHeader,read]
        rfl
      · obtain ⟨rear,size',read⟩ := readLine_line rest part ending short_nil size
        refine ⟨_,part,ending,?_,size',clean,narrow,silent⟩
        rw [skipHeader,read,Option.bind_some,if_pos rfl]
        exact if_pos (cstr_line short_nil)
  | cons line head ih =>
    cases calls with
    | zero => exact absurd enough (Nat.not_lt_zero _)
    | succ calls =>
      rcases List.prefix_cons_iff.mp front with rfl | ⟨rest,rfl,inside⟩
      · obtain ⟨buff,rest,size,later,read⟩ := readLine_end clean narrow silent size
        refine ⟨buff,[],rest,?_,size,List.not_mem_nil,Nat.zero_le _,later⟩
        rw [skipHeader,read,List.drop_nil]
        rfl
      · obtain ⟨short,filled⟩ := lines line List.mem_cons_self
        obtain ⟨rear,size',read⟩ := readLine_line rest part ending short size
        rw [skipHeader,read,Option.bind_some,if_pos rfl]
        simp only [cstr_line short,if_neg filled]
        exact ih _ (fun line member => lines line (List.mem_cons_of_mem _ member)) inside
          (Nat.lt_of_succ_lt_succ enough) size'

theorem length_sent (lines : List Text) (part : List UInt8) (ending : List Recv) :
    lines.length ≤ (sent lines part ending).length := by
  induction lines with
  | nil => exact Nat.zero_le _
  | cons line lines ih =>
    rw [sent_cons,List.length_append,List.length_cons,List.length_cons]
    omega

theorem readList_lines (config : Config) (master : Text) {r : Response} (right : r.Right xmlParseURI)
    (front : got <+: r.lines) (clean : lf ∉ part)
    (narrow : part.length ≤ 256) (silent : Silent ending) (size : buf.length = bufSize) :
    readList xmlParseURI master config buf (sent got part ending) =
      some (if got = [] then none else some ((got.drop (r.head.length+2)).map (mirror config master)).reverse) := by
  rcases List.prefix_cons_iff.mp front with rfl | ⟨rest,rfl,inside⟩
  · obtain ⟨buff,rest,_,_,read⟩ := readLine_end clean narrow silent size
    rw [readList,read]
    rfl
  · obtain ⟨rear,size',read⟩ := readLine_line rest part ending right.status size
    have ok : accepts (r.status++0::rear) = true := by
      have long : 12 ≤ r.status.length := by
        have ok := right.ok
        simp only [accepts,decide_eq_true_eq] at ok
        rcases ok with same | same
        all_goals
          have width := congrArg List.length same
          rw [List.length_take,show (ascii _).length = 12 by rfl] at width
          omega
      rw [accepts,List.take_append_of_le_length long]
      exact right.ok
    have whole := length_sent (r.status::rest) part ending
    rw [List.length_cons] at whole
    obtain ⟨buf',part',ending',skipped,size'',clean',narrow',silent'⟩ :=
      skipHeader_lines ((sent (r.status::rest) part ending).length+1)
      r.head r.names right.head inside (by omega) clean narrow silent size'
    have names : ∀ name ∈ rest.drop (r.head.length+1),Listed xmlParseURI name := by
      intro name member
      have positive := front.drop (r.head.length+2)
      rw [r.lines_behind,List.drop_succ_cons] at positive
      exact right.names name (positive.subset member)
    rw [readList,read,Option.bind_some,ok]
    simp only [Bool.and_true,if_true]
    rw [skipped,Option.bind_some,readRelays_lines _ names _ clean' narrow' silent' size'',
      Option.map_some,List.append_nil,
      if_neg (List.cons_ne_nil _ _),List.drop_succ_cons]
    rw [List.length_drop]
    omega

-- The answer of a master with these stats, of which `cut` bytes arrive before the connection ends.
structure Answer where
  stats : Trees
  status : Text
  head : List Text
  cut : Nat
  ending : List Recv

def Answer.response (a : Answer) : Response := ⟨a.status,a.head,visible a.stats.sources⟩

def Answer.reply (a : Answer) : Option (List Recv) := (statsGetStreams a.stats).map fun chain =>
  ((listing (a.status::(a.head++[[]]))++chain.flatMap Refbuf.text).take a.cut).map .byte++a.ending

-- The master accepts the request, and each of its mounts has a name of its own that is read whole.
structure Answer.Fair (xmlParseURI : Text → Option Uri) (a : Answer) : Prop where
  right : a.response.Right xmlParseURI
  distinct : (visible a.stats.sources).Nodup
  ends : Silent a.ending

-- The mounts that the slave has seen the lines of; none without a status line.
def Answer.seen (a : Answer) : Option (List Text) :=
  let lines := arrived a.cut a.response.lines
  if lines = [] then none else some (lines.drop (a.head.length+2))

-- The slave's master_relays; what is allocated later is not below `fresh`.
structure Slave where
  master_relays : List Relay
  fresh : Nat

-- A poll of the master, which may not be reachable, or anything else that the slave does with its
-- relays.
inductive Event where
  | poll (answer : Option Answer)
  | activity

def Event.Fair (xmlParseURI : Text → Option Uri) : Event → Prop
  | .poll (some a) => a.Fair xmlParseURI
  | _ => True

-- What starting, running and joining a relay leaves of it.
def Touched (before after : Relay) : Prop :=
  after.address = before.address ∧ after.server.toSettings = before.server.toSettings

-- The reply to a poll; none where the master itself fails.
def replyTo : Option Answer → Option (Option (List Recv))
  | none => some none
  | some a => a.reply.map some

inductive Step (xmlParseURI : Text → Option Uri) (config : Config) : Slave → Event → Slave → Prop where
  | poll : buf.length = bufSize → replyTo answer = some reply →
      updateFromMaster xmlParseURI config s.fresh s.master_relays buf reply = some polled →
      Step xmlParseURI config s (.poll answer) ⟨polled.master_relays,s.fresh+polled.master_relays.length⟩
  | activity : List.Forall₂ Touched s.master_relays after → Step xmlParseURI config s .activity ⟨after,s.fresh⟩

-- The mounts of the last list that was accepted.
def view (names : List Text) : Event → List Text
  | .poll (some a) => a.seen.getD names
  | _ => names

structure Enabled (config : Config) (master : Text) : Prop where
  server : config.master_server = some master
  port : config.master_server_port ≠ 0
  password : config.master_password.isSome = true

-- One relay for each name, set up as the master's, and nothing else.
structure Mirrors (config : Config) (master : Text) (s : Slave) (names : List Text) : Prop where
  settings : s.master_relays.map (fun r => r.server.toSettings) = names.map fun name =>
    (mirror config master name).toSettings
  distinct : names.Nodup
  placed : RelayUpdate.Placed s.fresh s.master_relays

theorem char_toNat (c : UInt8) : (Char.ofNat c.toNat).toNat = c.toNat := by
  have small := c.toNat_lt
  have valid : c.toNat.isValidChar := .inl (by omega)
  rw [Char.ofNat,dif_pos valid]
  rfl

theorem str_injective (same : str left = str right) : left = right := by
  refine List.map_injective_iff.mpr ?_ (String.ofList_injective same)
  intro c d equal
  have codes := congrArg Char.toNat equal
  rw [char_toNat,char_toNat] at codes
  exact UInt8.toNat_inj.mp codes

theorem mirror_injective (config : Config) (master : Text)
    (same : (mirror config master left).localmount = (mirror config master right).localmount) : left = right :=
  str_injective same

theorem mirrors_distinct {names : List Text} (distinct : names.Nodup) :
    ((names.map (mirror config master)).map fun new => new.localmount).Nodup := by
  rw [List.map_map]
  exact distinct.map fun _ _ => mirror_injective config master

theorem same_mirror (settings : old.server.toSettings = (mirror config master name).toSettings)
    (same : Same (mirror config master other) old) :
    name = other := by
  have mounts := same.1
  rw [settings] at mounts
  exact (mirror_injective config master mounts).symm

theorem Mirrors.mem (mirrors : Mirrors config master s names) (member : old ∈ s.master_relays) :
    ∃ name ∈ names,old.server.toSettings = (mirror config master name).toSettings := by
  have inside : old.server.toSettings ∈ s.master_relays.map fun r => r.server.toSettings :=
    List.mem_map.mpr ⟨old,member,rfl⟩
  rw [mirrors.settings] at inside
  obtain ⟨name,listed,same⟩ := List.mem_map.mp inside
  exact ⟨name,listed,same.symm⟩

theorem Mirrors.handled (mirrors : Mirrors config master s names) (name : Text) :
    Handled s.master_relays (mirror config master name) := by
  unfold Handled
  split
  · rename_i old found
    obtain ⟨member,same⟩ := matched_mem found
    obtain ⟨other,_,settings⟩ := mirrors.mem member
    cases same_mirror settings same
    rw [settings]
    exact ⟨rfl,rfl,rfl,.inl rfl⟩
  · rfl

theorem updateRelaySet_below (new_list : List Relay) (updated : List RelayServer)
    (low : ∀ r ∈ current,r.address < fresh) (made : ∀ r ∈ new_list,r.address < fresh) :
    ∀ r ∈ (updateRelaySet fresh current new_list updated).1,r.address < fresh+updated.length := by
  induction updated generalizing fresh current new_list with
  | nil => exact made
  | cons new updated ih =>
    intro r member
    unfold updateRelaySet at member
    have spec := takeKept_spec new current
    rw [List.length_cons]
    cases found : takeKept new current with
    | none =>
      rw [found] at member
      have inside := ih _ (fun r listed => Nat.lt_succ_of_lt (low r listed)) (fun r listed => by
        rcases List.mem_cons.mp listed with rfl | old
        · exact Nat.lt_succ_self fresh
        · exact Nat.lt_succ_of_lt (made r old)) r member
      omega
    | some pair =>
      obtain ⟨kept,rest⟩ := pair
      rw [found] at spec member
      obtain ⟨before,old,after,rfl,rfl,_,_,rfl⟩ := spec
      have inside := ih _ (fun r listed =>
        low r ((List.sublist_cons_self old after).append_left before |>.subset listed)) (fun r listed => by
        rcases List.mem_cons.mp listed with rfl | listed
        · exact low old (List.mem_append_right before List.mem_cons_self)
        · exact made r listed) r member
      omega

-- A relay of the master's set is kept where its mount is listed, and cleaned up where it is not.
structure Sorted (config : Config) (master : Text) (current : List Relay) (names : List Text)
    (active cleanup : List Relay) : Prop where
  kept : ∀ old ∈ current,∀ name ∈ names,old.server.toSettings = (mirror config master name).toSettings → old ∈ active
  cleaned : ∀ old,old ∈ cleanup ↔ old ∈ current ∧ ∀ name ∈ names,
    old.server.toSettings ≠ (mirror config master name).toSettings

theorem Mirrors.settings_once (mirrors : Mirrors config master s names) : (s.master_relays.map fun r =>
    r.server.toSettings).Nodup := by
  rw [mirrors.settings]
  exact mirrors.distinct.map fun _ _ equal =>
    mirror_injective config master (congrArg (fun settings => settings.localmount) equal)

theorem agreed_settings {listed : List Text}
    (agree : List.Forall₂ (fun new (entry : Relay) => entry.server.toSettings = new.toSettings)
    (listed.map (mirror config master)).reverse entries) :
    entries.map (fun r => r.server.toSettings) =
    (listed.map fun name => (mirror config master name).toSettings).reverse := by
  have pairs : List.Forall₂ Eq ((listed.map (mirror config master)).reverse.map fun new => new.toSettings)
      (entries.map fun r => r.server.toSettings) := by
    rw [List.forall₂_map_left_iff,List.forall₂_map_right_iff]
    exact agree.imp fun _ _ same => same.symm
  rw [List.forall₂_eq_eq_eq] at pairs
  rw [←pairs,List.map_reverse,List.map_map]
  rfl

-- What update_relays makes of the relays for the names of a new list.
theorem update_mirrors (mirrors : Mirrors config master s names) {listed : List Text} (distinct : listed.Nodup) :
    ∃ active cleanup,updateRelays s.fresh s.master_relays
    (listed.map (mirror config master)).reverse = (active,cleanup) ∧
      Mirrors config master ⟨active,s.fresh+active.length⟩ listed ∧
      Sorted config master s.master_relays listed active cleanup := by
  have once : ((listed.map (mirror config master)).reverse.map fun new => new.localmount).Nodup := by
    rw [List.map_reverse,List.nodup_reverse]
    exact mirrors_distinct distinct
  obtain ⟨entries,rest,eq,made,taken⟩ := updateRelaySet_spec s.fresh s.master_relays [] _ once
  have handled : ∀ new ∈ (listed.map (mirror config master)).reverse,Handled s.master_relays new := by
    intro new member
    obtain ⟨name,_,rfl⟩ := List.mem_map.mp (List.mem_reverse.mp member)
    exact mirrors.handled name
  have settings := agreed_settings (handled_agree made handled)
  have below := updateRelaySet_below [] (listed.map (mirror config master)).reverse mirrors.placed.below
    (fun r none => absurd none List.not_mem_nil)
  have apart := taken_once mirrors.placed taken
  rw [List.map_append,List.nodup_append] at apart
  obtain ⟨others,mine⟩ := taken_others taken
  have kept : ∀ old ∈ s.master_relays,∀ name ∈ listed,
    old.server.toSettings = (mirror config master name).toSettings → old ∈ entries := by
    intro old member name inside same
    obtain ⟨other,there,settled,entry⟩ := handled_object made handled
      (List.mem_reverse.mpr (List.mem_map.mpr ⟨name,inside,rfl⟩)) ⟨old,member,same⟩
    have one : other = old := List.inj_on_of_nodup_map mirrors.settings_once there member (settled.trans same.symm)
    exact one ▸ entry
  rw [updateRelays,eq,List.append_nil]
  rw [eq,List.append_nil,List.length_reverse,←List.length_reverse,made.length_eq] at below
  refine ⟨entries.reverse,rest,rfl,⟨?_,distinct,?_,?_⟩,?_,?_⟩
  · rw [List.map_reverse,settings,List.reverse_reverse]
  · rw [List.map_reverse,List.nodup_reverse]
    exact apart.1
  · intro r member
    rw [List.length_reverse]
    exact below r member
  · intro old member name inside same
    exact List.mem_reverse.mpr (kept old member name inside same)
  · intro old
    constructor
    · intro out
      refine ⟨mine old out,fun name inside same => ?_⟩
      have entry := kept old (mine old out) name inside same
      exact apart.2.2 _ (List.mem_map.mpr ⟨old,entry,rfl⟩) _ (List.mem_map.mpr ⟨old,out,rfl⟩) rfl
    · rintro ⟨member,unlisted⟩
      refine others old member fun entry there same => ?_
      obtain ⟨new,here,makes⟩ := forall₂_right made entry there
      obtain ⟨name,inside,rfl⟩ := List.mem_map.mp (List.mem_reverse.mp here)
      unfold Made at makes
      split at makes
      · rename_i match_ found
        obtain ⟨there,alike⟩ := matched_mem found
        have one : match_ = old := List.inj_on_of_nodup_map mirrors.placed.nodup there member
          (by rw [←same,makes,RelayUpdate.keep])
        subst one
        obtain ⟨other,_,settled⟩ := mirrors.mem member
        cases same_mirror settled alike
        exact unlisted name inside settled
      · have low := mirrors.placed.below old member
        omega

theorem Response.Right.short {r : Response} (right : r.Right xmlParseURI) : ∀ line ∈ r.lines,Short line := by
  intro line member
  rcases List.mem_cons.mp member with rfl | member
  · exact right.status
  rcases List.mem_append.mp member with head | member
  · exact (right.head line head).1
  rcases List.mem_cons.mp member with rfl | name
  · exact short_nil
  · exact (right.names line name).short

-- What stats_get_streams gives for names that fit into the slave's buffer is their list.
theorem reply_sent {a : Answer} (fair : a.Fair xmlParseURI) :
    ∃ part, a.reply = some (sent (arrived a.cut a.response.lines) part a.ending) ∧ lf ∉ part ∧ part.length ≤ 256 := by
  have fits : ∀ node ∈ a.stats.sources,node.hidden = false → node.source.length+3 ≤ 4096 := by
    intro node member shown
    have inside : node.source ∈ visible a.stats.sources := by
      refine List.mem_map.mpr ⟨node,List.mem_filter.mpr ⟨member,?_⟩,rfl⟩
      rw [shown]
      rfl
    have width := (fair.right.names _ inside).short.width
    omega
  obtain ⟨chain,blocks,current,run,texts,_,layout⟩ := streams_packed a.stats fits
  have flat : chain.flatMap Refbuf.text = listing (visible a.stats.sources) := by
    rw [List.flatMap_def,texts,listing_flatten,←layout.all,List.flatten_append,List.flatten_singleton]
  have whole : listing (a.status::(a.head++[[]]))++listing (visible a.stats.sources) = listing a.response.lines := by
    rw [listing,listing,←List.flatMap_append,List.cons_append,List.append_assoc,List.singleton_append]
    rfl
  obtain ⟨part,took,clean,narrow⟩ := take_listing a.response.lines fair.right.short a.cut
  refine ⟨part,?_,clean,narrow⟩
  rw [Answer.reply,run,Option.map_some,flat,whole,took,sent]

theorem Placed.later (placed : RelayUpdate.Placed fresh current) (more : Nat) :
    RelayUpdate.Placed (fresh+more) current :=
  ⟨placed.nodup,fun old member => Nat.lt_add_right more (placed.below old member)⟩

-- One poll of a master that answers: no write outside of buf, and master_relays are what its list
-- says, with the relays of other mounts handed over for cleaning up.
theorem poll_mirrors (enabled : Enabled config master) (mirrors : Mirrors config master s names) {a : Answer}
    (fair : a.Fair xmlParseURI)
    (size : buf.length = bufSize) :
    ∃ reply polled,replyTo (some a) = some reply ∧
      updateFromMaster xmlParseURI config s.fresh s.master_relays buf reply = some polled ∧
      Mirrors config master ⟨polled.master_relays,s.fresh+polled.master_relays.length⟩ (a.seen.getD names) ∧
      Sorted config master s.master_relays (a.seen.getD names) polled.master_relays polled.cleanup_relays := by
  obtain ⟨part,reply,clean,narrow⟩ := reply_sent fair
  obtain ⟨password,known⟩ := Option.isSome_iff_exists.mp enabled.password
  have front := arrived_prefix a.cut a.response.lines
  have list := readList_lines config master fair.right front clean narrow fair.ends size
  have answered : replyTo (some a) = some (some (sent (arrived a.cut a.response.lines) part a.ending)) := by
    rw [replyTo,reply,Option.map_some]
  by_cases early : arrived a.cut a.response.lines = []
  · have unseen : a.seen = none := if_pos early
    rw [if_pos early] at list
    refine ⟨_,⟨true,some (listRequest config.master_username password),s.master_relays,[]⟩,answered,?_,?_,?_,?_⟩
    · simp only [updateFromMaster,known,enabled.server,if_neg enabled.port,list,Option.map_some]
    · rw [unseen]
      exact ⟨mirrors.settings,mirrors.distinct,Placed.later mirrors.placed _⟩
    · rw [unseen]
      exact fun old member _ _ _ => member
    · intro old
      refine ⟨fun none => absurd none List.not_mem_nil,?_⟩
      rintro ⟨member,unlisted⟩
      obtain ⟨name,inside,same⟩ := mirrors.mem member
      rw [unseen] at unlisted
      exact absurd same (unlisted name inside)
  · have seen : a.seen = some ((arrived a.cut a.response.lines).drop (a.head.length+2)) := if_neg early
    have distinct : ((arrived a.cut a.response.lines).drop (a.head.length+2)).Nodup := by
      have sub := (front.drop (a.response.head.length+2)).sublist
      rw [a.response.lines_behind] at sub
      exact fair.distinct.sublist sub
    obtain ⟨active,cleanup,sets,mirrors,sorted⟩ := update_mirrors mirrors distinct
    rw [if_neg early] at list
    refine ⟨_,⟨true,some (listRequest config.master_username password),active,cleanup⟩,answered,?_,?_,?_⟩
    · simp only [updateFromMaster,known,enabled.server,if_neg enabled.port,list,Option.map_some]
      rw [show a.response.head = a.head by rfl,sets]
    · rw [seen]
      exact mirrors
    · rw [seen]
      exact sorted

theorem touched_settings (touched : List.Forall₂ Touched before after) :
    after.map (fun r => r.server.toSettings) = before.map (fun r => r.server.toSettings) ∧
    after.map Relay.address = before.map Relay.address := by
  induction touched with
  | nil => exact ⟨rfl,rfl⟩
  | cons one _ ih =>
    rw [List.map_cons,List.map_cons,List.map_cons,List.map_cons,ih.1,ih.2,one.1,one.2]
    exact ⟨rfl,rfl⟩

theorem step_mirrors (enabled : Enabled config master) (mirrors : Mirrors config master s names)
    (fair : event.Fair xmlParseURI)
    (step : Step xmlParseURI config s event t) : Mirrors config master t (view names event) := by
  cases event with
  | poll answer =>
    cases answer with
    | none =>
      cases step with
      | poll size replied ran =>
        cases Option.some.inj replied
        obtain ⟨password,known⟩ := Option.isSome_iff_exists.mp enabled.password
        simp only [updateFromMaster,known,enabled.server,if_neg enabled.port] at ran
        cases ran
        exact ⟨mirrors.settings,mirrors.distinct,Placed.later mirrors.placed _⟩
    | some a =>
      cases step with
      | poll size replied ran =>
        obtain ⟨reply,polled,replied',ran',mirrors,_⟩ := poll_mirrors enabled mirrors fair size
        cases replied.symm.trans replied'
        cases ran.symm.trans ran'
        exact mirrors
  | activity =>
    cases step with
    | activity touched =>
      obtain ⟨settings,addresses⟩ := touched_settings touched
      refine ⟨settings.trans mirrors.settings,mirrors.distinct,?_,?_⟩
      · rw [addresses]
        exact mirrors.placed.nodup
      · intro r member
        have inside : r.address ∈ s.master_relays.map Relay.address := addresses ▸ List.mem_map.mpr ⟨r,member,rfl⟩
        obtain ⟨old,there,same⟩ := List.mem_map.mp inside
        exact same ▸ mirrors.placed.below old there

theorem run_mirrors (enabled : Enabled config master) (mirrors : Mirrors config master s names)
    (path : Runs (Step xmlParseURI config) s labels t) (fair : ∀ event ∈ labels,event.Fair xmlParseURI) :
    Mirrors config master t (labels.foldl view names) := by
  induction path with
  | nil => exact mirrors
  | snoc _ last ih =>
    rw [List.foldl_append]
    have before := ih fun event member => fair event (List.mem_append_left _ member)
    exact step_mirrors enabled before (fair _ (List.mem_append_right _ (List.mem_singleton.mpr rfl))) last

theorem start_mirrors (fresh : Nat) : Mirrors config master ⟨[],fresh⟩ [] :=
  ⟨rfl,List.nodup_nil,List.nodup_nil,fun _ none => absurd none List.not_mem_nil⟩

-- Over every run of polls, with connections that end anywhere, master_relays are one relay for each
-- mount of the last list in the part that arrived, in its order; and the next poll stays within
-- buf and hands over for cleaning up just the relays whose mounts it does not list.
theorem slave_mirrors (enabled : Enabled config master) (path : Runs (Step xmlParseURI config) ⟨[],fresh⟩ labels s)
    (fair : ∀ event ∈ labels,event.Fair xmlParseURI) :
    Mirrors config master s (labels.foldl view []) ∧ ∀ (a : Answer) (buf : List UInt8),a.Fair xmlParseURI →
    buf.length = bufSize →
      ∃ reply polled,replyTo (some a) = some reply ∧
      updateFromMaster xmlParseURI config s.fresh s.master_relays buf reply = some polled ∧
        Sorted config master s.master_relays
        (a.seen.getD (labels.foldl view [])) polled.master_relays polled.cleanup_relays := by
  have mirrors := run_mirrors enabled (start_mirrors fresh) path fair
  refine ⟨mirrors,fun a buf fair size => ?_⟩
  obtain ⟨reply,polled,replied,ran,_,sorted⟩ := poll_mirrors enabled mirrors fair size
  exact ⟨reply,polled,replied,ran,sorted⟩

-- A master with two mounts, for a parser that takes what starts with a slash for a path.
def plainPath (text : Text) : Option Uri := if text.head? = some 47 then some ⟨none,0,some text⟩ else none

def slaveConfig : Config := ⟨some (ascii "master"),8000,ascii "relay",some (ascii "hackme"),0⟩

def twoMounts (cut : Nat) : Answer :=
  ⟨mounts [ascii "/a",ascii "/b"],ascii "HTTP/1.0 200 OK",[ascii "Content-Type: text/plain"],cut,[.closed]⟩

theorem slaveConfig_enabled : Enabled slaveConfig (ascii "master") := ⟨rfl,by decide,rfl⟩

theorem twoMounts_fair (cut : Nat) : (twoMounts cut).Fair plainPath := by
  have status : accepts (ascii "HTTP/1.0 200 OK") = true ∧
    Short (ascii "HTTP/1.0 200 OK") := ⟨by decide,by decide,by decide⟩
  have distinct : (visible (mounts [ascii "/a",ascii "/b"]).sources).Nodup := by decide
  refine ⟨⟨status.1,status.2,?_,?_⟩,distinct,?_⟩
  · intro line member
    cases List.mem_singleton.mp member
    exact ⟨⟨by decide,by decide⟩,by decide⟩
  · intro name member
    have known : name ∈ [ascii "/a",ascii "/b"] := member
    simp only [List.mem_cons,List.not_mem_nil,or_false] at known
    rcases known with rfl | rfl
    · exact ⟨⟨by decide,by decide⟩,by decide,by decide⟩
    · exact ⟨⟨by decide,by decide⟩,by decide,by decide⟩
  · intro c member
    cases List.mem_singleton.mp member

theorem twoMounts_step (mirrors : Mirrors slaveConfig (ascii "master") s names) (cut : Nat) :
    ∃ t,Step plainPath slaveConfig s (.poll (some (twoMounts cut))) t := by
  have size : (List.replicate bufSize (0 : UInt8)).length = bufSize := List.length_replicate
  obtain ⟨reply,polled,replied,ran,_,_⟩ := poll_mirrors slaveConfig_enabled mirrors (twoMounts_fair cut) size
  exact ⟨_,.poll size replied ran⟩

-- The connection ends inside of the second name.
theorem slave_mirrors_cut : ∃ s,Runs (Step plainPath slaveConfig) ⟨[],0⟩ [.poll (some (twoMounts 50))] s ∧
    Mirrors slaveConfig (ascii "master") s [ascii "/a"] := by
  obtain ⟨s,step⟩ := twoMounts_step (start_mirrors 0) 50
  have path : Runs (Step plainPath slaveConfig) ⟨[],0⟩ [.poll (some (twoMounts 50))] s := .cons step .nil
  have fair : ∀ event ∈ [Event.poll (some (twoMounts 50))],event.Fair plainPath := by
    intro event member
    cases List.mem_singleton.mp member
    exact twoMounts_fair 50
  exact ⟨s,path,(slave_mirrors slaveConfig_enabled path fair).1⟩

-- Each list that is accepted has this mount.
def Lists (name : Text) (event : Event) : Prop := ∀ a seen,event = .poll (some a) → a.seen = some seen → name ∈ seen

theorem view_lists (listed : name ∈ names) (lists : Lists name event) : name ∈ view names event := by
  cases event with
  | activity => exact listed
  | poll answer =>
    cases answer with
    | none => exact listed
    | some a =>
      rw [view]
      cases known : a.seen with
      | none => exact listed
      | some seen => exact lists a seen rfl known

theorem step_keeps (enabled : Enabled config master) (mirrors : Mirrors config master s names)
    (fair : event.Fair xmlParseURI)
    (step : Step xmlParseURI config s event t) (member : old ∈ s.master_relays)
    (settings : old.server.toSettings = (mirror config master name).toSettings) (listed : name ∈ view names event) :
    ∃ now ∈ t.master_relays,Touched old now := by
  cases event with
  | poll answer =>
    cases answer with
    | none =>
      cases step with
      | poll size replied ran =>
        cases Option.some.inj replied
        obtain ⟨password,known⟩ := Option.isSome_iff_exists.mp enabled.password
        simp only [updateFromMaster,known,enabled.server,if_neg enabled.port] at ran
        cases ran
        exact ⟨old,member,rfl,rfl⟩
    | some a =>
      cases step with
      | poll size replied ran =>
        obtain ⟨reply,polled,replied',ran',_,sorted⟩ := poll_mirrors enabled mirrors fair size
        cases replied.symm.trans replied'
        cases ran.symm.trans ran'
        exact ⟨old,sorted.kept old member name listed settings,rfl,rfl⟩
  | activity =>
    cases step with
    | activity touched => exact forall₂_left touched old member

-- A relay whose mount every accepted list names is never torn down: it goes on as the same object,
-- through lists that are cut short, failed polls and whatever its own thread does.
theorem relay_survives (enabled : Enabled config master) (earlier : Runs (Step xmlParseURI config) ⟨[],fresh⟩ before s)
    (fair : ∀ event ∈ before,event.Fair xmlParseURI) (later : Runs (Step xmlParseURI config) s labels t)
    (fair' : ∀ event ∈ labels,event.Fair xmlParseURI) (member : old ∈ s.master_relays)
    (settings : old.server.toSettings = (mirror config master name).toSettings)
    (lists : ∀ event ∈ labels,Lists name event) :
    ∃ now ∈ t.master_relays,now.address = old.address ∧ now.server.toSettings = old.server.toSettings := by
  have mirrors := run_mirrors enabled (start_mirrors fresh) earlier fair
  have listed : name ∈ before.foldl view [] := by
    obtain ⟨other,inside,same⟩ := mirrors.mem member
    have one : name = other := mirror_injective config master
      (congrArg (fun settings => settings.localmount) (settings.symm.trans same))
    exact one ▸ inside
  suffices all : name ∈ labels.foldl view (before.foldl view []) ∧ ∃ now ∈ t.master_relays,Touched old now from all.2
  induction later with
  | nil => exact ⟨listed,old,member,rfl,rfl⟩
  | @snoc labels middle event _ path last ih =>
    obtain ⟨still,now,there,same⟩ := ih (fun event member => fair' event (List.mem_append_left _ member))
      (fun event member => lists event (List.mem_append_left _ member))
    have within : event ∈ labels++[event] := List.mem_append_right _ (List.mem_singleton.mpr rfl)
    have here := run_mirrors enabled mirrors path fun event member => fair' event (List.mem_append_left _ member)
    have next := view_lists still (lists event within)
    obtain ⟨after,found,touched⟩ := step_keeps enabled here (fair' event within) last there (same.2.trans settings) next
    refine ⟨?_,after,found,touched.1.trans same.1,touched.2.trans same.2⟩
    rw [List.foldl_append]
    exact next

-- The list is cut short, then whole.
theorem relay_survives_again : ∃ s t old,Runs (Step plainPath slaveConfig) ⟨[],0⟩ [.poll (some (twoMounts 50))] s ∧
    Runs (Step plainPath slaveConfig) s [.poll (some (twoMounts 99))] t ∧ old ∈ s.master_relays ∧
      ∃ now ∈ t.master_relays,now.address = old.address ∧ now.server.toSettings = old.server.toSettings := by
  have fair (cut : Nat) : ∀ event ∈ [Event.poll (some (twoMounts cut))],event.Fair plainPath := by
    intro event member
    cases List.mem_singleton.mp member
    exact twoMounts_fair cut
  obtain ⟨s,first⟩ := twoMounts_step (start_mirrors 0) 50
  have earlier : Runs (Step plainPath slaveConfig) ⟨[],0⟩ [.poll (some (twoMounts 50))] s := .cons first .nil
  have mirrors := run_mirrors slaveConfig_enabled (start_mirrors 0) earlier (fair 50)
  obtain ⟨t,second⟩ := twoMounts_step mirrors 99
  have later : Runs (Step plainPath slaveConfig) s [.poll (some (twoMounts 99))] t := .cons second .nil
  have inside : (mirror slaveConfig (ascii "master") (ascii "/a")).toSettings ∈ s.master_relays.map fun r =>
    r.server.toSettings := by
    rw [mirrors.settings]
    exact List.mem_cons_self
  obtain ⟨old,member,settings⟩ := List.mem_map.mp inside
  have lists : ∀ event ∈ [Event.poll (some (twoMounts 99))],Lists (ascii "/a") event := by
    intro event member a seen same known
    cases List.mem_singleton.mp member
    cases same
    cases known
    decide
  exact ⟨s,t,old,earlier,later,member,relay_survives slaveConfig_enabled earlier (fair 50) later
    (fair 99) member settings lists⟩

end Icecast.MasterList
