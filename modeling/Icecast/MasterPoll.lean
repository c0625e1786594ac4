import Icecast.Admin
import Icecast.Format
import Icecast.MasterList
import Icecast.RelayRequest

namespace Icecast.MasterPoll
open Credentials hiding Config
open Bytes Httpp MasterList RelayRequest StreamList SocketReaders RelayUpdate Transition
open Base64 (utilBase64Encode)
open ResponseHeader (crlf Reply Tm utilHttpBuildHeader printedHeader headerLines statusLine CleanTexts)
open Stats (Trees)

-- aliases of the configuration
structure Alias where
  source : Text
  destination : Text
  port : Int
  bind_address : Option Text

-- The part of the master that answers the request of a slave: `serverhost` and `serverport` are of
-- the listen socket the client came by.
structure Master where
  server : Admin.Server
  aliases : List Alias
  serverhost : Option Text
  serverport : Int
  shoutcastMount : Option Text
  http : ResponseHeader.Config
  now : Option Tm
  stats : Trees

def Alias.covers (alias_ : Alias) (serverhost : Option Text) (serverport : Int) (uri : Text) : Bool :=
  uri = alias_.source ∧ (alias_.port = -1 ∨ alias_.port = serverport) ∧
    (alias_.bind_address = none ∨ serverhost ≠ none ∧ alias_.bind_address = serverhost)

def resolve (m : Master) (uri : Text) : Text :=
  ((m.aliases.find? fun alias_ => alias_.covers m.serverhost m.serverport uri).map (·.destination)).getD uri

section
variable (fnmatch : Text → Text → Bool)

-- _handle_connection with _handle_get_request, as far as the admin requests: none for others.
def handleRequest (m : Master) (data : Text) : Option (List Admin.Effect) :=
  (httppParse data).bind fun parser =>
  (parser.getvar varUri).bind fun rawuri =>
  let p := Admin.portMount parser m.shoutcastMount
  if p.getvar varProtocol ≠ some (ascii "ICE") ∧ p.getvar varProtocol ≠ some (ascii "HTTP") then none else
  (Uri.normaliseUri rawuri).bind fun passed =>
  if p.reqType = .get then
    let uri := resolve m passed
    if uri = Admin.adminCgi ∨ uri.take 7 = ascii "/admin/" then
      some (Admin.adminHandleRequest fnmatch m.server ⟨p,false,m.shoutcastMount⟩ uri)
    else none
  else none

-- What command_list_mounts and client_send_401 give to util_http_build_header.
def listReply (m : Master) : Reply := ⟨false,200,none,some (ascii "text/plain"),some (ascii "utf-8"),some [],none,m.now⟩

def deniedReply (m : Master) : Reply :=
  ⟨false,401,none,some (ascii "text/plain"),some (ascii "utf-8"),some (ascii "You need to authenticate\r\n"),none,m.now⟩

-- client_send_500 of "Header generation failed."
def failedText : Text :=
  ascii "HTTP/1.0 500 Internal Server Error\r\nContent-Type: text/plain; charset=utf-8\r\n\r\n500 - Internal Server Error\n"++
    ascii "---------------------------\nHeader generation failed."

-- The client's buffer with its header, and what is chained behind it once that is built.
def respond (m : Master) (buffer : Text) (reply : Reply) (next : Option (List Refbuf)) : Option Text :=
  (utilHttpBuildHeader fnmatch buffer perClientRefbufSize 0 m.http reply).bind fun (ret,data) =>
    if ret = -1 ∨ ret ≥ perClientRefbufSize then some failedText else next.map fun chain =>
      cstr data++chain.flatMap Refbuf.text

-- What is sent for the two outcomes of a request for the list.
def answer (m : Master) (buffer : Text) : List Admin.Effect → Option Text
  | [.handler .listMounts none .plaintext] => respond fnmatch m buffer (listReply m) (statsGetStreams m.stats)
  | [.error 401 none] => respond fnmatch m buffer (deniedReply m) (some [])
  | _ => none

def serve (m : Master) (buffer data : Text) : Option Text :=
  (handleRequest fnmatch m data).bind (answer fnmatch m buffer)

end

def listUri : Text := ascii "/admin/streamlist.txt"

theorem listRequest_bytes (username password : Text) :
    listRequest username password = requestBytes listUri [authField (username++colon::password)] := by
  have login : username++ascii ":"++password = username++colon::password := List.append_assoc _ _ _
  rw [listRequest,login,requestBytes,List.flatMap_singleton,Field.text,authField,getLine]
  simp only [List.append_assoc]
  rfl

-- The relay credentials on both sides are the same.
def Admits (config : Config) (m : Master) : Prop :=
  m.server.config.relayUsername = some config.master_username ∧ config.master_password.isSome ∧
    m.server.config.relayPassword = config.master_password

-- Names and passwords as they are configured.
structure Login (config : Config) : Prop where
  username : 0 ∉ config.master_username ∧ colon ∉ config.master_username
  password : ∀ password,config.master_password = some password → 0 ∉ password

theorem list_parsed (username password rest : Text) :
    ∃ p,httppParse (listRequest username password++rest) = some p ∧ p.reqType = .get ∧
    p.queryvars = .leaf ∧ p.getvar varUri = some listUri ∧ p.getvar varProtocol = some (ascii "HTTP") ∧
    p.getvar authorization = some (basic++utilBase64Encode (username++colon::password)) := by
  have word : Word listUri := ⟨by decide,by decide,by decide⟩
  obtain ⟨p,parsed,kind,bare,read,line⟩ := request_parsed word [authField (username++colon::password)]
    (Nat.le_add_left 1 29) rest
  have names : ∀ f ∈ [authField (username++colon::password)],lowercase f.name ∉ requestVars := by
    intro f member
    cases List.mem_singleton.mp member
    show lowercase (ascii "Authorization") ∉ requestVars
    decide
  obtain ⟨uri,protocol,_⟩ := line names
  refine ⟨p,by rw [listRequest_bytes]; exact parsed,kind,bare (by decide),uri.trans (by decide),protocol,?_⟩
  have lower : authorization = lowercase (ascii "Authorization") := by decide
  rw [read authorization (by decide),given_one]
  exact if_pos lower

-- _check_pass_http reads the name and the password that were encoded.
theorem login_accepted {p : Parser} (plain : 0 ∉ username++colon::password) (apart : colon ∉ username)
    (header : p.getvar authorization = some (basic++utilBase64Encode (username++colon::password))) (user pass : Text) :
    checkPassHttp p user pass = 1 ↔ user = username ∧ pass = password := by
  have split : splitUserpass (username++colon::password) = some (username,password) :=
    (splitUserpass_iff apart _).mpr rfl
  obtain ⟨userpass,decoded,text⟩ := Option.map_eq_some_iff.mp (Base64.decode_encode_cstr plain)
  rw [checkPassHttp_iff]
  constructor
  · rintro ⟨other,same,read,again,words⟩
    have one : utilBase64Encode (username++colon::password) = other :=
      List.append_cancel_left (Option.some.inj (header.symm.trans same))
    rw [←one,decoded] at again
    cases Option.some.inj again
    rw [text,split] at words
    cases words
    exact ⟨rfl,rfl⟩
  · rintro ⟨rfl,rfl⟩
    exact ⟨_,header,userpass,decoded,by rw [text,split]⟩

theorem relay_pass {m : Master} {p : Parser} (login : Login config) (known : config.master_password = some password)
    (header : p.getvar authorization = some (basic++utilBase64Encode (config.master_username++colon::password))) :
    connectionCheckRelayPass m.server.config p = 0 ↔ ¬Admits config m := by
  have plain : 0 ∉ config.master_username++colon::password := by
    intro zero
    rcases List.mem_append.mp zero with inside | inside
    · exact login.username.1 inside
    · rcases List.mem_cons.mp inside with same | inside
      · exact absurd same (by decide)
      · exact login.password password known inside
  unfold connectionCheckRelayPass Admits
  cases word : m.server.config.relayPassword with
  | none =>
    rw [known]
    simp
  | some pass =>
    cases name : m.server.config.relayUsername with
    | none => simp
    | some user =>
      have accepted := login_accepted plain login.username.2 header user pass
      dsimp only
      rw [known]
      simp only [Option.some.injEq,Option.isSome_some,true_and]
      constructor
      · intro refused same
        rw [accepted.mpr same] at refused
        cases refused
      · intro other
        exact checkPassHttp_zero p user pass fun same => other (accepted.mp same)

section
variable (fnmatch : Text → Text → Bool)

theorem admin_list {m : Master} {p : Parser} (login : Login config)
    (known : config.master_password = some password) (bare : p.queryvars = .leaf)
    (header : p.getvar authorization = some (basic++utilBase64Encode (config.master_username++colon::password))) :
    (Admits config m ∧ Admin.adminHandleRequest fnmatch m.server ⟨p,false,m.shoutcastMount⟩ listUri =
    [.handler .listMounts none .plaintext]) ∨
    (¬Admits config m ∧ Admin.adminHandleRequest fnmatch m.server ⟨p,false,m.shoutcastMount⟩ listUri =
    [.error 401 none]) := by
  have relay := relay_pass (m := m) login known header
  have command : Admin.adminGetCommand (Admin.commandString listUri) = some .plaintextListstream := by decide +kernel
  have admin : listUri = Admin.adminCgi ∨ listUri.take 7 = ascii "/admin/" := by decide
  have unasked : p.getQueryParam Admin.paramMount = none := by
    rw [Parser.getQueryParam,bare]
    rfl
  have other : Admin.Command.plaintextListstream ≠ .shoutcastMetadataUpdate := by decide
  unfold Admin.adminHandleRequest
  rw [if_neg (not_not.mpr admin),command]
  dsimp only
  rw [if_neg other,Admin.dispatch,unasked]
  dsimp only
  rw [if_pos rfl]
  by_cases admits : Admits config m
  · exact .inl ⟨admits,if_neg fun zero => relay.mp zero admits⟩
  · exact .inr ⟨admits,if_pos (relay.mpr admits)⟩

-- No alias of the master stands for the list.
def Unaliased (m : Master) : Prop := ∀ alias_ ∈ m.aliases,alias_.covers m.serverhost m.serverport listUri = false

theorem resolve_list {m : Master} (unaliased : Unaliased m) : resolve m listUri = listUri := by
  have absent : m.aliases.find? (fun alias_ => alias_.covers m.serverhost m.serverport listUri) = none :=
    List.find?_eq_none.mpr fun alias_ member => by rw [unaliased alias_ member]; exact Bool.false_ne_true
  rw [resolve,absent]
  rfl

theorem request_handled {m : Master} (login : Login config) (known : config.master_password = some password)
    (unaliased : Unaliased m) (rest : Text) :
    (Admits config m ∧
      handleRequest fnmatch m (listRequest config.master_username password++rest) =
      some [.handler .listMounts none .plaintext]) ∨
    (¬Admits config m ∧ handleRequest fnmatch m (listRequest config.master_username password++rest) =
    some [.error 401 none]) := by
  obtain ⟨p,parsed,kind,bare,uri,protocol,header⟩ := list_parsed config.master_username password rest
  have other : ¬(some listUri = some Admin.adminCgi) := by decide
  have port : Admin.portMount p m.shoutcastMount = p := by
    rw [Admin.portMount,uri]
    exact if_neg other
  have spoken : ¬(p.getvar varProtocol ≠ some (ascii "ICE") ∧ p.getvar varProtocol ≠ some (ascii "HTTP")) :=
    fun both => both.2 protocol
  have normal : Uri.normaliseUri listUri = some listUri := by decide +kernel
  have admin : listUri = Admin.adminCgi ∨ listUri.take 7 = ascii "/admin/" := by decide
  have handled : handleRequest fnmatch m (listRequest config.master_username password++rest) =
      some (Admin.adminHandleRequest fnmatch m.server ⟨p,false,m.shoutcastMount⟩ listUri) := by
    rw [handleRequest,parsed,Option.bind_some,uri,Option.bind_some]
    dsimp only
    rw [port,if_neg spoken,normal,Option.bind_some,if_pos kind,resolve_list unaliased,if_pos admin]
  rcases admin_list fnmatch (m := m) login known bare header with ⟨admits,effect⟩ | ⟨denies,effect⟩
  · exact .inl ⟨admits,handled.trans (congrArg some effect)⟩
  · exact .inr ⟨denies,handled.trans (congrArg some effect)⟩

end

instance (config : Config) (m : Master) : Decidable (Admits config m) := inferInstanceAs (Decidable (_ ∧ _ ∧ _))

section
variable {fnmatch : Text → Text → Bool} {xmlParseURI : Text → Option MasterList.Uri} {config : Config} {master : Text}

theorem print_cstr (printed : snprintf out 0 room text = some next) (more : 0 < room) :
    cstr next = cstr (text.take (room-1)) := by
  unfold snprintf at printed
  rw [if_neg (Nat.ne_of_gt more)] at printed
  unfold memcpy at printed
  split at printed
  · cases Option.some.inj printed
    rw [List.take_zero,List.nil_append,List.append_assoc,List.singleton_append,cstr_stop]
  · cases printed

theorem respond_eq (m : Master) (reply : Reply) (next : Option (List Refbuf))
    (room : buffer.length = perClientRefbufSize) :
    respond fnmatch m buffer reply next =
      if (printedHeader fnmatch m.http reply).length < perClientRefbufSize then
        next.map fun chain => cstr (printedHeader fnmatch m.http reply)++chain.flatMap Refbuf.text
      else some failedText := by
  obtain ⟨data,built,_,_⟩ := ResponseHeader.build_header_eq fnmatch m.http reply (Nat.le_of_eq room.symm)
  have wrote : snprintf buffer 0 perClientRefbufSize (printedHeader fnmatch m.http reply) = some data := by
    unfold utilHttpBuildHeader at built
    rw [ResponseHeader.build_headers_eq,Option.bind_some] at built
    obtain ⟨out,wrote,same⟩ := Option.map_eq_some_iff.mp built
    cases same
    exact wrote
  have text := print_cstr wrote (show 0 < perClientRefbufSize by decide)
  have size : perClientRefbufSize = 4096 := rfl
  rw [respond,built,Option.bind_some]
  dsimp only
  by_cases fits : (printedHeader fnmatch m.http reply).length < perClientRefbufSize
  · have ret : ResponseHeader.printResult (printedHeader fnmatch m.http reply) =
      ((printedHeader fnmatch m.http reply).length : Int) := by
      unfold ResponseHeader.printResult
      rw [if_pos (by omega)]
    rw [ret,if_neg (by omega),if_pos fits,text,List.take_of_length_le (by omega)]
  · have ret : ResponseHeader.printResult (printedHeader fnmatch m.http reply) = -1 ∨
        ResponseHeader.printResult (printedHeader fnmatch m.http reply) ≥ perClientRefbufSize := by
      unfold ResponseHeader.printResult
      split
      · right
        omega
      · exact .inl rfl
    rw [if_pos ret,if_neg fits]

-- A first line that the slave does not take for a list.
structure Refuses (line : Text) : Prop where
  short : Short line
  other : ∀ rear,accepts (line++0::rear) = false

theorem refuses_code (wide : 12 ≤ line.length) (short : Short line) (other : accepts line = false) : Refuses line := by
  refine ⟨short,fun rear => ?_⟩
  unfold accepts at *
  rw [List.take_append_of_le_length wide]
  exact other

def deniedLine : Text := ascii "HTTP/1.0 401 Authentication Required"
def failedLine : Text := ascii "HTTP/1.0 500 Internal Server Error"

theorem denied_refuses : Refuses deniedLine := refuses_code (by decide) ⟨by decide,by decide⟩ (by decide)
theorem failed_refuses : Refuses failedLine := refuses_code (by decide) ⟨by decide,by decide⟩ (by decide)

theorem cstr_front {front : Text} (clean : 0 ∉ front) (back : Text) : cstr (front++back) = front++cstr back := by
  have whole : ∀ b ∈ front,decide (b ≠ 0) = true := fun b member => decide_eq_true fun zero :
    b = 0 => clean (zero ▸ member)
  unfold cstr
  rw [List.takeWhile_append_of_pos whole]

theorem denied_text (m : Master) (room : buffer.length = perClientRefbufSize) :
    ∃ line tail,respond fnmatch m buffer (deniedReply m) (some []) = some (entryLine line++tail) ∧ Refuses line := by
  rw [respond_eq m _ _ room]
  by_cases fits : (printedHeader fnmatch m.http (deniedReply m)).length < perClientRefbufSize
  · have status : ResponseHeader.statusBuffer (deniedReply m) = entryLine deniedLine := by rfl
    rw [if_pos fits,Option.map_some,ResponseHeader.printed_header_eq,status,cstr_front (by decide),
      List.flatMap_nil,List.append_nil]
    exact ⟨_,_,rfl,denied_refuses⟩
  · rw [if_neg fits]
    exact ⟨failedLine,failedText.drop (entryLine failedLine).length,by rfl,failed_refuses⟩

theorem read_refused (refuses : Refuses line) (cut : Nat) (silent : Silent ending) (size : buf.length = bufSize) :
    readList xmlParseURI master config buf (((entryLine line++tail).take cut).map .byte++ending) = some none := by
  by_cases whole : (entryLine line).length ≤ cut
  · have stream : ((entryLine line++tail).take cut).map .byte++ending = sent [line]
      (tail.take (cut-(entryLine line).length)) ending := by
      rw [List.take_append,List.take_of_length_le whole,sent,listing,List.flatMap_singleton]
    obtain ⟨rear,_,read⟩ := readLine_line [] (tail.take (cut-(entryLine line).length)) ending refuses.short size
    rw [stream,readList,read,Option.bind_some]
    dsimp only
    rw [refuses.other]
    rfl
  · obtain ⟨part,took,clean,narrow⟩ :=
      take_listing [line] (fun other member => List.mem_singleton.mp member ▸ refuses.short) cut
    have absent : arrived cut [line] = [] := by
      unfold arrived
      exact if_neg whole
    have front : (entryLine line++tail).take cut = part := by
      rw [absent,listing,List.flatMap_singleton] at took
      rw [List.take_append_of_le_length (Nat.le_of_not_le whole),took]
      rfl
    have stream : ((entryLine line++tail).take cut).map .byte++ending = sent [] part ending := by
      rw [front]
      rfl
    obtain ⟨buff,rest,_,_,read⟩ := readLine_end clean narrow silent size
    rw [stream,readList,read,Option.bind_some]
    rfl

end

section
variable (fnmatch : Text → Text → Bool)

-- The answer of the master to the relay credentials, of which `cut` bytes arrive.
def answerOf (m : Master) (cut : Nat) (ending : List Recv) : MasterList.Answer :=
  ⟨m.stats,statusLine (listReply m),(headerLines fnmatch m.http (listReply m)).tail,cut,ending⟩

-- A list that the slave can read: the lines of the header and the mounts fit into its buffer, and
-- the header into the one of the master.
structure Readable (xmlParseURI : Text → Option MasterList.Uri) (m : Master) : Prop where
  clean : CleanTexts m.http (listReply m)
  lines : ∀ line ∈ headerLines fnmatch m.http (listReply m),line.length ≤ 255 ∧ 0 ∉ line
  room : (printedHeader fnmatch m.http (listReply m)).length < perClientRefbufSize
  names : ∀ name ∈ visible m.stats.sources,Listed xmlParseURI name
  distinct : (visible m.stats.sources).Nodup

-- A poll of a master as it is then, with the bytes of its answer that arrive, a poll where the
-- connection fails, or anything else that the slave does with its relays.
inductive Event where
  | poll (m : Master) (cut : Nat) (ending : List Recv)
  | lost
  | activity

def Event.Fair (xmlParseURI : Text → Option MasterList.Uri) (config : Config) : Event → Prop
  | .poll m _ ending => Unaliased m ∧ (Admits config m → Readable fnmatch xmlParseURI m) ∧ Silent ending
  | _ => True

-- What is read is from what the master serves for the request that was written.
inductive Step (xmlParseURI : Text → Option MasterList.Uri) (config : Config) : Slave → Event → Slave → Prop where
  | poll : buffer.length = perClientRefbufSize → buf.length = bufSize →
      updateFromMaster xmlParseURI config s.fresh s.master_relays buf
        (some ((text.take cut).map .byte++ending)) = some polled →
      polled.request = some data → serve fnmatch m buffer data = some text →
      Step xmlParseURI config s (.poll m cut ending) ⟨polled.master_relays,s.fresh+polled.master_relays.length⟩
  | lost : updateFromMaster xmlParseURI config s.fresh s.master_relays buf none = some polled →
      Step xmlParseURI config s .lost ⟨polled.master_relays,s.fresh+polled.master_relays.length⟩
  | activity : List.Forall₂ Touched s.master_relays after → Step xmlParseURI config s .activity ⟨after,s.fresh⟩

-- The mounts of the last list that the slave was admitted to.
def view (config : Config) (names : List Text) : Event → List Text
  | .poll m cut ending => if Admits config m then (answerOf fnmatch m cut ending).seen.getD names else names
  | _ => names

end

section
variable {fnmatch : Text → Text → Bool} {xmlParseURI : Text → Option MasterList.Uri} {config : Config} {master : Text}

theorem header_lines_front (fnmatch : Text → Text → Bool) (m : Master) :
    headerLines fnmatch m.http (listReply m) = statusLine
    (listReply m)::(headerLines fnmatch m.http (listReply m)).tail := by rfl

theorem header_listed (fnmatch : Text → Text → Bool) (m : Master) :
    printedHeader fnmatch m.http (listReply m) = listing (headerLines fnmatch m.http (listReply m)++[[]]) := by
  have status : (statusLine (listReply m)).length ≤ 77 := Nat.le_of_ble_eq_true (by rfl)
  have fits : ResponseHeader.Fits (listReply m) := by
    refine ⟨fun _ => status,fun line given => ?_⟩
    cases Option.some.inj given
    exact Nat.le_of_ble_eq_true (by rfl)
  rw [(ResponseHeader.header_text_iff fnmatch m.http (listReply m)).mpr fits,listing,List.flatMap_append]
  rfl

theorem listing_clean {lines : List Text} (clean : ∀ line ∈ lines,0 ∉ line) : 0 ∉ listing lines := by
  intro zero
  obtain ⟨line,member,inside⟩ := List.mem_flatMap.mp zero
  rcases List.mem_append.mp inside with text | last
  · exact clean line member text
  · exact absurd last (by decide)

theorem answer_fair {m : Master} (readable : Readable fnmatch xmlParseURI m) (silent : Silent ending) (cut : Nat) :
    (answerOf fnmatch m cut ending).Fair xmlParseURI := by
  have short : ∀ line ∈ headerLines fnmatch m.http (listReply m),Short line ∧ line ≠ [] := by
    intro line member
    obtain ⟨filled,returns,feeds⟩ := ResponseHeader.clean_headerLines readable.clean line member
    obtain ⟨width,zero⟩ := readable.lines line member
    exact ⟨⟨width,returns,feeds,zero⟩,filled⟩
  have front := header_lines_front fnmatch m
  have first : statusLine (listReply m) ∈ headerLines fnmatch m.http (listReply m) := front ▸ List.mem_cons_self
  refine ⟨⟨by rfl,(short _ first).1,fun line member => short line ?_,readable.names⟩,readable.distinct,silent⟩
  rw [front]
  exact List.mem_cons_of_mem _ member

theorem serve_list {m : Master} (login : Login config) (known : config.master_password = some password)
    (unaliased : Unaliased m)
    (readable : Readable fnmatch xmlParseURI m) (admits : Admits config m)
    (room : buffer.length = perClientRefbufSize) :
    serve fnmatch m buffer (listRequest config.master_username password) = (statsGetStreams m.stats).map fun chain =>
      listing (headerLines fnmatch m.http (listReply m)++[[]])++chain.flatMap Refbuf.text := by
  have handled := request_handled fnmatch login known unaliased []
  rw [List.append_nil] at handled
  have plain : 0 ∉ listing (headerLines fnmatch m.http (listReply m)++[[]]) := by
    refine listing_clean fun line member => ?_
    rcases List.mem_append.mp member with header | last
    · exact (readable.lines line header).2
    · exact List.mem_singleton.mp last ▸ List.not_mem_nil
  rcases handled with ⟨_,effect⟩ | ⟨denies,_⟩
  · rw [serve,effect,Option.bind_some,answer,respond_eq m _ _ room,if_pos readable.room,header_listed,cstr_whole plain]
  · exact absurd admits denies

theorem serve_denied (fnmatch : Text → Text → Bool) {m : Master} (login : Login config)
    (known : config.master_password = some password) (unaliased : Unaliased m)
    (denies : ¬Admits config m) (room : buffer.length = perClientRefbufSize) :
    ∃ line tail,serve fnmatch m buffer (listRequest config.master_username password) =
    some (entryLine line++tail) ∧ Refuses line := by
  have handled := request_handled fnmatch login known unaliased []
  rw [List.append_nil] at handled
  rcases handled with ⟨admits,_⟩ | ⟨_,effect⟩
  · exact absurd admits denies
  · rw [serve,effect,Option.bind_some,answer]
    exact denied_text m room

theorem requested (enabled : Enabled config master) (known : config.master_password = some password)
    (ran : updateFromMaster xmlParseURI config fresh current buf (some stream) = some polled) :
    polled.request = some (listRequest config.master_username password) := by
  simp only [updateFromMaster,known,enabled.server,if_neg enabled.port] at ran
  obtain ⟨list,_,rfl⟩ := Option.map_eq_some_iff.mp ran
  cases list with
  | none => rfl
  | some new_relays => rfl

-- A poll goes through: where the credentials are those of the master it is one of MasterList, else
-- the relays stay and none is cleaned up.
theorem poll_served (enabled : Enabled config master) (login : Login config)
    (mirrors : Mirrors config master s names) {m : Master}
    (fair : (Event.poll m cut ending).Fair fnmatch xmlParseURI config)
    (room : buffer.length = perClientRefbufSize) (size : buf.length = bufSize) :
    ∃ data text polled,serve fnmatch m buffer data = some text ∧ polled.request = some data ∧
      updateFromMaster xmlParseURI config s.fresh s.master_relays buf
      (some ((text.take cut).map .byte++ending)) = some polled ∧
      Mirrors config master ⟨polled.master_relays,s.fresh+polled.master_relays.length⟩
      (view fnmatch config names (.poll m cut ending)) ∧
      Sorted config master s.master_relays
      (view fnmatch config names (.poll m cut ending)) polled.master_relays polled.cleanup_relays ∧
      (¬Admits config m → polled.master_relays = s.master_relays ∧ polled.cleanup_relays = []) := by
  obtain ⟨unaliased,readable,silent⟩ := fair
  obtain ⟨password,known⟩ := Option.isSome_iff_exists.mp enabled.password
  by_cases admits : Admits config m
  · have fair := answer_fair (readable admits) silent cut
    obtain ⟨reply,polled,replied,ran,mirrors,sorted⟩ := poll_mirrors enabled mirrors fair size
    obtain ⟨stream,answered,rfl⟩ := Option.map_eq_some_iff.mp replied
    obtain ⟨chain,listed,rfl⟩ := Option.map_eq_some_iff.mp answered
    have served := serve_list login known unaliased (readable admits) admits room
    have chained : statsGetStreams m.stats = some chain := listed
    rw [chained,Option.map_some,header_lines_front,List.cons_append] at served
    have seen : view fnmatch config names (.poll m cut ending) =
      (answerOf fnmatch m cut ending).seen.getD names := if_pos admits
    rw [seen]
    exact ⟨_,_,polled,served,requested enabled known ran,ran,mirrors,sorted,fun denies => absurd admits denies⟩
  · obtain ⟨line,tail,served,refuses⟩ := serve_denied fnmatch login known unaliased admits room
    have read : readList xmlParseURI master config buf
      (((entryLine line++tail).take cut).map .byte++ending) = some none :=
      read_refused refuses cut silent size
    have same : view fnmatch config names (.poll m cut ending) = names := if_neg admits
    rw [same]
    refine ⟨_,_,⟨true,some (listRequest config.master_username password),s.master_relays,[]⟩,served,rfl,?_,
      ⟨mirrors.settings,mirrors.distinct,MasterList.Placed.later mirrors.placed _⟩,
        ⟨fun old member _ _ _ => member,fun old => ?_⟩,fun _ => ⟨rfl,rfl⟩⟩
    · simp only [updateFromMaster,known,enabled.server,if_neg enabled.port,read,Option.map_some]
    · refine ⟨fun none => absurd none List.not_mem_nil,?_⟩
      rintro ⟨member,unlisted⟩
      obtain ⟨name,inside,settled⟩ := mirrors.mem member
      exact absurd settled (unlisted name inside)

theorem step_polls (enabled : Enabled config master) (login : Login config) (mirrors : Mirrors config master s names)
    (fair : event.Fair fnmatch xmlParseURI config) (step : Step fnmatch xmlParseURI config s event t) :
    Mirrors config master t (view fnmatch config names event) := by
  obtain ⟨password,known⟩ := Option.isSome_iff_exists.mp enabled.password
  cases step with
  | poll room size ran wrote served =>
    obtain ⟨data,text,polled,served',wrote',ran',mirrors,_,_⟩ := poll_served enabled login mirrors fair room size
    have one : data = _ := Option.some.inj
      ((wrote'.symm.trans (requested enabled known ran')).trans ((requested enabled known ran).symm.trans wrote))
    subst one
    cases served.symm.trans served'
    cases ran.symm.trans ran'
    exact mirrors
  | lost ran =>
    have size : (List.replicate bufSize (0 : UInt8)).length = bufSize := List.length_replicate
    simp only [updateFromMaster,known,enabled.server,if_neg enabled.port] at ran
    cases ran
    exact ⟨mirrors.settings,mirrors.distinct,MasterList.Placed.later mirrors.placed _⟩
  | activity touched =>
    have step : MasterList.Step xmlParseURI config s .activity _ := .activity touched
    have fair : MasterList.Event.activity.Fair xmlParseURI := True.intro
    exact step_mirrors enabled mirrors fair step

theorem run_polls (enabled : Enabled config master) (login : Login config)
    (path : Runs (Step fnmatch xmlParseURI config) ⟨[],fresh⟩ labels s)
    (fair : ∀ event ∈ labels,event.Fair fnmatch xmlParseURI config) :
    Mirrors config master s (labels.foldl (view fnmatch config) []) := by
  induction path with
  | nil => exact start_mirrors fresh
  | snoc _ last ih =>
    rw [List.foldl_append]
    have before := ih fun event member => fair event (List.mem_append_left _ member)
    exact step_polls enabled login before (fair _ (List.mem_append_right _ (List.mem_singleton.mpr rfl))) last

-- Over every run of polls of a master that changes as it likes, the master serves its list to the
-- relay credentials and to no others, and master_relays are one relay for each mount of the last
-- list in the part that arrived; the next poll goes through, and hands over for cleaning up just
-- the relays whose mounts it does not list, and none where it is refused.
theorem polls_mirror (enabled : Enabled config master) (login : Login config)
    (path : Runs (Step fnmatch xmlParseURI config) ⟨[],fresh⟩ labels s)
    (fair : ∀ event ∈ labels,event.Fair fnmatch xmlParseURI config) :
    Mirrors config master s (labels.foldl (view fnmatch config) []) ∧
    ∀ (m : Master) (cut : Nat) (ending : List Recv) (buffer : Text) (buf : List UInt8),
      (Event.poll m cut ending).Fair fnmatch xmlParseURI config → buffer.length = perClientRefbufSize →
      buf.length = bufSize →
        ∃ data text polled,serve fnmatch m buffer data = some text ∧ polled.request = some data ∧
          updateFromMaster xmlParseURI config s.fresh s.master_relays buf
          (some ((text.take cut).map .byte++ending)) = some polled ∧
          Sorted config master s.master_relays
          (view fnmatch config (labels.foldl (view fnmatch config) []) (.poll m cut ending))
            polled.master_relays polled.cleanup_relays ∧
          (¬Admits config m → polled.master_relays = s.master_relays ∧ polled.cleanup_relays = []) := by
  have mirrors := run_polls enabled login path fair
  refine ⟨mirrors,fun m cut ending buffer buf fair room size => ?_⟩
  obtain ⟨data,text,polled,served,wrote,ran,_,sorted,refused⟩ := poll_served enabled login mirrors fair room size
  exact ⟨data,text,polled,served,wrote,ran,sorted,refused⟩

end

-- A master with two mounts, and the relay password.
def twoMountsMaster (password : Text) : Master where
  server := ⟨⟨none,none,none,some (ascii "relay"),some password,false,[]⟩,none,[]⟩
  aliases := [⟨ascii "/",ascii "/a",-1,none⟩]
  serverhost := none
  serverport := 8000
  shoutcastMount := none
  http := ⟨[],ascii "Icecast 2.4",[]⟩
  now := none
  stats := mounts [ascii "/a",ascii "/b"]

def never (_ _ : Text) : Bool := false

theorem twoMountsMaster_fair (password : Text) :
    (Event.poll (twoMountsMaster password) 1000 [.closed]).Fair never plainPath slaveConfig := by
  obtain ⟨right,distinct,ends⟩ := twoMounts_fair 1000
  refine ⟨?_,fun _ => ⟨⟨?_,?_,?_,?_,?_⟩,?_,?_,right.names,distinct⟩,ends⟩
  · intro alias_ member
    cases List.mem_singleton.mp member
    rfl
  · intro text given
    cases given
  · intro text given
    cases given
    decide
  · intro text given
    cases given
    decide
  · show ResponseHeader.Clean (ascii "Icecast 2.4")
    decide
  · intro header none
    cases none
  · show ∀ line ∈ headerLines never ⟨[],ascii "Icecast 2.4",[]⟩
      ⟨false,200,none,some (ascii "text/plain"),some (ascii "utf-8"),some [],none,none⟩,
      line.length ≤ 255 ∧ 0 ∉ line
    decide +kernel
  · show (printedHeader never ⟨[],ascii "Icecast 2.4",[]⟩
      ⟨false,200,none,some (ascii "text/plain"),some (ascii "utf-8"),some [],none,none⟩).length <
      perClientRefbufSize
    decide +kernel

theorem slaveConfig_login : Login slaveConfig := by
  refine ⟨⟨by decide,by decide⟩,fun password known => ?_⟩
  cases Option.some.inj known
  decide

-- The second poll is after the master got another password.
theorem polls_mirror_refused : ∃ s,
    Runs (Step never plainPath slaveConfig) ⟨[],0⟩ [.poll (twoMountsMaster (ascii "hackme")) 1000 [.closed],
    .poll (twoMountsMaster (ascii "other")) 1000 [.closed]] s ∧
      Mirrors slaveConfig (ascii "master") s [ascii "/a",ascii "/b"] := by
  have room : (List.replicate perClientRefbufSize (0 : UInt8)).length = perClientRefbufSize := List.length_replicate
  have size : (List.replicate bufSize (0 : UInt8)).length = bufSize := List.length_replicate
  have fair : ∀ event ∈ [Event.poll (twoMountsMaster (ascii "hackme")) 1000 [.closed],
    .poll (twoMountsMaster (ascii "other")) 1000 [.closed]],
      event.Fair never plainPath slaveConfig := by
    intro event member
    rcases List.mem_pair.mp member with rfl | rfl
    · exact twoMountsMaster_fair _
    · exact twoMountsMaster_fair _
  obtain ⟨data,text,polled,served,wrote,ran,mirrors,_⟩ :=
    poll_served slaveConfig_enabled slaveConfig_login (start_mirrors 0)
      (twoMountsMaster_fair (ascii "hackme")) room size
  obtain ⟨again,reply,later,answered,asked,turned,_⟩ :=
    poll_served slaveConfig_enabled slaveConfig_login mirrors (twoMountsMaster_fair (ascii "other")) room size
  have path : Runs (Step never plainPath slaveConfig) ⟨[],0⟩
      [.poll (twoMountsMaster (ascii "hackme")) 1000 [.closed],
        .poll (twoMountsMaster (ascii "other")) 1000 [.closed]] _ :=
    .cons (.poll room size ran wrote served) (.cons (.poll room size turned asked answered) .nil)
  refine ⟨_,path,?_⟩
  have names : [Event.poll (twoMountsMaster (ascii "hackme")) 1000 [.closed],
    .poll (twoMountsMaster (ascii "other")) 1000 [.closed]].foldl
      (view never slaveConfig) [] = [ascii "/a",ascii "/b"] := by decide +kernel
  rw [←names]
  exact (polls_mirror slaveConfig_enabled slaveConfig_login path fair).1

end Icecast.MasterPoll
