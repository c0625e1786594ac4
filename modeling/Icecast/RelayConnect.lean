import Icecast.Base64
import Icecast.HttppHeaders
import Icecast.ListenerHeaders
import Icecast.Lib.Resources

namespace Icecast.RelayConnect
open Bytes ConfigMounts Httpp Resources
open ListenerHeaders (atoi)
open ResponseHeader (crlf)
open Base64 (utilBase64Encode)

def varErrorMessage : Text := ascii "__errormessage"
def varErrorCode : Text := ascii "__errorcode"

-- The scan of the status line: the second word, and the line from the third one on.
def scanStatus (whitespace : Bool) (respCode : Option Text) : Text → Option Text × Option Text
  | [] => (respCode,none)
  | c::line =>
    if c = space then scanStatus true respCode line
    else if whitespace then
      match respCode with
      | none => scanStatus false (some ((c::line).takeWhile (· ≠ space))) line
      | some code => (some code,some (c::line))
    else scanStatus false respCode line

-- httpp_parse_response with a fresh parser; none where it returns 0.
def httppParseResponse (httpData uri : Text) : Option Parser :=
  let s := splitHeaders httpData
  (s.lineAt 0).bind fun line =>
  match scanStatus false none line with
  | (some respCode,some message) =>
    let p := httppInitialize.setvar varErrorCode respCode
    let p := if atoi respCode < 200 ∨ atoi respCode ≥ 300 then p.setvar varErrorMessage message else p
    parseHeaders s ((p.setvar varUri uri).setvar varReqType (ascii "NONE"))
  | _ => none

-- What the function creates and has to release.
inductive Kind where
  | connection
  | parser
  | text
deriving DecidableEq

-- connection_t with the string it owns
structure Connection where
  self : Kind × Nat
  ip : Kind × Nat
deriving DecidableEq

structure CString where
  self : Kind × Nat
  text : Text
deriving DecidableEq

-- The fields of relay_server it reads.
structure RelayServer where
  server : Text
  port : Int
  mount : Text
  localmount : Text
  username : Option Text
  password : Option Text
  bind : Option Text
  mp3metadata : Bool

-- What the upstream server does with one connection: it is not there, util_read_header
-- fails, or the buffer holds what was read.
inductive Reply where
  | refused
  | unread
  | header (data : Text)
deriving DecidableEq

-- A call of sock_connect_wto_bind.
structure Contact where
  server : Text
  port : Int
  bind : Option Text
deriving DecidableEq

structure Locals where
  ledger : Ledger Kind
  server : CString
  mount : CString
  serverId : CString
  authHeader : CString
  port : Int
  con : Option Connection
  parser : Option (Kind × Nat)
  contacts : List Contact
  requests : List Text
deriving DecidableEq

-- The client_t it returns, by what client_create puts there.
structure RelayClient where
  con : Connection
  parser : Kind × Nat
deriving DecidableEq

structure Outcome where
  client : Option RelayClient
  ledger : Ledger Kind
  contacts : List Contact
deriving DecidableEq

def strdup (l : Ledger Kind) (text : Text) : CString × Ledger Kind := (⟨l.fresh .text,text⟩,l.add .text)

def connectionClose (l : Ledger Kind) (con : Connection) : Ledger Kind := (l.release con.ip).release con.self

-- The Authorization header, built in two strings that are freed.
def buildAuth (r : RelayServer) (l : Ledger Kind) : CString × Ledger Kind :=
  match r.username,r.password with
  | some username,some password =>
    let (plain,l) := strdup l (username++ascii ":"++password)
    let (escAuthorisation,l) := strdup l (utilBase64Encode plain.text)
    let l := l.release plain.self
    let (authHeader,l) := strdup l (ascii "Authorization: Basic "++escAuthorisation.text++crlf)
    (authHeader,l.release escAuthorisation.self)
  | _,_ => strdup l []

def requestText (r : RelayServer) (l : Locals) : Text :=
  ascii "GET "++l.mount.text++ascii " HTTP/1.0"++crlf++ascii "User-Agent: "++l.serverId.text++crlf++ascii "Host: "++
    l.server.text++crlf++(if r.mp3metadata then ascii "Icy-MetaData: 1"++crlf else [])++l.authHeader.text++crlf

-- The end of the function where it failed.
def cleanUp (l : Locals) : Outcome :=
  let m := (((l.ledger.release l.server.self).release l.mount.self).release l.serverId.self).release l.authHeader.self
  let m := match l.con with
    | some con => connectionClose m con
    | none => m
  let m := match l.parser with
    | some parser => m.release parser
    | none => m
  ⟨none,m,l.contacts⟩

def hostOf (uri : Text) : Text := uri.takeWhile fun c => c ≠ 58 ∧ c ≠ 47

def portOf (uri : Text) : Int :=
  if (uri.drop (hostOf uri).length).head? = some 58 then atoi (uri.drop ((hostOf uri).length+1)) else 80

def mountOf (uri : Text) : Text := if uri.dropWhile (· ≠ 47) = [] then [47] else uri.dropWhile (· ≠ 47)

-- What a redirect does; `uri` is the Location behind "http://".
def redirect (l : Locals) (con : Connection) (parser : Kind × Nat) (uri : Text) : Locals :=
  let (mount,m) := strdup (l.ledger.release l.mount.self) (mountOf uri)
  let (server,m) := strdup (m.release l.server.self) (hostOf uri)
  {l with ledger := (connectionClose m con).release parser,server := server,mount := mount,port :=
    portOf uri,con := none,parser := none}

-- client_destroy of a client client_create refused.
def clientDestroy (l : Ledger Kind) (client : RelayClient) :
    Ledger Kind := (connectionClose l client.con).release client.parser

-- The strings that go when the client is returned.
def opened (l : Locals) (client : RelayClient) : Outcome :=
  ⟨some client,(((l.ledger.release l.server.self).release l.mount.self).release l.serverId.self).release l.authHeader.self,l.contacts⟩

-- How one turn of the loop ends.
inductive After where
  | again (l : Locals)
  | done (o : Outcome)
deriving DecidableEq

-- The answer of a server that httpp_parse_response took; none where strcmp or strncmp
-- is given NULL. `room` is whether client_create returns 0.
def answered (room : Bool) (l : Locals) (con : Connection) (parser : Kind × Nat) (p : Parser) : Option After :=
  (p.getvar varErrorCode).bind fun code =>
  if code = ascii "302" then
    (p.getvar (ascii "location")).map fun uri =>
    if uri.take 7 ≠ ascii "http://" then .done (cleanUp l) else .again (redirect l con parser (uri.drop 7))
  else if (p.getvar varErrorMessage).isSome then some (.done (cleanUp l))
  else
    let client : RelayClient := ⟨con,parser⟩
    if room then some (.done (opened l client))
    else some (.done (cleanUp {l with con := none,parser := none,ledger := clientDestroy l.ledger client}))

def attempt (r : RelayServer) (room : Bool) (l : Locals) (reply : Reply) : Option After :=
  let l := {l with contacts := l.contacts++[⟨l.server.text,l.port,r.bind⟩]}
  if reply = .refused then some (.done (cleanUp l)) else
  let (ip,m) := strdup l.ledger l.server.text
  let con : Connection := ⟨m.fresh .connection,ip.self⟩
  let l := {l with ledger := m.add .connection,con := some con,requests := l.requests++[requestText r l]}
  match reply with
  | .header data =>
    let parser := l.ledger.fresh .parser
    let l := {l with ledger := l.ledger.add .parser,parser := some parser}
    match httppParseResponse (cstr data) r.localmount with
    | none => some (.done (cleanUp l))
    | some p => answered room l con parser p
  | _ => some (.done (cleanUp l))

-- The loop, with the replies of the upstream servers in the order they are asked.
def openLoop (r : RelayServer) (room : Bool) (upstream : Nat → Reply) (redirects : Nat) (l : Locals) : Option Outcome :=
  if redirects < 10 then
    match attempt r room l (upstream redirects) with
    | none => none
    | some (.done o) => some o
    | some (.again l) => openLoop r room upstream (redirects+1) l
  else some (cleanUp l)
termination_by 10-redirects

def locals (r : RelayServer) (serverId : Text) : Locals :=
  let (server,m) := strdup blank r.server
  let (mount,m) := strdup m r.mount
  let (serverId,m) := strdup m serverId
  let (authHeader,m) := buildAuth r m
  ⟨m,server,mount,serverId,authHeader,r.port,none,none,[],[]⟩

-- open_relay_connection: `serverId` and `clientLimit` are of the configuration, `clients` is
-- global.clients when client_create is called.
def openRelayConnection (r : RelayServer) (serverId : Text) (clientLimit clients : Int)
    (upstream : Nat → Reply) : Option Outcome :=
  openLoop r (decide (clients+1 ≤ clientLimit)) upstream 0 (locals r serverId)

-- What the client that is returned holds.
def Outcome.kept (o : Outcome) : List (Kind × Nat) := o.client.elim [] fun c => [c.con.ip,c.con.self,c.parser]

-- Whatever was created was released exactly once, unless the client holds it, and the
-- client holds a connection and a parser.
structure Outcome.Owned (o : Outcome) : Prop where
  once : ∀ r ∈ o.ledger.created, o.ledger.released.count r+o.kept.count r = 1
  created : ∀ r, r ∈ o.ledger.released ∨ r ∈ o.kept → r ∈ o.ledger.created
  client : ∀ c, o.client = some c → c.con.self.1 = .connection ∧ c.con.ip.1 = .text ∧ c.parser.1 = .parser

-- The function returns and reads no missing value.
def Connects (result : Option Outcome) : Prop := ∃ o, result = some o ∧ o.contacts.length ≤ 10 ∧ o.Owned

def parsed (r : RelayServer) : Reply → Option Parser
  | .header data => httppParseResponse (cstr data) r.localmount
  | _ => none

-- A 302 to an http location, and a 302 without a Location.
def Redirects (r : RelayServer) (reply : Reply) : Prop :=
  ∃ p uri, parsed r reply = some p ∧ p.getvar varErrorCode = some (ascii "302") ∧
    p.getvar (ascii "location") = some uri ∧
    uri.take 7 = ascii "http://"

def Unlocated (r : RelayServer) (reply : Reply) : Prop :=
  ∃ p, parsed r reply = some p ∧ p.getvar varErrorCode = some (ascii "302") ∧ p.getvar (ascii "location") = none

-- A reply that is asked for after redirects only.
def Located (r : RelayServer) (upstream : Nat → Reply) : Prop :=
  ∀ k < 10, (∀ j < k, Redirects r (upstream j)) → ¬Unlocated r (upstream k)

theorem response_code (parsed : httppParseResponse data uri = some p) : ∃ code, p.getvar varErrorCode = some code := by
  unfold httppParseResponse at parsed
  dsimp only at parsed
  rw [lineAt_first,Option.bind_some] at parsed
  split at parsed
  · next respCode _ _ =>
    rw [parseHeaders_lines] at parsed
    cases parsed
    rw [getvar_setHeaders]
    cases definedBy varErrorCode ((linesOf data).drop 1) with
    | some code => exact ⟨code,rfl⟩
    | none =>
      refine ⟨respCode,?_⟩
      rw [Option.none_or,getvar_setvar,if_neg (by decide),getvar_setvar,if_neg (by decide)]
      split
      · rw [getvar_setvar,if_neg (by decide),getvar_setvar,if_pos rfl]
      · rw [getvar_setvar,if_pos rfl]
  · cases parsed

-- What the locals point to.
def held (l : Locals) : List (Kind × Nat) :=
  [l.server.self,l.mount.self,l.serverId.self,
    l.authHeader.self]++((l.con.elim [] fun c => [c.ip,c.self])++l.parser.toList)

theorem owned_of_owns {o : Outcome} (owns : Owns o.ledger o.kept)
    (client : ∀ c, o.client = some c → c.con.self.1 = .connection ∧ c.con.ip.1 = .text ∧ c.parser.1 = .parser) :
    o.Owned :=
  ⟨owns.once.1,owns.once.2,client⟩

theorem cleanUp_owned {l : Locals} (owns : Owns l.ledger (held l)) : (cleanUp l).Owned := by
  refine owned_of_owns ?_ nofun
  have strings := owns.release.release.release.release
  unfold cleanUp
  cases con : l.con with
  | none =>
    cases parser : l.parser with
    | none =>
      rw [con,parser] at strings
      exact strings
    | some p =>
      rw [con,parser] at strings
      exact strings.release
  | some c =>
    cases parser : l.parser with
    | none =>
      rw [con,parser] at strings
      exact strings.release.release
    | some p =>
      rw [con,parser] at strings
      exact strings.release.release.release

theorem strdup_owns {l : Ledger Kind} (owns : Owns l all) (text : Text) :
    Owns (strdup l text).2 ((strdup l text).1.self::all) := owns.add .text

theorem buildAuth_owns {l : Ledger Kind} (r : RelayServer) (owns : Owns l all) :
    Owns (buildAuth r l).2 ((buildAuth r l).1.self::all) := by
  unfold buildAuth
  split
  · next username password _ _ =>
    have login := strdup_owns owns (username++ascii ":"++password)
    have plain := ((strdup_owns login (utilBase64Encode (username++ascii ":"++password))).perm (.swap _ _ _)).release
    exact ((strdup_owns plain _).perm (.swap _ _ _)).release
  · exact strdup_owns owns []

-- A turn starts without a connection and a parser.
structure Ready (l : Locals) : Prop where
  owns : Owns l.ledger [l.server.self,l.mount.self,l.serverId.self,l.authHeader.self]
  con : l.con = none
  parser : l.parser = none

theorem Ready.held (ready : Ready l) : Owns l.ledger (held l) := by
  unfold RelayConnect.held
  rw [ready.con,ready.parser]
  exact ready.owns

theorem locals_ready (r : RelayServer) (serverId : Text) : Ready (locals r serverId) where
  owns := (buildAuth_owns r (strdup_owns (strdup_owns (strdup_owns blank_owns r.server) r.mount) serverId)).perm
    (List.reverse_perm _).symm
  con := rfl
  parser := rfl

theorem redirect_ready (owns : Owns l.ledger (held l)) (con : l.con = some c)
    (parser : l.parser = some p) (uri : Text) :
    Ready (redirect l c p uri) := by
  refine ⟨?_,rfl,rfl⟩
  unfold held at owns
  rw [con,parser] at owns
  -- mount goes and comes back, then server, then the connection and the parser
  have mount := strdup_owns (owns.perm (.swap _ _ _)).release (mountOf uri)
  have server := strdup_owns (mount.perm (.swap _ _ _)).release (hostOf uri)
  have ends := server.swap [_,_,_,_] [c.ip,c.self,p]
  exact ends.release.release.release

-- How the turn with a reply ends.
def Ends (r : RelayServer) (l : Locals) (reply : Reply) : Option After → Prop
  | none => Unlocated r reply
  | some (.again next) => Redirects r reply ∧ Ready next ∧ next.contacts.length = l.contacts.length+1
  | some (.done o) => ¬Redirects r reply ∧ ¬Unlocated r reply ∧ o.Owned ∧ o.contacts.length = l.contacts.length+1

theorem not_moved (other : ∀ p, parsed r reply = some p → p.getvar varErrorCode ≠ some (ascii "302")) :
    ¬Redirects r reply ∧ ¬Unlocated r reply := by
  constructor
  · rintro ⟨p,_,given,code,_⟩
    exact other p given code
  · rintro ⟨p,given,code,_⟩
    exact other p given code

theorem done_ends {l m : Locals} (other : ∀ p, parsed r reply = some p →
    p.getvar varErrorCode ≠ some (ascii "302")) (owns : Owns m.ledger (held m))
    (one : m.contacts.length = l.contacts.length+1) : Ends r l reply (some (.done (cleanUp m))) :=
  ⟨(not_moved other).1,(not_moved other).2,cleanUp_owned owns,one⟩

theorem answered_ends {l m : Locals} (given : parsed r reply = some p) (coded : p.getvar varErrorCode = some code)
    (owns : Owns m.ledger (held m)) (con : m.con = some c) (parser : m.parser = some q)
    (kinds : c.self.1 = .connection ∧ c.ip.1 = .text ∧ q.1 = .parser) (one : m.contacts.length = l.contacts.length+1) :
    Ends r l reply (answered room m c q p) := by
  have only : ∀ other, parsed r reply = some other → other = p := fun other same =>
    Option.some.inj (same.symm.trans given)
  unfold answered
  rw [coded,Option.bind_some]
  by_cases moved : code = ascii "302"
  · rw [if_pos moved]
    subst moved
    cases location : p.getvar (ascii "location") with
    | none => exact ⟨p,given,coded,location⟩
    | some uri =>
      have located : ¬Unlocated r reply := by
        rintro ⟨other,same,_,missing⟩
        cases only other same
        cases missing.symm.trans location
      rw [Option.map_some]
      by_cases http : uri.take 7 = ascii "http://"
      · rw [if_neg (not_not.mpr http)]
        exact ⟨⟨p,uri,given,coded,location,http⟩,redirect_ready owns con parser _,one⟩
      · rw [if_pos http]
        refine ⟨?_,located,cleanUp_owned owns,one⟩
        rintro ⟨other,uri',same,_,place,http'⟩
        cases only other same
        cases place.symm.trans location
        exact http http'
  · rw [if_neg moved]
    have other : ∀ p, parsed r reply = some p → p.getvar varErrorCode ≠ some (ascii "302") := fun x same found => by
      cases only x same
      exact moved (Option.some.inj (coded.symm.trans found))
    by_cases message : (p.getvar varErrorMessage).isSome
    · rw [if_pos message]
      exact done_ends other owns one
    · rw [if_neg message]
      unfold held at owns
      rw [con,parser] at owns
      cases room with
      | true =>
        refine ⟨(not_moved other).1,(not_moved other).2,owned_of_owns owns.release.release.release.release ?_,one⟩
        rintro client ⟨⟩
        exact kinds
      | false =>
        have ends := owns.swap [_,_,_,_] [c.ip,c.self,q]
        exact done_ends other ends.release.release.release one

theorem attempt_ends (r : RelayServer) (room : Bool) (ready : Ready l) (reply : Reply) :
    Ends r l reply (attempt r room l reply) := by
  have failed : parsed r reply = none → ∀ p, parsed r reply = some p → p.getvar varErrorCode ≠ some (ascii "302") :=
    fun absent p same => nomatch absent.symm.trans same
  have one (more : Contact) : (l.contacts++[more]).length = l.contacts.length+1 := List.length_append
  -- the string and the connection in front of the strings of the loop
  have owns := ((strdup_owns ready.owns l.server.text).add .connection).perm (.swap _ _ _)
  unfold attempt
  cases reply with
  | refused => exact done_ends (failed rfl) ready.held (one _)
  | unread =>
    refine done_ends (failed rfl) ?_ (one _)
    unfold held
    rw [ready.parser]
    exact owns.swap [_,_] [_,_,_,_]
  | header data =>
    dsimp only
    rw [if_neg nofun]
    have all := (owns.add .parser).perm (.trans (.swap _ _ _) (.cons _ (.swap _ _ _)))
    cases given : httppParseResponse (cstr data) r.localmount with
    | none => exact done_ends (failed given) (all.swap [_,_,_] [_,_,_,_]) (one _)
    | some p =>
      obtain ⟨code,coded⟩ := response_code given
      exact answered_ends given coded (all.swap [_,_,_] [_,_,_,_]) rfl rfl ⟨rfl,rfl,rfl⟩ (one _)

theorem loop_connects (r : RelayServer) (room : Bool) (upstream : Nat → Reply)
    (turns : redirects+left = 10) (ready : Ready l)
    (count : l.contacts.length = redirects) : Connects (openLoop r room upstream redirects l) ↔
      ∀ k, redirects ≤ k → k < 10 → (∀ j, redirects ≤ j → j < k → Redirects r (upstream j)) →
      ¬Unlocated r (upstream k) := by
  induction left generalizing redirects l with
  | zero =>
    rw [openLoop,if_neg (by omega)]
    refine ⟨fun _ k low high => by omega,fun _ => ⟨_,rfl,?_,cleanUp_owned ready.held⟩⟩
    exact Nat.le_of_eq (count.trans turns)
  | succ left ih =>
    have ends := attempt_ends r room ready (upstream redirects)
    rw [openLoop,if_pos (by omega)]
    cases turn : attempt r room l (upstream redirects) with
    | none =>
      rw [turn] at ends
      refine ⟨?_,fun located => absurd ends (located redirects (Nat.le_refl _) (by omega) fun j low high => by omega)⟩
      rintro ⟨o,⟨⟩,_⟩
    | some after =>
      rw [turn] at ends
      cases after with
      | done o =>
        obtain ⟨stays,located,owned,counted⟩ := ends
        refine ⟨fun _ k low high before => ?_,fun _ => ⟨o,rfl,by omega,owned⟩⟩
        rcases Nat.eq_or_lt_of_le low with rfl | later
        · exact located
        · exact absurd (before redirects (Nat.le_refl _) later) stays
      | again next =>
        obtain ⟨⟨p,uri,given,code,location,http⟩,again,counted⟩ := ends
        have moved : Redirects r (upstream redirects) := ⟨p,uri,given,code,location,http⟩
        dsimp only
        rw [ih (show redirects+1+left = 10 by omega) again (counted.trans (congrArg (·+1) count))]
        constructor
        · intro rest k low high before
          rcases Nat.eq_or_lt_of_le low with rfl | later
          · rintro ⟨other,same,_,missing⟩
            cases same.symm.trans given
            cases missing.symm.trans location
          · exact rest k later high fun j after below => before j (Nat.le_of_lt after) below
        · intro all k low high before
          refine all k (Nat.le_of_lt low) high fun j after below => ?_
          rcases Nat.eq_or_lt_of_le after with rfl | later
          · exact moved
          · exact before j later below

-- open_relay_connection connects at most ten times, releases what it created and uses no
-- missing header exactly when no 302 it comes to lacks a Location.
theorem open_relay_connection_holds (r : RelayServer) (serverId : Text) (clientLimit clients : Int)
    (upstream : Nat → Reply) :
    Connects (openRelayConnection r serverId clientLimit clients upstream) ↔ Located r upstream := by
  unfold openRelayConnection Located
  have contacts : (locals r serverId).contacts.length = 0 := rfl
  rw [loop_connects r _ upstream (Nat.zero_add 10) (locals_ready r serverId) contacts]
  constructor
  · intro all k high before
    exact all k (Nat.zero_le k) high fun j _ below => before j below
  · intro all k _ high before
    exact all k high fun j below => before j (Nat.zero_le j) below

-- A relay of one server, which answers every request with a 302 that has no Location.
def masterRelay : RelayServer := ⟨ascii "master",8000,ascii "/live",ascii "/live",none,none,none,true⟩

def movedReply : Reply := .header (ascii "HTTP/1.0 302 Moved\r\nServer: x\r\n\r\n")

theorem moved_nowhere : ¬Connects (openRelayConnection masterRelay (ascii "Icecast") 100 0 fun _ => movedReply) := by
  have first : attempt masterRelay true (locals masterRelay (ascii "Icecast")) movedReply = none := by decide +kernel
  unfold openRelayConnection
  rw [openLoop,if_pos (by decide),show decide ((0 : Int)+1 ≤ 100) = true from rfl,first]
  rintro ⟨o,⟨⟩,_⟩

end Icecast.RelayConnect
