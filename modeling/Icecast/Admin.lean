import Icecast.Credentials
import Icecast.HttppQuery

namespace Icecast.Admin
open Bytes Httpp Credentials

inductive Command where
  | rawFallback | rawMetadataUpdate | rawShowListeners | rawMoveClients | rawManageauth | shoutcastMetadataUpdate | rawUpdatemetadata
  | transformedFallback | transformedShowListeners | transformedMoveClients | transformedManageauth | transformedUpdatemetadata
  | transformedMetadataUpdate
  | rawListMounts | rawStats | rawListstream | plaintextListstream | transformedListMounts | transformedStats | transformedListstream
  | rawKillClient | rawKillSource | transformedKillClient | transformedKillSource
  | buildm3u
deriving DecidableEq

-- The strcmp chain of admin_get_command.
def commands : List (String × Command) :=
  [("fallbacks",.rawFallback),("fallbacks.xsl",.transformedFallback),("metadata",.rawMetadataUpdate)
  ,("metadata.xsl",.transformedMetadataUpdate),("admin.cgi",.shoutcastMetadataUpdate),("listclients",.rawShowListeners)
  ,("listclients.xsl",.transformedShowListeners),("stats",.rawStats),("stats.xsl",.transformedStats),
    ("stats.xml",.rawStats)
  ,("listmounts",.rawListMounts),("listmounts.xsl",.transformedListMounts),("streamlist",.rawListstream)
  ,("streamlist.txt",.plaintextListstream),("moveclients",.rawMoveClients),("moveclients.xsl",.transformedMoveClients)
  ,("killclient",.rawKillClient),("killclient.xsl",.transformedKillClient),("killsource",.rawKillSource)
  ,("killsource.xsl",.transformedKillSource),("manageauth",.rawManageauth),("manageauth.xsl",.transformedManageauth)
  ,("updatemetadata",.rawUpdatemetadata),("updatemetadata.xsl",.transformedUpdatemetadata),("buildm3u",.buildm3u)
  ,("",.transformedStats)]

def adminGetCommand (command : List UInt8) : Option Command :=
  (commands.find? fun row => ascii row.1 = command).map (·.2)

inductive Response where
  | raw | transformed | plaintext
deriving DecidableEq

inductive Handler where
  | stats | listMounts | fallback | metadata | shoutcastMetadata | showListeners | moveClients | killClient | killSource | manageauth
  | updatemetadata
deriving DecidableEq

structure Source where
  mount : List UInt8
  running : Bool
  onDemand : Bool
  shoutcastCompat : Bool
deriving DecidableEq

-- The part of the server a request is checked against.
structure Server where
  config : Config
  shoutcastMount : Option (List UInt8)
  sources : List Source

-- `listenerMount` is the shoutcast_mount of the listener the client's socket belongs to.
structure Client where
  parser : Parser
  authenticated : Bool
  listenerMount : Option (List UInt8)

-- What a request comes to: an error response, a command run on a source or on none, a
-- playlist, or the request queued for the authenticator of the mount.
inductive Effect where
  | error (status : Nat) (message : Option String)
  | handler (handler : Handler) (source : Option Source) (response : Response)
  | playlist (mount : List UInt8)
  | pending (mount : List UInt8)
deriving DecidableEq

def adminHandleGeneralRequest : Command → List Effect
  | .rawStats => [.handler .stats none .raw]
  | .rawListMounts => [.handler .listMounts none .raw]
  | .rawListstream => [.handler .listMounts none .raw]
  | .plaintextListstream => [.handler .listMounts none .plaintext]
  | .transformedStats => [.handler .stats none .transformed]
  | .transformedListMounts => [.handler .listMounts none .transformed]
  | .transformedListstream => [.handler .listMounts none .transformed]
  | .transformedMoveClients => [.handler .listMounts none .transformed]
  | _ => [.error 400 (some "Unknown admin request")]

def adminHandleMountRequest (source : Source) : Command → List Effect
  | .rawStats => [.handler .stats source .raw]
  | .rawFallback => [.handler .fallback source .raw]
  | .rawMetadataUpdate => [.handler .metadata source .raw]
  | .transformedMetadataUpdate => [.handler .metadata source .transformed]
  | .shoutcastMetadataUpdate => [.handler .shoutcastMetadata source .raw]
  | .rawShowListeners => [.handler .showListeners source .raw]
  | .rawMoveClients => [.handler .moveClients source .raw]
  | .rawKillClient => [.handler .killClient source .raw]
  | .rawKillSource => [.handler .killSource source .raw]
  | .transformedStats => [.handler .stats source .transformed]
  | .transformedFallback => [.handler .fallback source .raw]
  | .transformedShowListeners => [.handler .showListeners source .transformed]
  | .transformedMoveClients => [.handler .moveClients source .transformed]
  | .transformedKillClient => [.handler .killClient source .transformed]
  | .transformedKillSource => [.handler .killSource source .transformed]
  | .transformedManageauth => [.handler .manageauth source .transformed]
  | .rawManageauth => [.handler .manageauth source .raw]
  | .transformedUpdatemetadata => [.handler .updatemetadata source .transformed]
  | .rawUpdatemetadata => [.handler .updatemetadata source .raw]
  | _ => [.error 400 (some "Mount request unknown")]

def paramMount : List UInt8 := ascii "mount"
def paramPass : List UInt8 := ascii "pass"
def adminCgi : List UInt8 := ascii "/admin.cgi"

-- The mount a shoutcast request is for.
def scMount (s : Server) (c : Client) : Option (List UInt8) := c.listenerMount.or s.shoutcastMount

-- httpp_set_query_param, which does nothing with a NULL value.
def setMount (p : Parser) : Option (List UInt8) → Parser
  | some mount => p.setQueryParam paramMount mount
  | none => p

-- The parser admin_handle_request looks at: a shoutcast request is made one of the
-- shoutcast mount, with the pass parameter for its ICY password.
def rewritten (s : Server) (c : Client) (pass : List UInt8) : Parser :=
  ((setMount c.parser (scMount s c)).setvar varProtocol icy).setvar varIcypassword pass

-- What _handle_connection has put into the parser of a client of the listener.
def portMount (p : Parser) (listenerMount : Option (List UInt8)) : Parser :=
  if p.getvar varUri = some adminCgi then setMount p listenerMount else p

section
variable (fnmatch : List UInt8 → List UInt8 → Bool)

def onMount (s : Server) (command : Command) (mount : List UInt8) : List Effect :=
  match s.sources.find? fun source => source.mount = mount with
  | none => [.error 400 (some "Source does not exist")]
  | some source =>
    if source.running = false ∧ source.onDemand = false then [.error 400 (some "Source is not available")]
    else if command = .shoutcastMetadataUpdate ∧ source.shoutcastCompat = false then
      [.error 400 (some "illegal metadata call")]
    else adminHandleMountRequest source command

-- The rest of admin_handle_request, with the parser as it is by then.
def dispatch (s : Server) (p : Parser) (authenticated : Bool) (command : Command) : List Effect :=
  match p.getQueryParam paramMount with
  | some mount =>
    if command = .buildm3u then [.playlist mount] else
    if authenticated = false ∧ connectionCheckAdminPass s.config p = 0 then
      match clientCheckSourceAuth fnmatch s.config p mount with
      | 0 => onMount s command mount
      | 1 => [.pending mount]
      | _ => [.error 401 none]
    else onMount s command mount
  | none =>
    if command = .plaintextListstream then
      if connectionCheckRelayPass s.config p = 0 then [.error 401 none] else adminHandleGeneralRequest command
    else if connectionCheckAdminPass s.config p = 0 then [.error 401 none]
    else adminHandleGeneralRequest command

def commandString (uri : List UInt8) : List UInt8 := if uri = adminCgi then uri.drop 1 else uri.drop 7

def adminHandleRequest (s : Server) (c : Client) (uri : List UInt8) : List Effect :=
  if ¬(uri = adminCgi ∨ uri.take 7 = ascii "/admin/") then [.error 401 none] else
  match adminGetCommand (commandString uri) with
  | none => [.error 400 (some "Unrecognised command")]
  | some command =>
    if command = .shoutcastMetadataUpdate then
      match c.parser.getQueryParam paramPass with
      | none => [.error 400 (some "missing pass parameter")]
      | some pass => dispatch fnmatch s (rewritten s c pass) c.authenticated command
    else dispatch fnmatch s c.parser c.authenticated command

-- The credentials the parser shows are good for the command.
def Authorised (s : Server) (p : Parser) (command : Command) : Prop :=
  connectionCheckAdminPass s.config p ≠ 0 ∨
  (∃ mount, p.getQueryParam paramMount = some mount ∧ clientCheckSourceAuth fnmatch s.config p mount = 0) ∨
  (p.getQueryParam paramMount = none ∧ command = .plaintextListstream ∧ connectionCheckRelayPass s.config p ≠ 0)

-- The outcomes of a request whose checks look at the parser `p`.
inductive Outcome (s : Server) (p : Parser) (command : Command) : Effect → Prop where
  | error : Outcome s p command (.error status message)
  | playlist (named : command = .buildm3u) : Outcome s p command (.playlist mount)
  | pending (asked : p.getQueryParam paramMount = some mount)
      (authenticator : ∃ m, configFindMount fnmatch s.config mount = some m ∧ m.streamAuth) :
        Outcome s p command (.pending mount)
  | general (authorised : Authorised fnmatch s p command) (other : command ≠ .shoutcastMetadataUpdate) :
      Outcome s p command (.handler handler none response)
  | mount (authorised : Authorised fnmatch s p command) (member : source ∈ s.sources)
      (asked : p.getQueryParam paramMount = some source.mount)
      (compatible : command = .shoutcastMetadataUpdate → source.shoutcastCompat) :
      Outcome s p command (.handler handler (some source) response)

-- The parser the checks of a command look at.
def seen (s : Server) (c : Client) (command : Command) : Option Parser :=
  if command = .shoutcastMetadataUpdate then (c.parser.getQueryParam paramPass).map (rewritten s c) else some c.parser

end

def noFnmatch : List UInt8 → List UInt8 → Bool := fun _ _ => false

def clientOf (p : Parser) (listenerMount : Option (List UInt8)) :
    Client := ⟨portMount p listenerMount,false,listenerMount⟩

instance : Decidable (Readable name line) := List.decidableBAll ..

def otherRequest : List UInt8 := ascii "GET /admin.cgi?pass=x&song=y&mount=%zz&mount=/other HTTP/1.0\r\n\r\n"

end Icecast.Admin
