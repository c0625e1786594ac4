import Icecast.Base64
import Icecast.Httpp

namespace Icecast.Credentials
open Bytes Httpp Base64

inductive MountType where
  | normal | default_
deriving DecidableEq

-- mount_proxy; `streamAuth` is set when the mount has an authenticator with a stream_auth.
structure MountProxy where
  mounttype : MountType
  mountname : Option (List UInt8)
  username : Option (List UInt8)
  password : Option (List UInt8)
  streamAuth : Bool

structure Config where
  sourcePassword : Option (List UInt8)
  adminUsername : Option (List UInt8)
  adminPassword : Option (List UInt8)
  relayUsername : Option (List UInt8)
  relayPassword : Option (List UInt8)
  iceLogin : Bool
  mounts : List MountProxy

def basic : List UInt8 := ascii "Basic "
def icy : List UInt8 := ascii "ICY"
def authorization : List UInt8 := ascii "authorization"
def icePassword : List UInt8 := ascii "ice-password"

-- The user and the password in front of and behind the first ':'.
def splitUserpass (userpass : List UInt8) : Option (List UInt8 × List UInt8) :=
  match userpass.dropWhile (· ≠ colon) with
  | [] => none
  | _::password => some (userpass.takeWhile (· ≠ colon),password)

def checkPassHttp (p : Parser) (correctuser correctpass : List UInt8) : Int :=
  match p.getvar authorization with
  | none => 0
  | some header =>
    if header.take 6 ≠ basic then 0 else
    match utilBase64Decode (header.drop 6) with
    | none => 0
    | some userpass => if splitUserpass (cstr userpass) = some (correctuser,correctpass) then 1 else 0

def checkPassIcy (p : Parser) (correctpass : List UInt8) : Int :=
  match p.getvar varIcypassword with
  | none => 0
  | some password => if password = correctpass then 1 else 0

def checkPassIce (p : Parser) (correctpass : List UInt8) : Int :=
  let password := (p.getvar icePassword).getD []
  if password = correctpass then 1 else 0

def connectionCheckAdminPass (config : Config) (p : Parser) : Int :=
  match config.adminPassword,config.adminUsername with
  | some pass,some user => if p.getvar varProtocol = some icy then checkPassIcy p pass else checkPassHttp p user pass
  | _,_ => 0

def connectionCheckRelayPass (config : Config) (p : Parser) : Int :=
  match config.relayPassword,config.relayUsername with
  | some pass,some user => checkPassHttp p user pass
  | _,_ => 0

def connectionCheckPass (config : Config) (p : Parser) (user : List UInt8) : Option (List UInt8) → Int
  | none => -1
  | some pass =>
    if p.getvar varProtocol = some icy then checkPassIcy p pass else
    let ret := checkPassHttp p user pass
    if ret = 0 ∧ config.iceLogin then checkPassIce p pass else ret

section
-- fnmatch of the C library, pattern first
variable (fnmatch : List UInt8 → List UInt8 → Bool)

def MountProxy.covers (m : MountProxy) (type : MountType) (mount : List UInt8) : Bool :=
  m.mounttype = type && match m.mountname with
    | none => true
    | some name => (type = .normal && name = mount) || fnmatch name mount

def configFindMount (config : Config) (mount : List UInt8) : Option MountProxy :=
  (config.mounts.find? fun m => m.covers fnmatch .normal mount).or (config.mounts.find? fun m =>
    m.covers fnmatch .default_ mount)

-- auth_stream_authenticate: 1 when the request is queued for the mount's authenticator.
def authStreamAuthenticate (m : MountProxy) : Int := if m.streamAuth then 1 else 0

-- The user and the password a source of the mount has to give.
def sourceUser (config : Config) (mount : List UInt8) : List UInt8 :=
  ((configFindMount fnmatch config mount).bind (·.username)).getD (ascii "source")

def sourcePass (config : Config) (mount : List UInt8) : Option (List UInt8) :=
  ((configFindMount fnmatch config mount).bind (·.password)).or config.sourcePassword

-- client_check_source_auth: -1 failed, 0 authenticated, 1 pending.
def clientCheckSourceAuth (config : Config) (p : Parser) (mount : List UInt8) : Int :=
  let checked := if connectionCheckPass config p (sourceUser fnmatch config mount)
    (sourcePass fnmatch config mount) > 0 then 0 else -1
  match configFindMount fnmatch config mount with
  | some m => if authStreamAuthenticate m > 0 then 1 else checked
  | none => checked

end

variable {p : Parser} {user pass : List UInt8}

-- The credentials as a client writes them: slave.c builds the header so.
def Basic (p : Parser) (user pass : List UInt8) : Prop :=
  p.getvar authorization = some (basic++utilBase64Encode (user++colon::pass))

def Icy (p : Parser) : Prop := p.getvar varProtocol = some icy

instance : Decidable (Basic p user pass) := inferInstanceAs (Decidable (_ = _))
instance : Decidable (Icy p) := inferInstanceAs (Decidable (_ = _))

-- A request that says the configured words: over HTTP, on an ICY request where `icyToo`,
-- in an ice-password header where `ice`.
def Authentic (icyToo ice : Bool) (p : Parser) (user pass : List UInt8) : Prop :=
  Basic p user pass ∨ (icyToo ∧ Icy p ∧ p.getvar varIcypassword = some pass) ∨ (ice ∧ p.getvar icePassword = some pass)

-- Text that util_base64_decode takes for the credentials.
def Spells (text user pass : List UInt8) : Prop :=
  ∃ userpass, utilBase64Decode text = some userpass ∧ splitUserpass (cstr userpass) = some (user,pass)

-- The text behind "Basic " is as util_base64_encode writes it, or ends in an incomplete group.
def Clean (p : Parser) : Prop :=
  ∀ text, p.getvar authorization = some (basic++text) → canonical text = true ∨ text.length%4 ≠ 0

-- Nothing for util_base64_decode to pass over or to drop, and no missing ice-password header
-- that _check_pass_ice takes for the empty password.
def Plainly (icyToo ice : Bool) (p : Parser) (user pass : List UInt8) : Prop :=
  (icyToo ∧ Icy p) ∨ (Clean p ∧ (Basic p user pass ∨ ¬(ice ∧ p.getvar icePassword = none ∧ pass = [])))

-- A check whose success says the configured words where the request is plain, and, if its
-- text is clean, nowhere else.
structure Decides (icyToo ice : Bool) (p : Parser) (user pass : List UInt8) (success : Prop) : Prop where
  sound : Plainly icyToo ice p user pass → success → Authentic icyToo ice p user pass
  only : Clean p → (success → Authentic icyToo ice p user pass) → Plainly icyToo ice p user pass

theorem splitUserpass_eq (split : splitUserpass text = some (user,pass)) : text = user++colon::pass := by
  have parts := List.takeWhile_append_dropWhile (p := (· ≠ colon)) (l := text)
  unfold splitUserpass at split
  cases rest : text.dropWhile (· ≠ colon) with
  | nil =>
    rw [rest] at split
    cases split
  | cons c password =>
    rw [rest] at split parts
    simp only [Option.some.injEq,Prod.mk.injEq] at split
    have mark : c = colon := by
      have head := List.head?_dropWhile_not (· ≠ colon) text
      rw [rest] at head
      simpa using head
    rw [←parts,split.1,split.2,mark]

theorem splitUserpass_iff (apart : colon ∉ user) (text : List UInt8) :
    splitUserpass text = some (user,pass) ↔ text = user++colon::pass := by
  refine ⟨splitUserpass_eq,?_⟩
  rintro rfl
  have front : ∀ c ∈ user, decide (c ≠ colon) = true :=
    fun c member => by simpa using fun same : c = colon => apart (same ▸ member)
  unfold splitUserpass
  rw [List.dropWhile_append_of_pos front,List.takeWhile_append_of_pos front]
  simp

theorem checkPassHttp_iff (p : Parser) (user pass : List UInt8) :
    checkPassHttp p user pass = 1 ↔ ∃ text, p.getvar authorization = some (basic++text) ∧ Spells text user pass := by
  unfold checkPassHttp
  cases found : p.getvar authorization with
  | none => simp
  | some header =>
    dsimp only
    have parts := List.take_append_drop 6 header
    constructor
    · intro accepted
      split at accepted
      · cases accepted
      · rename_i scheme
        split at accepted
        · cases accepted
        · rename_i userpass decoded
          split at accepted
          · refine ⟨header.drop 6,?_,userpass,decoded,‹_›⟩
            rw [←Decidable.not_not.mp scheme,parts]
          · cases accepted
    · rintro ⟨text,same,userpass,decoded,split⟩
      cases same
      have scheme : (basic++text).take 6 = basic := List.take_left' rfl
      have rest : (basic++text).drop 6 = text := List.drop_left' rfl
      rw [if_neg (by simpa using scheme),rest,decoded]
      dsimp only
      rw [if_pos split]

theorem checkPassHttp_zero (p : Parser) (user pass : List UInt8) (refused : checkPassHttp p user pass ≠ 1) :
    checkPassHttp p user pass = 0 := by
  revert refused
  unfold checkPassHttp
  repeat' split
  all_goals simp

theorem checkPassHttp_encoded (plain : (0 : UInt8) ∉ text) (apart : colon ∉ user)
    (header : p.getvar authorization = some (basic++utilBase64Encode text)) :
    checkPassHttp p user pass = 1 ↔ text = user++colon::pass := by
  rw [checkPassHttp_iff,←splitUserpass_iff apart]
  have decoded := decode_encode_cstr plain
  constructor
  · rintro ⟨other,same,userpass,read,split⟩
    have rest : utilBase64Encode text = other := List.append_cancel_left (Option.some.inj (header.symm.trans same))
    rw [rest,read] at decoded
    rw [←Option.some.inj decoded]
    exact split
  · intro split
    obtain ⟨userpass,read,there⟩ := Option.map_eq_some_iff.mp decoded
    exact ⟨_,header,userpass,read,there ▸ split⟩

theorem Basic.accepted (said : Basic p user pass) (apart : colon ∉ user) (plainUser : (0 : UInt8) ∉ user)
    (plainPass : (0 : UInt8) ∉ pass) :
    checkPassHttp p user pass = 1 :=
  (checkPassHttp_encoded (by simpa [plainUser,plainPass] using show (0 : UInt8) ≠ colon by decide) apart said).mpr rfl

theorem Basic.clean (said : Basic p user pass) (plainUser : (0 : UInt8) ∉ user)
    (plainPass : (0 : UInt8) ∉ pass) : Clean p := by
  intro text header
  have same : utilBase64Encode (user++colon::pass) = text :=
    List.append_cancel_left (Option.some.inj (said.symm.trans header))
  have plain : (0 : UInt8) ∉ user++colon::pass := by simpa [plainUser,plainPass] using show (0 : UInt8) ≠ colon by decide
  exact .inl (same ▸ encode_canonical _ plain)

-- The three checks in the order connection_check_pass makes them.
def verdict (icyToo ice : Bool) (p : Parser) (user pass : List UInt8) : Int :=
  if icyToo ∧ Icy p then checkPassIcy p pass
  else if checkPassHttp p user pass = 0 ∧ ice then checkPassIce p pass else checkPassHttp p user pass

theorem connectionCheckPass_verdict (config : Config) (p : Parser) (user pass : List UInt8) :
    connectionCheckPass config p user (some pass) = verdict true config.iceLogin p user pass := by
  simp [connectionCheckPass,verdict,Icy]

theorem checkPassIcy_iff (p : Parser) (pass : List UInt8) : checkPassIcy p pass = 1 ↔
    p.getvar varIcypassword = some pass := by
  unfold checkPassIcy
  cases p.getvar varIcypassword <;> simp

theorem verdict_iff (icyToo ice : Bool) (p : Parser) (user pass : List UInt8) : verdict icyToo ice p user pass = 1 ↔
    if icyToo ∧ Icy p then p.getvar varIcypassword = some pass
    else checkPassHttp p user pass = 1 ∨ (ice ∧ (p.getvar icePassword).getD [] = pass) := by
  unfold verdict
  split
  · exact checkPassIcy_iff p pass
  · by_cases accepted : checkPassHttp p user pass = 1
    · simp [accepted]
    · have refused := checkPassHttp_zero p user pass accepted
      cases ice <;> simp [refused,checkPassIce]

theorem Clean.basic (clean : Clean p) (accepted : checkPassHttp p user pass = 1) : Basic p user pass := by
  obtain ⟨text,header,userpass,decoded,split⟩ := (checkPassHttp_iff p user pass).mp accepted
  rcases clean text header with written | uneven
  · obtain ⟨bytes,plain,rfl⟩ := canonical_encoded text written
    have back := decode_encode_cstr plain
    rw [decoded] at back
    rw [Option.some.inj back] at split
    rw [Basic,header,splitUserpass_eq split]
  · rw [decode_uneven text uneven] at decoded
    cases decoded

theorem verdict_decides (icyToo ice : Bool) (p : Parser) (user pass : List UInt8) :
    Decides icyToo ice p user pass (verdict icyToo ice p user pass = 1) where
  sound := fun plainly success => by
    rw [verdict_iff] at success
    split at success
    · rename_i icyRequest
      exact .inr (.inl ⟨icyRequest.1,icyRequest.2,success⟩)
    · rename_i other
      rcases plainly with icyRequest | ⟨clean,rest⟩
      · exact absurd icyRequest other
      rcases success with accepted | ⟨on,same⟩
      · exact .inl (clean.basic accepted)
      · rcases rest with said | given
        · exact .inl said
        · cases found : p.getvar icePassword with
          | none =>
            rw [found] at same
            exact absurd ⟨on,found,same.symm⟩ given
          | some word =>
            rw [found] at same
            exact .inr (.inr ⟨on,by rw [found]; exact congrArg some same⟩)
  only := fun clean sound => by
    by_cases icyRequest : icyToo ∧ Icy p
    · exact .inl icyRequest
    · refine .inr ⟨clean,?_⟩
      by_cases said : Basic p user pass
      · exact .inl said
      · refine .inr fun ⟨on,missing,empty⟩ => ?_
        have success : verdict icyToo ice p user pass = 1 := by
          rw [verdict_iff,if_neg icyRequest]
          exact .inr ⟨on,by rw [missing,empty]; rfl⟩
        rcases sound success with said' | ⟨icy,proto,_⟩ | ⟨_,named⟩
        · exact said said'
        · exact icyRequest ⟨icy,proto⟩
        · cases missing.symm.trans named

theorem Decides.congr (decides : Decides icyToo ice p user pass success) (same : other ↔ success) :
    Decides icyToo ice p user pass other :=
  ⟨fun plainly won => decides.sound plainly (same.mp won),fun clean sound =>
    decides.only clean fun won => sound (same.mpr won)⟩

theorem verdict_zero (refused : verdict icyToo ice p user pass ≠ 1) : verdict icyToo ice p user pass = 0 := by
  have http := checkPassHttp_zero p user pass
  revert refused
  unfold verdict checkPassIcy checkPassIce
  repeat' split
  all_goals simp
  exact http

theorem verdict_positive (icyToo ice : Bool) (p : Parser) (user pass : List UInt8) :
    verdict icyToo ice p user pass > 0 ↔ verdict icyToo ice p user pass = 1 := by
  by_cases accepted : verdict icyToo ice p user pass = 1
  · simp [accepted]
  · simp [verdict_zero accepted]

theorem verdict_nonzero (icyToo ice : Bool) (p : Parser) (user pass : List UInt8) :
    verdict icyToo ice p user pass ≠ 0 ↔ verdict icyToo ice p user pass = 1 := by
  by_cases accepted : verdict icyToo ice p user pass = 1
  · simp [accepted]
  · simp [verdict_zero accepted]

theorem connectionCheckAdminPass_verdict (config : Config) (p : Parser) (named : config.adminUsername = some user)
    (set : config.adminPassword = some pass) : connectionCheckAdminPass config p = verdict true false p user pass := by
  simp [connectionCheckAdminPass,named,set,verdict,Icy]

theorem connectionCheckRelayPass_verdict (config : Config) (p : Parser) (named : config.relayUsername = some user)
    (set : config.relayPassword = some pass) : connectionCheckRelayPass config p = verdict false false p user pass := by
  simp [connectionCheckRelayPass,named,set,verdict]

section
variable (fnmatch : List UInt8 → List UInt8 → Bool)

theorem clientCheckSourceAuth_iff (config : Config) (p : Parser) (mount : List UInt8) :
    clientCheckSourceAuth fnmatch config p mount = 0 ↔ (∀ m, configFindMount fnmatch config mount = some m →
    m.streamAuth = false) ∧
      ∃ pass, sourcePass fnmatch config mount = some pass ∧
      verdict true config.iceLogin p (sourceUser fnmatch config mount) pass = 1 := by
  have checked : (if connectionCheckPass config p (sourceUser fnmatch config mount)
    (sourcePass fnmatch config mount) > 0 then (0 : Int) else -1) = 0 ↔
      ∃ pass, sourcePass fnmatch config mount = some pass ∧
        verdict true config.iceLogin p (sourceUser fnmatch config mount) pass = 1 := by
    cases sourcePass fnmatch config mount with
    | none => simp [connectionCheckPass]
    | some pass => simp [connectionCheckPass_verdict,verdict_positive]
  unfold clientCheckSourceAuth
  cases configFindMount fnmatch config mount with
  | none => simpa using checked
  | some m =>
    cases streamAuth : m.streamAuth
    · simpa [authStreamAuthenticate,streamAuth] using checked
    · simp [authStreamAuthenticate,streamAuth]

-- The credential decision. Encoded credentials pass, an encoded text passes exactly when it is
-- the credentials, nothing passes without a configured password, and each check, with success
-- as its callers test it, decides on the configured words.
theorem credential_decision (config : Config) (p : Parser) :
    (∀ user pass, colon ∉ user → (0 : UInt8) ∉ user → (0 : UInt8) ∉ pass → Basic p user pass →
    checkPassHttp p user pass = 1) ∧
    (∀ text user pass, (0 : UInt8) ∉ text → colon ∉ user →
    p.getvar authorization = some (basic++utilBase64Encode text) →
      (checkPassHttp p user pass = 1 ↔ text = user++colon::pass)) ∧
    ((∀ user, connectionCheckPass config p user none = -1) ∧ (config.adminPassword = none →
    connectionCheckAdminPass config p = 0) ∧
      (config.relayPassword = none → connectionCheckRelayPass config p = 0) ∧
      ∀ mount, sourcePass fnmatch config mount = none → clientCheckSourceAuth fnmatch config p mount ≠ 0) ∧
    (∀ user pass, Decides true config.iceLogin p user pass (connectionCheckPass config p user (some pass) > 0)) ∧
    (∀ user pass, config.adminUsername = some user → config.adminPassword = some pass →
      Decides true false p user pass (connectionCheckAdminPass config p ≠ 0)) ∧
    (∀ user pass, config.relayUsername = some user → config.relayPassword = some pass →
      Decides false false p user pass (connectionCheckRelayPass config p ≠ 0)) ∧
    ∀ mount pass, sourcePass fnmatch config mount = some pass → (∀ m, configFindMount fnmatch config mount = some m →
      m.streamAuth = false) →
      Decides true config.iceLogin p (sourceUser fnmatch config mount) pass
      (clientCheckSourceAuth fnmatch config p mount = 0) := by
  refine ⟨fun user pass apart plain plain' said => said.accepted apart plain plain',
    fun text user pass plain apart header => checkPassHttp_encoded plain apart header,
      ⟨fun user => rfl,?_,?_,?_⟩,?_,?_,?_,?_⟩
  · intro missing
    simp [connectionCheckAdminPass,missing]
  · intro missing
    simp [connectionCheckRelayPass,missing]
  · intro mount missing success
    obtain ⟨_,pass,set,_⟩ := (clientCheckSourceAuth_iff fnmatch config p mount).mp success
    cases missing.symm.trans set
  · intro user pass
    refine (verdict_decides true config.iceLogin p user pass).congr ?_
    rw [connectionCheckPass_verdict,verdict_positive]
  · intro user pass named set
    refine (verdict_decides true false p user pass).congr ?_
    rw [connectionCheckAdminPass_verdict config p named set,verdict_nonzero]
  · intro user pass named set
    refine (verdict_decides false false p user pass).congr ?_
    rw [connectionCheckRelayPass_verdict config p named set,verdict_nonzero]
  · intro mount pass set checked
    refine (verdict_decides true config.iceLogin p (sourceUser fnmatch config mount) pass).congr ?_
    rw [clientCheckSourceAuth_iff]
    refine ⟨?_,fun accepted => ⟨checked,pass,set,accepted⟩⟩
    rintro ⟨_,other,same,accepted⟩
    cases set.symm.trans same
    exact accepted

end

-- An empty password, and a request that gives none.
def openConfig : Config := ⟨some [],none,none,none,none,true,[]⟩
def bareRequest : List UInt8 := ascii "SOURCE /live HTTP/1.0\r\n\r\n"

-- A group of characters that are no digits in front of the credentials.
def hackmeConfig : Config := ⟨some (ascii "hackme"),none,none,none,none,false,[]⟩
def junkRequest : List UInt8 := ascii "SOURCE /live HTTP/1.0\r\nAuthorization: Basic !!!!c291cmNlOmhhY2ttZQ==\r\n\r\n"

theorem login_without_words :
    (∃ p, httppParse bareRequest = some p ∧ clientCheckSourceAuth (fun _ _ => false) openConfig p (ascii "/live") = 0 ∧
      ¬Authentic true openConfig.iceLogin p (ascii "source") []) ∧
    ∃ p, httppParse junkRequest = some p ∧ clientCheckSourceAuth (fun _ _ => false) hackmeConfig p (ascii "/live") = 0 ∧
      ¬Authentic true hackmeConfig.iceLogin p (ascii "source") (ascii "hackme") := by
  have bare : (httppParse bareRequest).map (fun p => (p.getvar authorization,p.getvar varProtocol,p.getvar icePassword))
      = some (none,some (ascii "HTTP"),none) := by decide +kernel
  have junk : (httppParse junkRequest).map (fun p => (p.getvar authorization,p.getvar varProtocol))
      = some (some (ascii "Basic !!!!c291cmNlOmhhY2ttZQ=="),some (ascii "HTTP")) := by decide +kernel
  have noneAccepted : ((httppParse bareRequest).map fun p =>
    clientCheckSourceAuth (fun _ _ => false) openConfig p (ascii "/live")) = some 0 := by
    decide +kernel
  have junkAccepted : ((httppParse junkRequest).map fun p =>
    clientCheckSourceAuth (fun _ _ => false) hackmeConfig p (ascii "/live")) = some 0 := by
    decide +kernel
  obtain ⟨p,parsed,values⟩ := Option.map_eq_some_iff.mp bare
  obtain ⟨q,parsed',values'⟩ := Option.map_eq_some_iff.mp junk
  simp only [Prod.mk.injEq] at values values'
  rw [parsed] at noneAccepted
  rw [parsed'] at junkAccepted
  refine ⟨⟨p,parsed,Option.some.inj noneAccepted,?_⟩,q,parsed',Option.some.inj junkAccepted,?_⟩
  · rintro (said | ⟨_,proto,_⟩ | ⟨_,named⟩)
    · cases values.1.symm.trans said
    · exact absurd (Option.some.inj (values.2.1.symm.trans proto)) (by decide)
    · cases values.2.2.symm.trans named
  · rintro (said | ⟨_,proto,_⟩ | ⟨on,_⟩)
    · exact absurd (Option.some.inj (values'.1.symm.trans said)) (by decide +kernel)
    · exact absurd (Option.some.inj (values'.2.symm.trans proto)) (by decide)
    · cases on

end Icecast.Credentials
