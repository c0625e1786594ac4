import Mathlib.Data.List.TakeWhile
import Mathlib.Data.List.Nodup
import Icecast.Lib.AvlMap
import Icecast.Lib.Bytes
import Icecast.UriPath

namespace Icecast.Httpp
open Bytes Avl

def cr : UInt8 := 13
def lf : UInt8 := 10
def space : UInt8 := 32
def colon : UInt8 := 58
def maxHeaders : Nat := 32

def varProtocol : List UInt8 := ascii "__protocol"
def varVersion : List UInt8 := ascii "__version"
def varUri : List UInt8 := ascii "__uri"
def varRawuri : List UInt8 := ascii "__rawuri"
def varQueryargs : List UInt8 := ascii " __queryargs"
def varReqType : List UInt8 := ascii "__req_type"
def varIcypassword : List UInt8 := ascii "__icy_password"

inductive ReqType where
  | none_ | get | post | put | head | source | play | stats | unknown
deriving DecidableEq,Repr

-- http_var_t; the value of a query parameter may be NULL.
abbrev Var := List UInt8 × Option (List UInt8)

-- _compare_vars
def compareVars (a b : Var) : Ordering := compare a.1 b.1

instance : Std.TransCmp compareVars := inferInstanceAs (Std.TransCmp (compareOn fun v : Var => v.1))

-- httpp_getvar and httpp_get_query_param on their trees
def find (t : AvlTree Var) (name : List UInt8) : Option (List UInt8) := (getByKey compareVars (name,none) t).bind (·.2)

-- httpp_setvar and httpp_set_query_param: a name whose value reads as NULL is inserted
-- beside what is there.
def store (t : AvlTree Var) (name : List UInt8) (value : Option (List UInt8)) : AvlTree Var :=
  if find t name = none then insert compareVars (name,value) t
  else insert compareVars (name,value) (delete compareVars (name,value) t)

-- A tree with every name at most once and no NULL among the values.
structure Filled (t : AvlTree Var) : Prop where
  sorted : Sorted compareVars t
  unique : (t.toList.map (·.1)).Nodup
  values : ∀ v ∈ t.toList, v.2 ≠ none

theorem compareVars_eq (a b : Var) : compareVars a b = .eq ↔ a.1 = b.1 := by
  rw [compareVars,Std.LawfulEqCmp.compare_eq_iff_eq]

-- A tree with every name at most once.
structure Once (t : AvlTree Var) : Prop where
  sorted : Sorted compareVars t
  unique : (t.toList.map (·.1)).Nodup

theorem Filled.once (filled : Filled t) : Once t := ⟨filled.sorted,filled.unique⟩

theorem Once.keyed (once : Once t) : AvlMap.Once compareVars Prod.fst t := ⟨once.sorted,once.unique⟩

theorem Once.of_keyed (keyed : AvlMap.Once compareVars Prod.fst t) : Once t := ⟨keyed.sorted,keyed.unique⟩

theorem Once.find_iff (once : Once t) : find t name = some value ↔ (name,some value) ∈ t.toList := by
  unfold find
  rw [Option.bind_eq_some_iff]
  constructor
  · intro ⟨v,got,stored⟩
    obtain ⟨member,same⟩ := (once.keyed.get_iff compareVars_eq _ v).mp got
    rw [show name = v.1 from same,←stored]
    exact member
  · intro there
    exact ⟨_,(once.keyed.get_iff compareVars_eq _ _).mpr ⟨there,rfl⟩,rfl⟩

theorem Once.drop (once : Once t) (name : List UInt8) (value : Option (List UInt8)) :
    Once (delete compareVars (name,value) t) ∧
      ∀ v, v ∈ (delete compareVars (name,value) t).toList ↔ v ∈ t.toList ∧ v.1 ≠ name := by
  obtain ⟨dropped,mem⟩ := once.keyed.drop compareVars_eq (name,value)
  exact ⟨.of_keyed dropped,mem⟩

theorem Once.add (once : Once t) (value : Option (List UInt8)) (fresh : ∀ v ∈ t.toList, v.1 ≠ name) :
    Once (insert compareVars (name,value) t) := .of_keyed (once.keyed.add (name,value) fresh)

theorem Once.missing (once : Once t) (readable : (name,none) ∉ t.toList) (missing : find t name = none) :
    ∀ v ∈ t.toList, v.1 ≠ name := by
  rintro ⟨other,value⟩ member rfl
  cases value with
  | none => exact readable member
  | some value => exact nomatch missing.symm.trans (once.find_iff.mpr member)

theorem Once.store (once : Once t) (readable : (name,none) ∉ t.toList) (value : Option (List UInt8)) :
    Once (store t name value) ∧ ∀ v, v ∈ (Httpp.store t name value).toList ↔ v = (name,value) ∨
    v ∈ t.toList ∧ v.1 ≠ name := by
  unfold Httpp.store
  split
  case isTrue missing =>
    have fresh := once.missing readable missing
    refine ⟨once.add value fresh,fun v => ?_⟩
    rw [mem_insert once.sorted]
    exact or_congr_right ⟨fun member => ⟨member,fresh v member⟩,fun both => both.1⟩
  case isFalse =>
    obtain ⟨dropped,mem⟩ := once.drop name value
    refine ⟨dropped.add value fun v member => ((mem v).mp member).2,fun v => ?_⟩
    rw [mem_insert dropped.sorted,mem]

theorem Once.find_store (once : Once t) (readable : (name,none) ∉ t.toList) (value : Option (List UInt8))
    (other : List UInt8) :
    find (Httpp.store t name value) other = if other = name then value else find t other := by
  obtain ⟨stored,mem⟩ := once.store readable value
  refine Option.ext fun found => ?_
  by_cases same : other = name
  · subst same
    rw [if_pos rfl,stored.find_iff,mem]
    simp [eq_comm]
  · rw [if_neg same,stored.find_iff,mem,once.find_iff]
    simp [same]

theorem Once.find_drop (once : Once t) (name : List UInt8) (value : Option (List UInt8)) (other : List UInt8) :
    find (delete compareVars (name,value) t) other = if other = name then none else find t other := by
  obtain ⟨dropped,mem⟩ := once.drop name value
  refine Option.ext fun found => ?_
  rw [dropped.find_iff,mem]
  by_cases same : other = name
  · simp [same]
  · rw [if_neg same,once.find_iff]
    simp [same]

theorem Filled.readable (filled : Filled t) (name : List UInt8) : (name,none) ∉ t.toList :=
  fun member => filled.values _ member rfl

theorem Filled.drop (filled : Filled t) (name : List UInt8) (value : Option (List UInt8)) :
    Filled (delete compareVars (name,value) t) := by
  obtain ⟨dropped,mem⟩ := filled.once.drop name value
  exact ⟨dropped.sorted,dropped.unique,fun v member => filled.values v ((mem v).mp member).1⟩

theorem Filled.store (filled : Filled t) (name value : List UInt8) : Filled (store t name (some value)) := by
  obtain ⟨stored,mem⟩ := filled.once.store (filled.readable name) (some value)
  refine ⟨stored.sorted,stored.unique,fun v member => ?_⟩
  rcases (mem v).mp member with rfl | ⟨old,_⟩
  · exact Option.some_ne_none _
  · exact filled.values v old

-- parser->vars
structure Vars where
  tree : AvlTree Var
  filled : Filled tree
deriving DecidableEq

def Vars.empty : Vars := ⟨.leaf,List.Pairwise.nil,List.nodup_nil,by simp⟩

-- http_parser_t
structure Parser where
  reqType : ReqType
  uri : Option (List UInt8)
  vars : Vars
  queryvars : AvlTree Var
deriving DecidableEq

-- httpp_initialize without defaults
def httppInitialize : Parser := ⟨.none_,none,.empty,.leaf⟩

def Parser.setvar (p : Parser) (name value : List UInt8) : Parser :=
  {p with vars := ⟨store p.vars.tree name (some value),p.vars.filled.store name value⟩}

def Parser.getvar (p : Parser) (name : List UInt8) : Option (List UInt8) := find p.vars.tree name

@[simp] theorem getvar_setvar (p : Parser) (name value other : List UInt8) :
    (p.setvar name value).getvar other = if other = name then some value else p.getvar other :=
  p.vars.filled.once.find_store (p.vars.filled.readable name) (some value) other

-- url_escape of httpp.c: '+' is a space, and a '#' ends the value.
def urlEscape : List UInt8 → Option (List UInt8)
  | [] => some []
  | c::rest =>
    if c = Uri.percent then
      match rest with
      | a::b::rest =>
        if Uri.hex a = -1 ∨ Uri.hex b = -1 then none
        else (urlEscape rest).map (UInt8.ofNat (Uri.hex a*16+Uri.hex b).toNat::·)
      | _ => none
    else if c = 43 then (urlEscape rest).map (space::·)
    else if c = Uri.hash then some []
    else (urlEscape rest).map (c::·)

-- The string that is stored ends at a NUL the escapes may have made.
def Parser.setQueryParam (p : Parser) (name value : List UInt8) : Parser :=
  {p with queryvars := store p.queryvars name ((urlEscape value).map cstr)}

def Parser.getQueryParam (p : Parser) (name : List UInt8) : Option (List UInt8) := find p.queryvars name

-- The loop of parse_query. `key` and `val` are the pointers, as what follows them in the
-- query: the strings end at the next '&' or '=', which the loop overwrites.
def pieceOf (text : List UInt8) : List UInt8 := text.takeWhile fun c => c ≠ 38 ∧ c ≠ 61

def setPiece (p : Parser) (key : List UInt8) (val : Option (List UInt8)) : Parser :=
  match val with
  | some val => p.setQueryParam (pieceOf key) (pieceOf val)
  | none => p

def parseQuery (p : Parser) (key : List UInt8) (val : Option (List UInt8)) : List UInt8 → Parser
  | [] => setPiece p key val
  | c::query =>
    if c = 38 then parseQuery (setPiece p key val) query val query
    else if c = 61 then parseQuery p key (some query) query
    else parseQuery p key val query

-- split_headers: the data with CR and LF overwritten, the number of lines, and the
-- offsets in line[], none in a slot that is not set. `data` is what the loop has not
-- reached, at offset `i`.
structure Split where
  data : List UInt8
  lines : Nat
  line : Nat → Option Nat

def setSlot (line : Nat → Option Nat) (slot offset : Nat) : Nat → Option Nat :=
  fun k => if k = slot then some offset else line k

def splitFrom (i lines : Nat) (line : Nat → Option Nat) : List UInt8 → Split
  | [] => ⟨[],lines,line⟩
  | c::data =>
    if lines ≥ maxHeaders then ⟨c::data,lines,line⟩ else
    if c = lf then
      if lines+1 ≥ maxHeaders then ⟨0::data,maxHeaders,line⟩ else
      match data with
      | [] => ⟨[0],lines+1,line⟩
      | d::_ =>
        if d = lf ∨ d = cr then ⟨0::data,lines+1,line⟩
        else
          let s := splitFrom (i+1) (lines+1) (setSlot line (lines+1) (i+1)) data
          {s with data := 0::s.data}
    else
      let s := splitFrom (i+1) lines line data
      {s with data := (if c = cr then 0 else c)::s.data}

def splitHeaders (data : List UInt8) : Split := splitFrom 0 0 (setSlot (fun _ => none) 0 0) data

-- A line as a C string; none where the slot was never set.
def Split.lineAt (s : Split) (l : Nat) : Option (List UInt8) := (s.line l).map fun offset => cstr (s.data.drop offset)

-- The scan of one line in parse_headers: the value it finds.
def scanValue (whitespace : Bool) : List UInt8 → Option (List UInt8)
  | [] => none
  | c::line =>
    if c = colon then scanValue true line
    else if whitespace then
      let value := (c::line).dropWhile (· = space)
      if value = [] then none else some value
    else scanValue false line

-- tolower in the C locale
def toLower (c : UInt8) : UInt8 := if 65 ≤ c ∧ c ≤ 90 then c+32 else c

def lowercase (text : List UInt8) : List UInt8 := text.map toLower

-- What one header line sets: the name is the text before the first ':'.
def headerOf (line : List UInt8) : Option (List UInt8 × List UInt8) :=
  (scanValue false line).map fun value => (lowercase (line.takeWhile (· ≠ colon)),value)

def setHeader (p : Parser) (line : List UInt8) : Parser :=
  match headerOf line with
  | some (name,value) => p.setvar name value
  | none => p

-- The loop of parse_headers from line l on; none when it reads a slot that is not set.
def parseFrom (s : Split) (p : Parser) (l : Nat) : Nat → Option Parser
  | 0 => some p
  | count+1 => (s.lineAt l).bind fun line => parseFrom s (setHeader p line) (l+1) count

def parseHeaders (s : Split) (p : Parser) : Option Parser := parseFrom s p 1 (s.lines-1)

-- The scan of the request line: the second and the third word.
def scanWords (whitespace : Bool) (where_ : Nat) (uri version : Option (List UInt8)) :
    List UInt8 → Option (List UInt8) × Option (List UInt8)
  | [] => (uri,version)
  | c::line =>
    if c = space then scanWords true where_ uri version line
    else if whitespace then
      let word := (c::line).takeWhile (· ≠ space)
      match where_ with
      | 0 => scanWords false 1 (some word) version line
      | 1 => scanWords false 2 uri (some word) line
      | n => scanWords false (n+1) uri version line
    else scanWords false where_ uri version line

def requestTypes : List (List UInt8 × ReqType) :=
  [(ascii "GET",.get),(ascii "POST",.post),(ascii "PUT",.put),(ascii "HEAD",.head),
    (ascii "SOURCE",.source),(ascii "PLAY",.play)
  ,(ascii "STATS",.stats)]

-- The strcasecmp chain.
def reqTypeOf (reqType : List UInt8) : ReqType :=
  ((requestTypes.find? fun row => lowercase row.1 = lowercase reqType).map (·.2)).getD .unknown

def ReqType.text : ReqType → List UInt8
  | t => ((requestTypes.find? fun row => row.2 = t).map (·.1)).getD []

-- What httpp_parse does with the URI of the request line.
def setUri (p : Parser) (uri : List UInt8) : Parser :=
  let path := uri.takeWhile (· ≠ 63)
  match uri.dropWhile (· ≠ 63) with
  | [] => {p with uri := some path}
  | mark::query =>
    let p := (p.setvar varRawuri uri).setvar varQueryargs (mark::query)
    {(if query = [] then p else parseQuery p query none query) with uri := some path}

-- httpp_parse up to its call of parse_headers; none where it returns 0.
def parseRequestLine (line : List UInt8) : Option Parser :=
  let words := scanWords false 0 none none line
  let p := {httppInitialize with reqType := reqTypeOf (line.takeWhile (· ≠ space))}
  match words.1 with
  | none => none
  | some uri =>
    let p := setUri p uri
    match words.2 with
    | none => none
    | some version =>
      match version.dropWhile (· ≠ 47) with
      | [] => none
      | _::number =>
        let protocol := version.takeWhile (· ≠ 47)
        if protocol = [] ∨ number = [] then none else
        let p := (p.setvar varProtocol protocol).setvar varVersion number
        if p.reqType = .unknown then none else
        p.uri.map fun path => (p.setvar varReqType p.reqType.text).setvar varUri path

-- httpp_parse of a buffer, with a fresh parser.
def httppParse (data : List UInt8) : Option Parser :=
  let s := splitHeaders data
  (s.lineAt 0).bind fun line => (parseRequestLine line).bind (parseHeaders s)

end Icecast.Httpp
