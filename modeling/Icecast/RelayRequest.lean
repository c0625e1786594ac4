import Icecast.Credentials
import Icecast.HttppQuery
import Icecast.Lib.Transition
import Icecast.RelayConnect

namespace Icecast.RelayRequest
open Bytes Httpp Credentials
open Base64 (utilBase64Encode)
open ResponseHeader (crlf)

-- A word of the request line, and what may stand behind the colon of a header.
structure Word (text : Text) : Prop where
  filled : text ≠ []
  plain : Httpp.Plain text
  whole : space ∉ text

structure Value (text : Text) : Prop where
  filled : text ≠ []
  plain : Httpp.Plain text
  trimmed : text.head? ≠ some space

-- A header as the slave writes it.
structure Field where
  name : Text
  value : Text
  apart : colon ∉ name
  plain : Httpp.Plain name
  good : Value value

def Field.text (f : Field) : Text := f.name++ascii ": "++f.value

theorem plain_append : Httpp.Plain (xs++ys) ↔ Httpp.Plain xs ∧ Httpp.Plain ys := List.forall_mem_append

theorem Field.filled (f : Field) : f.text ≠ [] := by simp [Field.text,ascii]

theorem Field.clean (f : Field) : Httpp.Plain f.text :=
  plain_append.mpr ⟨plain_append.mpr ⟨f.plain,by decide⟩,f.good.plain⟩

theorem Field.behind (f : Field) : f.text.dropWhile (· ≠ colon) = colon::space::f.value ∧
    f.text.takeWhile (· ≠ colon) = f.name := by
  have front : ∀ c ∈ f.name,decide (c ≠ colon) = true :=
    fun c member => by simpa using fun same : c = colon => f.apart (same ▸ member)
  have split : f.text = f.name++colon::space::f.value := by
    rw [Field.text,List.append_assoc]
    rfl
  rw [split,List.dropWhile_append_of_pos front,List.takeWhile_append_of_pos front]
  simp

theorem Field.single (f : Field) (value : Text) : f.text.dropWhile (· ≠ colon) ≠ colon::colon::value := by
  rw [f.behind.1]
  intro same
  exact absurd (List.cons.inj (List.cons.inj same).2).1 (by decide)

def Field.line (f : Field) : HeaderLine := ⟨f.text,.crlf,f.filled,f.clean,f.single⟩

theorem trimmed_drop (trimmed : text.head? ≠ some space) : (text : Text).dropWhile (· = space) = text := by
  cases text with
  | nil => rfl
  | cons c text =>
    have other : c ≠ space := fun same => trimmed (congrArg some same)
    rw [List.dropWhile_cons_of_neg (by simpa using other)]

theorem Field.header (f : Field) : headerOf f.text = some (lowercase f.name,f.value) := by
  have value : f.line.value = f.value := by
    have drops : f.line.value = (space::f.value).dropWhile (· = space) := by
      rw [HeaderLine.value]
      exact congrArg (fun behind => (List.drop 1 behind).dropWhile fun c => decide (c = space)) f.behind.1
    rw [drops,List.dropWhile_cons_of_pos (by decide),trimmed_drop f.good.trimmed]
  have name : f.line.name = f.name := f.behind.2
  have read := headerOf_line f.line
  rw [value,name,if_neg f.good.filled] at read
  exact read

-- The last of the fields with a name.
def given (fields : List Field) (name : Text) : Option Text :=
  ((fields.filter fun f => lowercase f.name = name).getLast?).map Field.value

theorem defined_by_fields (fields : List Field) (name : Text) :
    definedBy name (fields.map Field.text) = given fields name := by
  unfold definedBy given
  rw [List.filterMap_map,←List.getLast?_map]
  congr 1
  induction fields with
  | nil => rfl
  | cons f fields ih =>
    have one : setBy name f.text = if lowercase f.name = name then some f.value else none := by
      rw [setBy,f.header,Option.bind_some]
    by_cases same : lowercase f.name = name
    · rw [if_pos same] at one
      rw [List.filter_cons_of_pos (by simpa using same),List.map_cons,←ih]
      exact List.filterMap_cons_some one
    · rw [if_neg same] at one
      rw [List.filter_cons_of_neg (by simpa using same),←ih]
      exact List.filterMap_cons_none one

theorem scanWords_skip (clean : space ∉ word) :
    scanWords false w uri version (word++rest) = scanWords false w uri version rest := by
  induction word with
  | nil => rfl
  | cons c word ih =>
    have other : c ≠ space := fun same => clean (same ▸ List.mem_cons_self)
    rw [List.cons_append,scanWords,if_neg other]
    exact ih fun member => clean (List.mem_cons_of_mem _ member)

def getLine (mount : Text) : Text := ascii "GET "++mount++ascii " HTTP/1.0"

theorem getLine_words (word : Word mount) :
    scanWords false 0 none none (getLine mount) = (some mount,some (ascii "HTTP/1.0")) := by
  obtain ⟨c,text,rfl⟩ := List.exists_cons_of_ne_nil word.filled
  have other : c ≠ space := fun same => word.whole (same ▸ List.mem_cons_self)
  have clean : space ∉ text := fun member => word.whole (List.mem_cons_of_mem _ member)
  have taken : (c::(text++ascii " HTTP/1.0")).takeWhile (· ≠ space) = c::text := by
    have front : ∀ d ∈ c::text,decide (d ≠ space) = true :=
      fun d member => by simpa using fun same : d = space => word.whole (same ▸ member)
    rw [←List.cons_append,List.takeWhile_append_of_pos front,
      show (ascii " HTTP/1.0").takeWhile (fun d => decide (d ≠ space)) = [] by decide,List.append_nil]
  have first : scanWords false 0 none none (getLine (c::text)) = scanWords true 0 none none
    (c::(text++ascii " HTTP/1.0")) := by
    rw [getLine,List.append_assoc]
    rfl
  rw [first,scanWords,if_neg other]
  dsimp only
  rw [if_pos rfl,taken,scanWords_skip clean]
  rfl

theorem setPairs_reqType (p : Parser) (pairs : List (List UInt8 × List UInt8)) :
    (setPairs p pairs).reqType = p.reqType := by
  induction pairs generalizing p with
  | nil => rfl
  | cons kv pairs ih => exact ih (p.setQueryParam kv.1 kv.2)

theorem setUri_parts (p : Parser) (uri : Text) : (setUri p uri).uri = some (uri.takeWhile (· ≠ 63)) ∧
    (setUri p uri).reqType = p.reqType ∧
    (63 ∉ uri → (setUri p uri).queryvars = p.queryvars) := by
  unfold setUri
  cases behind : uri.dropWhile (· ≠ 63) with
  | nil => exact ⟨rfl,rfl,fun _ => rfl⟩
  | cons mark query =>
    refine ⟨rfl,?_,fun bare => ?_⟩
    · dsimp only
      split
      · rfl
      · rw [parseQuery_pairs]
        exact setPairs_reqType _ _
    · have all : uri.dropWhile (fun c => decide (c ≠ 63)) = [] :=
        List.dropWhile_eq_nil_iff.mpr fun c member => by simpa using fun same : c = 63 => bare (same ▸ member)
      cases behind.symm.trans all

theorem getLine_parsed (word : Word mount) : ∃ q,parseRequestLine (getLine mount) = some q ∧ q.reqType = .get ∧
    q.getvar varUri = some (mount.takeWhile (· ≠ 63)) ∧ q.getvar varProtocol = some (ascii "HTTP") ∧
    q.getvar varVersion = some (ascii "1.0") ∧
    (63 ∉ mount → q.queryvars = .leaf) := by
  have words := getLine_words word
  have kind : reqTypeOf ((getLine mount).takeWhile (· ≠ space)) = .get := by
    rw [show (getLine mount).takeWhile (fun c => decide (c ≠ space)) = ascii "GET" by
      rw [getLine,List.append_assoc]; rfl]
    decide
  have version : (ascii "HTTP/1.0").dropWhile (fun c => decide (c ≠ 47)) = 47::ascii "1.0" ∧
      (ascii "HTTP/1.0").takeWhile (fun c => decide (c ≠ 47)) = ascii "HTTP" := by decide
  have filled : ¬(ascii "HTTP" = [] ∨ ascii "1.0" = []) := by decide
  have parts := setUri_parts {httppInitialize with reqType := reqTypeOf ((getLine mount).takeWhile (· ≠ space))} mount
  rw [kind] at parts
  unfold parseRequestLine
  dsimp only
  rw [words]
  dsimp only
  rw [version.1,version.2,kind]
  dsimp only
  rw [if_neg filled]
  generalize setUri {httppInitialize with reqType := .get} mount = p at parts
  have type : ((p.setvar varProtocol (ascii "HTTP")).setvar varVersion (ascii "1.0")).reqType = .get := parts.2.1
  have path : ((p.setvar varProtocol (ascii "HTTP")).setvar varVersion (ascii "1.0")).uri =
    some (mount.takeWhile (· ≠ 63)) := parts.1
  have number : ((p.setvar varProtocol (ascii "HTTP")).setvar varVersion (ascii "1.0")).getvar varVersion =
    some (ascii "1.0") := by
    rw [getvar_setvar,if_pos rfl]
  have protocol : ((p.setvar varProtocol (ascii "HTTP")).setvar varVersion (ascii "1.0")).getvar varProtocol =
    some (ascii "HTTP") := by
    rw [getvar_setvar,if_neg (by decide),getvar_setvar,if_pos rfl]
  have bare : 63 ∉ mount → ((p.setvar varProtocol (ascii "HTTP")).setvar varVersion
    (ascii "1.0")).queryvars = .leaf := parts.2.2
  generalize (p.setvar varProtocol (ascii "HTTP")).setvar varVersion (ascii "1.0") = told at *
  rw [type,if_neg (by decide),path,Option.map_some]
  refine ⟨(told.setvar varReqType _).setvar varUri _,rfl,type,?_,?_,?_,bare⟩
  · rw [getvar_setvar,if_pos rfl]
  · rw [getvar_setvar,if_neg (by decide),getvar_setvar,if_neg (by decide),protocol]
  · rw [getvar_setvar,if_neg (by decide),getvar_setvar,if_neg (by decide),number]

-- A request as the slave writes it.
def requestBytes (mount : Text) (fields : List Field) : Text := getLine mount++crlf++fields.flatMap (·.text++crlf)++crlf

theorem setHeader_reqType (p : Parser) (line : Text) : (setHeader p line).reqType = p.reqType := by
  unfold setHeader
  split <;> rfl

theorem setHeaders_reqType (p : Parser) (lines : List Text) : (lines.foldl setHeader p).reqType = p.reqType := by
  induction lines generalizing p with
  | nil => rfl
  | cons line lines ih => exact (ih _).trans (setHeader_reqType p line)

-- httpp_parse takes such a request, whatever follows it, for what was meant.
theorem request_parsed (word : Word mount) (fields : List Field) (few : fields.length ≤ 30) (rest : Text) :
    ∃ p,httppParse (requestBytes mount fields++rest) = some p ∧ p.reqType = .get ∧
      (63 ∉ mount → p.queryvars = .leaf) ∧ (∀ name ∉ requestVars,p.getvar name = given fields name) ∧
      ((∀ f ∈ fields,lowercase f.name ∉ requestVars) → p.getvar varUri = some (mount.takeWhile (· ≠ 63)) ∧
        p.getvar varProtocol = some (ascii "HTTP") ∧ p.getvar varVersion = some (ascii "1.0")) := by
  obtain ⟨q,accepted,kind,uri,protocol,version,bare⟩ := getLine_parsed word
  have clean : Httpp.Plain (getLine mount) := plain_append.mpr ⟨plain_append.mpr ⟨by decide,word.plain⟩,by decide⟩
  let request : Request := ⟨getLine mount,.crlf,fields.map Field.line,.crlf,rest,clean,
    by rw [List.length_map]; exact few⟩
  have bytes : request.bytes = requestBytes mount fields++rest := by
    rw [Request.bytes,requestBytes]
    simp only [request,List.flatMap_map]
    rfl
  have lines : request.headers.map HeaderLine.text = fields.map Field.text := by
    rw [List.map_map]
    rfl
  have parsed : httppParse request.bytes = some ((fields.map Field.text).foldl setHeader q) := by
    rw [httppParse_lines,request.text,accepted,request.lines,lines]
    rfl
  have read (name : Text) : ((fields.map Field.text).foldl setHeader q).getvar name =
    (given fields name).or (q.getvar name) := by
    rw [getvar_setHeaders,defined_by_fields]
  refine ⟨_,bytes ▸ parsed,(setHeaders_reqType q _).trans kind,?_,fun name other => ?_,fun apart => ?_⟩
  · intro unasked
    rw [setHeaders_queryvars]
    exact bare unasked
  · rw [read,parseRequestLine_getvar accepted other,Option.or_none]
  · have untold : ∀ name ∈ requestVars,given fields name = none := by
      intro name special
      unfold given
      rw [List.filter_eq_nil_iff.mpr fun f member same =>
        apart f member ((show lowercase f.name = name from of_decide_eq_true same) ▸ special)]
      rfl
    refine ⟨?_,?_,?_⟩
    · rw [read,untold varUri (by decide),Option.none_or,uri]
    · rw [read,untold varProtocol (by decide),Option.none_or,protocol]
    · rw [read,untold varVersion (by decide),Option.none_or,version]

section Base64
open Base64

theorem digit_plain : ∀ n < 64,Httpp.Plain [digit n] := by decide +kernel

theorem plain_cons : Httpp.Plain (c::text) ↔ Httpp.Plain [c] ∧ Httpp.Plain text := by
  rw [←plain_append,List.singleton_append]

theorem encode_plain (data : Text) : Httpp.Plain (utilBase64Encode data) := by
  have first (a : UInt8) : a.toNat/4 < 64 := by have := a.toNat_lt; omega
  have second (a b : UInt8) : a.toNat%4*16+b.toNat/16 < 64 := by have := b.toNat_lt; omega
  have third (b c : UInt8) : b.toNat%16*4+c.toNat/64 < 64 := by have := c.toNat_lt; omega
  have padded : Httpp.Plain [pad] := by decide
  induction data using utilBase64Encode.induct with
  | case1 => exact List.forall_mem_nil _
  | case2 a =>
    exact plain_cons.mpr ⟨digit_plain _ (first a),
      plain_cons.mpr ⟨digit_plain _ (by omega),plain_cons.mpr ⟨padded,padded⟩⟩⟩
  | case3 a b =>
    exact plain_cons.mpr ⟨digit_plain _ (first a),plain_cons.mpr ⟨digit_plain _ (second a b),
      plain_cons.mpr ⟨digit_plain _ (by omega),padded⟩⟩⟩
  | case4 a b c data ih =>
    exact plain_cons.mpr ⟨digit_plain _ (first a),plain_cons.mpr ⟨digit_plain _ (second a b),
      plain_cons.mpr ⟨digit_plain _ (third b c),plain_cons.mpr ⟨digit_plain _ (by omega),ih⟩⟩⟩⟩

end Base64

theorem login_value (login : Text) : Value (basic++utilBase64Encode login) :=
  ⟨by simp [basic,ascii],plain_append.mpr ⟨by decide,encode_plain login⟩,by simp [basic,ascii,space]⟩

def authField (login : Text) :
    Field := ⟨ascii "Authorization",basic++utilBase64Encode login,by decide,by decide,login_value login⟩

-- The name and the password of a relay, as they are encoded.
def loginOf (r : RelayConnect.RelayServer) : Option Text :=
  r.username.bind fun username => r.password.map fun password => username++colon::password

theorem given_one (f : Field) (name : Text) :
    given [f] name = if name = lowercase f.name then some f.value else none := by
  by_cases same : name = lowercase f.name
  · rw [if_pos same,given,List.filter_cons_of_pos (by simpa using same.symm)]
    rfl
  · rw [if_neg same,given,List.filter_cons_of_neg (by simpa using fun equal => same equal.symm)]
    rfl

-- What does not change from one turn of the loop to the next.
structure Same (r : RelayConnect.RelayServer) (serverId : Text) (l : RelayConnect.Locals) : Prop where
  agent : l.serverId.text = serverId
  auth : l.authHeader.text = ((loginOf r).map authField).toList.flatMap (·.text++crlf)

def moved : RelayConnect.After → Option RelayConnect.Locals
  | .again l => some l
  | .done _ => none

def movedReply : RelayConnect.Reply := .header (ascii "HTTP/1.0 302 Moved\r\nLocation: http://two/b?x\r\n\r\n")

end Icecast.RelayRequest
