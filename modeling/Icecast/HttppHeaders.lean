import Mathlib.Data.List.Induction
import Icecast.Httpp

namespace Icecast.Httpp
open Bytes Avl

-- The text of a line: it ends at the line's CR or LF, or at a NUL.
def textOf (start : List UInt8) : List UInt8 := start.takeWhile fun c => c ≠ 0 ∧ c ≠ cr ∧ c ≠ lf

-- The request line and the header lines up to the first empty one, each ended by an LF.
-- `start` is the line the walk is in.
def blockLines (start : List UInt8) : List UInt8 → List (List UInt8)
  | [] => []
  | c::data =>
    if c = lf then
      textOf start::(match data with
        | [] => []
        | d::_ => if d = lf ∨ d = cr then [] else blockLines data data)
    else blockLines start data

theorem blockLines_end (start : List UInt8) : blockLines start [lf] = [textOf start] := rfl

theorem blockLines_lf (start data : List UInt8) (d : UInt8) : blockLines start (lf::d::data) =
    textOf start::if d = lf ∨ d = cr then [] else blockLines (d::data) (d::data) := rfl

theorem blockLines_skip (other : c ≠ lf) : blockLines start (c::data) = blockLines start data := by
  cases data <;> simp [blockLines,other]

def zap (c : UInt8) : UInt8 := if c = cr ∨ c = lf then 0 else c

theorem cstr_zap : cstr (front.map zap) = textOf front := by
  induction front with
  | nil => rfl
  | cons c front ih =>
    unfold cstr textOf at ih ⊢
    simp only [List.map_cons,List.takeWhile_cons,zap]
    by_cases cut : c = cr ∨ c = lf
    · rcases cut with rfl | rfl <;> simp [cr,lf]
    · rw [if_neg cut,ih]
      by_cases zero : c = 0
      · simp [zero]
      · simp [zero,not_or.mp cut]

theorem textOf_stop : textOf (front++lf::back) = textOf front := by
  induction front with
  | nil => rfl
  | cons c front ih =>
    unfold textOf at ih ⊢
    simp only [List.cons_append,List.takeWhile_cons,ih]

-- What split_headers leaves when the walk is in line number `lines`: `before` is the data
-- it has passed, `front` the part of the line it is in.
structure Walked (r : Split) (before : List UInt8) (lines : Nat) (line : Nat → Option Nat) (start : List UInt8)
    (texts : List (List UInt8)) : Prop where
  count : r.lines = lines+texts.length
  texts : ∀ k (inside : k < texts.length), ∃ offset, r.line (lines+k) = some offset ∧
    cstr ((before++r.data).drop offset) = texts[k]
  first : ∃ offset, r.line lines = some offset ∧ cstr ((before++r.data).drop offset) = textOf start
  older : ∀ k < lines, r.line k = line k

theorem Walked.last (slot : line lines = some offset) (text : cstr ((before++data).drop offset) = textOf start) :
    Walked ⟨data,lines+1,line⟩ before lines line start [textOf start] := by
  refine ⟨rfl,fun k inside => ?_,⟨offset,slot,text⟩,fun _ _ => rfl⟩
  obtain rfl : k = 0 := by simpa using inside
  exact ⟨offset,slot,text⟩

theorem Walked.ahead {r : Split} {line : Nat → Option Nat} {texts : List (List UInt8)}
    (next : Walked r (before++[0]) (lines+1) (setSlot line (lines+1) spot) start' texts)
    (slot : line lines = some offset)
    (text : cstr ((before++0::r.data).drop offset) = textOf start) :
    Walked {r with data := 0::r.data} before lines line start (textOf start::texts) := by
  have kept : ∀ k, k ≤ lines → r.line k = line k := fun k low => (next.older k (by omega)).trans (if_neg (by omega))
  have here := (kept lines (Nat.le_refl _)).trans slot
  refine ⟨?_,fun k inside => ?_,⟨offset,here,text⟩,fun k low => kept k (by omega)⟩
  · have counted := next.count
    simp only [counted,List.length_cons]
    omega
  · cases k with
    | zero => exact ⟨offset,here,text⟩
    | succ k =>
      obtain ⟨o,stored,read⟩ := next.texts k (by simpa using inside)
      refine ⟨o,by simpa [Nat.add_assoc,Nat.add_comm 1] using stored,?_⟩
      simpa using read

theorem Walked.byte {r : Split} {texts : List (List UInt8)} (next : Walked r (before++[c]) lines line start texts) :
    Walked {r with data := c::r.data} before lines line start texts := by
  refine ⟨next.count,fun k inside => ?_,?_,next.older⟩
  · obtain ⟨o,stored,read⟩ := next.texts k inside
    exact ⟨o,stored,by simpa using read⟩
  · obtain ⟨o,stored,read⟩ := next.first
    exact ⟨o,stored,by simpa using read⟩

theorem splitFrom_walked (few : lines < maxHeaders) (place : before.length = i)
    (slot : line lines = some offset) (inside : offset ≤ i)
    (here : before.drop offset = front.map zap) :
    Walked (splitFrom i lines line rest) before lines line (front++rest)
      ((blockLines (front++rest) rest).take (maxHeaders-lines)) := by
  induction rest generalizing i lines line before front offset with
  | nil =>
    refine ⟨by simp [splitFrom,blockLines],by simp [blockLines],⟨offset,slot,?_⟩,fun _ _ => rfl⟩
    simp [splitFrom,here,cstr_zap]
  | cons c rest ih =>
    rw [splitFrom.eq_def]
    dsimp only
    rw [if_neg (by omega)]
    by_cases ends : c = lf
    · subst ends
      -- the line that ends here
      have text : ∀ data, cstr ((before++0::data).drop offset) = textOf (front++lf::rest) := fun data => by
        rw [List.drop_append_of_le_length (by omega),here,cstr_stop,cstr_zap,textOf_stop]
      rw [if_pos rfl]
      by_cases full : lines+1 ≥ maxHeaders
      · have single : (blockLines (front++lf::rest) (lf::rest)).take (maxHeaders-lines) =
          [textOf (front++lf::rest)] := by
          rw [show maxHeaders-lines = 1 by omega]
          cases rest <;> rfl
        rw [if_pos full,single,show maxHeaders = lines+1 by omega]
        exact .last slot (text rest)
      · rw [if_neg full]
        have more : maxHeaders-lines = (maxHeaders-(lines+1))+1 := by omega
        cases rest with
        | nil =>
          rw [blockLines_end,more,List.take_succ_cons,List.take_nil]
          exact .last slot (text [])
        | cons d rest =>
          dsimp only
          rw [blockLines_lf,more,List.take_succ_cons]
          by_cases blank : d = lf ∨ d = cr
          · rw [if_pos blank,if_pos blank,List.take_nil]
            exact .last slot (text (d::rest))
          · rw [if_neg blank,if_neg blank]
            have next : Walked (splitFrom (i+1) (lines+1) (setSlot line (lines+1) (i+1)) (d::rest))
              (before++[0]) (lines+1)
                (setSlot line (lines+1) (i+1)) ([]++d::rest)
                  ((blockLines ([]++d::rest) (d::rest)).take (maxHeaders-(lines+1))) :=
              ih (by omega) (by simp [place]) (show setSlot _ _ _ _ = some (i+1) by simp [setSlot]) (Nat.le_refl _)
                (show _ = [].map zap by simp [place])
            exact next.ahead slot (text _)
    · rw [if_neg ends]
      have zapped : zap c = if c = cr then 0 else c := by simp [zap,ends]
      have next : Walked (splitFrom (i+1) lines line rest) (before++[zap c]) lines line ((front++[c])++rest)
          ((blockLines ((front++[c])++rest) rest).take (maxHeaders-lines)) :=
        ih few (by simp [place]) slot (by omega) (by rw [List.drop_append_of_le_length (by omega),here]; simp)
      rw [List.append_assoc,List.singleton_append] at next
      rw [blockLines_skip ends,←zapped]
      exact next.byte

-- The lines httpp_parse reads: line[] has 32 slots.
def linesOf (data : List UInt8) : List (List UInt8) := (blockLines data data).take maxHeaders

theorem splitHeaders_walked (data : List UInt8) :
    Walked (splitHeaders data) [] 0 (setSlot (fun _ => none) 0 0) data (linesOf data) := by
  have walked : Walked (splitFrom 0 0 (setSlot (fun _ => none) 0 0) data) [] 0 (setSlot (fun _ => none) 0 0) ([]++data)
      ((blockLines ([]++data) data).take (maxHeaders-0)) :=
    splitFrom_walked (by decide) rfl (show setSlot _ 0 0 0 = some 0 by simp [setSlot]) (Nat.le_refl _)
      (show _ = [].map zap by rfl)
  exact walked

theorem splitHeaders_lines (data : List UInt8) : (splitHeaders data).lines = (linesOf data).length := by
  simpa using (splitHeaders_walked data).count

theorem lineAt_first (data : List UInt8) : (splitHeaders data).lineAt 0 = some (textOf data) := by
  obtain ⟨offset,stored,read⟩ := (splitHeaders_walked data).first
  rw [Split.lineAt,stored]
  simpa using read

theorem lineAt_inside (inside : k < (linesOf data).length) : (splitHeaders data).lineAt k = some (linesOf data)[k] := by
  obtain ⟨offset,stored,read⟩ := (splitHeaders_walked data).texts k inside
  rw [Nat.zero_add] at stored
  rw [Split.lineAt,stored]
  simpa using read

theorem parseFrom_lines (data : List UInt8) (p : Parser) (l count : Nat)
    (bound : l+count = (linesOf data).length ∨ count = 0) :
    parseFrom (splitHeaders data) p l count = some ((((linesOf data).drop l).take count).foldl setHeader p) := by
  induction count generalizing p l with
  | zero => simp [parseFrom]
  | succ count ih =>
    have inside : l < (linesOf data).length := by omega
    rw [parseFrom,lineAt_inside inside,Option.bind_some,ih (setHeader p (linesOf data)[l]) (l+1) (by omega),
      List.drop_eq_getElem_cons inside]
    rfl

theorem parseHeaders_lines (data : List UInt8) (p : Parser) :
    parseHeaders (splitHeaders data) p = some (((linesOf data).drop 1).foldl setHeader p) := by
  rw [parseHeaders,splitHeaders_lines,parseFrom_lines data p 1 _ (by omega),List.take_of_length_le (by simp)]

theorem httppParse_lines (data : List UInt8) :
    httppParse data = (parseRequestLine (textOf data)).map fun p => ((linesOf data).drop 1).foldl setHeader p := by
  rw [httppParse,lineAt_first,Option.bind_some]
  cases parseRequestLine (textOf data) with
  | none => rfl
  | some p => exact parseHeaders_lines data p

-- Data with the empty line in it: what stands behind is not looked at.
def Blank (data : List UInt8) : Prop := ∃ front d back, data = front++lf::d::back ∧ (d = lf ∨ d = cr)

theorem textOf_more (ends : lf ∈ text) (more : List UInt8) : textOf (text++more) = textOf text := by
  obtain ⟨front,back,rfl⟩ := List.append_of_mem ends
  rw [List.append_assoc,List.cons_append,textOf_stop,textOf_stop]

theorem blockLines_more (blank : Blank data) (front more : List UInt8) :
    blockLines (front++(data++more)) (data++more) = blockLines (front++data) data := by
  induction data generalizing front with
  | nil =>
    obtain ⟨_,_,_,shape,_⟩ := blank
    simp at shape
  | cons c data ih =>
    obtain ⟨before,d,back,shape,empty⟩ := blank
    by_cases ends : c = lf
    · subst ends
      cases before with
      | nil =>
        simp only [List.nil_append,List.cons.injEq,true_and] at shape
        subst shape
        simp only [List.cons_append,blockLines_lf,if_pos empty,textOf_stop]
      | cons b before =>
        simp only [List.cons_append,List.cons.injEq] at shape
        obtain ⟨_,rfl⟩ := shape
        have rest := ih ⟨before,d,back,rfl,empty⟩ []
        cases before with
        | nil =>
          simp only [List.nil_append,List.cons_append] at rest ⊢
          rw [blockLines_lf _ (d::(back++more)) lf,blockLines_lf _ (d::back) lf,textOf_stop,textOf_stop,rest]
        | cons e before =>
          simp only [List.nil_append,List.cons_append] at rest ⊢
          rw [blockLines_lf _ (before++lf::d::back++more) e,blockLines_lf _ (before++lf::d::back) e,
            textOf_stop,textOf_stop,rest]
    · have inner : Blank data := by
        cases before with
        | nil =>
          simp only [List.nil_append,List.cons.injEq] at shape
          exact absurd shape.1 ends
        | cons b before =>
          simp only [List.cons_append,List.cons.injEq] at shape
          exact ⟨before,d,back,shape.2,empty⟩
      have rest := ih inner (front++[c])
      rw [List.append_assoc,List.append_assoc] at rest
      rw [List.cons_append,blockLines_skip ends,blockLines_skip ends]
      exact rest

theorem httppParse_more (blank : Blank data) (more : List UInt8) : httppParse (data++more) = httppParse data := by
  have ends : lf ∈ data := by
    obtain ⟨front,d,back,rfl,_⟩ := blank
    simp
  have lines := blockLines_more blank [] more
  simp only [List.nil_append] at lines
  rw [httppParse_lines,httppParse_lines,textOf_more ends,linesOf,linesOf,lines]

def headersOf (data : List UInt8) : List (List UInt8) := (linesOf data).drop 1

-- The value the last of the lines that set the variable gives it.
def setBy (name line : List UInt8) : Option (List UInt8) :=
  (headerOf line).bind fun h => if h.1 = name then some h.2 else none

def definedBy (name : List UInt8) (lines : List (List UInt8)) :
    Option (List UInt8) :=
  (lines.filterMap (setBy name)).getLast?

theorem getvar_setHeader (p : Parser) (line name : List UInt8) :
    (setHeader p line).getvar name = (setBy name line).or (p.getvar name) := by
  unfold setHeader setBy
  cases headerOf line with
  | none => rfl
  | some h =>
    rw [getvar_setvar,Option.bind_some]
    by_cases same : name = h.1
    · simp [same]
    · simp [same,Ne.symm same]

theorem getvar_setHeaders (p : Parser) (lines : List (List UInt8)) (name : List UInt8) :
    (lines.foldl setHeader p).getvar name = (definedBy name lines).or (p.getvar name) := by
  induction lines using List.reverseRecOn with
  | nil => rfl
  | append_singleton lines line ih =>
    rw [List.foldl_append,List.foldl_cons,List.foldl_nil,getvar_setHeader,ih]
    unfold definedBy
    rw [List.filterMap_append,List.getLast?_append]
    cases set : setBy name line with
    | none => simp [set]
    | some value => simp [set]

-- The variables httpp_parse takes from the request line.
def requestVars : List (List UInt8) := [varProtocol,varVersion,varUri,varRawuri,varQueryargs,varReqType]

theorem setPiece_vars (p : Parser) (key : List UInt8) (val : Option (List UInt8)) :
    (setPiece p key val).vars = p.vars := by
  cases val <;> rfl

theorem parseQuery_vars (p : Parser) (key : List UInt8) (val : Option (List UInt8)) (query : List UInt8) :
    (parseQuery p key val query).vars = p.vars := by
  induction query generalizing p key val with
  | nil => exact setPiece_vars p key val
  | cons c query ih =>
    unfold parseQuery
    split
    · rw [ih,setPiece_vars]
    · split
      · exact ih ..
      · exact ih ..

theorem setUri_getvar (p : Parser) (uri name : List UInt8) (raw : name ≠ varRawuri) (args : name ≠ varQueryargs) :
    (setUri p uri).getvar name = p.getvar name := by
  unfold setUri
  cases uri.dropWhile (· ≠ 63) with
  | nil => rfl
  | cons mark query =>
    have stored : ((p.setvar varRawuri uri).setvar varQueryargs (mark::query)).getvar name =
      p.getvar name := by simp [raw,args]
    dsimp only
    split
    · exact stored
    · rw [←stored]
      unfold Parser.getvar
      rw [parseQuery_vars]

theorem parseRequestLine_parts (accepted : parseRequestLine line = some p) :
    ∃ uri protocol number type path, (scanWords false 0 none none line).1 = some uri ∧
      p = ((((setUri {httppInitialize with reqType := reqTypeOf (line.takeWhile (· ≠ space))} uri).setvar varProtocol protocol).setvar varVersion
        number).setvar varReqType type).setvar varUri path := by
  unfold parseRequestLine at accepted
  dsimp only at accepted
  split at accepted
  · cases accepted
  · rename_i uri word
    split at accepted
    · cases accepted
    · split at accepted
      · cases accepted
      · split at accepted
        · cases accepted
        · split at accepted
          · cases accepted
          · obtain ⟨path,_,rfl⟩ := Option.map_eq_some_iff.mp accepted
            exact ⟨uri,_,_,_,path,word,rfl⟩

theorem parseRequestLine_getvar (accepted : parseRequestLine line = some p) (other : name ∉ requestVars) :
    p.getvar name = none := by
  simp only [requestVars,List.mem_cons,List.not_mem_nil,or_false,not_or] at other
  obtain ⟨protocol,version,uri,raw,args,reqType⟩ := other
  obtain ⟨_,_,_,_,_,_,rfl⟩ := parseRequestLine_parts accepted
  simp only [getvar_setvar,if_neg uri,if_neg reqType,if_neg version,if_neg protocol,setUri_getvar _ _ _ raw args]
  rfl

theorem varIcypassword_other : varIcypassword ∉ requestVars := by decide

-- What the request line alone says of a variable.
def lineVar (line name : List UInt8) : Option (List UInt8) := (parseRequestLine line).bind (·.getvar name)

theorem httppParse_getvar (parsed : httppParse data = some p) (name : List UInt8) :
    p.getvar name = (definedBy name (headersOf data)).or (lineVar (textOf data) name) := by
  rw [httppParse_lines] at parsed
  obtain ⟨q,accepted,rfl⟩ := Option.map_eq_some_iff.mp parsed
  rw [getvar_setHeaders,lineVar,accepted]
  rfl

-- The variables httpp.h names with two underscores.
def internalVars : List (List UInt8) := varIcypassword::requestVars

-- No header sets an internal variable to something the request line does not say.
def Unforged (data : List UInt8) : Prop :=
  ∀ name ∈ internalVars, ∀ value, definedBy name (headersOf data) = some value → lineVar (textOf data) name = some value

theorem getvar_unforged (parsed : httppParse data = some p) :
    (∀ name ∈ internalVars, p.getvar name = lineVar (textOf data) name) ↔ Unforged data := by
  refine forall₂_congr fun name _ => ?_
  rw [httppParse_getvar parsed]
  cases definedBy name (headersOf data) with
  | none => simp
  | some value => simp [eq_comm]

theorem lineVar_icypassword (line : List UInt8) : lineVar line varIcypassword = none := by
  unfold lineVar
  cases accepted : parseRequestLine line with
  | none => rfl
  | some p => exact parseRequestLine_getvar accepted varIcypassword_other

-- Two requests with one request line agree on the internal variables when no header forges one.
theorem internal_vars_of_line (same : textOf one = textOf two) (first : httppParse one = some p)
    (second : httppParse two = some q) :
    ((∀ name ∈ internalVars, p.getvar name = lineVar (textOf one) name ∧ q.getvar name = lineVar (textOf one) name) ↔
      Unforged one ∧ Unforged two) ∧
    (Unforged one ∧ Unforged two → (∀ name ∈ requestVars, p.getvar name = q.getvar name) ∧
      p.getvar varIcypassword = none ∧ q.getvar varIcypassword = none) := by
  have both : (∀ name ∈ internalVars, p.getvar name = lineVar (textOf one) name ∧
    q.getvar name = lineVar (textOf one) name) ↔
      Unforged one ∧ Unforged two := by
    rw [←getvar_unforged first,←getvar_unforged second,←same]
    exact ⟨fun h => ⟨fun n m => (h n m).1,fun n m => (h n m).2⟩,fun h n m => ⟨h.1 n m,h.2 n m⟩⟩
  refine ⟨both,fun unforged => ?_⟩
  have values := both.mpr unforged
  refine ⟨fun name member => ?_,?_,?_⟩
  · obtain ⟨left,right⟩ := values name (List.mem_cons_of_mem _ member)
    exact left.trans right.symm
  · rw [(values varIcypassword List.mem_cons_self).1,lineVar_icypassword]
  · rw [(values varIcypassword List.mem_cons_self).2,lineVar_icypassword]

def plainRequest : List UInt8 := ascii "GET /live?x HTTP/1.0\r\nHost: a\r\n\r\n"
def otherRequest : List UInt8 := ascii "GET /live?x HTTP/1.0\n__version: 1.0\nUser-Agent: b\n\n"

instance : Decidable (Unforged data) :=
  decidable_of_iff (∀ name ∈ internalVars, definedBy name (headersOf data) = none ∨
      definedBy name (headersOf data) = lineVar (textOf data) name) <|
    forall₂_congr fun name _ => by
      cases definedBy name (headersOf data) with
      | none => simp
      | some value => simp [eq_comm]

theorem internal_vars_of_line_get : ∃ p q, httppParse plainRequest = some p ∧ httppParse otherRequest = some q ∧
    (∀ name ∈ requestVars, p.getvar name = q.getvar name) ∧ p.getvar varIcypassword = none ∧
    q.getvar varIcypassword = none := by
  have first : (httppParse plainRequest).isSome := by decide +kernel
  have second : (httppParse otherRequest).isSome := by decide +kernel
  obtain ⟨p,first⟩ := Option.isSome_iff_exists.mp first
  obtain ⟨q,second⟩ := Option.isSome_iff_exists.mp second
  exact ⟨p,q,first,second,(internal_vars_of_line (by decide +kernel) first second).2
    ⟨by decide +kernel,by decide +kernel⟩⟩

-- A header names the protocol and another the ICY password.
def forgedRequest : List UInt8 := ascii "GET /live?x HTTP/1.0\r\n__protocol: ICY\r\n__icy_password: hackme\r\n\r\n"

theorem header_forges_protocol : ∃ p q, textOf plainRequest = textOf forgedRequest ∧
    httppParse plainRequest = some p ∧ httppParse forgedRequest = some q ∧
    p.getvar varProtocol = some (ascii "HTTP") ∧ q.getvar varProtocol = some (ascii "ICY") ∧
    p.getvar varIcypassword = none ∧ q.getvar varIcypassword = some (ascii "hackme") := by
  have first : (httppParse plainRequest).map (fun p => (p.getvar varProtocol,
    p.getvar varIcypassword)) = some (some (ascii "HTTP"),none) := by
    decide +kernel
  have second : (httppParse forgedRequest).map (fun p => (p.getvar varProtocol,p.getvar varIcypassword))
      = some (some (ascii "ICY"),some (ascii "hackme")) := by decide +kernel
  obtain ⟨p,parsed,values⟩ := Option.map_eq_some_iff.mp first
  obtain ⟨q,parsed',values'⟩ := Option.map_eq_some_iff.mp second
  exact ⟨p,q,by decide +kernel,parsed,parsed',congrArg (·.1) values,congrArg (·.1) values',congrArg (·.2) values,congrArg (·.2) values'⟩

-- Bytes a line may hold.
def Plain (text : List UInt8) : Prop := ∀ c ∈ text, c ≠ 0 ∧ c ≠ cr ∧ c ≠ lf

inductive Eol where
  | crlf | lf

def Eol.bytes : Eol → List UInt8
  | .crlf => [cr,Httpp.lf]
  | .lf => [Httpp.lf]

-- A header line: no second ':' directly after the first.
structure HeaderLine where
  text : List UInt8
  eol : Eol
  filled : text ≠ []
  plain : Plain text
  single : ∀ value, text.dropWhile (· ≠ colon) ≠ colon::colon::value

def HeaderLine.bytes (h : HeaderLine) : List UInt8 := h.text++h.eol.bytes

-- A request as a peer writes it.
structure Request where
  line : List UInt8
  eol : Eol
  headers : List HeaderLine
  blank : Eol
  rest : List UInt8
  plain : Plain line
  few : headers.length ≤ 30

def Request.bytes (r : Request) : List UInt8 :=
  r.line++r.eol.bytes++r.headers.flatMap HeaderLine.bytes++r.blank.bytes++r.rest

-- The text after the first ':' and the spaces behind it.
def HeaderLine.value (h : HeaderLine) : List UInt8 := ((h.text.dropWhile (· ≠ colon)).drop 1).dropWhile (· = space)

def HeaderLine.name (h : HeaderLine) : List UInt8 := h.text.takeWhile (· ≠ colon)

-- The value a request gives a header name: of its last line with that name and a value.
def Request.field (r : Request) (name : List UInt8) : Option (List UInt8) :=
  ((r.headers.filter fun h => lowercase h.name = lowercase name ∧ h.value ≠ []).getLast?).map HeaderLine.value

theorem textOf_plain (plain : Plain text) (eol : Eol) (tail : List UInt8) :
    textOf (text++(eol.bytes++tail)) = text := by
  unfold textOf
  rw [List.takeWhile_append_of_pos fun c member => by simpa using plain c member]
  cases eol <;> simp [Eol.bytes,cr,lf]

theorem blockLines_plain (plain : Plain text) (start : List UInt8) (eol : Eol) (tail : List UInt8) :
    blockLines start (text++(eol.bytes++tail)) = blockLines start (lf::tail) := by
  induction text with
  | nil =>
    cases eol with
    | crlf => exact blockLines_skip (show cr ≠ lf by decide)
    | lf => rfl
  | cons c text ih =>
    rw [List.cons_append,blockLines_skip (plain c List.mem_cons_self).2.2]
    exact ih fun d member => plain d (List.mem_cons_of_mem _ member)

theorem blockLines_headers (headers : List HeaderLine) (start : List UInt8) (blank : Eol) (rest : List UInt8) :
    blockLines start (lf::(headers.flatMap HeaderLine.bytes++(blank.bytes++rest))) =
    textOf start::headers.map HeaderLine.text := by
  induction headers generalizing start with
  | nil => cases blank <;> simp [Eol.bytes,blockLines_lf]
  | cons h headers ih =>
    have shape : (h::headers).flatMap HeaderLine.bytes++(blank.bytes++rest)
        = h.text++(h.eol.bytes++(headers.flatMap HeaderLine.bytes++(blank.bytes++rest))) := by
      simp [HeaderLine.bytes]
    rw [shape]
    obtain ⟨c,text,nonempty⟩ := List.exists_cons_of_ne_nil h.filled
    have first := h.plain c (by simp [nonempty])
    have walk := blockLines_plain h.plain
      (h.text++(h.eol.bytes++(headers.flatMap HeaderLine.bytes++(blank.bytes++rest)))) h.eol
      (headers.flatMap HeaderLine.bytes++(blank.bytes++rest))
    rw [ih,textOf_plain h.plain] at walk
    rw [List.map_cons,←walk,nonempty,List.cons_append,blockLines_lf,if_neg (by simp [first])]

theorem Request.lines (r : Request) : linesOf r.bytes = r.line::r.headers.map HeaderLine.text := by
  have shape : r.bytes = r.line++(r.eol.bytes++(r.headers.flatMap HeaderLine.bytes++(r.blank.bytes++r.rest))) := by
    simp [Request.bytes]
  rw [linesOf,shape,blockLines_plain r.plain,blockLines_headers,textOf_plain r.plain]
  have few := r.few
  exact List.take_of_length_le (by simp [maxHeaders]; omega)

theorem Request.text (r : Request) : textOf r.bytes = r.line := by
  rw [show r.bytes = r.line++(r.eol.bytes++(r.headers.flatMap HeaderLine.bytes++(r.blank.bytes++r.rest))) by simp [Request.bytes]]
  exact textOf_plain r.plain ..

theorem scanValue_after (line : List UInt8) (single : ∀ value, line.dropWhile (· ≠ colon) ≠ colon::colon::value) :
    scanValue false line = let value := ((line.dropWhile (· ≠ colon)).drop 1).dropWhile (· = space)
      if value = [] then none else some value := by
  induction line with
  | nil => rfl
  | cons c line ih =>
    by_cases mark : c = colon
    · subst mark
      simp only [ne_eq,not_true_eq_false,decide_false,Bool.false_eq_true,not_false_eq_true,
        List.dropWhile_cons_of_neg] at single
      rw [scanValue,if_pos rfl]
      cases line with
      | nil => rfl
      | cons d line =>
        have other : d ≠ colon := fun same => single line (by rw [same])
        rw [scanValue,if_neg other]
        simp
    · rw [List.dropWhile_cons_of_pos (by simpa using mark)] at single ⊢
      rw [scanValue,if_neg mark]
      exact ih single

theorem headerOf_line (h : HeaderLine) :
    headerOf h.text = if h.value = [] then none else some (lowercase h.name,h.value) := by
  rw [headerOf,scanValue_after h.text h.single]
  dsimp only
  change (if h.value = [] then none else some h.value).map _ = _
  split <;> rfl

theorem Request.definedBy (r : Request) (name : List UInt8) :
    Httpp.definedBy (lowercase name) (r.headers.map HeaderLine.text) = r.field name := by
  have each : ∀ h : HeaderLine, setBy (lowercase name) h.text =
      if lowercase h.name = lowercase name ∧ h.value ≠ [] then some h.value else none := by
    intro h
    rw [setBy,headerOf_line]
    by_cases empty : h.value = []
    · simp [empty]
    · simp [empty]
  unfold Httpp.definedBy Request.field
  rw [List.filterMap_map,←List.getLast?_map]
  congr 1
  induction r.headers with
  | nil => rfl
  | cons h headers ih =>
    by_cases set : lowercase h.name = lowercase name ∧ h.value ≠ []
    · rw [List.filter_cons_of_pos (by simpa using set),List.map_cons,←ih]
      exact List.filterMap_cons_some ((each h).trans (if_pos set))
    · rw [List.filter_cons_of_neg (by simpa using set),←ih]
      exact List.filterMap_cons_none ((each h).trans (if_neg set))

-- What httpp_parse makes of a request, and no slot it reads is unset.
theorem httppParse_request : (∀ r : Request, (parseRequestLine r.line).isSome → ∃ p, httppParse r.bytes = some p ∧
      ∀ name, lowercase name ∉ requestVars → p.getvar (lowercase name) = r.field name) ∧
    ∀ data p, (splitHeaders data).lineAt 0 ≠ none ∧ (parseHeaders (splitHeaders data) p).isSome := by
  refine ⟨fun r valid => ?_,fun data p => ⟨?_,?_⟩⟩
  · obtain ⟨q,accepted⟩ := Option.isSome_iff_exists.mp valid
    have parsed : httppParse r.bytes = some ((headersOf r.bytes).foldl setHeader q) := by
      rw [httppParse_lines,r.text,accepted]
      rfl
    refine ⟨_,parsed,fun name other => ?_⟩
    rw [getvar_setHeaders,parseRequestLine_getvar accepted other,headersOf,r.lines,List.drop_one,
      List.tail_cons,r.definedBy]
    simp
  · rw [lineAt_first]
    simp
  · rw [parseHeaders_lines]
    rfl

instance : Decidable (Plain text) := List.decidableBAll ..

-- A second Host line in another case, a line with no value and a line after the empty one.
def hostRequest : Request where
  line := ascii "GET / HTTP/1.1"
  eol := .crlf
  headers :=
    [⟨ascii "Host: a",.crlf,by decide,by decide,by intro v; simp [ascii,colon]⟩
    ,⟨ascii "HOST:  b:c",.lf,by decide,by decide,by intro v; simp [ascii,colon]⟩
    ,⟨ascii "host: ",.crlf,by decide,by decide,by intro v; simp [ascii,colon]⟩]
  blank := .lf
  rest := ascii "Host: d\n"
  plain := by decide
  few := by decide

theorem httppParse_request_host : ∃ p, httppParse hostRequest.bytes = some p ∧
    p.getvar (lowercase (ascii "Host")) =
    some (ascii "b:c") := by
  obtain ⟨p,parsed,values⟩ := httppParse_request.1 hostRequest (by decide +kernel)
  refine ⟨p,parsed,(values (ascii "Host") (by decide +kernel)).trans ?_⟩
  decide +kernel

end Icecast.Httpp
