import Icecast.Httpp
import Icecast.ResponseHeader

namespace Icecast.ListenerHeaders
open Bytes ConfigMounts ResponseHeader Httpp

-- A buffer that is filled with snprintf: `ptr` is where the next text goes, `remaining`
-- what the code takes for the room from there.
structure Writer where
  data : Text
  ptr : Nat
  remaining : Nat

-- A print whose result is checked before ptr and remaining move; the inner none is the
-- error exit, the outer one a write outside the buffer.
def Writer.printChecked (w : Writer) (text : Text) : Option (Option Writer) :=
  (snprintf w.data w.ptr w.remaining text).map fun data =>
    if printResult text < 0 ∨ (w.remaining : Int) ≤ printResult text then none
    else some ⟨data,w.ptr+text.length,w.remaining-text.length⟩

-- A print whose result is not checked; none also for a `remaining` that wraps.
def Writer.print (w : Writer) (text : Text) : Option Writer :=
  (snprintf w.data w.ptr w.remaining text).bind fun data =>
  if text.length ≤ w.remaining then some ⟨data,w.ptr+text.length,w.remaining-text.length⟩ else none

-- What the two functions read: of the source its mount, the content type and interval of
-- its format and the variables of its parser in the order of the tree; the client's
-- parser; the time at the two calls of util_http_build_header; and what an unset int holds.
structure Request where
  config : Config
  mount : Text
  contenttype : Option Text
  interval : Int
  vars : List (Text × Text)
  client : Parser
  now : Option Tm
  later : Option Tm
  stale : UInt32

-- sscanf with %u: none when it matches nothing. At the end of the text it returns EOF,
-- which the code takes for a success.
def scanUnsigned (stale : UInt32) (text : Text) : Option UInt32 :=
  match text.dropWhile Decimal.isSpace with
  | [] => some stale
  | c::rest =>
    let digits := if c = 45 ∨ c = 43 then rest else c::rest
    if (digits.head?.map Decimal.isDigit).getD false then
      let n := Decimal.leading digits
      some (UInt32.ofNat (if n ≥ 2^64 then 2^64-1 else if c = 45 then 2^64-n else n))
    else none

-- The bitrate that an ice-audio-info header is replaced by, once.
def bitrateOf (stale : UInt32) (filtered : Bool) (name value : Text) : Option UInt32 :=
  if lowercase name = ascii "ice-audio-info" ∧ filtered = false then
    (strstr (ascii "bitrate=") value).bind fun brfield => scanUnsigned stale (brfield.drop 8)
  else none

def bitrateLine (bitrate : UInt32) : Text := ascii "icy-br:"++Decimal.ofNat bitrate.toNat

section Headers

variable (fnmatch : Text → Text → Bool) (r : Request)

-- The line of any other header, none for one that is not passed on.
def varLine (name value : Text) : Option Text :=
  if lowercase name = ascii "ice-audio-info" then some (name++ascii ": "++value)
  else if lowercase name = ascii "ice-password" ∨ lowercase name = ascii "icy-metaint" then none
  else if lowercase name = ascii "ice-name" then
    some (ascii "icy-name:"++((configFindMount fnmatch r.config.mounts (some r.mount) .normal).bind
      (·.streamName)).getD value)
  else if lowercase (name.take 4) = ascii "ice-" then
    if lowercase name = ascii "ice-public" then some (ascii "icy-pub:"++value)
    else if lowercase name = ascii "ice-bitrate" then some (ascii "icy-br:"++value)
    else some (ascii "icy"++name.drop 3++ascii ":"++value)
  else if lowercase (name.take 4) = ascii "icy-" then some (ascii "icy"++name.drop 3++ascii ":"++value)
  else none

-- The loop over the variables. The bitrate line leaves the node where it is (next = 0).
def headerLoop : Nat → Bool → Writer → List (Text × Text) → Option (Option Writer)
  | 0,_,_,_ => none
  | _+1,_,w,[] => some (some w)
  | fuel+1,filtered,w,(name,value)::vars =>
    match bitrateOf r.stale filtered name value with
    | some bitrate => (w.printChecked (bitrateLine bitrate++crlf)).bind fun
      | none => some none
      | some w => headerLoop fuel true w ((name,value)::vars)
    | none =>
      match varLine fnmatch r name value with
      | some line => (w.printChecked (line++crlf)).bind fun
        | none => some none
        | some w => headerLoop fuel filtered w vars
      | none => if w.remaining = 0 then some none else headerLoop fuel filtered w vars

def replyAt (now : Option Tm) : Reply := ⟨false,200,none,r.contenttype,none,none,some r.mount,now⟩

-- format_prepare_headers behind the response header of `bytes` bytes.
def sendHeaders (data : Text) (bytes : Nat) : Option (Option (Text × Nat)) :=
  (headerLoop fnmatch r (r.vars.length+2) false ⟨data,bytes,data.length-bytes⟩ r.vars).bind fun
  | none => some none
  | some w => (w.printChecked crlf).map fun done => done.map fun w => (w.data,w.data.length-w.remaining)

-- format_prepare_headers on client->refbuf, all of which `data` is: the buffer and its
-- len. realloc leaves what is behind the old data unset, here zero.
def formatPrepareHeaders (data : Text) : Option (Option (Text × Nat)) :=
  (utilHttpBuildHeader fnmatch data data.length 0 r.config (replyAt r r.now)).bind fun (bytes,data) =>
  if bytes ≤ 0 then some none else
  if bytes+1024 ≥ data.length then
    if bytes+1024 ≥ 2^31 then none else
    let grown := data++List.replicate ((bytes+1024).toNat-data.length) 0
    (utilHttpBuildHeader fnmatch grown grown.length 0 r.config (replyAt r r.later)).bind fun (bytes,data) =>
    if bytes ≤ 0 ∨ bytes ≥ data.length then some none else sendHeaders fnmatch r data bytes.toNat
  else sendHeaders fnmatch r data bytes.toNat

-- atoi: strtol, cut to an int
def atoi (text : Text) : Int := (max (-2^63) (min (2^63-1) (Decimal.toInt text))).bmod (2^32)

-- Whether the client is told a length.
def flash : Bool :=
  (r.client.getvar (ascii "x-flash-version")).isSome ||
    ((r.client.getvar (ascii "user-agent")).any fun useragent => (strstr (ascii "MSIE") useragent).isSome)

-- client_mp3->interval as format_mp3_create_client_data sets it, where it sends it.
def metaint : Option Nat :=
  if (r.client.getvar (ascii "icy-metadata")).any fun metadata => atoi metadata ≠ 0 then
    let interval := if r.interval ≥ 0 then r.interval.toNat else 16000
    if interval ≠ 0 then some interval else none
  else none

def formatMp3CreateClientData (data : Text) (len : Nat) : Option (Text × Nat) :=
  if len > 4098 then none else
  (if flash r then Writer.print ⟨data,len-2,4098-len⟩ (ascii "Content-Length: 221183499"++crlf)
    else some ⟨data,len-2,4098-len⟩).bind fun w =>
  (match metaint r with
    | some interval => w.print (ascii "icy-metaint:"++Decimal.ofNat interval++crlf)
    | none => some w).bind fun w =>
  (w.print crlf).map fun (w : Writer) => (w.data,4096-w.remaining)

-- Both: none for a wrap or a write outside the buffer, some none for an error.
def clientHeaders (data : Text) : Option (Option (Text × Nat)) :=
  (formatPrepareHeaders fnmatch r data).bind fun
  | none => some none
  | some (data,len) => (formatMp3CreateClientData r data len).map some

end Headers

-- An error, or a block of header lines and the empty line inside the buffer.
def HeadersOk (result : Option (Option (Text × Nat))) : Prop :=
  result = some none ∨ ∃ data len lines, result = some (some (data,len)) ∧ len ≤ data.length ∧
    data.take len = ended lines++crlf ∧ ∀ line ∈ lines, line ≠ [] ∧ Clean line

-- The lines of the loop, in order.
def sourceLines (fnmatch : Text → Text → Bool) (r : Request) : Bool → List (Text × Text) → List Text
  | _,[] => []
  | filtered,(name,value)::vars =>
    match bitrateOf r.stale filtered name value with
    | some bitrate => bitrateLine bitrate::(varLine fnmatch r name value).toList++sourceLines fnmatch r true vars
    | none => (varLine fnmatch r name value).toList++sourceLines fnmatch r filtered vars

def clientLines (r : Request) : List Text :=
  (if flash r then [ascii "Content-Length: 221183499"] else [])++
    ((metaint r).map fun interval => ascii "icy-metaint:"++Decimal.ofNat interval).toList

-- The first answer of util_http_build_header needs a larger buffer.
def Grows (fnmatch : Text → Text → Bool) (r : Request) : Prop :=
  4096 ≤ (printedHeader fnmatch r.config (replyAt r r.now)).length+1024

instance : Decidable (Grows fnmatch r) := inferInstanceAs (Decidable (_ ≤ _))

def capacity (fnmatch : Text → Text → Bool) (r : Request) : Nat :=
  if Grows fnmatch r then (printedHeader fnmatch r.config (replyAt r r.now)).length+1024 else 4096

-- What format_prepare_headers has to put in the buffer.
def headText (fnmatch : Text → Text → Bool) (r : Request) : Text :=
  printedHeader fnmatch r.config (replyAt r (if Grows fnmatch r then r.later else r.now))

def preparedText (fnmatch : Text → Text → Bool) (r : Request) : Text :=
  headText fnmatch r++ended (sourceLines fnmatch r false r.vars)++crlf

-- When the two functions stay inside the buffer and leave whole lines: the response
-- header is more than an int counts, or with 1024 bytes more it is not and either the
-- prepared text is too long for its buffer or it and the client's lines leave a byte of
-- 4096, and the Content-Type line does not end one byte before its 80 bytes do.
def HeadersFit (fnmatch : Text → Text → Bool) (r : Request) : Prop :=
  2^31 ≤ (printedHeader fnmatch r.config (replyAt r r.now)).length ∨
  (printedHeader fnmatch r.config (replyAt r r.now)).length+1024 < 2^31 ∧
    (capacity fnmatch r ≤ (preparedText fnmatch r).length ∨
      (preparedText fnmatch r).length+(ended (clientLines r)).length < 4096 ∧
        ∀ line, contentTypeLine (replyAt r r.now) = some line → line.length ≠ 78)

-- The texts the block is made from.
structure CleanRequest (r : Request) : Prop where
  contenttype : ∀ text, r.contenttype = some text → Clean text
  serverId : Clean r.config.serverId
  headers : ∀ header ∈ r.config.httpHeaders++r.config.mounts.flatMap (·.httpHeaders), ∀ text,
    header.name = some text ∨ header.value = some text → Clean text
  streamName : ∀ mount ∈ r.config.mounts, ∀ text, mount.streamName = some text → Clean text
  vars : ∀ var ∈ r.vars, Clean var.1 ∧ Clean var.2

-- What a print does to a writer when it fits.
structure Wrote (v w : Writer) (text : Text) : Prop where
  ptr : w.ptr = v.ptr+text.length
  remaining : w.remaining+text.length = v.remaining
  length : w.data.length = v.data.length
  data : w.data.take w.ptr = v.data.take v.ptr++text

theorem Wrote.refl (w : Writer) : Wrote w w [] := ⟨rfl,rfl,rfl,(List.append_nil _).symm⟩

theorem Wrote.trans (first : Wrote u v xs) (second : Wrote v w ys) : Wrote u w (xs++ys) where
  ptr := by rw [second.ptr,first.ptr,List.length_append,Nat.add_assoc]
  remaining := by
    have left := first.remaining
    have right := second.remaining
    rw [List.length_append]
    omega
  length := second.length.trans first.length
  data := by rw [second.data,first.data,List.append_assoc]

theorem Writer.wrote (w : Writer) (inside : w.ptr+w.remaining ≤ w.data.length) (fits : text.length < w.remaining) :
    ∃ data, snprintf w.data w.ptr w.remaining text = some data ∧
    Wrote w ⟨data,w.ptr+text.length,w.remaining-text.length⟩ text := by
  obtain ⟨data,wrote⟩ := snprintf_total text inside
  exact ⟨data,wrote,rfl,Nat.sub_add_cancel (Nat.le_of_lt fits),length_snprintf wrote,take_snprintf wrote fits⟩

theorem Writer.printChecked_fits (w : Writer) (inside : w.ptr+w.remaining ≤ w.data.length) (small : w.remaining ≤ 2^31)
    (fits : text.length < w.remaining) : ∃ next, w.printChecked text = some (some next) ∧ Wrote w next text := by
  obtain ⟨data,wrote,moves⟩ := w.wrote inside fits
  have counted : printResult text = text.length := if_pos (by omega)
  refine ⟨_,?_,moves⟩
  unfold printChecked
  rw [wrote,counted,Option.map_some,if_neg (by omega)]

theorem Writer.printChecked_long (w : Writer) (inside : w.ptr+w.remaining ≤ w.data.length)
    (long : w.remaining ≤ text.length) :
    w.printChecked text = some none := by
  obtain ⟨data,wrote⟩ := snprintf_total text inside
  unfold printChecked printResult
  rw [wrote,Option.map_some]
  split
  · rw [if_pos (by omega)]
  · rw [if_pos (by omega)]

theorem Writer.print_fits (w : Writer) (inside : w.ptr+w.remaining ≤ w.data.length) (fits : text.length < w.remaining) :
    ∃ next, w.print text = some next ∧ Wrote w next text := by
  obtain ⟨data,wrote,moves⟩ := w.wrote inside fits
  refine ⟨_,?_,moves⟩
  unfold print
  rw [wrote,Option.bind_some,if_pos (Nat.le_of_lt fits)]

-- What a part of the block does to a writer: it is printed whole when it fits, or the
-- error exit is taken.
def Puts (w : Writer) (result : Option (Option Writer)) (text : Text) : Prop :=
  text.length < w.remaining ∧ (∃ next, result = some (some next) ∧ Wrote w next text) ∨
    w.remaining ≤ text.length ∧ result = some none

theorem Writer.puts (w : Writer) (inside : w.ptr+w.remaining ≤ w.data.length)
    (small : w.remaining ≤ 2^31) (text : Text) :
    Puts w (w.printChecked text) text := by
  by_cases fits : text.length < w.remaining
  · exact .inl ⟨fits,w.printChecked_fits inside small fits⟩
  · exact .inr ⟨Nat.le_of_not_gt fits,w.printChecked_long inside (Nat.le_of_not_gt fits)⟩

theorem Wrote.inside (wrote : Wrote v w text) (inside : v.ptr+v.remaining ≤ v.data.length) :
    w.ptr+w.remaining ≤ w.data.length := by
  have ptr := wrote.ptr
  have remaining := wrote.remaining
  rw [wrote.length]
  omega

theorem Puts.bind {rest : Writer → Option (Option Writer)} (first : Puts w result xs)
    (next : ∀ v, Wrote w v xs → Puts v (rest v) ys) :
    Puts w (result.bind fun | none => some none | some v => rest v) (xs++ys) := by
  rcases first with ⟨fits,v,rfl,wrote⟩ | ⟨long,rfl⟩
  · have left := wrote.remaining
    rcases next v wrote with ⟨fits',u,same,wrote'⟩ | ⟨long',same⟩
    · exact .inl ⟨by rw [List.length_append]; omega,u,same,wrote.trans wrote'⟩
    · exact .inr ⟨by rw [List.length_append]; omega,same⟩
  · exact .inr ⟨by rw [List.length_append]; omega,rfl⟩

theorem header_loop (fnmatch : Text → Text → Bool) (r : Request) (filtered : Bool)
    (vars : List (Text × Text)) (w : Writer)
    (inside : w.ptr+w.remaining ≤ w.data.length) (small : w.remaining ≤ 2^31) (room : 0 < w.remaining)
    (enough : vars.length+(if filtered then 0 else 1) < fuel) :
    Puts w (headerLoop fnmatch r fuel filtered w vars) (ended (sourceLines fnmatch r filtered vars)) := by
  induction fuel generalizing filtered vars w with
  | zero => exact absurd enough (Nat.not_lt_zero _)
  | succ fuel ih =>
    -- the rest of the loop behind a line
    have step (text : Text) (filtered' : Bool) (vars' : List (Text × Text))
      (fewer : vars'.length+(if filtered' then 0 else 1) < fuel) :
        Puts w ((w.printChecked text).bind fun | none => some none | some w => headerLoop fnmatch r fuel filtered' w vars')
          (text++ended (sourceLines fnmatch r filtered' vars')) := by
      rcases w.puts inside small text with ⟨fits,printed⟩ | long
      · have left := fits
        refine Puts.bind (.inl ⟨fits,printed⟩) fun v wrote => ?_
        have remaining := wrote.remaining
        exact ih filtered' vars' v (wrote.inside inside) (by omega) (by omega) fewer
      · rw [long.2]
        exact .inr ⟨by rw [List.length_append]; omega,rfl⟩
    match vars with
    | [] => exact .inl ⟨room,w,rfl,.refl w⟩
    | (name,value)::vars =>
      rw [List.length_cons] at enough
      unfold headerLoop sourceLines
      cases found : bitrateOf r.stale filtered name value with
      | some bitrate =>
        have first : filtered = false := by
          unfold bitrateOf at found
          split at found
          · rename_i both
            exact both.2
          · cases found
        subst first
        have again : sourceLines fnmatch r true ((name,value)::vars) =
          (varLine fnmatch r name value).toList++sourceLines fnmatch r true vars := by
          rw [sourceLines,show bitrateOf r.stale true name value = none from if_neg fun both => Bool.noConfusion both.2]
        have line := step (bitrateLine bitrate++crlf) true ((name,value)::vars) (by
          rw [List.length_cons]
          simp only [Bool.false_eq_true,if_false,if_true] at enough ⊢
          omega)
        rw [again] at line
        exact line
      | none =>
        cases text : varLine fnmatch r name value with
        | some line => exact step (line++crlf) filtered vars (by omega)
        | none =>
          dsimp only
          rw [if_neg (by omega)]
          exact ih filtered vars w inside small room (by omega)

theorem send_headers (fnmatch : Text → Text → Bool) (r : Request) (fits : bytes < data.length)
    (small : data.length ≤ 2^31) :
    (data.length ≤ bytes+(ended (sourceLines fnmatch r false r.vars)++crlf).length ∧
    sendHeaders fnmatch r data bytes = some none) ∨
    bytes+(ended (sourceLines fnmatch r false r.vars)++crlf).length < data.length ∧
      ∃ next, sendHeaders fnmatch r data bytes =
      some (some (next,bytes+(ended (sourceLines fnmatch r false r.vars)++crlf).length)) ∧
        next.length = data.length ∧ next.take (bytes+(ended (sourceLines fnmatch r false r.vars)++crlf).length) =
          data.take bytes++(ended (sourceLines fnmatch r false r.vars)++crlf) := by
  let start : Writer := ⟨data,bytes,data.length-bytes⟩
  have room : start.remaining = data.length-bytes := rfl
  have inside : start.ptr+start.remaining ≤ start.data.length := by
    show bytes+(data.length-bytes) ≤ data.length
    omega
  have loop := header_loop fnmatch r false r.vars start inside (by omega) (by omega)
    (show r.vars.length+1 < r.vars.length+2 from Nat.lt_succ_self _)
  have whole : Puts start ((headerLoop fnmatch r (r.vars.length+2) false start r.vars).bind fun
      | none => some none
      | some w => w.printChecked crlf) (ended (sourceLines fnmatch r false r.vars)++crlf) := loop.bind fun v wrote => by
    have remaining := wrote.remaining
    exact v.puts (wrote.inside inside) (by omega) crlf
  have split : sendHeaders fnmatch r data bytes =
      ((headerLoop fnmatch r (r.vars.length+2) false start r.vars).bind fun
        | none => some none
        | some w => w.printChecked crlf).map fun done => done.map fun w => (w.data,w.data.length-w.remaining) := by
    unfold sendHeaders
    cases headerLoop fnmatch r (r.vars.length+2) false start r.vars with
    | none => rfl
    | some done => cases done <;> rfl
  rw [split]
  rcases whole with ⟨fits',w,same,wrote⟩ | ⟨long,same⟩
  · refine .inr ⟨by omega,w.data,?_,wrote.length,?_⟩
    · have remaining := wrote.remaining
      have length := wrote.length
      rw [same]
      have len : w.data.length-w.remaining = bytes+(ended (sourceLines fnmatch r false r.vars)++crlf).length := by
        have full : start.data.length = data.length := rfl
        omega
      rw [Option.map_some,Option.map_some,len]
    · have data_ := wrote.data
      rw [wrote.ptr] at data_
      exact data_
  · exact .inl ⟨by omega,by rw [same]; rfl⟩

theorem header_ne_nil (fnmatch : Text → Text → Bool) (r : Request) (now : Option Tm) :
    0 < (printedHeader fnmatch r.config (replyAt r now)).length := by
  rw [printed_header_eq]
  simp only [List.length_append,fixedText]
  have server : (ascii "Server: ").length = 8 := rfl
  omega

theorem send_behind (fnmatch : Text → Text → Bool) (r : Request) (small : next.length ≤ 2^31)
    (fits : (printedHeader fnmatch r.config (replyAt r now)).length < next.length)
    (printed : next.take (printedHeader fnmatch r.config (replyAt r now)).length =
    printedHeader fnmatch r.config (replyAt r now))
    (text : preparedText fnmatch r = printedHeader fnmatch r.config (replyAt r now)++ended
    (sourceLines fnmatch r false r.vars)++crlf) :
    (next.length ≤ (preparedText fnmatch r).length ∧
        sendHeaders fnmatch r next (printedHeader fnmatch r.config (replyAt r now)).length = some none) ∨
    (preparedText fnmatch r).length < next.length ∧
      ∃ done, sendHeaders fnmatch r next (printedHeader fnmatch r.config (replyAt r now)).length =
          some (some (done,(preparedText fnmatch r).length)) ∧
        done.length = next.length ∧ done.take (preparedText fnmatch r).length = preparedText fnmatch r := by
  have sent := send_headers fnmatch r fits small
  have len : (printedHeader fnmatch r.config (replyAt r now)).length+(ended
    (sourceLines fnmatch r false r.vars)++crlf).length =
      (preparedText fnmatch r).length := by
    rw [text]
    simp only [List.length_append]
    omega
  rw [len,printed] at sent
  rw [← List.append_assoc,← text] at sent
  exact sent

-- format_prepare_headers on a header that an int counts with 1024 bytes more.
theorem prepare_headers (fnmatch : Text → Text → Bool) (r : Request) (full : data.length = 4096)
    (counted : (printedHeader fnmatch r.config (replyAt r r.now)).length+1024 < 2^31) :
    (capacity fnmatch r ≤ (preparedText fnmatch r).length ∧ formatPrepareHeaders fnmatch r data = some none) ∨
    (preparedText fnmatch r).length < capacity fnmatch r ∧
      ∃ done, formatPrepareHeaders fnmatch r data = some (some (done,(preparedText fnmatch r).length)) ∧
        done.length = capacity fnmatch r ∧ done.take (preparedText fnmatch r).length = preparedText fnmatch r := by
  have positive := header_ne_nil fnmatch r r.now
  obtain ⟨next,built,length,printed⟩ := build_header_eq fnmatch r.config (replyAt r r.now) (Nat.le_refl data.length)
  have result : printResult (printedHeader fnmatch r.config (replyAt r r.now)) =
      (printedHeader fnmatch r.config (replyAt r r.now)).length := if_pos (by omega)
  unfold formatPrepareHeaders
  rw [built,Option.bind_some,result]
  dsimp only
  rw [if_neg (by omega)]
  by_cases grows : Grows fnmatch r
  · have room : capacity fnmatch r = (printedHeader fnmatch r.config (replyAt r r.now)).length+1024 := if_pos grows
    have text : preparedText fnmatch r =
        printedHeader fnmatch r.config (replyAt r r.later)++ended (sourceLines fnmatch r false r.vars)++crlf := by
      unfold preparedText headText
      rw [if_pos grows]
    have more : 4096 ≤ (printedHeader fnmatch r.config (replyAt r r.now)).length+1024 := grows
    have size : (next++List.replicate
      (((printedHeader fnmatch r.config (replyAt r r.now)).length+1024 : Int).toNat-next.length) 0).length =
        capacity fnmatch r := by
      rw [List.length_append,List.length_replicate,room]
      omega
    rw [if_pos (by omega),if_neg (by omega)]
    obtain ⟨done,built,length,printed⟩ := build_header_eq fnmatch r.config (replyAt r r.later) (Nat.le_refl
      (next++List.replicate (((printedHeader fnmatch r.config (replyAt r r.now)).length+1024 :
        Int).toNat-next.length) 0).length)
    rw [built,Option.bind_some]
    dsimp only
    rw [size] at length printed
    have positive' := header_ne_nil fnmatch r r.later
    by_cases fits : (printedHeader fnmatch r.config (replyAt r r.later)).length < capacity fnmatch r
    · have result' : printResult (printedHeader fnmatch r.config (replyAt r r.later)) =
          (printedHeader fnmatch r.config (replyAt r r.later)).length := if_pos (by omega)
      rw [result',if_neg (by omega),Int.toNat_natCast,← length]
      exact send_behind fnmatch r (by omega) (by omega) (printed fits) text
    · have long : (printedHeader fnmatch r.config (replyAt r r.later)).length ≤ (preparedText fnmatch r).length := by
        rw [text]
        simp only [List.length_append]
        omega
      refine .inl ⟨by omega,?_⟩
      rw [if_pos]
      unfold printResult
      split
      · exact .inr (by omega)
      · exact .inl (by decide)
  · have room : capacity fnmatch r = 4096 := if_neg grows
    have less : ¬4096 ≤ (printedHeader fnmatch r.config (replyAt r r.now)).length+1024 := grows
    have text : preparedText fnmatch r =
        printedHeader fnmatch r.config (replyAt r r.now)++ended (sourceLines fnmatch r false r.vars)++crlf := by
      unfold preparedText headText
      rw [if_neg grows]
    rw [if_neg (by omega),Int.toNat_natCast,room,← full,← length]
    exact send_behind fnmatch r (by omega) (by omega) (printed (by omega)) text

theorem Writer.print_some {w next : Writer} (printed : w.print text = some next) :
    next.ptr = w.ptr+text.length ∧ next.remaining+text.length = w.remaining ∧
    snprintf w.data w.ptr w.remaining text = some next.data := by
  obtain ⟨data,wrote,rest⟩ := Option.bind_eq_some_iff.mp printed
  split at rest
  · rename_i fits
    cases rest
    exact ⟨rfl,Nat.sub_add_cancel fits,wrote⟩
  · cases rest

-- The two prints in front of the last, as one.
def clientPrints (r : Request) (w : Writer) : Option Writer :=
  (if flash r then w.print (ascii "Content-Length: 221183499"++crlf) else some w).bind fun w =>
  match metaint r with
  | some interval => w.print (ascii "icy-metaint:"++Decimal.ofNat interval++crlf)
  | none => some w

theorem client_data_eq (r : Request) (data : Text) (short : len ≤ 4098) : formatMp3CreateClientData r data len =
    (clientPrints r ⟨data,len-2,4098-len⟩).bind fun w => (w.print crlf).map fun w => (w.data,4096-w.remaining) := by
  unfold formatMp3CreateClientData clientPrints
  rw [if_neg (by omega),Option.bind_assoc]

theorem client_prints_fit (r : Request) (w : Writer) (inside : w.ptr+w.remaining ≤ w.data.length)
    (fits : (ended (clientLines r)).length < w.remaining) : ∃ next, clientPrints r w = some next ∧
    Wrote w next (ended (clientLines r)) := by
  unfold clientPrints clientLines at *
  rw [ended_append,List.length_append] at fits
  rw [ended_append]
  have shorter : (ended (if flash r then [ascii "Content-Length: 221183499"] else [])).length < w.remaining := by omega
  have first : ∃ v, (if flash r then w.print (ascii "Content-Length: 221183499"++crlf) else some w) = some v ∧
      Wrote w v (ended (if flash r then [ascii "Content-Length: 221183499"] else [])) := by
    revert shorter
    cases flash r with
    | false => exact fun _ => ⟨w,rfl,.refl w⟩
    | true => exact fun shorter => w.print_fits inside shorter
  obtain ⟨v,printed,wrote⟩ := first
  have remaining := wrote.remaining
  rw [printed,Option.bind_some]
  cases interval : metaint r with
  | none => exact ⟨v,rfl,wrote.trans (.refl v)⟩
  | some n =>
    rw [interval] at fits
    rw [Option.map_some,Option.toList_some,ended_cons,ended_nil,List.append_nil] at fits
    have room : (ascii "icy-metaint:"++Decimal.ofNat n++crlf).length < v.remaining := by omega
    obtain ⟨next,printed,wrote'⟩ := v.print_fits (wrote.inside inside) room
    refine ⟨next,printed,wrote.trans ?_⟩
    rw [Option.map_some,Option.toList_some,ended_cons,ended_nil,List.append_nil]
    exact wrote'

theorem client_prints_some {w next : Writer} (printed : clientPrints r w = some next) :
    next.ptr = w.ptr+(ended (clientLines r)).length ∧ next.remaining+(ended (clientLines r)).length = w.remaining := by
  obtain ⟨v,first,second⟩ := Option.bind_eq_some_iff.mp printed
  have front : v.ptr = w.ptr+(ended (if flash r then [ascii "Content-Length: 221183499"] else [])).length ∧
      v.remaining+(ended (if flash r then [ascii "Content-Length: 221183499"] else [])).length = w.remaining := by
    split at first
    · rename_i shown
      obtain ⟨ptr,remaining,_⟩ := Writer.print_some first
      rw [if_pos shown]
      exact ⟨ptr,remaining⟩
    · rename_i hidden
      cases first
      rw [if_neg hidden]
      exact ⟨rfl,rfl⟩
  rw [clientLines,ended_append,List.length_append]
  cases interval : metaint r with
  | none =>
    rw [interval] at second
    cases second
    exact front
  | some n =>
    rw [interval] at second
    obtain ⟨ptr,remaining,_⟩ := Writer.print_some second
    rw [Option.map_some,Option.toList_some,ended_cons,ended_nil,List.append_nil]
    omega

theorem client_data_fits (r : Request) (large : 4096 ≤ data.length) (text : data.take (front.length+2) = front++crlf)
    (fits : front.length+2+(ended (clientLines r)).length < 4096) :
    ∃ next, formatMp3CreateClientData r data (front.length+2) =
    some (next,front.length+2+(ended (clientLines r)).length) ∧
      next.length = data.length ∧ next.take (front.length+2+(ended (clientLines r)).length) = front++ended
      (clientLines r)++crlf := by
  obtain ⟨v,printed,wrote⟩ := client_prints_fit r ⟨data,front.length,4096-front.length⟩
    (by show front.length+(4096-front.length) ≤ data.length; omega) (by show _ < 4096-front.length; omega)
  have remaining : v.remaining+(ended (clientLines r)).length = 4096-front.length := wrote.remaining
  have ptr : v.ptr = front.length+(ended (clientLines r)).length := wrote.ptr
  have room : crlf.length < v.remaining := by
    have two : crlf.length = 2 := rfl
    omega
  have inside : v.ptr+v.remaining ≤ v.data.length :=
    wrote.inside (by show front.length+(4096-front.length) ≤ data.length; omega)
  obtain ⟨w,last,wrote'⟩ := v.print_fits inside room
  have whole := wrote.trans wrote'
  have end_ : w.remaining+2 = v.remaining := wrote'.remaining
  refine ⟨w.data,?_,whole.length,?_⟩
  · rw [client_data_eq r data (by omega),Nat.add_sub_cancel,
      show 4098-(front.length+2) = 4096-front.length by omega,printed,Option.bind_some,
      last,Option.map_some]
    have len : 4096-w.remaining = front.length+2+(ended (clientLines r)).length := by omega
    rw [len]
  · have place : w.ptr = front.length+2+(ended (clientLines r)).length := by
      have two : crlf.length = 2 := rfl
      have moved := wrote'.ptr
      omega
    have short := congrArg (List.take front.length) text
    rw [List.take_take,Nat.min_eq_left (Nat.le_add_right _ _),List.take_left] at short
    have data_ : w.data.take w.ptr = data.take front.length++(ended (clientLines r)++crlf) := whole.data
    rw [← place,data_,short,List.append_assoc]

theorem client_data_full (r : Request) (long : 4096 ≤ len+(ended (clientLines r)).length) (two : 2 ≤ len)
    (made : formatMp3CreateClientData r data len = some (next,len')) : ∃ front, next.take len' = front++[0] := by
  by_cases short : len ≤ 4098
  · rw [client_data_eq r data short] at made
    obtain ⟨v,printed,rest⟩ := Option.bind_eq_some_iff.mp made
    obtain ⟨w,last,same⟩ := Option.map_eq_some_iff.mp rest
    obtain ⟨ptr,remaining⟩ := client_prints_some printed
    obtain ⟨_,left,wrote⟩ := Writer.print_some last
    have width : crlf.length = 2 := rfl
    have ptr_ : v.ptr = len-2+(ended (clientLines r)).length := ptr
    have remaining_ : v.remaining+(ended (clientLines r)).length = 4098-len := remaining
    have none_left : v.remaining = 2 := by omega
    have zero : w.remaining = 0 := by omega
    cases same
    rw [none_left] at wrote
    have front := take_memcpy (show memcpy v.data v.ptr [13,0] = some w.data from wrote)
    rw [show v.ptr+[13,(0 : UInt8)].length = 4096 by show v.ptr+2 = 4096; omega] at front
    refine ⟨v.data.take v.ptr++[13],?_⟩
    rw [zero,List.append_assoc]
    exact front
  · unfold formatMp3CreateClientData at made
    rw [if_pos (by omega)] at made
    cases made

theorem ended_cr {lines : List Text} (clean : ∀ line ∈ lines, Clean line)
    (split : ended lines++crlf = front++13::c::back) : c = 10 := by
  induction lines generalizing front with
  | nil =>
    match front with
    | [] =>
      cases split
      rfl
    | [_] => cases split
    | _::_::_ =>
      have width := congrArg List.length split
      simp [crlf] at width
  | cons line lines ih =>
    rw [ended_cons,List.append_assoc,List.append_assoc] at split
    rcases List.append_eq_append_iff.mp split with ⟨middle,rfl,rest⟩ | ⟨middle,same,_⟩
    · match middle with
      | [] =>
        cases rest
        rfl
      | [_] => cases rest
      | _::_::middle =>
        have behind := (List.cons.inj (List.cons.inj rest).2).2
        exact ih (fun other member => clean other (List.mem_cons_of_mem _ member)) behind
    · rename_i behind
      cases middle with
      | nil => exact (List.cons.inj (List.cons.inj behind).2).1
      | cons b middle =>
        have cr : 13 ∈ line := by
          rw [same,← (List.cons.inj behind).1]
          exact List.mem_append_right _ List.mem_cons_self
        exact absurd cr (clean line List.mem_cons_self).1

theorem clean_reply (clean : CleanRequest r) (now : Option Tm) : CleanTexts r.config (replyAt r now) where
  statusmsg := nofun
  contenttype := clean.contenttype
  charset := nofun
  serverId := clean.serverId
  headers := clean.headers

theorem clean_bitrateLine (bitrate : UInt32) : bitrateLine bitrate ≠ [] ∧ Clean (bitrateLine bitrate) :=
  ⟨by simp [bitrateLine,ascii],clean_append.mpr ⟨by decide,clean_ofNat _⟩⟩

theorem clean_varLine (clean : CleanRequest r) (name value : Text) (own : Clean name ∧ Clean value)
    (made : varLine fnmatch r name value = some line) : line ≠ [] ∧ Clean line := by
  have behind : Clean (name.drop 3) := ⟨fun member => own.1.1 (List.mem_of_mem_drop member),fun member =>
    own.1.2 (List.mem_of_mem_drop member)⟩
  have shown : Clean (((configFindMount fnmatch r.config.mounts (some r.mount) .normal).bind
    (·.streamName)).getD value) := by
    cases found : (configFindMount fnmatch r.config.mounts (some r.mount) .normal).bind (·.streamName) with
    | none => exact own.2
    | some text =>
      obtain ⟨mount,there,named⟩ := Option.bind_eq_some_iff.mp found
      exact clean.streamName mount (configFindMount_mem fnmatch there) text named
  have whole : ∀ front : Text, front ≠ [] → Clean front → ∀ text, Clean text → front++text ≠ [] ∧ Clean (front++text) :=
    fun front present cleaned text also => ⟨List.append_ne_nil_of_left_ne_nil present _,clean_append.mpr ⟨cleaned,also⟩⟩
  have renamed : ascii "icy"++name.drop 3++ascii ":"++value ≠ [] ∧ Clean (ascii "icy"++name.drop 3++ascii ":"++value) :=
    whole _ (by simp [ascii]) (clean_append.mpr ⟨clean_append.mpr ⟨by decide,behind⟩,by decide⟩) value own.2
  unfold varLine at made
  split at made
  · cases made
    exact whole _ (by simp [ascii]) (clean_append.mpr ⟨own.1,by decide⟩) value own.2
  split at made
  · cases made
  split at made
  · cases made
    exact whole _ (by decide) (by decide) _ shown
  split at made
  · split at made
    · cases made
      exact whole _ (by decide) (by decide) value own.2
    split at made
    · cases made
      exact whole _ (by decide) (by decide) value own.2
    · cases made
      exact renamed
  split at made
  · cases made
    exact renamed
  · cases made

theorem clean_sourceLines (clean : CleanRequest r) (filtered : Bool) (vars : List (Text × Text))
    (own : ∀ var ∈ vars, Clean var.1 ∧ Clean var.2) :
    ∀ line ∈ sourceLines fnmatch r filtered vars, line ≠ [] ∧ Clean line := by
  induction vars generalizing filtered with
  | nil => exact nofun
  | cons var vars ih =>
    obtain ⟨name,value⟩ := var
    have here := own (name,value) List.mem_cons_self
    have rest := fun filtered => ih filtered fun var member => own var (List.mem_cons_of_mem _ member)
    intro line member
    unfold sourceLines at member
    split at member
    · rcases List.mem_append.mp member with front | later
      · rcases List.mem_cons.mp front with rfl | text
        · exact clean_bitrateLine _
        · exact clean_varLine clean name value here (Option.mem_toList.mp text)
      · exact rest true line later
    · rcases List.mem_append.mp member with text | later
      · exact clean_varLine clean name value here (Option.mem_toList.mp text)
      · exact rest filtered line later

theorem clean_clientLines (r : Request) : ∀ line ∈ clientLines r, line ≠ [] ∧ Clean line := by
  intro line member
  rcases List.mem_append.mp member with flashed | interval
  · split at flashed
    · rw [List.mem_singleton.mp flashed]
      exact ⟨by decide,by decide⟩
    · cases flashed
  · obtain ⟨n,_,rfl⟩ := Option.map_eq_some_iff.mp (Option.mem_toList.mp interval)
    exact ⟨by simp [ascii],clean_append.mpr ⟨by decide,clean_ofNat n⟩⟩

-- What a listener's response has behind its Content-Type line.
def behindLines (fnmatch : Text → Text → Bool) (r : Request) (now : Option Tm) : List Text :=
  [ascii "Expires: Mon, 26 Jul 1997 05:00:00 GMT",ascii "Pragma: no-cache"]++
    extraLines 200 (r.config.httpHeaders++mountHeaders fnmatch r.config (replyAt r now))

theorem rest_reply (fnmatch : Text → Text → Bool) (r : Request) (now : Option Tm) :
    restText fnmatch r.config (replyAt r now) =
    67::(ascii "ache-Control: no-cache, no-store"++crlf++ended (behindLines fnmatch r now)) := by
  unfold restText behindLines replyAt
  dsimp only
  rw [if_neg (by decide),if_neg (by decide),Option.map_none,Option.getD_none,List.append_nil,List.nil_append]
  simp only [ended_append,ended_cons,ended_nil,List.append_assoc]
  rfl

theorem status_line_reply (r : Request) (now : Option Tm) : statusLine (replyAt r now) = ascii "HTTP/1.0 200 OK" := by
  show ascii "HTTP/"++ascii "1.0"++ascii " "++Decimal.ofInt 200++ascii " "++ascii "OK" = ascii "HTTP/1.0 200 OK"
  decide +kernel

theorem status_reply (r : Request) (now : Option Tm) :
    statusBuffer (replyAt r now) = ended [ascii "HTTP/1.0 200 OK"] := by
  unfold statusBuffer
  rw [if_neg (show (replyAt r now).status ≠ -1 from (by decide : (200 : Int) ≠ -1)),status_line_reply]
  decide

theorem clean_behindLines (clean : CleanRequest r) (now : Option Tm) : ∀ line ∈ behindLines fnmatch r now,
    line ≠ [] ∧ Clean line := by
  intro line member
  rcases List.mem_append.mp member with fixed | extra
  · rcases List.mem_pair.mp fixed with rfl | rfl <;> exact ⟨by decide,by decide⟩
  · exact clean_extraLine (clean_reply clean now) extra

theorem printed_lines (clean : CleanRequest r) (now : Option Tm)
    (good : ∀ line, contentTypeLine (replyAt r now) = some line → line.length ≠ 78) :
    ∃ lines, printedHeader fnmatch r.config (replyAt r now) = ended lines ∧ ∀ line ∈ lines, line ≠ [] ∧ Clean line := by
  have texts := clean_reply clean now
  by_cases fits : Fits (replyAt r now)
  · have whole := (header_text_iff fnmatch r.config (replyAt r now)).mpr fits
    exact ⟨_,whole.trans (List.append_nil _),clean_headerLines texts⟩
  · obtain ⟨line,given,long⟩ : ∃ line, contentTypeLine (replyAt r now) = some line ∧ 78 < line.length := by
      by_contra none_long
      refine fits ⟨fun _ => ?_,fun line given => ?_⟩
      · rw [status_line_reply]
        decide
      · have other := good line given
        by_contra longer
        exact none_long ⟨line,given,by omega⟩
    -- the next line is glued to what is left of this one
    have buffer : contentTypeBuffer (replyAt r now) = line.take 79 := by
      unfold contentTypeBuffer
      rw [given,Option.map_some,Option.getD_some,lineBuffer,List.take_append_of_le_length (by omega)]
    have cut : Clean (line.take 79) := by
      have whole := clean_contentType texts given
      exact ⟨fun member => whole.1 (List.mem_of_mem_take member),fun member => whole.2 (List.mem_of_mem_take member)⟩
    refine ⟨[ascii "HTTP/1.0 200 OK",ascii "Server: "++r.config.serverId,
      ascii "Connection: Close"]++(now.map dateLine).toList++
      [line.take 79++67::ascii "ache-Control: no-cache, no-store"]++behindLines fnmatch r now,?_,?_⟩
    · rw [printed_header_eq,status_reply,rest_reply,buffer,fixedText]
      simp only [ended_append,ended_cons,ended_nil,List.append_assoc,List.append_nil,List.cons_append]
      rfl
    · intro other member
      simp only [List.mem_append] at member
      rcases member with ((first | date) | glued) | behind
      · simp only [List.mem_cons,List.not_mem_nil,or_false] at first
        rcases first with rfl | rfl | rfl
        · exact ⟨by decide,by decide⟩
        · exact ⟨by simp [ascii],clean_append.mpr ⟨by decide,clean.serverId⟩⟩
        · exact ⟨by decide,by decide⟩
      · obtain ⟨tm,_,rfl⟩ := Option.map_eq_some_iff.mp (Option.mem_toList.mp date)
        exact ⟨by simp [dateLine,ascii],clean_dateLine tm⟩
      · rw [List.mem_singleton.mp glued]
        exact ⟨List.append_ne_nil_of_right_ne_nil _ (List.cons_ne_nil _ _),clean_append.mpr ⟨cut,by decide⟩⟩
      · exact clean_behindLines clean now other behind

theorem cut_line (given : contentTypeLine (replyAt r now) = some line) (long : line.length = 78) :
    ∃ front back, printedHeader fnmatch r.config (replyAt r now) = front++13::67::back := by
  have buffer : contentTypeBuffer (replyAt r now) = line++[13] := by
    unfold contentTypeBuffer
    rw [given,Option.map_some,Option.getD_some,lineBuffer,List.take_append,long,List.take_of_length_le (by omega)]
    rfl
  refine ⟨statusBuffer (replyAt r now)++fixedText r.config (replyAt r now)++line,
    ascii "ache-Control: no-cache, no-store"++crlf++ended (behindLines fnmatch r now),?_⟩
  rw [printed_header_eq,buffer,rest_reply]
  simp only [List.append_assoc,List.cons_append,List.nil_append]

theorem head_lines (clean : CleanRequest r)
    (good : ∀ line, contentTypeLine (replyAt r r.now) = some line → line.length ≠ 78) :
    ∃ lines, headText fnmatch r = ended lines ∧ ∀ line ∈ lines, line ≠ [] ∧ Clean line := by
  unfold headText
  split
  · exact printed_lines clean r.later good
  · exact printed_lines clean r.now good

theorem head_cut (given : contentTypeLine (replyAt r r.now) = some line) (long : line.length = 78) :
    ∃ front back, headText fnmatch r = front++13::67::back := by
  unfold headText
  split
  · exact cut_line given long
  · exact cut_line given long

-- What format_mp3_create_client_data makes of a prepared text.
theorem block_iff (clean : CleanRequest r) (large : 4096 ≤ data.length)
    (body : preparedText fnmatch r = front++crlf)
    (head : front = headText fnmatch r++ended (sourceLines fnmatch r false r.vars))
    (text : data.take (preparedText fnmatch r).length = preparedText fnmatch r) :
    HeadersOk ((formatMp3CreateClientData r data (preparedText fnmatch r).length).map some) ↔
      (preparedText fnmatch r).length+(ended (clientLines r)).length < 4096 ∧
        ∀ line, contentTypeLine (replyAt r r.now) = some line → line.length ≠ 78 := by
  have len : (preparedText fnmatch r).length = front.length+2 := by
    rw [body,List.length_append]
    rfl
  rw [body,List.length_append] at text
  rw [len]
  constructor
  · rintro (failed | ⟨next,len',lines,made,_,block,whole⟩)
    · obtain ⟨_,_,other⟩ := Option.map_eq_some_iff.mp failed
      cases other
    · obtain ⟨done,ran,same⟩ := Option.map_eq_some_iff.mp made
      cases same
      by_cases fits : front.length+2+(ended (clientLines r)).length < 4096
      · refine ⟨fits,fun line given long => ?_⟩
        obtain ⟨next',made',_,text'⟩ := client_data_fits r large text fits
        cases made'.symm.trans ran
        obtain ⟨before,behind,cut⟩ : ∃ before behind, headText fnmatch r = before++13::67::behind := head_cut given long
        rw [text',head,cut,List.append_assoc,List.append_assoc,List.append_assoc] at block
        exact absurd (ended_cr (fun line member => (whole line member).2) block.symm) (by decide)
      · obtain ⟨before,zero⟩ := client_data_full r (Nat.le_of_not_lt fits) (Nat.le_add_left 2 _) ran
        have last := congrArg List.getLast? (zero.symm.trans block)
        rw [List.getLast?_append,List.getLast?_append] at last
        cases last
  · rintro ⟨fits,good⟩
    obtain ⟨lines,headed,whole⟩ := head_lines clean good
    obtain ⟨next,made,length,text'⟩ := client_data_fits r large text fits
    refine .inr ⟨next,_,lines++sourceLines fnmatch r false r.vars++clientLines r,by rw [made]; rfl,by omega,?_,?_⟩
    · rw [text',head,headed,ended_append,ended_append]
    · intro line member
      rcases List.mem_append.mp member with front | client
      · rcases List.mem_append.mp front with head | source
        · exact whole line head
        · exact clean_sourceLines clean false r.vars clean.vars line source
      · exact clean_clientLines r line client

-- The headers of a listener's response stay inside its buffer and are whole lines exactly
-- when they fit.
theorem client_headers_hold (clean : CleanRequest r) (full : data.length = 4096) :
    HeadersOk (clientHeaders fnmatch r data) ↔ HeadersFit fnmatch r := by
  have positive := header_ne_nil fnmatch r r.now
  unfold HeadersFit
  by_cases counted : (printedHeader fnmatch r.config (replyAt r r.now)).length+1024 < 2^31
  · have small : ¬2^31 ≤ (printedHeader fnmatch r.config (replyAt r r.now)).length := by omega
    rw [or_iff_right small,and_iff_right counted]
    unfold clientHeaders
    rcases prepare_headers fnmatch r full counted with ⟨long,failed⟩ | ⟨fits,done,made,length,text⟩
    · rw [failed]
      exact ⟨fun _ => .inl long,fun _ => .inl rfl⟩
    · have large : 4096 ≤ done.length := by
        rw [length,capacity]
        split
        · assumption
        · exact Nat.le_refl _
      have body : preparedText fnmatch r = (headText fnmatch r++ended (sourceLines fnmatch r false r.vars))++crlf := rfl
      rw [or_iff_right (by omega),made,Option.bind_some]
      exact block_iff clean large body rfl text
  · -- an int cannot hold the length with 1024 more
    obtain ⟨next,built,length,_⟩ := build_header_eq fnmatch r.config (replyAt r r.now) (Nat.le_refl data.length)
    unfold clientHeaders formatPrepareHeaders
    rw [built,Option.bind_some]
    unfold printResult
    dsimp only
    by_cases huge : 2^31 ≤ (printedHeader fnmatch r.config (replyAt r r.now)).length
    · rw [if_neg (show ¬(printedHeader fnmatch r.config (replyAt r r.now)).length < 2^31 by omega)]
      exact ⟨fun _ => .inl huge,fun _ => .inl rfl⟩
    · rw [if_pos (show (printedHeader fnmatch r.config (replyAt r r.now)).length < 2^31 by omega),
        if_neg (by omega),if_pos (by omega),
        if_pos (by omega)]
      constructor
      · rintro (failed | ⟨_,_,_,made,_⟩)
        · cases failed
        · cases made
      · rintro (other | both)
        · exact absurd other huge
        · exact absurd both.1 counted

-- A flash player on a stream with one header of its own.
def flashRequest (value : Text) : Request :=
  ⟨plainConfig,ascii "/a",some (ascii "audio/mpeg"),-1,[(ascii "icy-x",value)],
    httppInitialize.setvar (ascii "x-flash-version") (ascii "9"),none,none,0⟩

theorem flash_clean (clean : Clean value) : CleanRequest (flashRequest value) where
  contenttype := by rintro text ⟨⟩; decide
  serverId := show Clean (ascii "Icecast") by decide
  headers := (plain_clean (show Clean (ascii "audio/mpeg") by decide)).headers
  streamName := nofun
  vars := by
    intro var member
    cases List.mem_singleton.mp member
    exact ⟨show Clean (ascii "icy-x") by decide,clean⟩

theorem client_headers_flash :
    HeadersOk (clientHeaders (fun _ _ => false) (flashRequest (ascii "y")) (List.replicate 4096 0)) :=
  (client_headers_hold (flash_clean (by decide)) List.length_replicate).mpr
    (.inr ⟨by decide +kernel,.inr ⟨by decide +kernel,by rintro line ⟨⟩; decide⟩⟩)

def longRequest : Request := flashRequest (List.replicate 3890 121)

-- One long value leaves no room for the line of the flash player.
theorem long_header : ¬HeadersOk (clientHeaders (fun _ _ => false) longRequest (List.replicate 4096 0)) := by
  have clean : CleanRequest longRequest :=
    flash_clean ⟨fun member => absurd (List.eq_of_mem_replicate member) (by decide),fun member =>
      absurd (List.eq_of_mem_replicate member) (by decide)⟩
  have len : (preparedText (fun _ _ => false) longRequest).length = 4078 := by decide +kernel
  have room : capacity (fun _ _ => false) longRequest = 4096 := by decide +kernel
  rcases prepare_headers (fun _ _ => false) longRequest List.length_replicate (by decide +kernel) with
    ⟨long,_⟩ | ⟨_,done,made,size,text⟩
  · rw [room,len] at long
    exact absurd long (by decide)
  · unfold clientHeaders
    rw [made,Option.bind_some]
    have body : preparedText (fun _ _ => false) longRequest =
      (headText (fun _ _ => false) longRequest++
        ended (sourceLines (fun _ _ => false) longRequest false longRequest.vars))++crlf := rfl
    intro block
    have fits := ((block_iff clean (Nat.le_of_eq (room.symm.trans size.symm)) body rfl text).mp block).1
    rw [len] at fits
    exact absurd fits (by decide +kernel)

end Icecast.ListenerHeaders
