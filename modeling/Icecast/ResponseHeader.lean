import Icecast.Lib.Decimal
import Icecast.ConfigMounts

namespace Icecast.ResponseHeader
open Bytes ConfigMounts

def crlf : Text := [13,10]

-- The fields of struct tm that the Date header shows.
structure Tm where
  weekday : Fin 7
  day : Nat
  month : Fin 12
  year : Int
  hour : Nat
  minute : Nat
  second : Nat

def weekdays : Fin 7 → Text :=
  fun | 0 => ascii "Sun" | 1 => ascii "Mon" | 2 => ascii "Tue" | 3 => ascii "Wed" | 4 => ascii "Thu" | 5 => ascii "Fri" | 6 => ascii "Sat"

def months : Fin 12 → Text :=
  fun | 0 => ascii "Jan" | 1 => ascii "Feb" | 2 => ascii "Mar" | 3 => ascii "Apr" | 4 => ascii "May" | 5 => ascii "Jun"
      | 6 => ascii "Jul" | 7 => ascii "Aug" | 8 => ascii "Sep" | 9 => ascii "Oct" | 10 =>
        ascii "Nov" | 11 => ascii "Dec"

def twoDigits (n : Nat) : Text := if n < 10 then 48::Decimal.ofNat n else Decimal.ofNat n

-- strftime of "Date: %a, %d %b %Y %X GMT" in the C locale; it is far below the 80 bytes
-- of currenttime_buffer.
def dateLine (tm : Tm) : Text :=
  ascii "Date: "++weekdays tm.weekday++ascii ", "++twoDigits tm.day++ascii " "++months tm.month++ascii " "++
    Decimal.ofInt tm.year++ascii " "++twoDigits tm.hour++ascii ":"++twoDigits tm.minute++ascii ":"++twoDigits tm.second++ascii " GMT"

-- The fields of ice_config_t that are read here.
structure Config where
  httpHeaders : List HttpHeader
  serverId : Text
  mounts : List MountProxy

-- The arguments of util_http_build_header that are not about its buffer; `source` is
-- source->mount, `now` the result of gmtime_r.
structure Reply where
  cache : Bool
  status : Int
  statusmsg : Option Text
  contenttype : Option Text
  charset : Option Text
  datablock : Option Text
  source : Option Text
  now : Option Tm

-- strcat into a buffer of `cap` bytes; none writes outside.
def strcat (cap : Nat) (r s : Text) : Option Text := if r.length+s.length+1 ≤ cap then some (r++s) else none

-- _build_headers_loop: the string in *ret and the *len bytes it was given.
def buildHeadersLoop (status : Int) : Text × Nat → List HttpHeader → Option (Text × Nat)
  | (r,len),[] => some (r,len)
  | (r,len),header::rest =>
    if header.status ≠ 0 ∧ header.status ≠ status then buildHeadersLoop status (r,len) rest else
    match header.name,header.value with
    | some name,some value =>
      let len := len+(name.length+value.length+4)
      (strcat len r name).bind fun r =>
      (strcat len r (ascii ": ")).bind fun r =>
      (strcat len r value).bind fun r =>
      (strcat len r crlf).bind fun r => buildHeadersLoop status (r,len) rest
    | _,_ => buildHeadersLoop status (r,len) rest

def statusMessage (reply : Reply) : Text :=
  match reply.statusmsg with
  | some statusmsg => statusmsg
  | none =>
    if reply.status = 200 then ascii "OK"
    else if reply.status = 206 then ascii "Partial Content"
    else if reply.status = 400 then ascii "Bad Request"
    else if reply.status = 401 then ascii "Authentication Required"
    else if reply.status = 403 then ascii "Forbidden"
    else if reply.status = 404 then ascii "File Not Found"
    else if reply.status = 416 then ascii "Request Range Not Satisfiable"
    else ascii "(unknown status code)"

def httpVersion (reply : Reply) : Text :=
  if reply.statusmsg.isNone ∧ reply.status = 206 then ascii "1.1" else ascii "1.0"

def statusLine (reply : Reply) : Text :=
  ascii "HTTP/"++httpVersion reply++ascii " "++Decimal.ofInt reply.status++ascii " "++statusMessage reply

def contentTypeLine (reply : Reply) : Option Text :=
  reply.contenttype.map fun contenttype =>
  match reply.charset with
  | some charset => ascii "Content-Type: "++contenttype++ascii "; charset="++charset
  | none => ascii "Content-Type: "++contenttype

-- What snprintf leaves of a line and its end in status_buffer and contenttype_buffer.
def lineBuffer (line : Text) : Text := (line++crlf).take 79

def statusBuffer (reply : Reply) : Text := if reply.status = -1 then [] else lineBuffer (statusLine reply)

def contentTypeBuffer (reply : Reply) : Text := ((contentTypeLine reply).map lineBuffer).getD []

-- What snprintf returns: it fails on a text no int can count, and writes what fits all
-- the same.
def printResult (text : Text) : Int := if text.length < 2^31 then text.length else -1

section Build

variable (fnmatch : Text → Text → Bool)

-- _build_headers, with the size its string was given.
def buildHeaders (config : Config) (reply : Reply) : Option (Text × Nat) :=
  (buildHeadersLoop reply.status ([],1) config.httpHeaders).bind fun r =>
  match reply.source.bind fun mount => configFindMount fnmatch config.mounts (some mount) .normal with
  | some mountproxy => buildHeadersLoop reply.status r mountproxy.httpHeaders
  | none => some r

-- The text of the last snprintf.
def headerText (config : Config) (reply : Reply) (extraHeaders : Text) : Text :=
  statusBuffer reply++ascii "Server: "++config.serverId++crlf++ascii "Connection: Close"++crlf++
    ((reply.now.map fun tm => dateLine tm++crlf).getD [])++contentTypeBuffer reply++
    (if reply.status = 401 then ascii "WWW-Authenticate: Basic realm=\"Icecast2 Server\""++crlf else [])++
    (if reply.cache then [] else
      ascii "Cache-Control: no-cache, no-store"++crlf++ascii "Expires: Mon, 26 Jul 1997 05:00:00 GMT"++crlf++
      ascii "Pragma: no-cache"++crlf)++
    extraHeaders++(reply.datablock.map fun datablock => crlf++datablock).getD []

-- util_http_build_header: its result and the buffer.
def utilHttpBuildHeader (out : Text) (len : Nat) (offset : Int) (config : Config) (reply : Reply) :
    Option (Int × Text) :=
  let offset := if offset = -1 then (cstr out).length else offset.toNat
  (buildHeaders fnmatch config reply).bind fun (extraHeaders,_) =>
  let text := headerText config reply extraHeaders
  (snprintf out offset (len-offset) text).map fun out => (printResult text,out)

end Build

-- The lines a response should have.
def extraLines (status : Int) (headers : List HttpHeader) : List Text :=
  headers.filterMap fun header =>
    if header.status = 0 ∨ header.status = status then
      header.name.bind fun name => header.value.map fun value => name++ascii ": "++value
    else none

def mountHeaders (fnmatch : Text → Text → Bool) (config : Config) (reply : Reply) : List HttpHeader :=
  ((reply.source.bind fun mount => configFindMount fnmatch config.mounts (some mount) .normal).map
    (·.httpHeaders)).getD []

def headerLines (fnmatch : Text → Text → Bool) (config : Config) (reply : Reply) : List Text :=
  (if reply.status = -1 then [] else [statusLine reply])++[ascii "Server: "++config.serverId,
    ascii "Connection: Close"]++
    (reply.now.map dateLine).toList++(contentTypeLine reply).toList++
    (if reply.status = 401 then [ascii "WWW-Authenticate: Basic realm=\"Icecast2 Server\""] else [])++
    (if reply.cache then [] else
      [ascii "Cache-Control: no-cache, no-store",ascii "Expires: Mon, 26 Jul 1997 05:00:00 GMT",
        ascii "Pragma: no-cache"])++
    extraLines reply.status (config.httpHeaders++mountHeaders fnmatch config reply)

def ended (lines : List Text) : Text := lines.flatMap (·++crlf)

-- A text that stays inside one line.
def Clean (text : Text) : Prop := 13 ∉ text ∧ 10 ∉ text

instance (text : Text) : Decidable (Clean text) := inferInstanceAs (Decidable (_ ∧ _))

-- The output is the lines of the response, each ended, and the data block behind an empty
-- one; the string of the extra headers has the room it takes.
structure Assembled (fnmatch : Text → Text → Bool) (config : Config) (reply : Reply) (ret : Int)
    (after : Text) : Prop where
  room : ∃ extra, buildHeaders fnmatch config reply = some (extra,extra.length+1)
  lines : ∀ line ∈ headerLines fnmatch config reply, line ≠ [] ∧ Clean line
  output : after.take ret.toNat =
    ended (headerLines fnmatch config reply)++(reply.datablock.map fun datablock => crlf++datablock).getD []

-- The texts the response is made from.
structure CleanTexts (config : Config) (reply : Reply) : Prop where
  statusmsg : ∀ text, reply.statusmsg = some text → Clean text
  contenttype : ∀ text, reply.contenttype = some text → Clean text
  charset : ∀ text, reply.charset = some text → Clean text
  serverId : Clean config.serverId
  headers : ∀ header ∈ config.httpHeaders++config.mounts.flatMap (·.httpHeaders), ∀ text,
    header.name = some text ∨ header.value = some text → Clean text

-- The status line and the Content-Type line fit in their 80 bytes with their ends.
def Fits (reply : Reply) : Prop :=
  (reply.status ≠ -1 → (statusLine reply).length ≤ 77) ∧ ∀ line, contentTypeLine reply = some line → line.length ≤ 77

@[simp] theorem ended_nil : ended [] = [] := rfl
@[simp] theorem ended_cons : ended (line::lines) = line++crlf++ended lines := rfl
@[simp] theorem ended_append : ended (xs++ys) = ended xs++ended ys := List.flatMap_append

theorem strcat_fits (room : r.length+s.length+1 ≤ cap) : strcat cap r s = some (r++s) := if_pos room

theorem headers_loop (status : Int) (r : Text) (headers : List HttpHeader) :
    buildHeadersLoop status (r,r.length+1) headers =
      some (r++ended (extraLines status headers),(r++ended (extraLines status headers)).length+1) := by
  induction headers generalizing r with
  | nil =>
    rw [show extraLines status [] = [] from rfl,ended_nil,List.append_nil]
    rfl
  | cons header rest ih =>
    have skip (none_here : (if header.status = 0 ∨ header.status = status then
        header.name.bind fun name => header.value.map fun value => name++ascii ": "++value else none) = none) :
        extraLines status (header::rest) = extraLines status rest := List.filterMap_cons_none none_here
    unfold buildHeadersLoop
    by_cases other : header.status ≠ 0 ∧ header.status ≠ status
    · rw [if_pos other,ih,skip (if_neg (not_or.mpr other))]
    · have wanted : header.status = 0 ∨ header.status = status := by
        by_contra neither
        exact other (not_or.mp neither)
      rw [if_neg other]
      cases name : header.name with
      | none =>
        dsimp only
        rw [ih,skip (by rw [if_pos wanted,name]; rfl)]
      | some text =>
        cases value : header.value with
        | none =>
          dsimp only
          rw [ih,skip (by rw [if_pos wanted,name,value]; rfl)]
        | some more =>
          have line : extraLines status (header::rest) = (text++ascii ": "++more)::extraLines status rest :=
            List.filterMap_cons_some (by rw [if_pos wanted,name,value]; rfl)
          have colon : (ascii ": ").length = 2 := rfl
          have end_ : crlf.length = 2 := rfl
          have width : r.length+1+(text.length+more.length+4) = (r++text++ascii ": "++more++crlf).length+1 := by
            simp only [List.length_append,colon,end_]
            omega
          dsimp only
          rw [strcat_fits (by omega),Option.bind_some,
            strcat_fits (by rw [List.length_append,colon]; omega),Option.bind_some,
            strcat_fits (by simp only [List.length_append,colon]; omega),Option.bind_some,
            strcat_fits (by simp only [List.length_append,colon,end_]; omega),Option.bind_some,width,ih,line,ended_cons]
          simp only [List.append_assoc]

theorem build_headers_eq (fnmatch : Text → Text → Bool) (config : Config) (reply : Reply) :
    buildHeaders fnmatch config reply =
      some (ended (extraLines reply.status (config.httpHeaders++mountHeaders fnmatch config reply)),
        (ended (extraLines reply.status (config.httpHeaders++mountHeaders fnmatch config reply))).length+1) := by
  have start := headers_loop reply.status [] config.httpHeaders
  rw [List.nil_append,List.length_nil] at start
  have split : ∀ more, extraLines reply.status (config.httpHeaders++more) =
      extraLines reply.status config.httpHeaders++extraLines reply.status more := fun _ => List.filterMap_append
  unfold buildHeaders mountHeaders
  rw [start,Option.bind_some]
  cases reply.source.bind fun mount => configFindMount fnmatch config.mounts (some mount) .normal with
  | none => rw [Option.map_none,Option.getD_none,List.append_nil]
  | some mountproxy =>
    dsimp only
    rw [headers_loop,Option.map_some,Option.getD_some,split,ended_append]

theorem length_lineBuffer (line : Text) : (lineBuffer line).length = min 79 (line.length+2) := by
  unfold lineBuffer
  rw [List.length_take,List.length_append]
  rfl

theorem lineBuffer_whole (short : line.length ≤ 77) : lineBuffer line = line++crlf :=
  List.take_of_length_le (by rw [List.length_append,show crlf.length = 2 from rfl]; omega)

@[simp] theorem clean_append : Clean (xs++ys) ↔ Clean xs ∧ Clean ys := by
  unfold Clean
  simp only [List.mem_append,not_or]
  tauto

theorem Clean.digits (digits : ∀ c ∈ text, Decimal.isDigit c = true) : Clean text :=
  ⟨fun member => absurd (digits _ member) (by decide),fun member => absurd (digits _ member) (by decide)⟩

theorem clean_ofNat (n : Nat) : Clean (Decimal.ofNat n) := .digits (Decimal.ofNat_digits n)

theorem clean_ofInt (z : Int) : Clean (Decimal.ofInt z) := by
  unfold Decimal.ofInt
  split
  · exact clean_append.mpr ⟨show Clean [45] by decide,clean_ofNat _⟩
  · exact clean_ofNat _

theorem clean_twoDigits (n : Nat) : Clean (twoDigits n) := by
  unfold twoDigits
  split
  · exact clean_append.mpr ⟨show Clean [48] by decide,clean_ofNat n⟩
  · exact clean_ofNat n

theorem clean_dateLine (tm : Tm) : Clean (dateLine tm) := by
  have weekday : ∀ k, Clean (weekdays k) := by decide
  have month : ∀ k, Clean (months k) := by decide
  simp only [dateLine,clean_append,weekday,month,clean_twoDigits,clean_ofInt,and_true]
  decide

theorem clean_statusLine (clean : CleanTexts config reply) : Clean (statusLine reply) := by
  have version : Clean (httpVersion reply) := by
    unfold httpVersion
    split <;> decide
  have message : Clean (statusMessage reply) := by
    unfold statusMessage
    cases given : reply.statusmsg with
    | some text => exact clean.statusmsg text given
    | none =>
      dsimp only
      repeat' split
      all_goals decide
  simp only [statusLine,clean_append,version,message,clean_ofInt,and_true]
  decide

theorem clean_contentType (clean : CleanTexts config reply) (given : contentTypeLine reply = some line) :
    Clean line := by
  obtain ⟨text,there,rfl⟩ := Option.map_eq_some_iff.mp given
  have type := clean.contenttype text there
  cases charset : reply.charset with
  | none => exact clean_append.mpr ⟨by decide,type⟩
  | some set =>
    simp only [clean_append,type,clean.charset set charset,and_true]
    decide

theorem mem_mountHeaders (member : header ∈ mountHeaders fnmatch config reply) :
    header ∈ config.mounts.flatMap (·.httpHeaders) := by
  unfold mountHeaders at member
  cases found : reply.source.bind fun mount => configFindMount fnmatch config.mounts (some mount) .normal with
  | none =>
    rw [found] at member
    cases member
  | some mountproxy =>
    rw [found] at member
    obtain ⟨mount,_,here⟩ := Option.bind_eq_some_iff.mp found
    exact List.mem_flatMap.mpr ⟨mountproxy,configFindMount_mem fnmatch here,member⟩

theorem clean_extraLine (clean : CleanTexts config reply)
    (member : line ∈ extraLines reply.status (config.httpHeaders++mountHeaders fnmatch config reply)) :
    line ≠ [] ∧ Clean line := by
  obtain ⟨header,within,made⟩ := List.mem_filterMap.mp member
  have known : header ∈ config.httpHeaders++config.mounts.flatMap (·.httpHeaders) := by
    rcases List.mem_append.mp within with global | mount
    · exact List.mem_append_left _ global
    · exact List.mem_append_right _ (mem_mountHeaders mount)
  split at made
  · obtain ⟨name,named,rest⟩ := Option.bind_eq_some_iff.mp made
    obtain ⟨value,valued,rfl⟩ := Option.map_eq_some_iff.mp rest
    have texts := clean.headers header known
    refine ⟨by simp [ascii],?_⟩
    simp only [clean_append,texts name (.inl named),texts value (.inr valued),and_true,true_and]
    decide
  · cases made

theorem clean_headerLines (clean : CleanTexts config reply) : ∀ line ∈ headerLines fnmatch config reply,
    line ≠ [] ∧ Clean line := by
  intro line member
  simp only [headerLines,List.mem_append] at member
  rcases member with (((((status | fixed) | date) | type) | auth) | cache) | extra
  · split at status
    · cases status
    · rw [List.mem_singleton.mp status]
      exact ⟨by simp [statusLine,ascii],clean_statusLine clean⟩
  · rcases List.mem_pair.mp fixed with rfl | rfl
    · exact ⟨by simp [ascii],clean_append.mpr ⟨by decide,clean.serverId⟩⟩
    · exact ⟨by decide,by decide⟩
  · obtain ⟨tm,_,rfl⟩ := Option.map_eq_some_iff.mp (Option.mem_toList.mp date)
    exact ⟨by simp [dateLine,ascii],clean_dateLine tm⟩
  · have given := Option.mem_toList.mp type
    refine ⟨?_,clean_contentType clean given⟩
    obtain ⟨text,there,rfl⟩ := Option.map_eq_some_iff.mp given
    cases reply.charset <;> simp [ascii]
  · split at auth
    · rw [List.mem_singleton.mp auth]
      exact ⟨by decide,by decide⟩
    · cases auth
  · split at cache
    · cases cache
    · simp only [List.mem_cons,List.not_mem_nil,or_false] at cache
      rcases cache with rfl | rfl | rfl <;> exact ⟨by decide,by decide⟩
  · exact clean_extraLine clean extra

-- What stands between the two lines that can be cut, and behind them.
def fixedText (config : Config) (reply : Reply) : Text :=
  ascii "Server: "++config.serverId++crlf++ascii "Connection: Close"++crlf++ended (reply.now.map dateLine).toList

def restText (fnmatch : Text → Text → Bool) (config : Config) (reply : Reply) : Text :=
  (if reply.status = 401 then ascii "WWW-Authenticate: Basic realm=\"Icecast2 Server\""++crlf else [])++
    (if reply.cache then [] else
      ascii "Cache-Control: no-cache, no-store"++crlf++ascii "Expires: Mon, 26 Jul 1997 05:00:00 GMT"++crlf++
      ascii "Pragma: no-cache"++crlf)++
    ended (extraLines reply.status (config.httpHeaders++mountHeaders fnmatch config reply))++
    (reply.datablock.map fun datablock => crlf++datablock).getD []

-- All that is printed.
def printedHeader (fnmatch : Text → Text → Bool) (config : Config) (reply : Reply) : Text :=
  headerText config reply (ended (extraLines reply.status (config.httpHeaders++mountHeaders fnmatch config reply)))

theorem printed_header_eq (fnmatch : Text → Text → Bool) (config : Config) (reply : Reply) :
    printedHeader fnmatch config reply =
      statusBuffer reply++(fixedText config reply++(contentTypeBuffer reply++restText fnmatch config reply)) := by
  have dated : (reply.now.map fun tm => dateLine tm++crlf).getD [] = ended (reply.now.map dateLine).toList := by
    cases reply.now with
    | none => rfl
    | some tm => exact (List.append_nil _).symm
  simp only [printedHeader,headerText,fixedText,restText,dated,List.append_assoc]

theorem ended_ite (p : Prop) [Decidable p] (xs ys : List Text) :
    ended (if p then xs else ys) = if p then ended xs else ended ys :=
  apply_ite ended p xs ys

theorem header_lines_eq (fnmatch : Text → Text → Bool) (config : Config) (reply : Reply) :
    ended (headerLines fnmatch config reply)++(reply.datablock.map fun datablock => crlf++datablock).getD [] =
      ended (if reply.status = -1 then [] else [statusLine reply])++
        (fixedText config reply++(ended (contentTypeLine reply).toList++restText fnmatch config reply)) := by
  simp only [headerLines,fixedText,restText,ended_append,ended_ite,ended_cons,ended_nil,
    List.append_assoc,List.append_nil]

theorem parts_iff {a b c d : List UInt8} (first : a.length ≤ b.length) (second : c.length ≤ d.length)
    (middle rest : List UInt8) :
    a++(middle++(c++rest)) = b++(middle++(d++rest)) ↔ a = b ∧ c = d := by
  constructor
  · intro same
    have width := congrArg List.length same
    simp only [List.length_append] at width
    obtain ⟨front,behind⟩ := List.append_inj same (by omega)
    exact ⟨front,List.append_cancel_right (List.append_cancel_left behind)⟩
  · rintro ⟨rfl,rfl⟩
    rfl

theorem lineBuffer_iff (line : Text) : lineBuffer line = line++crlf ↔ line.length ≤ 77 := by
  constructor
  · intro same
    have width := congrArg List.length same
    rw [length_lineBuffer,List.length_append,show crlf.length = 2 from rfl] at width
    omega
  · exact lineBuffer_whole

theorem header_text_iff (fnmatch : Text → Text → Bool) (config : Config) (reply : Reply) :
    printedHeader fnmatch config reply =
        ended (headerLines fnmatch config reply)++(reply.datablock.map fun datablock =>
        crlf++datablock).getD [] ↔ Fits reply := by
  have cut : ∀ line, (lineBuffer line).length ≤ (line++crlf).length := fun line => List.length_take_le' _ _
  have status : (statusBuffer reply).length ≤ (ended (if reply.status = -1 then [] else [statusLine reply])).length ∧
      (statusBuffer reply = ended (if reply.status = -1 then [] else [statusLine reply]) ↔
        (reply.status ≠ -1 → (statusLine reply).length ≤ 77)) := by
    unfold statusBuffer
    by_cases bare : reply.status = -1
    · rw [if_pos bare,if_pos bare]
      exact ⟨Nat.le_refl _,fun _ other => absurd bare other,fun _ => rfl⟩
    · rw [if_neg bare,if_neg bare,ended_cons,ended_nil,List.append_nil,lineBuffer_iff]
      exact ⟨cut _,fun short _ => short,fun short => short bare⟩
  have type : (contentTypeBuffer reply).length ≤ (ended (contentTypeLine reply).toList).length ∧
      (contentTypeBuffer reply = ended (contentTypeLine reply).toList ↔
        ∀ line, contentTypeLine reply = some line → line.length ≤ 77) := by
    unfold contentTypeBuffer
    cases contentTypeLine reply with
    | none => exact ⟨Nat.le_refl _,fun _ => nofun,fun _ => rfl⟩
    | some line =>
      rw [Option.map_some,Option.getD_some,Option.toList_some,ended_cons,ended_nil,List.append_nil,lineBuffer_iff]
      exact ⟨cut line,fun short other same => Option.some.inj same ▸ short,fun short => short line rfl⟩
  rw [printed_header_eq,header_lines_eq,parts_iff status.1 type.1,status.2,type.2]
  rfl

-- What util_http_build_header returns and leaves in a buffer of at least `len` bytes.
theorem build_header_eq (fnmatch : Text → Text → Bool) (config : Config) (reply : Reply) (room : len ≤ out.length) :
    ∃ next, utilHttpBuildHeader fnmatch out len 0 config reply =
        some (printResult (printedHeader fnmatch config reply),next) ∧
      next.length = out.length ∧
      ((printedHeader fnmatch config reply).length < len →
        next.take (printedHeader fnmatch config reply).length = printedHeader fnmatch config reply) := by
  obtain ⟨next,wrote⟩ : ∃ next, snprintf out 0 len (printedHeader fnmatch config reply) = some next := by
    unfold snprintf
    split
    · exact ⟨out,rfl⟩
    · refine ⟨_,memcpy_eq ?_⟩
      simp only [List.length_append,List.length_take,List.length_singleton]
      omega
  refine ⟨next,?_,?_,fun fits => ?_⟩
  · unfold utilHttpBuildHeader
    rw [build_headers_eq,Option.bind_some]
    exact Option.map_eq_some_iff.mpr ⟨next,wrote,rfl⟩
  · unfold snprintf at wrote
    split at wrote
    · cases wrote
      rfl
    · exact length_memcpy wrote
  · have front := take_snprintf wrote fits
    rw [Nat.zero_add,List.take_zero,List.nil_append] at front
    exact front

theorem Assembled.iff_text (clean : CleanTexts config reply)
    (printed : after.take ret.toNat = printedHeader fnmatch config reply) :
    Assembled fnmatch config reply ret after ↔ Fits reply := by
  rw [← header_text_iff fnmatch config reply]
  constructor
  · intro whole
    rw [← whole.output,printed]
  · intro same
    exact ⟨⟨_,build_headers_eq fnmatch config reply⟩,clean_headerLines clean,by rw [printed,same]⟩

-- A response whose result is in range has its lines whole exactly when the two lines that
-- go through 80 bytes fit in them.
theorem build_header_holds (clean : CleanTexts config reply) (inside : len ≤ out.length)
    (returned : utilHttpBuildHeader fnmatch out len 0 config reply = some (ret,after))
    (low : 0 ≤ ret) (high : ret < len) :
    Assembled fnmatch config reply ret after ↔ Fits reply := by
  obtain ⟨next,built,_,printed⟩ := build_header_eq fnmatch config reply inside
  obtain ⟨rfl,rfl⟩ := Prod.mk.inj (Option.some.inj (built.symm.trans returned))
  unfold printResult at *
  split at low
  · rename_i counted
    rw [if_pos counted] at high ⊢
    apply Assembled.iff_text clean
    rw [Int.toNat_natCast]
    exact printed (by omega)
  · omega

-- A listener's response, with one header more for it.
def plainConfig : Config := ⟨[⟨some (ascii "X"),some (ascii "Y"),200⟩],ascii "Icecast",[]⟩
def plainReply (contenttype : Text) : Reply := ⟨false,200,none,some contenttype,none,none,none,none⟩

theorem plain_clean (clean : Clean contenttype) : CleanTexts plainConfig (plainReply contenttype) where
  statusmsg := nofun
  contenttype := by rintro text ⟨⟩; exact clean
  charset := nofun
  serverId := by decide
  headers := by
    intro header member text given
    cases List.mem_singleton.mp member
    rcases given with ⟨⟨⟩⟩ | ⟨⟨⟩⟩ <;> decide

theorem build_header_plain : ∃ after,
    utilHttpBuildHeader (fun _ _ => false) (List.replicate 300 0) 300 0 plainConfig
    (plainReply (ascii "audio/mpeg")) = some (178,after) ∧
    Assembled (fun _ _ => false) plainConfig (plainReply (ascii "audio/mpeg")) 178 after := by
  have room : 300 ≤ (List.replicate 300 (0 : UInt8)).length := Nat.le_of_eq List.length_replicate.symm
  obtain ⟨after,built,_⟩ := build_header_eq (fun _ _ => false) plainConfig (plainReply (ascii "audio/mpeg")) room
  rw [printResult,show (printedHeader (fun _ _ => false) plainConfig (plainReply (ascii "audio/mpeg"))).length =
    178 by decide +kernel] at built
  exact ⟨after,built,(build_header_holds (plain_clean (by decide)) room built (by decide) (by decide)).mpr
    ⟨fun _ => by decide,by rintro line ⟨⟩; decide⟩⟩

-- A content type of 70 bytes loses the end of its line.
theorem long_content_type : ∃ after,
    utilHttpBuildHeader (fun _ _ => false) (List.replicate 300 0) 300 0 plainConfig
    (plainReply (List.replicate 70 97)) = some (231,after) ∧
    ¬Assembled (fun _ _ => false) plainConfig (plainReply (List.replicate 70 97)) 231 after := by
  have room : 300 ≤ (List.replicate 300 (0 : UInt8)).length := Nat.le_of_eq List.length_replicate.symm
  obtain ⟨after,built,_,printed⟩ :=
    build_header_eq (fun _ _ => false) plainConfig (plainReply (List.replicate 70 97)) room
  have width : (printedHeader (fun _ _ => false) plainConfig (plainReply (List.replicate 70 97))).length =
    231 := by decide +kernel
  rw [printResult,width] at built
  rw [width] at printed
  refine ⟨after,built,fun whole => ?_⟩
  have fits := (Assembled.iff_text (plain_clean (by decide))
    (show after.take (231 : Int).toNat = _ from printed (by decide))).mp whole
  exact absurd (fits.2 _ rfl) (by decide)

end Icecast.ResponseHeader
