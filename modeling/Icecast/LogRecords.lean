import Mathlib.Data.List.Count
import Icecast.Lib.Bytes
import Icecast.Lib.Decimal

namespace Icecast.LogRecords
open Bytes Decimal

-- An argument of the formatter; a string without its NUL, or NULL.
inductive Arg where
  | str (text : Option (List UInt8))
  | int (z : Int)
  | uint (n : Nat)
  | ptr (text : List UInt8)

-- The variables of __vsnprintf between two characters of the format; `skip` counts the digits atoi
-- has read already.
structure Block where
  in_block : Bool
  block_size : Nat
  block_len : Int
  block_space : Bool
  skip : Nat

-- The test of %H, with char signed: the control characters, ! and ", the grave, the backslash and
-- every byte from 128 on.
def sanitise (block_space : Bool) (c : UInt8) : UInt8 :=
  if (128 ≤ c.toNat || c.toNat ≤ 34 || c = 96 || c = 92) && !(block_space && c = 32) then 46 else c

-- The part of a string the copying loop runs over: a block_len of 0 is strlen, a negative one never
-- comes down to 0.
def limited (block_len : Int) (arg : List UInt8) : List UInt8 := if 0 < block_len then arg.take block_len.toNat else arg

-- The conversions p, d, i, u, s and H: what is copied, and the arguments that follow.
def convert (c : UInt8) (b : Block) (args : List Arg) : Option (List UInt8 × List Arg) :=
  if (c = 100 ∨ c = 105 ∨ c = 117) ∧ 2 < b.block_size then some (limited b.block_len (ascii "<<<invalid>>>"),args)
  else match args with
    | .ptr text::rest => if c = 112 then some (limited b.block_len text,rest) else none
    | .int z::rest => if c = 100 ∨ c = 105 then some (limited b.block_len (ofInt z),rest) else none
    | .uint n::rest => if c = 117 then some (limited b.block_len (ofNat n),rest) else none
    | .str text::rest =>
      if c = 115 then some (limited b.block_len (text.getD (ascii "(null)")),rest)
      else if c = 72 then some ((limited b.block_len (text.getD (ascii "(null)"))).map (sanitise b.block_space),rest)
      else none
    | [] => none

-- One character of the format: the variables after it, the arguments left, and the text it gives.
-- An argument of the wrong type is undefined behaviour.
def directive (c : UInt8) (rest : List UInt8) (b : Block) (args : List Arg) : Option (Block × List Arg × List UInt8) :=
  if 0 < b.skip then some ({b with skip := b.skip-1},args,[])
  else if b.in_block = false then
    if c = 37 then some (⟨true,0,0,false,0⟩,args,[]) else some (b,args,[c])
  else if c = 108 then some ({b with block_size := b.block_size+1},args,[])
  else if c = 42 then
    match args with
    | .int z::args => some ({b with block_len := z},args,[])
    | _ => none
  else if c = 32 then some ({b with block_space := true},args,[])
  else if 49 ≤ c ∧ c ≤ 57 then
    some ({b with block_len := leading (c::rest),skip := (rest.takeWhile isDigit).length},args,[])
  else if c = 112 ∨ c = 100 ∨ c = 105 ∨ c = 117 ∨ c = 115 ∨ c = 72 then
    (convert c b args).map fun r => ({b with in_block := false},r.2,r.1)
  else some (b,args,[])

-- The loop of __vsnprintf: what is written, and what is left of size.
def vsnprintfLoop : List UInt8 → Block → List Arg → Nat → Option (List UInt8 × Nat)
  | [],_,_,size => some ([],size)
  | c::rest,b,args,size =>
    if size = 0 then some ([],0)
    else (directive c rest b args).bind fun r =>
      (vsnprintfLoop rest r.1 r.2.1 (size-r.2.2.length)).map fun tail => (r.2.2.take size++tail.1,tail.2)

def vsnprintf (size : Nat) (format : List UInt8) (args : List Arg) : Option (List UInt8) :=
  (vsnprintfLoop format ⟨false,0,0,false,0⟩ args size).map fun r => if r.2 = 0 then r.1.dropLast else r.1

def LOG_MAXLINELEN : Nat := 1024

-- log_write_direct with create_log_entry: what goes to an open log file.
def logWriteDirect (format : List UInt8) (args : List Arg) : Option (List UInt8) :=
  (vsnprintf LOG_MAXLINELEN format args).map (·++[10])

-- What logging_access reads of a client.
structure Access where
  ip : List UInt8
  username : Option (List UInt8)
  datebuf : List UInt8
  req_type : Option (List UInt8)
  uri : Option (List UInt8)
  protocol : Option (List UInt8)
  version : Option (List UInt8)
  respcode : Int
  sent_bytes : Nat
  referrer : Option (List UInt8)
  user_agent : Option (List UInt8)
  stayed : Nat

def accessFormat : List UInt8 := ascii "%s - %H [%s] \"%H %H %H/%H\" %d %llu \"% H\" \"% H\" %llu"

def orDash (text : Option (List UInt8)) : List UInt8 := text.getD (ascii "-")

def loggingAccess (a : Access) : Option (List UInt8) :=
  logWriteDirect accessFormat [.str (some a.ip),.str (some (orDash a.username)),.str (some a.datebuf),
    .str a.req_type,.str a.uri,
    .str a.protocol,.str a.version,.int a.respcode,.uint a.sent_bytes,.str (some (orDash a.referrer)),
    .str (some (orDash a.user_agent)),.uint a.stayed]

structure Playlist where
  datebuf : List UInt8
  mount : List UInt8
  metadata : List UInt8
  listeners : Int

def loggingPlaylist (p : Playlist) : Option (List UInt8) :=
  logWriteDirect (ascii "%s|%s|%ld|%s") [.str (some p.datebuf),.str (some p.mount),.int p.listeners,
    .str (some p.metadata)]

-- filter_shoutcast_metadata: the title of a block that is passed to logging_playlist.
def filterShoutcastMetadata (block : List UInt8) : Option (List UInt8) :=
  let metadata := cstr (block.drop 1)
  if (ascii "StreamTitle='").isPrefixOf metadata then
    (strstr (ascii "';") (metadata.drop 13)).map fun end_ => (metadata.drop 13).take
      ((metadata.drop 13).length-end_.length)
  else none

-- The whole text of a format, without a limit on its length.
def expand : List UInt8 → Block → List Arg → Option (List UInt8)
  | [],_,_ => some []
  | c::rest,b,args => (directive c rest b args).bind fun r => (expand rest r.1 r.2.1).map (r.2.2++·)

theorem loop_expand (format : List UInt8) (b : Block) (args : List Arg) (size : Nat)
    (text : expand format b args = some full) :
    vsnprintfLoop format b args size = some (full.take size,size-full.length) := by
  induction format generalizing b args size full with
  | nil =>
    cases text
    simp [vsnprintfLoop]
  | cons c rest ih =>
    unfold expand at text
    obtain ⟨r,one,later⟩ := Option.bind_eq_some_iff.mp text
    obtain ⟨tail,expanded,rfl⟩ := Option.map_eq_some_iff.mp later
    unfold vsnprintfLoop
    by_cases full : size = 0
    · simp [full]
    · rw [if_neg full,one]
      simp only [Option.bind_some]
      rw [ih _ _ _ expanded,Option.map_some,List.take_append,List.length_append,Nat.sub_add_eq]

theorem vsnprintf_expand (positive : 0 < size) (text : expand format ⟨false,0,0,false,0⟩ args = some full) :
    vsnprintf size format args = some (full.take (size-1)) := by
  unfold vsnprintf
  rw [loop_expand format _ args size text,Option.map_some]
  by_cases long : size-full.length = 0
  · rw [if_pos long,List.dropLast_eq_take,List.take_take,List.length_take]
    congr 2
    omega
  · rw [if_neg long,List.take_of_length_le (by omega),List.take_of_length_le (by omega)]

def cleaned (space : Bool) (text : Option (List UInt8)) : List UInt8 :=
  (text.getD (ascii "(null)")).map (sanitise space)

-- An access record with the texts of its fields.
def accessRecord (ip username datebuf req_type uri protocol version code bytes referrer user_agent stayed :
    List UInt8) : List UInt8 :=
  ip++(ascii " - "++(username++(ascii " ["++(datebuf++(ascii "] \""++(req_type++(ascii " "++(uri++(ascii " "++(protocol++(ascii "/"++
    (version++(ascii "\" "++(code++(ascii " "++(bytes++(ascii " \""++(referrer++(ascii "\" \""++(user_agent++(ascii "\" "++
      (stayed++[]))))))))))))))))))))))

theorem access_expand (a : Access) :
    loggingAccess a = some ((accessRecord a.ip (cleaned false (orDash a.username)) a.datebuf
    (cleaned false a.req_type) (cleaned false a.uri) (cleaned false a.protocol)
    (cleaned false a.version) (ofInt a.respcode)
    (ofNat a.sent_bytes) (cleaned true (orDash a.referrer)) (cleaned true (orDash a.user_agent))
    (ofNat a.stayed)).take 1023++[10]) := by
  unfold loggingAccess logWriteDirect
  rw [vsnprintf_expand (by decide) (by rfl)]
  rfl

def playlistRecord (p : Playlist) : List UInt8 :=
  p.datebuf++(124::(p.mount++(124::(ofInt p.listeners++(124::(p.metadata++[]))))))

theorem playlist_expand (p : Playlist) : loggingPlaylist p = some ((playlistRecord p).take 1023++[10]) := by
  unfold loggingPlaylist logWriteDirect
  rw [vsnprintf_expand (by decide) (by rfl)]
  rfl

-- No quote and no newline.
def Clean (text : List UInt8) : Prop := 34 ∉ text ∧ 10 ∉ text

instance (text : List UInt8) : Decidable (Clean text) := inferInstanceAs (Decidable (_ ∧ _))

theorem sanitise_clean (space : Bool) (c : UInt8) : sanitise space c ≠ 34 ∧ sanitise space c ≠ 10 := by
  unfold sanitise
  split
  · exact ⟨by decide,by decide⟩
  · rename_i fine
    constructor
    · rintro rfl
      exact fine (by cases space <;> rfl)
    · rintro rfl
      exact fine (by cases space <;> rfl)

theorem cleaned_clean (space : Bool) (text : Option (List UInt8)) : Clean (cleaned space text) := by
  constructor
  · intro member
    obtain ⟨c,_,same⟩ := List.mem_map.mp member
    exact (sanitise_clean space c).1 same
  · intro member
    obtain ⟨c,_,same⟩ := List.mem_map.mp member
    exact (sanitise_clean space c).2 same

theorem ofNat_no_newline (n : Nat) : 10 ∉ ofNat n := by
  intro member
  have digit := ofNat_digits n 10 member
  cases digit

theorem ofInt_no_newline (z : Int) : 10 ∉ ofInt z := by
  unfold ofInt
  split
  · intro member
    rcases List.mem_cons.mp member with same | member
    · cases same
    · exact ofNat_no_newline _ member
  · exact ofNat_no_newline _

theorem one_line (text : List UInt8) : (text++[10]).count 10 = 1 ↔ 10 ∉ text := by
  rw [List.count_append,List.count_singleton_self]
  constructor
  · intro one member
    have := List.count_pos_iff.mpr member
    omega
  · intro absent
    rw [List.count_eq_zero_of_not_mem absent]

-- What of the mount and the metadata fits into the line.
def mountShown (p : Playlist) : List UInt8 := p.mount.take (1023-(p.datebuf.length+1))

def metadataShown (p : Playlist) : List UInt8 :=
  p.metadata.take (1023-(p.datebuf.length+1+p.mount.length+1+(ofInt p.listeners).length+1))

theorem take_parts (head mount middle metadata : List UInt8) (n : Nat) : (head++(mount++(middle++metadata))).take n =
    head.take n++(mount.take (n-head.length)++(middle.take (n-head.length-mount.length)++
      metadata.take (n-head.length-mount.length-middle.length))) := by
  rw [List.take_append,List.take_append,List.take_append]

theorem playlist_newline (p : Playlist) (date : 10 ∉ p.datebuf) :
    10 ∉ (playlistRecord p).take 1023 ↔ 10 ∉ mountShown p ∧ 10 ∉ metadataShown p := by
  have head : 10 ∉ (p.datebuf++[124]).take 1023 := fun member =>
    (List.mem_append.mp (List.mem_of_mem_take member)).elim date (by decide)
  have middle : ∀ n, 10 ∉ ([124]++ofInt p.listeners++[124]).take n := by
    intro n member
    have inside := List.mem_of_mem_take member
    simp only [List.mem_append,List.mem_singleton] at inside
    rcases inside with (same | digit) | same
    · cases same
    · exact ofInt_no_newline _ digit
    · cases same
  have split_ : playlistRecord p = p.datebuf++[124]++(p.mount++([124]++ofInt p.listeners++[124]++p.metadata)) := by
    simp [playlistRecord]
  have rest : 1023-(p.datebuf++[124]).length-p.mount.length-([124]++ofInt p.listeners++[124]).length =
      1023-(p.datebuf.length+1+p.mount.length+1+(ofInt p.listeners).length+1) := by
    simp only [List.length_append,List.length_singleton]
    omega
  rw [split_,take_parts,rest,List.length_append,List.length_singleton]
  simp only [List.mem_append,not_or]
  exact ⟨fun ⟨_,mount,_,metadata⟩ => ⟨mount,metadata⟩,fun ⟨mount,metadata⟩ => ⟨head,mount,middle _,metadata⟩⟩

theorem access_newline {ip username datebuf req_type uri protocol version referrer user_agent : List UInt8}
    (code : Int) (bytes stayed : Nat)
    (clean : ∀ text ∈ [ip,username,datebuf,req_type,uri,protocol,version,referrer,user_agent], Clean text) :
    10 ∉ accessRecord ip username datebuf req_type uri protocol version (ofInt code)
    (ofNat bytes) referrer user_agent (ofNat stayed) := by
  simp only [List.mem_cons,List.not_mem_nil,or_false,forall_eq_or_imp,forall_eq,Clean] at clean
  obtain ⟨⟨_,ip⟩,⟨_,username⟩,⟨_,datebuf⟩,⟨_,req_type⟩,⟨_,uri⟩,⟨_,protocol⟩,⟨_,version⟩,⟨_,referrer⟩,
    _,user_agent⟩ := clean
  have literals : ∀ text ∈ [" - "," [","] \""," ","/","\" "," \"","\" \""], 10 ∉ ascii text := by decide
  simp only [List.mem_cons,List.not_mem_nil,or_false,forall_eq_or_imp,forall_eq] at literals
  obtain ⟨dash,opening,quote,space,slash,close,open_,both⟩ := literals
  simp only [accessRecord,List.mem_append,List.not_mem_nil,not_or,or_false]
  exact ⟨ip,dash,username,opening,datebuf,quote,req_type,space,uri,space,protocol,slash,version,close,
    ofInt_no_newline _,space,
    ofNat_no_newline _,open_,referrer,both,user_agent,close,ofNat_no_newline _⟩

-- An access record is one line, in which what the client sent has no quote and no newline; a
-- playlist record is one line where the part of the mount and of the metadata it shows has none.
theorem log_records (a : Access) (p : Playlist) (ip : Clean a.ip) (date : Clean a.datebuf) (date' : Clean p.datebuf) :
    (∃ line, loggingAccess a = some line ∧ line.count 10 = 1 ∧
      ∃ username req_type uri protocol version referrer user_agent,
        (∀ text ∈ [username,req_type,uri,protocol,version,referrer,user_agent], Clean text) ∧
        line = (accessRecord a.ip username a.datebuf req_type uri protocol version
        (ofInt a.respcode) (ofNat a.sent_bytes)
          referrer user_agent (ofNat a.stayed)).take 1023++[10]) ∧
    ((∃ line, loggingPlaylist p = some line ∧ line.count 10 = 1) ↔ 10 ∉ mountShown p ∧ 10 ∉ metadataShown p) := by
  constructor
  · refine ⟨_,access_expand a,?_,_,_,_,_,_,_,_,?_,rfl⟩
    · rw [one_line]
      intro member
      refine access_newline _ _ _ ?_ (List.mem_of_mem_take member)
      simp only [List.mem_cons,List.not_mem_nil,or_false,forall_eq_or_imp,forall_eq]
      exact ⟨ip,cleaned_clean _ _,date,cleaned_clean _ _,cleaned_clean _ _,cleaned_clean _ _,
        cleaned_clean _ _,cleaned_clean _ _,
        cleaned_clean _ _⟩
    · simp only [List.mem_cons,List.not_mem_nil,or_false,forall_eq_or_imp,forall_eq]
      exact ⟨cleaned_clean _ _,cleaned_clean _ _,cleaned_clean _ _,cleaned_clean _ _,cleaned_clean _ _,
        cleaned_clean _ _,cleaned_clean _ _⟩
  · rw [playlist_expand]
    rw [←playlist_newline p date'.2,←one_line]
    exact ⟨fun ⟨line,same,one⟩ => Option.some.inj same ▸ one,fun one => ⟨_,rfl,one⟩⟩

def listen : Access := ⟨ascii "10.0.0.1",none,ascii "01/Jan/2024",some (ascii "GET"),
    some (ascii "/a\"b\nc"),some (ascii "HTTP"),
  some (ascii "1.0"),200,5,some (ascii "x\" y"),none,3⟩

def played (metadata : List UInt8) : Playlist := ⟨ascii "01/Jan/2024",ascii "/live",metadata,2⟩

theorem log_records_listen : loggingAccess listen =
      some (ascii "10.0.0.1 - - [01/Jan/2024] \"GET /a.b.c HTTP/1.0\" 200 5 \"x. y\" \"-\" 3\n") ∧
    ∃ line, loggingPlaylist (played (ascii "a - b")) = some line ∧ line.count 10 = 1 :=
  ⟨by decide +kernel,(log_records listen (played (ascii "a - b")) (by decide) (by decide) (by decide)).2.mpr (by decide +kernel)⟩

-- A newline in a title reaches the playlist log as it is.
theorem title_newline : filterShoutcastMetadata (1::ascii "StreamTitle='a\nb';") = some (ascii "a\nb") ∧
    ¬∃ line, loggingPlaylist (played (ascii "a\nb")) = some line ∧ line.count 10 = 1 := by
  refine ⟨by decide +kernel,?_⟩
  rw [playlist_expand]
  rintro ⟨line,same,one⟩
  rw [←Option.some.inj same] at one
  revert one
  decide +kernel

end Icecast.LogRecords
