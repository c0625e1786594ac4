import Icecast.Lib.Decimal
import Icecast.OggCodecs

namespace Icecast.FlacPages
open Bytes

-- ogg_page
structure Page where
  header : List UInt8
  body : List UInt8
deriving DecidableEq

def Page.bytes (page : Page) : List UInt8 := page.header++page.body

-- What ogg_stream_packetout gives when it does not return 0: a packet (1), or word of a hole in
-- the stream (-1), which leaves the ogg_packet as it is.
inductive Delivery where
  | packet (bytes : List UInt8)
  | hole
deriving DecidableEq

-- libogg, which is not part of the repository; `σ` is its ogg_stream_state.
structure Libogg (σ : Type) where
  serialno : Page → Nat
  streamInit : Nat → σ
  pagein : σ → Page → σ × Int
  packetout : σ → σ × Option Delivery

-- Every call of packetout that does not return 0 uses up something of what the stream holds.
def Libogg.Drains (lib : Libogg σ) (pending : σ → Nat) : Prop :=
  ∀ os, (lib.packetout os).2.isSome = true → pending (lib.packetout os).1 < pending os

-- packet.packet, of packet.bytes bytes; none is the NULL it starts as.
abbrev OggPacket := Option (List UInt8)

def OggPacket.update (packet : OggPacket) : Delivery → OggPacket
  | .packet bytes => some bytes
  | .hole => packet

-- A read through NULL or behind the end of a block, or a loop that is not done.
inductive Fault where
  | outside
  | unfinished
deriving DecidableEq

def access : Option α → Except Fault α
  | some a => .ok a
  | none => .error .outside

def byteAt (packet : OggPacket) (i : Nat) : Option UInt8 := packet.bind (·[i]?)

def makeRefbufWithPage (page : Page) : Option (List UInt8) :=
  (memcpy (List.replicate (page.header.length+page.body.length) 0) 0 page.header).bind
    (memcpy · page.header.length page.body)

-- What the codec sets in ogg_info: error, the refbufs that format_ogg_attach_header made, and
-- FLAC_version in the stats.
structure OggInfo where
  error : Bool
  attached : List (List UInt8)
  flacVersion : Option (List UInt8)
deriving DecidableEq

def attachHeader (info : OggInfo) (page : Page) : Option OggInfo :=
  (makeRefbufWithPage page).map fun refbuf => {info with attached := info.attached++[refbuf]}

structure FlacCodec (σ : Type) where
  os : σ
  headers : Bool
deriving DecidableEq

-- The packet types that the loop of process_flac_page goes on with.
def continues (type : UInt8) : Bool := (1 ≤ type && type ≤ 0x7E) || (0x81 ≤ type && type ≤ 0xFE)

inductive Verdict where
  | headers | data | rejected
deriving DecidableEq

-- The loop of process_flac_page.
def packets (lib : Libogg σ) : Nat → σ → OggPacket → Except Fault (σ × Verdict)
  | 0,_,_ => .error .unfinished
  | fuel+1,os,packet =>
    match lib.packetout os with
    | (os,none) => .ok (os,.headers)
    | (os,some delivery) =>
      let packet := packet.update delivery
      match byteAt packet 0 with
      | none => .error .outside
      | some type =>
        if type = 0xFF then .ok (os,.data)
        else if continues type then packets lib fuel os packet
        else .ok (os,.rejected)

-- `budget` is how often the loop may run for a stream.
def processFlacPage (lib : Libogg σ) (budget : σ → Nat) (info : OggInfo) (codec : FlacCodec σ) (page : Page) :
    Except Fault (OggInfo × FlacCodec σ × Option (List UInt8)) :=
  if codec.headers then
    match lib.pagein codec.os page with
    | (os,ret) =>
      if ret < 0 then .ok ({info with error := true},{codec with os := os},none) else
      match packets lib (budget os) os none with
      | .error fault => .error fault
      | .ok (os,.rejected) => .ok ({info with error := true},{codec with os := os},none)
      | .ok (os,.headers) => (access (attachHeader info page)).map fun info => (info,{codec with os := os},none)
      | .ok (os,.data) => (access (makeRefbufWithPage page)).map fun refbuf => (info,⟨os,false⟩,some refbuf)
  else (access (makeRefbufWithPage page)).map fun refbuf => (info,codec,some refbuf)

-- initial_flac_page; it gives no codec for a page that is not of FLAC.
def initialFlacPage (lib : Libogg σ) (info : OggInfo) (page : Page) : Except Fault (Option (OggInfo × FlacCodec σ)) :=
  match lib.packetout (lib.pagein (lib.streamInit (lib.serialno page)) page).1 with
  | (os,delivery) =>
    let packet := delivery.bind (OggPacket.update none)
    if page.header.length+page.body.length ≠ 79 then .ok none else
    (access (byteAt packet 0)).bind fun first =>
    if first ≠ 0x7F then .ok none else
    (access (packet.bind (slice · 1 4))).bind fun magic =>
    if magic ≠ ascii "FLAC" then .ok none else
    (access (byteAt packet 5)).bind fun major =>
    (access (byteAt packet 6)).bind fun minor =>
    (access (attachHeader {info with flacVersion := some (Decimal.ofNat major.toNat++46::Decimal.ofNat minor.toNat)} page)).map fun info =>
      some (info,⟨os,true⟩)

-- A FLAC stream of a source, and the refbufs it gave for the queue.
structure FlacStream (σ : Type) where
  info : OggInfo
  codec : FlacCodec σ
  queued : List (List UInt8)
deriving DecidableEq

def process (lib : Libogg σ) (budget : σ → Nat) (s : FlacStream σ) (page : Page) : Except Fault (FlacStream σ) :=
  (processFlacPage lib budget s.info s.codec page).map fun (info,codec,refbuf) => ⟨info,codec,s.queued++refbuf.toList⟩

-- The pages that ogg_get_buffer hands to the codec: none after an error.
def feed (lib : Libogg σ) (budget : σ → Nat) : FlacStream σ → List Page → Except Fault (FlacStream σ)
  | s,[] => .ok s
  | s,page::pages => if s.info.error then .ok s else (process lib budget s page).bind (feed lib budget · pages)

-- A whole stream, of a source without an error that has attached other pages before.
def play (lib : Libogg σ) (budget : σ → Nat) (attached : List (List UInt8))
    (version : Option (List UInt8)) (first : Page)
    (pages : List Page) : Except Fault (Option (FlacStream σ)) :=
  (initialFlacPage lib ⟨false,attached,version⟩ first).bind fun
    | none => .ok none
    | some (info,codec) => (feed lib budget ⟨info,codec,[]⟩ pages).map some

theorem makeRefbufWithPage_eq (page : Page) : makeRefbufWithPage page = some page.bytes := by
  have room : memcpy (List.replicate (page.header.length+page.body.length) 0) 0 page.header =
      some (page.header++List.replicate page.body.length 0) := by
    rw [memcpy_eq (by simp)]
    simp
  rw [makeRefbufWithPage,room,Option.bind_some,memcpy_append (by simp)]
  simp [Page.bytes]

theorem attachHeader_eq (info : OggInfo) (page : Page) :
    attachHeader info page = some {info with attached := info.attached++[page.bytes]} := by
  rw [attachHeader,makeRefbufWithPage_eq]
  rfl

section Deliveries

-- What packetout gives until it returns 0, and the stream after that.
def Libogg.drain (lib : Libogg σ) : Nat → σ → List Delivery × σ
  | 0,os => ([],os)
  | fuel+1,os =>
    match lib.packetout os with
    | (os,none) => ([],os)
    | (os,some delivery) => (delivery::(lib.drain fuel os).1,(lib.drain fuel os).2)

-- What packetout gives for the pages of a stream, page by page, when it is called until it returns 0
-- for each; none for a page that pagein refuses.
def Libogg.deliver (lib : Libogg σ) (budget : σ → Nat) : σ → List Page → List (Option (List Delivery))
  | _,[] => []
  | os,page::pages =>
    match lib.pagein os page with
    | (os,ret) =>
      if ret < 0 then none::lib.deliver budget os pages
      else some (lib.drain (budget os) os).1::lib.deliver budget (lib.drain (budget os) os).2 pages

-- A packet of the headers, or a hole.
def Delivery.passes : Delivery → Bool
  | .packet bytes => bytes.head?.any continues
  | .hole => true

def Delivery.startsData : Delivery → Bool
  | .packet bytes => bytes.head? = some 0xFF
  | .hole => false

-- Up to the first packet that is not one of the headers.
def looked : List Delivery → List Delivery
  | [] => []
  | d::rest => d::if d.passes then looked rest else []

def verdict : List Delivery → Verdict
  | [] => .headers
  | d::rest => if d.passes then verdict rest else if d.startsData then .data else .rejected

-- No hole in front, and no packet without a byte.
def Fine (seen : List Delivery) : Prop := seen.head? ≠ some .hole ∧ .packet [] ∉ seen

instance decideFine (seen : List Delivery) : Decidable (Fine seen) := inferInstanceAs (Decidable (_ ∧ _))

theorem passes_startsData {d : Delivery} (passes : d.passes = true) : d.startsData = false := by
  cases d with
  | hole => rfl
  | packet bytes =>
    cases bytes with
    | nil => cases passes
    | cons type bytes =>
      refine decide_eq_false fun data => ?_
      cases Option.some.inj data
      cases passes

theorem verdict_headers (keeps : verdict items = .headers) : items.any Delivery.startsData = false := by
  induction items with
  | nil => rfl
  | cons d rest ih =>
    rw [verdict] at keeps
    split at keeps
    · rename_i passes
      rw [List.any_cons,passes_startsData passes,ih keeps]
      rfl
    · split at keeps <;> cases keeps

theorem verdict_data (begins : verdict items = .data) : items.any Delivery.startsData = true := by
  induction items with
  | nil => cases begins
  | cons d rest ih =>
    rw [verdict] at begins
    rw [List.any_cons,Bool.or_eq_true]
    split at begins
    · exact .inr (ih begins)
    · split at begins
      · rename_i data
        exact .inl data
      · cases begins

-- The loop over the deliveries as a list.
def judge : OggPacket → List Delivery → Except Fault Verdict
  | _,[] => .ok .headers
  | packet,d::rest =>
    match byteAt (packet.update d) 0 with
    | none => .error .outside
    | some type =>
      if type = 0xFF then .ok .data
      else if continues type then judge (packet.update d) rest
      else .ok .rejected

theorem judge_held {packet : OggPacket} (held : (byteAt packet 0).any continues = true) (items : List Delivery) :
    judge packet items = if .packet [] ∈ looked items then .error .outside else .ok (verdict items) := by
  induction items generalizing packet with
  | nil => rfl
  | cons d rest ih =>
    cases d with
    | hole =>
      obtain ⟨type,first,goes⟩ := (Option.any_eq_true ..).mp held
      have other : type ≠ 0xFF := by
        rintro rfl
        cases goes
      have same : packet.update .hole = packet := rfl
      rw [judge,same,first]
      dsimp only
      rw [if_neg other,if_pos goes,ih held]
      simp [looked,verdict,Delivery.passes]
    | packet bytes =>
      cases bytes with
      | nil => rfl
      | cons type bytes =>
        have first : byteAt (packet.update (.packet (type::bytes))) 0 = some type := rfl
        rw [judge,first]
        dsimp only
        by_cases data : type = 0xFF
        · subst data
          rfl
        rw [if_neg data]
        cases goes : continues type with
        | true =>
          rw [if_pos rfl,ih (by rw [first]; exact goes)]
          simp [looked,verdict,Delivery.passes,goes]
        | false => simp [looked,verdict,Delivery.passes,Delivery.startsData,goes,data]

theorem judge_start (items : List Delivery) :
    judge none items = if Fine (looked items) then .ok (verdict items) else .error .outside := by
  cases items with
  | nil => rfl
  | cons d rest =>
    cases d with
    | hole => rfl
    | packet bytes =>
      have apart : (looked (.packet bytes::rest)).head? ≠ some .hole := by simp [looked]
      have same : judge none (.packet bytes::rest) = judge (some [1]) (.packet bytes::rest) := rfl
      rw [same,judge_held rfl]
      by_cases empty : .packet [] ∈ looked (.packet bytes::rest)
      · rw [if_pos empty,if_neg fun fine => fine.2 empty]
      · rw [if_neg empty,if_pos ⟨apart,empty⟩]

end Deliveries

section Pages

variable {lib : Libogg σ} {pending budget : σ → Nat}

theorem packets_judge (drains : lib.Drains pending) (enough : pending os < fuel) (packet : OggPacket) :
    (packets lib fuel os packet).map (·.2) = judge packet (lib.drain fuel os).1 ∧
      ∀ next, packets lib fuel os packet = .ok (next,.headers) → next = (lib.drain fuel os).2 := by
  induction fuel generalizing os packet with
  | zero => omega
  | succ fuel ih =>
    have less := drains os
    rw [packets,Libogg.drain]
    rcases out : lib.packetout os with ⟨next,_ | d⟩
    · refine ⟨rfl,fun last same => ?_⟩
      cases same
      rfl
    · rw [out] at less
      have smaller : pending next < fuel := Nat.lt_of_lt_of_le (less rfl) (Nat.lt_succ_iff.mp enough)
      obtain ⟨same,last⟩ := ih smaller (packet.update d)
      dsimp only
      rw [judge]
      cases byteAt (packet.update d) 0 with
      | none => exact ⟨rfl,fun _ same => nomatch same⟩
      | some type =>
        dsimp only
        by_cases data : type = 0xFF
        · rw [if_pos data,if_pos data]
          exact ⟨rfl,fun _ same => nomatch same⟩
        rw [if_neg data,if_neg data]
        cases continues type with
        | true => exact ⟨same,last⟩
        | false => exact ⟨rfl,fun _ same => nomatch same⟩

theorem packets_spec (drains : lib.Drains pending) (enough : pending os < fuel) :
    if Fine (looked (lib.drain fuel os).1) then
      ∃ next, packets lib fuel os none = .ok (next,verdict (lib.drain fuel os).1) ∧
        (verdict (lib.drain fuel os).1 = .headers → next = (lib.drain fuel os).2)
    else packets lib fuel os none = .error .outside := by
  obtain ⟨same,last⟩ := packets_judge drains enough none
  rw [judge_start] at same
  split
  · rename_i fine
    rw [if_pos fine] at same
    cases ran : packets lib fuel os none with
    | error fault =>
      rw [ran] at same
      cases same
    | ok r =>
      rw [ran] at same
      obtain ⟨next,found⟩ := r
      cases Except.ok.inj same
      exact ⟨next,rfl,fun keeps => last next (by rw [ran,keeps])⟩
  · rename_i bad
    rw [if_neg bad] at same
    cases ran : packets lib fuel os none with
    | error fault =>
      rw [ran] at same
      cases Except.error.inj same
      rfl
    | ok r =>
      rw [ran] at same
      cases same

-- The deliveries that the codec gets to see, page by page.
def examined : List (Option (List Delivery)) → List (List Delivery)
  | some items::rest => looked items::if verdict items = .headers then examined rest else []
  | none::_ | [] => []

-- A packet that begins with 0xFF is delivered for this page.
def begins (delivered : Option (List Delivery)) : Bool := delivered.any (·.any Delivery.startsData)

def headerCount (delivered : List (Option (List Delivery))) : Nat := (delivered.takeWhile (!begins ·)).length

-- What becomes of the pages: attached up to the first page that begins the data, queued from there
-- on; a source that ends with an error did so among the pages to attach.
structure Sorted (before : List (List UInt8)) (pages : List Page) (delivered : List (Option (List Delivery)))
    (s : FlacStream σ) : Prop where
  accepted : s.info.error = false → s.info.attached = before++(pages.take (headerCount delivered)).map Page.bytes ∧
    s.queued = (pages.drop (headerCount delivered)).map Page.bytes
  rejected : s.info.error = true → s.queued = [] ∧
    ∃ n, n ≤ headerCount delivered ∧ n < pages.length ∧ s.info.attached = before++(pages.take n).map Page.bytes

theorem headerCount_header (header : begins d = false) : headerCount (d::rest) = headerCount rest+1 := by
  rw [headerCount,List.takeWhile_cons_of_pos (by rw [header]; rfl)]
  rfl

theorem headerCount_data (data : begins d = true) : headerCount (d::rest) = 0 := by
  rw [headerCount,List.takeWhile_cons_of_neg (by rw [data]; simp)]
  rfl

theorem Sorted.cons (sorted : Sorted (before++[page.bytes]) pages delivered s) (header : begins d = false) :
    Sorted before (page::pages) (d::delivered) s := by
  refine ⟨fun fine => ?_,fun failed => ?_⟩
  · obtain ⟨attached,queued⟩ := sorted.accepted fine
    rw [headerCount_header header,List.take_succ_cons,List.drop_succ_cons,List.map_cons,attached,queued]
    simp
  · obtain ⟨absent,n,within,inside,attached⟩ := sorted.rejected failed
    refine ⟨absent,n+1,?_,by rw [List.length_cons]; omega,?_⟩
    · rw [headerCount_header header]
      omega
    · rw [List.take_succ_cons,List.map_cons,attached]
      simp

theorem Sorted.ends {s : FlacStream σ} (failed : s.info.error = true) (attached : s.info.attached = before)
    (queued : s.queued = []) :
    Sorted before (page::pages) delivered s := by
  refine ⟨fun fine => ?_,fun _ => ⟨queued,0,Nat.zero_le _,Nat.succ_pos _,?_⟩⟩
  · rw [failed] at fine
    cases fine
  · rw [attached]
    simp

theorem process_data {s : FlacStream σ} (off : s.codec.headers = false) (page : Page) :
    process lib budget s page = .ok {s with queued := s.queued++[page.bytes]} := by
  rw [process,processFlacPage,if_neg (by rw [off]; decide),makeRefbufWithPage_eq]
  rfl

theorem feed_data {s : FlacStream σ} (off : s.codec.headers = false) (fine : s.info.error = false) (pages : List Page) :
    feed lib budget s pages = .ok {s with queued := s.queued++pages.map Page.bytes} := by
  induction pages generalizing s with
  | nil =>
    rw [List.map_nil,List.append_nil]
    rfl
  | cons page pages ih =>
    rw [feed,if_neg (by rw [fine]; decide),process_data off]
    refine (ih (s := {s with queued := s.queued++[page.bytes]}) off fine).trans ?_
    simp

-- What a page of the headers makes of the stream.
def settle (s : FlacStream σ) (page : Page) : σ × Verdict → FlacStream σ
  | (os,.headers) => {s with info := {s.info with attached := s.info.attached++[page.bytes]},codec := {s.codec with os := os}}
  | (os,.data) => {s with codec := ⟨os,false⟩,queued := s.queued++[page.bytes]}
  | (os,.rejected) => {s with info := {s.info with error := true},codec := {s.codec with os := os}}

theorem process_refused {s : FlacStream σ} (on : s.codec.headers = true) (took : lib.pagein s.codec.os page = (os,ret)) (refused : ret < 0) :
    process lib budget s page = .ok (settle s page (os,.rejected)) := by
  rw [process,processFlacPage,if_pos on,took]
  dsimp only
  rw [if_pos refused]
  simp [Except.map,settle]

theorem process_headers {s : FlacStream σ} (on : s.codec.headers = true)
    (took : lib.pagein s.codec.os page = (os,ret)) (kept : ¬ret < 0) :
    process lib budget s page = (packets lib (budget os) os none).map (settle s page) := by
  rw [process,processFlacPage,if_pos on,took]
  dsimp only
  rw [if_neg kept]
  cases packets lib (budget os) os none with
  | error fault => rfl
  | ok r =>
    obtain ⟨next,_ | _ | _⟩ := r
    · simp [attachHeader_eq,access,Except.map,settle]
    · simp [makeRefbufWithPage_eq,access,Except.map,settle]
    · simp [Except.map,settle]

theorem feed_cons {s : FlacStream σ} (fine : s.info.error = false) (page : Page) (pages : List Page) :
    feed lib budget s (page::pages) = (process lib budget s page).bind (feed lib budget · pages) := by
  rw [feed,if_neg (by rw [fine]; decide)]

theorem feed_failed {s : FlacStream σ} (failed : s.info.error = true) (pages : List Page) :
    feed lib budget s pages = .ok s := by
  cases pages with
  | nil => rfl
  | cons page pages => rw [feed,if_pos failed]

theorem deliver_refused (took : lib.pagein s page = (os,ret)) (refused : ret < 0) (pages : List Page) :
    lib.deliver budget s (page::pages) = none::lib.deliver budget os pages := by
  rw [Libogg.deliver,took]
  exact if_pos refused

theorem deliver_kept (took : lib.pagein s page = (os,ret)) (kept : ¬ret < 0) (pages : List Page) :
    lib.deliver budget s (page::pages) =
    some (lib.drain (budget os) os).1::lib.deliver budget (lib.drain (budget os) os).2 pages := by
  rw [Libogg.deliver,took]
  exact if_neg kept

theorem feed_headers (drains : lib.Drains pending) (enough : ∀ os, pending os < budget os) {s : FlacStream σ}
    (on : s.codec.headers = true)
    (fine : s.info.error = false) (fresh : s.queued = []) (pages : List Page) :
    ((∀ seen ∈ examined (lib.deliver budget s.codec.os pages), Fine seen) →
      ∃ t, feed lib budget s pages = .ok t ∧ Sorted s.info.attached pages (lib.deliver budget s.codec.os pages) t) ∧
    (¬(∀ seen ∈ examined (lib.deliver budget s.codec.os pages), Fine seen) →
    feed lib budget s pages = .error .outside) := by
  induction pages generalizing s with
  | nil =>
    refine ⟨fun _ => ⟨s,rfl,fun _ => ⟨by simp,fresh⟩,fun failed => ?_⟩,
      fun bad => (bad fun seen member => nomatch member).elim⟩
    exact absurd (fine.symm.trans failed) (by decide)
  | cons page pages ih =>
    rw [feed_cons fine]
    rcases took : lib.pagein s.codec.os page with ⟨os,ret⟩
    by_cases refused : ret < 0
    · rw [deliver_refused took refused,process_refused on took refused]
      exact ⟨fun _ => ⟨_,feed_failed rfl pages,.ends rfl rfl fresh⟩,fun bad => (bad fun seen member => nomatch member).elim⟩
    rw [deliver_kept took refused,process_headers on took refused,examined,List.forall_mem_cons]
    have found := packets_spec drains (enough os)
    by_cases clear : Fine (looked (lib.drain (budget os) os).1)
    · rw [if_pos clear] at found
      obtain ⟨next,ran,last⟩ := found
      rw [ran]
      cases found : verdict (lib.drain (budget os) os).1 with
      | headers =>
        cases last found
        have header := verdict_headers found
        obtain ⟨good,bad⟩ := ih (s := settle s page ((lib.drain (budget os) os).2,.headers)) on fine fresh
        rw [if_pos rfl]
        refine ⟨fun all => ?_,fun positive => bad fun all => positive ⟨clear,all⟩⟩
        obtain ⟨t,ran,sorted⟩ := good all.2
        exact ⟨t,ran,sorted.cons header⟩
      | data =>
        have data : begins (some (lib.drain (budget os) os).1) = true := verdict_data found
        rw [if_neg (by decide)]
        refine ⟨fun _ => ⟨_,feed_data (s := settle s page (next,.data)) rfl fine pages,fun _ => ?_,fun failed => ?_⟩,fun bad => ?_⟩
        · rw [headerCount_data data]
          simp [settle,fresh]
        · exact absurd (fine.symm.trans failed) (by decide)
        · exact (bad ⟨clear,fun seen member => nomatch member⟩).elim
      | rejected =>
        rw [if_neg (by decide)]
        refine ⟨fun _ => ⟨_,feed_failed rfl pages,.ends rfl rfl fresh⟩,fun bad => ?_⟩
        exact (bad ⟨clear,fun seen member => nomatch member⟩).elim
    · rw [if_neg clear] at found
      rw [found]
      exact ⟨fun all => (clear all.1).elim,fun _ => rfl⟩

end Pages

section Streams

variable {lib : Libogg σ} {pending budget : σ → Nat}

-- What libogg makes of the first page of a stream.
def Libogg.opening (lib : Libogg σ) (first : Page) : σ × Option Delivery :=
  lib.packetout (lib.pagein (lib.streamInit (lib.serialno first)) first).1

-- A first page of 79 bytes brings a packet that holds what is read of it.
def Opens (first : Page) (delivered : Option Delivery) : Prop :=
  first.bytes.length = 79 → ∃ p, delivered = some (.packet p) ∧ p ≠ [] ∧ (p.head? = some 0x7F → 5 ≤ p.length) ∧
    ((0x7F::ascii "FLAC") <+: p → 7 ≤ p.length)

def isFlac (first : Page) : Option Delivery → Bool
  | some (.packet p) => first.bytes.length = 79 && (0x7F::ascii "FLAC").isPrefixOf p
  | _ => false

theorem isFlac_codec (first : Page) (serialno : Nat) (packet : List UInt8) : isFlac first (some (.packet packet)) =
    (OggCodecs.initialFlacPage ⟨serialno,first.bytes.length,packet⟩).isSome := by
  rw [OggCodecs.initialFlacPage,OggCodecs.initialPage]
  dsimp only [isFlac]
  split
  · rename_i flac
    exact flac
  · rename_i other
    exact Bool.eq_false_of_not_eq_true other

-- The pages after the first one as libogg delivers them.
def Libogg.delivered (lib : Libogg σ) (budget : σ → Nat) (first : Page) (pages : List Page) :
    List (Option (List Delivery)) :=
  lib.deliver budget (lib.opening first).1 pages

theorem initial_other (info : OggInfo) (size : first.bytes.length ≠ 79) :
    initialFlacPage lib info first = .ok none := by
  have width : first.header.length+first.body.length = first.bytes.length := (List.length_append ..).symm
  rw [initialFlacPage,width]
  dsimp only
  rw [if_pos size]

theorem initial_packet (info : OggInfo) (size : first.bytes.length = 79)
    (found : lib.opening first = (os,some (.packet p))) :
    initialFlacPage lib info first =
      (access (byteAt (some p) 0)).bind fun type => if type ≠ 0x7F then .ok none else
      (access (slice p 1 4)).bind fun magic => if magic ≠ ascii "FLAC" then .ok none else
      (access (byteAt (some p) 5)).bind fun major => (access (byteAt (some p) 6)).bind fun minor =>
        .ok (some (⟨info.error,info.attached++[first.bytes],
        some (Decimal.ofNat major.toNat++46::Decimal.ofNat minor.toNat)⟩,⟨os,true⟩)) := by
  have width : first.header.length+first.body.length = first.bytes.length := (List.length_append ..).symm
  have here : lib.packetout (lib.pagein (lib.streamInit (lib.serialno first)) first).1 = (os,some (.packet p)) := found
  rw [initialFlacPage,width,here]
  dsimp only
  rw [if_neg (not_not.mpr size)]
  simp only [attachHeader_eq]
  rfl

theorem initial_unread (info : OggInfo) (size : first.bytes.length = 79) (found : lib.opening first = (os,d))
    (unread : ∀ p, d ≠ some (.packet p)) :
    initialFlacPage lib info first = .error .outside := by
  have width : first.header.length+first.body.length = first.bytes.length := (List.length_append ..).symm
  have here : lib.packetout (lib.pagein (lib.streamInit (lib.serialno first)) first).1 = (os,d) := found
  rw [initialFlacPage,width,here]
  dsimp only
  rw [if_neg (not_not.mpr size)]
  rcases d with _ | ⟨p⟩ | _
  · rfl
  · exact (unread p rfl).elim
  · rfl

theorem word_iff (type : UInt8) (p : List UInt8) : (0x7F::ascii "FLAC") <+: type::p ↔ type = 0x7F ∧
    p.take 4 = ascii "FLAC" := by
  rw [List.cons_prefix_cons,List.prefix_iff_eq_take]
  exact ⟨fun same => ⟨same.1.symm,same.2.symm⟩,fun same => ⟨same.1.symm,same.2.symm⟩⟩

theorem opens_packet (size : first.bytes.length = 79) : Opens first (some (.packet (type::p))) ↔
    (type = 0x7F → 4 ≤ p.length) ∧ (type = 0x7F → p.take 4 = ascii "FLAC" → 6 ≤ p.length) := by
  constructor
  · intro opens
    obtain ⟨q,same,_,room,whole⟩ := opens size
    cases same
    refine ⟨fun magic => Nat.le_of_succ_le_succ (room (by rw [magic]; rfl)),fun magic word => ?_⟩
    exact Nat.le_of_succ_le_succ (whole ((word_iff type p).mpr ⟨magic,word⟩))
  · rintro ⟨room,whole⟩ _
    refine ⟨type::p,rfl,List.cons_ne_nil type p,fun magic => ?_,fun word => ?_⟩
    · exact Nat.succ_le_succ (room (Option.some.inj magic))
    · obtain ⟨magic,word⟩ := (word_iff type p).mp word
      exact Nat.succ_le_succ (whole magic word)

theorem isFlac_packet (size : first.bytes.length = 79) : isFlac first (some (.packet (type::p))) = true ↔
    type = 0x7F ∧ p.take 4 = ascii "FLAC" := by
  rw [isFlac,decide_eq_true size,Bool.true_and,List.isPrefixOf_iff_prefix]
  exact word_iff type p

theorem initial_read (info : OggInfo) (size : first.bytes.length = 79)
    (found : lib.opening first = (os,some (.packet (type::p)))) :
    initialFlacPage lib info first =
      if type ≠ 0x7F then .ok none else if p.length < 4 then .error .outside
      else if p.take 4 ≠ ascii "FLAC" then .ok none
      else (access p[4]?).bind fun major => (access p[5]?).bind fun minor =>
        .ok (some (⟨info.error,info.attached++[first.bytes],
        some (Decimal.ofNat major.toNat++46::Decimal.ofNat minor.toNat)⟩,⟨os,true⟩)) := by
  rw [initial_packet info size found]
  show (if type ≠ 0x7F then _ else (access (slice (type::p) 1 4)).bind _) = _
  refine if_congr Iff.rfl rfl ?_
  by_cases short : p.length < 4
  · have absent : slice (type::p) 1 4 = none := if_neg (by rw [List.length_cons]; omega)
    rw [absent,if_pos short]
    rfl
  · rw [slice_eq (by rw [List.length_cons]; omega),if_neg short]
    rfl

theorem initial_spec (lib : Libogg σ) (info : OggInfo) (first : Page) :
    (¬Opens first (lib.opening first).2 → initialFlacPage lib info first = .error .outside) ∧
    (Opens first (lib.opening first).2 → if isFlac first (lib.opening first).2 then
      ∃ version, initialFlacPage lib info first = .ok
      (some (⟨info.error,info.attached++[first.bytes],some version⟩,⟨(lib.opening first).1,true⟩))
      else initialFlacPage lib info first = .ok none) := by
  by_cases size : first.bytes.length = 79
  · rcases found : lib.opening first with ⟨os,_ | ⟨_ | ⟨type,p⟩⟩ | _⟩
    · refine ⟨fun _ => initial_unread info size found (by simp),fun opens => ?_⟩
      obtain ⟨p,same,_⟩ := opens size
      cases same
    · refine ⟨fun _ => (initial_packet info size found).trans rfl,fun opens => ?_⟩
      obtain ⟨p,same,filled,_⟩ := opens size
      cases same
      exact (filled rfl).elim
    · rw [initial_read info size found]
      rw [opens_packet size]
      by_cases magic : type = 0x7F
      · rw [if_neg (not_not.mpr magic)]
        by_cases short : p.length < 4
        · exact ⟨fun _ => if_pos short,fun opens => absurd (opens.1 magic) (by omega)⟩
        rw [if_neg short]
        by_cases word : p.take 4 = ascii "FLAC"
        · rw [if_neg (not_not.mpr word),if_pos ((isFlac_packet size).mpr ⟨magic,word⟩)]
          by_cases whole : 6 ≤ p.length
          · rw [List.getElem?_eq_getElem (by omega),List.getElem?_eq_getElem whole]
            exact ⟨fun closed => (closed ⟨fun _ => by omega,fun _ _ => whole⟩).elim,fun _ => ⟨_,rfl⟩⟩
          · rw [List.getElem?_eq_none (i := 5) (by omega)]
            refine ⟨fun _ => ?_,fun opens => absurd (opens.2 magic word) whole⟩
            cases p[4]? <;> rfl
        · rw [if_pos word,if_neg fun flac => word ((isFlac_packet size).mp flac).2]
          exact ⟨fun closed => (closed ⟨fun _ => by omega,fun _ same => (word same).elim⟩).elim,fun _ => rfl⟩
      · rw [if_pos magic,if_neg fun flac => magic ((isFlac_packet size).mp flac).1]
        exact ⟨fun closed => (closed ⟨fun same => (magic same).elim,fun same => (magic same).elim⟩).elim,fun _ => rfl⟩
    · refine ⟨fun _ => initial_unread info size found (by simp),fun opens => ?_⟩
      obtain ⟨p,same,_⟩ := opens size
      cases same
  · refine ⟨fun closed => (closed fun same => (size same).elim).elim,fun _ => ?_⟩
    have other : isFlac first (lib.opening first).2 = false := by
      rcases (lib.opening first).2 with _ | ⟨p⟩ | _ <;> simp [isFlac,size]
    rw [other]
    exact initial_other info size

-- Every read is inside of a packet that was delivered, and every page comes where it belongs.
def Handled (lib : Libogg σ) (budget : σ → Nat) (attached : List (List UInt8))
    (version : Option (List UInt8)) (first : Page)
    (pages : List Page) : Prop :=
  ∃ r, play lib budget attached version first pages = .ok r ∧ r.isSome = isFlac first (lib.opening first).2 ∧
    ∀ s, r = some s → Sorted (attached++[first.bytes]) pages (lib.delivered budget first pages) s

-- What libogg has to deliver for that.
def Clear (lib : Libogg σ) (budget : σ → Nat) (first : Page) (pages : List Page) : Prop :=
  Opens first (lib.opening first).2 ∧
    (isFlac first (lib.opening first).2 = true → ∀ seen ∈ examined (lib.delivered budget first pages), Fine seen)

theorem play_clear (drains : lib.Drains pending) (enough : ∀ os, pending os < budget os) (attached : List (List UInt8))
    (version : Option (List UInt8)) (clear : Clear lib budget first pages) :
    Handled lib budget attached version first pages := by
  obtain ⟨opens,all⟩ := clear
  have initial := (initial_spec lib ⟨false,attached,version⟩ first).2 opens
  unfold Handled play
  cases flac : isFlac first (lib.opening first).2 with
  | false =>
    rw [flac,if_neg (by decide)] at initial
    rw [initial]
    exact ⟨none,rfl,rfl,fun s same => nomatch same⟩
  | true =>
    rw [if_pos flac] at initial
    obtain ⟨major,initial⟩ := initial
    obtain ⟨t,ran,sorted⟩ := (feed_headers
      (s := ⟨⟨false,attached++[first.bytes],some major⟩,⟨(lib.opening first).1,true⟩,[]⟩)
      drains enough rfl rfl rfl pages).1 (all flac)
    rw [initial]
    refine ⟨some t,congrArg (Except.map some) ran,rfl,fun s same => ?_⟩
    cases same
    exact sorted

theorem play_outside (drains : lib.Drains pending) (enough : ∀ os, pending os < budget os)
    (attached : List (List UInt8))
    (version : Option (List UInt8)) (bad : ¬Clear lib budget first pages) :
    play lib budget attached version first pages = .error .outside := by
  obtain ⟨closed,opened⟩ := initial_spec lib ⟨false,attached,version⟩ first
  unfold play
  by_cases opens : Opens first (lib.opening first).2
  · have initial := opened opens
    have flac : isFlac first (lib.opening first).2 = true := by
      by_contra other
      exact bad ⟨opens,fun flac => (other flac).elim⟩
    rw [if_pos flac] at initial
    obtain ⟨major,initial⟩ := initial
    have ran := (feed_headers (s := ⟨⟨false,attached++[first.bytes],some major⟩,⟨(lib.opening first).1,true⟩,[]⟩)
      drains enough rfl rfl rfl pages).2 fun all => bad ⟨opens,fun _ => all⟩
    rw [initial]
    exact congrArg (Except.map some) ran
  · rw [closed opens]
    rfl

theorem not_handled (ran : play lib budget attached version first pages = .error fault) :
    ¬Handled lib budget attached version first pages := by
  rintro ⟨r,same,_⟩
  rw [ran] at same
  cases same

-- The loops end, and the pages are handled if and only if libogg delivers what is read.
theorem flac_pages (drains : lib.Drains pending) (enough : ∀ os, pending os < budget os) (attached : List (List UInt8))
    (version : Option (List UInt8)) (first : Page) (pages : List Page) :
    play lib budget attached version first pages ≠ .error .unfinished ∧
      (Handled lib budget attached version first pages ↔ Clear lib budget first pages) := by
  by_cases clear : Clear lib budget first pages
  · have handled := play_clear drains enough attached version clear
    have ⟨r,ran,_⟩ := handled
    rw [ran]
    exact ⟨nofun,iff_of_true handled clear⟩
  · have ran := play_outside drains enough attached version clear
    refine ⟨?_,iff_of_false (not_handled ran) clear⟩
    rw [ran]
    exact nofun

end Streams

section Framing

-- What a libogg holds of a stream: the number of the next page, a packet that goes on in it, and
-- what is ready for packetout.
structure OggStream where
  serialno : Nat
  pageno : Nat
  part : Option (List UInt8)
  ready : List Delivery

def le32 (header : List UInt8) (offset : Nat) : Nat := ((header.drop offset).take 4).foldr (fun b n => b.toNat+256*n) 0

-- The packets of a body by its lacing values, and what the last of them leaves for the next page.
def lace : Option (List UInt8) → List UInt8 → List UInt8 → List Delivery × Option (List UInt8)
  | part,[],_ => ([],part)
  | part,size::lacing,body =>
    let packet := part.getD []++body.take size.toNat
    if size = 255 then lace (some packet) lacing (body.drop 255)
    else (.packet packet::(lace none lacing (body.drop size.toNat)).1,(lace none lacing (body.drop size.toNat)).2)

-- A libogg for pages that begin with a packet of their own or with the rest of the last page's.
def framing : Libogg OggStream where
  serialno page := le32 page.header 14
  streamInit serialno := ⟨serialno,0,none,[]⟩
  pagein os page :=
    if le32 page.header 14 ≠ os.serialno then (os,-1) else
    let pageno := le32 page.header 18
    let os := if pageno = os.pageno then os else {os with part := none,ready := os.ready++[.hole]}
    let (packets,part) := lace os.part (page.header.drop 27) page.body
    ({os with pageno := pageno+1,part := part,ready := os.ready++packets},0)
  packetout os :=
    match os.ready with
    | [] => (os,none)
    | d::rest => ({os with ready := rest},some d)

theorem framing_drains : framing.Drains (·.ready.length) := by
  intro os positive
  rcases ready : os.ready with _ | ⟨d,rest⟩
  · simp [framing,ready] at positive
  · simp [framing,ready]

-- A page of packets of less than 255 bytes each.
def pageOf (pageno : UInt8) (packets : List (List UInt8)) : Page :=
  ⟨ascii "OggS"++List.replicate 10 0++[7,0,0,0]++[pageno,0,0,0]++List.replicate 4 0++
    UInt8.ofNat packets.length::packets.map fun packet => UInt8.ofNat packet.length,packets.flatten⟩

def firstPage : Page := pageOf 0 [0x7F::ascii "FLAC"++[1,0,0,1]++ascii "fLaC"++[0,0,0,34]++List.replicate 34 0]

-- Two header packets, then the data on two more pages.
def headerPage : Page := pageOf 1 [[0x04,0,0,1,9],[0x81,0,0,0]]

def dataPages : List Page := [pageOf 2 [[0xFF,0xF8,1],[0xFF,0xF8,2]],pageOf 4 [[],[0]]]

theorem flac_pages_stream : Handled framing (·.ready.length+1) [] none firstPage (headerPage::dataPages) := by
  refine (flac_pages framing_drains (fun _ => Nat.lt_succ_self _) [] none firstPage
    (headerPage::dataPages)).2.mpr ⟨fun _ => ?_,fun _ => ?_⟩
  · exact ⟨_,rfl,by decide,fun _ => by decide,fun _ => by decide⟩
  · decide +kernel

-- A page number is missing, a packet has no bytes, or the first page is not the first of its stream.
theorem packet_unread : framing.Drains (·.ready.length) ∧
    ¬Handled framing (·.ready.length+1) [] none firstPage [pageOf 2 [[0x84,0,0,0]]] ∧
    ¬Handled framing (·.ready.length+1) [] none firstPage [pageOf 1 [[]]] ∧
    ¬Handled framing (·.ready.length+1) [] none (pageOf 1 [firstPage.body]) [] :=
  ⟨framing_drains,not_handled rfl,not_handled rfl,not_handled rfl⟩

end Framing

end Icecast.FlacPages
