import Icecast.Lib.Bytes
import Icecast.Lib.Transition

namespace Icecast.Ebml
open Bytes Transition

def slice : Nat := 4096
def headerMax : Nat := 131072

def clusterId : List UInt8 := [0x1F,0x43,0xB6,0x75]

-- struct ebml_st; the read that input_buffer holds is passed to ebml_wrote.
structure Parser where
  clusterStart : Int
  position : Nat
  buffer : List UInt8
  headerRead : Bool
  headerSize : Nat
  headerPosition : Nat
  headerReadPosition : Nat
  header : List UInt8

-- ebml_create
def create : Parser := ⟨-2,0,List.replicate (slice*4) 0,false,0,0,0,List.replicate headerMax 0⟩

def ebmlReadSpace (e : Parser) : Int :=
  if e.headerRead then if e.clusterStart > 0 then e.clusterStart else e.position-4
  else e.headerSize

-- The bytes that are copied out; none is an access outside a buffer.
def ebmlRead (e : Parser) (len : Int) : Option (List UInt8 × Parser) :=
  if len < 1 then some ([],e)
  else if e.headerRead then
    if ebmlReadSpace e < 1 then some ([],e)
    else
      let toRead := (min (ebmlReadSpace e) len).toNat
      (Bytes.slice e.buffer 0 toRead).bind fun data => (memmove e.buffer 0 toRead (e.position-toRead)).map fun buffer =>
        (data,{e with buffer := buffer,position := e.position-toRead,
                      clusterStart := if e.clusterStart > 0 then e.clusterStart-toRead else e.clusterStart})
  else if e.headerSize ≠ 0 then
    let toRead := (min ((e.headerSize : Int)-e.headerReadPosition) len).toNat
    (Bytes.slice e.header 0 toRead).map fun data =>
      (data,{e with headerReadPosition := e.headerReadPosition+toRead,
                    headerRead := e.headerReadPosition+toRead = e.headerSize})
  else some ([],e)

def ebmlLastWasSync (e : Parser) : Bool × Parser :=
  if e.clusterStart = 0 then (false,{e with clusterStart := -1})
  else if e.clusterStart = -1 then (true,{e with clusterStart := -2})
  else (false,e)

def idAt (bytes : List UInt8) (b : Nat) : Bool := (bytes.drop b).take 4 = clusterId

-- The offsets that the loop of ebml_wrote compares.
def offsets (input : List UInt8) : List Nat := List.range (input.length-4)

-- ebml_wrote, with its result; the loop stops at the first cluster while there is no header, else
-- the last one stays.
def ebmlWrote (e : Parser) (input : List UInt8) : Option (Parser × Int) :=
  if e.headerSize = 0 then
    if e.headerPosition+input.length > headerMax then some (e,-1)
    else (memcpy e.header e.headerPosition input).bind fun header =>
      let e := {e with header := header,headerPosition := e.headerPosition+input.length}
      match (offsets input).find? (idAt input) with
      | some b => (memcpy e.buffer 0 (input.drop b)).map fun buffer =>
        ({e with headerSize := e.headerPosition-input.length+b,buffer := buffer,position := input.length-b,clusterStart := -1},input.length)
      | none => some ({e with position := e.position+input.length},input.length)
  else (memcpy e.buffer e.position input).map fun buffer =>
    ({e with buffer := buffer,position := e.position+input.length,
             clusterStart := (offsets input).foldl
               (fun start b => if idAt input b then ((e.position+b : Nat) : Int) else start) e.clusterStart}
    ,input.length)

structure Refbuf where
  data : List UInt8
  sync : Bool
deriving DecidableEq

-- The source: its parser, ebml_source_state->header, what ebml_get_buffer returned, and what came.
structure Source where
  ebml : Parser
  header : Option (List UInt8)
  refbufs : List Refbuf
  received : List UInt8
  running : Bool

def start : Source := ⟨create,none,[],[],true⟩

-- One round of ebml_get_buffer: bytes are taken out of the parser, or read into it.
inductive Event where
  | take
  | read (input : List UInt8)
deriving DecidableEq

def next (s : Source) : Event → Option Source
  | .take => (ebmlRead s.ebml (ebmlReadSpace s.ebml)).map fun r =>
    match s.header with
    | none => {s with ebml := r.2,header := some r.1}
    | some _ => {s with ebml := (ebmlLastWasSync r.2).2,refbufs := s.refbufs++[⟨r.1,(ebmlLastWasSync r.2).1⟩]}
  | .read input => (ebmlWrote s.ebml input).map fun r =>
    if r.2 = (input.length : Int) then {s with ebml := r.1,received := s.received++input} else
      {s with ebml := r.1,running := false}

-- What ebml_get_buffer does next, for reads of a stream whose header fits.
def Enabled (s : Source) : Event → Prop
  | .take => 0 < ebmlReadSpace s.ebml
  | .read input => ebmlReadSpace s.ebml ≤ 0 ∧
    input.length ≤ slice ∧ (s.ebml.headerSize = 0 → s.ebml.headerPosition+input.length ≤ headerMax)

instance decideEnabled (s : Source) : (event : Event) → Decidable (Enabled s event)
  | .take => inferInstanceAs (Decidable (0 < ebmlReadSpace s.ebml))
  | .read input => inferInstanceAs
    (Decidable (ebmlReadSpace s.ebml ≤ 0 ∧
      input.length ≤ slice ∧ (s.ebml.headerSize = 0 → s.ebml.headerPosition+input.length ≤ headerMax)))

def Step (s : Source) (event : Event) (t : Source) : Prop := Enabled s event ∧ next s event = some t

def reads : List Event → List (List UInt8)
  | [] => []
  | .take::events => reads events
  | .read input::events => input::reads events

-- The stream header: what was taken as such, or what waits for it.
def storedHeader (s : Source) : List UInt8 := s.header.getD (s.ebml.header.take s.ebml.headerSize)

-- The bytes in the parser's buffer, or in its header buffer as long as no header is complete.
def held (e : Parser) : List UInt8 :=
  if e.headerSize = 0 then e.header.take e.headerPosition else e.buffer.take e.position

def handed (refbufs : List Refbuf) : List UInt8 := (refbufs.map (·.data)).flatten

def Accounted (s : Source) : Prop := storedHeader s++handed s.refbufs++held s.ebml = s.received

-- Where the refbufs marked sync_point start, for a first refbuf that starts at `offset`.
def syncs (offset : Nat) : List Refbuf → List Nat
  | [] => []
  | r::rest => (if r.sync then [offset] else [])++syncs (offset+r.data.length) rest

def SyncPoints (s : Source) : Prop := ∀ p ∈ syncs (storedHeader s).length s.refbufs, idAt s.received p

-- A header-phase read that finds no cluster keeps the count of bytes within the buffer's size.
def Fair (s : Source) : Event → Prop
  | .take => True
  | .read input => s.ebml.headerSize = 0 → (∀ b < input.length-4, idAt input b = false) →
    s.received.length+input.length ≤ slice*4

instance decideFair (s : Source) : (event : Event) → Decidable (Fair s event)
  | .take => isTrue trivial
  | .read input => inferInstanceAs
    (Decidable (s.ebml.headerSize = 0 → (∀ b < input.length-4, idAt input b = false) →
      s.received.length+input.length ≤ slice*4))

-- A cluster that was found and whose refbuf has not been started.
def pending (s : Source) : List Nat :=
  if s.ebml.headerSize = 0 then []
  else if s.ebml.clusterStart > 0 then [s.received.length-s.ebml.position+s.ebml.clusterStart.toNat]
  else if s.ebml.clusterStart = -1 then [s.received.length-s.ebml.position]
  else []

-- How much there is still to take out.
def left (s : Source) : Nat := s.ebml.position+s.header.isNone.toNat

def marks (s : Source) : List Nat := syncs (storedHeader s).length s.refbufs++pending s

-- No header is complete.
structure Gathering (s : Source) : Prop where
  size : s.ebml.headerSize = 0
  notRead : s.ebml.headerRead = false
  readPosition : s.ebml.headerReadPosition = 0
  noHeader : s.header = none
  noRefbufs : s.refbufs = []
  bytes : s.ebml.header.take s.ebml.headerPosition = s.received
  count : s.ebml.headerPosition = s.received.length
  position : s.ebml.position = s.received.length

-- A header is complete and not yet taken.
structure Complete (s : Source) : Prop where
  size : 0 < s.ebml.headerSize ∧ s.ebml.headerSize ≤ headerMax
  notRead : s.ebml.headerRead = false
  readPosition : s.ebml.headerReadPosition = 0
  noHeader : s.header = none
  noRefbufs : s.refbufs = []
  bytes : s.ebml.header.take s.ebml.headerSize++s.ebml.buffer.take s.ebml.position = s.received
  position : 5 ≤ s.ebml.position ∧ s.ebml.position ≤ slice
  cluster : s.ebml.clusterStart = -1

-- The header is taken, and a cluster that was found has at least one byte behind its id.
structure Handing (s : Source) : Prop where
  size : 0 < s.ebml.headerSize
  read : s.ebml.headerRead = true
  bytes : ∃ h, s.header = some h ∧ h.length = s.ebml.headerSize ∧
    h++handed s.refbufs++s.ebml.buffer.take s.ebml.position = s.received
  position : 4 ≤ s.ebml.position ∧ s.ebml.position ≤ slice+4
  cluster : s.ebml.clusterStart = -2 ∨ s.ebml.clusterStart = -1 ∧ 5 ≤ s.ebml.position ∨
    0 < s.ebml.clusterStart ∧ s.ebml.clusterStart+5 ≤ s.ebml.position

structure Inv (s : Source) : Prop where
  buffer : s.ebml.buffer.length = slice*4
  header : s.ebml.header.length = headerMax
  phase : Gathering s ∨ Complete s ∨ Handing s

theorem syncs_append : syncs offset (front++[r]) = syncs offset front++if r.sync then
    [offset+(handed front).length] else [] := by
  induction front generalizing offset with
  | nil => simp [syncs,handed]
  | cons x front ih =>
    rw [List.cons_append,syncs,syncs,ih,List.append_assoc,handed,handed,List.map_cons,List.flatten_cons,
      List.length_append,Nat.add_assoc]

theorem handed_append : handed (front++[r]) = handed front++r.data := by simp [handed]

theorem idAt_append (found : idAt bytes p = true) : idAt (bytes++more) p = true := by
  simp only [idAt,decide_eq_true_eq] at found ⊢
  have four : 4 ≤ (bytes.drop p).length := by
    have length := congrArg List.length found
    rw [List.length_take] at length
    have four_long : clusterId.length = 4 := rfl
    omega
  rw [List.drop_append_of_le_length (by rw [List.length_drop] at four; omega),List.take_append_of_le_length four]
  exact found

theorem start_inv : Inv start where
  buffer := List.length_replicate
  header := List.length_replicate
  phase := .inl ⟨rfl,rfl,rfl,rfl,rfl,rfl,rfl,rfl⟩

theorem read_data {e : Parser} {k : Nat} (read : e.headerRead = true) (buffer : e.buffer.length = slice*4)
    (filled : 0 < k) (space : ebmlReadSpace e = (k : Int))
    (less : k ≤ e.position) (fits : e.position ≤ slice*4) :
    ∃ rest, ebmlRead e (ebmlReadSpace e) = some (e.buffer.take k,
      {e with buffer := rest,position := e.position-k,clusterStart :=
      if e.clusterStart > 0 then e.clusterStart-k else e.clusterStart}) ∧
      rest.length = slice*4 ∧ e.buffer.take e.position = e.buffer.take k++rest.take (e.position-k) := by
  have width : k+(e.position-k) = e.position := by omega
  have cut : Bytes.slice e.buffer 0 k = some (e.buffer.take k) := by
    rw [slice_eq (by omega),List.drop_zero]
  obtain ⟨rest,moved⟩ : ∃ rest, memmove e.buffer 0 k (e.position-k) = some rest := memmove_total (by omega) (by omega)
  obtain ⟨length,kept⟩ := memmove_spec moved
  refine ⟨rest,?_,length.trans buffer,?_⟩
  · rw [ebmlRead,if_neg (by omega),if_pos read,if_neg (by omega)]
    simp only [space,Int.min_self,Int.toNat_natCast,cut,moved,Option.bind_some,Option.map_some]
  · rw [Nat.zero_add,List.take_zero,List.nil_append] at kept
    rw [kept,←List.take_add,width]

theorem Handing.inv {t : Source} (handing : Handing t) (buffer : t.ebml.buffer.length = slice*4)
    (header : t.ebml.header.length = headerMax) : Inv t :=
  ⟨buffer,header,.inr (.inr handing)⟩

theorem take_complete (inv : Inv s) (complete : Complete s) :
    ∃ t, next s .take = some t ∧ Inv t ∧ t.received = s.received ∧ marks t = marks s ∧
    t.ebml.headerSize = s.ebml.headerSize ∧
      left t < left s := by
  obtain ⟨filled,small⟩ := complete.size
  obtain ⟨five,short⟩ := complete.position
  have cut : Bytes.slice s.ebml.header 0 s.ebml.headerSize = some (s.ebml.header.take s.ebml.headerSize) := by
    rw [slice_eq (by rw [inv.header]; omega),List.drop_zero]
  have space : ebmlReadSpace s.ebml = s.ebml.headerSize := by rw [ebmlReadSpace,complete.notRead]; rfl
  have ran : ebmlRead s.ebml (ebmlReadSpace s.ebml) = some (s.ebml.header.take s.ebml.headerSize,
      {s.ebml with headerReadPosition := s.ebml.headerSize,headerRead := true}) := by
    rw [space,ebmlRead,if_neg (by omega),complete.notRead,if_neg Bool.false_ne_true,if_pos (by omega)]
    simp [complete.readPosition,cut]
  have length : (s.ebml.header.take s.ebml.headerSize).length = s.ebml.headerSize := by
    rw [List.length_take,inv.header]
    omega
  let t : Source := {s with ebml := {s.ebml with headerReadPosition := s.ebml.headerSize,headerRead := true},
                            header := some (s.ebml.header.take s.ebml.headerSize)}
  have handing : Handing t := by
    refine ⟨filled,rfl,⟨_,rfl,length,?_⟩,⟨Nat.le_of_succ_le five,Nat.le_add_right_of_le short⟩,
      .inr (.inl ⟨complete.cluster,five⟩)⟩
    dsimp only [t]
    rw [complete.noRefbufs]
    simpa [handed] using complete.bytes
  refine ⟨t,?_,handing.inv inv.buffer inv.header,rfl,?_,rfl,?_⟩
  · rw [next,ran,complete.noHeader,Option.map_some]
  · simp only [marks,storedHeader,complete.noHeader,Option.getD_none]
    rfl
  · simp [left,t,complete.noHeader]

def handOver (s : Source) (k : Nat) (rest : List UInt8) (cluster : Int) (sync : Bool) : Source :=
  {s with ebml := {s.ebml with buffer := rest,position := s.ebml.position-k,clusterStart := cluster},
          refbufs := s.refbufs++[⟨s.ebml.buffer.take k,sync⟩]}

theorem take_data (sync : Bool) (cluster : Int) (inv : Inv s) (handing : Handing s) {k : Nat} (filled : 0 < k)
    (space : ebmlReadSpace s.ebml = (k : Int)) (less : k+4 ≤ s.ebml.position)
    (last : ∀ e : Parser, e.clusterStart =
    (if s.ebml.clusterStart > 0 then s.ebml.clusterStart-k else s.ebml.clusterStart) →
      ebmlLastWasSync e = (sync,{e with clusterStart := cluster}))
    (now : cluster = -2 ∨ cluster = -1 ∧ 5 ≤ s.ebml.position-k)
    (marked : ∀ rest, (if sync then [(s.received.length-s.ebml.position)] else [])++pending
      (handOver s k rest cluster sync) = pending s) :
    ∃ t, next s .take = some t ∧ Inv t ∧ t.received = s.received ∧ marks t = marks s ∧
      t.ebml.headerSize = s.ebml.headerSize ∧
      left t < left s := by
  obtain ⟨h,header,length,bytes⟩ := handing.bytes
  obtain ⟨four,small⟩ := handing.position
  have wide : slice+4 ≤ slice*4 := by decide
  obtain ⟨rest,ran,width,cut⟩ := read_data handing.read inv.buffer filled space (by omega) (by omega)
  have total := congrArg List.length bytes
  rw [List.length_append,List.length_append,List.length_take,inv.buffer,Nat.min_eq_left (by omega)] at total
  have handing' : Handing (handOver s k rest cluster sync) := by
    refine ⟨handing.size,handing.read,⟨h,header,length,?_⟩,⟨?_,?_⟩,now.imp id .inl⟩
    · dsimp only [handOver]
      rw [handed_append,←bytes,cut]
      simp only [List.append_assoc]
    · dsimp only [handOver]
      omega
    · dsimp only [handOver]
      omega
  refine ⟨handOver s k rest cluster sync,?_,handing'.inv width inv.header,rfl,?_,rfl,?_⟩
  · have synced := last ⟨if s.ebml.clusterStart > 0 then s.ebml.clusterStart-k else s.ebml.clusterStart,
      s.ebml.position-k,rest,s.ebml.headerRead,
      s.ebml.headerSize,s.ebml.headerPosition,s.ebml.headerReadPosition,s.ebml.header⟩ rfl
    simp only [next,ran,Option.map_some,header,synced,handOver]
  · unfold marks
    rw [←marked rest]
    simp only [storedHeader,handOver,header,Option.getD_some,syncs_append,List.append_assoc]
    have offset : h.length+(handed s.refbufs).length = s.received.length-s.ebml.position := by omega
    rw [offset]
  · simp only [left,handOver]
    omega

theorem take_handing (inv : Inv s) (handing : Handing s) (space : 0 < ebmlReadSpace s.ebml) :
    ∃ t, next s .take = some t ∧ Inv t ∧ t.received = s.received ∧ marks t = marks s ∧
    t.ebml.headerSize = s.ebml.headerSize ∧
      left t < left s := by
  have size := handing.size
  have notZero : s.ebml.headerSize ≠ 0 := by omega
  obtain ⟨h,_,_,bytes⟩ := handing.bytes
  obtain ⟨four,small⟩ := handing.position
  have wide : slice+4 ≤ slice*4 := by decide
  have total := congrArg List.length bytes
  rw [List.length_append,List.length_append,List.length_take,inv.buffer,Nat.min_eq_left (by omega)] at total
  rcases handing.cluster with idle | ⟨pend,five⟩ | ⟨later,behind⟩
  · have value : ebmlReadSpace s.ebml = ((s.ebml.position-4 : Nat) : Int) := by
      simp only [ebmlReadSpace,handing.read,idle]
      simp
      omega
    refine take_data false (-2) inv handing (by omega) value (by omega) (fun e same => ?_) (.inl rfl) fun rest => ?_
    · rw [if_neg (by omega),idle] at same
      rw [ebmlLastWasSync,if_neg (by omega),if_neg (by omega),←same]
    · simp [pending,handOver,notZero,idle]
  · have value : ebmlReadSpace s.ebml = ((s.ebml.position-4 : Nat) : Int) := by
      simp only [ebmlReadSpace,handing.read,pend]
      simp
      omega
    refine take_data true (-2) inv handing (by omega) value (by omega) (fun e same => ?_) (.inl rfl) fun rest => ?_
    · rw [if_neg (by omega),pend] at same
      rw [ebmlLastWasSync,if_neg (by omega),if_pos same]
    · simp [pending,handOver,notZero,pend]
  · have value : ebmlReadSpace s.ebml = ((s.ebml.clusterStart.toNat : Nat) : Int) := by
      rw [ebmlReadSpace,if_pos handing.read,if_pos later]
      omega
    refine take_data false (-1) inv handing (by omega) value (by omega) (fun e same => ?_)
      (.inr ⟨rfl,by omega⟩) fun rest => ?_
    · rw [if_pos later] at same
      rw [ebmlLastWasSync,if_pos (by omega)]
    · simp [pending,handOver,notZero,later]
      omega

theorem take_spec (inv : Inv s) (space : 0 < ebmlReadSpace s.ebml) :
    ∃ t, next s .take = some t ∧ Inv t ∧ t.received = s.received ∧ marks t = marks s ∧
    t.ebml.headerSize = s.ebml.headerSize ∧
      left t < left s := by
  rcases inv.phase with gathering | complete | handing
  · rw [ebmlReadSpace,gathering.notRead,if_neg Bool.false_ne_true,gathering.size] at space
    exact absurd space (by decide)
  · exact take_complete inv complete
  · exact take_handing inv handing space

-- What a read of the bytes from `offset` on adds: the size of the header and the clusters found. A
-- cluster that starts the stream leaves the header without a size.
def scanRead (size offset : Nat) (input : List UInt8) : Nat × List Nat :=
  if size = 0 then
    match (offsets input).find? (idAt input) with
    | some b => if offset+b = 0 then (0,[]) else (offset+b,[offset+b])
    | none => (0,[])
  else (size,(((offsets input).filter (idAt input)).getLast?.map (offset+·)).toList)

theorem foldl_last (p : Nat → Bool) (f : Nat → Int) (xs : List Nat) (c : Int) :
    xs.foldl (fun last b => if p b then f b else last) c = ((xs.filter p).getLast?.map f).getD c := by
  induction xs generalizing c with
  | nil => rfl
  | cons x xs ih =>
    rw [List.foldl_cons,ih,List.filter_cons]
    split
    · cases found : (xs.filter p).getLast? <;> simp [List.getLast?_cons,found]
    · rfl

theorem offset_lt (within : b ∈ offsets input) : b+4 < input.length := by
  have less := List.mem_range.mp within
  omega

theorem Gathering.write (inv : Inv s) (gathering : Gathering s) (fits : s.received.length+input.length ≤ headerMax) :
    ∃ header, memcpy s.ebml.header s.ebml.headerPosition input = some header ∧ header.length = headerMax ∧
      header.take (s.ebml.headerPosition+input.length) = s.received++input := by
  obtain ⟨header,wrote⟩ : ∃ header, memcpy s.ebml.header s.ebml.headerPosition input = some header :=
    ⟨_,memcpy_eq (by rw [inv.header,gathering.count]; exact fits)⟩
  exact ⟨header,wrote,(length_memcpy wrote).trans inv.header,gathering.bytes ▸ take_memcpy wrote⟩

theorem Gathering.marks_nil (gathering : Gathering s) : marks s = [] := by
  simp [marks,gathering.noRefbufs,syncs,pending,gathering.size]

theorem Complete.marks_eq (complete : Complete s) : marks s = [s.received.length-s.ebml.position] := by
  have notZero : ¬s.ebml.headerSize = 0 := Nat.ne_of_gt complete.size.1
  have notLater : ¬s.ebml.clusterStart > 0 := by
    rw [complete.cluster]
    decide
  rw [marks,pending,if_neg notZero,if_neg notLater,if_pos complete.cluster]
  simp [complete.noRefbufs,syncs]

theorem read_gathering (inv : Inv s) (gathering : Gathering s) (small : input.length ≤ slice)
    (fits : s.received.length+input.length ≤ headerMax) :
    ∃ t, next s (.read input) = some t ∧ Inv t ∧ t.received = s.received++input ∧
      t.ebml.headerSize = (scanRead 0 s.received.length input).1 ∧
      marks t = marks s++(scanRead 0 s.received.length input).2 ∧
      (t.ebml.headerSize = 0 → t.ebml.position = s.received.length+input.length) := by
  obtain ⟨header,wrote,width,bytes⟩ := gathering.write inv fits
  have refused : ¬s.ebml.headerPosition+input.length > headerMax := by
    rw [gathering.count]
    omega
  rw [gathering.marks_nil,List.nil_append]
  cases found : (offsets input).find? (idAt input) with
  | none =>
    let t : Source := {s with ebml := {s.ebml with headerSize := 0,header := header,headerPosition :=
      s.ebml.headerPosition+input.length,
                                                   position := s.ebml.position+input.length},
                              received := s.received++input}
    have ran : next s (.read input) = some t := by
      simp only [next,ebmlWrote,gathering.size,if_true,if_neg refused,wrote,Option.bind_some,found,Option.map_some]
      rfl
    have kept : Gathering t := by
      refine ⟨rfl,gathering.notRead,gathering.readPosition,gathering.noHeader,gathering.noRefbufs,bytes,?_,?_⟩
      · simp only [t,gathering.count,List.length_append]
      · simp only [t,gathering.position,List.length_append]
    have scan : scanRead 0 s.received.length input = (0,[]) := by simp [scanRead,found]
    refine ⟨t,ran,⟨inv.buffer,width,.inl kept⟩,rfl,?_,?_,fun _ => ?_⟩
    · rw [scan]
    · rw [scan]
      exact kept.marks_nil
    · simp only [t,gathering.position]
  | some b =>
    have within := offset_lt (List.mem_of_find?_eq_some found)
    have long : (input.drop b).length = input.length-b := List.length_drop
    have wide : slice ≤ slice*4 := by decide
    obtain ⟨buffer,copied⟩ : ∃ buffer, memcpy s.ebml.buffer 0 (input.drop b) = some buffer :=
      ⟨_,memcpy_eq (by rw [inv.buffer,long]; omega)⟩
    have front := take_memcpy copied
    rw [Nat.zero_add,long,List.take_zero,List.nil_append] at front
    let t : Source := {s with ebml := {s.ebml with header := header,headerPosition :=
      s.ebml.headerPosition+input.length,
                                                   headerSize := s.ebml.headerPosition+input.length-input.length+b,buffer := buffer,
                                                   position := input.length-b,clusterStart := -1},
                              received := s.received++input}
    have ran : next s (.read input) = some t := by
      simp only [next,ebmlWrote,gathering.size,if_true,if_neg refused,wrote,Option.bind_some,found,
        copied,Option.map_some]
      rfl
    have size : t.ebml.headerSize = s.received.length+b := by
      simp only [t,gathering.count]
      omega
    have width' : t.ebml.buffer.length = slice*4 := (length_memcpy copied).trans inv.buffer
    by_cases first : s.received.length+b = 0
    · have scan : scanRead 0 s.received.length input = (0,[]) := by simp only [scanRead,found,first,if_true]
      have noBytes : s.received = [] := List.eq_nil_of_length_eq_zero (by omega)
      have kept : Gathering t := by
        refine ⟨size.trans first,gathering.notRead,gathering.readPosition,gathering.noHeader,
          gathering.noRefbufs,bytes,?_,?_⟩
        · simp only [t,gathering.count,List.length_append]
        · simp only [t,noBytes,List.nil_append]
          omega
      refine ⟨t,ran,⟨width',width,.inl kept⟩,rfl,?_,?_,fun _ => ?_⟩
      · rw [scan]
        exact size.trans first
      · rw [scan]
        exact kept.marks_nil
      · simp only [t]
        omega
    · have scan : scanRead 0 s.received.length input = (s.received.length+b,[s.received.length+b]) := by
        simp only [scanRead,found,first,if_true,if_false]
      have kept : Complete t := by
        refine ⟨⟨by omega,by omega⟩,gathering.notRead,gathering.readPosition,gathering.noHeader,
          gathering.noRefbufs,?_,?_,rfl⟩
        · rw [size]
          simp only [t]
          rw [front]
          have cut := congrArg (List.take (s.received.length+b)) bytes
          rw [List.take_take,Nat.min_eq_left (by rw [gathering.count]; omega),List.take_length_add_append] at cut
          rw [cut,List.append_assoc,List.take_append_drop]
        · simp only [t]
          omega
      refine ⟨t,ran,⟨width',width,.inr (.inl kept)⟩,rfl,?_,?_,fun absent => ?_⟩
      · rw [scan]
        exact size
      · have place : t.received.length-t.ebml.position = s.received.length+b := by
          simp only [t,List.length_append]
          omega
        rw [scan,kept.marks_eq,place]
      · omega

theorem read_handing (inv : Inv s) (handing : Handing s) (space : ebmlReadSpace s.ebml ≤ 0)
    (small : input.length ≤ slice) :
    ∃ t, next s (.read input) = some t ∧ Inv t ∧ t.received = s.received++input ∧ t.ebml.headerSize = s.ebml.headerSize ∧
      marks t = marks s++(scanRead s.ebml.headerSize s.received.length input).2 := by
  obtain ⟨h,stored,length,bytes⟩ := handing.bytes
  obtain ⟨four,_⟩ := handing.position
  have wide : slice+4 ≤ slice*4 := by decide
  have notZero : s.ebml.headerSize ≠ 0 := by
    have := handing.size
    omega
  have idle : s.ebml.clusterStart = -2 ∧ s.ebml.position = 4 := by
    rw [ebmlReadSpace,if_pos handing.read] at space
    split at space
    · omega
    · rcases handing.cluster with idle | ⟨_,five⟩ | ⟨later,_⟩ <;> omega
  obtain ⟨start,position⟩ := idle
  have total := congrArg List.length bytes
  rw [List.length_append,List.length_append,List.length_take,inv.buffer,Nat.min_eq_left (by omega)] at total
  obtain ⟨buffer,wrote⟩ : ∃ buffer, memcpy s.ebml.buffer s.ebml.position input = some buffer :=
    ⟨_,memcpy_eq (by rw [inv.buffer]; omega)⟩
  have front := take_memcpy wrote
  have width := (length_memcpy wrote).trans inv.buffer
  let last := ((offsets input).filter (idAt input)).getLast?
  let cluster := (last.map fun b => ((s.ebml.position+b : Nat) : Int)).getD (-2)
  let t : Source := {s with ebml := {s.ebml with buffer := buffer,position := s.ebml.position+input.length,clusterStart := cluster},
                            received := s.received++input}
  have ran : next s (.read input) = some t := by
    simp only [next,ebmlWrote,if_neg notZero,wrote,Option.map_some,foldl_last,start]
    rfl
  have scan : (scanRead s.ebml.headerSize s.received.length input).2 = (last.map (s.received.length+·)).toList := by
    rw [scanRead,if_neg notZero]
  have behind : ∀ b, last = some b → b+4 < input.length := fun b found =>
    offset_lt (List.mem_of_mem_filter (List.mem_of_getLast? found))
  have kept : Handing t := by
    refine ⟨handing.size,handing.read,⟨h,stored,length,?_⟩,⟨?_,?_⟩,?_⟩
    · simp only [t]
      rw [front,←bytes]
      simp only [List.append_assoc]
    · simp only [t]
      omega
    · simp only [t]
      omega
    · cases found : last with
      | none => exact .inl (by simp only [t,cluster,found]; rfl)
      | some b =>
        have less := behind b found
        have value : t.ebml.clusterStart = ((s.ebml.position+b : Nat) : Int) := by simp only [t,cluster,found]; rfl
        have longer : t.ebml.position = s.ebml.position+input.length := rfl
        exact .inr (.inr (by rw [value,longer]; omega))
  refine ⟨t,ran,kept.inv width inv.header,rfl,rfl,?_⟩
  have before : pending s = [] := by
    rw [pending,if_neg notZero,if_neg (by omega),if_neg (by omega)]
  have after : pending t = (last.map (s.received.length+·)).toList := by
    rw [pending,if_neg notZero]
    cases found : last with
    | none =>
      have value : t.ebml.clusterStart = -2 := by simp only [t,cluster,found]; rfl
      rw [if_neg (by omega),if_neg (by omega)]
      rfl
    | some b =>
      have less := behind b found
      have value : t.ebml.clusterStart = ((s.ebml.position+b : Nat) : Int) := by simp only [t,cluster,found]; rfl
      have longer : t.ebml.position = s.ebml.position+input.length := rfl
      have more : t.received.length = s.received.length+input.length := List.length_append
      rw [if_pos (by omega),value,Int.toNat_natCast,longer,more]
      simp
      omega
  have same : storedHeader t = storedHeader s := by simp only [storedHeader,t,stored,Option.getD_some]
  rw [marks,marks,before,after,scan,same,List.append_nil]

theorem read_spec (inv : Inv s) (enabled : Enabled s (.read input)) :
    ∃ t, next s (.read input) = some t ∧ Inv t ∧ t.received = s.received++input ∧
      t.ebml.headerSize = (scanRead s.ebml.headerSize s.received.length input).1 ∧
      marks t = marks s++(scanRead s.ebml.headerSize s.received.length input).2 := by
  obtain ⟨space,small,fits⟩ := enabled
  rcases inv.phase with gathering | complete | handing
  · have fits := fits gathering.size
    rw [gathering.count] at fits
    obtain ⟨t,ran,kept,received,size,marked,_⟩ := read_gathering inv gathering small fits
    rw [gathering.size]
    exact ⟨t,ran,kept,received,size,marked⟩
  · rw [ebmlReadSpace,complete.notRead,if_neg Bool.false_ne_true] at space
    have filled := complete.size
    omega
  · obtain ⟨t,ran,kept,received,size,marked⟩ := read_handing inv handing space small
    refine ⟨t,ran,kept,received,?_,marked⟩
    rw [size,scanRead,if_neg (by have := handing.size; omega)]

theorem idAt_after (input : List UInt8) (b : Nat) : idAt (bytes++input) (bytes.length+b) = idAt input b := by
  rw [idAt,idAt,List.drop_length_add_append]

theorem scanRead_found (found : p ∈ (scanRead size offset input).2) : ∃ b, b+4 < input.length ∧
    idAt input b = true ∧ p = offset+b := by
  unfold scanRead at found
  split at found
  · split at found
    · rename_i b first
      split at found
      · cases found
      · exact ⟨b,offset_lt (List.mem_of_find?_eq_some first),List.find?_some first,List.mem_singleton.mp found⟩
    · cases found
  · cases last : ((offsets input).filter (idAt input)).getLast? with
    | none =>
      rw [last] at found
      cases found
    | some b =>
      rw [last] at found
      have within := List.mem_of_getLast? last
      exact ⟨b,offset_lt (List.mem_of_mem_filter within),(List.mem_filter.mp within).2,List.mem_singleton.mp found⟩

structure Marked (s : Source) : Prop extends Inv s where
  found : ∀ p ∈ marks s, idAt s.received p = true

theorem step_marked (marked : Marked s) (step : Step s event t) : Marked t := by
  cases event with
  | take =>
    obtain ⟨t',ran,kept,received,same,_,_⟩ := take_spec marked.toInv step.1
    rw [step.2] at ran
    cases ran
    exact ⟨kept,by rw [received,same]; exact marked.found⟩
  | read input =>
    obtain ⟨t',ran,kept,received,_,more⟩ := read_spec marked.toInv step.1
    rw [step.2] at ran
    cases ran
    refine ⟨kept,fun p within => ?_⟩
    rw [more] at within
    rw [received]
    rcases List.mem_append.mp within with old | new
    · exact idAt_append (marked.found p old)
    · obtain ⟨b,_,here,same⟩ := scanRead_found new
      rw [same,idAt_after]
      exact here

theorem start_marked : Marked start := ⟨start_inv,by simp [marks,pending,start,create,syncs]⟩

theorem Inv.accounted (inv : Inv s) : Accounted s := by
  unfold Accounted storedHeader held
  rcases inv.phase with gathering | complete | handing
  · rw [gathering.noHeader,gathering.noRefbufs,gathering.size,if_pos rfl,gathering.bytes]
    rfl
  · rw [complete.noHeader,complete.noRefbufs,if_neg (by have := complete.size; omega),←complete.bytes]
    simp [handed]
  · obtain ⟨h,stored,_,bytes⟩ := handing.bytes
    rw [stored,if_neg (by have := handing.size; omega)]
    exact bytes

theorem Marked.syncPoints (marked : Marked s) : SyncPoints s :=
  fun p within => marked.found p (List.mem_append_left _ within)

theorem Inv.complete_position (inv : Inv s) (size : s.ebml.headerSize ≠ 0) : s.ebml.position ≤ slice*4 := by
  have wide : slice+4 ≤ slice*4 := by decide
  rcases inv.phase with gathering | complete | handing
  · exact absurd gathering.size size
  · exact Nat.le_trans complete.position.2 (by omega)
  · exact Nat.le_trans handing.position.2 wide

theorem Inv.gathering (inv : Inv s) (size : s.ebml.headerSize = 0) : Gathering s := by
  rcases inv.phase with gathering | complete | handing
  · exact gathering
  · have := complete.size
    omega
  · have := handing.size
    omega

theorem step_position (inv : Inv s) (step : Step s event t) : t.ebml.position ≤ slice*4 ↔ Fair s event := by
  cases event with
  | take =>
    obtain ⟨t',ran,kept,_,_,size,_⟩ := take_spec inv step.1
    rw [step.2] at ran
    cases ran
    refine ⟨fun _ => trivial,fun _ => kept.complete_position ?_⟩
    rw [size]
    intro zero
    have gathering := inv.gathering zero
    have space : 0 < ebmlReadSpace s.ebml := step.1
    rw [ebmlReadSpace,gathering.notRead,if_neg Bool.false_ne_true,zero] at space
    exact absurd space (by decide)
  | read input =>
    obtain ⟨t',ran,kept,received,size,_⟩ := read_spec inv step.1
    rw [step.2] at ran
    cases ran
    by_cases complete : t.ebml.headerSize = 0
    · have position := (kept.gathering complete).position
      rw [received,List.length_append] at position
      rw [position]
      refine ⟨fun less _ _ => less,fun fair => ?_⟩
      by_cases before : s.ebml.headerSize = 0
      · by_cases unseen : ∀ b < input.length-4, idAt input b = false
        · exact fair before unseen
        · rw [complete,scanRead,if_pos before] at size
          split at size
          · split at size
            · rename_i first
              have small := step.1.2.1
              have wide : slice ≤ slice*4 := by decide
              omega
            · dsimp only at size
              omega
          · rename_i absent
            refine absurd (fun b less => ?_) unseen
            exact eq_false_of_ne_true (List.find?_eq_none.mp absent b (List.mem_range.mpr less))
      · rw [scanRead,if_neg before] at size
        exact absurd (size.symm.trans complete) before
    · refine ⟨fun _ before unseen => ?_,fun _ => kept.complete_position complete⟩
      rw [scanRead,if_pos before] at size
      have absent : (offsets input).find? (idAt input) = none := by
        refine List.find?_eq_none.mpr fun b within => ?_
        rw [unseen b (List.mem_range.mp within)]
        exact Bool.false_ne_true
      rw [absent] at size
      exact absurd size complete

theorem reads_append (front back : List Event) : reads (front++back) = reads front++reads back := by
  induction front with
  | nil => rfl
  | cons event front ih => cases event <;> simp [reads,ih]

theorem step_received (step : Step s event t) (inv : Inv s) : t.received = s.received++(reads [event]).flatten := by
  cases event with
  | take =>
    obtain ⟨t',ran,_,received,_⟩ := take_spec inv step.1
    rw [step.2] at ran
    cases ran
    simp [received,reads]
  | read input =>
    obtain ⟨t',ran,_,received,_⟩ := read_spec inv step.1
    rw [step.2] at ran
    cases ran
    simp [received,reads]

theorem runs_marked (run : Runs Step start events s) : Marked s ∧ s.received = (reads events).flatten := by
  induction run with
  | nil => exact ⟨start_marked,rfl⟩
  | snoc _ last ih =>
    refine ⟨step_marked ih.1 last,?_⟩
    rw [reads_append,List.flatten_append,←ih.2]
    exact step_received last ih.1.toInv

-- All that may be handed out is.
def Drained (s : Source) : Prop := ebmlReadSpace s.ebml ≤ 0

theorem Drained.idle (drained : Drained s) (inv : Inv s) : Gathering s ∨ Handing s ∧ s.ebml.clusterStart = -2 := by
  unfold Drained ebmlReadSpace at drained
  rcases inv.phase with gathering | complete | handing
  · exact .inl gathering
  · rw [complete.notRead,if_neg Bool.false_ne_true] at drained
    have filled := complete.size
    omega
  · rw [if_pos handing.read] at drained
    refine .inr ⟨handing,?_⟩
    split at drained
    · omega
    · rcases handing.cluster with idle | ⟨_,five⟩ | ⟨later,_⟩ <;> omega

-- A source that has handed out what it could.
structure Emptied (s t : Source) : Prop where
  inv : Inv t
  drained : Drained t
  received : t.received = s.received
  size : t.ebml.headerSize = s.ebml.headerSize
  marked : marks t = marks s

theorem drains (inv : Inv s) : ∃ n t,
    Runs (fun s event t => Step s event t ∧ Fair s event) s (List.replicate n .take) t ∧ Emptied s t := by
  induction size : left s using Nat.strongRecOn generalizing s with
  | ind n ih =>
    by_cases space : 0 < ebmlReadSpace s.ebml
    · obtain ⟨t,ran,kept,received,marked,complete,less⟩ := take_spec inv space
      obtain ⟨m,u,run,emptied⟩ := ih (left t) (size ▸ less) kept rfl
      exact ⟨m+1,u,.cons ⟨⟨space,ran⟩,trivial⟩ run,emptied.inv,emptied.drained,emptied.received.trans received,
        emptied.size.trans complete,emptied.marked.trans marked⟩
    · exact ⟨0,s,.nil,inv,Int.not_lt.mp space,rfl,rfl,rfl⟩

theorem reads_takes (n : Nat) : reads (List.replicate n .take) = [] := by
  induction n with
  | zero => rfl
  | succ n ih => exact ih

-- No byte is lost or repeated, no call goes outside a buffer, and each sync point is a cluster;
-- the position is within the data buffer up to the first header read beyond its size.
theorem runs_ebml (run : Runs Step start events s) :
    Accounted s ∧ s.received = (reads events).flatten ∧
    SyncPoints s ∧ (∀ event, Enabled s event → ∃ t, next s event = some t) ∧
      (Runs (fun s event t => Step s event t ∧ Fair s event) start events s → s.ebml.position ≤ slice*4) ∧
      ∀ event t, Step s event t → (t.ebml.position ≤ slice*4 ↔ Fair s event) := by
  obtain ⟨marked,received⟩ := runs_marked run
  refine ⟨marked.accounted,received,marked.syncPoints,fun event enabled => ?_,fun fair => ?_,fun _ _ step =>
    step_position marked.toInv step⟩
  · cases event with
    | take =>
      obtain ⟨t,ran,_⟩ := take_spec marked.toInv enabled
      exact ⟨t,ran⟩
    | read input =>
      obtain ⟨t,ran,_⟩ := read_spec marked.toInv enabled
      exact ⟨t,ran⟩
  · cases fair with
    | nil => exact Nat.zero_le _
    | snoc earlier last => exact
      (step_position (runs_marked (earlier.imp fun step => step.1)).1.toInv last.1).mpr last.2

-- A stream header, and the start of a cluster.
def opening : List UInt8 := [0x1A,0x45,0xDF,0xA3,0x1F,0x43,0xB6,0x75,0x01,0x00]

-- The end of that cluster, and the start of another.
def more : List UInt8 := [0x01,0x1F,0x43,0xB6,0x75,0x02]

theorem runs_ebml_opening : ∃ n m s,
    Runs Step start ([.read opening]++List.replicate n .take++[.read more]++List.replicate m .take) s ∧
    marks s = [4,11] ∧ 8 ≤ (handed s.refbufs).length ∧ Accounted s ∧ s.received = opening++more ∧ SyncPoints s ∧
    s.ebml.position ≤ slice*4 := by
  have enabled : Enabled start (.read opening) := by decide
  obtain ⟨s,ran,inv,received,size,marked⟩ := read_spec start_inv enabled
  obtain ⟨n,t,takes,emptied⟩ := drains inv
  have four : t.ebml.headerSize = 4 := emptied.size.trans size
  have full : t.ebml.headerSize ≠ 0 := by omega
  have enabled' : Enabled t (.read more) := ⟨emptied.drained,by decide,fun zero => absurd zero full⟩
  obtain ⟨u,ran',inv',received',size',marked'⟩ := read_spec emptied.inv enabled'
  obtain ⟨m,v,takes',emptied'⟩ := drains inv'
  have one : Runs (fun s event t => Step s event t ∧ Fair s event) start [.read opening] s :=
    .snoc .nil ⟨⟨enabled,ran⟩,by decide⟩
  have fair := ((one.append takes).snoc ⟨⟨enabled',ran'⟩,fun zero => absurd zero full⟩).append takes'
  have run := fair.imp fun step => step.1
  obtain ⟨accounted,_,sync,_,position,_⟩ := runs_ebml run
  have came : v.received = opening++more := by
    rw [emptied'.received,received',emptied.received,received]
    rfl
  have size' : v.ebml.headerSize = 4 := by
    rw [emptied'.size,size',four]
    rfl
  refine ⟨n,m,v,run,?_,?_,accounted,came,sync,position fair⟩
  · rw [emptied'.marked,marked',four,emptied.received,emptied.marked,marked,received]
    rfl
  · rcases emptied'.drained.idle emptied'.inv with gathering | ⟨handing,idle⟩
    · exact absurd (size'.symm.trans gathering.size) (by decide)
    · obtain ⟨h,_,length,bytes⟩ := handing.bytes
      have count := congrArg List.length bytes
      have space := emptied'.drained
      rw [Drained,ebmlReadSpace,if_pos handing.read,if_neg (by omega)] at space
      rw [came,List.length_append,List.length_append,List.length_take,length,size'] at count
      have sixteen : (opening++more).length = 16 := rfl
      omega

def zeros : List UInt8 := List.replicate slice 0

theorem idAt_zeros (n b : Nat) : idAt (List.replicate n 0) b = false := by
  refine decide_eq_false fun same => ?_
  rw [List.drop_replicate,List.take_replicate] at same
  have member : (0x1F : UInt8) ∈ List.replicate (min 4 (n-b)) (0 : UInt8) := by
    rw [same]
    exact List.mem_cons_self
  exact absurd (List.eq_of_mem_replicate member) (by decide)

theorem gathering_enabled (inv : Inv s) (size : s.ebml.headerSize = 0) (small : input.length ≤ slice)
    (fits : s.received.length+input.length ≤ headerMax) : Enabled s (.read input) := by
  have gathering := inv.gathering size
  refine ⟨?_,small,fun _ => by rwa [gathering.count]⟩
  rw [ebmlReadSpace,gathering.notRead,if_neg Bool.false_ne_true,size]
  exact Int.le_refl 0

theorem gather_zeros (fits : k*slice ≤ headerMax) :
    ∃ s, Runs Step start (List.replicate k (.read zeros)) s ∧ s.ebml.headerSize = 0 ∧ s.received.length = k*slice := by
  induction k with
  | zero => exact ⟨start,.nil,rfl,rfl⟩
  | succ k ih =>
    obtain ⟨s,run,size,count⟩ := ih (by rw [Nat.succ_mul] at fits; omega)
    have inv := (runs_marked run).1.toInv
    have length : zeros.length = slice := List.length_replicate
    have enabled : Enabled s (.read zeros) :=
      gathering_enabled inv size (Nat.le_of_eq length) (by rwa [count,length,←Nat.succ_mul])
    obtain ⟨t,ran,_,received,size',_⟩ := read_spec inv enabled
    refine ⟨t,?_,?_,?_⟩
    · rw [List.replicate_succ']
      exact .snoc run ⟨enabled,ran⟩
    · have absent : (offsets zeros).find? (idAt zeros) = none :=
        List.find?_eq_none.mpr fun b _ => by rw [zeros,idAt_zeros]; exact Bool.false_ne_true
      rw [size',size,scanRead,if_pos rfl,absent]
    · rw [received,List.length_append,count,length,Nat.succ_mul]

-- Five reads of a header that fits the header buffer.
theorem position_beyond : ∃ s, Runs Step start (List.replicate 5 (.read zeros)) s ∧ s.ebml.position = 20480 ∧
    slice*4 < s.ebml.position := by
  obtain ⟨s,run,size,count⟩ := gather_zeros (k := 5) (by decide)
  have position : s.ebml.position = 20480 := ((runs_marked run).1.toInv.gathering size).position.trans count
  exact ⟨s,run,position,by rw [position]; decide⟩

end Icecast.Ebml
