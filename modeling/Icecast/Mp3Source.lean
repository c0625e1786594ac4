import Mathlib.Data.List.Induction
import Icecast.Mp3Demux

namespace Icecast.Mp3
open Bytes IcyFormat

-- One full read of 1400 bytes, with the block that mp3_set_title put in before it.
structure Segment where
  title : Option (List UInt8)
  bytes : List UInt8
deriving DecidableEq,Repr

-- What a reader of the stream makes of one segment: its place in the format and the
-- current metadata. none is a changed block in another format.
def absorb (n : Nat) (spot : Scan × List UInt8) (segment : Segment) : Option (Scan × List UInt8) :=
  let read := scan n spot.1 segment.bytes
  (adoptAll (segment.title.getD spot.2) (blocksOf read.2)).map fun metadata => (read.1,metadata)

def absorbAll (n : Nat) (segments : List Segment) : Option (Scan × List UInt8) :=
  segments.foldlM (absorb n) (start,blankMetadata)

theorem absorbAll_snoc {segment : Segment} : absorbAll n (segments++[segment]) = (absorbAll n segments).bind
    (absorb n · segment) := by
  simp only [absorbAll,List.foldlM_append,List.foldlM_cons,List.foldlM_nil,bind_pure]
  rfl

theorem absorbAll_scan (segments : List Segment) (absorbed : absorbAll n segments = some (pos,metadata)) :
    pos = (scan n start (segments.flatMap (·.bytes))).1 := by
  induction segments using List.reverseRecOn generalizing pos metadata with
  | nil => exact (congrArg Prod.fst (Option.some.inj absorbed)).symm
  | append_singleton earlier segment ih =>
    rw [absorbAll_snoc] at absorbed
    obtain ⟨⟨before,current⟩,first,one⟩ := Option.bind_eq_some_iff.mp absorbed
    obtain ⟨_,_,same⟩ := Option.map_eq_some_iff.mp one
    cases same
    rw [List.flatMap_append,scan_append,←ih first]
    simp

theorem absorbAll_untitled (segments : List Segment) (untitled : ∀ segment ∈ segments, segment.title = none) :
    (absorbAll n segments).map (·.2) = adoptAll blankMetadata (blocks n (segments.flatMap (·.bytes))) := by
  induction segments using List.reverseRecOn with
  | nil =>
    rw [List.flatMap_nil,←scan_blocks]
    rfl
  | append_singleton earlier segment ih =>
    have before := ih fun segment member => untitled segment (List.mem_append_left _ member)
    rw [←scan_blocks] at before ⊢
    rw [absorbAll_snoc,List.flatMap_append,scan_append,blocksOf_append,adoptAll_append,←before]
    cases absorbed : absorbAll n earlier with
    | none => rfl
    | some found =>
      have pos := absorbAll_scan earlier (show absorbAll n earlier = some (found.1,found.2) from absorbed)
      have plain := untitled segment (by simp)
      simp only [Option.bind_some,Option.map_some,absorb,plain,Option.getD_none,pos,
        List.flatMap_singleton,Option.map_map]
      exact Option.map_id' 

-- source_t as far as the reader sees it. `returned` holds the refbufs given to the
-- queue; `received`, `segments` and `rejected` only record what happened.
structure Demux where
  running : Bool
  client : SourceClient
  mp3 : Mp3State
  returned : List StreamBuf
  received : List UInt8
  segments : List Segment
  rejected : Option Segment
deriving DecidableEq,Repr

def Demux.initial (metaint : Option Int) (body : List UInt8) : Demux :=
  { running := true, client := ⟨body,false⟩, mp3 := formatMp3GetPlugin metaint
    returned := [], received := [], segments := [], rejected := none }

def Demux.consumed (s : Demux) : List UInt8 := s.segments.flatMap (·.bytes)
def Demux.audio (s : Demux) : List UInt8 := s.returned.flatMap (·.data)

inductive Event where
  -- one get_buffer call of get_next_buffer
  | read (recv : Recv)
  -- an admin request reaches mp3_set_tag
  | tag (tag : Option Tag) (value : Option (List UInt8))
  -- the memory inline_url points to is used for something else
  | reused (text : List UInt8)
deriving DecidableEq,Repr

-- The segment a full read makes; a title too long for a block is not put in.
def segmentOf (s : Mp3State) : Segment :=
  ⟨if s.updateMetadata then newTitle s else none,s.readData.getD []⟩

-- get_next_buffer stops the source on an error of its connection.
def Demux.next (s : Demux) : Event → Option Demux
  | .read recv =>
    if s.running then
      (completeRead s.client s.mp3 recv).bind fun (_,ready,full) =>
      (getBuffer s.client s.mp3 recv).map fun got =>
        { running := got.running && !got.client.error, client := got.client, mp3 := got.mp3
          returned := s.returned++got.refbuf.toList
          received := s.received++(clientReadBytes s.client (refbufSize-readOffset s.mp3) recv).2.getD []
          segments := if full && got.running then s.segments++[segmentOf ready] else s.segments
          rejected := if full && !got.running then some (segmentOf ready) else s.rejected }
    else none
  | .tag tag value => some {s with mp3 := mp3SetTag s.mp3 tag value}
  | .reused text => some {s with mp3 := {s.mp3 with inlineUrl := s.mp3.inlineUrl.map fun _ => text}}

def Demux.step (s : Demux) (event : Event) (t : Demux) : Prop := s.next event = some t

-- The bytes of read_data that are filled.
def held (s : Mp3State) : List UInt8 := (s.readData.getD []).take (readOffset s)

structure ReadOk (s : Mp3State) : Prop where
  width : ∀ buf, s.readData = some buf → buf.length = refbufSize
  short : readOffset s < refbufSize

theorem held_nil (unread : s.readData = none) : held s = [] := by rw [held,unread,Option.getD_none,List.take_nil]

theorem readOk_nil (unread : s.readData = none) : ReadOk s where
  width := fun buf read => by rw [unread] at read; cases read
  short := by rw [readOffset,unread]; exact Nat.succ_pos _

theorem read_bytes_short (c : SourceClient) (len : Nat) (recv : Recv)
    (got : (clientReadBytes c len recv).2 = some bytes) : bytes.length ≤ len := by
  unfold clientReadBytes at got
  split at got
  · cases Option.some.inj got
    exact List.length_take_le _ _
  · cases recv with
    | data more =>
      cases Option.some.inj got
      exact List.length_take_le _ _
    | closed =>
      cases Option.some.inj got
      exact Nat.zero_le _
    | blocked => cases got
    | failed => cases got

-- The buffer complete_read works on starts with the bytes held.
theorem read_buffer (ok : ReadOk s) : (s.readData.getD (List.replicate refbufSize 0)).length = refbufSize ∧
    (s.readData.getD (List.replicate refbufSize 0)).take (readOffset s) = held s := by
  cases read : s.readData with
  | none => exact ⟨List.length_replicate,by simp [held,readOffset,read]⟩
  | some buf => exact ⟨ok.width buf read,by simp [held,read]⟩

-- complete_read adds what was read to what is held, or gives the full buffer.
theorem complete_read (ok : ReadOk s) (recv : Recv) : ∃ client ready full,
    completeRead c s recv = some (client,ready,full) ∧
    (∃ readData readCount, ready = {s with readData := readData,readCount := readCount}) ∧
    (full = false → ReadOk ready ∧ (client.error = false →
      held ready = held s++(clientReadBytes c (refbufSize-readOffset s) recv).2.getD [])) ∧
    (full = true → ready.readCount = refbufSize ∧
      ready.readData = some (held s++(clientReadBytes c (refbufSize-readOffset s) recv).2.getD []) ∧
      (held s++(clientReadBytes c (refbufSize-readOffset s) recv).2.getD []).length = refbufSize) := by
  obtain ⟨width,front⟩ := read_buffer ok
  have short := ok.short
  have size : (held s).length = readOffset s := by
    rw [←front,List.length_take]
    omega
  unfold completeRead
  dsimp only
  generalize s.readData.getD (List.replicate refbufSize 0) = buf at width front
  cases result : clientReadBytes c (refbufSize-readOffset s) recv with
  | mk client got =>
    cases got with
    | none =>
      cases failed : client.error with
      | true =>
        refine ⟨client,_,false,by simp [failed],⟨none,readOffset s,rfl⟩,fun _ => ⟨⟨nofun,?_⟩,?_⟩,nofun⟩
        · exact Nat.succ_pos _
        · rw [failed]
          exact nofun
      | false =>
        refine ⟨client,_,false,by simp [failed],⟨some buf,readOffset s,rfl⟩,fun _ => ⟨⟨?_,short⟩,fun _ => ?_⟩,nofun⟩
        · rintro other ⟨⟩
          exact width
        · rw [Option.getD_none,List.append_nil]
          exact front
    | some bytes =>
      have few := read_bytes_short c _ recv (by rw [result])
      obtain ⟨next,wrote⟩ : ∃ next, memcpy buf (readOffset s) bytes = some next := ⟨_,memcpy_eq (by omega)⟩
      have next_length := length_memcpy wrote
      have next_take := take_memcpy wrote
      rw [front] at next_take
      dsimp only
      rw [wrote,Option.map_some,Option.getD_some]
      by_cases full : readOffset s+bytes.length < refbufSize
      · rw [if_pos full]
        by_cases empty : readOffset s+bytes.length = 0
        · refine ⟨client,_,false,by rw [if_pos empty],⟨none,readOffset s+bytes.length,rfl⟩,
            fun _ => ⟨⟨nofun,?_⟩,fun _ => ?_⟩,nofun⟩
          · exact Nat.succ_pos _
          · rw [empty,List.take_zero] at next_take
            rw [←next_take]
            rfl
        · refine ⟨client,_,false,by rw [if_neg empty],⟨some next,readOffset s+bytes.length,rfl⟩,
            fun _ => ⟨⟨?_,full⟩,fun _ => next_take⟩,nofun⟩
          rintro other ⟨⟩
          rw [next_length,width]
      · have exact_fit : readOffset s+bytes.length = refbufSize := by omega
        rw [if_neg full]
        rw [exact_fit,←width,←next_length,List.take_length] at next_take
        refine ⟨client,_,true,rfl,⟨some next,readOffset s+bytes.length,rfl⟩,nofun,fun _ => ⟨exact_fit,?_,?_⟩⟩
        · rw [next_take]
        · rw [←next_take,next_length,width]

theorem take_title (s : Mp3State) : ∃ metadata updateMetadata,
    takeTitle {s with readData := none} = some {s with
      readData := none,metadata := metadata,updateMetadata := updateMetadata} ∧
    metadata = (segmentOf s).title.getD s.metadata := by
  unfold takeTitle segmentOf
  dsimp only
  cases asked : s.updateMetadata with
  | false => exact ⟨s.metadata,false,rfl,rfl⟩
  | true =>
    rw [if_pos rfl,set_title_eq]
    exact ⟨_,false,rfl,rfl⟩

-- mp3_get_filter_meta on a full buffer does what the format says of its segment.
theorem filter_read (full : s.readData = some buf) (width : buf.length = refbufSize) (count : s.readCount = refbufSize)
    (interval : s.inlineMetadataInterval = n) (tracks : Tracks n s pos) :
    ∃ got, filterRead c s = some got ∧ got.client = c ∧ got.mp3.inlineMetadataInterval = n ∧ Bounds n got.mp3 ∧
      (absorb n (pos,s.metadata) (segmentOf s) = none → got.running = false ∧ got.refbuf = none) ∧
      ∀ next, absorb n (pos,s.metadata) (segmentOf s) = some next →
        got.running = true ∧ Tracks n got.mp3 next.1 ∧ got.mp3.metadata = next.2 ∧ got.mp3.readData = none ∧
        got.refbuf.toList.flatMap (·.data) = audioOf (scan n pos buf).2 := by
  obtain ⟨metadata,updateMetadata,titled,current⟩ := take_title s
  have bytes : (segmentOf s).bytes = buf := by rw [segmentOf,full,Option.getD_some]
  have tracked : Tracks n {s with readData := none,metadata := metadata,updateMetadata := updateMetadata} pos := by
    cases tracks with
    | audio idle within => exact .audio idle within
    | block a b c d e => exact .block a b c d e
  have good : Good n ⟨buf,0,s.readCount,0,{s with
      readData := none,metadata := metadata,updateMetadata := updateMetadata}⟩ pos :=
    ⟨interval,rfl,by dsimp only; omega,tracked⟩
  have all : pending ⟨buf,0,s.readCount,0,{s with
      readData := none,metadata := metadata,updateMetadata := updateMetadata}⟩ = buf := by
    rw [pending,count,←width,List.drop_zero,List.take_length]
  obtain ⟨outcome,looped,spec⟩ := filter_loop good (Nat.lt_succ_self s.readCount)
  refine ⟨filtered c outcome,by rw [filterRead,titled,Option.bind_some,full,Option.getD_some,looped,Option.map_some],?_⟩
  cases outcome with
  | ok f =>
    obtain ⟨place,passed⟩ := spec
    rw [all] at place passed
    have absorbed : absorb n (pos,s.metadata) (segmentOf s) = some ((scan n pos buf).1,f.mp3.metadata) := by
      rw [absorb,bytes,←current]
      dsimp only
      rw [passed.blocks]
      rfl
    refine ⟨rfl,passed.interval.trans interval,place.bounds,by rw [absorbed]; rintro ⟨⟩,fun next same => ?_⟩
    rw [absorbed] at same
    cases Option.some.inj same
    refine ⟨rfl,place,rfl,passed.readData,?_⟩
    have kept := passed.audio
    rw [taken,taken,List.take_zero,List.nil_append] at kept
    rw [filtered]
    dsimp only
    split
    · rename_i empty
      rw [empty,List.take_zero] at kept
      exact kept
    · rw [Option.toList_some,List.flatMap_singleton]
      exact kept
  | error t =>
    have absorbed : absorb n (pos,s.metadata) (segmentOf s) = none := by
      have blocks := spec.blocks
      rw [all] at blocks
      rw [absorb,bytes,←current]
      dsimp only
      rw [blocks]
      rfl
    refine ⟨rfl,spec.interval.trans interval,spec.bounds,fun _ => ⟨rfl,rfl⟩,fun next same => ?_⟩
    rw [absorbed] at same
    cases same

-- What holds of the reader in every run.
structure Demux.Inv (n : Nat) (s : Demux) : Prop where
  interval : s.mp3.inlineMetadataInterval = n
  bounds : Bounds n s.mp3
  prefix_ : s.consumed <+: s.received
  audio : s.audio = audioOf (scan n start s.consumed).2
  absorbed : s.rejected = none → ∃ pos, absorbAll n s.segments = some (pos,s.mp3.metadata) ∧ Tracks n s.mp3 pos
  rejected : ∀ segment, s.rejected = some segment → s.running = false ∧ absorbAll n (s.segments++[segment]) = none
  live : s.running = true → s.rejected = none ∧ ReadOk s.mp3 ∧ s.received = s.consumed++held s.mp3
  whole : s.consumed.length % refbufSize = 0

theorem initial_inv (n : Nat) (body : List UInt8) : (Demux.initial (some n) body).Inv n := by
  have plugin : (formatMp3GetPlugin (some n)).inlineMetadataInterval = n ∧ (formatMp3GetPlugin (some n)).offset = 0 ∧
      (formatMp3GetPlugin (some n)).buildMetadataLen = 0 ∧ (formatMp3GetPlugin (some n)).readData = none ∧
      (formatMp3GetPlugin (some n)).metadata = blankMetadata := by
    unfold formatMp3GetPlugin
    dsimp only
    split
    · exact ⟨Int.toNat_natCast n,rfl,rfl,rfl,rfl⟩
    · exact ⟨by dsimp only; omega,rfl,rfl,rfl,rfl⟩
  obtain ⟨interval,offset,idle,unread,blank⟩ := plugin
  have tracks : Tracks n (formatMp3GetPlugin (some n)) start := by
    have := Tracks.audio (n := n) idle (by omega)
    rwa [offset] at this
  exact {
    interval := interval
    bounds := tracks.bounds
    prefix_ := List.nil_prefix
    audio := rfl
    absorbed := fun _ => ⟨start,by rw [Demux.initial,blank]; rfl,tracks⟩
    rejected := nofun
    live := fun _ => ⟨rfl,readOk_nil unread,(held_nil unread).symm⟩
    whole := rfl }

theorem Tracks.read (tracks : Tracks n s pos) (readData : Option (List UInt8)) (readCount : Nat) :
    Tracks n {s with readData := readData,readCount := readCount} pos := by
  cases tracks with
  | audio idle within => exact .audio idle within
  | block full announced filled short held => exact .block full announced filled short held

section Outcomes
variable {n : Nat} {s : Demux} {ready : Mp3State} {pos : Scan} {bytes : List UInt8}

theorem partial_inv (inv : Demux.Inv n s) (running : s.running = true)
    (same : ∃ readData readCount, ready = {s.mp3 with readData := readData,readCount := readCount}) (ok : ReadOk ready)
    (extended : client.error = false → held ready = held s.mp3++bytes) :
    Demux.Inv n {s with running := !client.error,client := client,received := s.received++bytes,mp3 := ready} := by
  obtain ⟨readData,readCount,rfl⟩ := same
  obtain ⟨accepted,_,received⟩ := inv.live running
  obtain ⟨pos,absorbed,tracks⟩ := inv.absorbed accepted
  exact {
    interval := inv.interval
    bounds := ⟨inv.bounds.offset,inv.bounds.building⟩
    prefix_ := inv.prefix_.trans (List.prefix_append _ _)
    audio := inv.audio
    absorbed := fun _ => ⟨pos,absorbed,tracks.read readData readCount⟩
    rejected := fun segment was => by rw [accepted] at was; cases was
    live := fun still => by
      refine ⟨accepted,ok,?_⟩
      rw [extended (by simpa using still),←List.append_assoc]
      exact congrArg (·++bytes) received
    whole := inv.whole }

theorem refused_inv {segment : Segment} (inv : Demux.Inv n s) (client : SourceClient) (bytes : List UInt8)
    (interval : t.inlineMetadataInterval = n)
    (bounds : Bounds n t) (absorbed : absorbAll n s.segments = some found) (verdict : absorb n found segment = none) :
    Demux.Inv n {s with
      running := false,client := client,received := s.received++bytes,mp3 := t,rejected := some segment} where
  interval := interval
  bounds := bounds
  prefix_ := inv.prefix_.trans (List.prefix_append _ _)
  audio := inv.audio
  absorbed := nofun
  rejected := fun last was => by
    cases Option.some.inj was
    exact ⟨rfl,absorbAll_snoc.trans (by rw [absorbed]; exact verdict)⟩
  live := nofun
  whole := inv.whole

theorem passed_inv {segment : Segment} (inv : Demux.Inv n s) (client : SourceClient) (running : s.running = true)
    (interval : t.inlineMetadataInterval = n)
    (absorbed : absorbAll n s.segments = some (pos,metadata)) (contents : segment.bytes = held s.mp3++bytes)
    (width : segment.bytes.length = refbufSize) (verdict : absorb n (pos,metadata) segment = some (next,t.metadata))
    (place : Tracks n t next) (emptied : t.readData = none)
    (audio : returned.flatMap (·.data) = audioOf (scan n pos segment.bytes).2) :
    Demux.Inv n {s with
      running := !client.error,client := client,received := s.received++bytes,mp3 := t
      returned := s.returned++returned,segments := s.segments++[segment]} := by
  obtain ⟨accepted,_,received⟩ := inv.live running
  have consumed : (s.segments++[segment]).flatMap (·.bytes) = s.consumed++segment.bytes := by
    rw [List.flatMap_append,List.flatMap_singleton]
    rfl
  have after : s.received++bytes = (s.segments++[segment]).flatMap (·.bytes) := by
    rw [consumed,received,contents,List.append_assoc]
  exact {
    interval := interval
    bounds := place.bounds
    prefix_ := by
      rw [Demux.consumed]
      dsimp only
      exact ⟨[],by rw [List.append_nil,after]⟩
    audio := by
      have before := absorbAll_scan _ absorbed
      rw [Demux.audio,Demux.consumed]
      dsimp only
      rw [List.flatMap_append,audio,consumed,scan_append,audioOf_append,before]
      exact congrArg (fun front => front++_) inv.audio
    absorbed := fun _ => ⟨next,by rw [absorbAll_snoc,absorbed]; exact verdict,place⟩
    rejected := fun last was => by
      rw [show s.rejected = none from accepted] at was
      cases was
    live := fun _ => by
      refine ⟨accepted,readOk_nil emptied,?_⟩
      dsimp only
      rw [held_nil emptied,List.append_nil,after]
      rfl
    whole := by
      rw [Demux.consumed]
      dsimp only
      rw [consumed,List.length_append,width,Nat.add_mod_right]
      exact inv.whole }

end Outcomes

theorem read_step (positive : 0 < n) (inv : Demux.Inv n s) (running : s.running = true) (recv : Recv) :
    ∃ t, s.next (.read recv) = some t ∧ Demux.Inv n t := by
  obtain ⟨accepted,ok,received⟩ := inv.live running
  obtain ⟨pos,absorbed,tracks⟩ := inv.absorbed accepted
  obtain ⟨client,ready,full,completed,same,partly,filled⟩ := complete_read (c := s.client) ok recv
  have filtering : getBuffer s.client s.mp3 recv = mp3GetFilterMeta s.client s.mp3 recv := by
    rw [getBuffer,if_pos (by rw [inv.interval]; exact positive)]
  generalize arrived : (clientReadBytes s.client (refbufSize-readOffset s.mp3) recv).2.getD [] = bytes at partly filled
  cases full with
  | false =>
    obtain ⟨ok,extended⟩ := partly rfl
    refine ⟨_,?_,partial_inv inv running same ok extended⟩
    simp only [Demux.next,if_pos running,completed,filtering,mp3GetFilterMeta,Option.bind_some,Option.map_some,arrived,
      Bool.false_and,Bool.true_and,Option.toList_none,List.append_nil]
    rfl
  | true =>
    obtain ⟨count,read,width⟩ := filled rfl
    have kept : ready.inlineMetadataInterval = n ∧ ready.metadata = s.mp3.metadata ∧ Tracks n ready pos := by
      obtain ⟨readData,readCount,rfl⟩ := same
      exact ⟨inv.interval,rfl,tracks.read readData readCount⟩
    obtain ⟨interval,metadata,tracked⟩ := kept
    obtain ⟨got,filtered,client_kept,got_interval,bounds,refused,passed⟩ :=
      filter_read (c := client) read width count interval tracked
    rw [metadata] at refused passed
    have contents : (segmentOf ready).bytes = held s.mp3++bytes := by
      rw [segmentOf,read]
      rfl
    have stepped : s.next (.read recv) = some
        { running := got.running && !client.error, client := client, mp3 := got.mp3
          returned := s.returned++got.refbuf.toList, received := s.received++bytes
          segments := if got.running then s.segments++[segmentOf ready] else s.segments
          rejected := if !got.running then some (segmentOf ready) else s.rejected } := by
      simp only [Demux.next,if_pos running,completed,filtering,mp3GetFilterMeta,Option.bind_some,
        filtered,Option.map_some,
        arrived,Bool.true_and,client_kept]
    refine ⟨_,stepped,?_⟩
    cases verdict : absorb n (pos,s.mp3.metadata) (segmentOf ready) with
    | none =>
      obtain ⟨stopped,empty⟩ := refused verdict
      have next := refused_inv inv client bytes got_interval bounds absorbed verdict
      simpa [stopped,empty] using next
    | some found =>
      obtain ⟨place,current⟩ := found
      obtain ⟨keeps,tracks,same_metadata,emptied,audio⟩ := passed (place,current) verdict
      rw [←contents] at audio width
      have next := passed_inv inv client running got_interval absorbed contents width
        (by rw [same_metadata]; exact verdict) tracks emptied audio
      simpa [keeps] using next

theorem preserves_urls (inv : Demux.Inv n s) (artist title url inlineUrl : Option (List UInt8)) (update : Bool) :
    Demux.Inv n {s with mp3 := {s.mp3 with
      urlArtist := artist,urlTitle := title,url := url,inlineUrl := inlineUrl,updateMetadata := update}} where
  interval := inv.interval
  bounds := ⟨inv.bounds.offset,inv.bounds.building⟩
  prefix_ := inv.prefix_
  audio := inv.audio
  absorbed := fun accepted => by
    obtain ⟨pos,absorbed,tracks⟩ := inv.absorbed accepted
    refine ⟨pos,absorbed,?_⟩
    cases tracks with
    | audio idle within => exact .audio idle within
    | block full announced filled short held => exact .block full announced filled short held
  rejected := inv.rejected
  live := fun running => by
    obtain ⟨accepted,ok,received⟩ := inv.live running
    exact ⟨accepted,⟨ok.width,ok.short⟩,received⟩
  whole := inv.whole

theorem preserves_inv (positive : 0 < n) (inv : Demux.Inv n s) (step : Demux.step s event t) : Demux.Inv n t := by
  cases event with
  | read recv =>
    have running : s.running = true := by
      cases live : s.running with
      | true => rfl
      | false =>
        rw [Demux.step,Demux.next,live] at step
        cases step
    obtain ⟨next,ran,kept⟩ := read_step positive inv running recv
    cases Option.some.inj (ran.symm.trans step)
    exact kept
  | tag tag value =>
    cases Option.some.inj step
    cases tag with
    | none => exact preserves_urls inv _ _ _ _ true
    | some tag => cases tag <;> exact preserves_urls inv _ _ _ _ _
  | reused text =>
    cases Option.some.inj step
    exact preserves_urls inv _ _ _ _ _

theorem runs_inv {n : Nat} (positive : 0 < n)
    (path : Transition.Runs Demux.step (.initial (some n) body) events s) : s.Inv n :=
  path.preserves (preserves_inv positive) (initial_inv n body)

theorem Demux.Inv.consumed_whole (inv : Demux.Inv n s) (running : s.running = true) :
    s.consumed = s.received.take (s.received.length/refbufSize*refbufSize) := by
  obtain ⟨_,ok,received⟩ := inv.live running
  have short := ok.short
  have few : (held s.mp3).length ≤ readOffset s.mp3 := List.length_take_le _ _
  have size : s.received.length/refbufSize*refbufSize = s.consumed.length := by
    have whole := inv.whole
    rw [received,List.length_append]
    simp only [refbufSize] at *
    omega
  rw [size,received,List.take_left]

-- The demultiplexer in any run: whatever the reads, the audio returned is the stream
-- without its metadata blocks, the current metadata follows from the blocks, the
-- counters stay in bounds and no read goes outside a buffer.
theorem demux_runs {n : Nat} (positive : 0 < n) (path : Transition.Runs Demux.step (.initial (some n) body) events s) :
    s.audio = strip n s.consumed ∧
    (s.consumed <+: s.received ∧
      (s.running = true → s.consumed = s.received.take (s.received.length/refbufSize*refbufSize))) ∧
    (s.rejected = none → (absorbAll n s.segments).map (·.2) = some s.mp3.metadata ∧
      ((∀ segment ∈ s.segments, segment.title = none) →
        adoptAll blankMetadata (blocks n s.consumed) = some s.mp3.metadata)) ∧
    (∀ segment, s.rejected = some segment → s.running = false ∧ absorbAll n (s.segments++[segment]) = none) ∧
    s.mp3.offset ≤ n ∧
    (s.mp3.buildMetadataLen ≠ 0 → s.mp3.buildMetadataOffset < s.mp3.buildMetadataLen ∧
      s.mp3.buildMetadataLen ≤ buildMetadataSize) ∧
    (s.running = true → ∀ recv, ∃ t, Demux.step s (.read recv) t) := by
  have inv := runs_inv positive path
  refine ⟨?_,⟨inv.prefix_,inv.consumed_whole⟩,fun accepted => ?_,inv.rejected,inv.bounds.offset,inv.bounds.building,
    fun running recv => ?_⟩
  · rw [inv.audio,scan_strip]
  · obtain ⟨pos,absorbed,_⟩ := inv.absorbed accepted
    refine ⟨by rw [absorbed]; rfl,fun untitled => ?_⟩
    rw [Demux.consumed,←absorbAll_untitled s.segments untitled,absorbed]
    rfl
  · obtain ⟨t,ran,_⟩ := read_step positive inv running recv
    exact ⟨t,ran⟩

-- One read with 1383 audio bytes and a whole block after them.
def titleRead : Recv := .data (List.replicate 1383 7++1::ascii "StreamTitle='a';")
def titled : Demux := ((Demux.initial (some (1383 : Nat)) []).next (.read titleRead)).getD (.initial none [])

theorem demux_runs_titled : titled.audio = strip 1383 titled.consumed ∧
    titled.mp3.metadata = 1::ascii "StreamTitle='a'"++[0] :=
  have ran : (Demux.initial (some (1383 : Nat)) []).next (.read titleRead) = some titled := by decide +kernel
  ⟨(demux_runs (by decide) (.snoc .nil ran)).1,by decide +kernel⟩

end Icecast.Mp3
