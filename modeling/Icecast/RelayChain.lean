import Mathlib.Data.List.Infix
import Icecast.Mp3Source
import Icecast.Mp3Listener
import Icecast.Mp3Title

namespace Icecast.RelayChain
open Mp3 Bytes IcyFormat RefHeap Linked

-- A source whose listener is a relay: the queue on the master with the relay as its
-- client, the relay's reader of that stream, and the relay's own queue with a listener.
structure Chain (δ : Type v) where
  master : Feed δ
  relay : Demux
  slave : Feed δ

-- Both listeners are past their headers. The relay's client starts without a body
-- (client_set_queue), and its plugin with the icy-metaint it was answered.
def Chain.initial (source mount : Nat) (interval own : UInt32) : Chain δ :=
  ⟨.initial source interval,.initial (some interval.toNat) [],.initial mount own⟩

-- A metadata refbuf at an address of its own; one that is no block carries nothing a
-- listener could be sent.
def metaBuf (addr : Nat) (data : List UInt8) : Option MetaBuf :=
  if fits : whole data = true then some ⟨addr,data,fits⟩ else none

def pageOf (addr : Nat) (buf : StreamBuf) : Page MetaBuf := ⟨buf.data,metaBuf addr buf.associated,buf.syncPoint,none⟩

inductive ChainEvent where
  -- the source on the master and the relay's turns as its listener
  | master (event : FeedEvent)
  -- an iteration of source_main on the relay: get_next_buffer and what it puts in the queue
  | read (recv : Recv) (addr : Nat)
  -- admin requests on the relay, and memory of its metadata used for something else
  | tag (tag : Option Tag) (value : Option (List UInt8))
  | reused (text : List UInt8)
  -- the rest of source_main on the relay
  | trim
  | turn (sends : Nat → Send)

-- What a connection hands over was sent before, in order.
def Chain.next (m l : Mount) (c : Chain δ) : ChainEvent → Option (Chain δ)
  | .master event => (c.master.next m event).map fun master => {c with master := master}
  | .read recv addr =>
    (c.relay.next (.read recv)).bind fun relay =>
    if relay.received <+: c.master.received then
      (c.slave.next l (.produce false
        ((relay.returned.drop c.relay.returned.length).head?.map (pageOf addr)))).map fun slave =>
        {c with relay := relay,slave := slave}
    else none
  | .tag tag value => (c.relay.next (.tag tag value)).map fun relay => {c with relay := relay}
  | .reused text => (c.relay.next (.reused text)).map fun relay => {c with relay := relay}
  | .trim => (c.slave.next l .trim).map fun slave => {c with slave := slave}
  | .turn sends => (c.slave.next l (.turn sends)).map fun slave => {c with slave := slave}

-- No listener goes on in the middle of a block at other metadata.
def Steady (m l : Mount) (c : Chain δ) : ChainEvent → Prop
  | .master event => Calm m c.master event
  | .turn sends => Calm l c.slave (.turn sends)
  | _ => True

def Chain.step (m l : Mount) (c : Chain δ) (event : ChainEvent) (d : Chain δ) : Prop :=
  Steady m l c event ∧ c.next m l event = some d

-- The metadata a queue carries and a listener was at.
def Labelled (P : MetaBuf → Prop) (f : Feed δ) : Prop :=
  (∀ a data buf seq,f.queue.fixedAt a = some (data,some buf,seq) → P buf) ∧ ∀ buf ∈ f.seen,P buf

def added : FeedEvent → Option (Page MetaBuf)
  | .produce _ page => page
  | _ => none

-- What one step of a feed does to the data it carries, and to the bytes it has sent.
structure Moves (P : MetaBuf → Prop) (event : FeedEvent) (f g : Feed δ) : Prop where
  produced : g.queue.produced = f.queue.produced++((added event).map (·.data)).getD []
  received : f.received <+: g.received
  labelled : Labelled P f → (∀ page buf,added event = some page → page.associated = some buf → P buf) → Labelled P g

variable {m l : Mount} {P : MetaBuf → Prop} {f g : Feed δ} {interval own : UInt32}

theorem alive_inside {q : Queue MetaBuf} (inv : q.Inv refs before window) (found : q.fixedAt a = some content) :
    a ∈ before++window := by
  obtain ⟨buf,here,_⟩ := Option.map_eq_some_iff.mp found
  by_contra outside
  have owes := inv.counted.unread here
  have starts : (q.possibleStart.map (·.2)).count a = 0 :=
    List.count_eq_zero.mpr fun member => outside (inv.inside a (List.mem_append_right _ member))
  have held : refs.count a = 0 := List.count_eq_zero.mpr fun member =>
    outside (inv.inside a (List.mem_append_left _ member))
  have listed : (before++window).count a = 0 := List.count_eq_zero.mpr outside
  have open_ : window.count a = 0 := List.count_eq_zero.mpr fun member => outside (List.mem_append_right _ member)
  rw [Queue.owed,starts,held,listed,open_] at owes
  exact Nat.lt_irrefl 0 owes

theorem produce_moves {f g : Feed δ} (inv : f.Inv interval) (ran : f.next m (.produce zap page) = some g) :
    Moves P (.produce zap page) f g := by
  obtain ⟨before,window,served⟩ := inv.served
  obtain ⟨r,moved,rest,extra,made,queue,cells,adds,_,fixed⟩ := served.queue.produce zap page
  simp only [Feed.next,made,Option.map_some,Option.some.injEq] at ran
  subst g
  refine ⟨?_,List.prefix_rfl,fun labelled fresh => ⟨fun a data buf seq here => ?_,labelled.2⟩⟩
  · cases page with
    | none => exact adds.2.trans (List.append_nil _).symm
    | some page =>
      obtain ⟨_,_,_,produced⟩ := adds
      exact produced
  · have member := alive_inside queue here
    rw [cells] at member
    rcases List.mem_append.mp member with old | new
    · exact labelled.1 a data buf seq ((fixed a old).symm.trans here)
    · cases page with
      | none =>
        rw [adds.1] at new
        cases new
      | some page =>
        obtain ⟨b,rfl,there,_⟩ := adds
        rw [List.mem_singleton.mp new] at here
        have same := (Prod.mk.inj (Prod.mk.inj (Option.some.inj (there.symm.trans here))).2).1
        exact fresh page buf rfl same

theorem trim_moves {f g : Feed δ} (inv : f.Inv interval) (ran : f.next m .trim = some g) : Moves P .trim f g := by
  obtain ⟨before,window,served⟩ := inv.served
  by_cases some_left : f.queue.streamData.isSome = true
  · have nonempty : before++window ≠ [] := by
      intro empty
      have head := served.queue.chain.head
      rw [empty,List.head?_nil] at head
      simp [head] at some_left
    have short := served.queue.length_le
    rw [List.length_append] at short
    obtain ⟨r,dropped,rest,trimmed,split,kept,fixed,_,_,produced⟩ :=
      served.queue.trim nonempty (show before.length < f.queue.fresh+1 by omega)
    simp only [Feed.next,some_left,if_true,trimmed,Option.map_some,Option.some.injEq] at ran
    subst g
    refine ⟨produced.trans (List.append_nil _).symm,List.prefix_rfl,
      fun labelled _ => ⟨fun a data buf seq here => ?_,labelled.2⟩⟩
    exact labelled.1 a data buf seq ((fixed a (alive_inside kept here)).symm.trans here)
  · simp only [Feed.next,if_neg some_left,Option.some.injEq] at ran
    subst g
    exact ⟨(List.append_nil _).symm,List.prefix_rfl,fun labelled _ => labelled⟩

theorem turn_moves {f g : Feed δ} (inv : f.Inv interval) (format : m.format = some fmt)
    (ran : f.next m (.turn sends) = some g) :
    Moves P (.turn sends) f g := by
  obtain ⟨before,window,served⟩ := inv.served
  obtain ⟨go,r,d,checked,kept,next,_⟩ := served.checkBuffer format (⟨false,none,sends⟩ : Turn (ClientData δ))
  obtain ⟨h,rfl,reads⟩ := kept
  have stays : Labelled P f → Labelled P (f.checked {f.queue with heap := h} d) := by
    intro labelled
    have cells : ∀ a data buf seq,Queue.fixedAt {f.queue with heap := h} a = some (data,some buf,seq) → P buf := by
      intro a data buf seq here
      have same : Queue.fixedAt {f.queue with heap := h} a = f.queue.fixedAt a :=
        congrArg (Option.map _) (reads a (alive_inside next.queue here))
      exact labelled.1 a data buf seq (same.symm.trans here)
    refine ⟨cells,fun buf member => ?_⟩
    rcases List.mem_append.mp member with old | new
    · exact labelled.2 buf old
    · have seen := Option.mem_toList.mp new
      cases held : d.refbuf with
      | queue mount a =>
        simp only [shown,viewOf,held] at seen
        split at seen
        · cases found : RefHeap.read h a with
          | none => simp [found] at seen
          | some cell =>
            simp only [found,Option.map_some,Option.getD_some] at seen
            refine cells a cell.data buf cell.seq ?_
            rw [Queue.fixedAt,found,Option.map_some,seen]
        · simp at seen
      | own data => simp [shown,viewOf,held] at seen
      | null => simp [shown,viewOf,held] at seen
  simp only [Feed.next,checked,Option.bind_some] at ran
  cases go with
  | false =>
    simp only [Bool.false_eq_true,if_false,Option.some.injEq] at ran
    subst g
    exact ⟨(List.append_nil _).symm,List.prefix_rfl,fun labelled _ => stays labelled⟩
  | true =>
    simp only [if_true] at ran
    obtain ⟨⟨_,e⟩,_,rfl⟩ := Option.map_eq_some_iff.mp ran
    exact ⟨(List.append_nil _).symm,List.prefix_append _ _,fun labelled _ => stays labelled⟩

theorem feed_moves (inv : f.Inv interval) (format : m.format = some fmt) (ran : f.next m event = some g) :
    Moves P event f g := by
  cases event with
  | produce zap page => exact produce_moves inv ran
  | trim => exact trim_moves inv ran
  | turn sends => exact turn_moves inv format ran

theorem title_block_whole {s : Mp3State} (short : titleLen s ≤ maxMetaLen) (made : titleBlock s = some p) :
    whole p = true := by
  have bounds := units_bounds s
  have positive : 16 ≤ titleLen s := by
    unfold titleLen
    dsimp only
    omega
  have byte := (title_outcome_eq short).2.2
  unfold titleBlock at made
  dsimp only at made
  rw [show (titleLen s-1)/16+1 = units s by rfl] at made
  obtain ⟨first,printed,rest⟩ := Option.bind_eq_some_iff.mp made
  obtain ⟨text,split⟩ : ∃ text,titleText s (UInt8.ofNat (units s)) = UInt8.ofNat
    (units s)::text := ⟨_,title_text_eq s _⟩
  rw [split] at printed rest
  have size : first.length = units s*16+1 := by rw [length_snprintf printed,List.length_replicate]
  have head : first.head? = some (UInt8.ofNat (units s)) := by
    obtain ⟨k,more⟩ : ∃ k,units s*16 = k+1 := ⟨units s*16-1,by omega⟩
    unfold snprintf at printed
    rw [if_neg (by omega),Nat.add_sub_cancel,more] at printed
    unfold memcpy at printed
    split at printed
    · cases Option.some.inj printed
      rfl
    · cases printed
  suffices same : p.head? = first.head? ∧ p.length = first.length by
    rw [whole_iff (same.1.trans head),same.2,size,blockLen,byte]
    omega
  have url {room : Nat} {text' : List UInt8} (put : snprintf first (text.length+1) room text' = some p) :
      p.head? = first.head? ∧ p.length = first.length := ⟨snprintf_head put,length_snprintf put⟩
  rw [List.length_cons] at rest
  cases inline : s.inlineUrl with
  | some link =>
    simp only [inline] at rest
    split at rest
    · exact url rest
    · cases Option.some.inj rest
      exact ⟨rfl,rfl⟩
  | none =>
    cases link : s.url with
    | some link' =>
      simp only [inline,link] at rest
      exact url rest
    | none =>
      simp only [inline,link] at rest
      cases Option.some.inj rest
      exact ⟨rfl,rfl⟩

theorem new_title_whole {s : Mp3State} (set : newTitle s = some title) : whole title = true := by
  unfold newTitle at set
  split at set
  · cases set
  · exact title_block_whole (by omega) set

-- A block with text that is a title of the stream.
def Titled (block : List UInt8) : Prop := titleMark.isPrefixOf ((kept block).drop 1) = true

theorem adopt_cases (adopted : adopt metadata block = some next) : next = metadata ∨ next = kept block ∧
    1 < block.length := by
  unfold adopt at adopted
  split at adopted
  · rename_i changed
    split at adopted
    · exact .inr ⟨(Option.some.inj adopted).symm,changed.1⟩
    · cases adopted
  · exact .inl (Option.some.inj adopted).symm

theorem adopt_all_cases (blocks : List (List UInt8)) (adopted : adoptAll metadata blocks = some next) :
    next = metadata ∨ ∃ block ∈ blocks,next = kept block ∧ 1 < block.length := by
  induction blocks generalizing metadata with
  | nil => exact .inl (Option.some.inj adopted).symm
  | cons block blocks ih =>
    obtain ⟨middle,first,rest⟩ :=
      Option.bind_eq_some_iff.mp (show (adopt metadata block).bind (adoptAll · blocks) = some next from adopted)
    rcases ih rest with rfl | ⟨other,member,same⟩
    · rcases adopt_cases first with same | same
      · exact .inl same
      · exact .inr ⟨block,List.mem_cons_self,same⟩
    · exact .inr ⟨other,List.mem_cons_of_mem _ member,same⟩

theorem adopt_none (refused : adopt metadata block = none) : 1 < block.length ∧ ¬Titled block := by
  unfold adopt at refused
  split at refused
  · rename_i changed
    split at refused
    · cases refused
    · rename_i other
      exact ⟨changed.1,other⟩
  · cases refused

theorem adopt_all_none (blocks : List (List UInt8)) (refused : adoptAll metadata blocks = none) :
    ∃ block ∈ blocks,1 < block.length ∧ ¬Titled block := by
  induction blocks generalizing metadata with
  | nil => cases refused
  | cons block blocks ih =>
    have steps : (adopt metadata block).bind (adoptAll · blocks) = none := refused
    cases first : adopt metadata block with
    | none => exact ⟨block,List.mem_cons_self,adopt_none first⟩
    | some middle =>
      rw [first,Option.bind_some] at steps
      obtain ⟨other,member,bad⟩ := ih steps
      exact ⟨other,List.mem_cons_of_mem _ member,bad⟩

theorem kept_whole (fits : whole block = true) (long : 1 < block.length) : whole (kept block) = true := by
  cases block with
  | nil => cases fits
  | cons k rest =>
    cases rest with
    | nil => exact absurd long (Nat.lt_irrefl 1)
    | cons byte rest =>
      have size : (kept (k::byte::rest)).length = (k::byte::rest).length := length_kept (List.cons_ne_nil _ _)
      have head : (kept (k::byte::rest)).head? = some k := rfl
      rw [whole_iff head,size]
      exact (whole_iff rfl).mp fits

-- The metadata a relay may give to its listeners: the blank one, a block it read with a
-- NUL for its last byte, or a title set here.
inductive Carried (n : Nat) (segments : List Segment) (metadata : List UInt8) : Prop where
  | blank (same : metadata = blankMetadata)
  | block (original : List UInt8) (read : original ∈ blocks n (segments.flatMap (·.bytes)))
    (same : metadata = kept original)
      (long : 1 < original.length)
  | title (segment : Segment) (member : segment ∈ segments) (set : segment.title = some metadata)

theorem Carried.mono (carried : Carried n segments metadata) (more : List Segment) :
    Carried n (segments++more) metadata := by
  cases carried with
  | blank same => exact .blank same
  | block original read same long =>
    refine .block original (blocks_front ?_ original read) same long
    rw [List.flatMap_append]
    exact List.prefix_append _ _
  | title segment member set => exact .title segment (List.mem_append_left _ member) set

theorem Carried.whole (carried : Carried n segments metadata)
    (titles : ∀ segment ∈ segments,∀ title,segment.title = some title → IcyFormat.whole title = true) :
    IcyFormat.whole metadata = true := by
  cases carried with
  | blank same =>
    rw [same]
    rfl
  | block original read same long =>
    rw [←scan_blocks] at read
    rw [same]
    exact kept_whole (scan_whole _ read) long
  | title segment member set => exact titles segment member metadata set

theorem absorbed_carried (segments : List Segment) (absorbed : absorbAll n segments = some (pos,metadata)) :
    Carried n segments metadata := by
  induction segments using List.reverseRecOn generalizing pos metadata with
  | nil => exact .blank (congrArg Prod.snd (Option.some.inj absorbed)).symm
  | append_singleton earlier segment ih =>
    rw [absorbAll_snoc] at absorbed
    obtain ⟨⟨before,current⟩,first,one⟩ := Option.bind_eq_some_iff.mp absorbed
    obtain ⟨_,adopted,same⟩ := Option.map_eq_some_iff.mp one
    cases same
    rcases adopt_all_cases _ adopted with rfl | ⟨original,read,same,long⟩
    · cases set : segment.title with
      | none => exact (ih first).mono [segment]
      | some title => exact .title segment (List.mem_append_right _ List.mem_cons_self) set
    · refine .block original ?_ same long
      rw [List.flatMap_append,List.flatMap_singleton,blocks_append,←absorbAll_scan earlier first]
      exact List.mem_append_right _ read

theorem absorbed_none (segments : List Segment) (refused : absorbAll n segments = none) :
    ∃ block ∈ blocks n (segments.flatMap (·.bytes)),1 < block.length ∧ ¬Titled block := by
  induction segments using List.reverseRecOn with
  | nil => cases refused
  | append_singleton earlier segment ih =>
    rw [List.flatMap_append,List.flatMap_singleton,blocks_append]
    cases first : absorbAll n earlier with
    | none =>
      obtain ⟨block,member,bad⟩ := ih first
      exact ⟨block,List.mem_append_left _ member,bad⟩
    | some found =>
      obtain ⟨pos,metadata⟩ := found
      rw [absorbAll_snoc,first,Option.bind_some] at refused
      obtain ⟨block,member,bad⟩ := adopt_all_none _ (Option.map_eq_none_iff.mp refused)
      refine ⟨block,List.mem_append_right _ ?_,bad⟩
      rw [←absorbAll_scan earlier first]
      exact member

-- What a read of the relay's connection comes to.
inductive ReadCases (s t : Demux) : Prop where
  | waits (returned : t.returned = s.returned) (segments : t.segments = s.segments) (rejected : t.rejected = none)
  | refuses (segment : Segment) (returned : t.returned = s.returned) (segments : t.segments = s.segments)
      (rejected : t.rejected = some segment) (bytes : s.consumed++segment.bytes = t.received)
  | passes (segment : Segment) (buf : Option StreamBuf) (returned : t.returned = s.returned++buf.toList)
      (segments : t.segments = s.segments++[segment]) (rejected : t.rejected = none)
      (label : ∀ got,buf = some got → got.associated = t.mp3.metadata)
        (title : ∀ set,segment.title = some set → whole set = true)

theorem segment_title (set : (segmentOf s).title = some title) : whole title = true := by
  unfold segmentOf at set
  dsimp only at set
  split at set
  · exact new_title_whole set
  · cases set

theorem read_running {s t : Demux} (ran : s.next (.read recv) = some t) : s.running = true := by
  cases live : s.running with
  | true => rfl
  | false =>
    rw [Demux.next,live] at ran
    cases ran

theorem read_received {s t : Demux} (ran : s.next (.read recv) = some t) :
    t.received = s.received++(clientReadBytes s.client (refbufSize-readOffset s.mp3) recv).2.getD [] := by
  rw [Demux.next,if_pos (read_running ran)] at ran
  obtain ⟨_,_,rest⟩ := Option.bind_eq_some_iff.mp ran
  obtain ⟨_,_,rfl⟩ := Option.map_eq_some_iff.mp rest
  rfl

theorem read_cases {s t : Demux} (positive : 0 < n) (inv : s.Inv n) (ran : s.next (.read recv) = some t) :
    ReadCases s t := by
  have running := read_running ran
  obtain ⟨accepted,ok,received⟩ := inv.live running
  obtain ⟨client,ready,full,completed,_,_,filled⟩ := complete_read (c := s.client) ok recv
  have filtering : getBuffer s.client s.mp3 recv = mp3GetFilterMeta s.client s.mp3 recv := by
    rw [getBuffer,if_pos (by rw [inv.interval]; exact positive)]
  rw [Demux.next,if_pos running,completed,Option.bind_some,filtering,mp3GetFilterMeta,completed,Option.bind_some] at ran
  cases full with
  | false =>
    dsimp only at ran
    cases Option.some.inj ran
    exact .waits (List.append_nil _) rfl accepted
  | true =>
    dsimp only at ran
    obtain ⟨got,filtered_,rfl⟩ := Option.map_eq_some_iff.mp ran
    obtain ⟨taken_,_,looped⟩ := Option.bind_eq_some_iff.mp filtered_
    obtain ⟨outcome,_,rfl⟩ := Option.map_eq_some_iff.mp looped
    obtain ⟨_,read,_⟩ := filled rfl
    cases outcome with
    | ok f =>
      refine .passes (segmentOf ready) _ rfl rfl accepted (fun got same => ?_) fun _ set => segment_title set
      unfold filtered at same
      dsimp only at same
      split at same
      · cases same
      · cases Option.some.inj same
        rfl
    | error mp3 =>
      refine .refuses (segmentOf ready) (List.append_nil _) rfl rfl ?_
      have bytes : (segmentOf ready).bytes =
        held s.mp3++(clientReadBytes s.client (refbufSize-readOffset s.mp3) recv).2.getD [] := by
        rw [segmentOf,read]
        rfl
      rw [bytes,←List.append_assoc]
      exact congrArg (·++_) received.symm

-- What holds of the relay's reader between two steps.
structure Relays (n : Nat) (s : Demux) : Prop where
  inv : s.Inv n
  titles : ∀ segment ∈ s.segments,∀ title,segment.title = some title → whole title = true
  labels : ∀ buf ∈ s.returned,Carried n s.segments buf.associated
  refused : ∀ segment,s.rejected = some segment → s.consumed++segment.bytes <+: s.received

theorem read_relays {s t : Demux} (positive : 0 < n) (relays : Relays n s) (ran : s.next (.read recv) = some t) :
    Relays n t := by
  have inv : t.Inv n := Mp3.preserves_inv positive relays.inv ran
  refine ⟨inv,?_,?_,?_⟩
  all_goals cases read_cases positive relays.inv ran
  case refine_1.waits returned segments rejected => exact segments ▸ relays.titles
  case refine_1.refuses segment returned segments rejected bytes => exact segments ▸ relays.titles
  case refine_1.passes segment buf returned segments rejected label title =>
    rw [segments]
    intro other member
    rcases List.mem_append.mp member with old | new
    · exact relays.titles other old
    · exact List.mem_singleton.mp new ▸ title
  case refine_2.waits returned segments rejected => exact segments ▸ returned ▸ relays.labels
  case refine_2.refuses segment returned segments rejected bytes => exact segments ▸ returned ▸ relays.labels
  case refine_2.passes segment buf returned segments rejected label title =>
    rw [returned]
    intro got member
    rcases List.mem_append.mp member with old | new
    · rw [segments]
      exact (relays.labels got old).mono [segment]
    · obtain ⟨pos,absorbed,_⟩ := inv.absorbed rejected
      rw [label got (Option.mem_toList.mp new)]
      exact absorbed_carried t.segments absorbed
  case refine_3.waits returned segments rejected =>
    intro segment was
    rw [rejected] at was
    cases was
  case refine_3.refuses segment returned segments rejected bytes =>
    intro other was
    cases Option.some.inj (rejected.symm.trans was)
    have same : t.consumed = s.consumed := by rw [Demux.consumed,segments,Demux.consumed]
    exact ⟨[],by rw [List.append_nil,same,bytes]⟩
  case refine_3.passes segment buf returned segments rejected label title =>
    intro other was
    rw [rejected] at was
    cases was

theorem request_relays {s t : Demux} (positive : 0 < n) (relays : Relays n s) (quiet : ∀ recv,event ≠ .read recv)
    (ran : s.next event = some t) :
    Relays n t ∧ t.received = s.received ∧ t.returned = s.returned ∧ t.segments = s.segments ∧
    t.rejected = s.rejected := by
  have inv : t.Inv n := Mp3.preserves_inv positive relays.inv ran
  cases event with
  | read recv => exact absurd rfl (quiet recv)
  | tag tag value =>
    cases Option.some.inj ran
    exact ⟨⟨inv,relays.titles,relays.labels,relays.refused⟩,rfl,rfl,rfl,rfl⟩
  | reused text =>
    cases Option.some.inj ran
    exact ⟨⟨inv,relays.titles,relays.labels,relays.refused⟩,rfl,rfl,rfl,rfl⟩

theorem initial_relays (n : Nat) : Relays n (.initial (some n) []) where
  inv := Mp3.initial_inv n []
  titles := by rintro _ ⟨⟩
  labels := by rintro _ ⟨⟩
  refused := by rintro _ ⟨⟩

theorem Labelled.imp {P Q : MetaBuf → Prop} {f : Feed δ} (labelled : Labelled P f) (more : ∀ buf,P buf → Q buf) :
    Labelled Q f :=
  ⟨fun a data buf seq here => more buf (labelled.1 a data buf seq here),fun buf member =>
    more buf (labelled.2 buf member)⟩

-- What holds of a chain between two steps.
structure Chain.Inv (interval own : UInt32) (c : Chain δ) : Prop where
  master : c.master.Inv interval
  relay : Relays interval.toNat c.relay
  slave : c.slave.Inv own
  arrived : c.relay.received <+: c.master.received
  produced : c.slave.queue.produced = c.relay.audio
  labelled : Labelled (fun buf => Carried interval.toNat c.relay.segments buf.data) c.slave

theorem initial_chain (source mount : Nat) (interval own : UInt32) : (Chain.initial source mount interval own :
    Chain δ).Inv interval own where
  master := initial_feed source interval
  relay := initial_relays interval.toNat
  slave := initial_feed mount own
  arrived := List.nil_prefix
  produced := rfl
  labelled := by
    refine ⟨fun a data buf seq here => ?_,by rintro _ ⟨⟩⟩
    cases here

-- When a step can be taken: a read meets bytes that were sent to a relay that still runs.
def Arrives (c : Chain δ) : ChainEvent → Prop
  | .read recv _ => c.relay.running = true ∧
    c.relay.received++(clientReadBytes c.relay.client (refbufSize-readOffset c.relay.mp3) recv).2.getD
      [] <+: c.master.received
  | _ => True

section Steps
variable {c d : Chain δ}

theorem master_step (inv : c.Inv interval own) (positive : interval ≠ 0) (format : m.format = some fmt)
    (calm : Calm m c.master event) :
    ∃ d,c.next m l (.master event) = some d ∧ d.Inv interval own := by
  obtain ⟨master,ran,kept⟩ := step_feed inv.master positive format event calm
  have moves := feed_moves (P := fun _ => True) inv.master format ran
  refine ⟨{c with master := master},by rw [Chain.next,ran,Option.map_some],?_⟩
  exact ⟨kept,inv.relay,inv.slave,inv.arrived.trans moves.received,inv.produced,inv.labelled⟩

theorem slave_step (inv : c.Inv interval own) (positive : own ≠ 0) (format : l.format = some fmt)
    (calm : Calm l c.slave event)
    (empty : added event = none) :
    ∃ slave,c.slave.next l event = some slave ∧ ({c with slave := slave} : Chain δ).Inv interval own := by
  obtain ⟨slave,ran,kept⟩ := step_feed inv.slave positive format event calm
  have moves := feed_moves (P := fun buf => Carried interval.toNat c.relay.segments buf.data) inv.slave format ran
  refine ⟨slave,ran,inv.master,inv.relay,kept,inv.arrived,?_,moves.labelled inv.labelled ?_⟩
  · have same := moves.produced
    rw [empty] at same
    exact same.trans ((List.append_nil _).trans inv.produced)
  · intro page buf present
    rw [empty] at present
    cases present

theorem request_step (inv : c.Inv interval own) (positive : interval ≠ 0) (event : Mp3.Event)
    (quiet : ∀ recv,event ≠ .read recv) :
    ∃ relay,c.relay.next event = some relay ∧ ({c with relay := relay} : Chain δ).Inv interval own := by
  obtain ⟨relay,ran⟩ : ∃ relay,c.relay.next event = some relay := by
    cases event with
    | read recv => exact absurd rfl (quiet recv)
    | tag tag value => exact ⟨_,rfl⟩
    | reused text => exact ⟨_,rfl⟩
  have present : 0 < interval.toNat := Nat.pos_of_ne_zero fun zero => positive (UInt32.toNat_inj.mp zero)
  obtain ⟨relays,received,returned,segments,_⟩ := request_relays present inv.relay quiet ran
  refine ⟨relay,ran,inv.master,relays,inv.slave,
    by rw [received]; exact inv.arrived,?_,by rw [segments]; exact inv.labelled⟩
  exact inv.produced.trans (by rw [Demux.audio,Demux.audio,returned])

theorem meta_buf_data (made : metaBuf addr data = some buf) : buf.data = data := by
  unfold metaBuf at made
  split at made
  · cases Option.some.inj made
    rfl
  · cases made

theorem read_step (inv : c.Inv interval own) (positive : interval ≠ 0) (positive' : own ≠ 0)
    (format : l.format = some fmt)
    (arrives : Arrives c (.read recv addr)) : ∃ d,c.next m l (.read recv addr) = some d ∧ d.Inv interval own := by
  obtain ⟨running,front⟩ := arrives
  have present : 0 < interval.toNat := Nat.pos_of_ne_zero fun zero => positive (UInt32.toNat_inj.mp zero)
  obtain ⟨relay,ran,_⟩ := Mp3.read_step present inv.relay.inv running recv
  have relays := read_relays present inv.relay ran
  have arrived : relay.received <+: c.master.received := by
    rw [read_received ran]
    exact front
  obtain ⟨buf,returned,segments⟩ : ∃ buf : Option StreamBuf,relay.returned = c.relay.returned++buf.toList ∧
      ∃ more,relay.segments = c.relay.segments++more := by
    cases read_cases present inv.relay.inv ran with
    | waits returned segments rejected =>
      exact ⟨none,by rw [returned]; exact (List.append_nil _).symm,[],by rw [segments,List.append_nil]⟩
    | refuses segment returned segments rejected bytes =>
      exact ⟨none,by rw [returned]; exact (List.append_nil _).symm,[],by rw [segments,List.append_nil]⟩
    | passes segment buf returned segments rejected label title => exact ⟨buf,returned,[segment],segments⟩
  obtain ⟨more,segments⟩ := segments
  have page : (relay.returned.drop c.relay.returned.length).head?.map (pageOf addr) = buf.map (pageOf addr) := by
    rw [returned,List.drop_left]
    cases buf <;> rfl
  obtain ⟨slave,put,kept⟩ :=
    step_feed (m := l) inv.slave positive' format (.produce false (buf.map (pageOf addr))) trivial
  have moves := feed_moves (P := fun buf => Carried interval.toNat relay.segments buf.data) inv.slave format put
  refine ⟨{c with relay := relay,slave := slave},?_,inv.master,relays,kept,arrived,?_,moves.labelled ?_ ?_⟩
  · rw [Chain.next,ran,Option.bind_some,if_pos arrived,page,put,Option.map_some]
  · rw [moves.produced,inv.produced,Demux.audio,Demux.audio,returned,List.flatMap_append]
    cases buf with
    | none => rfl
    | some buf =>
      rw [Option.toList_some,List.flatMap_singleton]
      rfl
  · exact inv.labelled.imp fun _ carried => segments ▸ carried.mono more
  · intro made tag same label
    cases buf with
    | none => cases same
    | some buf =>
      cases Option.some.inj same
      rw [meta_buf_data label]
      exact relays.labels buf (by rw [returned]; exact List.mem_append_right _ List.mem_cons_self)

theorem chain_step (inv : c.Inv interval own) (positive : interval ≠ 0) (positive' : own ≠ 0)
    (format : m.format = some fmt)
    (format' : l.format = some fmt') (event : ChainEvent) (steady : Steady m l c event) (arrives : Arrives c event) :
    ∃ d,c.next m l event = some d ∧ d.Inv interval own := by
  cases event with
  | master event => exact master_step inv positive format steady
  | read recv addr => exact read_step inv positive positive' format' arrives
  | tag tag value =>
    obtain ⟨relay,ran,kept⟩ := request_step inv positive (.tag tag value) (by rintro _ ⟨⟩)
    exact ⟨_,by rw [Chain.next,ran,Option.map_some],kept⟩
  | reused text =>
    obtain ⟨relay,ran,kept⟩ := request_step inv positive (.reused text) (by rintro _ ⟨⟩)
    exact ⟨_,by rw [Chain.next,ran,Option.map_some],kept⟩
  | trim =>
    have calm : Calm l c.slave .trim := trivial
    obtain ⟨slave,ran,kept⟩ := slave_step inv positive' format' calm rfl
    exact ⟨_,by rw [Chain.next,ran,Option.map_some],kept⟩
  | turn sends =>
    have calm : Calm l c.slave (.turn sends) := steady
    obtain ⟨slave,ran,kept⟩ := slave_step inv positive' format' calm rfl
    exact ⟨_,by rw [Chain.next,ran,Option.map_some],kept⟩

theorem next_arrives (ran : c.next m l event = some d) : Arrives c event := by
  cases event with
  | read recv addr =>
    obtain ⟨relay,got,rest⟩ := Option.bind_eq_some_iff.mp ran
    split at rest
    · rename_i front
      rw [read_received got] at front
      exact ⟨read_running got,front⟩
    · cases rest
  | _ => trivial

theorem chain_preserves (positive : interval ≠ 0) (positive' : own ≠ 0) (format : m.format = some fmt)
    (format' : l.format = some fmt')
    (inv : c.Inv interval own) (step : c.step m l event d) : d.Inv interval own := by
  obtain ⟨next,ran,kept⟩ := chain_step inv positive positive' format format' event step.1 (next_arrives step.2)
  cases Option.some.inj (ran.symm.trans step.2)
  exact kept

end Steps

-- What a feed carries to its listener: the intro, and the source's data from where it was placed.
def stream (f : Feed δ) : List UInt8 := f.intro_++(f.client.placedAt.elim [] fun start => f.queue.produced.drop start)

theorem framed_stream {f : Feed δ} (framed : Framed interval f) : strip interval.toNat f.received <+: stream f := by
  unfold stream
  cases placed : f.client.placedAt with
  | none => exact (framed.waiting placed).trans (List.prefix_append _ _)
  | some start =>
    obtain ⟨audio,_,_,_,_,split,front,_⟩ := framed.playing start placed
    rw [split]
    exact (List.prefix_append_right_inj _).mpr front

-- The relay's listeners hear the source of the master: its data is passed on in order and
-- with nothing in between, and so are its titles.
structure Relayed (interval own : UInt32) (c : Chain δ) : Prop where
  queued : c.slave.queue.produced <+: stream c.master
  heard : strip own.toNat c.slave.received <+: c.slave.intro_++(c.slave.client.placedAt.elim [] fun start =>
    (stream c.master).drop start)
  blocks : ∀ block ∈ IcyFormat.blocks own.toNat c.slave.received,block = [0] ∨ block = blankMetadata ∨
    (∃ buf ∈ c.master.seen,block = kept buf.data) ∨ ∃ segment ∈ c.relay.segments,segment.title = some block
  labels : ∀ buf ∈ c.relay.returned,whole buf.associated = true
  dropped : ∀ segment,c.relay.rejected = some segment → ∃ buf ∈ c.master.seen,¬Titled buf.data

theorem carried_seen {c : Chain δ} (inv : c.Inv interval own)
    (carried : Carried interval.toNat c.relay.segments metadata) :
    metadata = blankMetadata ∨ (∃ buf ∈ c.master.seen,metadata = kept buf.data) ∨ ∃ segment ∈ c.relay.segments,
    segment.title = some metadata := by
  cases carried with
  | blank same => exact .inl same
  | block original read same long =>
    have front := inv.relay.inv.prefix_.trans inv.arrived
    rcases inv.master.framed.blocks original (blocks_front front original read) with rfl | rfl | ⟨buf,seen,rfl⟩
    · exact absurd long (Nat.lt_irrefl 1)
    · exact .inl same
    · exact .inr (.inl ⟨buf,seen,same⟩)
  | title segment member set => exact .inr (.inr ⟨segment,member,set⟩)

theorem Chain.Inv.relayed {c : Chain δ} (inv : c.Inv interval own) : Relayed interval own c := by
  have audio : c.relay.audio <+: strip interval.toNat c.master.received := by
    rw [inv.relay.inv.audio,scan_strip]
    exact strip_front (inv.relay.inv.prefix_.trans inv.arrived)
  have queued : c.slave.queue.produced <+: stream c.master := by
    rw [inv.produced]
    exact audio.trans (framed_stream inv.master.framed)
  refine ⟨queued,?_,fun block member => ?_,fun buf member => ?_,fun segment rejected => ?_⟩
  · refine (framed_stream inv.slave.framed).trans ((List.prefix_append_right_inj _).mpr ?_)
    cases c.slave.client.placedAt with
    | none => exact List.prefix_rfl
    | some start => exact queued.drop start
  · rcases inv.slave.framed.blocks block member with same | same | ⟨buf,seen,rfl⟩
    · exact .inl same
    · exact .inr (.inl same)
    · exact .inr (carried_seen inv (inv.labelled.2 buf seen))
  · exact (inv.relay.labels buf member).whole inv.relay.titles
  · have refused := (inv.relay.inv.rejected segment rejected).2
    obtain ⟨block,read,long,untitled⟩ := absorbed_none _ refused
    rw [List.flatMap_append,List.flatMap_singleton] at read
    have front := (inv.relay.refused segment rejected).trans inv.arrived
    rcases inv.master.framed.blocks block (blocks_front front block read) with rfl | rfl | ⟨buf,seen,rfl⟩
    · exact absurd long (Nat.lt_irrefl 1)
    · exact absurd (show Titled blankMetadata by rfl) untitled
    · exact ⟨buf,seen,untitled⟩

-- In every run of a master, a relay of its stream and their listeners, whatever the reads
-- and writes take, the relay's listeners hear the master's source.
theorem relay_chain (positive : interval ≠ 0) (positive' : own ≠ 0) (format : m.format = some fmt)
    (format' : l.format = some fmt')
    (path : Transition.Runs (Chain.step m l) (Chain.initial source mount interval own : Chain δ) events c) :
    Relayed interval own c ∧ ∀ event,Steady m l c event → Arrives c event → ∃ d,c.step m l event d := by
  have inv : c.Inv interval own :=
    path.preserves (chain_preserves positive positive' format format') (initial_chain source mount interval own)
  refine ⟨inv.relayed,fun event steady arrives => ?_⟩
  obtain ⟨d,ran,_⟩ := chain_step inv positive positive' format format' event steady arrives
  exact ⟨d,steady,ran⟩

-- Steps with no block half sent.
def Chain.wholeNext (m l : Mount) (c : Chain δ) (event : ChainEvent) : Option (Chain δ) :=
  if half c.master.client || half c.slave.client then none else c.next m l event

theorem whole_steady {c d : Chain δ} (stepped : c.wholeNext m l event = some d) : c.step m l event d := by
  unfold Chain.wholeNext at stepped
  split at stepped
  · cases stepped
  · rename_i quiet
    rw [Bool.or_eq_true,not_or] at quiet
    refine ⟨?_,stepped⟩
    cases event with
    | master event =>
      cases event with
      | turn sends => exact fun halved => absurd halved quiet.1
      | _ => trivial
    | turn sends => exact fun halved => absurd halved quiet.2
    | _ => trivial

def song : MetaBuf := ⟨1,1::ascii "StreamTitle='a';",rfl⟩

-- One page of the master's source and its title reach a listener of the relay.
theorem relay_chain_song : ∃ c : Chain Unit,
    c.slave.received = List.replicate 1383 7++1::ascii "StreamTitle='a'"++[0] ∧ Relayed 1383 1383 c := by
  let turn := fun _ : Nat => Send.sent 2000
  have ran : (Transition.runFrom (Chain.wholeNext liveMount liveMount) (Chain.initial 0 1 1383 1383 : Chain Unit)
      [.master (.produce false (some ⟨List.replicate 1383 7,some song,true,none⟩)),
        .master (.turn turn),.master (.turn turn),
        .read titleRead 2,.turn turn,.turn turn]).map (·.slave.received) =
      some (List.replicate 1383 7++1::ascii "StreamTitle='a'"++[0]) := by decide +kernel
  obtain ⟨c,ran,same⟩ := Option.map_eq_some_iff.mp ran
  exact ⟨c,same,(relay_chain (by decide) (by decide) rfl rfl (Transition.runFrom_sound whole_steady ran)).1⟩

end Icecast.RelayChain
