import Icecast.Mp3Framing

namespace Icecast.Mp3
open IcyFormat RefHeap Linked

-- A listener with metadata and the queue it plays from. The last three fields only
-- record what it was sent since its headers, what was read of the intro for it, and the
-- metadata of the refbufs it has been at.
structure Feed (δ : Type v) where
  queue : Queue MetaBuf
  client : Listener (ClientData δ)
  received : List UInt8
  intro_ : List UInt8
  seen : List MetaBuf

-- Once format_check_http_buffer is through with it, next to an empty queue.
def Feed.initial (mount : Nat) (interval : UInt32) : Feed δ :=
  { queue := .empty mount
    client :=
      { id := 0, error := false, respcode := 200, checkBuffer := .file, writeToClient := some 0
        refbuf := .own (List.replicate perClientRefbufSize 0), pos := perClientRefbufSize, introOffset := 0
        formatData := .mp3 (Mp3ClientData.fresh interval), placedAt := none, delivered := [] }
    received := [], intro_ := [], seen := [] }

-- What source_main does to the queue, and a round of send_to_listener's loop.
inductive FeedEvent where
  | produce (zap : Bool) (page : Option (Page MetaBuf))
  | trim
  | turn (sends : Nat → Send)

def plugins : Nat → Plugin MetaBuf (ClientData δ) := fun _ => mp3Plugin

def shown (q : Queue MetaBuf) (c : Listener δ) : View MetaBuf := ((viewOf q c.refbuf).map (·.1)).getD ⟨[],none⟩

-- What the check read of the intro into the client's buffer.
def introRead (old new : Listener δ) : List UInt8 :=
  match new.refbuf with
  | .own data => if new.refbuf = old.refbuf ∧ new.pos = old.pos then [] else data.drop new.pos
  | _ => []

def Feed.next (m : Mount) (f : Feed δ) : FeedEvent → Option (Feed δ)
  | .produce zap page => (Icecast.produce f.queue zap page).map fun q => {f with queue := q}
  | .trim =>
    if f.queue.streamData.isSome then (Icecast.trim (f.queue.fresh+1) f.queue).map fun (q,_) =>
      {f with queue := q} else some f
  | .turn sends =>
    (checkBuffer m f.queue f.client ⟨false,none,sends⟩).bind fun (go,q,c) =>
    let f := {f with
      queue := q,client := c,intro_ := f.intro_++introRead f.client c,seen := f.seen++(shown q c).associated.toList}
    if go then
      (writeToClient plugins q c sends).map fun (_,e) =>
        {f with client := e,received := f.received++e.delivered.drop c.delivered.length}
    else some f

-- A block is partly sent.
def half (c : Listener (ClientData δ)) : Bool :=
  match c.formatData with
  | .mp3 d => d.1.inMetadata && decide (d.1.metadataOffset > 0)
  | _ => false

-- The part of the intro that comes next.
def introNext (m : Mount) (offset : Int) : List UInt8 :=
  if offset < 0 then [] else ((m.introFile.getD []).drop offset.toNat).take perClientRefbufSize

-- The refbuf of the queue that a listener with nothing left in its own goes on to.
def coming (m : Mount) (q : Queue MetaBuf) (c : Listener δ) : Option Nat :=
  match c.refbuf with
  | .queue _ a => (RefHeap.read q.heap a).bind fun buf => if c.pos = buf.data.length then buf.next else none
  | .own data =>
    if c.pos = data.length ∧ introNext m c.introOffset = [] ∧ q.streamDataTail.isSome then
      (startPoint q c.introOffset).join
    else none
  | .null =>
    if m.client then (startPoint q c.introOffset).join else
    if introNext m 0 = [] ∧ q.streamDataTail.isSome then (startPoint q 0).join else none

-- A listener that goes on in the middle of a block finds the same metadata there.
def Calm (m : Mount) (f : Feed δ) : FeedEvent → Prop
  | .turn _ => half f.client = true → ∀ a, coming m f.queue f.client = some a →
    (RefHeap.read f.queue.heap a).bind (·.associated) = (shown f.queue f.client).associated
  | _ => True

def Feed.step (m : Mount) (f : Feed δ) (event : FeedEvent) (g : Feed δ) : Prop := f.next m event = some g

def Feed.calmStep (m : Mount) (f : Feed δ) (event : FeedEvent) (g : Feed δ) : Prop :=
  Calm m f event ∧ f.next m event = some g

-- A block that comes whole from one metadata buffer.
def OneBuffer (seen : List MetaBuf) (block : List UInt8) : Prop :=
  block = [0] ∨ block = blankMetadata ∨ ∃ buf ∈ seen, block = buf.data

-- What the listener was sent is interval bytes of audio, a block, and so on; without the
-- blocks it is the intro and then the queue's data from where the listener was placed.
structure Framed (interval : UInt32) (f : Feed δ) : Prop where
  waiting : f.client.placedAt = none → strip interval.toNat f.received <+: f.intro_
  playing : ∀ start, f.client.placedAt = some start → ∃ audio a data tag seq,
    strip interval.toNat f.received = f.intro_++audio ∧ audio <+: f.queue.produced.drop start ∧
    f.client.refbuf = .queue f.queue.mount a ∧ f.queue.fixedAt a = some (data,tag,seq) ∧
      start+audio.length = seq+f.client.pos
  blocks : ∀ block ∈ IcyFormat.blocks interval.toNat f.received, OneBuffer f.seen block
  part : ∃ block, OneBuffer f.seen block ∧ (scan interval.toNat start f.received).1.block <+: block
  within : ∃ d, f.client.formatData = .mp3 d ∧ d.1.interval = interval ∧ d.1.sinceMetaBlock ≤ d.1.interval

variable {q r : Queue MetaBuf} {c d : Listener (ClientData δ)} {m : Mount}

def unsent (q : Queue MetaBuf) (c : Listener δ) : List UInt8 := (shown q c).data.drop c.pos

-- What a check_buffer function does to a listener past its headers.
inductive Checked (m : Mount) (q r : Queue MetaBuf) (c d : Listener δ) : Prop where
  | stays (buf : d.refbuf = c.refbuf) (pos : d.pos = c.pos) (placed : d.placedAt = c.placedAt)
  | own (spent : unsent q c = []) (origin : c.placedAt = none) (placed : d.placedAt = none) (buf : d.refbuf = .own data)
      (within : d.pos ≤ data.length) (other : ¬(d.refbuf = c.refbuf ∧ d.pos = c.pos))
  | null (spent : unsent q c = []) (origin : c.placedAt = none) (placed : d.placedAt = none)
    (buf : d.refbuf = .null) (pos : d.pos = 0)
  | place (spent : unsent q c = []) (origin : c.placedAt = none) (upcoming : coming m q c = some a)
      (buf : d.refbuf = .queue q.mount a) (pos : d.pos = 0) (here : q.fixedAt a = some (data,tag,seq))
        (placed : d.placedAt = some seq)
  | link (spent : unsent q c = []) (spot : c.refbuf = .queue q.mount b) (upcoming : coming m q c = some a)
      (buf : d.refbuf = .queue q.mount a) (pos : d.pos = 0) (placed : d.placedAt = c.placedAt)

theorem release_buf_mount {q r : Queue α} (done : q.releaseBuf buf = some r) : r.mount = q.mount := by
  cases buf with
  | queue mount a =>
    dsimp only [Queue.releaseBuf] at done
    split at done
    · obtain ⟨_,_,rfl⟩ := Option.map_eq_some_iff.mp done
      rfl
    · cases done
  | _ =>
    cases Option.some.inj done
    rfl

theorem set_queue_some {c d : Listener δ} {q r : Queue α} (set : clientSetQueue q c (some a) = some (r,d)) :
    d = {c with refbuf := .queue q.mount a,pos := 0} := by
  obtain ⟨s,held,rest⟩ := Option.bind_eq_some_iff.mp set
  obtain ⟨t,done,same⟩ := Option.map_eq_some_iff.mp rest
  obtain ⟨h,_,rfl⟩ := Option.map_eq_some_iff.mp held
  cases same
  rw [release_buf_mount done]

theorem set_queue_none {c d : Listener δ} {q r : Queue α} (set : clientSetQueue q c none = some (r,d)) :
    d = {c with refbuf := .null,pos := 0} := by
  obtain ⟨_,_,rest⟩ := Option.bind_eq_some_iff.mp set
  obtain ⟨_,_,same⟩ := Option.map_eq_some_iff.mp rest
  cases same
  rfl

-- What find_client_start does to a client.
theorem find_start_cases {c d : Listener δ} {q r : Queue α} (ran : findClientStart m q c = some (r,d)) :
    (startPoint q c.introOffset = some none ∧ d = c) ∨
    ∃ a buf, startPoint q c.introOffset = some (some a) ∧ RefHeap.read q.heap a = some buf ∧
      d = {c with
        refbuf := .queue q.mount a,pos := 0,checkBuffer := .advance,writeToClient := m.format,introOffset := -1
        placedAt := some buf.seq,delivered := []} := by
  obtain ⟨found,started,rest⟩ := Option.bind_eq_some_iff.mp ran
  cases found with
  | none =>
    cases Option.some.inj rest
    exact .inl ⟨started,rfl⟩
  | some a =>
    obtain ⟨f,format,rest⟩ := Option.bind_eq_some_iff.mp rest
    obtain ⟨buf,found,rest⟩ := Option.bind_eq_some_iff.mp rest
    obtain ⟨⟨s,e⟩,set,same⟩ := Option.map_eq_some_iff.mp rest
    cases same
    rw [set_queue_some set,format]
    exact .inr ⟨a,buf,started,found,rfl⟩

theorem advance_cases {c d : Listener δ} {q r : Queue α} (ran : formatAdvanceQueue q c = some (go,r,d)) :
    d = c ∨ ∃ view next, viewOf q c.refbuf = some (view,some next) ∧ c.pos = view.data.length ∧
      d = {c with refbuf := .queue q.mount next,pos := 0} := by
  unfold formatAdvanceQueue at ran
  split at ran
  · cases Option.some.inj ran
    exact .inl rfl
  · obtain ⟨⟨view,link⟩,seen,rest⟩ := Option.bind_eq_some_iff.mp ran
    dsimp only at rest
    split at rest
    · rename_i ended
      cases link with
      | none =>
        cases Option.some.inj rest
        exact .inl rfl
      | some next =>
        obtain ⟨⟨s,e⟩,set,same⟩ := Option.map_eq_some_iff.mp rest
        cases same
        exact .inr ⟨view,next,seen,ended,set_queue_some set⟩
    · cases Option.some.inj rest
      exact .inl rfl

theorem file_cases {c d : Listener δ} {q r : Queue α} (ran : fileBuffer m q c data = some (go,r,d)) :
    (d.refbuf = c.refbuf ∧ d.pos = c.pos ∧ d = {c with introOffset := d.introOffset}) ∨
    (c.pos = data.length ∧ ∃ bytes offset, bytes ≠ [] ∧
      d = {c with refbuf := .own bytes,pos := 0,introOffset := offset}) ∨
    (c.pos = data.length ∧ introNext m c.introOffset = [] ∧ q.streamDataTail.isSome ∧ ∃ s e,
      clientSetQueue q c none = some (s,{c with refbuf := .null,pos := 0}) ∧ e = {c with refbuf := .null,pos := 0} ∧
      findClientStart m s e = some (r,d)) := by
  unfold fileBuffer at ran
  split at ran
  · rename_i ended
    dsimp only at ran
    generalize read : (if c.introOffset < 0 then [] else
      ((m.introFile.getD []).drop c.introOffset.toNat).take perClientRefbufSize) = bytes at ran
    split at ran
    · rename_i more
      cases Option.some.inj ran
      exact .inr (.inl ⟨ended,_,_,more,rfl⟩)
    · rename_i empty
      split at ran
      · rename_i tail
        obtain ⟨⟨s,e⟩,set,rest⟩ := Option.bind_eq_some_iff.mp ran
        obtain ⟨⟨t,g⟩,found,same⟩ := Option.map_eq_some_iff.mp rest
        cases same
        have eq := set_queue_none set
        exact .inr (.inr ⟨ended,read.trans (not_not.mp empty),tail,s,e,eq ▸ set,eq,found⟩)
      · cases Option.some.inj ran
        exact .inl ⟨rfl,rfl,rfl⟩
  · cases Option.some.inj ran
    exact .inl ⟨rfl,rfl,rfl⟩

-- What a check leaves alone.
structure Same (m : Mount) (c d : Listener δ) : Prop where
  data : d.formatData = c.formatData
  playing : d.checkBuffer ≠ .http
  writer : d.writeToClient = c.writeToClient ∨ d.writeToClient = m.format

theorem unsent_own {c : Listener δ} (own : c.refbuf = .own data) (ended : c.pos = data.length) : unsent q c = [] := by
  simp [unsent,shown,viewOf,own,ended]

theorem unsent_null {c : Listener δ} (null : c.refbuf = .null) : unsent q c = [] := by
  simp [unsent,shown,viewOf,null]

-- find_client_start on a client that holds no refbuf of the queue.
theorem Checked.start {c e d : Listener δ} (ran : findClientStart m q e = some (r,d))
    (null : e.refbuf = .null) (zero : e.pos = 0)
    (spent : unsent q c = []) (origin : c.placedAt = none) (same : e.placedAt = c.placedAt)
    (file : e.checkBuffer ≠ .http)
    (upcoming : ∀ a, startPoint q e.introOffset = some (some a) → coming m q c = some a) :
    Checked m q r c d ∧ Same m e d := by
  rcases find_start_cases ran with ⟨_,rfl⟩ | ⟨a,buf,started,found,rfl⟩
  · exact ⟨.null spent origin (same.trans origin) null zero,rfl,file,.inl rfl⟩
  · have here : q.fixedAt a = some (buf.data,buf.associated,buf.seq) := by rw [Queue.fixedAt,found]; rfl
    exact ⟨.place spent origin (upcoming a started) rfl rfl here rfl,rfl,by rintro ⟨⟩,.inr rfl⟩

theorem check_file {c d : Listener δ} (ran : formatCheckFileBuffer m q c = some (go,r,d)) (file : c.checkBuffer = .file)
    (zero : c.refbuf = .null → c.pos = 0) (origin : c.placedAt = none) : Checked m q r c d ∧ Same m c d := by
  have playing : c.checkBuffer ≠ .http := by simp [file]
  unfold formatCheckFileBuffer at ran
  cases buf : c.refbuf with
  | queue mount a => simp [buf] at ran
  | own data =>
    simp only [buf] at ran
    rcases file_cases ran with ⟨same,pos,rest⟩ | ⟨ended,bytes,offset,more,rfl⟩ | ⟨ended,empty,tail,s,e,set,rfl,found⟩
    · refine ⟨.stays same pos (by rw [rest]),by rw [rest],by rw [rest]; exact playing,.inl (by rw [rest])⟩
    · refine ⟨.own (unsent_own buf ended) origin origin rfl (Nat.zero_le _) ?_,rfl,playing,.inl rfl⟩
      rintro ⟨same,pos⟩
      rw [buf] at same
      cases same
      dsimp only at pos
      exact more (List.length_eq_zero_iff.mp (ended.symm.trans pos.symm))
    · have kept : s = q := by
        simp [clientSetQueue,Queue.releaseBuf,buf] at set
        exact set.symm
      rw [kept] at found
      obtain ⟨checked,same⟩ := Checked.start (c := c) found rfl rfl
        (unsent_own buf ended) origin rfl playing fun a started => by
        simp only [coming,buf]
        rw [if_pos ⟨ended,empty,tail⟩]
        exact congrArg Option.join started
      exact ⟨checked,same.data,same.playing,same.writer⟩
  | null =>
    simp only [buf] at ran
    split at ran
    · rename_i client
      obtain ⟨⟨s,e⟩,found,same⟩ := Option.map_eq_some_iff.mp ran
      cases same
      refine Checked.start (c := c) found buf (zero buf) (unsent_null buf) origin rfl playing fun a started => ?_
      simp only [coming,buf,if_pos client]
      exact congrArg Option.join started
    · rename_i client
      rcases file_cases ran with ⟨same,pos,rest⟩ | ⟨ended,bytes,offset,more,rfl⟩ | ⟨ended,empty,tail,s,e,set,rfl,found⟩
      · refine ⟨.own (unsent_null buf) origin (by rw [rest]; exact origin) same (Nat.le_of_eq pos) ?_,by rw [rest],
          by rw [rest]; exact playing,.inl (by rw [rest])⟩
        rintro ⟨other,_⟩
        rw [buf,same] at other
        cases other
      · refine ⟨.own (unsent_null buf) origin origin rfl (Nat.zero_le _) ?_,rfl,playing,.inl rfl⟩
        rintro ⟨other,_⟩
        rw [buf] at other
        cases other
      · have kept : s = q := by
          simp [clientSetQueue,Queue.releaseBuf] at set
          exact set.symm
        rw [kept] at found
        obtain ⟨checked,same⟩ := Checked.start (c := c) found rfl rfl
          (unsent_null buf) origin rfl playing fun a started => by
          simp only [coming,buf,if_neg client]
          rw [if_pos ⟨empty,tail⟩]
          exact congrArg Option.join started
        exact ⟨checked,same.data,same.playing,same.writer⟩

theorem check_advance {c d : Listener δ} (ran : formatAdvanceQueue q c = some (go,r,d))
    (advance : c.checkBuffer = .advance) :
    Checked m q r c d ∧ Same m c d := by
  have playing : c.checkBuffer ≠ .http := by simp [advance]
  rcases advance_cases ran with rfl | ⟨view,next,seen,ended,rfl⟩
  · exact ⟨.stays rfl rfl rfl,rfl,playing,.inl rfl⟩
  · cases buf : c.refbuf with
    | null => simp [buf,viewOf] at seen
    | own data => simp [buf,viewOf] at seen
    | queue mount b =>
      rw [buf,viewOf] at seen
      split at seen
      · rename_i home
        obtain ⟨cell,found,same⟩ := Option.map_eq_some_iff.mp seen
        obtain ⟨rfl,link⟩ := Prod.mk.inj same
        subst home
        refine ⟨.link ?_ buf ?_ rfl rfl rfl,rfl,playing,.inl rfl⟩
        · simp [unsent,shown,buf,viewOf,found,ended]
        · simp only [coming,buf,found,Option.bind_some]
          rw [if_pos ended,link]
      · cases seen

-- Where a listener stands once it has heard the audio given.
structure Stands (f : Feed δ) (heard : List UInt8) : Prop where
  waiting : f.client.placedAt = none → heard++unsent f.queue f.client = f.intro_
  playing : ∀ start, f.client.placedAt = some start → ∃ audio a data tag seq, heard = f.intro_++audio ∧
    audio <+: f.queue.produced.drop start ∧ f.client.refbuf = .queue f.queue.mount a ∧
    f.queue.fixedAt a = some (data,tag,seq) ∧ start+audio.length = seq+f.client.pos

-- A feed between two steps.
structure Feed.Inv (interval : UInt32) (f : Feed δ) : Prop where
  served : ∃ before window, Served plugins f.queue [] before window f.client
  playing : f.client.checkBuffer ≠ .http
  writer : f.client.writeToClient ≠ none
  null : f.client.refbuf = .null → f.client.pos = 0
  within : f.client.pos ≤ (shown f.queue f.client).data.length
  seen : ∀ buf, (shown f.queue f.client).associated = some buf → buf ∈ f.seen
  heard : ∃ d s items, f.client.formatData = .mp3 d ∧ d.1.interval = interval ∧
    scan interval.toNat start f.received = (s,items) ∧
    Link d.1 (shown f.queue f.client).associated s ∧ (∀ block ∈ blocksOf items, OneBuffer f.seen block) ∧
      Stands f (audioOf items)

theorem shown_eq {c : Listener δ} (mount : r.mount = q.mount) (fixed : ∀ a ∈ c.refbuf.refs, r.fixedAt a = q.fixedAt a) :
    shown r c = shown q c := by
  cases buf : c.refbuf with
  | queue m a =>
    have here := fixed a (by simp [buf,ClientBuf.refs])
    unfold Queue.fixedAt at here
    simp only [shown,viewOf,buf,mount]
    split
    · cases left : RefHeap.read r.heap a <;> cases right : RefHeap.read q.heap a <;> simp_all
    · rfl
  | _ => simp [shown,viewOf,buf]

theorem shown_free {c : Listener δ} (free : c.refbuf.refs = []) : (shown q c).associated = none := by
  cases buf : c.refbuf with
  | queue m a => simp [buf,ClientBuf.refs] at free
  | _ => simp [shown,viewOf,buf]

theorem shown_at {c : Listener δ} (held : c.refbuf = .queue q.mount a) (here : q.fixedAt a = some (data,tag,seq)) :
    shown q c = ⟨data,tag⟩ := by
  obtain ⟨buf,found,same⟩ := Option.map_eq_some_iff.mp here
  cases same
  simp [shown,viewOf,held,found]

theorem shown_associated {c : Listener δ} (held : c.refbuf = .queue q.mount a) :
    (shown q c).associated = (RefHeap.read q.heap a).bind (·.associated) := by
  cases found : RefHeap.read q.heap a <;> simp [shown,viewOf,held,found]

theorem Feed.Inv.requeue {f : Feed δ} (inv : f.Inv interval)
    (served : ∃ before window, Served plugins r [] before window f.client)
    (mount : r.mount = f.queue.mount) (produced : r.produced = f.queue.produced++more)
    (fixed : ∀ a ∈ f.client.refbuf.refs, r.fixedAt a = f.queue.fixedAt a) : Feed.Inv interval {f with queue := r} := by
  have same := shown_eq mount fixed
  obtain ⟨d,s,items,data,equal,scanned,link,blocks,stands⟩ := inv.heard
  refine ⟨served,inv.playing,inv.writer,inv.null,?_,?_,d,s,items,data,equal,scanned,?_,blocks,?_,?_⟩
  · exact same ▸ inv.within
  · exact same ▸ inv.seen
  · exact same ▸ link
  · intro placed
    simpa [unsent,same] using stands.waiting placed
  · intro start placed
    obtain ⟨audio,a,data,tag,seq,split,front,held,here,spot⟩ := stands.playing start placed
    refine ⟨audio,a,data,tag,seq,split,?_,by rw [mount]; exact held,?_,spot⟩
    · rw [produced,List.drop_append]
      exact front.trans (List.prefix_append _ _)
    · exact (fixed a (by simp [held,ClientBuf.refs])).trans here

theorem produce_feed {f : Feed δ} (inv : f.Inv interval) (zap : Bool) (page : Option (Page MetaBuf)) :
    ∃ g, f.next m (.produce zap page) = some g ∧ g.Inv interval := by
  obtain ⟨before,window,served⟩ := inv.served
  obtain ⟨r,moved,rest,added,made,queue,cells,adds,mount,fixed⟩ := served.queue.produce zap page
  have held : ∀ a ∈ f.client.refbuf.refs, r.fixedAt a = f.queue.fixedAt a := fun a member =>
    fixed a (served.inside a member)
  obtain ⟨start,contents⟩ := served.contents
  obtain ⟨more,produced⟩ := adds.more
  refine ⟨{f with queue := r},
    by simp [Feed.next,made],inv.requeue ⟨moved,rest,queue,⟨start,?_⟩,?_,?_⟩ mount produced held⟩
  · exact cells ▸ adds.contents contents fixed
  · exact mount ▸ served.ok
  · exact served.follows.same produced held

theorem trim_feed {f : Feed δ} (inv : f.Inv interval) : ∃ g, f.next m .trim = some g ∧ g.Inv interval := by
  obtain ⟨before,window,served⟩ := inv.served
  by_cases some_left : f.queue.streamData.isSome = true
  · have nonempty : before++window ≠ [] := by
      intro empty
      have head := served.queue.chain.head
      rw [empty,List.head?_nil] at head
      simp [head] at some_left
    have short := served.queue.length_le
    rw [List.length_append] at short
    obtain ⟨r,dropped,rest,ran,split,trimmed,fixed,_,mount,produced⟩ :=
      served.queue.trim nonempty (show before.length < f.queue.fresh+1 by omega)
    have held : ∀ a ∈ f.client.refbuf.refs, r.fixedAt a = f.queue.fixedAt a := by
      intro a member
      exact fixed a (trimmed.inside a (List.mem_append_left _ (List.mem_append_left _ member)))
    have same : r.produced = f.queue.produced++[] := by rw [produced,List.append_nil]
    obtain ⟨start,contents⟩ := served.contents
    rw [split,List.append_assoc] at contents
    obtain ⟨later,contents⟩ := contents.suffix
    refine ⟨{f with queue := r},
      by simp [Feed.next,some_left,ran],inv.requeue ⟨rest,window,trimmed,⟨later,?_⟩,?_,?_⟩ mount same held⟩
    · exact contents.congr fixed produced
    · exact mount ▸ served.ok
    · exact served.follows.same same held
  · exact ⟨f,by simp [Feed.next,some_left],inv⟩

theorem Link.moves {d : Mp3ClientData} (link : Link d tag s) (calm : d.inMetadata = true →
    0 < d.metadataOffset → other = tag) :
    Link d other s := by
  rcases link with idle | ⟨busy,due⟩
  · exact .inl idle
  · by_cases begun : 0 < d.metadataOffset
    · exact calm busy begun ▸ .inr ⟨busy,due⟩
    · have zero : d.metadataOffset = 0 := by omega
      obtain ⟨first,_,length⟩ := whole_length (metadataBlock_whole d other)
      refine .inr ⟨busy,due.since,?_,?_⟩
      · rw [zero,length,blockLen]
        omega
      · simpa [zero] using due.scan

theorem OneBuffer.mono (one : OneBuffer seen block) (more : List MetaBuf) : OneBuffer (seen++more) block := by
  rcases one with zero | blank | ⟨buf,member,same⟩
  · exact .inl zero
  · exact .inr (.inl blank)
  · exact .inr (.inr ⟨buf,List.mem_append_left _ member,same⟩)

theorem BlockOf.one (read : BlockOf tag block) (seen : ∀ buf, tag = some buf → buf ∈ all) : OneBuffer all block := by
  rcases read with zero | blank | ⟨buf,same,data⟩
  · exact .inl zero
  · exact .inr (.inl blank)
  · exact .inr (.inr ⟨buf,seen buf same,data⟩)

def Feed.checked (f : Feed δ) (r : Queue MetaBuf) (d : Listener (ClientData δ)) : Feed δ :=
  {f with
    queue := r,client := d,intro_ := f.intro_++introRead f.client d,seen := f.seen++(shown r d).associated.toList}

theorem half_of {c : Listener (ClientData δ)} (data : c.formatData = .mp3 e) (busy : e.1.inMetadata = true)
    (begun : 0 < e.1.metadataOffset) : half c = true := by simp [half,data,busy,begun]

theorem Feed.Inv.checked {f : Feed δ} (inv : f.Inv interval)
    (served : ∃ before window, Served plugins r [] before window d)
    (same : Same m f.client d) (format : m.format ≠ none) (null : d.refbuf = .null → d.pos = 0)
    (within : d.pos ≤ (shown r d).data.length)
    (calm : half f.client = true → (shown r d).associated = (shown f.queue f.client).associated)
    (stands : ∀ heard, Stands f heard → Stands (f.checked r d) heard) : (f.checked r d).Inv interval := by
  obtain ⟨data,s,items,shape,equal,scanned,link,blocks,stood⟩ := inv.heard
  refine ⟨served,same.playing,?_,null,within,?_,data,s,items,same.data.trans shape,equal,scanned,?_,?_,stands _ stood⟩
  · rcases same.writer with kept | set
    · exact kept ▸ inv.writer
    · exact set ▸ format
  · intro buf held
    exact List.mem_append_right _ (Option.mem_toList.mpr held)
  · exact link.moves fun busy begun => calm (half_of shape busy begun)
  · exact fun block member => (blocks block member).mono _

theorem coming_next {c : Listener δ} (held : c.refbuf = .queue q.mount b) (upcoming : coming m q c = some a) :
    q.next b = some (some a) := by
  simp only [coming,held] at upcoming
  obtain ⟨cell,found,rest⟩ := Option.bind_eq_some_iff.mp upcoming
  split at rest
  · rw [Queue.next,found,Option.map_some,rest]
  · cases rest

theorem sent_whole {c : Listener δ} (held : c.refbuf = .queue q.mount b) (here : q.fixedAt b = some (data,tag,seq))
    (within : c.pos ≤ (shown q c).data.length) (spent : unsent q c = []) : c.pos = data.length := by
  have shows := shown_at held here
  rw [shows] at within
  rw [unsent,shows] at spent
  exact Nat.le_antisymm within (List.drop_eq_nil_iff.mp spent)

theorem Stands.stay {f : Feed δ} {d : Listener (ClientData δ)} (stood : Stands f heard)
    (buf : d.refbuf = f.client.refbuf) (pos : d.pos = f.client.pos)
    (placed : d.placedAt = f.client.placedAt) (mount : r.mount = f.queue.mount)
    (produced : r.produced = f.queue.produced)
    (shows : shown r d = shown f.queue f.client)
    (fixed : ∀ a ∈ f.client.refbuf.refs, r.fixedAt a = f.queue.fixedAt a) : Stands (f.checked r d) heard := by
  have nothing : introRead f.client d = [] := by
    unfold introRead
    split <;> simp [buf,pos]
  refine ⟨?_,?_⟩
  · intro unplaced
    have before := stood.waiting (placed ▸ unplaced)
    simpa [Feed.checked,nothing,unsent,shows,pos] using before
  · intro start spot
    obtain ⟨audio,a,data,tag,seq,split,front,held,here,count⟩ := stood.playing start (placed ▸ spot)
    have member : a ∈ f.client.refbuf.refs := by simp [held,ClientBuf.refs]
    refine ⟨audio,a,data,tag,seq,?_,?_,?_,(fixed a member).trans here,?_⟩
    · simpa [Feed.checked,nothing] using split
    · simpa [Feed.checked,produced] using front
    · simpa [Feed.checked,mount,buf] using held
    · simpa [Feed.checked,pos] using count

theorem Stands.wait {f : Feed δ} {d : Listener (ClientData δ)} (stood : Stands f heard)
    (spent : unsent f.queue f.client = [])
    (origin : f.client.placedAt = none) (placed : d.placedAt = none) (read : introRead f.client d = unsent r d) :
    Stands (f.checked r d) heard := by
  refine ⟨?_,?_⟩
  · intro _
    have all := stood.waiting origin
    rw [spent,List.append_nil] at all
    rw [all]
    exact congrArg (f.intro_++·) read.symm
  · intro start spot
    cases placed.symm.trans spot

theorem Stands.place {f : Feed δ} {d : Listener (ClientData δ)} (stood : Stands f heard)
    (spent : unsent f.queue f.client = [])
    (origin : f.client.placedAt = none) (buf : d.refbuf = .queue f.queue.mount a) (pos : d.pos = 0)
    (placed : d.placedAt = some seq)
    (mount : r.mount = f.queue.mount) (here : r.fixedAt a = some (data,tag,seq)) : Stands (f.checked r d) heard := by
  refine ⟨?_,?_⟩
  · intro unplaced
    cases placed.symm.trans unplaced
  · intro start spot
    cases placed.symm.trans spot
    have all := stood.waiting origin
    rw [spent,List.append_nil] at all
    refine ⟨[],a,data,tag,seq,?_,List.nil_prefix,?_,here,?_⟩
    · simp [Feed.checked,introRead,buf,all]
    · simp [Feed.checked,buf,mount]
    · simp [Feed.checked,pos]

theorem Stands.move {f : Feed δ} {d : Listener (ClientData δ)} (stood : Stands f heard)
    (spot : f.client.refbuf = .queue f.queue.mount b)
    (some_place : f.client.placedAt ≠ none) (buf : d.refbuf = .queue f.queue.mount a) (pos : d.pos = 0)
    (placed : d.placedAt = f.client.placedAt)
    (mount : r.mount = f.queue.mount) (produced : r.produced = f.queue.produced)
    (there : ∀ data tag seq, f.queue.fixedAt b = some (data,tag,seq) → f.client.pos = data.length ∧
    ∃ more tag', r.fixedAt a = some (more,tag',seq+data.length)) :
    Stands (f.checked r d) heard := by
  refine ⟨?_,?_⟩
  · intro unplaced
    exact absurd (placed.symm.trans unplaced) some_place
  · intro start begun
    obtain ⟨audio,b',data,tag,seq,split,front,held,here,count⟩ := stood.playing start (placed ▸ begun)
    cases spot.symm.trans held
    obtain ⟨ended,more,tag',next⟩ := there data tag seq here
    refine ⟨audio,a,more,tag',seq+data.length,?_,?_,?_,next,?_⟩
    · simpa [Feed.checked,introRead,buf] using split
    · simpa [Feed.checked,produced] using front
    · simp [Feed.checked,buf,mount]
    · simp only [Feed.checked,pos]
      omega

theorem check_feed {f : Feed δ} (inv : f.Inv interval) (format : m.format = some fmt) (sends : Nat → Send)
    (calm : Calm m f (.turn sends)) :
    ∃ go r d, checkBuffer m f.queue f.client ⟨false,none,sends⟩ = some (go,r,d) ∧ (f.checked r d).Inv interval ∧
      (go = true → ∃ view next, viewOf r d.refbuf = some (view,next)) := by
  obtain ⟨before,window,served⟩ := inv.served
  obtain ⟨go,r,d,ran,kept,next,visible⟩ := served.checkBuffer format (⟨false,none,sends⟩ : Turn (ClientData δ))
  refine ⟨go,r,d,ran,?_,visible⟩
  have mount := kept.mount
  have produced : r.produced = f.queue.produced := by
    obtain ⟨h,rfl,_⟩ := kept
    rfl
  have fixed : ∀ a ∈ before++window, r.fixedAt a = f.queue.fixedAt a := by
    obtain ⟨h,rfl,same⟩ := kept
    exact fun a member => congrArg (Option.map _) (same a member)
  obtain ⟨checked,same⟩ : Checked m f.queue r f.client d ∧ Same m f.client d := by
    unfold checkBuffer at ran
    cases check : f.client.checkBuffer with
    | http => exact absurd check inv.playing
    | file =>
      rw [check] at ran
      exact check_file ran check inv.null (served.ok.other (by simp [check])).2
    | advance =>
      rw [check] at ran
      exact check_advance ran check
  have some_format : m.format ≠ none := by simp [format]
  have calm_at : ∀ {a}, d.refbuf = .queue f.queue.mount a → coming m f.queue f.client = some a → half f.client = true →
      (shown r d).associated = (shown f.queue f.client).associated := by
    intro a held upcoming halved
    have member : a ∈ before++window := next.inside a (by simp [held,ClientBuf.refs])
    rw [←calm halved a upcoming,shown_associated (held.trans (by rw [mount]))]
    obtain ⟨h,rfl,reads⟩ := kept
    rw [reads a member]
  -- a client that was not placed holds no refbuf of the queue
  have idle : f.client.placedAt = none → f.client.refbuf.refs = [] := by
    intro unplaced
    by_cases advance : f.client.checkBuffer = .advance
    · obtain ⟨_,_,_,placed⟩ := served.ok.advance advance
      simp [unplaced] at placed
    · exact (served.ok.other advance).1
  have free : f.client.placedAt = none → (shown f.queue f.client).associated = none := fun unplaced =>
    shown_free (idle unplaced)
  cases checked with
  | stays buf pos placed =>
    have shows : shown r d = shown f.queue f.client := by
      have := shown_eq (c := d) mount fun a member => fixed a (served.inside a (buf ▸ member))
      rw [this]
      simp [shown,buf]
    refine inv.checked ⟨before,window,next⟩ same some_format ?_ ?_ ?_ ?_
    · exact fun null => pos.trans (inv.null (buf ▸ null))
    · exact shows ▸ pos ▸ inv.within
    · exact fun _ => congrArg _ shows
    · exact fun heard stood => stood.stay buf pos placed mount produced shows fun a member =>
        fixed a (served.inside a member)
  | @own data spent origin placed buf within other =>
    have shows : shown r d = ⟨data,none⟩ := by simp [shown,viewOf,buf]
    have read : introRead f.client d = unsent r d := by
      rw [introRead,buf]
      dsimp only
      rw [if_neg (buf ▸ other),unsent,shows]
    refine inv.checked ⟨before,window,next⟩ same some_format ?_ ?_ ?_ fun heard stood =>
      stood.wait spent origin placed read
    · simp [buf]
    · simpa [shows] using within
    · intro _
      rw [shows,free origin]
  | null spent origin placed buf pos =>
    have shows : shown r d = ⟨[],none⟩ := by simp [shown,viewOf,buf]
    have read : introRead f.client d = unsent r d := by simp [unsent,shows,introRead,buf]
    refine inv.checked ⟨before,window,next⟩ same some_format ?_ ?_ ?_ fun heard stood =>
      stood.wait spent origin placed read
    · exact fun _ => pos
    · simp [shows,pos]
    · intro _
      rw [shows,free origin]
  | @place a data tag seq spent origin upcoming buf pos here placed =>
    have member : a ∈ before++window := next.inside a (by simp [buf,ClientBuf.refs])
    refine inv.checked ⟨before,window,next⟩ same some_format ?_ ?_ ?_ ?_
    · simp [buf]
    · simp [pos]
    · exact calm_at buf upcoming
    · exact fun heard stood => stood.place spent origin buf pos placed mount ((fixed a member).trans here)
  | @link b a spent spot upcoming buf pos placed =>
    have member : a ∈ before++window := next.inside a (by simp [buf,ClientBuf.refs])
    have some_place : f.client.placedAt ≠ none := by
      intro unplaced
      have none_held := idle unplaced
      simp [spot,ClientBuf.refs] at none_held
    refine inv.checked ⟨before,window,next⟩ same some_format ?_ ?_ ?_ ?_
    · simp [buf]
    · simp [pos]
    · exact calm_at buf upcoming
    · refine fun heard stood => stood.move spot some_place buf pos placed mount produced fun data tag seq here => ?_
      obtain ⟨first,contents⟩ := served.contents
      have listed : b ∈ before++window := served.inside b (by simp [spot,ClientBuf.refs])
      obtain ⟨_,more,tag',there⟩ := contents.linked served.queue.chain listed (coming_next spot upcoming) here
      exact ⟨sent_whole spot here inv.within spent,more,tag',(fixed a member).trans there⟩

-- The client after a write.
def wrote (c : Listener (ClientData δ)) (w : Writing) (ok : w.data.Ok) : Listener (ClientData δ) :=
  {c with pos := w.pos,error := c.error || w.error,formatData := .mp3 ⟨w.data,ok⟩,delivered := c.delivered++w.bytes}

theorem Stands.sent {f : Feed δ} {e : Listener (ClientData δ)} (stood : Stands f heard)
    (served : Served plugins f.queue [] before window f.client)
    (buf : e.refbuf = f.client.refbuf) (same : e.placedAt = f.client.placedAt) (forward : f.client.pos ≤ e.pos)
    (short : e.pos ≤ (shown f.queue f.client).data.length) (received : List UInt8) :
    Stands {f with client := e,received := received}
    (heard++((shown f.queue f.client).data.drop f.client.pos).take (e.pos-f.client.pos)) := by
  have shows : shown f.queue e = shown f.queue f.client := by simp [shown,buf]
  refine ⟨?_,?_⟩
  · intro unplaced
    have all := stood.waiting (same.symm.trans unplaced)
    rw [unsent,shows,List.append_assoc]
    dsimp only
    rw [←all,unsent]
    congr 1
    rw [show (shown f.queue f.client).data.drop e.pos = ((shown f.queue f.client).data.drop f.client.pos).drop
      (e.pos-f.client.pos) by
      rw [List.drop_drop,Nat.add_sub_cancel' forward],List.take_append_drop]
  · intro start placed
    obtain ⟨audio,a,bytes,tag,seq,split,front,held,here,count⟩ := stood.playing start (same.symm.trans placed)
    have spot := shown_at held here
    rw [spot] at short ⊢
    dsimp only at short ⊢
    obtain ⟨first,contents⟩ := served.contents
    have listed : a ∈ before++window := served.inside a (by simp [held,ClientBuf.refs])
    obtain ⟨data,tag_too,seq_too,here_too,whole⟩ := contents.data_at listed
    cases Option.some.inj (here.symm.trans here_too)
    refine ⟨audio++(bytes.drop f.client.pos).take (e.pos-f.client.pos),a,bytes,tag,seq,?_,?_,buf.trans held,here,?_⟩
    · rw [split,List.append_assoc]
    · apply prefix_extend front
      rw [List.drop_drop,count]
      have rest : bytes.drop f.client.pos = ((f.queue.produced.drop seq).drop f.client.pos).take
        (bytes.length-f.client.pos) := by
        rw [←List.drop_take,whole]
      rw [rest,List.drop_drop,List.take_take]
      exact List.take_prefix _ _
    · simp only [List.length_append,List.length_take,List.length_drop]
      omega

theorem write_feed {f : Feed δ} (inv : f.Inv interval) (positive : interval ≠ 0) (sends : Nat → Send)
    (seen : viewOf f.queue f.client.refbuf = some (view,next)) :
    ∃ ret e, writeToClient plugins f.queue f.client sends = some (ret,e) ∧
      Feed.Inv interval {f with client := e,received := f.received++e.delivered.drop f.client.delivered.length} := by
  obtain ⟨before,window,served⟩ := inv.served
  obtain ⟨data,s,items,shape,equal,scanned,link,blocks,stood⟩ := inv.heard
  have shows : shown f.queue f.client = view := by simp [shown,seen]
  have within := inv.within
  rw [shows] at link within
  obtain ⟨w,t,written,progress,after⟩ := write_progress link (by rw [equal]; exact positive) within sends
  have ok : w.data.Ok := (write_ok written data.2).2
  have client := writeMp3_eq (δ := δ) data written ok
  obtain ⟨write,set⟩ := Option.ne_none_iff_exists'.mp inv.writer
  have done : writeToClient plugins f.queue f.client sends = some (w.done.ret,wrote f.client w ok) := by
    have function : writeFunction plugins f.client.writeToClient =
      (mp3Plugin (δ := δ)).writeBufToClient := by rw [set]; rfl
    have stays : handOver (plugins (δ := δ)) f.client = f.client := by rw [handOver,set]; rfl
    rw [writeToClient,seen,Option.bind_some]
    dsimp only
    rw [stays,function,shape]
    exact congrArg (Option.map _) client
  have later : shown f.queue (wrote f.client w ok) = view := shows
  obtain ⟨more,sent,bytes,scanned_too,whole,audio⟩ := progress.sent
  have forward := progress.forward
  have short := progress.short
  dsimp only at bytes forward audio
  rw [List.nil_append] at bytes
  refine ⟨_,_,done,⟨before,window,served.write done⟩,inv.playing,inv.writer,?_,?_,?_,⟨w.data,ok⟩,t,items++sent,rfl,
    progress.interval.trans equal,?_,?_,?_,?_⟩
  · intro null
    have held : f.client.refbuf = .null := null
    simp [held,viewOf] at seen
  · rw [later]
    exact short
  · rw [later]
    exact shows ▸ inv.seen
  · dsimp only [wrote]
    rw [List.drop_left,scan_append,scanned,bytes]
    rw [equal] at scanned_too
    dsimp only
    rw [scanned_too]
  · rw [later]
    exact after
  · intro block member
    rw [blocksOf_append] at member
    rcases List.mem_append.mp member with old | new
    · exact blocks block old
    · exact (whole block new).one (shows ▸ inv.seen)
  · rw [audioOf_append,audio,←shows]
    exact stood.sent (e := wrote f.client w ok) served rfl rfl forward (shows.symm ▸ short) _

theorem turn_feed {f : Feed δ} (inv : f.Inv interval) (positive : interval ≠ 0) (format : m.format = some fmt)
    (sends : Nat → Send) (calm : Calm m f (.turn sends)) : ∃ g, f.next m (.turn sends) = some g ∧ g.Inv interval := by
  obtain ⟨go,r,d,checked,after,visible⟩ := check_feed inv format sends calm
  unfold Feed.next
  dsimp only
  rw [checked,Option.bind_some]
  dsimp only
  cases go with
  | false => exact ⟨f.checked r d,rfl,after⟩
  | true =>
    obtain ⟨view,next,seen⟩ := visible rfl
    obtain ⟨ret,e,written,final⟩ := write_feed after positive sends seen
    rw [if_pos rfl]
    dsimp only [Feed.checked] at written
    rw [written]
    exact ⟨_,rfl,final⟩

theorem initial_feed (mount : Nat) (interval : UInt32) : (Feed.initial mount interval : Feed δ).Inv interval where
  served := ⟨[],[],{
    queue := empty_inv mount
    contents := ⟨0,rfl⟩
    ok := ⟨by rintro ⟨⟩,fun _ => ⟨rfl,rfl⟩,by rintro ⟨⟩⟩
    follows := .unplaced rfl }⟩
  playing := by rintro ⟨⟩
  writer := by rintro ⟨⟩
  null := by rintro ⟨⟩
  within := by simp [shown,viewOf,Feed.initial]
  seen := by simp [shown,viewOf,Feed.initial]
  heard := by
    refine ⟨Mp3ClientData.fresh interval,start,[],rfl,rfl,rfl,.inl ⟨rfl,rfl,?_,rfl⟩,by rintro _ ⟨⟩,?_,by rintro _ ⟨⟩⟩
    · exact UInt32.le_iff_toNat_le.mpr (Nat.zero_le _)
    · simp [unsent,shown,viewOf,Feed.initial]

theorem step_feed {f : Feed δ} (inv : f.Inv interval) (positive : interval ≠ 0) (format : m.format = some fmt)
    (event : FeedEvent) (calm : Calm m f event) : ∃ g, f.next m event = some g ∧ g.Inv interval := by
  cases event with
  | produce zap page => exact produce_feed inv zap page
  | trim => exact trim_feed inv
  | turn sends => exact turn_feed inv positive format sends calm

theorem Feed.Inv.framed {f : Feed δ} (inv : f.Inv interval) : Framed interval f := by
  obtain ⟨data,s,items,shape,equal,scanned,link,blocks,stands⟩ := inv.heard
  have audio : audioOf items = strip interval.toNat f.received := by rw [←scan_strip,scanned]
  refine ⟨?_,?_,?_,?_,data,shape,equal,?_⟩
  · intro unplaced
    exact ⟨_,by rw [←audio]; exact stands.waiting unplaced⟩
  · intro start placed
    rw [←audio]
    exact stands.playing start placed
  · intro block member
    rw [←scan_blocks,scanned] at member
    exact blocks block member
  · rw [scanned]
    rcases link with idle | ⟨_,due⟩
    · exact ⟨[0],.inl rfl,by rw [idle.scan]; exact List.nil_prefix⟩
    · refine ⟨metadataBlock data.1 _,(metadataBlock_of _ _).one inv.seen,?_⟩
      rw [due.scan]
      exact List.take_prefix _ _
  · rcases link with idle | ⟨_,due⟩
    · exact idle.within
    · exact UInt32.le_iff_toNat_le.mpr (Nat.le_of_eq (congrArg UInt32.toNat due.since))

def letters (addr : Nat) (letter : UInt8) : MetaBuf := ⟨addr,1::List.replicate 16 letter,rfl⟩

-- The socket takes five bytes of the first block; the next refbuf has other metadata.
def halfBlock : List FeedEvent :=
  let page := fun byte addr letter =>
    FeedEvent.produce false (some ⟨List.replicate 4 byte,some (letters addr letter),true,none⟩)
  let turn := fun few => FeedEvent.turn fun i => if i = 2 then .sent few else .sent 100
  [page 1 1 65,turn 5,turn 5,page 2 2 66,turn 5]

def liveMount : Mount := ⟨true,true,none,some 0⟩

theorem half_block_unframed : ¬∀ (events : List FeedEvent) (f : Feed Unit),
    Transition.Runs (Feed.step liveMount) (Feed.initial 0 4) events f → Framed 4 f := by
  intro all
  have ran : (Transition.runFrom (Feed.next liveMount) (Feed.initial 0 4 : Feed Unit) halfBlock).map
    (fun f => (f.received,f.seen)) =
      some (List.replicate 4 1++1::List.replicate 4 65++List.replicate 12 66++List.replicate 4 2++[0],
        [letters 1 65,letters 1 65,letters 2 66]) := by decide +kernel
  obtain ⟨f,ran,same⟩ := Option.map_eq_some_iff.mp ran
  obtain ⟨received,seen⟩ := Prod.mk.inj same
  have framed := (all halfBlock f (Transition.runFrom_sound id ran)).blocks
    (1::List.replicate 4 65++List.replicate 12 66)
    (by rw [received,←scan_blocks]; decide)
  rw [OneBuffer,seen] at framed
  simp [letters] at framed
  revert framed
  decide

-- In a run of calm steps a listener is always sent the format its interval promises, and
-- no calm step reads outside a buffer.
theorem runs_framed (positive : interval ≠ 0) (format : m.format = some fmt)
    (path : Transition.Runs (Feed.calmStep m) (Feed.initial mount interval : Feed δ) events f) :
    Framed interval f ∧ ∀ event, Calm m f event → ∃ g, f.step m event g := by
  have inv : f.Inv interval := by
    refine path.preserves (fun {s event t} inv one => ?_) (initial_feed mount interval)
    obtain ⟨g,next,kept⟩ := step_feed inv positive format event one.1
    cases Option.some.inj (next.symm.trans one.2)
    exact kept
  refine ⟨inv.framed,?_⟩
  intro event calm
  obtain ⟨g,next,_⟩ := step_feed inv positive format event calm
  exact ⟨g,next⟩

-- Steps with no block half sent.
def Feed.wholeNext (m : Mount) (f : Feed δ) (event : FeedEvent) : Option (Feed δ) :=
  if half f.client then none else f.next m event

theorem whole_calm {f g : Feed δ} (stepped : f.wholeNext m event = some g) : f.calmStep m event g := by
  unfold Feed.wholeNext at stepped
  split at stepped
  · cases stepped
  · rename_i whole
    refine ⟨?_,stepped⟩
    cases event with
    | turn sends => exact fun halved => absurd halved whole
    | _ => trivial

-- The same pages, with a socket that takes what it is given.
theorem runs_framed_whole_block : ∃ f : Feed Unit,
    f.received = List.replicate 4 1++(letters 1 65).data++List.replicate 4 2++(letters 2 66).data ∧ Framed 4 f := by
  let page := fun byte addr letter =>
    FeedEvent.produce false (some ⟨List.replicate 4 byte,some (letters addr letter),true,none⟩)
  let turn := FeedEvent.turn fun _ => .sent 100
  have ran : (Transition.runFrom (Feed.wholeNext liveMount) (Feed.initial 0 4 : Feed Unit)
      [page 1 1 65,turn,turn,page 2 2 66,.trim,turn]).map (·.received) =
      some (List.replicate 4 1++(letters 1 65).data++List.replicate 4 2++(letters 2 66).data) := by decide +kernel
  obtain ⟨f,ran,same⟩ := Option.map_eq_some_iff.mp ran
  exact ⟨f,same,(runs_framed (by decide) rfl (Transition.runFrom_sound whole_calm ran)).1⟩

end Icecast.Mp3
