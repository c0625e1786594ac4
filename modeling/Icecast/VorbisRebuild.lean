import Icecast.Lib.Lists
import Icecast.Lib.Transition

namespace Icecast.Vorbis
open Lists Transition

structure Packet (α : Type u) where
  data : α
  eos : Bool
deriving DecidableEq

-- What ogg_stream_packetin adds for a packet, with its e_o_s flag, to the stream that pages
-- are cut from.
structure Libogg (α : Type u) (σ : Type v) where
  lace : α → Bool → List σ
  laced : ∀ p eos, lace p eos ≠ []

inductive ProcessPacket where
  | headers | audio
deriving DecidableEq

inductive GetBufferPage where
  | header | audio | finished
deriving DecidableEq

-- What was put into one chain, and the pages it came out on with the header pages they are
-- handed back with.
structure Chain (α : Type u) (σ : Type v) where
  headers : List α
  audio : List α
  pages : List (List σ × List σ)
deriving DecidableEq

-- The ogg_codec_t and vorbis_codec_t of a stream with one codec: `os` is what packetout will
-- give, `current` says that ogg_info->current is this codec, `comment` is the comment packet
-- that the artist and the title make. `given`, `taken`, `ended`, `chains` and `now` record
-- what happened: all packets that came, the audio packets that were taken out, and whether
-- the last of them had e_o_s. Nothing looks at them.
structure Codec (α : Type u) (σ : Type v) where
  os : List (Packet α)
  header : List α
  comment : α
  rebuildComment : Bool
  streamNotify : Bool
  prevPacket : Option α
  processPacket : Option ProcessPacket
  getBufferPage : Option GetBufferPage
  newOs : List σ
  headerPages : List σ
  current : Bool
  given : List α
  taken : List α
  ended : Bool
  chains : List (Chain α σ)
  now : Chain α σ
deriving DecidableEq

def Chain.empty : Chain α σ := ⟨[],[],[]⟩

-- initial_vorbis_page
def start (bos comment : α) : Codec α σ :=
  ⟨[],[bos],comment,false,false,none,none,none,[],[],false,[bos],[],false,[],.empty⟩

-- process_vorbis_page: the packets that a page completes.
def processVorbisPage (s : Codec α σ) (packets : List (Packet α)) : Codec α σ :=
  let os := s.os++packets
  let s := {s with current := true,given := s.given++packets.map Packet.data}
  if s.header.length = 3 then {s with os := os} else
  let header := s.header++(os.take (3-s.header.length)).map Packet.data
  {s with header := header,os := os.drop (3-s.header.length)
          processPacket := if header.length = 3 then some .headers else s.processPacket}

section
variable (lib : Libogg α σ)

def addAudioPacket (s : Codec α σ) (p : α) (eos : Bool) : Codec α σ :=
  {s with newOs := s.newOs++lib.lace p eos,now := {s.now with audio := s.now.audio++[p]}}

def addPrev (s : Codec α σ) (eos : Bool) : Codec α σ :=
  match s.prevPacket with
  | some p => addAudioPacket lib s p eos
  | none => s

def initiateFlush (s : Codec α σ) : Codec α σ := {addPrev lib s true with getBufferPage := some .finished}

-- The loop of process_vorbis_audio over the packets that packetout gives. It stops early where
-- the samples exceed the trigger, `pause` packets from here; whether it did is returned.
def takeAudio : List (Packet α) → Nat → Codec α σ → Codec α σ × Bool
  | [],_,s => ({s with os := []},false)
  | packet::rest,pause,s =>
    let s := {addPrev lib s false with prevPacket := some packet.data,taken := s.taken++[packet.data]}
    if packet.eos then ({initiateFlush lib s with prevPacket := none,os := rest,ended := true},true)
    else match pause with
    | 0 => ({s with os := rest},true)
    | pause+1 => takeAudio rest pause s

def processVorbisAudio (s : Codec α σ) (pause : Nat) : Codec α σ × Bool :=
  let (s,stopped) := takeAudio lib s.os pause s
  if stopped then (s,true)
  else if s.streamNotify then ({initiateFlush lib s with streamNotify := false},true)
  else (s,false)

def laceAll (packets : List α) : List σ := packets.flatMap (lib.lace · false)

def processVorbisHeaders (s : Codec α σ) : Codec α σ :=
  match s.header with
  | [identification,comment,setup] =>
    let headers := [identification,if s.rebuildComment then s.comment else comment,setup]
    {s with newOs := s.newOs++laceAll lib headers,rebuildComment := false,getBufferPage := some .header
            processPacket := some .audio,now := {s.now with headers := headers}}
  | _ => s

def handBack (s : Codec α σ) (n : Nat) : Codec α σ :=
  {s with newOs := s.newOs.drop n,now := {s.now with pages := s.now.pages++[(s.headerPages,s.newOs.take n)]}}

-- get_buffer_header, get_buffer_audio and get_buffer_finished, and whether a page is handed
-- back. `n` is how much of the stream libogg puts on it; pageout may give none.
def getBuffer (s : Codec α σ) (n : Nat) : Codec α σ × Bool :=
  match s.getBufferPage with
  | none => (s,false)
  | some .header =>
    ({s with headerPages := s.headerPages++s.newOs,newOs := []
             getBufferPage := if s.newOs = [] then some .header else some .audio},false)
  | some .audio => if n = 0 ∨ s.newOs = [] then (s,false) else (handBack s n,true)
  | some .finished =>
    if s.newOs = [] then
      ({s with headerPages := [],getBufferPage := none
               processPacket := if s.prevPacket.isSome then some .headers else none
               chains := s.chains++[s.now],now := .empty},false)
    else (handBack s (n+1),true)

def processPacket (s : Codec α σ) (pause : Nat) : Codec α σ × Bool :=
  match s.processPacket with
  | none => (s,false)
  | some .headers => (processVorbisHeaders lib s,true)
  | some .audio => processVorbisAudio lib s pause

-- One round of the loop of process_vorbis.
def processVorbis (s : Codec α σ) (n pause : Nat) : Codec α σ :=
  let (s,handed) := getBuffer s n
  if handed then s else
  let (s,more) := processPacket lib s pause
  if more then s else {s with current := false}

-- vorbis_set_tag without a tag writes two flags; the comment is written by the calls before.
inductive Event (α : Type u) where
  | page (packets : List (Packet α))
  | notify
  | rebuild (comment : α)
  | round (n pause : Nat)

def next (s : Codec α σ) : Event α → Option (Codec α σ)
  | .page packets => if s.current then none else some (processVorbisPage s packets)
  | .notify => some {s with streamNotify := true}
  | .rebuild comment => some {s with comment := comment,rebuildComment := true}
  | .round n pause => if s.current then some (processVorbis lib s n pause) else none

def Step (s : Codec α σ) (event : Event α) (t : Codec α σ) : Prop := next lib s event = some t

-- The identification and setup headers are the stream's own.
def Fresh (header headers : List α) : Prop :=
  ∃ identification comment setup other, header = [identification,comment,setup] ∧ headers = [identification,other,setup]

-- A chain that is finished: its pages carry three headers, and hold its audio packets with
-- e_o_s on the last.
structure Whole (header : List α) (c : Chain α σ) : Prop where
  fresh : Fresh header c.headers
  pages : ∀ page ∈ c.pages, page.1 = laceAll lib c.headers
  audio : ∃ front p, c.audio = front++[p] ∧ c.pages.flatMap (·.2) = laceAll lib front++lib.lace p true

-- The audio packets of a chain that is not finished, with the one that is held back.
def Open (s : Codec α σ) : Prop :=
  (s.prevPacket = none ∧ s.chains = [] ∧ s.taken = [] ∧ s.now.audio = []) ∨
    ∃ p, s.prevPacket = some p ∧ Covers (s.chains.map Chain.audio++[s.now.audio++[p]]) s.taken

structure Waiting (s : Codec α σ) : Prop where
  header : s.header.length < 3
  processPacket : s.processPacket = none
  getBufferPage : s.getBufferPage = none
  newOs : s.newOs = []
  headerPages : s.headerPages = []
  prevPacket : s.prevPacket = none
  taken : s.taken = []
  ended : s.ended = false
  chains : s.chains = []
  now : s.now = .empty

structure Starting (s : Codec α σ) : Prop where
  header : s.header.length = 3
  processPacket : s.processPacket = some .headers
  getBufferPage : s.getBufferPage = none
  newOs : s.newOs = []
  headerPages : s.headerPages = []
  ended : s.ended = false
  now : s.now = .empty
  opened : Open s

structure Headed (s : Codec α σ) : Prop where
  processPacket : s.processPacket = some .audio
  getBufferPage : s.getBufferPage = some .header
  newOs : s.newOs = laceAll lib s.now.headers
  headerPages : s.headerPages = []
  ended : s.ended = false
  fresh : Fresh s.header s.now.headers
  audio : s.now.audio = []
  pages : s.now.pages = []
  opened : Open s

structure Running (s : Codec α σ) : Prop where
  processPacket : s.processPacket = some .audio
  getBufferPage : s.getBufferPage = some .audio
  headerPages : s.headerPages = laceAll lib s.now.headers
  ended : s.ended = false
  fresh : Fresh s.header s.now.headers
  pages : ∀ page ∈ s.now.pages, page.1 = laceAll lib s.now.headers
  sent : s.now.pages.flatMap (·.2)++s.newOs = laceAll lib s.now.audio
  opened : Open s

structure Finishing (s : Codec α σ) : Prop where
  processPacket : s.processPacket = some .audio
  getBufferPage : s.getBufferPage = some .finished
  headerPages : s.headerPages = laceAll lib s.now.headers
  fresh : Fresh s.header s.now.headers
  pages : ∀ page ∈ s.now.pages, page.1 = laceAll lib s.now.headers
  sent : ∃ front p, s.now.audio = front++[p] ∧ s.now.pages.flatMap (·.2)++s.newOs = laceAll lib front++lib.lace p true ∧
    (s.prevPacket = some p ∧ s.ended = false ∨ s.prevPacket = none ∧ s.ended = true)
  covers : Covers (s.chains.map Chain.audio++[s.now.audio]) s.taken

structure Done (s : Codec α σ) : Prop where
  header : s.header.length = 3
  processPacket : s.processPacket = none
  getBufferPage : s.getBufferPage = none
  newOs : s.newOs = []
  headerPages : s.headerPages = []
  prevPacket : s.prevPacket = none
  ended : s.ended = true
  now : s.now = .empty
  covers : Covers (s.chains.map Chain.audio) s.taken

inductive Stage (s : Codec α σ) : Prop where
  | waiting (stage : Waiting s)
  | starting (stage : Starting s)
  | headed (stage : Headed lib s)
  | running (stage : Running lib s)
  | finishing (stage : Finishing lib s)
  | done (stage : Done s)

structure Inv (s : Codec α σ) : Prop where
  stage : Stage lib s
  whole : ∀ c ∈ s.chains, Whole lib s.header c
  given : s.given = s.header++s.taken++s.os.map Packet.data
  idle : s.current = false → s.header.length = 3 → s.ended = false → s.os = [] ∧ s.processPacket = some .audio

-- An update is handled before the first audio packet.
def Fair (s : Codec α σ) : Event α → Prop
  | .round _ _ => s.processPacket = some .audio → s.getBufferPage ≠ some .finished → s.streamNotify →
  s.os = [] → s.prevPacket ≠ none
  | _ => True

theorem laceAll_snoc (front : List α) (p : α) : laceAll lib (front++[p]) = laceAll lib front++lib.lace p false := by
  simp [laceAll]

theorem Open.covers (opened : Open s) (held : s.prevPacket = some p) :
    Covers (s.chains.map Chain.audio++[s.now.audio++[p]]) s.taken := by
  rcases opened with ⟨none,_⟩ | ⟨q,here,covers⟩
  · rw [none] at held
    cases held
  · cases here.symm.trans held
    exact covers

theorem Running.took (running : Running lib s) (x : α) :
    Running lib {addPrev lib s false with prevPacket := some x,taken := s.taken++[x]} := by
  cases held : s.prevPacket with
  | none =>
    have same : addPrev lib s false = s := by rw [addPrev,held]
    rw [same]
    refine ⟨running.processPacket,running.getBufferPage,running.headerPages,running.ended,running.fresh,running.pages,
      running.sent,.inr ⟨x,rfl,?_⟩⟩
    rcases running.opened with ⟨_,chains,taken,audio⟩ | ⟨p,here,_⟩
    · simp only [chains,taken,audio,List.map_nil,List.nil_append]
      exact .one
    · cases held.symm.trans here
  | some p =>
    have same : addPrev lib s false = addAudioPacket lib s p false := by rw [addPrev,held]
    rw [same]
    refine ⟨running.processPacket,running.getBufferPage,running.headerPages,running.ended,running.fresh,
      running.pages,?_,.inr ⟨x,rfl,?_⟩⟩
    · simp only [addAudioPacket]
      rw [laceAll_snoc,←running.sent,List.append_assoc]
    · exact (running.opened.covers held).snoc x

theorem Running.flush (running : Running lib s) (held : s.prevPacket = some p) :
    (initiateFlush lib s).now.audio = s.now.audio++[p] ∧
    (initiateFlush lib s).now.pages.flatMap
    (·.2)++(initiateFlush lib s).newOs = laceAll lib s.now.audio++lib.lace p true ∧
    initiateFlush lib s = {addAudioPacket lib s p true with getBufferPage := some .finished} := by
  have same : addPrev lib s true = addAudioPacket lib s p true := by rw [addPrev,held]
  rw [initiateFlush,same]
  refine ⟨rfl,?_,rfl⟩
  simp only [addAudioPacket]
  rw [←running.sent,List.append_assoc]

theorem Running.notified (running : Running lib s) (held : s.prevPacket = some p) :
    Finishing lib {initiateFlush lib s with streamNotify := false} := by
  obtain ⟨audio,sent,same⟩ := running.flush lib held
  rw [same] at audio sent ⊢
  exact ⟨running.processPacket,rfl,running.headerPages,running.fresh,running.pages,
    ⟨s.now.audio,p,audio,sent,.inl ⟨held,running.ended⟩⟩,running.opened.covers held⟩

theorem Running.last (running : Running lib s) (held : s.prevPacket = some p) (rest : List (Packet α)) :
    Finishing lib {initiateFlush lib s with prevPacket := none,os := rest,ended := true} := by
  obtain ⟨audio,sent,same⟩ := running.flush lib held
  rw [same] at audio sent ⊢
  exact ⟨running.processPacket,rfl,running.headerPages,running.fresh,running.pages,
    ⟨s.now.audio,p,audio,sent,.inr ⟨rfl,rfl⟩⟩,running.opened.covers held⟩

-- What process_vorbis_audio leaves alone.
structure Apart (s t : Codec α σ) : Prop where
  header : t.header = s.header
  given : t.given = s.given
  current : t.current = s.current
  chains : t.chains = s.chains

theorem addPrev_apart (s : Codec α σ) (eos : Bool) : Apart s (addPrev lib s eos) := by
  unfold addPrev
  split <;> exact ⟨rfl,rfl,rfl,rfl⟩

theorem addPrev_notify (s : Codec α σ) (eos : Bool) : (addPrev lib s eos).streamNotify = s.streamNotify := by
  unfold addPrev
  split <;> rfl

theorem takeAudio_running (os : List (Packet α)) (pause : Nat) (running : Running lib s) :
    Apart s (takeAudio lib os pause s).1 ∧
    (takeAudio lib os pause s).1.taken++(takeAudio lib os pause s).1.os.map Packet.data = s.taken++os.map Packet.data ∧
    (((takeAudio lib os pause s).2 = true ∧ (Running lib (takeAudio lib os pause s).1 ∨
    Finishing lib (takeAudio lib os pause s).1)) ∨
      ((takeAudio lib os pause s).2 = false ∧
      Running lib (takeAudio lib os pause s).1 ∧ (takeAudio lib os pause s).1.os = [] ∧
        (takeAudio lib os pause s).1.streamNotify = s.streamNotify ∧
        ((takeAudio lib os pause s).1.prevPacket = none → os = [] ∧ s.prevPacket = none))) := by
  induction os generalizing pause s with
  | nil =>
    refine ⟨⟨rfl,rfl,rfl,rfl⟩,rfl,.inr ⟨rfl,?_,rfl,rfl,fun none => ⟨rfl,none⟩⟩⟩
    exact ⟨running.processPacket,running.getBufferPage,running.headerPages,running.ended,running.fresh,running.pages,
      running.sent,running.opened⟩
  | cons packet rest ih =>
    have took := running.took lib packet.data
    have apart := addPrev_apart lib s false
    rw [takeAudio.eq_def]
    dsimp only
    split
    · obtain ⟨_,_,same⟩ := took.flush lib rfl
      refine ⟨?_,?_,.inl ⟨rfl,.inr (took.last lib rfl rest)⟩⟩
      · rw [same]
        exact ⟨apart.header,apart.given,apart.current,apart.chains⟩
      · rw [same]
        simp [addAudioPacket]
    · cases pause with
      | zero =>
        refine ⟨⟨apart.header,apart.given,apart.current,apart.chains⟩,by simp,.inl ⟨rfl,.inl ?_⟩⟩
        exact ⟨took.processPacket,took.getBufferPage,took.headerPages,took.ended,took.fresh,took.pages,
          took.sent,took.opened⟩
      | succ pause =>
        obtain ⟨later,all,outcome⟩ := ih pause took
        refine ⟨⟨later.header.trans apart.header,later.given.trans apart.given,later.current.trans apart.current,
          later.chains.trans apart.chains⟩,all.trans (by simp),outcome.imp_right ?_⟩
        rintro ⟨stopped,after,empty,notify,held⟩
        exact ⟨stopped,after,empty,notify.trans (addPrev_notify lib s false),fun none => nomatch (held none).2⟩

theorem processVorbisAudio_running (running : Running lib s) (pause : Nat) (fair : s.streamNotify → s.os = [] →
    s.prevPacket ≠ none) :
    Apart s (processVorbisAudio lib s pause).1 ∧
    (processVorbisAudio lib s pause).1.taken++(processVorbisAudio lib s pause).1.os.map Packet.data =
    s.taken++s.os.map Packet.data ∧
    (((processVorbisAudio lib s pause).2 = true ∧
        (Running lib (processVorbisAudio lib s pause).1 ∨ Finishing lib (processVorbisAudio lib s pause).1)) ∨
      ((processVorbisAudio lib s pause).2 = false ∧ Running lib (processVorbisAudio lib s pause).1 ∧
        (processVorbisAudio lib s pause).1.os = [])) := by
  obtain ⟨apart,all,outcome⟩ := takeAudio_running lib s.os pause running
  rw [processVorbisAudio]
  generalize takeAudio lib s.os pause s = result at apart all outcome
  obtain ⟨t,stopped⟩ := result
  dsimp only at apart all outcome ⊢
  rcases outcome with ⟨rfl,stage⟩ | ⟨rfl,after,empty,notify,held⟩
  · exact ⟨apart,all,.inl ⟨rfl,stage⟩⟩
  · by_cases notified : t.streamNotify
    · rw [if_neg (by decide),if_pos notified]
      cases prev : t.prevPacket with
      | none => exact absurd (held prev).2 (fair (notify ▸ notified) (held prev).1)
      | some p =>
        obtain ⟨_,_,same⟩ := after.flush lib prev
        refine ⟨?_,?_,.inl ⟨rfl,.inr (after.notified lib prev)⟩⟩
        · rw [same]
          exact ⟨apart.header,apart.given,apart.current,apart.chains⟩
        · rw [same]
          exact all
    · rw [if_neg (by decide),if_neg notified]
      exact ⟨apart,all,.inr ⟨rfl,after,empty⟩⟩

theorem processVorbisAudio_unfair (running : Running lib s) (pause : Nat)
    (notified : s.streamNotify) (empty : s.os = [])
    (none : s.prevPacket = none) : (processVorbisAudio lib s pause).2 = true ∧
    (processVorbisAudio lib s pause).1.getBufferPage = some .finished ∧
    (processVorbisAudio lib s pause).1.prevPacket = Option.none ∧
    (processVorbisAudio lib s pause).1.ended = false := by
  simp [processVorbisAudio,takeAudio,empty,notified,initiateFlush,addPrev,none,running.ended]

theorem processVorbisHeaders_starting (starting : Starting s) : Headed lib (processVorbisHeaders lib s) ∧
    Apart s (processVorbisHeaders lib s) ∧ (processVorbisHeaders lib s).taken = s.taken ∧
    (processVorbisHeaders lib s).os = s.os := by
  have opened := starting.opened
  simp only [Open,starting.now] at opened
  unfold processVorbisHeaders
  split
  · rename_i identification comment setup header
    refine ⟨⟨rfl,rfl,?_,starting.headerPages,starting.ended,⟨identification,comment,setup,_,header,rfl⟩,?_,?_,?_⟩,
      ⟨rfl,rfl,rfl,rfl⟩,rfl,rfl⟩
    · simp only [starting.newOs,List.nil_append]
    · simp only [starting.now,Chain.empty]
    · simp only [starting.now,Chain.empty]
    · simp only [Open,starting.now]
      exact opened
  · rename_i short
    obtain ⟨identification,comment,setup,header⟩ := List.length_eq_three.mp starting.header
    exact absurd header (short identification comment setup)

theorem Fresh.length (fresh : Fresh header headers) : header.length = 3 := by
  obtain ⟨_,_,_,_,rfl,_⟩ := fresh
  rfl

theorem Stage.incomplete (stage : Stage lib s) (short : s.header.length ≠ 3) : Waiting s := by
  cases stage with
  | waiting stage => exact stage
  | starting stage => exact absurd stage.header short
  | headed stage => exact absurd stage.fresh.length short
  | running stage => exact absurd stage.fresh.length short
  | finishing stage => exact absurd stage.fresh.length short
  | done stage => exact absurd stage.header short

theorem headers_laced (fresh : Fresh header headers) : laceAll lib headers ≠ [] := by
  obtain ⟨identification,_,_,_,_,rfl⟩ := fresh
  have first := lib.laced identification false
  simp [laceAll,first]

-- What the get_buffer functions leave alone.
structure Kept (s t : Codec α σ) : Prop where
  os : t.os = s.os
  header : t.header = s.header
  taken : t.taken = s.taken
  given : t.given = s.given
  current : t.current = s.current
  streamNotify : t.streamNotify = s.streamNotify
  prevPacket : t.prevPacket = s.prevPacket

theorem getBuffer_kept (s : Codec α σ) (n : Nat) : Kept s (getBuffer s n).1 := by
  unfold getBuffer
  repeat' split
  all_goals exact ⟨rfl,rfl,rfl,rfl,rfl,rfl,rfl⟩

theorem handBack_sent (s : Codec α σ) (n : Nat) :
    (handBack s n).now.pages.flatMap (·.2)++(handBack s n).newOs = s.now.pages.flatMap (·.2)++s.newOs := by
  simp [handBack]

theorem handBack_pages (header : s.headerPages = laceAll lib s.now.headers)
    (pages : ∀ page ∈ s.now.pages, page.1 = laceAll lib s.now.headers)
    (n : Nat) : ∀ page ∈ (handBack s n).now.pages, page.1 = laceAll lib (handBack s n).now.headers := by
  intro page member
  rcases List.mem_append.mp member with old | new
  · exact pages page old
  · cases List.mem_singleton.mp new
    exact header

-- After getBuffer: a page was handed back, or the codec waits for packets.
inductive Ready (s : Codec α σ) : Prop where
  | waiting (stage : Waiting s)
  | starting (stage : Starting s)
  | running (stage : Running lib s)
  | done (stage : Done s)

theorem Headed.buffered (headed : Headed lib s) (n : Nat) : (getBuffer s n).2 = false ∧ Running lib (getBuffer s n).1 ∧
    (getBuffer s n).1.chains = s.chains := by
  have laced : s.newOs ≠ [] := by
    rw [headed.newOs]
    exact headers_laced lib headed.fresh
  simp only [getBuffer,headed.getBufferPage,if_neg laced,true_and,and_true]
  refine ⟨headed.processPacket,rfl,?_,headed.ended,headed.fresh,?_,?_,headed.opened⟩
  · simp only [headed.headerPages,List.nil_append,headed.newOs]
  · simp only [headed.pages]
    exact nofun
  · simp [headed.pages,headed.audio,laceAll]

theorem Running.buffered (running : Running lib s) (n : Nat) :
    Running lib (getBuffer s n).1 ∧ (getBuffer s n).1.chains = s.chains := by
  simp only [getBuffer,running.getBufferPage]
  split
  · exact ⟨running,rfl⟩
  · have sent := handBack_sent s n
    rw [running.sent] at sent
    exact ⟨⟨running.processPacket,running.getBufferPage,running.headerPages,running.ended,running.fresh,
      handBack_pages lib running.headerPages running.pages n,sent,running.opened⟩,rfl⟩

theorem Finishing.buffered (finishing : Finishing lib s) (n : Nat) :
    ((getBuffer s n).2 = true ∧ Finishing lib (getBuffer s n).1 ∧ (getBuffer s n).1.chains = s.chains) ∨
      ((getBuffer s n).2 = false ∧ (Starting (getBuffer s n).1 ∨ Done (getBuffer s n).1) ∧
        ∃ c, (getBuffer s n).1.chains = s.chains++[c] ∧ Whole lib s.header c) := by
  obtain ⟨front,p,audio,sent,held⟩ := finishing.sent
  have length := finishing.fresh.length
  simp only [getBuffer,finishing.getBufferPage]
  by_cases all : s.newOs = []
  · rw [if_pos all]
    rw [all,List.append_nil] at sent
    have whole : Whole lib s.header s.now := ⟨finishing.fresh,finishing.pages,front,p,audio,sent⟩
    have covers := finishing.covers
    refine .inr ⟨rfl,?_,s.now,rfl,whole⟩
    rcases held with ⟨prev,ended⟩ | ⟨prev,ended⟩
    · refine .inl ⟨length,?_,rfl,all,rfl,ended,rfl,.inr ⟨p,prev,?_⟩⟩
      · simp [prev]
      · rw [audio] at covers
        have again := covers.again
        simpa [Chain.empty,audio] using again
    · refine .inr ⟨length,?_,rfl,all,rfl,prev,ended,rfl,?_⟩
      · simp [prev]
      · simpa using covers
  · rw [if_neg all]
    have same := handBack_sent s (n+1)
    rw [sent] at same
    exact .inl ⟨rfl,⟨finishing.processPacket,finishing.getBufferPage,finishing.headerPages,finishing.fresh,
      handBack_pages lib finishing.headerPages finishing.pages (n+1),⟨front,p,audio,same,held⟩,finishing.covers⟩,rfl⟩

theorem buffered (inv : Inv lib s) (n : Nat) : ((getBuffer s n).2 = true → Stage lib (getBuffer s n).1) ∧
    ((getBuffer s n).2 = false → Ready lib (getBuffer s n).1) ∧ ∀ c ∈ (getBuffer s n).1.chains,
    Whole lib s.header c := by
  have idle (none : s.getBufferPage = none) : getBuffer s n = (s,false) := by simp [getBuffer,none]
  cases inv.stage with
  | waiting stage =>
    rw [idle stage.getBufferPage]
    exact ⟨nofun,fun _ => .waiting stage,inv.whole⟩
  | starting stage =>
    rw [idle stage.getBufferPage]
    exact ⟨nofun,fun _ => .starting stage,inv.whole⟩
  | headed stage =>
    obtain ⟨_,running,chains⟩ := stage.buffered lib n
    exact ⟨fun _ => .running running,fun _ => .running running,chains ▸ inv.whole⟩
  | running stage =>
    obtain ⟨running,chains⟩ := stage.buffered lib n
    exact ⟨fun _ => .running running,fun _ => .running running,chains ▸ inv.whole⟩
  | finishing stage =>
    rcases stage.buffered lib n with ⟨handed,after,chains⟩ | ⟨handed,after,c,chains,whole⟩
    · refine ⟨fun _ => .finishing after,fun other => ?_,chains ▸ inv.whole⟩
      rw [handed] at other
      cases other
    · refine ⟨fun other => ?_,fun _ => after.elim .starting .done,?_⟩
      · rw [handed] at other
        cases other
      · intro d member
        rw [chains] at member
        rcases List.mem_append.mp member with old | new
        · exact inv.whole d old
        · cases List.mem_singleton.mp new
          exact whole
  | done stage =>
    rw [idle stage.getBufferPage]
    exact ⟨nofun,fun _ => .done stage,inv.whole⟩

theorem processPacket_ready (ready : Ready lib s) (pause : Nat)
    (fair : s.processPacket = some .audio → s.streamNotify → s.os = [] → s.prevPacket ≠ none) :
    Apart s (processPacket lib s pause).1 ∧
    (processPacket lib s pause).1.taken++(processPacket lib s pause).1.os.map Packet.data =
    s.taken++s.os.map Packet.data ∧
    Stage lib (processPacket lib s pause).1 ∧
    ((processPacket lib s pause).2 = false → (processPacket lib s pause).1.header.length = 3 →
      (processPacket lib s pause).1.ended = false →
        (processPacket lib s pause).1.os = [] ∧ (processPacket lib s pause).1.processPacket = some .audio) := by
  have idle (none : s.processPacket = none) : processPacket lib s pause = (s,false) := by simp [processPacket,none]
  cases ready with
  | waiting stage =>
    rw [idle stage.processPacket]
    refine ⟨⟨rfl,rfl,rfl,rfl⟩,rfl,.waiting stage,fun _ length => ?_⟩
    have short := stage.header
    exact absurd length (Nat.ne_of_lt short)
  | starting stage =>
    have same : processPacket lib s pause =
      (processVorbisHeaders lib s,true) := by simp [processPacket,stage.processPacket]
    obtain ⟨headed,apart,taken,os⟩ := processVorbisHeaders_starting lib stage
    rw [same]
    exact ⟨apart,by rw [taken,os],.headed headed,nofun⟩
  | running stage =>
    have same : processPacket lib s pause =
      processVorbisAudio lib s pause := by simp [processPacket,stage.processPacket]
    obtain ⟨apart,all,outcome⟩ := processVorbisAudio_running lib stage pause (fair stage.processPacket)
    rw [same]
    refine ⟨apart,all,?_⟩
    rcases outcome with ⟨more,after⟩ | ⟨_,after,empty⟩
    · refine ⟨after.elim .running .finishing,fun other => ?_⟩
      rw [more] at other
      cases other
    · exact ⟨.running after,fun _ _ _ => ⟨empty,after.processPacket⟩⟩
  | done stage =>
    rw [idle stage.processPacket]
    refine ⟨⟨rfl,rfl,rfl,rfl⟩,rfl,.done stage,fun _ _ ended => ?_⟩
    rw [stage.ended] at ended
    cases ended

theorem Stage.update (stage : Stage lib s) (os : List (Packet α)) (comment : α)
    (rebuild notify current : Bool) (given : List α) :
    Stage lib {s with os := os,comment := comment,rebuildComment := rebuild,streamNotify := notify,current := current,given := given} := by
  cases stage with
  | waiting h => exact .waiting ⟨h.header,h.processPacket,h.getBufferPage,h.newOs,h.headerPages,h.prevPacket,
    h.taken,h.ended,h.chains,h.now⟩
  | starting h => exact .starting ⟨h.header,h.processPacket,h.getBufferPage,h.newOs,h.headerPages,
    h.ended,h.now,h.opened⟩
  | headed h =>
    exact .headed ⟨h.processPacket,h.getBufferPage,h.newOs,h.headerPages,h.ended,h.fresh,h.audio,h.pages,h.opened⟩
  | running h => exact .running ⟨h.processPacket,h.getBufferPage,h.headerPages,h.ended,h.fresh,h.pages,h.sent,h.opened⟩
  | finishing h => exact .finishing ⟨h.processPacket,h.getBufferPage,h.headerPages,h.fresh,h.pages,h.sent,h.covers⟩
  | done h => exact .done ⟨h.header,h.processPacket,h.getBufferPage,h.newOs,h.headerPages,h.prevPacket,
    h.ended,h.now,h.covers⟩

theorem getBuffer_audio (waits : (getBuffer s n).2 = false) (audio : (getBuffer s n).1.processPacket = some .audio) :
    s.processPacket = some .audio ∧ s.getBufferPage ≠ some .finished := by
  unfold getBuffer at waits audio
  cases stage : s.getBufferPage with
  | none =>
    simp only [stage] at audio
    exact ⟨audio,nofun⟩
  | some page =>
    cases page with
    | header =>
      simp only [stage] at audio
      exact ⟨audio,nofun⟩
    | audio =>
      simp only [stage] at audio
      split at audio
      · exact ⟨audio,nofun⟩
      · exact ⟨audio,nofun⟩
    | finished =>
      simp only [stage] at waits audio
      split at audio
      · dsimp only at audio
        split at audio
        · cases audio
        · cases audio
      · rename_i more
        simp [more] at waits

theorem round_inv (inv : Inv lib s) (current : s.current = true) (n pause : Nat) (fair : Fair s (.round n pause)) :
    Inv lib (processVorbis lib s n pause) := by
  obtain ⟨handed,waits,whole⟩ := buffered lib inv n
  have kept := getBuffer_kept s n
  have audio := @getBuffer_audio _ _ s n
  rw [processVorbis]
  generalize getBuffer s n = result at handed waits whole kept audio
  obtain ⟨t,page⟩ := result
  dsimp only at handed waits whole kept audio ⊢
  have given : t.given = t.header++t.taken++t.os.map Packet.data := by rw [kept.given,kept.header,kept.taken,kept.os,inv.given]
  cases page with
  | true =>
    refine ⟨handed rfl,?_,given,fun idle => ?_⟩
    · rw [if_pos rfl,kept.header]
      exact whole
    · rw [if_pos rfl,kept.current,current] at idle
      cases idle
  | false =>
    rw [if_neg (by decide)]
    obtain ⟨apart,all,stage,idle⟩ := processPacket_ready lib (waits rfl) pause fun pp notified empty => by
      rw [kept.prevPacket]
      exact fair (audio rfl pp).1 (audio rfl pp).2 (kept.streamNotify ▸ notified) (kept.os ▸ empty)
    generalize processPacket lib t pause = result at apart all stage idle
    obtain ⟨u,more⟩ := result
    dsimp only at apart all stage idle ⊢
    have whole : ∀ c ∈ u.chains, Whole lib u.header c := by
      rw [apart.chains,apart.header,kept.header]
      exact whole
    have given : u.given = u.header++u.taken++u.os.map Packet.data := by
      rw [apart.given,apart.header,List.append_assoc,all,given,List.append_assoc]
    cases more with
    | true =>
      refine ⟨stage,whole,given,fun idle => ?_⟩
      rw [if_pos rfl,apart.current,kept.current,current] at idle
      cases idle
    | false => exact ⟨stage.update lib _ _ _ _ false _,whole,given,fun _ => idle rfl⟩

theorem page_inv (inv : Inv lib s) (packets : List (Packet α)) : Inv lib (processVorbisPage s packets) := by
  have given := inv.given
  unfold processVorbisPage
  dsimp only
  split
  · refine ⟨inv.stage.update lib _ _ _ _ true _,inv.whole,?_,nofun⟩
    rw [given,List.map_append]
    simp
  · rename_i short
    have waiting := inv.stage.incomplete lib short
    have low := waiting.header
    refine ⟨?_,by simp [waiting.chains],?_,nofun⟩
    · split
      · rename_i complete
        exact .starting ⟨complete,rfl,waiting.getBufferPage,waiting.newOs,waiting.headerPages,waiting.ended,waiting.now,
          .inl ⟨waiting.prevPacket,waiting.chains,waiting.taken,by simp [waiting.now,Chain.empty]⟩⟩
      · rename_i incomplete
        refine .waiting ⟨?_,waiting.processPacket,waiting.getBufferPage,waiting.newOs,
          waiting.headerPages,waiting.prevPacket,
          waiting.taken,waiting.ended,waiting.chains,waiting.now⟩
        dsimp only
        rw [List.length_append,List.length_map,List.length_take] at incomplete ⊢
        omega
    · rw [given,waiting.taken,List.append_nil,List.append_nil,List.append_assoc,List.append_assoc,
        ←List.map_append,←List.map_append,
        List.take_append_drop]

-- The codec does not finish a chain without a packet that ends it.
def Continues (s : Codec α σ) : Prop := s.getBufferPage = some .finished → s.prevPacket = none → s.ended = true

theorem Inv.continues (inv : Inv lib s) : Continues s := by
  intro page prev
  cases inv.stage with
  | waiting stage => exact nomatch stage.getBufferPage.symm.trans page
  | starting stage => exact nomatch stage.getBufferPage.symm.trans page
  | headed stage => exact nomatch stage.getBufferPage.symm.trans page
  | running stage => exact nomatch stage.getBufferPage.symm.trans page
  | finishing stage =>
    obtain ⟨_,_,_,_,⟨here,_⟩ | ⟨_,ended⟩⟩ := stage.sent
    · exact nomatch here.symm.trans prev
    · exact ended
  | done stage => exact stage.ended

theorem Inv.next (inv : Inv lib s) (step : Step lib s event t) (fair : Fair s event) : Inv lib t := by
  cases event with
  | page packets =>
    simp only [Step,Vorbis.next] at step
    split at step
    · cases step
    · cases step
      exact page_inv lib inv packets
  | notify =>
    cases step
    exact ⟨inv.stage.update lib _ _ _ true _ _,inv.whole,inv.given,inv.idle⟩
  | rebuild comment =>
    cases step
    exact ⟨inv.stage.update lib _ comment true _ _ _,inv.whole,inv.given,inv.idle⟩
  | round n pause =>
    simp only [Step,Vorbis.next] at step
    split at step
    · rename_i current
      cases step
      exact round_inv lib inv current n pause fair
    · cases step

theorem round_unfair (inv : Inv lib s) (n pause : Nat) (audio : s.processPacket = some .audio)
    (page : s.getBufferPage ≠ some .finished)
    (notified : s.streamNotify) (empty : s.os = []) (prev : s.prevPacket = none) :
    ¬Continues (processVorbis lib s n pause) := by
  have kept := getBuffer_kept s n
  have ran : (getBuffer s n).2 = false ∧ Running lib (getBuffer s n).1 := by
    cases inv.stage with
    | waiting stage => exact nomatch stage.processPacket.symm.trans audio
    | starting stage => exact nomatch stage.processPacket.symm.trans audio
    | headed stage => exact ⟨(stage.buffered lib n).1,(stage.buffered lib n).2.1⟩
    | running stage =>
      refine ⟨?_,(stage.buffered lib n).1⟩
      have unsent := stage.sent
      rcases stage.opened with ⟨_,_,_,none⟩ | ⟨p,here,_⟩
      · rw [none] at unsent
        simp [getBuffer,stage.getBufferPage,(List.append_eq_nil_iff.mp unsent).2]
      · exact nomatch here.symm.trans prev
    | finishing stage => exact absurd stage.getBufferPage page
    | done stage => exact nomatch stage.processPacket.symm.trans audio
  rw [processVorbis]
  generalize getBuffer s n = result at kept ran
  obtain ⟨t,handed⟩ := result
  obtain ⟨rfl,running⟩ := ran
  dsimp only at kept ⊢
  rw [if_neg (by decide)]
  have busy : t.processPacket = some .audio := running.processPacket
  have same : processPacket lib t pause = processVorbisAudio lib t pause := by simp [processPacket,busy]
  obtain ⟨more,finished,none,ended⟩ :=
    processVorbisAudio_unfair lib running pause (kept.streamNotify ▸ notified) (kept.os ▸ empty)
    (kept.prevPacket.trans prev)
  rw [same,if_pos more]
  intro continues
  exact nomatch ended.symm.trans (continues finished none)

theorem start_inv (bos comment : α) : Inv lib (start bos comment) :=
  ⟨.waiting ⟨by simp [start],rfl,rfl,rfl,rfl,rfl,rfl,rfl,rfl,rfl⟩,nofun,rfl,fun _ length => by simp [start] at length⟩

-- The audio packets of the chains, of the last one with the packet that is held back for it.
def Codec.runs (s : Codec α σ) : List (List α) :=
  s.chains.map Chain.audio++(if s.getBufferPage = some .finished then [s.now.audio]
    else if s.ended then [] else [s.now.audio++s.prevPacket.toList])

theorem Inv.covers (inv : Inv lib s) : Covers s.runs s.taken := by
  have opened (page : s.getBufferPage ≠ some .finished) (ended : s.ended = false) (opened : Open s) :
    Covers s.runs s.taken := by
    rw [Codec.runs,if_neg page,ended,if_neg (by decide)]
    rcases opened with ⟨prev,chains,taken,audio⟩ | ⟨p,prev,covers⟩
    · rw [prev,chains,taken,audio]
      exact .one
    · rw [prev]
      exact covers
  cases inv.stage with
  | waiting stage =>
    exact opened (by simp [stage.getBufferPage]) stage.ended
      (.inl ⟨stage.prevPacket,stage.chains,stage.taken,by simp [stage.now,Chain.empty]⟩)
  | starting stage => exact opened (by simp [stage.getBufferPage]) stage.ended stage.opened
  | headed stage => exact opened (by simp [stage.getBufferPage]) stage.ended stage.opened
  | running stage => exact opened (by simp [stage.getBufferPage]) stage.ended stage.opened
  | finishing stage =>
    rw [Codec.runs,if_pos stage.getBufferPage]
    exact stage.covers
  | done stage =>
    rw [Codec.runs,if_neg (by simp [stage.getBufferPage]),if_pos stage.ended,List.append_nil]
    exact stage.covers

-- The pages of the chain that is not finished.
structure Going (s : Codec α σ) : Prop where
  fresh : Fresh s.header s.now.headers
  pages : ∀ page ∈ s.now.pages, page.1 = laceAll lib s.now.headers
  audio : s.now.pages.flatMap (·.2)++s.newOs = laceAll lib s.now.audio ∨
    ∃ front p, s.now.audio = front++[p] ∧ s.now.pages.flatMap (·.2)++s.newOs = laceAll lib front++lib.lace p true

theorem Inv.going (inv : Inv lib s) (handed : s.now.pages ≠ []) : Going lib s := by
  have empty (now : s.now = .empty) : Going lib s := absurd (by rw [now]; rfl) handed
  cases inv.stage with
  | waiting stage => exact empty stage.now
  | starting stage => exact empty stage.now
  | headed stage => exact absurd stage.pages handed
  | running stage => exact ⟨stage.fresh,stage.pages,.inl stage.sent⟩
  | finishing stage =>
    obtain ⟨front,p,audio,sent,_⟩ := stage.sent
    exact ⟨stage.fresh,stage.pages,.inr ⟨front,p,audio,sent⟩⟩
  | done stage => exact empty stage.now

-- In a run of fair events the chains are whole, the open one goes on, their audio packets cover
-- what was taken from the stream, nothing is left behind, and the next event keeps the codec
-- going exactly when it is fair as well.
theorem runs_rebuild (path : Runs (fun s event t => Step lib s event t ∧ Fair s event) (start bos comment) events s) :
    (∀ c ∈ s.chains, Whole lib s.header c) ∧ (s.now.pages ≠ [] → Going lib s) ∧ Covers s.runs s.taken ∧
      s.given = s.header++s.taken++s.os.map Packet.data ∧
      (s.current = false → s.header.length = 3 → s.ended = false → s.os = [] ∧ s.processPacket = some .audio) ∧
      ∀ event t, Step lib s event t → (Continues t ↔ Fair s event) := by
  have inv : Inv lib s := path.preserves (fun inv step => inv.next lib step.1 step.2) (start_inv lib bos comment)
  refine ⟨inv.whole,inv.going lib,inv.covers lib,inv.given,inv.idle,?_⟩
  intro event t step
  refine ⟨fun continues => ?_,fun fair => (inv.next lib step fair).continues lib⟩
  cases event with
  | round n pause =>
    simp only [Step,Vorbis.next] at step
    split at step
    · cases step
      intro audio page notified empty prev
      exact round_unfair lib inv n pause audio page notified empty prev continues
    · cases step
  | _ => trivial

-- What is left to do before process_vorbis returns.
def Codec.rank (s : Codec α σ) : Nat :=
  match s.getBufferPage with
  | some .finished => 3
  | none => 2
  | some .header => 1
  | some .audio => 0

def Codec.work (s : Codec α σ) : Nat := s.os.length+(if s.streamNotify then 1 else 0)

def Less (t s : Codec α σ) : Prop :=
  Prod.Lex (· < ·) (Prod.Lex (· < ·) (· < ·)) (t.work,t.rank,t.newOs.length) (s.work,s.rank,s.newOs.length)

theorem takeAudio_less (os : List (Packet α)) (pause : Nat) (s : Codec α σ) :
    (takeAudio lib os pause s).1.streamNotify = s.streamNotify ∧
    ((takeAudio lib os pause s).2 = true → (takeAudio lib os pause s).1.os.length < os.length) ∧
    (takeAudio lib os pause s).1.os.length ≤ os.length := by
  induction os generalizing pause s with
  | nil => exact ⟨rfl,nofun,Nat.le_refl 0⟩
  | cons packet rest ih =>
    rw [takeAudio.eq_def]
    dsimp only
    split
    · simp [initiateFlush,addPrev_notify]
    · cases pause with
      | zero => simp [addPrev_notify]
      | succ pause =>
        obtain ⟨notify,stopped,shorter⟩ :=
          ih pause {addPrev lib s false with prevPacket := some packet.data,taken := s.taken++[packet.data]}
        exact ⟨notify.trans (addPrev_notify lib s false),fun more => Nat.lt_succ_of_lt (stopped more),
          Nat.le_succ_of_le shorter⟩

theorem processVorbisAudio_less (pause : Nat) (more : (processVorbisAudio lib s pause).2 = true) :
    (processVorbisAudio lib s pause).1.work < s.work := by
  obtain ⟨notify,stopped,shorter⟩ := takeAudio_less lib s.os pause s
  rw [processVorbisAudio] at more ⊢
  generalize takeAudio lib s.os pause s = result at more notify stopped shorter
  obtain ⟨t,halted⟩ := result
  dsimp only at more notify stopped shorter ⊢
  cases halted with
  | true =>
    have less := stopped rfl
    rw [if_pos rfl]
    simp only [Codec.work,notify]
    omega
  | false =>
    rw [if_neg (by decide)] at more ⊢
    split at more
    · rename_i notified
      rw [if_pos notified]
      have flushed : (initiateFlush lib t).os = t.os := by
        unfold initiateFlush addPrev
        split <;> rfl
      simp only [Codec.work,flushed,←notify,notified]
      simp
      omega
    · cases more

theorem less_work {t s : Codec α σ} (less : t.work < s.work) : Less t s := Prod.Lex.left _ _ less

theorem less_rank {t s : Codec α σ} (same : t.work = s.work) (less : t.rank < s.rank) : Less t s := by
  rw [Less,same]
  exact Prod.Lex.right _ (Prod.Lex.left _ _ less)

theorem less_sent {t s : Codec α σ} (work : t.work = s.work) (rank : t.rank = s.rank)
    (less : t.newOs.length < s.newOs.length) : Less t s := by
  rw [Less,work,rank]
  exact Prod.Lex.right _ (Prod.Lex.right _ less)

theorem handBack_less (s : Codec α σ) (unsent : s.newOs ≠ []) (some : n ≠ 0) : Less (handBack s n) s := by
  refine less_sent rfl rfl ?_
  have length := List.length_pos_iff.mpr unsent
  simp only [handBack,List.length_drop]
  omega

-- A round of process_vorbis is the last one, or leaves less to do.
theorem round_less (inv : Inv lib s) (n pause : Nat) :
    (processVorbis lib s n pause).current = false ∨ Less (processVorbis lib s n pause) s := by
  have kept := getBuffer_kept s n
  have idle (page : s.getBufferPage = none) (packet : s.processPacket = none) :
    (processVorbis lib s n pause).current = false := by
    simp [processVorbis,getBuffer,processPacket,page,packet]
  have audio (waits : (getBuffer s n).2 = false) (running : Running lib (getBuffer s n).1) :
      (processVorbis lib s n pause).current = false ∨ Less (processVorbis lib s n pause) s := by
    have busy := running.processPacket
    have same : processPacket lib (getBuffer s n).1 pause = processVorbisAudio lib (getBuffer s n).1 pause := by
      simp [processPacket,busy]
    have work : (getBuffer s n).1.work = s.work := by rw [Codec.work,Codec.work,kept.os,kept.streamNotify]
    have less := processVorbisAudio_less lib (s := (getBuffer s n).1) pause
    rw [processVorbis]
    dsimp only
    rw [if_neg (by simp [waits]),same]
    split
    · rename_i more
      exact .inr (less_work (work ▸ less more))
    · exact .inl rfl
  have headers (waits : (getBuffer s n).2 = false) (starting : Starting (getBuffer s n).1) (rank : 1 < s.rank) :
      Less (processVorbis lib s n pause) s := by
    obtain ⟨headed,_,_,os⟩ := processVorbisHeaders_starting lib starting
    have busy := starting.processPacket
    have same : processPacket lib (getBuffer s n).1 pause = (processVorbisHeaders lib (getBuffer s n).1,true) := by
      simp [processPacket,busy]
    have notify : (processVorbisHeaders lib (getBuffer s n).1).streamNotify = (getBuffer s n).1.streamNotify := by
      unfold processVorbisHeaders
      split <;> rfl
    rw [processVorbis]
    dsimp only
    rw [if_neg (by simp [waits]),same]
    refine less_rank ?_ ?_
    · simp only [Codec.work,if_pos,os,notify,kept.os,kept.streamNotify]
    · simp only [if_pos,Codec.rank,headed.getBufferPage]
      exact rank
  cases inv.stage with
  | waiting stage => exact .inl (idle stage.getBufferPage stage.processPacket)
  | starting stage =>
    have same : getBuffer s n = (s,false) := by simp [getBuffer,stage.getBufferPage]
    refine .inr (headers (by rw [same]) (by rw [same]; exact stage) ?_)
    simp [Codec.rank,stage.getBufferPage]
  | headed stage =>
    obtain ⟨waits,running,_⟩ := stage.buffered lib n
    exact audio waits running
  | running stage =>
    cases handed : (getBuffer s n).2 with
    | false => exact audio handed (stage.buffered lib n).1
    | true =>
      have same : processVorbis lib s n pause = (getBuffer s n).1 := by simp [processVorbis,handed]
      rw [same]
      simp only [getBuffer,stage.getBufferPage] at handed ⊢
      split at handed
      · cases handed
      · rename_i given
        rw [if_neg given]
        exact .inr (handBack_less s (fun empty => given (.inr empty)) (fun zero => given (.inl zero)))
  | finishing stage =>
    rcases stage.buffered lib n with ⟨handed,_,_⟩ | ⟨waits,starting | done,_⟩
    · have same : processVorbis lib s n pause = (getBuffer s n).1 := by simp [processVorbis,handed]
      rw [same]
      simp only [getBuffer,stage.getBufferPage] at handed ⊢
      split at handed
      · cases handed
      · rename_i given
        rw [if_neg given]
        exact .inr (handBack_less s given (Nat.succ_ne_zero n))
    · refine .inr (headers waits starting ?_)
      simp [Codec.rank,stage.getBufferPage]
    · left
      simp [processVorbis,waits,processPacket,done.processPacket]
  | done stage => exact .inl (idle stage.getBufferPage stage.processPacket)

-- The loop of process_vorbis, called again until it returns NULL.
def rounds : Nat → (Nat → Nat × Nat) → Codec α σ → Codec α σ
  | 0,_,s => s
  | k+1,choices,s =>
    if s.current then rounds k (fun i => choices (i+1)) (processVorbis lib s (choices 0).1 (choices 0).2) else s

theorem less_wf : WellFounded (Less : Codec α σ → Codec α σ → Prop) :=
  InvImage.wf (fun s : Codec α σ => (s.work,s.rank,s.newOs.length))
    (Prod.lex Nat.lt_wfRel (Prod.lex Nat.lt_wfRel Nat.lt_wfRel)).wf

theorem rounds_end (inv : Inv lib s) (choices : Nat → Nat × Nat)
    (fair : ∀ k n pause, Fair (rounds lib k choices s) (.round n pause)) :
    ∃ k, (rounds lib k choices s).current = false := by
  induction s using less_wf.induction generalizing choices with
  | h s ih =>
    cases current : s.current with
    | false => exact ⟨0,current⟩
    | true =>
      have after (k : Nat) : rounds lib (k+1) choices s =
          rounds lib k (fun i => choices (i+1))
            (processVorbis lib s (choices 0).1 (choices 0).2) := by simp [rounds,current]
      rcases round_less lib inv (choices 0).1 (choices 0).2 with last | less
      · exact ⟨1,by rw [after 0]; exact last⟩
      · have kept := round_inv lib inv current (choices 0).1 (choices 0).2 (fair 0 _ _)
        obtain ⟨k,done⟩ := ih _ less kept (fun i => choices (i+1)) fun k n pause => after k ▸ fair (k+1) n pause
        exact ⟨k+1,by rw [after k]; exact done⟩

-- A codec that lost its process_packet.
structure Silent (s : Codec α σ) : Prop where
  header : s.header.length = 3
  processPacket : s.processPacket = none
  getBufferPage : s.getBufferPage = none

theorem Silent.next (silent : Silent s) (step : Step lib s event t) : Silent t ∧
    t.taken = s.taken ∧ t.chains = s.chains ∧
    t.now = s.now := by
  cases event with
  | page packets =>
    simp only [Step,Vorbis.next] at step
    split at step
    · cases step
    · cases step
      unfold processVorbisPage
      dsimp only
      rw [if_pos silent.header]
      exact ⟨⟨silent.header,silent.processPacket,silent.getBufferPage⟩,rfl,rfl,rfl⟩
  | notify =>
    cases step
    exact ⟨⟨silent.header,silent.processPacket,silent.getBufferPage⟩,rfl,rfl,rfl⟩
  | rebuild comment =>
    cases step
    exact ⟨⟨silent.header,silent.processPacket,silent.getBufferPage⟩,rfl,rfl,rfl⟩
  | round n pause =>
    simp only [Step,Vorbis.next] at step
    split at step
    · cases step
      have idle : getBuffer s n = (s,false) := by simp [getBuffer,silent.getBufferPage]
      have done : Vorbis.processPacket lib s pause = (s,false) := by simp [Vorbis.processPacket,silent.processPacket]
      rw [processVorbis,idle]
      dsimp only
      rw [if_neg (by decide),done]
      exact ⟨⟨silent.header,silent.processPacket,silent.getBufferPage⟩,rfl,rfl,rfl⟩
    · cases step

theorem silent_stays (silent : Silent s) (path : Runs (Step lib) s events t) : t.taken = s.taken ∧
    t.chains = s.chains ∧ t.now = s.now := by
  have stays : Silent t ∧ t.taken = s.taken ∧ t.chains = s.chains ∧ t.now = s.now := by
    induction path with
    | nil => exact ⟨silent,rfl,rfl,rfl⟩
    | snoc _ last ih =>
      obtain ⟨before,taken,chains,now⟩ := ih
      obtain ⟨after,taken',chains',now'⟩ := before.next lib last
      exact ⟨after,taken'.trans taken,chains'.trans chains,now'.trans now⟩
  exact stays.2

instance (s : Codec α σ) : (event : Event α) → Decidable (Fair s event)
  | .round _ _ => by unfold Fair; exact inferInstance
  | .page _ | .notify | .rebuild _ => isTrue trivial

end

-- Packets that are numbers, each one segment.
def numbers : Libogg Nat (Nat × Bool) := ⟨fun p eos => [(p,eos)],fun _ _ => List.cons_ne_nil _ _⟩

def headerPage : Event Nat := .page [⟨1,false⟩,⟨2,false⟩]

-- A stream of three audio packets with an update after the first two.
def updated : List (Event Nat) :=
  [headerPage,.round 0 9,.round 0 9,.page [⟨3,false⟩,⟨4,false⟩],.round 0 9,.rebuild 7,.notify,.page [],
    .round 0 9,.round 9 9,
    .round 0 9,.round 0 9
  ,.page [⟨5,true⟩],.round 0 9,.round 9 9,.round 0 9]

theorem runs_rebuild_updated : ∃ s, Runs (Step numbers) (start 0 0) updated s ∧
    s.chains.map Chain.audio = [[3,4],[4,5]] ∧
    ∀ c ∈ s.chains, Whole numbers s.header c := by
  have ran : (runFrom (guarded Fair (next numbers)) (start 0 0) updated).map
    (·.chains.map Chain.audio) = some [[3,4],[4,
    5]] := by decide +kernel
  obtain ⟨s,ran,audio⟩ := Option.map_eq_some_iff.mp ran
  have fair := runFrom_sound guarded_sound ran
  exact ⟨s,fair.imp fun step => step.1,audio,(runs_rebuild numbers fair).1⟩

-- An update that comes right after the headers.
def early : List (Event Nat) :=
  [headerPage,.rebuild 7,.notify,.round 0 9,.round 0 9,.round 0 9,.page [⟨3,false⟩,⟨4,false⟩]]

theorem early_update_silences : ∃ s, Runs (Step numbers) (start 0 0) early s ∧ s.os.map Packet.data = [3,4] ∧
    ∀ events t, Runs (Step numbers) s events t → t.taken = [] ∧ t.now.pages = [] := by
  have ran : (runFrom (next numbers) (start 0 0) early).map
    (fun s => decide (s.os.map Packet.data = [3,4] ∧ s.header.length = 3 ∧
      s.processPacket = none ∧ s.getBufferPage = none ∧ s.taken = [] ∧ s.now.pages = [])) =
        some true := by decide +kernel
  obtain ⟨s,ran,values⟩ := Option.map_eq_some_iff.mp ran
  obtain ⟨waiting,header,packet,page,untaken,unsent⟩ := of_decide_eq_true values
  refine ⟨s,runFrom_sound (fun step => step) ran,waiting,fun events t path => ?_⟩
  obtain ⟨taken,_,now⟩ := silent_stays numbers ⟨header,packet,page⟩ path
  exact ⟨taken.trans untaken,by rw [now]; exact unsent⟩

end Icecast.Vorbis
