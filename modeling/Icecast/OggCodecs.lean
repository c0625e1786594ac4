import Icecast.Lib.Bytes
import Icecast.Lib.Transition

namespace Icecast.OggCodecs
open Bytes Transition

inductive CodecName where
  | vorbis | theora | midi | flac | speex | kate | skeleton | opus
deriving DecidableEq

-- The two flags of a vorbis_codec_t that vorbis_set_tag writes.
structure VorbisCodec where
  streamNotify : Bool
  rebuildComment : Bool
deriving DecidableEq

-- codec->specific: NULL, a vorbis_codec_t, or what another codec keeps there.
inductive Specific where
  | null
  | vorbis (v : VorbisCodec)
  | other
deriving DecidableEq

structure OggCodec where
  serialno : Nat
  name : CodecName
  specific : Specific
deriving DecidableEq

-- The parts of ogg_state_t and of the plugin; `setTag` says that plugin->set_tag is
-- vorbis_set_tag, it is NULL otherwise.
structure OggState where
  codecs : List OggCodec
  codecCount : Nat
  bosCompleted : Bool
  error : Bool
  setTag : Bool
  artist : Option (List UInt8)
  title : Option (List UInt8)
deriving DecidableEq

-- format_ogg_get_plugin
def start : OggState := ⟨[],0,false,false,false,none,none⟩

-- A BOS page: its serial number, header and body length, and first packet.
structure BosPage where
  serialno : Nat
  len : Nat
  packet : List UInt8

-- The first packets that libvorbis takes, and the libraries that may be built in.
structure Libraries where
  vorbis : List UInt8 → Bool
  theora : Option (List UInt8 → Bool)
  speex : Option (List UInt8 → Bool)
  kate : Option (List UInt8 → Bool)

-- What the initial pages have in common.
def initialPage (name : CodecName) (specific : Specific) (accepts : BosPage → Bool)
    (page : BosPage) : Option OggCodec :=
  if accepts page then some ⟨page.serialno,name,specific⟩ else none

def initialVorbisPage (lib : Libraries) : BosPage → Option OggCodec :=
  initialPage .vorbis (.vorbis ⟨false,false⟩) fun page => lib.vorbis page.packet

def initialTheoraPage (lib : Libraries) : BosPage → Option OggCodec :=
  initialPage .theora .other fun page => lib.theora.any (· page.packet)

def initialMidiPage : BosPage → Option OggCodec :=
  initialPage .midi .null fun page => (ascii "OggMIDI"++[0]).isPrefixOf page.packet && page.packet.length = 12

def initialFlacPage : BosPage → Option OggCodec :=
  initialPage .flac .null fun page => page.len = 79 && (0x7F::ascii "FLAC").isPrefixOf page.packet

def initialSpeexPage (lib : Libraries) : BosPage → Option OggCodec :=
  initialPage .speex .null fun page => lib.speex.any fun takes => 80 ≤ page.packet.length && takes page.packet

-- Without libkate the magic is examined by hand.
def initialKatePage (lib : Libraries) : BosPage → Option OggCodec :=
  initialPage .kate .other fun page =>
    match lib.kate with
    | some takes => takes page.packet
    | none => (0x80::ascii "kate"++[0,0,0,0]).isPrefixOf page.packet

def initialSkeletonPage : BosPage → Option OggCodec :=
  initialPage .skeleton .null fun page => (ascii "fishead"++[0]).isPrefixOf page.packet

def initialOpusPage : BosPage → Option OggCodec :=
  initialPage .opus .null fun page => (ascii "OpusHead").isPrefixOf page.packet

-- The codec that process_initial_page finds for a page.
def codecOf (lib : Libraries) (page : BosPage) : Option OggCodec :=
  initialVorbisPage lib page <|> initialTheoraPage lib page <|> initialMidiPage page <|> initialFlacPage page <|>
    initialSpeexPage lib page <|> initialKatePage lib page <|> initialSkeletonPage page <|> initialOpusPage page

def freeOggCodecs (s : OggState) : OggState := {s with codecs := [],codecCount := 0,bosCompleted := false}

def addCodec (lib : Libraries) (s : OggState) (page : BosPage) : OggState :=
  if s.codecCount > 10 then {s with error := true} else
  match codecOf lib page with
  | none => {s with error := true}
  | some codec => {s with codecs := codec::s.codecs,codecCount := s.codecCount+1,setTag :=
    s.setTag || codec.name = .vorbis}

def processInitialPage (lib : Libraries) (s : OggState) (page : BosPage) : OggState :=
  addCodec lib (if s.bosCompleted then freeOggCodecs s else s) page

-- What process_page comes to for the codec of a page: it fails, or it is done; a vorbis codec
-- that has its last header takes the artist and the title from its comments.
inductive Processed where
  | failed
  | done
  | comments (artist title : Option (List UInt8))

def processOggPage (s : OggState) (serialno : Nat) (processed : Processed) : OggState :=
  match s.codecs.find? (·.serialno = serialno) with
  | none => {s with bosCompleted := true}
  | some codec =>
    match processed with
    | .failed => {s with bosCompleted := true,error := true}
    | .done => {s with bosCompleted := true}
    | .comments artist title =>
      if codec.name = .vorbis then {s with bosCompleted := true,artist := artist,title := title} else
        {s with bosCompleted := true}

-- Where the flags go back: stream_notify in process_vorbis_audio, rebuild_comment in
-- process_vorbis_headers.
def OggCodec.handled (comment : Bool) (codec : OggCodec) : OggCodec :=
  match codec.specific with
  | .vorbis v => {codec with specific := .vorbis (if comment then {v with rebuildComment := false} else {v with streamNotify := false})}
  | _ => codec

-- vorbis_set_tag; none where it writes through NULL or into what another codec keeps.
def vorbisSetTag (conv : List UInt8 → List UInt8 → Option (List UInt8)) (s : OggState) (tag : Option (List UInt8))
    (value charset : List UInt8) : Option OggState :=
  match s.codecs with
  | [codec] =>
    match tag with
    | none =>
      match codec.specific with
      | .vorbis _ => some {s with codecs := [{codec with specific := .vorbis ⟨true,true⟩}]}
      | _ => none
    | some tag =>
      let value := (conv value charset).getD value
      some (if tag = ascii "artist" then {s with artist := some value}
        else if tag = ascii "title" ∨ tag = ascii "song" then {s with title := some value} else s)
  | _ => some s

inductive Event where
  | bos (page : BosPage)
  | page (serialno : Nat) (processed : Processed)
  | handled (serialno : Nat) (comment : Bool)
  | setTag (tag : Option (List UInt8)) (value charset : List UInt8)
  | reconnected

section
variable (lib : Libraries) (conv : List UInt8 → List UInt8 → Option (List UInt8))

-- ogg_get_buffer, command_metadata on a source that has a set_tag, and a new connection.
def next (s : OggState) : Event → Option OggState
  | .bos page => if s.error then none else some (processInitialPage lib s page)
  | .page serialno processed => if s.error then none else some (processOggPage s serialno processed)
  | .handled serialno comment =>
    if s.error then none else
    some {s with codecs := s.codecs.map fun codec => if codec.serialno = serialno then codec.handled comment else codec}
  | .setTag tag value charset => if s.setTag then vorbisSetTag conv s tag value charset else some s
  | .reconnected => some start

def Step (s : OggState) (event : Event) (t : OggState) : Prop := next lib conv s event = some t

-- The handler fits the codec it would write to.
def Fits (s : OggState) : Prop := s.setTag → ∀ codec, s.codecs = [codec] → codec.name = .vorbis

-- A chain that starts after one with a vorbis codec starts with a vorbis codec, or fails.
def Fair (s : OggState) : Event → Prop
  | .bos page => s.bosCompleted → s.setTag → ∀ codec ∈ codecOf lib page, codec.name = .vorbis
  | _ => True

structure Kept (s : OggState) : Prop where
  specific : ∀ codec ∈ s.codecs, codec.name = .vorbis → ∃ v, codec.specific = .vorbis v
  count : s.codecCount = s.codecs.length
  empty : s.codecs = [] → s.setTag → s.error

theorem initialPage_eq (found : initialPage name specific accepts page = some codec) :
    codec = ⟨page.serialno,name,specific⟩ := by
  unfold initialPage at found
  split at found
  · exact (Option.some.inj found).symm
  · cases found

theorem orElse_cases {x y : Option α} {p : Prop} (left : x = some a → p) (right : y = some a → p)
    (found : (x <|> y) = some a) : p := by
  cases x with
  | none => exact right found
  | some b => exact left found

theorem codecOf_specific (found : codecOf lib page = some codec) (vorbis : codec.name = .vorbis) :
    ∃ v, codec.specific = .vorbis v := by
  have own (found : initialVorbisPage lib page = some codec) : ∃ v, codec.specific = .vorbis v := by
    cases initialPage_eq found
    exact ⟨_,rfl⟩
  have wrong {name : CodecName} {specific : Specific} {accepts : BosPage → Bool} (other : name ≠ .vorbis)
      (found : initialPage name specific accepts page = some codec) : ∃ v, codec.specific = .vorbis v := by
    cases initialPage_eq found
    exact absurd vorbis other
  refine orElse_cases own ?_ found
  iterate 6 refine orElse_cases (wrong (by decide)) ?_
  exact wrong (by decide)

theorem start_kept : Kept start := ⟨nofun,rfl,nofun⟩

theorem add_kept (kept : ∀ codec ∈ s.codecs, codec.name = .vorbis → ∃ v, codec.specific = .vorbis v)
    (count : s.codecCount = s.codecs.length) :
    Kept (addCodec lib s page) := by
  unfold addCodec
  split
  · exact ⟨kept,count,fun _ _ => rfl⟩
  · cases found : codecOf lib page with
    | none => exact ⟨kept,count,fun _ _ => rfl⟩
    | some codec =>
      refine ⟨?_,by simp [count],nofun⟩
      intro other member
      rcases List.mem_cons.mp member with rfl | old
      · exact codecOf_specific lib found
      · exact kept other old

theorem add_first (empty : s.codecs = []) (count : s.codecCount = 0) :
    Fits (addCodec lib s page) ↔ (s.setTag → ∀ codec ∈ codecOf lib page, codec.name = .vorbis) := by
  unfold addCodec Fits
  rw [if_neg (by omega)]
  cases found : codecOf lib page with
  | none => simp [empty]
  | some codec =>
    simp only [empty,List.cons.injEq,and_true,Option.mem_def,Option.some.injEq,forall_eq']
    cases s.setTag <;> simp

theorem add_second (more : s.codecs ≠ []) (fits : Fits s) : Fits (addCodec lib s page) := by
  unfold addCodec
  split
  · exact fits
  · split
    · exact fits
    · intro _ codec alone
      exact absurd (List.cons.inj alone).2 more

theorem bos_kept (kept : Kept s) (running : s.error = false) : Kept (processInitialPage lib s page) ∧
    (Fits s → (Fits (processInitialPage lib s page) ↔ Fair lib s (.bos page))) := by
  unfold processInitialPage
  by_cases completed : s.bosCompleted
  · rw [if_pos completed]
    refine ⟨add_kept lib nofun rfl,fun _ => ?_⟩
    rw [add_first lib rfl rfl]
    simp [Fair,completed,freeOggCodecs]
  · rw [if_neg completed]
    refine ⟨add_kept lib kept.specific kept.count,fun fits => ?_⟩
    have fair : Fair lib s (.bos page) := fun done => absurd done completed
    refine iff_of_true ?_ fair
    by_cases empty : s.codecs = []
    · have unset : s.setTag = false := by
        cases set : s.setTag with
        | false => rfl
        | true => exact absurd (kept.empty empty set) (by simp [running])
      rw [add_first lib empty (by rw [kept.count,empty]; rfl),unset]
      exact nofun
    · exact add_second lib empty fits

-- A step that leaves the codecs in place.
structure Same (s t : OggState) : Prop where
  names : t.codecs.map (·.name) = s.codecs.map (·.name)
  specific : (∀ codec ∈ s.codecs, codec.name = .vorbis → ∃ v, codec.specific = .vorbis v) →
    ∀ codec ∈ t.codecs, codec.name = .vorbis → ∃ v, codec.specific = .vorbis v
  count : t.codecCount = s.codecCount
  setTag : t.setTag = s.setTag
  error : s.error → t.error

theorem fits_names (s : OggState) : Fits s ↔ (s.setTag → ∀ name, s.codecs.map (·.name) = [name] → name = .vorbis) := by
  refine forall_congr' fun _ => ⟨fun fits name alone => ?_,fun fits codec alone => fits codec.name (by rw [alone]; rfl)⟩
  obtain ⟨codec,rest,codecs,rfl,none⟩ := List.map_eq_cons_iff.mp alone
  rw [List.map_eq_nil_iff.mp none] at codecs
  exact fits codec codecs

theorem Same.fits (same : Same s t) : Fits t ↔ Fits s := by
  rw [fits_names,fits_names,same.setTag,same.names]

theorem Same.kept (same : Same s t) (kept : Kept s) : Kept t := by
  have length := congrArg List.length same.names
  rw [List.length_map,List.length_map] at length
  refine ⟨same.specific kept.specific,?_,fun empty set => same.error (kept.empty ?_ (same.setTag ▸ set))⟩
  · rw [same.count,kept.count,length]
  · rw [empty] at length
    exact List.eq_nil_of_length_eq_zero length.symm

theorem page_same (s : OggState) (serialno : Nat) (processed : Processed) :
    Same s (processOggPage s serialno processed) := by
  unfold processOggPage
  repeat' split
  all_goals exact ⟨rfl,id,rfl,rfl,by simp⟩

theorem handled_name (comment : Bool) (codec : OggCodec) : (codec.handled comment).name = codec.name := by
  unfold OggCodec.handled
  split <;> rfl

theorem handled_specific {codec : OggCodec} (comment : Bool) (vorbis : codec.specific = .vorbis v) :
    ∃ v, (codec.handled comment).specific = .vorbis v := by
  unfold OggCodec.handled
  rw [vorbis]
  exact ⟨_,rfl⟩

theorem handled_same (s : OggState) (serialno : Nat) (comment : Bool) :
    Same s {s with codecs := s.codecs.map fun codec =>
    if codec.serialno = serialno then codec.handled comment else codec} := by
  refine ⟨?_,?_,rfl,rfl,id⟩
  · rw [List.map_map]
    refine List.map_congr_left fun codec _ => ?_
    dsimp only [Function.comp]
    split
    · exact handled_name comment codec
    · rfl
  · intro specific codec member vorbis
    obtain ⟨old,present,rfl⟩ := List.mem_map.mp member
    by_cases own : old.serialno = serialno
    · rw [if_pos own] at vorbis ⊢
      rw [handled_name] at vorbis
      obtain ⟨v,here⟩ := specific old present vorbis
      exact handled_specific comment here
    · rw [if_neg own] at vorbis ⊢
      exact specific old present vorbis

theorem setTag_same (set : vorbisSetTag conv s tag value charset = some t) : Same s t := by
  unfold vorbisSetTag at set
  split at set
  · rename_i codec codecs
    cases tag with
    | none =>
      dsimp only at set
      split at set
      · cases set
        refine ⟨by rw [codecs]; rfl,?_,rfl,rfl,id⟩
        intro _ other member _
        cases List.mem_singleton.mp member
        exact ⟨_,rfl⟩
      · cases set
    | some tag =>
      cases set
      repeat' split
      all_goals exact ⟨rfl,id,rfl,rfl,id⟩
  · cases set
    exact ⟨rfl,id,rfl,rfl,id⟩

theorem setTag_total (kept : Kept s) (fits : Fits s) (set : s.setTag) (tag : Option (List UInt8))
    (value charset : List UInt8) :
    (vorbisSetTag conv s tag value charset).isSome := by
  unfold vorbisSetTag
  split
  · rename_i codec codecs
    obtain ⟨v,vorbis⟩ := kept.specific codec (by rw [codecs]; exact List.mem_singleton_self codec)
      (fits set codec codecs)
    cases tag with
    | none =>
      rw [vorbis]
      rfl
    | some tag => rfl
  · rfl

theorem next_kept (kept : Kept s) (step : next lib conv s event = some t) :
    Kept t ∧ (Fits s → (Fits t ↔ Fair lib s event)) := by
  have same (same : Same s t) (fair : Fair lib s event) : Kept t ∧ (Fits s → (Fits t ↔ Fair lib s event)) :=
    ⟨same.kept kept,fun fits => iff_of_true (same.fits.mpr fits) fair⟩
  cases event with
  | bos page =>
    simp only [next] at step
    split at step
    · cases step
    · rename_i running
      cases step
      exact bos_kept lib kept (by simpa using running)
  | page serialno processed =>
    simp only [next] at step
    split at step
    · cases step
    · cases step
      exact same (page_same s serialno processed) trivial
  | handled serialno comment =>
    simp only [next] at step
    split at step
    · cases step
    · cases step
      exact same (handled_same s serialno comment) trivial
  | setTag tag value charset =>
    simp only [next] at step
    split at step
    · exact same (setTag_same conv step) trivial
    · cases step
      exact same ⟨rfl,id,rfl,rfl,id⟩ trivial
  | reconnected =>
    cases step
    exact ⟨start_kept,fun _ => iff_of_true nofun trivial⟩

structure Sound (s : OggState) : Prop where
  kept : Kept s
  fits : Fits s

theorem Sound.next (sound : Sound s) (step : Step lib conv s event t) (fair : Fair lib s event) : Sound t := by
  have after := next_kept lib conv sound.kept step
  exact ⟨after.1,(after.2 sound.fits).mpr fair⟩

theorem start_sound : Sound start := ⟨start_kept,nofun⟩

-- In a run of fair events the handler fits and never writes where it should not, and the next
-- event keeps it so exactly when it is fair as well.
theorem runs_fit (path : Runs (fun s event t => Step lib conv s event t ∧ Fair lib s event) start events s) :
    Fits s ∧ (s.setTag → ∀ tag value charset, (vorbisSetTag conv s tag value charset).isSome) ∧
      ∀ event t, Step lib conv s event t → (Fits t ↔ Fair lib s event) := by
  have sound : Sound s := path.preserves (fun sound step => sound.next lib conv step.1 step.2) start_sound
  refine ⟨sound.fits,fun set tag value charset => setTag_total conv sound.kept sound.fits set tag value charset,?_⟩
  intro event t step
  exact (next_kept lib conv sound.kept step).2 sound.fits

end

def noLibraries : Libraries := ⟨(1::ascii "vorbis").isPrefixOf,none,none,none⟩

def noConversion : List UInt8 → List UInt8 → Option (List UInt8) := fun _ _ => none

def vorbisPage (serialno : Nat) : BosPage := ⟨serialno,58,1::ascii "vorbis"⟩

def opusPage : BosPage := ⟨3,47,ascii "OpusHead"⟩

-- Two vorbis chains, with an update in each.
def vorbisEvents : List Event :=
  [.bos (vorbisPage 1),.page 1 (.comments none (some (ascii "a"))),
    .setTag (some (ascii "song")) (ascii "b") [],.setTag none [] []
  ,.handled 1 false,.handled 1 true,.bos (vorbisPage 2),.setTag none [] []]

instance (lib : Libraries) (s : OggState) : (event : Event) → Decidable (Fair lib s event)
  | .bos page => inferInstanceAs
  (Decidable (s.bosCompleted → s.setTag → ∀ codec ∈ codecOf lib page,codec.name = .vorbis))
  | .page _ _ | .handled _ _ | .setTag _ _ _ | .reconnected => isTrue trivial

theorem runs_fit_vorbis : ∃ s, Runs (Step noLibraries noConversion) start vorbisEvents s ∧ s.setTag ∧
    ∀ codec, s.codecs = [codec] → codec.name = .vorbis := by
  have ran : (runFrom (guarded (Fair noLibraries) (next noLibraries noConversion)) start vorbisEvents).map
    (·.setTag) = some true := by decide +kernel
  obtain ⟨s,ran,set⟩ := Option.map_eq_some_iff.mp ran
  have fair := runFrom_sound guarded_sound ran
  exact ⟨s,fair.imp fun step => step.1,set,(runs_fit noLibraries noConversion fair).1 set⟩

-- An opus chain after a vorbis one: vorbis_set_tag is still the handler, and codec->specific
-- is NULL.
def opusEvents : List Event := [.bos (vorbisPage 1),.page 1 .done,.bos opusPage]

theorem opus_tagged : ∃ s, Runs (Step noLibraries noConversion) start opusEvents s ∧ s.setTag ∧
    s.codecs = [⟨3,.opus,.null⟩] ∧ vorbisSetTag noConversion s none [] [] = none := by
  have ran : (runFrom (next noLibraries noConversion) start opusEvents).map
      (fun s => (s.setTag,s.codecs,vorbisSetTag noConversion s none [] [])) =
        some (true,[⟨3,.opus,.null⟩],none) := by decide +kernel
  obtain ⟨s,ran,values⟩ := Option.map_eq_some_iff.mp ran
  exact ⟨s,runFrom_sound (fun step => step) ran,congrArg (·.1) values,congrArg (·.2.1) values,congrArg (·.2.2) values⟩

end Icecast.OggCodecs
