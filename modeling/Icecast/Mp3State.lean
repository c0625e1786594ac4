import Mathlib.Algebra.Group.Nat.Defs
import Mathlib.Algebra.Group.Int.Defs
import Icecast.Lib.Bytes

namespace Icecast.Mp3
open Bytes

-- The plugin's state for one source (mp3_state). Its refbufs appear by content:
-- `metadata` is the current metadata buffer, `readData` the buffer being filled.
-- `inlineUrl` is the text the pointer into the metadata buffer leads to.
structure Mp3State where
  inlineMetadataInterval : Nat
  offset : Nat
  interval : Int
  urlArtist : Option (List UInt8)
  urlTitle : Option (List UInt8)
  url : Option (List UInt8)
  inlineUrl : Option (List UInt8)
  updateMetadata : Bool
  metadata : List UInt8
  readData : Option (List UInt8)
  readCount : Nat
  buildMetadataLen : Nat
  buildMetadataOffset : Nat
  buildMetadata : List UInt8
deriving DecidableEq,Repr

def refbufSize : Nat := 1400
def buildMetadataSize : Nat := 4081

def streamTitle : List UInt8 := ascii "StreamTitle='"
def titleMark : List UInt8 := ascii "StreamTitle="
def urlMark : List UInt8 := ascii "StreamUrl='"
def endMark : List UInt8 := ascii "';"

-- "\001StreamTitle='';" with its terminating NUL: one sixteen byte unit.
def blankMetadata : List UInt8 := 1::ascii "StreamTitle='';"++[0]

-- `metaint` is atoi of the source's icy-metaint header, none without the header.
def formatMp3GetPlugin (metaint : Option Int) : Mp3State :=
  let state : Mp3State :=
    { inlineMetadataInterval := 0, offset := 0, interval := -1
      urlArtist := none, urlTitle := none, url := none, inlineUrl := none, updateMetadata := false
      metadata := blankMetadata, readData := none, readCount := 0
      buildMetadataLen := 0, buildMetadataOffset := 0, buildMetadata := List.replicate buildMetadataSize 0 }
  match metaint with
  | none => state
  | some n => if n > 0 then {state with inlineMetadataInterval := n.toNat,interval := n} else state

inductive Tag where
  | title | song | artist | url | other
deriving DecidableEq,Repr

-- mp3_set_tag with the value already converted to the stream's charset. A request
-- without a tag asks for the collected values to be put in the stream.
def mp3SetTag (s : Mp3State) (tag : Option Tag) (value : Option (List UInt8)) : Mp3State :=
  match tag with
  | none => {s with updateMetadata := true}
  | some .title | some .song => {s with urlTitle := value}
  | some .artist => {s with urlArtist := value}
  | some .url => {s with url := value}
  | some .other => s

def maxMetaLen : Nat := 255*16

-- What mp3_set_title allows for: the title text, its quotes, ';' and NUL, and the url.
def titleLen (s : Mp3State) : Nat :=
  let both := if s.urlArtist.isSome && s.urlTitle.isSome then 3 else 0
  let url := match s.inlineUrl with
    | some text => match strstr endMark text with
      | some rest => text.length-rest.length+2
      | none => 0
    | none => match s.url with
      | some text => text.length+urlMark.length+2
      | none => 0
  16+(s.urlArtist.getD []).length+(s.urlTitle.getD []).length+both+url

-- The text of the first snprintf; %s prints a NULL title as (null).
def titleText (s : Mp3State) (lenByte : UInt8) : List UInt8 :=
  match s.urlArtist,s.urlTitle with
  | some artist,some title => lenByte::streamTitle++artist++ascii " - "++title++endMark
  | _,title => lenByte::streamTitle++title.getD (ascii "(null)")++endMark

-- The room an inline url needs; one without an end mark is taken to fill the block.
def urlLen (inline : List UInt8) (size : Nat) : Nat :=
  match strstr endMark inline with
  | some rest => inline.length-rest.length+2
  | none => size

-- The new buffer mp3_set_title fills; none is a write outside it.
def titleBlock (s : Mp3State) : Option (List UInt8) :=
  let lenByte := (titleLen s-1)/16+1
  let size := lenByte*16+1
  let text := titleText s (UInt8.ofNat lenByte)
  let r := text.length
  (snprintf (List.replicate size 0) 0 size text).bind fun p =>
  match s.inlineUrl with
  | some inline =>
    if (size : Int)-r > urlLen inline size then snprintf p r (size-r) (urlMark++inline.drop 11++endMark) else some p
  | none =>
    match s.url with
    | some url =>
      -- size-r is a size_t: past the end it is huge and nothing limits the print
      let room := if r ≤ size then size-r else 2^64+size-r
      snprintf p r room (urlMark++url++endMark)
    | none => some p

-- mp3_set_title keeps the old buffer when the text is too long.
def mp3SetTitle (s : Mp3State) : Option Mp3State :=
  if titleLen s > maxMetaLen then some s else (titleBlock s).map fun p => {s with metadata := p}

theorem title_fits (noInline : s.inlineUrl = none) (url : s.url = some text) (k : UInt8) :
    (titleText s k).length ≤ titleLen s := by
  cases artist : s.urlArtist <;> cases title : s.urlTitle <;>
    simp [titleText,titleLen,artist,title,noInline,url,streamTitle,endMark,urlMark,ascii] <;> omega

-- mp3_set_title never writes outside its buffer.
theorem title_block_total (s : Mp3State) : ∃ p, titleBlock s = some p := by
  unfold titleBlock
  dsimp only
  generalize hsize : ((titleLen s-1)/16+1)*16+1 = size
  generalize htext : titleText s (UInt8.ofNat ((titleLen s-1)/16+1)) = text
  obtain ⟨p,printed⟩ := snprintf_total text (show 0+size ≤ (List.replicate size 0).length by simp)
  have width : p.length = size := by rw [length_snprintf printed,List.length_replicate]
  rw [printed,Option.bind_some]
  cases inline : s.inlineUrl with
  | some url =>
    dsimp only
    split
    · exact snprintf_total _ (by omega)
    · exact ⟨p,rfl⟩
  | none =>
    cases url : s.url with
    | none => exact ⟨p,rfl⟩
    | some link =>
      have fits := title_fits inline url (UInt8.ofNat ((titleLen s-1)/16+1))
      rw [htext] at fits
      have below : text.length ≤ size := by omega
      dsimp only
      rw [if_pos below]
      exact snprintf_total _ (by omega)

-- The block a request for a new title puts in, none when its text is too long.
def newTitle (s : Mp3State) : Option (List UInt8) := if titleLen s > maxMetaLen then none else titleBlock s

theorem set_title_eq (s : Mp3State) : mp3SetTitle s = some {s with metadata := (newTitle s).getD s.metadata} := by
  unfold mp3SetTitle newTitle
  split
  · rfl
  · obtain ⟨p,made⟩ := title_block_total s
    rw [made,Option.map_some,Option.getD_some]

example : blankMetadata.length = 17 := by decide

end Icecast.Mp3
