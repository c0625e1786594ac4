import Icecast.Mp3State

namespace Icecast.Mp3
open Bytes

-- The `len` of mp3_set_title, an unsigned int.
def titleField (s : Mp3State) : Nat := titleLen s % 2^32

-- What mp3_set_title prints behind the title into a buffer of `size` bytes, of which
-- the title takes `r`.
def printUrl (s : Mp3State) (p : List UInt8) (size r : Nat) : Option (List UInt8) :=
  match s.inlineUrl with
  | some inline =>
    if (size : Int)-r > urlLen inline size then snprintf p r (size-r) (urlMark++inline.drop 11++endMark) else some p
  | none =>
    match s.url with
    | some url => snprintf p r (if r ≤ size then size-r else 2^64+size-r) (urlMark++url++endMark)
    | none => some p

def lenByte (len : Nat) : Nat := ((len+2^32-1)%2^32/16+1)%256

-- mp3_set_title on the texts of the plugin: none within for the old block, none at all
-- for a write outside the new one. snprintf fails on a text no int can count.
def titleOutcome (s : Mp3State) : Option (Option (List UInt8)) :=
  if titleField s > maxMetaLen then some none else
  let size := lenByte (titleField s)*16+1
  let text := titleText s (UInt8.ofNat (lenByte (titleField s)))
  (snprintf (List.replicate size 0) 0 size text).bind fun p =>
  (if text.length < 2^31 then printUrl s p size text.length else some p).map some

-- The texts a block should hold.
def titlePart (s : Mp3State) : List UInt8 :=
  streamTitle++(match s.urlArtist,s.urlTitle with
    | some artist,some title => artist++ascii " - "++title
    | some artist,none => artist
    | none,title => title.getD [])++endMark

-- The text in front of its first end mark.
def beforeEnd (text : List UInt8) : List UInt8 :=
  match strstr endMark text with
  | some rest => text.take (text.length-rest.length)
  | none => text

def urlPart (s : Mp3State) : List UInt8 :=
  match s.inlineUrl with
  | some inline => if (strstr endMark inline).isSome then urlMark++beforeEnd (inline.drop 11)++endMark else []
  | none =>
    match s.url with
    | some url => urlMark++url++endMark
    | none => []

def blockText (s : Mp3State) : List UInt8 := titlePart s++urlPart s

-- The old block stays for a text of more than 255 units, or the new one is one with
-- the text, of the size its first byte tells.
def TitleSet (s : Mp3State) : Prop :=
  titleOutcome s = some none ∧ maxMetaLen < (blockText s).length ∨
  ∃ (b : UInt8) (pad : Nat), titleOutcome s = some (some (b::blockText s++List.replicate pad 0)) ∧
    (blockText s).length+pad = 16*b.toNat

-- The texts are C strings, and the inline url starts at its mark.
structure TitleTexts (s : Mp3State) : Prop where
  artist : 0 ∉ s.urlArtist.getD []
  title : 0 ∉ s.urlTitle.getD []
  url : 0 ∉ s.url.getD []
  inline_ : 0 ∉ s.inlineUrl.getD []
  marked : ∀ text, s.inlineUrl = some text → urlMark <+: text

def missing : List UInt8 := ascii "(null)"

def units (s : Mp3State) : Nat := (titleLen s-1)/16+1

-- When the prints of the title and of the url put down just what they should: there is
-- a title, or the one present part reads like a missing one, and an inline url ends
-- where the block ends.
def TitlePrints (s : Mp3State) : Prop :=
  match s.inlineUrl,s.urlTitle with
  | none,some _ => True
  | none,none => s.urlArtist = some missing
  | some inline,title =>
    match strstr endMark inline,title with
    | none,some _ => True
    | none,none => s.urlArtist = some missing
    | some _,some _ => min (16*units s-(titlePart s).length-1) (inline.length+2) = (urlPart s).length
    | some _,none => urlLen inline 0+21 < 16*units s ∧
      missing++endMark++(inline++endMark).take (16*units s-22) = s.urlArtist.getD []++endMark++urlPart s

-- When mp3_set_title does what it should.
def TitleFits (s : Mp3State) : Prop :=
  if titleField s > maxMetaLen then (blockText s).length ≠ maxMetaLen else titleLen s < 2^32 ∧ TitlePrints s

-- What the print of the url puts down in a block of `n` bytes and its length byte.
def urlPrinted (s : Mp3State) (n r : Nat) : List UInt8 :=
  match s.inlineUrl with
  | some inline => if ((n+1 : Nat) : Int)-r > urlLen inline (n+1) then
    (urlMark++inline.drop 11++endMark).take (n-r) else []
  | none =>
    match s.url with
    | some url => (urlMark++url++endMark).take (n-r)
    | none => []

theorem print_url_eq (s : Mp3State) (text : List UInt8) (fits : text.length ≤ n) :
    ∃ pad, printUrl s (text++List.replicate (n+1-text.length) 0) (n+1) text.length =
      some (text++urlPrinted s n text.length++List.replicate pad 0) ∧
      text.length+(urlPrinted s n text.length).length+pad = n+1 := by
  have put : ∀ url : List UInt8, ∃ pad, snprintf (text++List.replicate (n+1-text.length) 0) text.length
    (n+1-text.length) url =
      some (text++url.take (n-text.length)++List.replicate pad 0) ∧
        text.length+(url.take (n-text.length)).length+pad = n+1 := by
    intro url
    have room : n+1-text.length-1 = n-text.length := by omega
    have short := List.length_take_le (n-text.length) url
    have printed := snprintf_zeros text url (n+1-text.length)
    rw [room] at printed
    exact ⟨_,printed,by omega⟩
  have nothing : ∃ pad, some (text++List.replicate (n+1-text.length) 0) = some (text++[]++List.replicate pad 0) ∧
      text.length+([] : List UInt8).length+pad = n+1 :=
    ⟨n+1-text.length,by rw [List.append_nil],by rw [List.length_nil]; omega⟩
  unfold printUrl urlPrinted
  cases s.inlineUrl with
  | some inline =>
    dsimp only
    split
    · exact put _
    · exact nothing
  | none =>
    cases s.url with
    | some url =>
      dsimp only
      rw [if_pos (Nat.le_succ_of_le fits)]
      exact put _
    | none => exact nothing

theorem title_text_eq (s : Mp3State) (k : UInt8) :
    titleText s k = k::match s.urlTitle with | some _ => titlePart s | none => streamTitle++missing++endMark := by
  unfold titleText titlePart
  cases s.urlArtist <;> cases s.urlTitle <;> simp [missing]

theorem units_bounds (s : Mp3State) : titleLen s ≤ 16*units s ∧ 16*units s < titleLen s+16 := by
  have positive : 16 ≤ titleLen s := by
    unfold titleLen
    dsimp only
    omega
  unfold units
  omega

theorem title_outcome_eq (short : titleLen s ≤ maxMetaLen) :
    titleField s = titleLen s ∧ lenByte (titleField s) = units s ∧ (UInt8.ofNat (units s)).toNat = units s := by
  have bounds := units_bounds s
  have most : maxMetaLen = 4080 := rfl
  have field : titleField s = titleLen s := Nat.mod_eq_of_lt (by omega)
  refine ⟨field,?_,?_⟩
  · rw [field]
    unfold lenByte units at *
    omega
  · rw [UInt8.toNat_ofNat']
    omega

theorem TitleSet.iff_text {s : Mp3State} (made : titleOutcome s = some (some (k::text++List.replicate pad 0)))
    (size : text.length+pad = 16*k.toNat) (clean : 0 ∉ text) (free : 0 ∉ blockText s) : TitleSet s ↔
    text = blockText s := by
  constructor
  · rintro (⟨kept,_⟩ | ⟨b,more,same,_⟩)
    · cases made.symm.trans kept
    · have block := Option.some.inj (Option.some.inj (made.symm.trans same))
      simp only [List.cons_append] at block
      have rest := congrArg cstr (List.cons.inj block).2
      rw [cstr_padded clean,cstr_padded free] at rest
      exact rest
  · rintro rfl
    exact .inr ⟨k,pad,made,size⟩

theorem before_end_front (text : List UInt8) : beforeEnd text++endMark <+: text++endMark := by
  unfold beforeEnd
  cases found : strstr endMark text with
  | none => exact List.prefix_refl _
  | some rest =>
    obtain ⟨⟨front,rfl⟩,mark⟩ := strstr_spec found
    have width : (front++rest).length-rest.length = front.length := by
      rw [List.length_append]
      omega
    dsimp only
    rw [width,List.take_left]
    exact ((List.prefix_append_right_inj front).mpr mark).trans (List.prefix_append _ _)

theorem inline_end {rest : List UInt8} (found : strstr endMark (urlMark++rest) = some tail) :
    tail.length = rest.length+1 ∨ strstr endMark rest = some tail := by
  have shape : strstr endMark (urlMark++rest) = if [59] <+: rest then some (39::rest) else strstr endMark rest := by
    simp [strstr,urlMark,endMark,ascii,List.isPrefixOf]
  rw [shape] at found
  split at found
  · cases found
    exact .inl rfl
  · exact .inr found

theorem title_len_eq (s : Mp3State) : titleLen s = (titlePart s).length+1+match s.inlineUrl with
    | some text => match strstr endMark text with
      | some rest => text.length-rest.length+2
      | none => 0
    | none => match s.url with
      | some text => text.length+urlMark.length+2
      | none => 0 := by
  have part : 16+(s.urlArtist.getD []).length+(s.urlTitle.getD
    []).length+(if s.urlArtist.isSome && s.urlTitle.isSome then 3 else 0) =
      (titlePart s).length+1 := by
    unfold titlePart
    cases s.urlArtist <;> cases s.urlTitle <;> simp [streamTitle,endMark,ascii] <;> omega
  exact Nat.add_right_cancel_iff.mpr part

theorem set_title_narrow (narrow : titleLen s < 2^32) :
    mp3SetTitle s = (titleOutcome s).map fun new => {s with metadata := new.getD s.metadata} := by
  have field : titleField s = titleLen s := Nat.mod_eq_of_lt narrow
  unfold mp3SetTitle titleOutcome
  rw [field]
  split
  · rfl
  · rename_i short
    obtain ⟨_,byte,_⟩ := title_outcome_eq (Nat.le_of_not_gt short)
    rw [field] at byte
    have part := title_len_eq s
    have count : (titleText s (UInt8.ofNat (units s))).length < 2^31 := by
      have most : maxMetaLen = 4080 := rfl
      rw [title_text_eq,List.length_cons]
      cases s.urlTitle with
      | some title =>
        dsimp only
        omega
      | none => exact (by decide : (streamTitle++missing++endMark).length+1 < 2^31)
    have block : titleBlock s =
      (snprintf (List.replicate (units s*16+1) 0) 0 (units s*16+1) (titleText s (UInt8.ofNat (units s)))).bind
        fun p => printUrl s p (units s*16+1) (titleText s (UInt8.ofNat (units s))).length := rfl
    rw [byte]
    simp only [if_pos count]
    rw [block]
    cases snprintf (List.replicate (units s*16+1) 0) 0 (units s*16+1) (titleText s (UInt8.ofNat (units s))) with
    | none => rfl
    | some p =>
      rw [Option.bind_some,Option.bind_some,Option.map_map]
      rfl

theorem len_le_text (texts : TitleTexts s) : titleLen s ≤ (blockText s).length+1 := by
  rw [title_len_eq,blockText,List.length_append]
  unfold urlPart
  cases inline : s.inlineUrl with
  | none =>
    cases s.url with
    | none => simp
    | some url =>
      simp only [List.length_append,show endMark.length = 2 from rfl]
      omega
  | some text =>
    obtain ⟨rest,rfl⟩ := texts.marked text inline
    dsimp only
    cases found : strstr endMark (urlMark++rest) with
    | none => simp
    | some tail =>
      have dropped : (urlMark++rest).drop 11 = rest := List.drop_left' (show urlMark.length = 11 from rfl)
      rw [if_pos (show (some tail).isSome = true from rfl),dropped]
      simp only [List.length_append,show endMark.length = 2 from rfl,show urlMark.length = 11 from rfl]
      rcases inline_end found with quote | behind
      · omega
      · have short := (strstr_spec behind).1.length_le
        unfold beforeEnd
        rw [behind]
        dsimp only
        rw [List.length_take]
        omega

theorem before_end_clean (clean : 0 ∉ text) : 0 ∉ beforeEnd text := by
  unfold beforeEnd
  split
  · exact fun member => clean (List.mem_of_mem_take member)
  · exact clean

theorem TitleTexts.text_clean (texts : TitleTexts s) : 0 ∉ titlePart s ∧ 0 ∉ urlPart s := by
  obtain ⟨artist,title,url,inline_,_⟩ := texts
  constructor
  · unfold titlePart
    simp only [List.mem_append,not_or]
    refine ⟨⟨by decide,?_⟩,by decide⟩
    cases given : s.urlArtist <;> cases named : s.urlTitle <;> rw [given] at artist <;> rw [named] at title
    · exact title
    · exact title
    · exact artist
    · simp only [List.mem_append,not_or]
      exact ⟨⟨artist,by decide⟩,title⟩
  · unfold urlPart
    cases given : s.inlineUrl with
    | some text =>
      rw [given] at inline_
      have rest : 0 ∉ beforeEnd (text.drop 11) := before_end_clean fun member => inline_ (List.mem_of_mem_drop member)
      dsimp only
      split
      · simp only [List.mem_append,not_or]
        exact ⟨⟨by decide,rest⟩,by decide⟩
      · exact List.not_mem_nil
    | none =>
      cases given : s.url with
      | some text =>
        rw [given] at url
        simp only [List.mem_append,not_or]
        exact ⟨⟨by decide,url⟩,by decide⟩
      | none => exact List.not_mem_nil

theorem TitleTexts.printed_clean (texts : TitleTexts s) (n r : Nat) : 0 ∉ urlPrinted s n r := by
  obtain ⟨_,_,url,inline_,_⟩ := texts
  unfold urlPrinted
  cases given : s.inlineUrl with
  | some text =>
    rw [given] at inline_
    dsimp only
    split
    · intro member
      have printed := List.mem_of_mem_take member
      simp only [List.mem_append] at printed
      rcases printed with (mark | rest) | mark
      · exact absurd mark (by decide)
      · exact inline_ (List.mem_of_mem_drop rest)
      · exact absurd mark (by decide)
    · exact List.not_mem_nil
  | none =>
    cases given : s.url with
    | some text =>
      rw [given] at url
      intro member
      have printed := List.mem_of_mem_take member
      simp only [List.mem_append] at printed
      rcases printed with (mark | rest) | mark
      · exact absurd mark (by decide)
      · exact url rest
      · exact absurd mark (by decide)
    | none => exact List.not_mem_nil

theorem take_eq_front {part whole : List UInt8} (front : part <+: whole) : whole.take m = part ↔
    min m whole.length = part.length := by
  constructor
  · intro same
    rw [← same,List.length_take]
  · intro width
    have short := front.length_le
    have cut := List.take_eq_take_iff.mpr (show min m whole.length = min part.length whole.length by omega)
    exact cut.trans (List.prefix_iff_eq_take.mp front).symm

theorem url_part_inline (inline : s.inlineUrl = some (urlMark++rest))
    (found : strstr endMark (urlMark++rest) = some tail) :
    urlPart s = urlMark++beforeEnd rest++endMark := by
  have dropped : (urlMark++rest).drop 11 = rest := List.drop_left' (show urlMark.length = 11 from rfl)
  unfold urlPart
  rw [inline]
  dsimp only
  rw [found,if_pos (show (some tail).isSome = true from rfl),dropped]

theorem titled_url (texts : TitleTexts s) (title : s.urlTitle = some t) : (titlePart s).length+1 ≤ 16*units s ∧
    (urlPrinted s (16*units s) ((titlePart s).length+1) = urlPart s ↔ TitlePrints s) := by
  have room := (units_bounds s).1
  rw [title_len_eq] at room
  refine ⟨by omega,?_⟩
  unfold urlPrinted TitlePrints
  rw [title]
  cases inline : s.inlineUrl with
  | none =>
    rw [inline] at room
    unfold urlPart
    rw [inline]
    cases url : s.url with
    | none => exact ⟨fun _ => trivial,fun _ => rfl⟩
    | some link =>
      rw [url] at room
      refine ⟨fun _ => trivial,fun _ => List.take_of_length_le ?_⟩
      simp only [List.length_append,show endMark.length = 2 from rfl]
      dsimp only at room
      omega
  | some text =>
    rw [inline] at room
    obtain ⟨rest,rfl⟩ := texts.marked text inline
    have dropped : (urlMark++rest).drop 11 = rest := List.drop_left' (show urlMark.length = 11 from rfl)
    dsimp only at room ⊢
    cases found : strstr endMark (urlMark++rest) with
    | none =>
      unfold urlLen urlPart
      rw [inline,found,if_neg (by dsimp only; omega)]
      dsimp only
      rw [found]
      exact ⟨fun _ => trivial,fun _ => rfl⟩
    | some tail =>
      rw [found] at room
      unfold urlLen
      rw [found]
      dsimp only at room ⊢
      have front : urlMark++beforeEnd rest++endMark <+: urlMark++rest++endMark := by
        rw [List.append_assoc,List.append_assoc]
        exact (List.prefix_append_right_inj urlMark).mpr (before_end_front rest)
      rw [if_pos (by omega),dropped,url_part_inline inline found,take_eq_front front,Nat.sub_add_eq,
        show (urlMark++rest++endMark).length = (urlMark++rest).length+2 from List.length_append]

theorem missing_front (same : missing++endMark++x = artist++endMark++y) (short : artist.length ≤ 6) :
    artist = missing := by
  unfold missing at *
  match artist with
  | [] | [_] | [_,_] | [_,_,_] | [_,_,_,_] | [_,_,_,_,_] => simp [ascii,endMark] at same
  | [_,_,_,_,_,_] =>
    simp only [ascii,endMark] at same
    exact (List.append_inj_left (List.append_inj_left same rfl) rfl).symm
  | _::_::_::_::_::_::_::_ => exact absurd short (by simp)

theorem missing_widths (same : missing++endMark++x = artist++endMark++y) : 6+x.length = artist.length+y.length := by
  have width := congrArg List.length same
  simp only [List.length_append,show missing.length = 6 from rfl,show endMark.length = 2 from rfl] at width
  omega

theorem missing_bare (artist : Option (List UInt8)) : missing++endMark++[] = artist.getD []++endMark++[] ↔
    artist = some missing := by
  rw [List.append_nil,List.append_nil,List.append_left_inj]
  cases artist with
  | none => exact ⟨fun same => absurd same (by decide),nofun⟩
  | some artist => exact ⟨fun same => congrArg some same.symm,fun same => (Option.some.inj same).symm⟩

theorem untitled_length (title : s.urlTitle = none) : (titlePart s).length = 15+(s.urlArtist.getD []).length := by
  unfold titlePart
  rw [title]
  cases s.urlArtist with
  | none => rfl
  | some artist =>
    simp [streamTitle,endMark,ascii]
    omega

theorem untitled_link (title : s.urlTitle = none) (inline : s.inlineUrl = none) (url : s.url = some link) :
    missing++endMark++(urlMark++link++endMark).take (16*units s-22) = s.urlArtist.getD
    []++endMark++(urlMark++link++endMark) ↔
      s.urlArtist = some missing := by
  have bound := (units_bounds s).1
  have len := title_len_eq s
  have part := untitled_length title
  rw [inline,url] at len
  dsimp only at len
  constructor
  · intro same
    have width := missing_widths same
    have short := List.length_take_le' (16*units s-22) (urlMark++link++endMark)
    have named := missing_front same (by omega)
    cases artist : s.urlArtist with
    | none =>
      rw [artist] at named
      exact absurd named (by decide)
    | some artist_ =>
      rw [artist] at named
      exact congrArg some named
  · intro artist
    rw [artist] at part ⊢
    rw [List.take_of_length_le]
    · rfl
    · simp only [List.length_append,show endMark.length = 2 from rfl]
      have six : ((some missing).getD []).length = 6 := rfl
      omega

theorem untitled_url (texts : TitleTexts s) (title : s.urlTitle = none) :
    missing++endMark++urlPrinted s (16*units s) 22 = s.urlArtist.getD []++endMark++urlPart s ↔ TitlePrints s := by
  have bound := (units_bounds s).1
  have len := title_len_eq s
  have part := untitled_length title
  unfold urlPrinted TitlePrints
  rw [title]
  cases inline : s.inlineUrl with
  | none =>
    unfold urlPart
    rw [inline]
    cases url : s.url with
    | none => exact missing_bare s.urlArtist
    | some link => exact untitled_link title inline url
  | some text =>
    obtain ⟨rest,rfl⟩ := texts.marked text inline
    have dropped : (urlMark++rest).drop 11 = rest := List.drop_left' (show urlMark.length = 11 from rfl)
    cases found : strstr endMark (urlMark++rest) with
    | none =>
      unfold urlPart urlLen
      dsimp only
      rw [inline,found,if_neg (by dsimp only; omega)]
      dsimp only
      rw [found]
      exact missing_bare s.urlArtist
    | some tail =>
      dsimp only
      rw [dropped,found]
      dsimp only
      have long : 13 ≤ (urlPart s).length := by
        rw [url_part_inline inline found]
        simp only [List.length_append,show endMark.length = 2 from rfl,show urlMark.length = 11 from rfl]
        omega
      have width : urlLen (urlMark++rest) (16*units s+1) = urlLen (urlMark++rest) 0 := by
        unfold urlLen
        rw [found]
      rw [width]
      by_cases printed : urlLen (urlMark++rest) 0+21 < 16*units s
      · rw [if_pos (by omega),and_iff_right printed]
      · rw [if_neg (by omega)]
        constructor
        · intro same
          have short := missing_widths same
          rw [List.length_nil] at short
          omega
        · exact fun both => absurd both.1 printed

theorem outcome_whole (short : titleLen s ≤ maxMetaLen) (texts : TitleTexts s)
    (title : titleText s (UInt8.ofNat (units s)) = UInt8.ofNat (units s)::part)
    (clean : 0 ∉ part) (room : part.length+1 ≤ 16*units s) :
    TitleSet s ↔ part++urlPrinted s (16*units s) (part.length+1) = blockText s := by
  obtain ⟨field,byte,value⟩ := title_outcome_eq short
  have width : (UInt8.ofNat (units s)::part).length = part.length+1 := rfl
  obtain ⟨pad,printed,fills⟩ := print_url_eq s (UInt8.ofNat (units s)::part) room
  rw [width] at printed fills
  have bounds := units_bounds s
  have most : maxMetaLen = 4080 := rfl
  have put := snprintf_zeros [] (UInt8.ofNat (units s)::part) (16*units s+1)
  rw [Nat.add_sub_cancel,List.take_of_length_le room,List.nil_append,List.nil_append,width,
    List.length_nil] at put
  have made : titleOutcome s =
    some (some (UInt8.ofNat (units s)::(part++urlPrinted s (16*units s) (part.length+1))++List.replicate pad 0)) := by
    unfold titleOutcome
    rw [if_neg (by omega),byte,title]
    dsimp only
    rw [Nat.mul_comm (units s) 16,put,Option.bind_some,width,if_pos (by omega),printed,Option.map_some]
    rfl
  refine TitleSet.iff_text made ?_ ?_ ?_
  · rw [value,List.length_append]
    omega
  · rw [List.mem_append,not_or]
    exact ⟨clean,texts.printed_clean _ _⟩
  · rw [blockText,List.mem_append,not_or]
    exact texts.text_clean

theorem outcome_cut (short : titleLen s ≤ maxMetaLen) (texts : TitleTexts s)
    (title : titleText s (UInt8.ofNat (units s)) = UInt8.ofNat (units s)::(streamTitle++missing++endMark))
    (part : titlePart s = streamTitle++s.urlArtist.getD []++endMark) (room : ¬22 ≤ 16*units s) : ¬TitleSet s := by
  obtain ⟨field,byte,value⟩ := title_outcome_eq short
  have len := title_len_eq s
  have bounds := units_bounds s
  have one : units s = 1 := by omega
  rw [part] at len
  simp only [List.length_append,show streamTitle.length = 13 from rfl,show endMark.length = 2 from rfl] at len
  have made : titleOutcome s = some (some (1::(streamTitle++ascii "(n")++List.replicate 1 0)) := by
    unfold titleOutcome
    rw [if_neg (by omega),byte,title,one]
    have put : snprintf (List.replicate (1*16+1) 0) 0 (1*16+1) (UInt8.ofNat 1::(streamTitle++missing++endMark)) =
        some (1::(streamTitle++ascii "(n")++List.replicate 1 0) := by decide
    dsimp only
    rw [put,Option.bind_some,if_pos (by decide)]
    unfold printUrl
    cases inline : s.inlineUrl with
    | some text =>
      dsimp only
      rw [if_neg (by simp [streamTitle,missing,endMark,ascii])]
      rfl
    | none =>
      cases url : s.url with
      | none => rfl
      | some link =>
        rw [inline,url] at len
        simp only [show urlMark.length = 11 from rfl] at len
        omega
  rw [TitleSet.iff_text made rfl (by decide) (by rw [blockText,List.mem_append,not_or]; exact texts.text_clean),
    blockText,part]
  simp only [List.append_assoc]
  rw [List.append_right_inj]
  intro same
  cases artist : s.urlArtist.getD [] with
  | nil =>
    rw [artist] at same
    exact absurd (List.cons.inj same).1 (by decide)
  | cons a rest =>
    have width := congrArg List.length same
    rw [artist] at width
    simp only [List.length_append,List.length_cons,show (ascii "(n").length = 2 from rfl,
      show endMark.length = 2 from rfl] at width
    omega

theorem cut_unfit (title : s.urlTitle = none) (room : ¬22 ≤ 16*units s) : ¬TitlePrints s := by
  have bound := (units_bounds s).1
  have named : s.urlArtist ≠ some missing := by
    intro artist
    have long : 22 ≤ titleLen s := by
      unfold titleLen
      rw [artist,title]
      dsimp only
      simp only [Option.getD_some,show missing.length = 6 from rfl]
      omega
    omega
  unfold TitlePrints
  rw [title]
  cases s.inlineUrl with
  | none => exact named
  | some text =>
    dsimp only
    cases strstr endMark text with
    | none => exact named
    | some tail =>
      rintro ⟨printed,_⟩
      omega

theorem outcome_short (short : titleLen s ≤ maxMetaLen) (texts : TitleTexts s) : TitleSet s ↔ TitlePrints s := by
  have printed := title_text_eq s (UInt8.ofNat (units s))
  cases title : s.urlTitle with
  | some text =>
    obtain ⟨room,url⟩ := titled_url texts title
    rw [title] at printed
    rw [outcome_whole short texts printed texts.text_clean.1 room,← url]
    exact List.append_right_inj _
  | none =>
    rw [title] at printed
    dsimp only at printed
    have part : titlePart s = streamTitle++s.urlArtist.getD []++endMark := by
      unfold titlePart
      rw [title]
      cases s.urlArtist with
      | none => rfl
      | some artist => rfl
    by_cases room : 22 ≤ 16*units s
    · rw [outcome_whole short texts printed (by decide) room,← untitled_url texts title,blockText,part]
      simp only [List.append_assoc]
      exact List.append_right_inj _
    · exact iff_of_false (outcome_cut short texts printed part room) (cut_unfit title room)

-- mp3_set_title keeps the old block or sets the right one exactly when the texts fit.
theorem set_title_holds (texts : TitleTexts s) : TitleSet s ↔ TitleFits s := by
  have least := len_le_text texts
  have most : maxMetaLen = 4080 := rfl
  have field : titleField s ≤ titleLen s := Nat.mod_le _ _
  unfold TitleFits
  by_cases long : titleField s > maxMetaLen
  · have kept : titleOutcome s = some none := if_pos long
    rw [if_pos long]
    constructor
    · rintro (⟨_,above⟩ | ⟨b,pad,made,_⟩)
      · omega
      · cases kept.symm.trans made
    · exact fun other => .inl ⟨kept,by omega⟩
  · rw [if_neg long]
    by_cases narrow : titleLen s < 2^32
    · have same : titleField s = titleLen s := Nat.mod_eq_of_lt narrow
      rw [and_iff_right narrow]
      exact outcome_short (by omega) texts
    · -- the text is longer than any block can be
      refine ⟨?_,fun both => absurd both.1 narrow⟩
      rintro (⟨kept,_⟩ | ⟨b,pad,_,size⟩)
      · unfold titleOutcome at kept
        rw [if_neg long] at kept
        obtain ⟨p,_,rest⟩ := Option.bind_eq_some_iff.mp kept
        obtain ⟨q,_,absent⟩ := Option.map_eq_some_iff.mp rest
        cases absent
      · have byte := b.toNat_lt
        omega

-- A title and the url of an inline block that fill two units.
def filledTitle : Mp3State :=
  {formatMp3GetPlugin none with urlTitle := some (ascii "ab"),inlineUrl := some (ascii "StreamUrl='u';")}

theorem set_title_filled : TitleSet filledTitle :=
  (set_title_holds {
    artist := by decide
    title := by decide
    url := by decide
    inline_ := by decide
    marked := by rintro text ⟨⟩; exact ⟨ascii "u';",by decide⟩ }).mpr (by
    unfold TitleFits
    rw [if_neg (by decide)]
    exact ⟨by decide,show min (16*units filledTitle-(titlePart filledTitle).length-1) 16 = (urlPart filledTitle).length by decide⟩)

-- An artist without a title.
def artistOnly : Mp3State := {formatMp3GetPlugin none with urlArtist := some (ascii "A")}

theorem artist_lost :
    titleOutcome artistOnly = some (some (2::ascii "StreamTitle='(null)';"++List.replicate 11 0)) ∧
    ¬TitleSet artistOnly := by
  have made : titleOutcome artistOnly = some (some (2::ascii "StreamTitle='(null)';"++List.replicate 11 0)) := by decide
  refine ⟨made,fun set => ?_⟩
  have text := (TitleSet.iff_text made rfl (by decide) (by decide)).mp set
  exact absurd text (by decide)

end Icecast.Mp3
