import Icecast.Mp3Reader
import Icecast.Lib.RefHeap
import Mathlib.Data.List.Perm.Basic

namespace Icecast.Mp3Metadata
open Bytes Linked Mp3 RefHeap Transition

-- The metadata refbufs of a source by allocation: an address that was freed is not used
-- again. `inlineUrl` is a block and an offset into its data; `wild` says that a block was
-- read or released after it was freed.
structure Blocks where
  heap : Heap (List UInt8)
  made : Nat
  metadata : Nat
  inlineUrl : Option (Nat × Nat)
  wild : Bool

def Blocks.refbufNew (b : Blocks) (data : List UInt8) :
    Blocks := {b with heap := alloc b.heap b.made data,made := b.made+1}

def Blocks.put (b : Blocks) : Option (Heap (List UInt8)) → Blocks
  | some heap => {b with heap := heap}
  | none => {b with wild := true}

def Blocks.refbufAddref (b : Blocks) (a : Nat) : Blocks := b.put (addref b.heap a)

-- The blocks have no associated refbuf and no next.
def Blocks.refbufRelease (b : Blocks) (a : Nat) : Blocks := b.put (release b.heap a)

-- What the code does with a new block that is right.
def Blocks.replace (b : Blocks) (data : List UInt8) : Blocks :=
  {(b.refbufNew data).refbufRelease b.metadata with metadata := b.made}

-- The text inline_url points to; `stale` is what stands where a block was freed.
def Blocks.inlineText (b : Blocks) (stale : List UInt8) : Option (List UInt8) :=
  b.inlineUrl.map fun url => (read b.heap url.1).elim stale fun block => cstr (block.drop url.2)

def Blocks.readUrl (b : Blocks) :
    Blocks := {b with wild := b.wild || b.inlineUrl.any fun url => (read b.heap url.1).isNone}

-- mp3_set_title. The texts besides inline_url are those of `s`.
def setTitle (s : Mp3State) (b : Blocks) (stale : List UInt8) : Blocks :=
  match newTitle {s with inlineUrl := b.inlineText stale} with
  | none => b.readUrl
  | some p => b.readUrl.replace p

-- The call of mp3_set_title in both reading functions.
def takeUpdate (s : Mp3State) (b : Blocks) (stale : List UInt8) : Mp3State × Blocks :=
  if s.updateMetadata then ({s with updateMetadata := false},setTitle s b stale) else (s,b)

-- The pointer strstr(meta->data+1,"StreamUrl='") leads to in block `a`.
def urlAt (a : Nat) (block : List UInt8) : Option (Nat × Nat) :=
  (strstr urlMark (cstr (block.drop 1))).map fun rest => (a,1+((cstr (block.drop 1)).length-rest.length))

-- A block that is complete becomes the current metadata if it has text and the text is
-- new; false is the end of the stream.
def assignBlock (s : Mp3State) (b : Blocks) : Bool × Blocks :=
  match read b.heap b.metadata with
  | none => (true,{b with wild := true})
  | some metadata =>
    if s.buildMetadataLen > 1 ∧ cstr (s.buildMetadata.drop 1) ≠ cstr (metadata.drop 1) then
      let block := s.buildMetadata.take s.buildMetadataLen
      if titleMark.isPrefixOf (block.drop 1) then (true,{b.replace block with inlineUrl := urlAt b.made block})
      else (false,(b.refbufNew block).refbufRelease b.made)
    else (true,b)

inductive Pass where
  | again (f : Filter) (b : Blocks)
  | stop (f : Filter) (b : Blocks)
  | reject (s : Mp3State) (b : Blocks)

def metadataPass (f : Filter) (b : Blocks) (s : Mp3State) : Option Pass :=
  let remaining := s.buildMetadataLen-s.buildMetadataOffset
  if f.bytes < remaining then
    (slice f.data f.src f.bytes).bind fun part =>
    (memcpy s.buildMetadata s.buildMetadataOffset part).map fun build =>
      .stop {f with mp3 := {s with buildMetadata := build,buildMetadataOffset := s.buildMetadataOffset+f.bytes}} b
  else
    (slice f.data f.src (remaining-1)).bind fun part =>
    (memcpy s.buildMetadata s.buildMetadataOffset part).bind fun build =>
    (memmove f.data f.src (f.src+remaining) (f.bytes-remaining)).map fun data =>
      match assignBlock {s with buildMetadata := build} b with
      | (true,b) => .again {f with data := data,bytes := f.bytes-remaining
                                   mp3 := {s with buildMetadata := build,offset := 0,buildMetadataLen := 0}} b
      | (false,b) => .reject {s with buildMetadata := build} b

-- One pass of the loop of mp3_get_filter_meta.
def filterPass (f : Filter) (b : Blocks) : Option Pass :=
  let s := f.mp3
  let mp3Block := s.inlineMetadataInterval-s.offset
  if f.bytes ≤ mp3Block then
    some (.stop {f with len := f.len+f.bytes,mp3 := {s with offset := s.offset+f.bytes}} b)
  else if mp3Block ≠ 0 then
    some (.again {f with src := f.src+mp3Block,bytes := f.bytes-mp3Block,len := f.len+mp3Block
                         mp3 := {s with offset := s.offset+mp3Block}} b)
  else (beginBlock f).bind (metadataPass f b)

-- The loop; false is the return that ends the stream.
def filterPasses : Nat → Filter → Blocks → Option (Bool × Filter × Blocks)
  | 0,_,_ => none
  | fuel+1,f,b =>
    if f.bytes = 0 then some (true,f,b) else
    (filterPass f b).bind fun
    | .again f b => filterPasses fuel f b
    | .stop f b => some (true,f,b)
    | .reject s b => some (false,{f with mp3 := s},b)

-- A refbuf of the stream queue, or one only clients hold.
structure QueueBuf where
  count : Nat
  associated : Nat
  data : List UInt8

structure Source where
  running : Bool
  freed : Bool
  client : SourceClient
  mp3 : Mp3State
  blocks : Blocks
  queue : List QueueBuf

-- format_mp3_get_plugin
def start (metaint : Option Int) (body : List UInt8) : Source where
  running := true
  freed := false
  client := ⟨body,false⟩
  mp3 := formatMp3GetPlugin metaint
  blocks := ⟨alloc RefHeap.empty 0 blankMetadata,1,0,none,false⟩
  queue := []

-- The end of both reading functions.
def Source.pushed (s : Source) (data : List UInt8) : Source :=
  {s with blocks := s.blocks.refbufAddref s.blocks.metadata,queue := s.queue++[⟨1,s.blocks.metadata,data⟩]}

-- A buffer that is full: what mp3_get_no_meta and mp3_get_filter_meta do with it.
def Source.reads (s : Source) (stale : List UInt8) : Option Source :=
  let updated := takeUpdate {s.mp3 with readData := none} s.blocks stale
  let s' := {s with mp3 := updated.1,blocks := updated.2}
  let data := s.mp3.readData.getD []
  if s.mp3.inlineMetadataInterval > 0 then
    (filterPasses (s.mp3.readCount+1) ⟨data,0,s.mp3.readCount,0,updated.1⟩ updated.2).map fun (go,f,b) =>
      let t := {s' with mp3 := f.mp3,blocks := b}
      if go = false then {t with running := false} else if f.len = 0 then t else t.pushed (f.data.take f.len)
  else some (s'.pushed data)

inductive Event where
  -- a get_buffer call of the source thread
  | read (recv : Recv) (stale : List UInt8)
  -- mp3_set_tag
  | tag (tag : Option Tag) (value : Option (List UInt8))
  -- refbuf_addref and refbuf_release of the refbuf at a place of `queue`
  | addref (place : Nat)
  | release (place : Nat)
  | freePlugin

def Source.next (s : Source) : Event → Option Source
  | .read recv stale =>
    if s.running = true ∧ s.freed = false then
      (completeRead s.client s.mp3 recv).bind fun (client,mp3,full) =>
      let s := {s with running := !client.error,client := client,mp3 := mp3}
      if full then s.reads stale else some s
    else none
  | .tag tag value => if s.freed then none else some {s with mp3 := mp3SetTag s.mp3 tag value}
  | .addref place => (s.queue[place]?).map fun q => {s with queue := s.queue.set place {q with count := q.count+1}}
  | .release place => (s.queue[place]?).map fun q =>
    if q.count ≤ 1 then {s with queue := s.queue.eraseIdx place,blocks := s.blocks.refbufRelease q.associated}
    else {s with queue := s.queue.set place {q with count := q.count-1}}
  | .freePlugin => if s.freed then none else some {s with freed := true,blocks := s.blocks.refbufRelease s.blocks.metadata}

def Step (s : Source) (event : Event) (t : Source) : Prop := s.next event = some t

-- The references there are to metadata blocks: the plugin's and those of the live refbufs.
def Source.refs (s : Source) : List Nat := (if s.freed then [] else [s.blocks.metadata])++s.queue.map (·.associated)

-- The counts are right, no freed block was used, and inline_url leads to the text of its
-- block while that is there.
structure Owned (s : Source) : Prop where
  counts : ∀ a, count s.blocks.heap a = s.refs.count a
  used : s.blocks.wild = false
  points : ∀ a o block, s.blocks.inlineUrl = some (a,o) → read s.blocks.heap a = some block →
    urlMark <+: cstr (block.drop o)

-- mp3_set_title finds inline_url NULL or in the current metadata or in a block a refbuf
-- still goes with.
def UrlHeld (s : Source) : Prop := ∀ url ∈ s.blocks.inlineUrl, url.1 ∈ s.blocks.metadata::s.queue.map (·.associated)

-- The call runs mp3_set_title.
def titles (s : Source) (recv : Recv) : Bool := (completeRead s.client s.mp3 recv).any fun r =>
    r.2.2 && r.2.1.updateMetadata

def Fair (s : Source) : Event → Prop
  | .read recv _ => titles s recv = true → UrlHeld s
  | _ => True

-- The blocks are what the references in `refs` keep alive.
structure Held (b : Blocks) (refs : List Nat) : Prop where
  counted : Counted b.heap fun a => refs.count a
  unmade : ∀ a, b.made ≤ a → b.heap a = none
  used : b.wild = false
  points : ∀ a o block, b.inlineUrl = some (a,o) → read b.heap a = some block → urlMark <+: cstr (block.drop o)
  earlier : ∀ url ∈ b.inlineUrl, url.1 < b.made

theorem Held.perm (held : Held b refs) (same : refs.Perm other) : Held b other where
  counted := held.counted.congr fun a => same.count_eq a
  unmade := held.unmade
  used := held.used
  points := held.points
  earlier := held.earlier

theorem count_front (a x : Nat) (refs : List Nat) : refs.count x+[a].count x = (a::refs).count x := by
  rw [Nat.add_comm,←List.count_append,List.singleton_append]

theorem Held.new (held : Held b refs) (data : List UInt8) : Held (b.refbufNew data) (b.made::refs) := by
  obtain ⟨counted,_,same⟩ := held.counted.alloc data (held.unmade b.made (Nat.le_refl _))
  refine ⟨counted.congr fun x => count_front b.made x refs,fun a later => ?_,held.used,fun a o block url found =>
    ?_,fun url points => ?_⟩
  · exact (assign_other (Nat.ne_of_gt later)).trans (held.unmade a (Nat.le_of_succ_le later))
  · have before := held.earlier _ url
    exact held.points a o block url ((same a (Nat.ne_of_lt before)).symm.trans found)
  · exact Nat.lt_succ_of_lt (held.earlier url points)

theorem Held.release {b : Blocks} (held : Held b (a::refs)) : Held (b.refbufRelease a) refs := by
  have owes : 0 < (a::refs).count a := List.count_pos_iff.mpr List.mem_cons_self
  obtain ⟨next,released,counted,_⟩ := held.counted.release owes
  have after : Counted next fun x => refs.count x := counted.congr fun x => by
    rw [←count_front a x refs]
    exact Nat.add_sub_cancel _ _
  have same : b.refbufRelease a = {b with heap := next} := by rw [Blocks.refbufRelease,released,Blocks.put]
  rw [same]
  refine ⟨after,fun x later => after.gone ?_,held.used,fun x o block url found => ?_,held.earlier⟩
  · have absent : (a::refs).count x = 0 := held.counted.owed_zero (held.unmade x later)
    rw [←count_front] at absent
    exact Nat.eq_zero_of_add_eq_zero_right absent
  · exact held.points x o block url (release_reads released found)

theorem Held.addref {b : Blocks} (held : Held b refs) (member : a ∈ refs) : Held (b.refbufAddref a) (a::refs) := by
  obtain ⟨next,added,counted,reads⟩ := held.counted.addref (List.count_pos_iff.mpr member)
  have same : b.refbufAddref a = {b with heap := next} := by rw [Blocks.refbufAddref,added,Blocks.put]
  have after : Counted next fun x => (a::refs).count x := counted.congr fun x => count_front a x refs
  rw [same]
  refine ⟨after,fun x later => after.gone ?_,held.used,fun x o block url found => ?_,held.earlier⟩
  · have absent : refs.count x = 0 := held.counted.owed_zero (held.unmade x later)
    have other : a ≠ x := fun here => Nat.ne_of_gt (List.count_pos_iff.mpr (here ▸ member)) absent
    rw [List.count_cons_of_ne other]
    exact absent
  · exact held.points x o block url ((reads x).symm.trans found)

theorem refbuf_release_reads (b : Blocks) (a : Nat) (found : read (b.refbufRelease a).heap x = some block) :
    read b.heap x = some block := by
  unfold Blocks.refbufRelease Blocks.put at found
  split at found
  · next released => exact release_reads released found
  · exact found

theorem release_metadata (b : Blocks) (a : Nat) : (b.refbufRelease a).metadata = b.metadata := by
  unfold Blocks.refbufRelease Blocks.put
  split <;> rfl

theorem replace_reads {b : Blocks} (found : read (b.replace data).heap b.made = some block) : block = data := by
  have new : read (b.refbufNew data).heap b.made = some data := by
    show (Linked.assign b.heap b.made (some ⟨1,data⟩) b.made).map (·.item) = some data
    rw [assign_same]
    rfl
  exact Option.some.inj ((refbuf_release_reads _ _ found).symm.trans new)

theorem replace_made (b : Blocks) (data : List UInt8) : (b.replace data).made = b.made+1 := by
  unfold Blocks.replace Blocks.refbufRelease Blocks.put
  dsimp only
  split <;> rfl

theorem Held.replace {b : Blocks} (held : Held b (b.metadata::others)) (data : List UInt8) :
    Held (b.replace data) (b.made::others) := by
  have released := ((held.new data).perm (.swap _ _ _)).release
  exact ⟨released.counted,released.unmade,released.used,released.points,released.earlier⟩

theorem Held.readable (held : Held b refs) (member : a ∈ refs) : ∃ block, read b.heap a = some block :=
  held.counted.readable (List.count_pos_iff.mpr member)

theorem Held.read_url (held : Held b refs) (inside : ∀ url ∈ b.inlineUrl, url.1 ∈ refs) : b.readUrl = b := by
  have live : (b.inlineUrl.any fun url => (read b.heap url.1).isNone) = false := by
    cases url : b.inlineUrl with
    | none => rfl
    | some place =>
      obtain ⟨block,found⟩ := held.readable (inside place url)
      rw [Option.any_some,found]
      rfl
  rw [Blocks.readUrl,live,Bool.or_false]

theorem set_title_held (held : Held b (b.metadata::others)) (inside : ∀ url ∈ b.inlineUrl, url.1 ∈ b.metadata::others) :
    Held (setTitle s b stale) ((setTitle s b stale).metadata::others) := by
  unfold setTitle
  rw [held.read_url inside]
  split
  · exact held
  · exact held.replace _

theorem take_update_held (held : Held b (b.metadata::others))
    (inside : s.updateMetadata = true → ∀ url ∈ b.inlineUrl, url.1 ∈ b.metadata::others) :
    Held (takeUpdate s b stale).2 ((takeUpdate s b stale).2.metadata::others) := by
  unfold takeUpdate
  split
  · next update => exact set_title_held held (inside update)
  · exact held

theorem cstr_drop (inside : k ≤ (cstr text).length) : cstr (text.drop k) = (cstr text).drop k := by
  induction text generalizing k with
  | nil => simp [cstr]
  | cons c text ih =>
    cases k with
    | zero => rfl
    | succ k =>
      by_cases ends : c = 0
      · subst ends
        exact absurd inside (Nat.not_succ_le_zero k)
      · have head : cstr (c::text) = c::cstr text := List.takeWhile_cons_of_pos (decide_eq_true ends)
        rw [head] at inside ⊢
        exact ih (Nat.le_of_succ_le_succ inside)

-- inline_url leads to the text of the block it was searched in.
theorem url_at_points (found : urlAt a block = some (x,o)) : x = a ∧ urlMark <+: cstr (block.drop o) := by
  obtain ⟨rest,searched,same⟩ := Option.map_eq_some_iff.mp found
  cases same
  obtain ⟨suffix,mark⟩ := strstr_spec searched
  refine ⟨rfl,?_⟩
  rw [←List.drop_drop,cstr_drop (Nat.sub_le _ _),←List.suffix_iff_eq_drop.mp suffix]
  exact mark

theorem assign_held (held : Held b (b.metadata::others)) :
    Held (assignBlock s b).2 ((assignBlock s b).2.metadata::others) := by
  obtain ⟨metadata,found⟩ := held.readable List.mem_cons_self
  unfold assignBlock
  rw [found]
  dsimp only
  split
  · split
    · have replaced := held.replace (s.buildMetadata.take s.buildMetadataLen)
      refine ⟨replaced.counted,replaced.unmade,replaced.used,fun a o block url now => ?_,fun url same => ?_⟩
      · obtain ⟨rfl,mark⟩ := url_at_points url
        cases replace_reads now
        exact mark
      · obtain ⟨_,_,rfl⟩ := Option.map_eq_some_iff.mp same
        rw [replace_made]
        exact Nat.lt_succ_self _
    · dsimp only
      rw [release_metadata]
      exact (held.new _).release
  · exact held

def Pass.blocks : Pass → Blocks
  | .again _ b => b
  | .stop _ b => b
  | .reject _ b => b

theorem metadata_pass_keeps {pass : Pass} {P : Blocks → Prop}
    (keeps : ∀ s b, P b → P (assignBlock s b).2) (before : P b)
    (passed : metadataPass f b s = some pass) : P pass.blocks := by
  unfold metadataPass at passed
  dsimp only at passed
  split at passed
  · obtain ⟨_,_,rest⟩ := Option.bind_eq_some_iff.mp passed
    obtain ⟨_,_,rfl⟩ := Option.map_eq_some_iff.mp rest
    exact before
  · obtain ⟨_,_,rest⟩ := Option.bind_eq_some_iff.mp passed
    obtain ⟨build,_,rest⟩ := Option.bind_eq_some_iff.mp rest
    obtain ⟨data,_,rfl⟩ := Option.map_eq_some_iff.mp rest
    have assigned := keeps {s with buildMetadata := build} b before
    revert assigned
    split
    · next same =>
      rw [same]
      exact id
    · next same =>
      rw [same]
      exact id

theorem filter_pass_keeps {pass : Pass} (P : Blocks → Prop) (keeps : ∀ s b, P b → P (assignBlock s b).2) (before : P b)
    (passed : filterPass f b = some pass) : P pass.blocks := by
  unfold filterPass at passed
  dsimp only at passed
  split at passed
  · cases passed
    exact before
  · split at passed
    · cases passed
      exact before
    · obtain ⟨s,_,rest⟩ := Option.bind_eq_some_iff.mp passed
      exact metadata_pass_keeps keeps before rest

theorem filter_passes_keep (P : Blocks → Prop) (keeps : ∀ s b, P b → P (assignBlock s b).2) (before : P b)
    (passed : filterPasses fuel f b = some (go,g,c)) : P c := by
  induction fuel generalizing f b with
  | zero => cases passed
  | succ fuel ih =>
    rw [filterPasses] at passed
    split at passed
    · cases passed
      exact before
    · obtain ⟨pass,one,rest⟩ := Option.bind_eq_some_iff.mp passed
      have after := filter_pass_keeps P keeps before one
      cases pass with
      | again f b => exact ih after rest
      | stop f b =>
        cases rest
        exact after
      | reject s b =>
        cases rest
        exact after

-- The plugin by content, as Icecast.Mp3Reader has it.
def view (s : Mp3State) (b : Blocks) (stale : List UInt8) : Mp3State :=
  {s with metadata := (read b.heap b.metadata).getD [],inlineUrl := b.inlineText stale}

def viewFilter (f : Filter) (b : Blocks) (stale : List UInt8) : Filter := {f with mp3 := view f.mp3 b stale}

def Pass.outcome (stale : List UInt8) : Pass → Mp3.Outcome
  | .again f b => .again (viewFilter f b stale)
  | .stop f b => .stop (viewFilter f b stale)
  | .reject s b => .reject (view s b stale)

theorem release_url (b : Blocks) (a : Nat) : (b.refbufRelease a).inlineUrl = b.inlineUrl := by
  unfold Blocks.refbufRelease Blocks.put
  split <;> rfl

theorem Held.made_above (held : Held b refs) (member : a ∈ refs) : a < b.made := by
  by_contra later
  have absent : refs.count a = 0 := held.counted.owed_zero (held.unmade a (Nat.le_of_not_lt later))
  exact Nat.ne_of_gt (List.count_pos_iff.mpr member) absent

theorem read_dropped (b : Blocks) (data : List UInt8) (other : x ≠ b.made) :
    read ((b.refbufNew data).refbufRelease b.made).heap x = read b.heap x := by
  have dropped : release (alloc b.heap b.made data) b.made =
    some (Linked.assign (alloc b.heap b.made data) b.made none) := by
    rw [release,alloc,assign_same]
    rfl
  have same : (b.refbufNew data).refbufRelease b.made =
      {b.refbufNew data with heap := Linked.assign (alloc b.heap b.made data) b.made none} := by
    rw [Blocks.refbufRelease]
    show (b.refbufNew data).put (release (alloc b.heap b.made data) b.made) = _
    rw [dropped,Blocks.put]
  have away : Linked.assign (alloc b.heap b.made data) b.made none x = b.heap x :=
    (assign_other other).trans (assign_other other)
  rw [same]
  exact congrArg (Option.map (·.item)) away

theorem url_at_text (found : urlAt a block = some url) :
    strstr urlMark (cstr (block.drop 1)) = some (cstr (block.drop url.2)) ∧ url.1 = a := by
  obtain ⟨rest,searched,same⟩ := Option.map_eq_some_iff.mp found
  cases same
  obtain ⟨suffix,_⟩ := strstr_spec searched
  rw [←List.drop_drop,cstr_drop (Nat.sub_le _ _),←List.suffix_iff_eq_drop.mp suffix]
  exact ⟨searched,rfl⟩

-- The text behind the new inline_url is what strstr found.
theorem inline_text_new {b : Blocks} (url : b.inlineUrl = urlAt a block) (now : read b.heap a = some block)
    (stale : List UInt8) :
    b.inlineText stale = strstr urlMark (cstr (block.drop 1)) := by
  unfold Blocks.inlineText
  rw [url]
  cases found : urlAt a block with
  | none =>
    have missing := Option.map_eq_none_iff.mp found
    rw [missing]
    rfl
  | some place =>
    obtain ⟨searched,here⟩ := url_at_text found
    rw [Option.map_some,here,now,searched]
    rfl

theorem inline_text_same {b c : Blocks} (url : c.inlineUrl = b.inlineUrl)
    (same : ∀ place ∈ b.inlineUrl, read c.heap place.1 = read b.heap place.1)
    (stale : List UInt8) : c.inlineText stale = b.inlineText stale := by
  unfold Blocks.inlineText
  rw [url]
  cases found : b.inlineUrl with
  | none => rfl
  | some place => rw [Option.map_some,Option.map_some,same place found]

theorem view_eq {b : Blocks} (text : b.inlineText stale = url) (now : read b.heap b.metadata = some metadata) :
    view s b stale = {s with metadata := metadata,inlineUrl := url} := by
  unfold view
  rw [now,text]
  rfl

theorem replaced_view (held : Held b (b.metadata::others)) (s : Mp3State) (block stale : List UInt8) :
    view s {b.replace block with inlineUrl := urlAt b.made block} stale =
      {s with metadata := block,inlineUrl := strstr urlMark (cstr (block.drop 1))} := by
  obtain ⟨data,now⟩ := (held.replace block).readable List.mem_cons_self
  cases replace_reads now
  have url : ({b.replace block with inlineUrl := urlAt b.made block} : Blocks).inlineUrl = urlAt b.made block := rfl
  exact view_eq (inline_text_new url now stale) now

theorem dropped_view (held : Held b (b.metadata::others)) (s : Mp3State) (block stale : List UInt8) :
    view s ((b.refbufNew block).refbufRelease b.made) stale = view s b stale := by
  obtain ⟨metadata,found⟩ := held.readable List.mem_cons_self
  have same : ∀ place ∈ b.inlineUrl,
    read ((b.refbufNew block).refbufRelease b.made).heap place.1 = read b.heap place.1 :=
    fun place points => read_dropped b block (Nat.ne_of_lt (held.earlier place points))
  have url : ((b.refbufNew block).refbufRelease b.made).inlineUrl = b.inlineUrl := release_url _ _
  have other := Nat.ne_of_lt (held.made_above List.mem_cons_self)
  have now : read ((b.refbufNew block).refbufRelease b.made).heap
    ((b.refbufNew block).refbufRelease b.made).metadata = some metadata := by
    rw [release_metadata]
    exact (read_dropped b block other).trans found
  exact (view_eq (inline_text_same url same stale) now).trans (view_eq rfl found).symm

theorem assign_view (held : Held b (b.metadata::others)) (s : Mp3State) (stale : List UInt8) :
    assignMetadata (view s b stale) = (if (assignBlock s b).1 then some (view s (assignBlock s b).2 stale) else none) ∧
      ((assignBlock s b).1 = false → ∀ t, view t (assignBlock s b).2 stale = view t b stale) := by
  obtain ⟨metadata,found⟩ := held.readable List.mem_cons_self
  have current : (view s b stale).metadata = metadata := by
    unfold view
    rw [found]
    rfl
  by_cases new : s.buildMetadataLen > 1 ∧ cstr (s.buildMetadata.drop 1) ≠ cstr (metadata.drop 1)
  · by_cases titled : titleMark.isPrefixOf ((s.buildMetadata.take s.buildMetadataLen).drop 1) = true
    · have assigned : assignBlock s b = (true,{b.replace (s.buildMetadata.take s.buildMetadataLen) with
          inlineUrl := urlAt b.made (s.buildMetadata.take s.buildMetadataLen)}) := by
        unfold assignBlock
        rw [found]
        dsimp only
        rw [if_pos new,if_pos titled]
      have content : assignMetadata (view s b stale) = some {view s b stale with
          metadata := s.buildMetadata.take s.buildMetadataLen
          inlineUrl := strstr urlMark (cstr ((s.buildMetadata.take s.buildMetadataLen).drop 1))} := by
        unfold assignMetadata
        rw [current]
        exact (if_pos new).trans (if_pos titled)
      rw [assigned,content,if_pos rfl]
      exact ⟨congrArg some (replaced_view held s _ stale).symm,nofun⟩
    · have assigned : assignBlock s b =
        (false,(b.refbufNew (s.buildMetadata.take s.buildMetadataLen)).refbufRelease b.made) := by
        unfold assignBlock
        rw [found]
        dsimp only
        rw [if_pos new,if_neg titled]
      have content : assignMetadata (view s b stale) = none := by
        unfold assignMetadata
        rw [current]
        exact (if_pos new).trans (if_neg titled)
      rw [assigned,content,if_neg Bool.false_ne_true]
      exact ⟨rfl,fun _ t => dropped_view held t _ stale⟩
  · have assigned : assignBlock s b = (true,b) := by
      unfold assignBlock
      rw [found]
      dsimp only
      rw [if_neg new]
    have content : assignMetadata (view s b stale) = some (view s b stale) := by
      unfold assignMetadata
      rw [current]
      exact if_neg new
    rw [assigned,content,if_pos rfl]
    exact ⟨rfl,nofun⟩

theorem begin_view (f : Filter) (b : Blocks) (stale : List UInt8) :
    beginBlock (viewFilter f b stale) = (beginBlock f).map fun s => view s b stale := by
  unfold beginBlock
  dsimp only [viewFilter,view]
  split
  · rw [Option.map_map]
    rfl
  · rfl

theorem metadata_pass_view (held : Held b (b.metadata::others)) (f : Filter) (s : Mp3State) (stale : List UInt8) :
    metadataStep (viewFilter f b stale) (view s b stale) = (metadataPass f b s).map (Pass.outcome stale) := by
  unfold metadataStep metadataPass
  dsimp only [viewFilter]
  by_cases short : f.bytes < s.buildMetadataLen-s.buildMetadataOffset
  · refine (if_pos short).trans (Eq.trans ?_ (congrArg _ (if_pos short).symm))
    rw [Option.map_bind]
    refine congrArg _ (funext fun part => ?_)
    rw [Function.comp_apply,Option.map_map]
    rfl
  · refine (if_neg short).trans (Eq.trans ?_ (congrArg _ (if_neg short).symm))
    rw [Option.map_bind]
    refine congrArg _ (funext fun part => ?_)
    rw [Function.comp_apply,Option.map_bind]
    refine congrArg _ (funext fun build => ?_)
    rw [Function.comp_apply,Option.map_map]
    refine congrFun (congrArg _ (funext fun data => ?_)) _
    obtain ⟨assigned,rejected⟩ := assign_view held {s with buildMetadata := build} stale
    have started : ({view s b stale with buildMetadata := build} : Mp3State) = view
      {s with buildMetadata := build} b stale := rfl
    dsimp only at started
    rw [Function.comp_apply,started]
    cases result : assignBlock {s with buildMetadata := build} b with
    | mk go c =>
      rw [result] at assigned rejected
      cases go with
      | true =>
        rw [if_pos rfl] at assigned
        rw [assigned]
        rfl
      | false =>
        rw [if_neg Bool.false_ne_true] at assigned
        rw [assigned]
        exact congrArg _ (rejected rfl _).symm

theorem filter_pass_view (held : Held b (b.metadata::others)) (f : Filter) (stale : List UInt8) :
    filterStep (viewFilter f b stale) = (filterPass f b).map (Pass.outcome stale) := by
  unfold filterStep filterPass
  dsimp only
  by_cases only : f.bytes ≤ f.mp3.inlineMetadataInterval-f.mp3.offset
  · refine (if_pos only).trans (Eq.trans ?_ (congrArg _ (if_pos only).symm))
    rfl
  · refine (if_neg only).trans (Eq.trans ?_ (congrArg _ (if_neg only).symm))
    by_cases before : f.mp3.inlineMetadataInterval-f.mp3.offset ≠ 0
    · refine (if_pos before).trans (Eq.trans ?_ (congrArg _ (if_pos before).symm))
      rfl
    · refine (if_neg before).trans (Eq.trans ?_ (congrArg _ (if_neg before).symm))
      rw [begin_view,Option.bind_map,Option.map_bind]
      exact congrArg _ (funext fun s => metadata_pass_view held f s stale)

theorem filter_passes_view (held : Held b (b.metadata::others)) (fuel : Nat) (f : Filter) (stale : List UInt8) :
    filterLoop fuel (viewFilter f b stale) = (filterPasses fuel f b).map fun r =>
      if r.1 then .ok (viewFilter r.2.1 r.2.2 stale) else .error (view r.2.1.mp3 r.2.2 stale) := by
  induction fuel generalizing f b with
  | zero => rfl
  | succ fuel ih =>
    rw [filterLoop,filterPasses]
    by_cases finished : f.bytes = 0
    · rw [if_pos (show (viewFilter f b stale).bytes = 0 from finished),if_pos finished]
      rfl
    · rw [if_neg (show ¬(viewFilter f b stale).bytes = 0 from finished),if_neg finished,filter_pass_view held]
      cases one : filterPass f b with
      | none => rfl
      | some pass =>
        have after := filter_pass_keeps (fun b => Held b (b.metadata::others))
          (fun _ _ held => assign_held held) held one
        cases pass with
        | again g c => exact ih after g
        | stop g c => rfl
        | reject s c => rfl

-- The text behind inline_url stays where it is until its memory is used again.
def Blocks.left (b : Blocks) (stale : List UInt8) : List UInt8 := (b.inlineText stale).getD []

theorem inline_text_left {b c : Blocks} (url : c.inlineUrl = b.inlineUrl)
    (old : ∀ place ∈ b.inlineUrl, ∀ block, read c.heap place.1 = some block → read b.heap place.1 = some block)
    (stale : List UInt8) :
    c.inlineText (b.left stale) = b.inlineText stale := by
  unfold Blocks.left Blocks.inlineText
  rw [url]
  cases found : b.inlineUrl with
  | none => rfl
  | some place =>
    cases there : read c.heap place.1 with
    | none => rw [Option.map_some,Option.map_some,there,Option.getD_some,Option.elim_none]
    | some block =>
      rw [Option.map_some,Option.map_some,there,old place found block there]
      rfl

theorem view_left (b : Blocks) (s : Mp3State) (stale : List UInt8) : view s b (b.left stale) = view s b stale := by
  unfold view
  rw [inline_text_left rfl (fun _ _ _ there => there) stale]

theorem set_title_view (held : Held b (b.metadata::others))
    (inside : ∀ url ∈ b.inlineUrl, url.1 ∈ b.metadata::others) (s : Mp3State)
    (stale : List UInt8) : mp3SetTitle (view s b stale) = some (view s (setTitle s b stale) (b.left stale)) := by
  have same : newTitle (view s b stale) = newTitle {s with inlineUrl := b.inlineText stale} := rfl
  rw [set_title_eq,same]
  unfold setTitle
  rw [held.read_url inside]
  cases new : newTitle {s with inlineUrl := b.inlineText stale} with
  | none => exact congrArg some (view_left b s stale).symm
  | some p =>
    obtain ⟨data,now⟩ := (held.replace p).readable List.mem_cons_self
    cases replace_reads now
    have url : (b.replace p).inlineUrl = b.inlineUrl := release_url _ _
    have text : (b.replace p).inlineText (b.left stale) = b.inlineText stale := by
      refine inline_text_left url (fun place points block there => ?_) stale
      have before : read (b.refbufNew p).heap place.1 = some block := refbuf_release_reads _ _ there
      have other : (b.refbufNew p).heap place.1 = b.heap place.1 := assign_other (Nat.ne_of_lt (held.earlier place points))
      have same : read (b.refbufNew p).heap place.1 = read b.heap place.1 := congrArg (Option.map Cell.item) other
      exact same.symm.trans before
    exact congrArg some (view_eq text now).symm

theorem take_update_view (held : Held b (b.metadata::others)) (s : Mp3State)
    (inside : s.updateMetadata = true → ∀ url ∈ b.inlineUrl, url.1 ∈ b.metadata::others) (stale : List UInt8) :
    takeTitle (view s b stale) = some (view (takeUpdate s b stale).1 (takeUpdate s b stale).2 (b.left stale)) := by
  unfold takeTitle takeUpdate
  by_cases update : s.updateMetadata = true
  · rw [if_pos update]
    refine (if_pos update).trans ?_
    rw [set_title_view held (inside update) s stale]
    rfl
  · rw [if_neg update]
    exact (if_neg update).trans (congrArg some (view_left b s stale).symm)

theorem refs_open {s : Source} (here : s.freed = false) : s.refs = s.blocks.metadata::s.queue.map (·.associated) := by
  rw [Source.refs,here]
  rfl

theorem held_open {s : Source} (here : s.freed = false)
    (held : Held s.blocks (s.blocks.metadata::s.queue.map (·.associated))) :
    Held s.blocks s.refs := by
  rw [refs_open here]
  exact held

theorem pushed_held {s : Source} (here : s.freed = false) (held : Held s.blocks s.refs) (data : List UInt8) :
    Held (s.pushed data).blocks (s.pushed data).refs := by
  rw [refs_open here] at held
  have metadata : (s.pushed data).blocks.metadata = s.blocks.metadata := by
    unfold Source.pushed Blocks.refbufAddref Blocks.put
    dsimp only
    split <;> rfl
  rw [refs_open (show (s.pushed data).freed = false from here),metadata]
  apply (held.addref List.mem_cons_self).perm
  apply List.Perm.cons
  unfold Source.pushed
  rw [List.map_append]
  exact (List.perm_append_singleton _ _).symm

theorem reads_held {s : Source} (here : s.freed = false) (held : Held s.blocks s.refs)
    (fair : s.mp3.updateMetadata = true → UrlHeld s)
    (read : s.reads stale = some t) : Held t.blocks t.refs := by
  rw [refs_open here] at held
  have updated : Held (takeUpdate {s.mp3 with readData := none} s.blocks stale).2 _ := take_update_held held fair
  unfold Source.reads at read
  dsimp only at read
  split at read
  · obtain ⟨⟨go,f,b⟩,passed,rfl⟩ := Option.map_eq_some_iff.mp read
    have filtered : Held b (b.metadata::s.queue.map (·.associated)) :=
      filter_passes_keep (fun b => Held b (b.metadata::s.queue.map QueueBuf.associated))
        (fun _ _ held => assign_held held) updated passed
    dsimp only
    split
    · exact held_open here filtered
    · split
      · exact held_open here filtered
      · refine pushed_held ?_ ?_ _
        · exact here
        · exact held_open here filtered
  · cases read
    refine pushed_held ?_ ?_ _
    · exact here
    · exact held_open here updated

-- What the plugin by content makes of a full buffer.
def fullRead (c : SourceClient) (s : Mp3State) : Option Got :=
  if s.inlineMetadataInterval > 0 then filterRead c s
  else (takeTitle {s with readData := none}).map fun t => ⟨true,c,t,some ⟨s.readData.getD [],t.metadata,true⟩⟩

theorem complete_read_view (c : SourceClient) (s : Mp3State) (recv : Recv) (b : Blocks) (stale : List UInt8) :
    completeRead c (view s b stale) recv = (completeRead c s recv).map fun r => (r.1,view r.2.1 b stale,r.2.2) := by
  have offset : readOffset (view s b stale) = readOffset s := rfl
  have buf : (view s b stale).readData = s.readData := rfl
  unfold completeRead
  dsimp only
  rw [offset,buf]
  cases clientReadBytes c (refbufSize-readOffset s) recv with
  | mk client result =>
    cases result with
    | none => rfl
    | some bytes =>
      dsimp only
      rw [Option.map_map]
      refine congrFun (congrArg _ (funext fun filled => ?_)) _
      rw [Function.comp_apply]
      split <;> rfl

theorem complete_read_interval (completed : completeRead c s recv = some (client,m,full)) :
    m.inlineMetadataInterval = s.inlineMetadataInterval := by
  unfold completeRead at completed
  dsimp only at completed
  cases read_ : clientReadBytes c (refbufSize-readOffset s) recv with
  | mk client' result =>
    rw [read_] at completed
    cases result with
    | none =>
      cases completed
      rfl
    | some bytes =>
      obtain ⟨filled,_,same⟩ := Option.map_eq_some_iff.mp completed
      split at same <;> cases same <;> rfl

theorem get_buffer_full (completed : completeRead c s recv = some (client,m,full)) :
    getBuffer c s recv = if full then fullRead client m else some ⟨true,client,m,none⟩ := by
  have interval := complete_read_interval completed
  unfold getBuffer mp3GetFilterMeta mp3GetNoMeta
  rw [completed,Option.bind_some,Option.bind_some]
  cases full with
  | false => exact ite_self _
  | true =>
    unfold fullRead
    by_cases inline : s.inlineMetadataInterval > 0
    · exact (if_pos inline).trans (if_pos (interval ▸ inline)).symm
    · exact (if_neg inline).trans (if_neg (interval ▸ inline)).symm

-- A full buffer does to the content what the source by content does, as long as the
-- memory inline_url points to is not used again.
structure Seen (s t : Source) (got : Got) (stale : List UInt8) : Prop where
  mp3 : got.mp3 = view t.mp3 t.blocks stale
  client : got.client = s.client ∧ t.client = s.client
  running : t.running = (got.running && s.running)
  queue : ∃ new, t.queue = s.queue++new ∧ new.map (fun q => (q.data,read t.blocks.heap q.associated)) =
    got.refbuf.toList.map fun r => (r.data,some r.associated)

theorem pushed_view {s : Source} (held : Held s.blocks (s.blocks.metadata::others)) (data stale : List UInt8) :
    view (s.pushed data).mp3 (s.pushed data).blocks stale = view s.mp3 s.blocks stale ∧
      read (s.pushed data).blocks.heap s.blocks.metadata = some (view s.mp3 s.blocks stale).metadata := by
  obtain ⟨metadata,found⟩ := held.readable List.mem_cons_self
  have owes : 0 < (s.blocks.metadata::others).count s.blocks.metadata := List.count_pos_iff.mpr List.mem_cons_self
  obtain ⟨next,added,_,reads⟩ := held.counted.addref owes
  have same : (s.pushed data).blocks = {s.blocks with heap := next} := by
    unfold Source.pushed
    rw [Blocks.refbufAddref,added,Blocks.put]
  have text : ({s.blocks with heap := next} : Blocks).inlineText stale = s.blocks.inlineText stale :=
    inline_text_same (show ({s.blocks with heap := next} : Blocks).inlineUrl = s.blocks.inlineUrl from rfl)
      (fun place _ => reads place.1) stale
  have now : read next s.blocks.metadata = some metadata := (reads _).trans found
  have current : view s.mp3 s.blocks stale = _ := view_eq rfl found
  rw [same,current]
  exact ⟨view_eq text now,now⟩

theorem reads_view {s : Source} (here : s.freed = false) (held : Held s.blocks s.refs)
    (fair : s.mp3.updateMetadata = true → UrlHeld s) (reads : s.reads stale = some t) :
    ∃ got, fullRead s.client (view s.mp3 s.blocks stale) = some got ∧ Seen s t got (s.blocks.left stale) := by
  rw [refs_open here] at held
  have updated : Held (takeUpdate {s.mp3 with readData := none} s.blocks stale).2 _ := take_update_held held fair
  have title := take_update_view held {s.mp3 with readData := none} fair stale
  have count : (takeUpdate {s.mp3 with readData := none} s.blocks stale).1.readCount = s.mp3.readCount := by
    unfold takeUpdate
    split <;> rfl
  unfold Source.reads at reads
  unfold fullRead
  dsimp only at updated title count reads
  generalize takeUpdate _ s.blocks stale = u at updated title count reads
  have emptied : takeTitle {view s.mp3 s.blocks stale with readData := none} =
    some (view u.1 u.2 (s.blocks.left stale)) := title
  by_cases inline : s.mp3.inlineMetadataInterval > 0
  · rw [if_pos inline] at reads
    rw [if_pos (show (view s.mp3 s.blocks stale).inlineMetadataInterval > 0 from inline)]
    obtain ⟨⟨go,f,b⟩,passed,rfl⟩ := Option.map_eq_some_iff.mp reads
    have filtered : Held b (b.metadata::s.queue.map (·.associated)) :=
      filter_passes_keep (fun b => Held b (b.metadata::s.queue.map QueueBuf.associated))
        (fun _ _ held => assign_held held) updated passed
    have loop := filter_passes_view updated (s.mp3.readCount+1) ⟨s.mp3.readData.getD [],0,s.mp3.readCount,0,
      u.1⟩ (s.blocks.left stale)
    rw [passed,Option.map_some,←count] at loop
    unfold filterRead
    rw [emptied,Option.bind_some]
    refine ⟨_,congrArg (Option.map (Mp3.filtered s.client)) loop,?_⟩
    cases go with
    | false => exact ⟨rfl,⟨rfl,rfl⟩,rfl,[],(List.append_nil _).symm,rfl⟩
    | true =>
      dsimp only
      rw [if_neg Bool.true_eq_false.mp]
      by_cases blank : f.len = 0
      · rw [if_pos blank]
        refine ⟨rfl,⟨rfl,rfl⟩,(Bool.true_and _).symm,[],(List.append_nil _).symm,?_⟩
        unfold Mp3.filtered viewFilter
        rw [if_pos rfl]
        dsimp only
        rw [if_pos blank]
        rfl
      · rw [if_neg blank]
        obtain ⟨same,current⟩ := pushed_view (s := {s with mp3 := f.mp3,blocks := b}) filtered
          (f.data.take f.len) (s.blocks.left stale)
        refine ⟨same.symm,⟨rfl,rfl⟩,(Bool.true_and _).symm,[_],rfl,?_⟩
        unfold Mp3.filtered viewFilter
        rw [if_pos rfl]
        dsimp only
        rw [if_neg blank]
        exact congrArg (fun x => [(f.data.take f.len,x)]) current
  · rw [if_neg inline] at reads
    rw [if_neg (show ¬(view s.mp3 s.blocks stale).inlineMetadataInterval > 0 from inline),emptied,Option.map_some]
    cases reads
    obtain ⟨same,current⟩ := pushed_view (s := {s with mp3 := u.1,blocks := u.2}) updated
      (s.mp3.readData.getD []) (s.blocks.left stale)
    refine ⟨_,rfl,same.symm,⟨rfl,rfl⟩,(Bool.true_and _).symm,[_],rfl,?_⟩
    exact congrArg (fun x => [(s.mp3.readData.getD [],x)]) current

-- A get_buffer call does to the content what the source by content does.
theorem read_view {s : Source} (held : Held s.blocks s.refs) (step : Step s (.read recv stale) t)
    (fair : Fair s (.read recv stale)) :
    ∃ got, getBuffer s.client (view s.mp3 s.blocks stale) recv = some got ∧ got.client = t.client ∧
      got.mp3 = view t.mp3 t.blocks (s.blocks.left stale) ∧ t.running = (got.running && !got.client.error) ∧
      ∃ new, t.queue = s.queue++new ∧ new.map (fun q => (q.data,read t.blocks.heap q.associated)) =
        got.refbuf.toList.map fun r => (r.data,some r.associated) := by
  rw [Step,Source.next] at step
  split at step
  · next open_ =>
    obtain ⟨⟨client,mp3,full⟩,completed,rest⟩ := Option.bind_eq_some_iff.mp step
    have viewed := complete_read_view s.client s.mp3 recv s.blocks stale
    rw [completed,Option.map_some] at viewed
    rw [get_buffer_full viewed]
    cases full with
    | false =>
      cases rest
      refine ⟨_,rfl,rfl,?_,(Bool.true_and _).symm,[],(List.append_nil _).symm,rfl⟩
      exact (view_left s.blocks mp3 stale).symm
    | true =>
      have reads : ({s with running := !client.error,client := client,mp3 := mp3} : Source).reads stale = some t := rest
      have titled : mp3.updateMetadata = true → UrlHeld s := fun update => by
        apply fair
        rw [titles,completed,Option.any_some]
        exact update
      obtain ⟨got,same,seen⟩ :=
        reads_view (s := {s with running := !client.error,client := client,mp3 := mp3}) open_.2 held titled reads
      obtain ⟨client',client''⟩ := seen.client
      refine ⟨got,same,client'.trans client''.symm,seen.mp3,?_,seen.queue⟩
      rw [seen.running,client']
  · cases step

theorem map_set_count {queue : List QueueBuf} (here : queue[place]? = some q) (n : Nat) :
    (queue.set place {q with count := n}).map (·.associated) = queue.map (·.associated) := by
  induction queue generalizing place with
  | nil => cases here
  | cons first queue ih =>
    cases place with
    | zero =>
      cases here
      rfl
    | succ place => exact congrArg (first.associated::·) (ih here)

theorem map_erase {queue : List QueueBuf} (here : queue[place]? = some q) :
    (queue.map (·.associated)).Perm (q.associated::(queue.eraseIdx place).map (·.associated)) := by
  obtain ⟨inside,rfl⟩ := List.getElem?_eq_some_iff.mp here
  exact ((List.getElem_cons_eraseIdx_perm inside).symm.map _)

theorem next_held (held : Held s.blocks s.refs) (step : Step s event t) (fair : Fair s event) :
    Held t.blocks t.refs := by
  unfold Step at step
  cases event with
  | read recv stale =>
    rw [Source.next] at step
    split at step
    · next open_ =>
      obtain ⟨⟨client,mp3,full⟩,completed,rest⟩ := Option.bind_eq_some_iff.mp step
      cases full with
      | false =>
        cases rest
        exact held
      | true =>
        have reads : ({s with running := !client.error,client := client,mp3 := mp3} :
          Source).reads stale = some t := rest
        refine reads_held ?_ ?_ (fun update => ?_) reads
        · exact open_.2
        · exact held
        · apply fair
          rw [titles,completed,Option.any_some]
          exact update
    · cases step
  | tag tag value =>
    rw [Source.next] at step
    split at step
    · cases step
    · cases step
      exact held
  | addref place =>
    obtain ⟨q,here,rfl⟩ := Option.map_eq_some_iff.mp step
    unfold Source.refs at held ⊢
    dsimp only
    rw [map_set_count here]
    exact held
  | release place =>
    obtain ⟨q,here,rfl⟩ := Option.map_eq_some_iff.mp step
    unfold Source.refs at held ⊢
    split
    · dsimp only
      rw [release_metadata]
      exact (held.perm (((map_erase here).append_left _).trans List.perm_middle)).release
    · dsimp only
      rw [map_set_count here]
      exact held
  | freePlugin =>
    rw [Source.next] at step
    split at step
    · cases step
    · next open_ =>
      cases step
      rw [refs_open ((Bool.not_eq_true _).mp open_)] at held
      exact held.release

theorem put_wild {b : Blocks} (wild : b.wild = true) (heap : Option (Heap (List UInt8))) :
    (b.put heap).wild = true := by
  cases heap with
  | none => rfl
  | some heap => exact wild

theorem replace_wild {b : Blocks} (wild : b.wild = true) (data : List UInt8) : (b.replace data).wild = true := by
  have new : (b.refbufNew data).wild = true := wild
  exact put_wild new _

theorem assign_wild {b : Blocks} (wild : b.wild = true) : (assignBlock s b).2.wild = true := by
  unfold assignBlock
  split
  · rfl
  · split
    · dsimp only
      split
      · exact replace_wild wild _
      · have new : (b.refbufNew (s.buildMetadata.take s.buildMetadataLen)).wild = true := wild
        exact put_wild new _
    · exact wild

theorem set_title_wild {b : Blocks} (wild : b.readUrl.wild = true) : (setTitle s b stale).wild = true := by
  unfold setTitle
  split
  · exact wild
  · exact replace_wild wild _

theorem reads_wild {s : Source} (reads : s.reads stale = some t) (update : s.mp3.updateMetadata = true)
    (wild : s.blocks.readUrl.wild = true) : t.blocks.wild = true := by
  have updated : (takeUpdate {s.mp3 with readData := none} s.blocks stale).2.wild = true := by
    unfold takeUpdate
    rw [if_pos (show _ = true from update)]
    exact set_title_wild wild
  unfold Source.reads at reads
  dsimp only at reads
  split at reads
  · obtain ⟨⟨go,f,b⟩,passed,rfl⟩ := Option.map_eq_some_iff.mp reads
    have filtered : b.wild = true :=
      filter_passes_keep (fun b => b.wild = true) (fun _ _ wild => assign_wild wild) updated passed
    dsimp only
    split
    · exact filtered
    · split
      · exact filtered
      · exact put_wild filtered _
  · cases reads
    exact put_wild updated _

-- inline_url in a block nothing refers to.
theorem Held.read_wild (held : Held b refs) (outside : ¬∀ url ∈ b.inlineUrl, url.1 ∈ refs) : b.readUrl.wild = true := by
  obtain ⟨url,away⟩ := not_forall.mp outside
  obtain ⟨points,away⟩ := Classical.not_imp.mp away
  have gone : read b.heap url.1 = none := by
    rw [RefHeap.read,held.counted.gone (List.count_eq_zero.mpr away)]
    rfl
  rw [Blocks.readUrl,Option.mem_def.mp points,Option.any_some,gone]
  exact Bool.or_true _

theorem start_held (metaint : Option Int) (body : List UInt8) :
    Held (start metaint body).blocks (start metaint body).refs := by
  have new := (counted_empty.alloc blankMetadata (empty_apply (a := 0))).1
  refine ⟨new.congr fun x => ?_,fun a later => ?_,rfl,nofun,nofun⟩
  · rw [Nat.zero_add]
    rfl
  · exact assign_other (Nat.ne_of_gt later)

theorem owned_of_held (held : Held s.blocks s.refs) : Owned s := ⟨held.counted.counts,held.used,held.points⟩

theorem next_owned (held : Held s.blocks s.refs) (step : Step s event t) : Owned t ↔ Fair s event := by
  refine ⟨fun owned => ?_,fun fair => owned_of_held (next_held held step fair)⟩
  cases event with
  | read recv stale =>
    intro titled
    by_contra outside
    rw [Step,Source.next] at step
    split at step
    · next open_ =>
      obtain ⟨⟨client,mp3,full⟩,completed,rest⟩ := Option.bind_eq_some_iff.mp step
      rw [titles,completed,Option.any_some] at titled
      obtain ⟨whole,update⟩ := (Bool.and_eq_true _ _).mp titled
      cases full with
      | false => cases whole
      | true =>
        rw [refs_open open_.2] at held
        have reads : ({s with running := !client.error,client := client,mp3 := mp3} :
          Source).reads stale = some t := rest
        have used : t.blocks.wild = true := reads_wild reads update (held.read_wild outside)
        exact Bool.noConfusion (owned.used.symm.trans used)
    · cases step
  | tag => exact trivial
  | addref => exact trivial
  | release => exact trivial
  | freePlugin => exact trivial

theorem runs_held (run : Runs (fun s event t => Step s event t ∧ Fair s event) (start metaint body) events s) :
    Held s.blocks s.refs := by
  induction run with
  | nil => exact start_held metaint body
  | snoc _ last ih => exact next_held ih last.1 last.2

-- In every run in which mp3_set_title finds inline_url in a block that is still
-- referenced, the counts are right and no freed block is used, and the first step that
-- finds it elsewhere uses one.
theorem metadata_owned (run : Runs (fun s event t => Step s event t ∧ Fair s event) (start metaint body) events s) :
    Owned s ∧ ∀ event t, Step s event t → (Owned t ↔ Fair s event) :=
  ⟨owned_of_held (runs_held run),fun _ _ step => next_owned (runs_held run) step⟩

instance (s : Source) : Decidable (UrlHeld s) :=
  inferInstanceAs (Decidable (∀ url ∈ s.blocks.inlineUrl, url.1 ∈ s.blocks.metadata::s.queue.map (·.associated)))

instance : (s : Source) → (event : Event) → Decidable (Fair s event)
  | s,.read recv _ => inferInstanceAs (Decidable (titles s recv = true → UrlHeld s))
  | _,.tag _ _ => .isTrue trivial
  | _,.addref _ => .isTrue trivial
  | _,.release _ => .isTrue trivial
  | _,.freePlugin => .isTrue trivial

-- A block with a StreamUrl, and audio without one.
def urlRead : Event :=
  .read (.data (List.replicate 1367 7++2::ascii "StreamTitle='';StreamUrl='';"++List.replicate 4 0)) []
def audioRead : Event := .read (.data (List.replicate 1400 0)) []

-- A title is set while clients still have the refbuf of the block, and again when the
-- stream has sent the block once more.
def urlEvents : List Event :=
  [urlRead,.addref 0,.tag none none,audioRead,.release 0,.tag (some .title) (some (ascii "t")),.tag none none,
    audioRead,.release 0,.freePlugin]

theorem metadata_owned_url : ∃ s, Runs Step (start (some 1367) []) urlEvents s ∧ s.queue.map (·.associated) = [2,3] ∧
    Owned s ∧ ∀ event t, Step s event t → (Owned t ↔ Fair s event) := by
  have ran : (runFrom (guarded Fair Source.next) (start (some 1367) []) urlEvents).map
    (fun s => s.queue.map (·.associated)) = some [2,3] := by
    decide +kernel
  obtain ⟨s,ran,values⟩ := Option.map_eq_some_iff.mp ran
  have fair := runFrom_sound guarded_sound ran
  exact ⟨s,fair.imp fun step => step.1,values,metadata_owned fair⟩

-- The refbuf of the block is gone, and two titles are set.
theorem url_freed : ∃ events s, Runs Step (start (some 1367) []) events s ∧ ¬Owned s := by
  have ran : (runFrom Source.next (start (some 1367) []) [urlRead,.release 0,.tag none none,audioRead,
    .tag none none,audioRead]).map
      (·.blocks.wild) = some true := by decide +kernel
  obtain ⟨s,ran,wild⟩ := Option.map_eq_some_iff.mp ran
  refine ⟨_,s,runFrom_sound (fun step => step) ran,fun owned => ?_⟩
  exact Bool.noConfusion (owned.used.symm.trans wild)

end Icecast.Mp3Metadata
