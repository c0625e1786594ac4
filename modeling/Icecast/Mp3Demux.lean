import Icecast.Mp3Reader

namespace Icecast.Mp3
open Bytes IcyFormat

-- What the plugin keeps of a block: its last byte makes room for the NUL.
def kept (block : List UInt8) : List UInt8 := block.dropLast++[0]

-- The current metadata after a block. none is a changed block in another format.
def adopt (metadata block : List UInt8) : Option (List UInt8) :=
  if block.length > 1 ∧ cstr ((kept block).drop 1) ≠ cstr (metadata.drop 1) then
    if titleMark.isPrefixOf ((kept block).drop 1) then some (kept block) else none
  else some metadata

def adoptAll (metadata : List UInt8) (blocks : List (List UInt8)) : Option (List UInt8) := blocks.foldlM adopt metadata

theorem adoptAll_append : adoptAll metadata (earlier++later) = (adoptAll metadata earlier).bind (adoptAll · later) := by
  simp only [adoptAll,List.foldlM_append]
  rfl

-- Where a state of the demultiplexer stands in the stream's format.
inductive Tracks (n : Nat) (s : Mp3State) : Scan → Prop where
  | audio (idle : s.buildMetadataLen = 0) (within : s.offset ≤ n) : Tracks n s ⟨s.offset,[]⟩
  | block (full : s.offset = n) (announced : s.buildMetadataLen = blockLen k)
      (filled : s.buildMetadataOffset = part.length+1) (short : part.length+1 < blockLen k)
      (held : s.buildMetadata = k::part++List.replicate (buildMetadataSize-(part.length+1)) 0) : Tracks n s ⟨n,k::part⟩

-- The bounds of the counters, for every length byte.
structure Bounds (n : Nat) (s : Mp3State) : Prop where
  offset : s.offset ≤ n
  building : s.buildMetadataLen ≠ 0 →
    s.buildMetadataOffset < s.buildMetadataLen ∧ s.buildMetadataLen ≤ buildMetadataSize

theorem block_bound (k : UInt8) : 0 < blockLen k ∧ blockLen k ≤ buildMetadataSize := by
  have := UInt8.toNat_lt k
  simp only [blockLen,buildMetadataSize]
  omega

theorem Tracks.bounds (tracks : Tracks n s pos) : Bounds n s := by
  cases tracks with
  | audio idle within => exact ⟨within,fun building => absurd idle building⟩
  | @block k part full announced filled short held =>
    refine ⟨Nat.le_of_eq full,fun _ => ?_⟩
    rw [filled,announced]
    exact ⟨short,(block_bound k).2⟩

-- The bytes of a loop state that are still to be looked at, and the audio already kept.
def pending (f : Filter) : List UInt8 := (f.data.drop f.src).take f.bytes
def taken (f : Filter) : List UInt8 := f.data.take f.len

structure Good (n : Nat) (f : Filter) (pos : Scan) : Prop where
  interval : f.mp3.inlineMetadataInterval = n
  behind : f.len = f.src
  inside : f.src+f.bytes ≤ f.data.length
  tracks : Tracks n f.mp3 pos

theorem Good.length_pending (good : Good n f pos) : (pending f).length = f.bytes := by
  have := good.inside
  simp only [pending,List.length_take,List.length_drop]
  omega

-- What the bytes `seen` did to a loop state: the audio in them is kept, the blocks in
-- them are adopted, the buffer being filled for the next read is left alone.
structure Filtered (n : Nat) (f g : Filter) (pos : Scan) (seen : List UInt8) : Prop where
  audio : taken g = taken f++audioOf (scan n pos seen).2
  blocks : adoptAll f.mp3.metadata (blocksOf (scan n pos seen).2) = some g.mp3.metadata
  readData : g.mp3.readData = f.mp3.readData
  interval : g.mp3.inlineMetadataInterval = f.mp3.inlineMetadataInterval

structure Rejected (n : Nat) (f : Filter) (s : Mp3State) (pos : Scan) (seen : List UInt8) : Prop where
  blocks : adoptAll f.mp3.metadata (blocksOf (scan n pos seen).2) = none
  bounds : Bounds n s
  interval : s.inlineMetadataInterval = f.mp3.inlineMetadataInterval

theorem Filtered.trans (first : Filtered n f g pos earlier) (rest : Filtered n g h (scan n pos earlier).1 later) :
    Filtered n f h pos (earlier++later) where
  audio := by rw [rest.audio,first.audio,scan_append,audioOf_append,List.append_assoc]
  blocks := by rw [scan_append,blocksOf_append,adoptAll_append,first.blocks,Option.bind_some,rest.blocks]
  readData := rest.readData.trans first.readData
  interval := rest.interval.trans first.interval

theorem Filtered.reject (first : Filtered n f g pos earlier) (rest : Rejected n g s (scan n pos earlier).1 later) :
    Rejected n f s pos (earlier++later) where
  blocks := by rw [scan_append,blocksOf_append,adoptAll_append,first.blocks,Option.bind_some,rest.blocks]
  bounds := rest.bounds
  interval := rest.interval.trans first.interval

theorem Rejected.extend (rejected : Rejected n f s pos seen) (more : List UInt8) : Rejected n f s pos (seen++more) where
  blocks := by rw [scan_append,blocksOf_append,adoptAll_append,rejected.blocks,Option.bind_none]
  bounds := rejected.bounds
  interval := rejected.interval

def StepSpec (n : Nat) (f : Filter) (pos : Scan) : Outcome → Prop
  | .again g => ∃ chunk, chunk ≠ [] ∧ pending f = chunk++pending g ∧
      Good n g (scan n pos chunk).1 ∧ Filtered n f g pos chunk
  | .stop g => Tracks n g.mp3 (scan n pos (pending f)).1 ∧ Filtered n f g pos (pending f)
  | .reject s => ∃ chunk rest, pending f = chunk++rest ∧ Rejected n f s pos chunk

def LoopSpec (n : Nat) (f : Filter) (pos : Scan) : Except Mp3State Filter → Prop
  | .ok g => Tracks n g.mp3 (scan n pos (pending f)).1 ∧ Filtered n f g pos (pending f)
  | .error s => Rejected n f s pos (pending f)

theorem length_kept (nonempty : block ≠ []) : (kept block).length = block.length := by
  have := List.length_pos_iff.mpr nonempty
  simp only [kept,List.length_append,List.length_dropLast,List.length_singleton]
  omega

-- A whole block in build_metadata is adopted as the format says.
theorem assign_metadata (held : s.buildMetadata = kept block++List.replicate m 0) (nonempty : block ≠ [])
    (announced : s.buildMetadataLen = block.length) :
    (adopt s.metadata block = none → assignMetadata s = none) ∧
    ∀ md, adopt s.metadata block = some md →
    ∃ url, assignMetadata s = some {s with metadata := md,inlineUrl := url} := by
  have width := length_kept nonempty
  have positive := List.length_pos_iff.mpr nonempty
  have text : cstr (s.buildMetadata.drop 1) = cstr ((kept block).drop 1) := by
    rw [held,List.drop_append_of_le_length (by omega),cstr_nuls fun _ => List.eq_of_mem_replicate]
  have whole : s.buildMetadata.take s.buildMetadataLen = kept block := by
    rw [held,announced,←width,List.take_left']
    rfl
  unfold assignMetadata adopt
  dsimp only
  rw [text,whole,←announced]
  by_cases new : s.buildMetadataLen > 1 ∧ cstr ((kept block).drop 1) ≠ cstr (s.metadata.drop 1)
  · rw [if_pos new,if_pos new]
    by_cases title : titleMark.isPrefixOf ((kept block).drop 1) = true
    · rw [if_pos title,if_pos title]
      refine ⟨nofun,fun md same => ?_⟩
      cases Option.some.inj same
      exact ⟨_,rfl⟩
    · rw [if_neg title,if_neg title]
      exact ⟨fun _ => rfl,nofun⟩
  · rw [if_neg new,if_neg new]
    refine ⟨nofun,fun md same => ?_⟩
    cases Option.some.inj same
    exact ⟨s.inlineUrl,rfl⟩

-- A state that collects a block: `part` of it is held and `rest` follows in the buffer.
structure Building (n : Nat) (s : Mp3State) (part rest : List UInt8) (k : UInt8) : Prop where
  full : s.offset = n
  announced : s.buildMetadataLen = blockLen k
  filled : s.buildMetadataOffset = part.length
  short : part.length < blockLen k
  held : s.buildMetadata = part++List.replicate (buildMetadataSize-part.length) 0
  first : (part++rest).head? = some k

-- Copying more of the block to its place in build_metadata.
theorem Building.copy (building : Building n s part rest k) (more : List UInt8)
    (room : part.length+more.length ≤ buildMetadataSize) :
    memcpy s.buildMetadata s.buildMetadataOffset more =
      some (part++more++List.replicate (buildMetadataSize-(part++more).length) 0) := by
  rw [building.held,building.filled,memcpy_append (by rw [List.length_replicate]; omega),List.drop_replicate,
    List.length_append,Nat.sub_sub]

theorem metadata_part (building : Building n s part (pending f) k) (inside : f.src+f.bytes ≤ f.data.length)
    (few : f.bytes < blockLen k-part.length) (nonempty : f.bytes ≠ 0) :
    ∃ t, metadataStep f s = some (.stop {f with mp3 := t}) ∧ Tracks n t (scan n ⟨n,part⟩ (pending f)).1 ∧
      (scan n ⟨n,part⟩ (pending f)).2 = [] ∧ t.metadata = s.metadata ∧ t.readData = s.readData ∧
      t.inlineMetadataInterval = s.inlineMetadataInterval := by
  have width : (pending f).length = f.bytes := by
    simp only [pending,List.length_take,List.length_drop]
    omega
  have bound := (block_bound k).2
  have copied := building.copy (pending f) (by omega)
  have scanned := scan_block_part (Nat.le_refl n) building.first (by rw [List.length_append]; omega)
  obtain ⟨front,same⟩ : ∃ front, part++pending f = k::front := by
    have first := building.first
    cases joined : part++pending f with
    | nil => rw [joined] at first; cases first
    | cons b front => rw [joined] at first; cases first; exact ⟨front,rfl⟩
  have size : front.length+1 = part.length+f.bytes := by
    have := congrArg List.length same
    simpa [width] using this.symm
  refine ⟨{s with buildMetadata := part++pending f++List.replicate (buildMetadataSize-(part++pending f).length) 0
                  buildMetadataOffset := s.buildMetadataOffset+f.bytes},?_,?_,by rw [scanned],rfl,rfl,rfl⟩
  · have less : f.bytes < s.buildMetadataLen-s.buildMetadataOffset := by rw [building.announced,building.filled]; exact few
    rw [metadataStep,if_pos less,slice_eq inside,Option.bind_some]
    exact congrArg (Option.map _) copied
  · rw [scanned,same]
    refine .block building.full building.announced ?_ (by omega) rfl
    dsimp only
    rw [building.filled]
    omega

theorem overwrite_block (inside : f.src+f.bytes ≤ f.data.length) (enough : remaining ≤ f.bytes) :
    ∃ data, memmove f.data f.src (f.src+remaining) (f.bytes-remaining) = some data ∧ data.length = f.data.length ∧
      data.take f.src = f.data.take f.src ∧ (data.drop f.src).take (f.bytes-remaining) =
      (pending f).drop remaining := by
  obtain ⟨data,moved⟩ := memmove_total (show f.src+(f.bytes-remaining) ≤ f.data.length by omega)
    (show f.src+remaining+(f.bytes-remaining) ≤ f.data.length by omega)
  obtain ⟨width,front⟩ := memmove_spec moved
  have below : (f.data.take f.src).length = f.src := by
    rw [List.length_take]
    omega
  refine ⟨data,moved,width,?_,?_⟩
  · have := congrArg (List.take f.src) front
    rwa [List.take_take,Nat.min_eq_left (by omega),List.take_left' below] at this
  · have := congrArg (List.drop f.src) front
    rw [List.drop_take,Nat.add_sub_cancel_left,List.drop_left' below] at this
    rw [this,pending,List.drop_take,List.drop_drop]

theorem metadata_whole (building : Building n s part (pending f) k) (inside : f.src+f.bytes ≤ f.data.length)
    (enough : blockLen k-part.length ≤ f.bytes) :
    ∃ chunk, chunk = (pending f).take (blockLen k-part.length) ∧
      scan n ⟨n,part⟩ chunk = (start,[.block (part++chunk)]) ∧
      (adopt s.metadata (part++chunk) = none →
      ∃ build, metadataStep f s = some (.reject {s with buildMetadata := build})) ∧
      ∀ md, adopt s.metadata (part++chunk) = some md → ∃ data build url,
        metadataStep f s = some (.again {f with
          data := data,bytes := f.bytes-(blockLen k-part.length)
          mp3 := {s with buildMetadata := build,metadata := md,inlineUrl := url,offset := 0,buildMetadataLen := 0}}) ∧
        data.length = f.data.length ∧ data.take f.src = f.data.take f.src ∧
        (data.drop f.src).take (f.bytes-(blockLen k-part.length)) = (pending f).drop (blockLen k-part.length) := by
  have short := building.short
  have bound := (block_bound k).2
  have width : (pending f).length = f.bytes := by
    simp only [pending,List.length_take,List.length_drop]
    omega
  generalize missing : blockLen k-part.length = remaining at enough
  have size : ((pending f).take remaining).length = remaining := by
    rw [List.length_take]
    omega
  have full : (part++(pending f).take remaining).length = blockLen k := by
    rw [List.length_append,size]
    omega
  -- all but the last byte of the block goes to build_metadata
  have copied := building.copy ((pending f).take (remaining-1)) (by rw [List.length_take]; omega)
  have read : slice f.data f.src (remaining-1) = some ((pending f).take (remaining-1)) := by
    rw [slice_eq (by omega),pending,List.take_take,Nat.min_eq_left (by omega)]
  have short_part : ((pending f).take (remaining-1)).length = remaining-1 := by
    rw [List.length_take]
    omega
  have held : part++(pending f).take (remaining-1)++
      List.replicate (buildMetadataSize-(part++(pending f).take (remaining-1)).length) 0 =
      kept (part++(pending f).take remaining)++List.replicate (buildMetadataSize-blockLen k) 0 := by
    have last : (part++(pending f).take remaining).dropLast = part++(pending f).take (remaining-1) := by
      rw [List.dropLast_append_of_ne_nil (by intro empty; rw [empty] at size; simp at size; omega),
        List.dropLast_eq_take,size,List.take_take,Nat.min_eq_left (by omega)]
    have zeros : buildMetadataSize-(part++(pending f).take (remaining-1)).length =
      1+(buildMetadataSize-blockLen k) := by
      rw [List.length_append,short_part]
      omega
    rw [kept,last,zeros,←List.replicate_append_replicate,List.append_assoc _ [0]]
    rfl
  rw [held] at copied
  have first : (part++(pending f).take remaining).head? = some k := by
    have first := building.first
    cases part with
    | cons b rest => exact first
    | nil =>
      rw [List.nil_append,List.head?_take,if_neg (by omega)]
      exact first
  obtain ⟨refused,adopted⟩ := assign_metadata (s := {s with
      buildMetadata := kept (part++(pending f).take remaining)++List.replicate (buildMetadataSize-blockLen k) 0})
    rfl (by intro empty; rw [empty] at full; exact absurd full.symm (Nat.ne_of_gt (block_bound k).1))
    (by rw [full]; exact building.announced)
  obtain ⟨data,moved,same_length,before,after⟩ := overwrite_block inside enough
  have gap : s.buildMetadataLen-s.buildMetadataOffset = remaining := by rw [building.announced,building.filled]; exact missing
  have stepped : metadataStep f s = some ((assignMetadata {s with
      buildMetadata := kept (part++(pending f).take remaining)++List.replicate (buildMetadataSize-blockLen k) 0}).elim
      (.reject {s with
          buildMetadata := kept (part++(pending f).take remaining)++List.replicate (buildMetadataSize-blockLen k) 0})
      fun s => .again {f with data := data,bytes := f.bytes-remaining,mp3 := {s with offset := 0,buildMetadataLen := 0}}) := by
    rw [metadataStep,gap,if_neg (by omega),read,Option.bind_some,copied,Option.bind_some,moved]
    cases assignMetadata _ <;> rfl
  refine ⟨_,rfl,scan_block_end (Nat.le_refl n) first short full,fun none_left => ?_,fun md taken => ?_⟩
  · rw [stepped,refused none_left]
    exact ⟨_,rfl⟩
  · obtain ⟨url,assigned⟩ := adopted md taken
    rw [stepped,assigned]
    exact ⟨data,_,url,rfl,same_length,before,after⟩

theorem begin_block (good : Good n f pos) (due : f.mp3.offset = n) (nonempty : f.bytes ≠ 0) :
    ∃ s part k, beginBlock f = some s ∧ Building n s part (pending f) k ∧ pos = ⟨n,part⟩ ∧
      s.metadata = f.mp3.metadata ∧ s.readData = f.mp3.readData ∧
      s.inlineMetadataInterval = f.mp3.inlineMetadataInterval := by
  have inside := good.inside
  cases good.tracks with
  | audio idle within =>
    have read : f.data[f.src]? = some f.data[f.src] := List.getElem?_eq_getElem (by omega)
    have head : (pending f).head? = some f.data[f.src] := by
      rw [pending,List.head?_take,if_neg nonempty,List.head?_drop,read]
    refine ⟨{f.mp3 with
      buildMetadata := List.replicate buildMetadataSize 0,buildMetadataOffset := 0
      buildMetadataLen := 1+f.data[f.src].toNat*16},[],f.data[f.src],?_,?_,by rw [due],rfl,rfl,rfl⟩
    · rw [beginBlock,if_pos idle,read,Option.map_some]
    exact {
      full := due
      announced := by rw [blockLen,Nat.mul_comm]
      filled := rfl
      short := (block_bound _).1
      held := rfl
      first := head }
  | @block k part full announced filled short held =>
    have busy : f.mp3.buildMetadataLen ≠ 0 := by
      have := (block_bound k).1
      omega
    refine ⟨f.mp3,k::part,k,by rw [beginBlock,if_neg busy],?_,rfl,rfl,rfl,rfl⟩
    exact ⟨due,announced,filled,short,held,rfl⟩

theorem Good.audio_due (good : Good n f pos) (below : f.mp3.offset < n) :
    pos = ⟨f.mp3.offset,[]⟩ ∧ f.mp3.buildMetadataLen = 0 := by
  cases good.tracks with
  | audio idle within => exact ⟨rfl,idle⟩
  | block full announced filled short held => omega

theorem filter_audio (good : Good n f ⟨f.mp3.offset,[]⟩) (room : f.mp3.offset+count ≤ n) (enough : count ≤ f.bytes) :
    scan n ⟨f.mp3.offset,[]⟩ ((pending f).take count) =
      (⟨f.mp3.offset+count,[]⟩,((pending f).take count).map .audio) ∧
    f.data.take (f.len+count) = taken f++(pending f).take count := by
  have size : ((pending f).take count).length = count := by
    rw [List.length_take,good.length_pending]
    omega
  refine ⟨?_,?_⟩
  · rw [scan_audio (by omega),size]
  · rw [List.take_add,taken,pending,List.take_take,Nat.min_eq_left enough,good.behind]

theorem filter_audio_stop (good : Good n f pos) (some_left : f.bytes ≠ 0) (few : f.bytes ≤ n-f.mp3.offset) :
    StepSpec n f pos (.stop {f with len := f.len+f.bytes,mp3 := {f.mp3 with offset := f.mp3.offset+f.bytes}}) := by
  obtain ⟨rfl,idle⟩ := good.audio_due (by omega)
  obtain ⟨scanned,moved⟩ := filter_audio good (show f.mp3.offset+f.bytes ≤ n by omega) (Nat.le_refl _)
  rw [←good.length_pending,List.take_length,good.length_pending] at scanned moved
  refine ⟨?_,?_⟩
  · rw [scanned]
    exact .audio idle (by dsimp only; omega)
  · exact {
      audio := by rw [scanned,audioOf_audio]; exact moved
      blocks := by rw [scanned,blocksOf_audio]; rfl
      readData := rfl
      interval := rfl }

theorem filter_audio_again (good : Good n f pos) (more : ¬f.bytes ≤ n-f.mp3.offset) (due : n-f.mp3.offset ≠ 0) :
    StepSpec n f pos (.again {f with
      src := f.src+(n-f.mp3.offset),bytes := f.bytes-(n-f.mp3.offset),len := f.len+(n-f.mp3.offset)
      mp3 := {f.mp3 with offset := f.mp3.offset+(n-f.mp3.offset)}}) := by
  obtain ⟨rfl,idle⟩ := good.audio_due (by omega)
  obtain ⟨scanned,moved⟩ := filter_audio good (show f.mp3.offset+(n-f.mp3.offset) ≤ n by omega) (by omega)
  have width := good.length_pending
  have inside := good.inside
  have behind := good.behind
  refine ⟨(pending f).take (n-f.mp3.offset),?_,?_,?_,?_⟩
  · intro empty
    have := congrArg List.length empty
    rw [List.length_take,List.length_nil] at this
    omega
  · have rest : pending {f with
        src := f.src+(n-f.mp3.offset),bytes := f.bytes-(n-f.mp3.offset),len := f.len+(n-f.mp3.offset)
        mp3 := {f.mp3 with offset := f.mp3.offset+(n-f.mp3.offset)}} = (pending f).drop (n-f.mp3.offset) := by
      rw [pending,pending,List.drop_take,List.drop_drop]
    rw [rest,List.take_append_drop]
  · rw [scanned]
    exact {
      interval := good.interval
      behind := by dsimp only; omega
      inside := by dsimp only; omega
      tracks := .audio idle (by dsimp only; omega) }
  · exact {
      audio := by rw [scanned,audioOf_audio]; exact moved
      blocks := by rw [scanned,blocksOf_audio]; rfl
      readData := rfl
      interval := rfl }

theorem filter_metadata (good : Good n f pos) (due : f.mp3.offset = n) (some_left : f.bytes ≠ 0) :
    ∃ outcome, (beginBlock f).bind (metadataStep f) = some outcome ∧ StepSpec n f pos outcome := by
  obtain ⟨s,part,k,begun,building,rfl,metadata,readData,interval⟩ := begin_block good due some_left
  have inside := good.inside
  rw [begun,Option.bind_some]
  by_cases few : f.bytes < blockLen k-part.length
  · obtain ⟨t,stepped,tracks,none_done,same,read,keep⟩ := metadata_part building inside few some_left
    refine ⟨_,stepped,tracks,?_⟩
    exact {
      audio := by rw [none_done,audioOf_nil,List.append_nil]; rfl
      blocks := by rw [none_done,same,metadata]; rfl
      readData := read.trans readData
      interval := keep.trans interval }
  · obtain ⟨chunk,cut,scanned,refused,adopted⟩ := metadata_whole building inside (Nat.le_of_not_lt few)
    have rest : pending f = chunk++(pending f).drop (blockLen k-part.length) := by rw [cut,List.take_append_drop]
    have one : adoptAll f.mp3.metadata (blocksOf (scan n ⟨n,part⟩ chunk).2) = adopt s.metadata (part++chunk) := by
      rw [scanned,blocksOf_block,blocksOf_nil,metadata]
      simp only [adoptAll,List.foldlM_cons,List.foldlM_nil,bind_pure]
    cases verdict : adopt s.metadata (part++chunk) with
    | none =>
      obtain ⟨build,stepped⟩ := refused verdict
      refine ⟨_,stepped,chunk,_,rest,one.trans verdict,?_,interval⟩
      refine ⟨Nat.le_of_eq building.full,fun _ => ?_⟩
      dsimp only
      rw [building.filled,building.announced]
      exact ⟨building.short,(block_bound k).2⟩
    | some md =>
      obtain ⟨data,build,url,stepped,width,before,after⟩ := adopted md verdict
      refine ⟨_,stepped,chunk,?_,?_,?_,?_⟩
      · rintro rfl
        have := congrArg List.length cut
        have short := building.short
        rw [List.length_nil,List.length_take,good.length_pending] at this
        omega
      · rw [←after] at rest
        exact rest
      · rw [scanned]
        exact {
          interval := interval.trans good.interval
          behind := good.behind
          inside := by dsimp only; omega
          tracks := .audio rfl (Nat.zero_le n) }
      · exact {
          audio := by
            rw [scanned,audioOf_block,audioOf_nil,List.append_nil,taken,taken]
            dsimp only
            rw [good.behind,before]
          blocks := one.trans verdict
          readData := readData
          interval := interval }

theorem filter_step (good : Good n f pos) (some_left : f.bytes ≠ 0) :
    ∃ outcome, filterStep f = some outcome ∧ StepSpec n f pos outcome := by
  have within := good.tracks.bounds.offset
  obtain rfl := good.interval
  unfold filterStep
  dsimp only
  by_cases few : f.bytes ≤ f.mp3.inlineMetadataInterval-f.mp3.offset
  · rw [if_pos few]
    exact ⟨_,rfl,filter_audio_stop good some_left few⟩
  · rw [if_neg few]
    by_cases audio : f.mp3.inlineMetadataInterval-f.mp3.offset ≠ 0
    · rw [if_pos audio]
      exact ⟨_,rfl,filter_audio_again good few audio⟩
    · rw [if_neg audio]
      exact filter_metadata good (by omega) some_left

theorem filter_loop (good : Good n f pos) (fuelled : f.bytes < fuel) :
    ∃ outcome, filterLoop fuel f = some outcome ∧ LoopSpec n f pos outcome := by
  induction fuel generalizing f pos with
  | zero => omega
  | succ fuel ih =>
    have width := good.length_pending
    by_cases empty : f.bytes = 0
    · rw [empty] at width
      refine ⟨.ok f,by rw [filterLoop,if_pos empty],?_⟩
      have none_left := List.length_eq_zero_iff.mp width
      refine ⟨by rw [none_left]; exact good.tracks,?_⟩
      rw [none_left]
      exact ⟨by simp [scan],rfl,rfl,rfl⟩
    · obtain ⟨outcome,stepped,spec⟩ := filter_step good empty
      cases outcome with
      | stop g => exact ⟨.ok g,by rw [filterLoop,if_neg empty,stepped]; rfl,spec⟩
      | reject s =>
        obtain ⟨chunk,rest,cut,rejected⟩ := spec
        refine ⟨.error s,by rw [filterLoop,if_neg empty,stepped]; rfl,?_⟩
        rw [LoopSpec,cut]
        exact rejected.extend rest
      | again g =>
        obtain ⟨chunk,used,cut,next,filtered⟩ := spec
        have shorter : g.bytes < f.bytes := by
          have := congrArg List.length cut
          have positive := List.length_pos_iff.mpr used
          rw [List.length_append,width,next.length_pending] at this
          omega
        obtain ⟨final,looped,done⟩ := ih next (by omega)
        refine ⟨final,by rw [filterLoop,if_neg empty,stepped]; exact looped,?_⟩
        cases final with
        | ok h =>
          refine ⟨?_,?_⟩
          · rw [cut,scan_append]
            exact done.1
          · rw [cut]
            exact filtered.trans done.2
        | error s =>
          rw [LoopSpec,cut]
          exact filtered.reject done

end Icecast.Mp3
