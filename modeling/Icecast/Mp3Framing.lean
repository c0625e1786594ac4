import Icecast.Mp3Writer

namespace Icecast.Mp3
open IcyFormat

variable {refbuf : View MetaBuf} {n : Nat} {v w : Writing} {s t : Scan} {associated : Option MetaBuf}

-- The metadata buffer whose turn it is.
def metadataBlock (d : Mp3ClientData) : Option MetaBuf → List UInt8
  | some buf => if d.associated ≠ some buf.addr then buf.data else [0]
  | none => blankMetadata

-- A block that may go out next to a refbuf with this metadata.
def BlockOf (associated : Option MetaBuf) (block : List UInt8) : Prop :=
  block = [0] ∨ block = blankMetadata ∨ ∃ buf, associated = some buf ∧ block = buf.data

theorem metadataBlock_of (d : Mp3ClientData) (associated : Option MetaBuf) :
    BlockOf associated (metadataBlock d associated) := by
  unfold metadataBlock
  split
  · split
    · exact .inr (.inr ⟨_,rfl,rfl⟩)
    · exact .inl rfl
  · exact .inr (.inl rfl)

theorem metadataBlock_whole (d : Mp3ClientData) (associated : Option MetaBuf) :
    whole (metadataBlock d associated) = true := by
  unfold metadataBlock
  split
  · split
    · exact MetaBuf.whole _
    · rfl
  · rfl

theorem whole_length (all : whole block = true) : ∃ k, block.head? = some k ∧ block.length = blockLen k := by
  cases block with
  | nil => cases all
  | cons k rest => exact ⟨k,rfl,by simpa [whole] using all⟩

-- Between two blocks: a client that is sent mp3, and where a reader of what it was sent
-- stands.
structure Idle (d : Mp3ClientData) (s : Scan) : Prop where
  open_ : d.inMetadata = false
  offset : d.metadataOffset = 0
  within : d.sinceMetaBlock ≤ d.interval
  scan : s = ⟨d.sinceMetaBlock.toNat,[]⟩

-- A block is due or partly sent.
structure Due (d : Mp3ClientData) (associated : Option MetaBuf) (s : Scan) : Prop where
  since : d.sinceMetaBlock = d.interval
  offset : d.metadataOffset < (metadataBlock d associated).length
  scan : s = ⟨d.interval.toNat,(metadataBlock d associated).take d.metadataOffset⟩

-- A client between two writes.
def Link (d : Mp3ClientData) (associated : Option MetaBuf) (s : Scan) : Prop :=
  Idle d s ∨ (d.inMetadata = true ∧ Due d associated s)

-- What a part of a write sent, as its reader sees it.
structure Progress (n : Nat) (refbuf : View MetaBuf) (v w : Writing) (s t : Scan) : Prop where
  interval : w.data.interval = v.data.interval
  forward : v.pos ≤ w.pos
  short : w.pos ≤ refbuf.data.length
  sent : ∃ more items, w.bytes = v.bytes++more ∧
    scan n s more = (t,items) ∧ (∀ block ∈ blocksOf items, BlockOf refbuf.associated block) ∧
    audioOf items = (refbuf.data.drop v.pos).take (w.pos-v.pos)

theorem Progress.refl (short : v.pos ≤ refbuf.data.length) (s : Scan) : Progress n refbuf v v s s :=
  ⟨rfl,Nat.le_refl _,short,[],[],(List.append_nil _).symm,rfl,nofun,by rw [Nat.sub_self,List.take_zero]; rfl⟩

theorem Progress.trans {u : Writing} {r : Scan} (first : Progress n refbuf u v r s)
    (second : Progress n refbuf v w s t) :
    Progress n refbuf u w r t := by
  obtain ⟨xs,front,bytes,scanned,whole,audio⟩ := first.sent
  obtain ⟨ys,back,bytes_too,scanned_too,whole_too,audio_too⟩ := second.sent
  have forward := first.forward
  have forward_too := second.forward
  refine ⟨second.interval.trans first.interval,Nat.le_trans forward forward_too,second.short,xs++ys,
    front++back,?_,?_,?_,?_⟩
  · rw [bytes_too,bytes,List.append_assoc]
  · rw [scan_append,scanned]
    dsimp only
    rw [scanned_too]
  · intro block member
    rw [blocksOf_append] at member
    rcases List.mem_append.mp member with early | late
    · exact whole block early
    · exact whole_too block late
  · rw [audioOf_append,audio,audio_too,
      show w.pos-u.pos = (v.pos-u.pos)+(w.pos-v.pos) by omega,List.take_add,List.drop_drop,
      show u.pos+(v.pos-u.pos) = v.pos by omega]

theorem Progress.count (progress : Progress n refbuf v w s t) : Progress n refbuf v w.count s t :=
  ⟨progress.interval,progress.forward,progress.short,progress.sent⟩

theorem metadataLeft_eq (offset : d.metadataOffset < (metadataBlock d associated).length) :
    metadataLeft d associated = some ((metadataBlock d associated).drop d.metadataOffset) := by
  unfold metadataLeft
  unfold metadataBlock at offset ⊢
  cases associated with
  | none => exact if_pos (Nat.le_of_lt offset)
  | some buf =>
    dsimp only at offset ⊢
    split
    · rename_i changed
      rw [if_pos changed] at offset
      exact if_pos (Nat.le_of_lt offset)
    · rename_i same
      rw [if_neg same] at offset
      rw [show d.metadataOffset = 0 by simpa using offset,List.drop_zero]

-- send_stream_metadata gets to the end of the block, or short of it.
theorem sendStreamMetadata_spec (offset : d.metadataOffset < (metadataBlock d associated).length) (send : Send) :
    ∃ e out k, sendStreamMetadata d associated send = some (e,out) ∧
      out.bytes = ((metadataBlock d associated).drop d.metadataOffset).take k ∧
      ((d.metadataOffset+k = (metadataBlock d associated).length ∧
          e = ⟨d.interval,0,0,false,associated.map (·.addr)⟩) ∨
        (d.metadataOffset+k < (metadataBlock d associated).length ∧
          e = {d with metadataOffset := d.metadataOffset+k,inMetadata := true})) := by
  unfold sendStreamMetadata
  rw [metadataLeft_eq offset]
  generalize metadataBlock d associated = block at *
  obtain ⟨front,most,_⟩ := send_bytes_spec (block.drop d.metadataOffset) send
  rw [Option.map_some]
  dsimp only
  generalize clientSendBytes (block.drop d.metadataOffset) send = out at *
  rw [List.length_drop] at most
  by_cases all : out.ret = ((block.drop d.metadataOffset).length : Int)
  · rw [if_pos all]
    rw [List.length_drop] at all
    exact ⟨_,_,out.ret.toNat,rfl,front,.inl ⟨by omega,rfl⟩⟩
  · rw [if_neg all]
    rw [List.length_drop] at all
    exact ⟨_,_,out.ret.toNat,rfl,front,.inr ⟨by omega,rfl⟩⟩

theorem metadata_progress (due : Due v.data refbuf.associated s) (short : v.pos ≤ refbuf.data.length) (send : Send) :
    ∃ w t, v.metadata refbuf.associated send = some w ∧ Progress v.data.interval.toNat refbuf v w s t ∧ w.pos = v.pos ∧
      ((w.data.inMetadata = true ∧ Due w.data refbuf.associated t) ∨ (Idle w.data t ∧ w.data.sinceMetaBlock = 0)) := by
  obtain ⟨first,head,length⟩ := whole_length (metadataBlock_whole v.data refbuf.associated)
  obtain ⟨e,out,k,sent,bytes,outcome⟩ := sendStreamMetadata_spec due.offset send
  have offset := due.offset
  have joined : (metadataBlock v.data refbuf.associated).take v.data.metadataOffset++out.bytes =
      (metadataBlock v.data refbuf.associated).take (v.data.metadataOffset+k) := by rw [bytes,List.take_add]
  refine ⟨{v with data := e,error := v.error || out.error,bytes := v.bytes++out.bytes,ret := out.ret},?_⟩
  rcases outcome with ⟨all,rfl⟩ | ⟨less,rfl⟩
  · rw [all,List.take_length] at joined
    refine ⟨start,by rw [Writing.metadata,sent]; rfl,⟨rfl,Nat.le_refl _,short,out.bytes,
      [.block (metadataBlock v.data refbuf.associated)],rfl,?_,?_,?_⟩,rfl,.inr ⟨⟨rfl,rfl,?_,rfl⟩,rfl⟩⟩
    · have missing : ((metadataBlock v.data refbuf.associated).take v.data.metadataOffset).length < blockLen first := by
        rw [List.length_take]
        omega
      rw [←joined] at head length
      have ended := scan_block_end (Nat.le_refl v.data.interval.toNat) head missing length
      rw [joined] at ended
      rw [due.scan]
      exact ended
    · intro block member
      rw [blocksOf_block,blocksOf_nil,List.mem_singleton] at member
      exact member ▸ metadataBlock_of _ _
    · rw [audioOf_block,Nat.sub_self,List.take_zero]
      rfl
    · exact UInt32.le_iff_toNat_le.mpr (Nat.zero_le _)
  · refine ⟨⟨v.data.interval.toNat,(metadataBlock v.data refbuf.associated).take (v.data.metadataOffset+k)⟩,
      by rw [Writing.metadata,sent]; rfl,⟨rfl,Nat.le_refl _,short,out.bytes,[],rfl,?_,nofun,?_⟩,rfl,
      .inl ⟨rfl,due.since,less,rfl⟩⟩
    · rw [due.scan]
      by_cases nothing : v.data.metadataOffset+k = 0
      · have zero : k = 0 := by omega
        rw [bytes,zero,List.take_zero]
        rfl
      · rw [←joined]
        refine scan_block_part (k := first) (Nat.le_refl _) ?_ ?_
        · rw [joined,List.head?_take,if_neg nothing]
          exact head
        · rw [joined,List.length_take]
          omega
    · rw [Nat.sub_self,List.take_zero]
      rfl

theorem mp3_progress (idle : Idle v.data s) (front : buf <+: refbuf.data.drop v.pos)
    (short : v.pos ≤ refbuf.data.length)
    (room : v.data.sinceMetaBlock.toNat+buf.length ≤ v.data.interval.toNat) (send : Send) :
    ∃ t, Progress v.data.interval.toNat refbuf v (v.mp3 buf send).1 s t ∧ Idle (v.mp3 buf send).1.data t ∧
      ((v.mp3 buf send).2 = true → (v.mp3 buf send).1.pos = v.pos+buf.length ∧
        (v.mp3 buf send).1.data.sinceMetaBlock.toNat = v.data.sinceMetaBlock.toNat+buf.length) := by
  obtain ⟨k,few,bytes,pos,data,whole⟩ := mp3_spec v buf send
  have bound : v.data.interval.toNat < 2^32 := v.data.interval.toNat_lt
  have length := front.length_le
  rw [List.length_drop] at length
  have since : (v.data.sinceMetaBlock+UInt32.ofNat k).toNat = v.data.sinceMetaBlock.toNat+k := by
    rw [UInt32.toNat_add,UInt32.toNat_ofNat']
    omega
  have scanned : scan v.data.interval.toNat s (buf.take k) =
      (⟨v.data.sinceMetaBlock.toNat+k,[]⟩,(buf.take k).map .audio) := by
    have all := scan_audio (show v.data.sinceMetaBlock.toNat+(buf.take k).length ≤ v.data.interval.toNat by simp; omega)
    rw [List.length_take,Nat.min_eq_left few] at all
    rw [idle.scan,all]
  refine ⟨⟨v.data.sinceMetaBlock.toNat+k,[]⟩,⟨by rw [data],by omega,by omega,buf.take k,_,bytes,scanned,?_,?_⟩,?_,?_⟩
  · intro block member
    rw [blocksOf_audio] at member
    cases member
  · rw [audioOf_audio,pos,Nat.add_sub_cancel_left]
    obtain ⟨rest,same⟩ := front
    rw [←same,List.take_append_of_le_length few]
  · refine ⟨by rw [data]; exact idle.open_,by rw [data]; exact idle.offset,?_,by rw [data,since]⟩
    rw [data,UInt32.le_iff_toNat_le,since]
    dsimp only
    omega
  · intro all
    rw [pos,data,since,whole all]
    exact ⟨rfl,rfl⟩

theorem writeInterval_progress (idle : Idle v.data s) (front : buf = refbuf.data.drop v.pos)
    (short : v.pos ≤ refbuf.data.length)
    (sends : Nat → Send) : ∃ w t, writeInterval refbuf.associated v buf sends = some w ∧
      Progress v.data.interval.toNat refbuf v w s t ∧ Link w.data refbuf.associated t := by
  have within := UInt32.le_iff_toNat_le.mp idle.within
  have remaining : (v.data.interval-v.data.sinceMetaBlock).toNat = v.data.interval.toNat-v.data.sinceMetaBlock.toNat :=
    UInt32.toNat_sub_of_le _ _ idle.within
  unfold writeInterval
  dsimp only
  rw [remaining]
  by_cases reached : v.data.interval.toNat-v.data.sinceMetaBlock.toNat ≤ buf.length
  · rw [if_pos reached]
    have lead : buf.take (v.data.interval.toNat-v.data.sinceMetaBlock.toNat) <+: refbuf.data.drop v.pos :=
      front ▸ List.take_prefix _ _
    have width : (buf.take (v.data.interval.toNat-v.data.sinceMetaBlock.toNat)).length =
        v.data.interval.toNat-v.data.sinceMetaBlock.toNat := by
      simp
      omega
    obtain ⟨t,progress,idle,whole⟩ := mp3_progress idle lead short (by omega) (sends 1)
    rw [width] at whole
    cases led : v.mp3 (buf.take (v.data.interval.toNat-v.data.sinceMetaBlock.toNat)) (sends 1) with
    | mk w all =>
      rw [led] at progress idle whole
      cases all with
      | false => exact ⟨w,t,rfl,progress,.inl idle⟩
      | true =>
        obtain ⟨pos,since⟩ := whole rfl
        have interval := progress.interval
        dsimp only at pos since interval
        have due : Due w.data refbuf.associated t := by
          obtain ⟨first,_,length⟩ := whole_length (metadataBlock_whole w.data refbuf.associated)
          have full : w.data.sinceMetaBlock = w.data.interval := UInt32.toNat_inj.mp (by rw [since,interval]; omega)
          refine ⟨full,?_,?_⟩
          · rw [idle.offset,length,blockLen]
            omega
          · rw [idle.scan,idle.offset,List.take_zero,full]
        obtain ⟨x,u,sent,onward,same,outcome⟩ := metadata_progress due progress.short (sends 2)
        rw [interval] at onward
        have both := progress.trans onward
        dsimp only
        rw [sent,Option.map_some]
        rcases outcome with ⟨busy,due⟩ | ⟨idle,zero⟩
        · exact ⟨x,u,by rw [if_pos busy],both,.inr ⟨busy,due⟩⟩
        · rw [if_neg (by rw [idle.open_]; decide)]
          have rest : (buf.drop (v.data.interval.toNat-v.data.sinceMetaBlock.toNat)).take x.data.interval.toNat <+:
              refbuf.data.drop x.count.pos := by
            rw [count_pos,same,pos,front,List.drop_drop]
            exact List.take_prefix _ _
          obtain ⟨r,last,idle,_⟩ := mp3_progress (v := x.count) idle rest both.short
            (by rw [count_data,zero,List.length_take,UInt32.toNat_zero]; omega) (sends 3)
          have same_interval : x.count.data.interval = v.data.interval := both.interval
          rw [same_interval] at last
          exact ⟨_,r,rfl,both.count.trans last,.inl idle⟩
  · rw [if_neg reached]
    obtain ⟨t,progress,idle,_⟩ :=
      mp3_progress idle (show buf <+: _ from front ▸ List.prefix_rfl) short (by omega) (sends 3)
    exact ⟨_,t,rfl,progress,.inl idle⟩

theorem write_progress (link : Link d refbuf.associated s) (interval : d.interval ≠ 0)
    (short : pos ≤ refbuf.data.length)
    (sends : Nat → Send) : ∃ w t, formatMp3WriteBufToClient refbuf pos d sends = some w.done ∧
      Progress d.interval.toNat refbuf ⟨d,pos,false,[],0,0⟩ w s t ∧ Link w.data refbuf.associated t := by
  unfold formatMp3WriteBufToClient
  rw [if_neg (Nat.not_lt.mpr short)]
  dsimp only
  have next : ∀ v t, Progress d.interval.toNat refbuf ⟨d,pos,false,[],0,0⟩ v s t → Idle v.data t → v.pos = pos →
      ∃ w t, (if v.count.data.interval ≠ 0 then
        (writeInterval refbuf.associated v.count (refbuf.data.drop pos) sends).map (·.done)
          else some (v.count.mp3 (refbuf.data.drop pos) (sends 3)).1.done) = some w.done ∧
        Progress d.interval.toNat refbuf ⟨d,pos,false,[],0,0⟩ w s t ∧ Link w.data refbuf.associated t := by
    intro v t progress idle same
    have kept : v.count.data.interval = d.interval := progress.interval
    obtain ⟨w,u,wrote,onward,link⟩ := writeInterval_progress (v := v.count) idle
      (show _ = refbuf.data.drop v.count.pos by rw [count_pos,same]) progress.short sends
    rw [if_pos (by rw [kept]; exact interval),wrote]
    rw [kept] at onward
    exact ⟨w,u,rfl,progress.count.trans onward,link⟩
  rcases link with idle | ⟨busy,due⟩
  · rw [if_neg (by rw [idle.open_]; decide),Option.bind_some,if_neg (by rw [idle.open_]; decide)]
    exact next _ s (.refl short s) idle rfl
  · obtain ⟨v,t,sent,progress,same,outcome⟩ := metadata_progress (v := ⟨d,pos,false,[],0,0⟩) due short (sends 0)
    rw [if_pos busy,sent,Option.bind_some]
    rcases outcome with ⟨busy,due⟩ | ⟨idle,_⟩
    · rw [if_pos busy]
      exact ⟨v,t,rfl,progress,.inr ⟨busy,due⟩⟩
    · rw [if_neg (by rw [idle.open_]; decide)]
      exact next v t progress idle same

end Icecast.Mp3
