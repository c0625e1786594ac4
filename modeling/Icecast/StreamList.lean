import Icecast.FserveDelivery
import Icecast.Lib.Bytes
import Icecast.Stats

namespace Icecast.StreamList
open Bytes FserveDelivery Stats

def STREAMLIST_BLKSIZE : UInt32 := 4096

structure Refbuf where
  data : List UInt8
  len : UInt32
deriving DecidableEq

-- refbuf_new
def refbufNew (size : UInt32) : Refbuf := ⟨List.replicate size.toNat 0,size⟩

def Refbuf.text (r : Refbuf) : List UInt8 := r.data.take r.len.toNat

-- The variables of stats_get_streams: the chain before `cur`, cur->data, where `buffer` points into
-- it, and `remaining`.
structure Packing where
  chain : List Refbuf
  data : List UInt8
  buffer : Nat
  remaining : UInt32
deriving DecidableEq

def start : Packing := ⟨[],(refbufNew STREAMLIST_BLKSIZE).data,0,STREAMLIST_BLKSIZE⟩

-- `cur` with its final length.
def Packing.cur (s : Packing) : Refbuf := ⟨s.data,STREAMLIST_BLKSIZE-s.remaining⟩

def entryLine (source : Text) : List UInt8 := source++[13,10]

def rollOver (source : Text) (s : Packing) : Packing :=
  if s.remaining.toNat ≤ source.length+3 then {start with chain := s.chain++[s.cur]} else s

-- The snprintf; none writes outside of the block.
def printEntry (source : Text) (s : Packing) : Option Packing :=
  (snprintf s.data s.buffer s.remaining.toNat (entryLine source)).map fun data =>
    {s with data := data,buffer := s.buffer+(entryLine source).length,remaining :=
      s.remaining-UInt32.ofNat (entryLine source).length}

def addEntry (s : Packing) (node : SourceNode) : Option Packing :=
  if node.hidden then some s else printEntry node.source (rollOver node.source s)

-- stats_get_streams
def statsGetStreams (stats : Trees) : Option (List Refbuf) :=
  (stats.sources.foldlM addEntry start).map fun s => s.chain++[s.cur]

-- errno
def EINTR : Nat := 4
def EAGAIN : Nat := 11
def EPIPE : Nat := 32
def ERESTART : Nat := 85
def EINPROGRESS : Nat := 115

def sockRecoverable (error : Nat) : Bool := error ∈ [0,EAGAIN,EINTR,EINPROGRESS,ERESTART]

-- What send() would answer.
inductive Answer where
  | took (n : Nat)
  | failed (error : Nat)
deriving DecidableEq

-- connection_send with sock_write_bytes, which does not call send() for no bytes and returns
-- SOCK_ERROR with errno as it was.
def connectionSend (errno : Nat) (answer : Answer) (len : Nat) : Reply :=
  if len = 0 then .failed (!sockRecoverable errno) else
  match answer with
  | .took n => .took n
  | .failed error => .failed (!sockRecoverable error)

-- What is left of the buffer that is sent from next.
def chunk (e : Fserve) : Nat := (grab {e with ready := false}).elim 0 fun f => f.refbuf.length-f.pos

-- A turn of the client in fserv_thread_function, with the errno that the thread has from before.
structure Turn where
  errno : Nat
  answer : Answer
deriving DecidableEq

def Turn.takes (t : Turn) : Bool := match t.answer with
  | .took n => 0 < n
  | .failed _ => false

-- The connection does not fail.
def Turn.Fine (t : Turn) : Prop := ∀ error, t.answer = .failed error → sockRecoverable error = true

def serveTurn (t : Turn) (e : Fserve) : List UInt8 × (Handed ⊕ Fserve) :=
  serve (connectionSend t.errno t.answer (chunk e)) e

-- What the client receives in some turns, and none after it was destroyed.
def session : List Turn → Fserve → List UInt8 × Option Fserve
  | [],e => ([],some e)
  | t::turns,e => match (serveTurn t e).2 with
    | .inl _ => ((serveTurn t e).1,none)
    | .inr f => ((serveTurn t e).1++(session turns f).1,(session turns f).2)

-- command_list_mounts: the response header and the chain behind it, without a file.
def listMounts (id : Nat) (header : List UInt8) (chain : List Refbuf) : Fserve :=
  ⟨id,header,chain.map Refbuf.text,0,nothing_sent header,none,false,true,false⟩

def visible (sources : List SourceNode) : List Text := (sources.filter (!·.hidden)).map (·.source)

def listing (names : List Text) : List UInt8 := names.flatMap entryLine

-- While the connection does not fail, the client receives a part of the response, all of it when it
-- is destroyed, and it is destroyed after turns enough.
def Delivers (chain : List Refbuf) (text : List UInt8) : Prop := ∀ id header turns, (∀ t ∈ turns, t.Fine) →
  (session turns (listMounts id header chain)).1 <+: header++text ∧
    ((session turns (listMounts id header chain)).2 = none →
      (session turns (listMounts id header chain)).1 = header++text) ∧
    ((header++text).length+chain.length < turns.countP (·.takes) →
      (session turns (listMounts id header chain)).2 = none)

-- The chain has every visible mount once and whole, in order, and arrives so.
def ListedRight (stats : Trees) : Prop := ∃ chain, statsGetStreams stats = some chain ∧
  chain.flatMap Refbuf.text = listing (visible stats.sources) ∧ (∀ r ∈ chain, r.len ≤ STREAMLIST_BLKSIZE) ∧
  (∃ groups : List (List Text), groups.flatten = visible stats.sources ∧ chain.map Refbuf.text = groups.map listing) ∧
  Delivers chain (listing (visible stats.sources))

-- What the loop has made of some names: whole blocks, and the one that is open.
structure Packed (s : Packing) (blocks : List (List Text)) (current : List Text) : Prop where
  chain : s.chain.map Refbuf.text = blocks.map listing
  lens : ∀ r ∈ s.chain, r.len ≤ STREAMLIST_BLKSIZE
  room : s.data.length = 4096
  full : s.buffer+s.remaining.toNat = 4096
  text : s.data.take s.buffer = listing current
  left : 0 < s.remaining.toNat

theorem start_packed : Packed start [] [] where
  chain := rfl
  lens := by intro r member; cases member
  room := List.length_replicate
  full := rfl
  text := rfl
  left := by decide

theorem Packed.len (packed : Packed s blocks current) : (s.cur.len.toNat = s.buffer) ∧
    s.cur.len ≤ STREAMLIST_BLKSIZE := by
  have full := packed.full
  have inside : s.remaining ≤ STREAMLIST_BLKSIZE := by
    rw [UInt32.le_iff_toNat_le]
    exact Nat.le_trans (Nat.le_add_left _ _) (Nat.le_of_eq full)
  have len : s.cur.len.toNat = 4096-s.remaining.toNat := UInt32.toNat_sub_of_le _ _ inside
  refine ⟨?_,?_⟩
  · omega
  · rw [UInt32.le_iff_toNat_le,len]
    exact Nat.sub_le _ _

theorem Packed.cur_text (packed : Packed s blocks current) : s.cur.text = listing current := by
  unfold Refbuf.text
  rw [packed.len.1]
  exact packed.text

theorem Packed.rolled (packed : Packed s blocks current) :
    Packed {start with chain := s.chain++[s.cur]} (blocks++[current]) [] where
  chain := by
    rw [List.map_append,List.map_append,packed.chain]
    exact congrArg (blocks.map listing++[·]) packed.cur_text
  lens := by
    intro r member
    rcases List.mem_append.mp member with earlier | last
    · exact packed.lens r earlier
    · cases List.mem_singleton.mp last
      exact packed.len.2
  room := List.length_replicate
  full := rfl
  text := rfl
  left := start_packed.left

theorem Packed.printed (packed : Packed s blocks current) (source : Text) (fits : source.length+2 < s.remaining.toNat) :
    ∃ t, printEntry source s = some t ∧ Packed t blocks (current++[source]) := by
  have width : (entryLine source).length = source.length+2 := List.length_append
  have full := packed.full
  obtain ⟨data,printed⟩ := snprintf_total (entryLine source)
    (show s.buffer+s.remaining.toNat ≤ s.data.length by rw [packed.room,full])
  have small : (UInt32.ofNat (entryLine source).length).toNat = source.length+2 := by
    rw [UInt32.toNat_ofNat',width]
    omega
  have less : UInt32.ofNat (entryLine source).length ≤ s.remaining := by
    rw [UInt32.le_iff_toNat_le,small]
    exact Nat.le_of_lt fits
  have rest : (s.remaining-UInt32.ofNat (entryLine source).length).toNat = s.remaining.toNat-(source.length+2) := by
    rw [UInt32.toNat_sub_of_le _ _ less,small]
  refine ⟨_,congrArg (Option.map _) printed,packed.chain,packed.lens,
    (length_snprintf printed).trans packed.room,?_,?_,?_⟩
  · refine Eq.trans (congrArg₂ (·+·) (congrArg (s.buffer+·) width) rest) ?_
    omega
  · have front := take_snprintf printed (width ▸ fits)
    refine front.trans ?_
    rw [packed.text]
    unfold listing
    rw [List.flatMap_append,List.flatMap_singleton]
  · exact rest ▸ Nat.sub_pos_of_lt fits

-- Where the names are: no block but the first one is left without a name, and that one where the
-- first name does not go into an empty block.
structure Layout (names : List Text) (blocks : List (List Text)) (current : List Text) : Prop where
  all : blocks.flatten++current = names
  more : names ≠ [] → current ≠ []
  later : ∀ b ∈ blocks.tail, b ≠ []
  first : blocks.head? = some [] ↔ ∃ name, names.head? = some name ∧ name.length+3 = 4096

theorem nil_layout : Layout [] [] [] := ⟨rfl,fun more => more,nofun,⟨nofun,fun ⟨_,head,_⟩ => nomatch head⟩⟩

theorem head_name {names : List Text} (more : names ≠ []) (name : Text) : (names++[name]).head? = names.head? :=
  List.head?_append_of_ne_nil names more

theorem Layout.nil_of_names (layout : Layout [] blocks current) : blocks.head? = none ∧ current = [] := by
  obtain ⟨flat,empty⟩ := List.append_eq_nil_iff.mp layout.all
  refine ⟨?_,empty⟩
  cases blocks with
  | nil => rfl
  | cons b rest =>
    have nothing : b = [] := (List.append_eq_nil_iff.mp flat).1
    obtain ⟨_,head,_⟩ := layout.first.mp (congrArg some nothing)
    cases head

theorem Layout.kept (layout : Layout names blocks current) (name : Text) (room : names = [] → name.length+3 ≠ 4096) :
    Layout (names++[name]) blocks (current++[name]) where
  all := by rw [←List.append_assoc,layout.all]
  more := fun _ => List.append_ne_nil_of_right_ne_nil current (List.cons_ne_nil name [])
  later := layout.later
  first := by
    by_cases more : names = []
    · subst more
      rw [layout.nil_of_names.1]
      refine ⟨nofun,fun ⟨first,head,wide⟩ => ?_⟩
      cases head
      exact absurd wide (room rfl)
    · rw [head_name more]
      exact layout.first

theorem Layout.rolled (layout : Layout names blocks current) (name : Text) (wide : names = [] → name.length+3 = 4096) :
    Layout (names++[name]) (blocks++[current]) [name] where
  all := by rw [List.flatten_append,List.flatten_singleton,layout.all]
  more := fun _ => List.cons_ne_nil name []
  later := by
    intro b member
    cases blocks with
    | nil => cases member
    | cons first rest =>
      rcases List.mem_append.mp member with earlier | last
      · exact layout.later b earlier
      · cases List.mem_singleton.mp last
        refine layout.more fun none_yet => ?_
        subst none_yet
        cases layout.nil_of_names.1
  first := by
    by_cases more : names = []
    · subst more
      obtain ⟨none_yet,empty⟩ := layout.nil_of_names
      rw [List.head?_append,none_yet,empty]
      exact ⟨fun _ => ⟨name,rfl,wide rfl⟩,fun _ => rfl⟩
    · rw [head_name more,←layout.first]
      cases blocks with
      | nil =>
        refine ⟨fun head => ?_,nofun⟩
        cases head
        exact absurd rfl (layout.more more)
      | cons first rest => exact Iff.rfl

theorem addEntry_packed (packed : Packed s blocks current) (layout : Layout names blocks current) (node : SourceNode)
    (fits : node.hidden = false → node.source.length+3 ≤ 4096) :
    ∃ t blocks' current', addEntry s node = some t ∧ Packed t blocks' current' ∧
    Layout (names++visible [node]) blocks' current' := by
  unfold addEntry visible
  cases shown : node.hidden with
  | true =>
    rw [List.filter_cons_of_neg (by simp [shown])]
    exact ⟨s,blocks,current,rfl,packed,(List.append_nil names).symm ▸ layout⟩
  | false =>
    rw [List.filter_cons_of_pos (by simp [shown])]
    have fits := fits shown
    have whole (empty : names = []) : s.remaining.toNat = 4096 := by
      subst empty
      have text := packed.text
      rw [layout.nil_of_names.2] at text
      have full := packed.full
      have room := packed.room
      rcases List.take_eq_nil_iff.mp text with none_used | none_there
      · omega
      · rw [none_there] at room
        cases room
    simp only [Bool.false_eq_true,if_false]
    unfold rollOver
    split
    · rename_i tight
      obtain ⟨t,printed,packed⟩ := packed.rolled.printed node.source (show node.source.length+2 < 4096 by omega)
      refine ⟨t,blocks++[current],[node.source],printed,packed,layout.rolled node.source fun empty => ?_⟩
      have wide := whole empty
      omega
    · rename_i loose
      obtain ⟨t,printed,packed⟩ := packed.printed node.source (by omega)
      refine ⟨t,blocks,current++[node.source],printed,packed,layout.kept node.source fun empty => ?_⟩
      have wide := whole empty
      omega

theorem addEntries_packed (sources : List SourceNode) (fits : ∀ node ∈ sources, node.hidden = false →
    node.source.length+3 ≤ 4096)
    (packed : Packed s blocks current) (layout : Layout names blocks current) :
    ∃ t blocks' current', sources.foldlM addEntry s = some t ∧ Packed t blocks' current' ∧
    Layout (names++visible sources) blocks' current' := by
  induction sources generalizing s blocks current names with
  | nil => exact ⟨s,blocks,current,rfl,packed,(List.append_nil names).symm ▸ layout⟩
  | cons node sources ih =>
    obtain ⟨t,blocks',current',one,packed,layout⟩ := addEntry_packed packed layout node (fits node List.mem_cons_self)
    obtain ⟨u,blocks',current',rest,packed,layout⟩ :=
      ih (fun other member => fits other (List.mem_cons_of_mem node member)) packed layout
    have split : visible (node::sources) = visible [node]++visible sources := by
      unfold visible
      rw [←List.map_append,←List.filter_append]
      rfl
    refine ⟨u,blocks',current',?_,packed,?_⟩
    · rw [List.foldlM_cons,one]
      exact rest
    · rw [split,←List.append_assoc]
      exact layout

-- The chain that stats_get_streams returns.
theorem streams_packed (stats : Trees) (fits : ∀ node ∈ stats.sources, node.hidden = false →
    node.source.length+3 ≤ 4096) :
    ∃ chain blocks current, statsGetStreams stats = some chain ∧
    chain.map Refbuf.text = (blocks++[current]).map listing ∧
      (∀ r ∈ chain, r.len ≤ STREAMLIST_BLKSIZE) ∧ Layout (visible stats.sources) blocks current := by
  obtain ⟨s,blocks,current,run,packed,layout⟩ := addEntries_packed stats.sources fits start_packed nil_layout
  refine ⟨s.chain++[s.cur],blocks,current,congrArg (Option.map _) run,?_,?_,layout⟩
  · rw [List.map_append,List.map_append,packed.chain]
    exact congrArg (blocks.map listing++[·]) packed.cur_text
  · intro r member
    rcases List.mem_append.mp member with earlier | last
    · exact packed.lens r earlier
    · cases List.mem_singleton.mp last
      exact packed.len.2

theorem left_next (e : Fserve) (file : e.file = none) (done : e.pos = e.refbuf.length) : left e = e.next.flatten := by
  unfold left
  rw [done,List.drop_length,file]
  rfl

theorem write_fine {t : Turn} (fine : t.Fine) {f : Fserve} (quiet : f.error = false)
    (more : f.refbuf.length-f.pos ≠ 0) :
    (FserveDelivery.formatGenericWriteToClient f
    (connectionSend t.errno t.answer (f.refbuf.length-f.pos))).2.error = false ∧
      (t.takes = true → (FserveDelivery.formatGenericWriteToClient f
      (connectionSend t.errno t.answer (f.refbuf.length-f.pos))).1 ≠ []) := by
  unfold connectionSend Turn.takes
  rw [if_neg more]
  cases answer : t.answer with
  | took n =>
    refine ⟨quiet,fun some_bytes none_sent => ?_⟩
    have positive : 0 < n := of_decide_eq_true some_bytes
    have empty := congrArg List.length none_sent
    unfold FserveDelivery.formatGenericWriteToClient at empty
    rw [List.length_take,List.length_drop,List.length_nil] at empty
    omega
  | failed error =>
    refine ⟨?_,nofun⟩
    change (f.error || !sockRecoverable error) = false
    rw [fine error answer,quiet]
    rfl

theorem write_kept (reply : Reply) (f : Fserve) :
    (FserveDelivery.formatGenericWriteToClient f reply).2.next = f.next ∧
    (FserveDelivery.formatGenericWriteToClient f reply).2.file = f.file := by
  cases reply <;> exact ⟨rfl,rfl⟩

theorem grab_end (file : e.file = none) (done : e.pos = e.refbuf.length) (next : e.next = []) : grab e = none := by
  cases e
  cases file
  cases next
  exact (if_pos done).trans (if_pos rfl)

theorem grab_next (file : e.file = none) (done : e.pos = e.refbuf.length) (next : e.next = b::rest) :
    grab e = some {e with refbuf := b,next := rest,pos := 0,within := Nat.zero_le _} := by
  cases e
  cases file
  cases next
  exact (if_pos done).trans (if_pos rfl)

theorem turn_end (t : Turn) (file : e.file = none) (done : e.pos = e.refbuf.length) (next : e.next = []) :
    (serveTurn t e).1 = [] ∧ ∃ h, (serveTurn t e).2 = .inl h := by
  have grabbed : grab {e with ready := false} = none := grab_end file done next
  unfold serveTurn serve
  rw [grabbed]
  exact ⟨rfl,_,rfl⟩

theorem turn_empty (t : Turn) (quiet : e.error = false) (file : e.file = none) (done : e.pos = e.refbuf.length)
    (next : e.next = []::rest) :
    (serveTurn t e).1 = [] ∧ if sockRecoverable t.errno then
      ∃ f, (serveTurn t e).2 = .inr f ∧ f.next = rest ∧ f.error = false ∧ f.file = none ∧ f.pos = f.refbuf.length
    else ∃ h, (serveTurn t e).2 = .inl h := by
  have grabbed : grab {e with ready := false} = some {e with ready := false,refbuf := [],next := rest,pos := 0,within := Nat.zero_le _} :=
    grab_next file done next
  have reply : connectionSend t.errno t.answer (chunk e) = .failed (!sockRecoverable t.errno) := by
    unfold chunk
    rw [grabbed]
    exact if_pos rfl
  unfold serveTurn serve
  rw [grabbed,reply]
  refine ⟨rfl,?_⟩
  simp only [FserveDelivery.formatGenericWriteToClient,quiet,Bool.false_or]
  cases sockRecoverable t.errno with
  | true => exact ⟨_,rfl,rfl,rfl,file,rfl⟩
  | false => exact ⟨_,rfl⟩

theorem turn_sends {t : Turn} (fine : t.Fine) {f : Fserve} (grabbed : grab {e with ready := false} = some f)
    (more : f.refbuf.length-f.pos ≠ 0)
    (quiet : f.error = false) :
    ∃ g, (serveTurn t e).2 = .inr g ∧ (serveTurn t e).1++left g = left e ∧ g.next = f.next ∧
      g.error = false ∧ g.file = f.file ∧
      (t.takes = true → (serveTurn t e).1 ≠ []) := by
  obtain ⟨fine_after,some_sent⟩ := write_fine fine quiet more
  obtain ⟨next_kept,file_kept⟩ := write_kept (connectionSend t.errno t.answer (f.refbuf.length-f.pos)) f
  have turn : serveTurn t e =
    ((FserveDelivery.formatGenericWriteToClient f (connectionSend t.errno t.answer (f.refbuf.length-f.pos))).1,
      .inr (FserveDelivery.formatGenericWriteToClient f
        (connectionSend t.errno t.answer (f.refbuf.length-f.pos))).2) := by
    unfold serveTurn serve chunk
    rw [grabbed]
    simp only [Option.elim_some,fine_after,Bool.false_eq_true,if_false]
  have spec := serve_spec (connectionSend t.errno t.answer (chunk e)) e
  unfold serveTurn at turn
  rw [turn] at spec
  unfold serveTurn
  rw [turn]
  exact ⟨_,rfl,spec.2.2.1,next_kept,fine_after,file_kept,some_sent⟩

-- What a turn does to a client whose connection does not fail: it has everything and is destroyed;
-- or an empty block comes, which may destroy it; or it goes on.
theorem turn_cases {t : Turn} (fine : t.Fine) (quiet : e.error = false) (file : e.file = none) :
    (serveTurn t e).1 = [] ∧ left e = [] ∧ (∃ h, (serveTurn t e).2 = .inl h) ∨
    (∃ rest, e.next = []::rest ∧ (serveTurn t e).1 = [] ∧ left e = rest.flatten ∧
      ((∃ h, (serveTurn t e).2 = .inl h) ∨ ∃ f, (serveTurn t e).2 = .inr f ∧ left f = left e ∧ f.next = rest ∧
      f.error = false ∧ f.file = none)) ∨
    ∃ f, (serveTurn t e).2 = .inr f ∧ (serveTurn t e).1++left f = left e ∧ (f.next = e.next ∨ ∃ b, e.next = b::f.next) ∧
      f.error = false ∧ f.file = none ∧ (t.takes = true → (serveTurn t e).1 ≠ []) := by
  by_cases done : e.pos = e.refbuf.length
  · have chain := left_next e file done
    cases next : e.next with
    | nil =>
      obtain ⟨sent,gone⟩ := turn_end t file done next
      exact .inl ⟨sent,chain.trans (congrArg _ next),gone⟩
    | cons b rest =>
      cases b with
      | nil =>
        obtain ⟨sent,after⟩ := turn_empty t quiet file done next
        have whole : left e = rest.flatten := by
          rw [chain,next]
          rfl
        refine .inr (.inl ⟨rest,rfl,sent,whole,?_⟩)
        split at after
        · obtain ⟨f,kept,later,fine_after,no_file,sent_all⟩ := after
          exact .inr ⟨f,kept,(left_next f no_file sent_all).trans ((congrArg _ later).trans whole.symm),
            later,fine_after,no_file⟩
        · exact .inl after
      | cons c b =>
        have grabbed : grab {e with ready := false} = some {e with ready := false,refbuf := c::b,next := rest,pos := 0,within := Nat.zero_le _} :=
          grab_next file done next
        obtain ⟨g,kept,split,next_kept,fine_after,file_kept,some_sent⟩ :=
          turn_sends fine grabbed (Nat.succ_ne_zero _) quiet
        exact .inr (.inr ⟨g,kept,split,.inr ⟨_,congrArg _ next_kept.symm⟩,fine_after,file_kept.trans file,some_sent⟩)
  · have grabbed : grab {e with ready := false} = some {e with ready := false} := if_neg done
    have more : e.refbuf.length-e.pos ≠ 0 := by
      have within := e.within
      omega
    obtain ⟨g,kept,split,next_kept,fine_after,file_kept,some_sent⟩ := turn_sends fine grabbed more quiet
    exact .inr (.inr ⟨g,kept,split,.inl next_kept,fine_after,file_kept.trans file,some_sent⟩)

theorem session_part (turns : List Turn) (e : Fserve) : (session turns e).1 <+: left e := by
  induction turns generalizing e with
  | nil => exact List.nil_prefix
  | cons t turns ih =>
    have spec := serve_spec (connectionSend t.errno t.answer (chunk e)) e
    unfold session
    cases turn : (serveTurn t e).2 with
    | inl h =>
      rw [show (serve (connectionSend t.errno t.answer (chunk e)) e).2 = .inl h from turn] at spec
      obtain ⟨_,_,lost,whole,_⟩ := spec
      exact ⟨lost,whole⟩
    | inr f =>
      rw [show (serve (connectionSend t.errno t.answer (chunk e)) e).2 = .inr f from turn] at spec
      rw [←spec.2.2.1]
      exact List.prefix_append_right_inj _ |>.mpr (ih f)

theorem session_all (turns : List Turn) (fine : ∀ t ∈ turns, t.Fine) (quiet : e.error = false) (file : e.file = none)
    (solid : ∀ b ∈ e.next.dropLast, b ≠ []) (gone : (session turns e).2 = none) : (session turns e).1 = left e := by
  induction turns generalizing e with
  | nil => cases gone
  | cons t turns ih =>
    have later := fun other member => fine other (List.mem_cons_of_mem t member)
    unfold session at gone ⊢
    rcases turn_cases (fine t List.mem_cons_self) quiet file with ⟨sent,all,h,turn⟩ |
      ⟨rest,next,sent,whole,after⟩ | ⟨f,turn,split,next,fine_after,no_file,_⟩
    · rw [turn]
      exact sent.trans all.symm
    · have last : rest = [] := by
        by_contra more
        rw [next,List.dropLast_cons_of_ne_nil more] at solid
        exact solid [] List.mem_cons_self rfl
      rw [last] at whole
      rcases after with ⟨h,turn⟩ | ⟨f,turn,same,chain,fine_after,no_file⟩
      · rw [turn]
        exact sent.trans whole.symm
      · rw [turn] at gone ⊢
        have rest_sent := ih later fine_after no_file (by rw [chain,last]; nofun) gone
        exact (congrArg₂ (·++·) sent rest_sent).trans same
    · rw [turn] at gone ⊢
      have solid_after : ∀ b ∈ f.next.dropLast, b ≠ [] := by
        intro b member
        rcases next with same | ⟨first,chain⟩
        · exact solid b (same ▸ member)
        · refine solid b ?_
          rw [chain,List.dropLast_cons_of_ne_nil (List.ne_nil_of_mem (List.mem_of_mem_dropLast member))]
          exact List.mem_cons_of_mem first member
      exact (congrArg _ (ih later fine_after no_file solid_after gone)).trans split

theorem session_ends (turns : List Turn) (fine : ∀ t ∈ turns, t.Fine) (quiet : e.error = false) (file : e.file = none)
    (enough : (left e).length+e.next.length < turns.countP (·.takes)) : (session turns e).2 = none := by
  induction turns generalizing e with
  | nil => cases enough
  | cons t turns ih =>
    have later := fun other member => fine other (List.mem_cons_of_mem t member)
    have count : (t::turns).countP (·.takes) = turns.countP (·.takes)+if t.takes then 1 else 0 := List.countP_cons
    have one : (if t.takes then 1 else 0) ≤ 1 := by split <;> omega
    unfold session
    rcases turn_cases (fine t List.mem_cons_self) quiet file with ⟨_,_,h,turn⟩ | ⟨rest,next,_,whole,after⟩ |
      ⟨f,turn,split,next,fine_after,no_file,progress⟩
    · rw [turn]
    · rcases after with ⟨h,turn⟩ | ⟨f,turn,same,chain,fine_after,no_file⟩
      · rw [turn]
      · rw [turn]
        refine ih later fine_after no_file ?_
        rw [same,chain]
        rw [next,List.length_cons] at enough
        omega
    · rw [turn]
      refine ih later fine_after no_file ?_
      have fewer : f.next.length ≤ e.next.length := by
        rcases next with same | ⟨first,chain⟩
        · exact Nat.le_of_eq (congrArg _ same)
        · rw [chain]
          exact Nat.le_succ _
      rw [←split,List.length_append] at enough
      cases took : t.takes with
      | true =>
        have some_sent := List.length_pos_of_ne_nil (progress took)
        omega
      | false =>
        rw [took] at count
        simp only [Bool.false_eq_true,if_false] at count
        omega

theorem listing_some {names : List Text} (more : names ≠ []) : listing names ≠ [] := by
  cases names with
  | nil => exact absurd rfl more
  | cons name names =>
    unfold listing entryLine
    rw [List.flatMap_cons]
    exact List.append_ne_nil_of_left_ne_nil (List.append_ne_nil_of_right_ne_nil name (List.cons_ne_nil 13 [10])) _

theorem listing_flatten (groups : List (List Text)) : (groups.map listing).flatten = listing groups.flatten := by
  unfold listing
  induction groups with
  | nil => rfl
  | cons group groups ih => rw [List.map_cons,List.flatten_cons,List.flatten_cons,List.flatMap_append,ih]

theorem header_only {chain : List Refbuf} (empty : chain.map Refbuf.text = []::rest) :
    session [⟨0,.took 1⟩,⟨EPIPE,.took 0⟩] (listMounts 0 [72] chain) = ([72],none) := by
  have header : serveTurn ⟨0,.took 1⟩ (listMounts 0 [72] chain) =
      ([72],.inr ⟨0,[72],chain.map Refbuf.text,1,Nat.le_refl 1,none,false,false,false⟩) := rfl
  obtain ⟨sent,h,gone⟩ := turn_empty (e := ⟨0,[72],chain.map Refbuf.text,1,Nat.le_refl 1,none,false,false,false⟩)
    ⟨EPIPE,.took 0⟩ rfl rfl rfl empty
  unfold session
  rw [header]
  simp only [session]
  rw [gone,sent]
  rfl

theorem block_lost (stats : Trees) (fits : ∀ node ∈ stats.sources, node.hidden = false → node.source.length+3 ≤ 4096)
    (head : (visible stats.sources).head? = some name) (wide : name.length+3 = 4096) : ¬ListedRight stats := by
  intro ⟨chain,returned,_,_,_,delivers⟩
  obtain ⟨same,blocks,current,run,texts,_,layout⟩ := streams_packed stats fits
  cases returned.symm.trans run
  have more : visible stats.sources ≠ [] := by
    intro none_visible
    rw [none_visible] at head
    cases head
  cases blocks with
  | nil => cases layout.first.mpr ⟨name,head,wide⟩
  | cons first rest =>
    cases layout.first.mpr ⟨name,head,wide⟩
    have turns := header_only (texts : chain.map Refbuf.text = []::(rest++[current]).map listing)
    have fine : ∀ t ∈ [Turn.mk 0 (.took 1),⟨EPIPE,.took 0⟩], t.Fine := by
      intro t member error failed
      rcases List.mem_pair.mp member with rfl | rfl
      · cases failed
      · cases failed
    have all := (delivers 0 [72] _ fine).2.1 (congrArg Prod.snd turns)
    rw [turns] at all
    exact listing_some more (List.append_right_eq_self.mp all.symm)

-- Stream list: it arrives whole, exactly when the first visible name goes into the first block.
theorem stream_list (stats : Trees) (fits : ∀ node ∈ stats.sources, node.hidden = false → node.source.length+3 ≤ 4096) :
    ListedRight stats ↔ ∀ name, (visible stats.sources).head? = some name → name.length+3 ≠ 4096 := by
  refine ⟨fun right name head wide => block_lost stats fits head wide right,fun narrow => ?_⟩
  obtain ⟨chain,blocks,current,run,texts,lens,layout⟩ := streams_packed stats fits
  have groups : (blocks++[current]).flatten = visible stats.sources := by
    rw [List.flatten_append,List.flatten_singleton]
    exact layout.all
  have flat : (chain.map Refbuf.text).flatten = listing (visible stats.sources) := by
    rw [texts,listing_flatten,groups]
  have whole : chain.flatMap Refbuf.text = listing (visible stats.sources) := List.flatMap_def.trans flat
  refine ⟨chain,run,whole,lens,⟨_,groups,texts⟩,fun id header turns fine => ?_⟩
  have all : left (listMounts id header chain) = header++listing (visible stats.sources) := by
    rw [←flat]
    exact congrArg (·++(chain.map Refbuf.text).flatten) (List.append_nil header)
  have solid : ∀ b ∈ (listMounts id header chain).next.dropLast, b ≠ [] := by
    intro b member
    have inside : b ∈ blocks.map listing := by
      have last : (chain.map Refbuf.text).dropLast = blocks.map listing := by
        rw [texts,List.map_append]
        exact List.dropLast_concat
      exact last ▸ member
    obtain ⟨group,listed,rfl⟩ := List.mem_map.mp inside
    refine listing_some fun empty => ?_
    cases blocks with
    | nil => cases listed
    | cons first rest =>
      rcases List.mem_cons.mp listed with rfl | later
      · obtain ⟨name,head,wide⟩ := layout.first.mp (congrArg some empty)
        exact narrow name head wide
      · exact layout.later group later empty
  rw [←all]
  refine ⟨session_part turns _,session_all turns fine rfl rfl solid,fun enough => session_ends turns fine rfl rfl ?_⟩
  exact List.length_map Refbuf.text ▸ enough

def mounts (names : List Text) : Trees := ⟨[],names.map fun name => ⟨name,false,[]⟩⟩

theorem stream_list_two : ListedRight (mounts [ascii "/a",ascii "/b"]) :=
  (stream_list _ (by decide)).mpr (by decide)

-- One mount with a name of 4093 bytes.
theorem first_block_empty : ¬ListedRight (mounts [List.replicate 4093 97]) := by
  have width : (List.replicate 4093 (97 : UInt8)).length+3 = 4096 := congrArg (·+3) List.length_replicate
  refine block_lost _ (fun node member _ => ?_) rfl width
  cases List.mem_singleton.mp member
  exact Nat.le_of_eq width

end Icecast.StreamList
