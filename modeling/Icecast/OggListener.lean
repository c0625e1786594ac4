import Icecast.Format
import Icecast.OggHeaders

namespace Icecast.Ogg
open RefHeap Linked

-- struct ogg_client
structure OggClient where
  headers : Option Nat
  headerPage : Option Nat
  pos : Nat
  headersSent : Bool
deriving DecidableEq,Repr

-- create_ogg_client_data
def OggClient.create : OggClient := ⟨none,none,0,true⟩

-- The client data during send_ogg_headers, its `written`, and what went out.
structure HeaderSend where
  client : OggClient
  written : Int
  error : Bool
  bytes : List UInt8
deriving DecidableEq,Repr

section Sending
variable (heap : Heap HeaderPage) (sends : Nat → Send)

-- The loop of send_ogg_headers; its k-th con->send meets `sends k`. None on a page that
-- is freed or a read outside a page.
def sendHeaderPages (headers : Option Nat) : Nat → Nat → Option Nat → HeaderSend → Option HeaderSend
  | _,_,none,w => some {w with client := {w.client with headersSent := true,headers := headers}}
  | 0,_,some _,_ => none
  | fuel+1,k,some a,w =>
    (read heap a).bind fun refbuf =>
    if refbuf.bytes.length < w.client.pos then none else
    let data := refbuf.bytes.drop w.client.pos
    let out := clientSendBytes data (sends k)
    let w := {w with
      written := if out.ret > 0 then w.written+out.ret else w.written,error := w.error || out.error,
        bytes := w.bytes++out.bytes}
    -- pos stays where it is after a part of the page
    if out.ret < data.length then some {w with written := if w.written ≠ 0 then w.written else -1} else
    let pos := w.client.pos+out.ret.toNat
    if pos = refbuf.bytes.length then
      sendHeaderPages headers fuel (k+1) refbuf.next
        {w with client := {w.client with headerPage := refbuf.next,pos := 0}}
    else sendHeaderPages headers fuel (k+1) (some a) {w with client := {w.client with pos := pos}}

def OggClient.start (c : OggClient) (headers : Option Nat) : OggClient :=
  if c.headersSent then {c with headerPage := headers,pos := 0,headersSent := false} else c

def sendOggHeaders (fuel : Nat) (c : OggClient) (headers : Option Nat) : Option HeaderSend :=
  let c := c.start headers
  sendHeaderPages heap sends headers fuel 0 c.headerPage ⟨c,0,false,[]⟩

-- The send of the data page in write_buf_to_client, and what follows the loop.
def sendPage (data : List UInt8) (pos : Nat) (send : Send) (w : HeaderSend) : Written OggClient :=
  let out := clientSendBytes (data.drop pos) send
  if out.ret > 0 then ⟨w.written+out.ret,pos+out.ret.toNat,w.error || out.error,w.client,w.bytes++out.bytes⟩
  else ⟨w.written,pos,w.error || out.error,w.client,w.bytes++out.bytes⟩

def writeBufToClient (fuel : Nat) (refbuf : List UInt8 × Option Nat) (pos : Nat) (c : OggClient) (send : Send) :
    Option (Written OggClient) :=
  if refbuf.1.length < pos then none else
  if c.headers ≠ refbuf.2 then
    (sendOggHeaders heap sends fuel c refbuf.2).map fun w =>
      if w.client.headersSent then sendPage refbuf.1 pos send w
      else ⟨if w.written > 0 then w.written else 0,pos,w.error,w.client,w.bytes⟩
  else some (sendPage refbuf.1 pos send ⟨c,0,false,[]⟩)

end Sending

-- client->refbuf: none, a buffer of the client's own with intro data, or a data refbuf.
inductive OggBuf where
  | null
  | own (data : List UInt8)
  | node (d : DataBuf)
deriving DecidableEq,Repr

-- What a listener was sent: data pages, and pieces of an intro file.
inductive Item where
  | page (d : DataBuf)
  | intro (bytes : List UInt8)
deriving DecidableEq,Repr

-- A listener of an ogg source after its response. `done`, `sent` and `delivered` only
-- record the items before the current refbuf, the bytes sent since the client has that
-- refbuf, and all bytes.
structure OggListener where
  id : Nat
  source : Nat
  error : Bool
  refbuf : OggBuf
  pos : Nat
  data : OggClient
  done : List Item
  sent : List UInt8
  delivered : List UInt8
deriving DecidableEq,Repr

def OggListener.join (id source : Nat) : OggListener := ⟨id,source,false,.own [],0,.create,[],[],[]⟩

-- The refbuf behind a data refbuf in its source's queue.
def nextData (s : Pages) (d : DataBuf) : Option DataBuf := s.live.find? fun e => e.source = d.source && d.id < e.id

-- The items once the client leaves its refbuf.
def OggListener.passed (c : OggListener) : List Item :=
  match c.refbuf with
  | .node d => if c.pos = d.bytes.length then c.done++[.page d] else c.done
  | _ => c.done

-- client_set_queue
def OggListener.setQueue (c : OggListener) (refbuf : OggBuf) : OggListener :=
  {c with refbuf := refbuf,pos := 0,done := c.passed,sent := []}

-- format_check_file_buffer on a buffer with bytes left, and format_advance_queue.
def OggListener.check (s : Pages) (c : OggListener) : Bool × OggListener :=
  match c.refbuf with
  | .null => (false,c)
  | .own data => (c.pos != data.length,c)
  | .node d =>
    if c.pos = d.bytes.length then
      match nextData s d with
      | none => (false,c)
      | some e => (true,c.setQueue (.node e))
    else (true,c)

-- The data and the associated pages of client->refbuf.
def OggBuf.view : OggBuf → Option (List UInt8 × Option Nat)
  | .null => none
  | .own data => some (data,none)
  | .node d => some (d.bytes,d.associated)

def OggListener.wrote (c : OggListener) (w : Written OggClient) : OggListener :=
  {c with
    error := c.error || w.error,pos := w.pos,data := w.formatData,delivered := c.delivered++w.bytes,
      sent := c.sent++w.bytes
    done := match c.refbuf with | .own _ => c.done++[.intro w.bytes] | _ => c.done}

def OggListener.write (s : Pages) (c : OggListener) (sends : Nat → Send) (send : Send) : Option OggListener :=
  c.refbuf.view.bind fun refbuf => (writeBufToClient s.heap sends (s.made+1) refbuf c.pos c.data send).map c.wrote

-- A round of send_to_listener's loop.
def OggListener.turn (s : Pages) (c : OggListener) (sends : Nat → Send) (send : Send) : Option OggListener :=
  if c.error then some c else
  match c.check s with
  | (true,c) => c.write s sends send
  | (false,c) => some c

-- find_client_start for a client that is at the end of an intro buffer or has none.
def OggListener.place (c : OggListener) (start : Option DataBuf) : OggListener :=
  c.setQueue (match start with | some d => .node d | none => .null)

-- source_move_clients
def OggListener.move (c : OggListener) (source : Nat) : OggListener := {c.setQueue .null with source := source}

-- The ogg sources of a server with their listeners.
structure Hall where
  pages : Pages
  listeners : List OggListener

def Hall.initial : Hall := ⟨.initial,[]⟩

inductive HallEvent where
  | pages (event : PageEvent)
  | join (id source : Nat)
  | place (id : Nat) (start : Option DataBuf)
  | file (id : Nat) (data : List UInt8)
  | turn (id : Nat) (sends : Nat → Send) (send : Send)
  | move (id source : Nat)
  | leave (id : Nat)

-- The queue keeps a refbuf while a listener is at it or before it.
def OggListener.needs (c : OggListener) (d : DataBuf) : Bool :=
  match c.refbuf with
  | .node e => e.source == d.source && e.id ≤ d.id
  | _ => false

-- At the end of an intro buffer, or without a refbuf.
def OggListener.waits (c : OggListener) : Bool :=
  match c.refbuf with
  | .null => true
  | .own data => c.pos = data.length
  | .node _ => false

def HallEvent.enabled (s : Hall) : HallEvent → Bool
  | .pages (.release d) => d ∈ s.pages.live && s.listeners.all (!·.needs d)
  -- a data page has bytes
  | .pages (.complete _ bytes) => bytes ≠ []
  | .pages event => event.enabled s.pages
  | .join id _ => s.listeners.all (·.id != id)
  | .place id start => s.listeners.all fun c => c.id != id || c.waits && start.all fun d =>
    d ∈ s.pages.live && d.source == c.source
  | .file id _ => s.listeners.all fun c => c.id != id || c.waits
  | _ => true

-- What a step does to the client of that id.
def Hall.update (s : Hall) (id : Nat) (f : OggListener → Option OggListener) : Option Hall :=
  (s.listeners.mapM fun c => if c.id = id then f c else some c).map fun listeners => {s with listeners := listeners}

def Hall.next (s : Hall) (event : HallEvent) : Option Hall :=
  if event.enabled s then
    match event with
    | .pages event => (s.pages.next event).map fun pages => {s with pages := pages}
    | .join id source => some {s with listeners := s.listeners++[.join id source]}
    | .place id start => s.update id fun c => some (c.place start)
    | .file id data => s.update id fun c => some (c.setQueue (.own data))
    | .turn id sends send => s.update id fun c => c.turn s.pages sends send
    | .move id source => s.update id fun c => some (c.move source)
    | .leave id => some {s with listeners := s.listeners.filter (·.id != id)}
  else none

def Hall.step (s : Hall) (event : HallEvent) (t : Hall) : Prop := s.next event = some t

-- The chain of the last item.
def chainAfter (last : Option (Nat × Nat)) : List Item → Option (Nat × Nat)
  | [] => last
  | .page d::rest => chainAfter d.chain rest
  | .intro _::rest => chainAfter none rest

-- What a listener has to be sent for its items when `last` is the chain of the one
-- before them: every data page whole, with the header pages before it when its chain
-- is another one.
def expected (last : Option (Nat × Nat)) : List Item → List UInt8
  | [] => []
  | .page d::rest => (if d.chain = last then [] else d.headers.flatten)++d.bytes++expected d.chain rest
  | .intro bytes::rest => bytes++expected none rest

-- The pages from here on.
def pagesFrom (heap : Heap HeaderPage) : Nat → Option Nat → List Nat
  | fuel+1,some a => a::pagesFrom heap fuel ((read heap a).bind (·.next))
  | _,_ => []

-- The header pages the client still has to be sent at its refbuf.
def OggListener.toSend (s : Pages) (c : OggListener) : List Nat :=
  match c.refbuf.view with
  | none => []
  | some (_,associated) =>
    if c.data.headers = associated then [] else pagesFrom s.heap (s.made+1) (c.data.start associated).headerPage

-- No con->send takes only a part of a header page.
def WholePages (s : Pages) (c : OggListener) (sends : Nat → Send) : Prop :=
  ∀ x ∈ (c.toSend s).zipIdx, ∀ page ∈ read s.heap x.1,
    (clientSendBytes page.bytes (sends x.2)).bytes = [] ∨ (clientSendBytes page.bytes (sends x.2)).bytes = page.bytes

-- The client is between two data pages, and remembers the headers of the last one.
def OggListener.Quiet (c : OggListener) : Prop :=
  match c.refbuf with
  | .node d => c.data.headersSent = true ∧
      (c.pos = d.bytes.length ∨ c.sent = [] ∧ c.data.headers = (chainAfter none c.done).map (·.1))
  | _ => True

def Orderly (s : Hall) : HallEvent → Prop
  | .pages event => Apart s.pages event
  -- the address of the headers a client remembers is not that of other headers by now
  | .place id (some d) => ∀ c ∈ s.listeners, c.id = id → c.data.headers = d.associated →
    d.chain = chainAfter none c.done
  | .turn id sends _ => ∀ c ∈ s.listeners, c.id = id → c.error = false → WholePages s.pages (c.check s.pages).2 sends
  | .move id _ => ∀ c ∈ s.listeners, c.id = id → c.Quiet
  | _ => True

def Hall.orderlyStep (s : Hall) (event : HallEvent) (t : Hall) : Prop := Orderly s event ∧ s.step event t

theorem chainAfter_append : chainAfter last (xs++ys) = chainAfter (chainAfter last xs) ys := by
  induction xs generalizing last with
  | nil => rfl
  | cons x xs ih => cases x <;> exact ih

theorem expected_append : expected last (xs++ys) = expected last xs++expected (chainAfter last xs) ys := by
  induction xs generalizing last with
  | nil => rfl
  | cons x xs ih => cases x <;> simp [expected,chainAfter,ih]

-- What a client was sent for a data page of which `pos` bytes have gone out.
def part (done : List Item) (d : DataBuf) (pos : Nat) : List UInt8 :=
  (if d.chain = chainAfter none done then [] else d.headers.flatten)++d.bytes.take pos

theorem expected_page : expected none (done++[.page d]) = expected none done++part done d d.bytes.length := by
  simp [expected_append,expected,part]

-- How far a client is with its data refbuf: it has not tried yet and needs headers, it
-- is at a header page, or it needs no more headers.
inductive Stage (c : OggListener) (d : DataBuf) : Prop where
  | fresh : c.data.headersSent = true → c.sent = [] → c.pos = 0 → c.data.headers = (chainAfter none c.done).map (·.1) →
      c.data.headers ≠ d.associated → Stage c d
  | sending (n : Nat) : c.data.headersSent = false → c.sent = (d.headers.take n).flatten → c.pos = 0 →
      c.data.headers = (chainAfter none c.done).map (·.1) → c.data.headers ≠ d.associated →
      c.data.headerPage = (d.took.drop n).head? → c.data.pos = 0 → Stage c d
  | data : c.data.headersSent = true → c.data.headers = d.associated → c.pos ≤ d.bytes.length →
      c.sent = part c.done d c.pos → Stage c d

structure OggListener.Ok (s : Pages) (c : OggListener) : Prop where
  on : ∀ d, c.refbuf = .node d → d ∈ s.live ∧ c.delivered = expected none c.done++c.sent ∧ Stage c d
  off : (∀ d, c.refbuf ≠ .node d) → c.data.headersSent = true ∧ c.data.headers = (chainAfter none c.done).map (·.1) ∧
    c.delivered = expected none c.done
  own : ∀ data, c.refbuf = .own data → c.pos ≤ data.length

structure Hall.Inv (s : Hall) (lists : Nat → List Nat) : Prop where
  pages : s.pages.Inv lists
  filled : ∀ d ∈ s.pages.live, d.bytes ≠ []
  listeners : ∀ c ∈ s.listeners, c.Ok s.pages

variable {s t : Pages} {lists : Nat → List Nat} {c : OggListener} {d e : DataBuf}

theorem Pages.Inv.associated_eq (inv : s.Inv lists) (live : d ∈ s.live) : d.associated = d.chain.map (·.1) := by
  obtain ⟨_,chain⟩ := inv.recorded d live
  rw [chain]
  have took := inv.took d live
  generalize d.took = cells at took
  cases first : d.associated with
  | none => rfl
  | some a =>
    rw [first] at took
    cases took with
    | cons here _ =>
      obtain ⟨page,there,_⟩ := Option.map_eq_some_iff.mp here
      simp [fixedAt,there]

theorem Pages.Inv.same_chain (inv : s.Inv lists) (left : d ∈ s.live) (right : e ∈ s.live)
    (same : d.associated = e.associated) :
    d.chain = e.chain := by
  rw [(inv.recorded d left).2,(inv.recorded e right).2,same]

theorem pagesFrom_chain (chain : Chain (nextOf heap) p cells) (enough : cells.length ≤ fuel) :
    pagesFrom heap fuel p = cells := by
  induction cells generalizing fuel p with
  | nil =>
    cases chain
    cases fuel <;> rfl
  | cons a rest ih =>
    cases chain with
    | cons here later =>
      obtain ⟨fuel,rfl⟩ : ∃ less, fuel = less+1 := ⟨fuel-1,by simp at enough; omega⟩
      obtain ⟨page,there,rfl⟩ := Option.map_eq_some_iff.mp here
      simp [pagesFrom,there,ih later (by simpa using enough)]

theorem send_nothing (nonempty : bytes ≠ []) (absent : (clientSendBytes bytes send).bytes = []) :
    (clientSendBytes bytes send).ret < bytes.length := by
  obtain ⟨_,_,length⟩ := send_bytes_spec bytes send
  have := List.length_pos_iff.mpr nonempty
  simp [absent] at length
  omega

theorem send_whole (nonempty : bytes ≠ []) (all : (clientSendBytes bytes send).bytes = bytes) :
    (clientSendBytes bytes send).ret = bytes.length := by
  obtain ⟨_,_,length⟩ := send_bytes_spec bytes send
  have := List.length_pos_iff.mpr nonempty
  rw [all] at length
  omega

-- How many pages the loop of send_ogg_headers sends, each of them whole.
theorem sendHeaderPages_spec (sends : Nat → Send) (headers : Option Nat) (w : HeaderSend)
    (chain : Chain (nextOf heap) p rest)
    (filled : ∀ x ∈ pagesOf heap rest, x ≠ []) (enough : rest.length ≤ fuel) (start : w.client.headerPage = p)
    (zero : w.client.pos = 0)
    (whole : ∀ x ∈ rest.zipIdx k, ∀ page ∈ read heap x.1,
      (clientSendBytes page.bytes (sends x.2)).bytes = [] ∨
      (clientSendBytes page.bytes (sends x.2)).bytes = page.bytes) :
    ∃ v m, sendHeaderPages heap sends headers fuel k p w = some v ∧
      v.bytes = w.bytes++((pagesOf heap rest).take m).flatten ∧ v.client.pos = 0 ∧
      (v.client.headersSent = true ∧ v.client.headers = headers ∧ (pagesOf heap rest).take m = pagesOf heap rest ∨
        v.client.headersSent = w.client.headersSent ∧ v.client.headers = w.client.headers ∧
        v.client.headerPage = (rest.drop m).head?) := by
  induction rest generalizing p w fuel k with
  | nil =>
    cases chain
    exact ⟨{w with client := {w.client with headersSent := true,headers := headers}},0,by unfold sendHeaderPages; rfl
      ,by simp [pagesOf],zero,.inl ⟨rfl,rfl,rfl⟩⟩
  | cons a rest ih =>
    cases chain with
    | cons here later =>
      obtain ⟨fuel,rfl⟩ : ∃ less, fuel = less+1 := ⟨fuel-1,by simp at enough; omega⟩
      obtain ⟨page,there,rfl⟩ := Option.map_eq_some_iff.mp here
      have split : pagesOf heap (a::rest) = page.bytes::pagesOf heap rest := by simp [pagesOf,there]
      rw [split] at filled
      have nonempty := filled page.bytes List.mem_cons_self
      rw [List.zipIdx_cons] at whole
      rw [sendHeaderPages,there,Option.bind_some,if_neg (by omega),zero,List.drop_zero]
      dsimp only
      rcases whole (a,k) List.mem_cons_self page there with absent | all
      · rw [if_pos (send_nothing nonempty absent)]
        refine ⟨_,0,rfl,?_,zero,.inr ⟨rfl,rfl,?_⟩⟩
        · simp [absent]
        · simpa using start
      · have full : (clientSendBytes page.bytes (sends k)).ret = page.bytes.length := send_whole nonempty all
        rw [if_neg (by omega),if_pos (by omega)]
        obtain ⟨v,m,sent,bytes,pos,outcome⟩ :=
          ih (HeaderSend.mk {w.client with headerPage := page.next,pos := 0} _ _ _) later
          (fun x member => filled x (List.mem_cons_of_mem _ member)) (by simpa using enough) rfl rfl
          fun x member => whole x (List.mem_cons_of_mem _ member)
        refine ⟨v,m+1,sent,?_,pos,?_⟩
        · rw [bytes,split,List.take_succ_cons,List.flatten_cons,all,List.append_assoc]
        · rw [split,List.take_succ_cons,List.drop_succ_cons]
          exact outcome.imp (fun all => ⟨all.1,all.2.1,by rw [all.2.2]⟩) id

theorem sendPage_spec (data : List UInt8) (pos : Nat) (send : Send) (w : HeaderSend) (inside : pos ≤ data.length) :
    ∃ k, (sendPage data pos send w).pos = pos+k ∧
    pos+k ≤ data.length ∧ (sendPage data pos send w).formatData = w.client ∧
      (sendPage data pos send w).bytes = w.bytes++(data.drop pos).take k := by
  obtain ⟨front,most,length⟩ := send_bytes_spec (data.drop pos) send
  simp only [List.length_drop] at most
  refine ⟨(clientSendBytes (data.drop pos) send).ret.toNat,?_,by omega,?_,?_⟩
  · unfold sendPage
    dsimp only
    split
    · rfl
    · change pos = _
      omega
  · unfold sendPage
    dsimp only
    split <;> rfl
  · rw [←front]
    unfold sendPage
    dsimp only
    split <;> rfl

theorem take_more (data : List α) (pos k : Nat) : data.take pos++(data.drop pos).take k = data.take (pos+k) :=
  List.take_add.symm

theorem Stage.start (inv : s.Inv lists) (live : d ∈ s.live) (stage : Stage c d)
    (needs : c.data.headers ≠ d.associated) :
    ∃ n, c.sent = (d.headers.take n).flatten ∧ c.pos = 0 ∧ c.data.headers = (chainAfter none c.done).map (·.1) ∧
      (c.data.start d.associated).headerPage = (d.took.drop n).head? ∧ (c.data.start d.associated).pos = 0 ∧
      (c.data.start d.associated).headersSent = false ∧ (c.data.start d.associated).headers = c.data.headers := by
  cases stage with
  | fresh idle nothing pos last _ =>
    have head := (inv.took d live).head
    exact ⟨0,by simpa using nothing,pos,last,by simpa [OggClient.start,idle] using head,by simp [OggClient.start,idle]
      ,by simp [OggClient.start,idle],by simp [OggClient.start,idle]⟩
  | sending n busy sent pos last _ page zero =>
    have same : c.data.start d.associated = c.data := by simp [OggClient.start,busy]
    rw [same]
    exact ⟨n,sent,pos,last,page,zero,busy,rfl⟩
  | data _ same _ _ => exact absurd same needs

theorem Pages.Inv.pages_filled (inv : s.Inv lists) (owes : ∀ a ∈ cells, 0 < s.owed lists a) :
    ∀ x ∈ pagesOf s.heap cells, x ≠ [] := by
  intro x member
  obtain ⟨a,there,rfl⟩ := List.mem_map.mp member
  obtain ⟨page,found⟩ := inv.counted.readable (owes a there)
  rw [found]
  exact (inv.made a page.bytes page.serial (by rw [fixedAt,found]; rfl)).2

theorem wrote_ok (ok : c.Ok s) (spot : c.refbuf = .node d) (stage : Stage (c.wrote w) d) : (c.wrote w).Ok s := by
  obtain ⟨live,delivered,_⟩ := ok.on d spot
  refine ⟨fun e here => ?_,fun off => absurd spot (off d),fun data here => ?_⟩
  · cases spot.symm.trans here
    exact ⟨live,by simp [OggListener.wrote,spot,delivered],stage⟩
  · cases spot.symm.trans here

theorem wrote_done (spot : c.refbuf = .node d) (w : Written OggClient) :
    (c.wrote w).done = c.done := by simp [OggListener.wrote,spot]

theorem write_along (ok : c.Ok s) (spot : c.refbuf = .node d) (same : c.data.headers = d.associated)
    (sends : Nat → Send) (send : Send) :
    ∃ u, c.write s sends send = some u ∧ u.Ok s := by
  obtain ⟨_,_,stage⟩ := ok.on d spot
  have view : c.refbuf.view = some (d.bytes,d.associated) := by rw [spot]; rfl
  obtain ⟨idle,pos,sent⟩ : c.data.headersSent = true ∧ c.pos ≤ d.bytes.length ∧ c.sent = part c.done d c.pos := by
    cases stage with
    | fresh _ _ _ _ needs => exact absurd same needs
    | sending _ _ _ _ _ needs _ _ => exact absurd same needs
    | data idle _ pos sent => exact ⟨idle,pos,sent⟩
  obtain ⟨k,onward,inside,client,bytes⟩ := sendPage_spec d.bytes c.pos send ⟨c.data,0,false,[]⟩ pos
  refine ⟨_,by rw [OggListener.write,view,Option.bind_some,writeBufToClient,if_neg (by simpa using pos),
    if_neg (by simpa using same)]; rfl,?_⟩
  refine wrote_ok ok spot (.data (by simpa [OggListener.wrote,client] using idle)
    (by simpa [OggListener.wrote,client] using same) ?_ ?_)
  · simpa [OggListener.wrote,onward] using inside
  · rw [wrote_done spot]
    simp [OggListener.wrote,onward,bytes,sent,part,←take_more]

theorem write_headers (inv : s.Inv lists) (ok : c.Ok s) (spot : c.refbuf = .node d) (whole : WholePages s c sends)
    (same : c.data.headers ≠ d.associated) (send : Send) : ∃ u, c.write s sends send = some u ∧ u.Ok s := by
  obtain ⟨live,_,stage⟩ := ok.on d spot
  have view : c.refbuf.view = some (d.bytes,d.associated) := by rw [spot]; rfl
  obtain ⟨n,sent,pos,last,page,zero,busy,headers⟩ := stage.start inv live same
  have chain := inv.took d live
  have owes : ∀ a ∈ d.took, 0 < s.owed lists a := fun a held => inv.took_owed live held
  have fuel := inv.walk_fuel chain owes
  have split : d.took = d.took.take n++d.took.drop n := (List.take_append_drop n _).symm
  have pages : pagesOf s.heap (d.took.drop n) = d.headers.drop n := by
    rw [(inv.recorded d live).1,pagesOf,pagesOf,List.map_drop]
  rw [split] at chain
  have chain := chain.suffix
  have short : (d.took.drop n).length ≤ s.made+1 := by
    rw [List.length_drop]
    omega
  have toSend : c.toSend s = d.took.drop n := by
    rw [OggListener.toSend,view]
    simp only [if_neg same]
    rw [page]
    exact pagesFrom_chain chain short
  rw [WholePages,toSend] at whole
  obtain ⟨v,m,ran,bytes,still,outcome⟩ :=
    sendHeaderPages_spec sends d.associated ⟨c.data.start d.associated,0,false,[]⟩ chain
    (inv.pages_filled fun a member => owes a (List.mem_of_mem_drop member)) short page zero whole
  rw [pages] at bytes outcome
  have write : c.write s sends send = some (c.wrote (if v.client.headersSent then sendPage d.bytes c.pos send v
      else ⟨if v.written > 0 then v.written else 0,c.pos,v.error,v.client,v.bytes⟩)) := by
    rw [OggListener.write,view,Option.bind_some,writeBufToClient,if_neg (by simp [pos]),if_pos same,sendOggHeaders]
    dsimp only
    rw [page,ran]
    rfl
  have apart : d.chain ≠ chainAfter none c.done := fun again => same (by rw [last,inv.associated_eq live,again])
  rcases outcome with ⟨finished,now,all⟩ | ⟨more,kept,next⟩
  · rw [all] at bytes
    obtain ⟨k,onward,inside,client,out⟩ := sendPage_spec d.bytes c.pos send v (by omega)
    rw [if_pos finished] at write
    refine ⟨_,write,wrote_ok ok spot (.data (by simpa [OggListener.wrote,client] using finished)
      (by simpa [OggListener.wrote,client] using now) (by simpa [OggListener.wrote,onward] using inside) ?_)⟩
    rw [wrote_done spot]
    have front : c.sent++v.bytes = d.headers.flatten := by
      rw [sent,bytes,List.nil_append,←List.flatten_append,List.take_append_drop]
    rw [pos,Nat.zero_add] at onward
    rw [pos,List.drop_zero] at out
    simp [OggListener.wrote,part,apart,pos,←front,onward,out]
  · rw [if_neg (by simp [more,busy])] at write
    refine ⟨_,write,wrote_ok ok spot (.sending (n+m) ?_ ?_ ?_ ?_ ?_ ?_ ?_)⟩
    · simpa [OggListener.wrote,more] using busy
    · simp only [OggListener.wrote,sent,bytes,List.nil_append,←List.flatten_append]
      rw [List.take_add]
    · simpa [OggListener.wrote] using pos
    · rw [wrote_done spot]
      simpa [OggListener.wrote,kept,headers] using last
    · simpa [OggListener.wrote,kept,headers] using same
    · simpa [OggListener.wrote,Nat.add_comm] using next
    · simpa [OggListener.wrote] using still

theorem write_node (inv : s.Inv lists) (ok : c.Ok s) (spot : c.refbuf = .node d)
    (whole : WholePages s c sends) (send : Send) :
    ∃ u, c.write s sends send = some u ∧ u.Ok s := by
  by_cases same : c.data.headers = d.associated
  · exact write_along ok spot same sends send
  · exact write_headers inv ok spot whole same send

theorem write_own (ok : c.Ok s) (spot : c.refbuf = .own data) (sends : Nat → Send) (send : Send) :
    ∃ u, c.write s sends send = some u ∧ u.Ok s := by
  have off : ∀ d, c.refbuf ≠ .node d := fun d here => nomatch spot.symm.trans here
  obtain ⟨idle,_,delivered⟩ := ok.off off
  have inside := ok.own data spot
  have view : c.refbuf.view = some (data,none) := by rw [spot]; rfl
  -- there are no headers to send, and from now on the client remembers none
  have sent : ∀ w : HeaderSend, w.bytes = [] → w.client.headersSent = true → w.client.headers = none →
      (c.wrote (sendPage data c.pos send w)).Ok s := by
    intro w nothing sent absent
    obtain ⟨k,onward,short,client,_⟩ := sendPage_spec data c.pos send w inside
    refine ⟨fun d here => absurd here (off d),fun _ => ⟨?_,?_,?_⟩,fun other here => ?_⟩
    · simpa [OggListener.wrote,client] using sent
    · simp [OggListener.wrote,client,absent,spot,chainAfter_append,chainAfter]
    · simp [OggListener.wrote,spot,delivered,expected_append,expected]
    · cases spot.symm.trans here
      simpa [OggListener.wrote,onward] using short
  by_cases same : c.data.headers = none
  · exact ⟨_,by rw [OggListener.write,view,Option.bind_some,writeBufToClient,if_neg (by simpa using inside)
      ,if_neg (by simpa using same)]; rfl,sent _ rfl idle same⟩
  · refine ⟨_,?_,sent ⟨⟨none,none,0,true⟩,0,false,[]⟩ rfl rfl rfl⟩
    rw [OggListener.write,view,Option.bind_some,writeBufToClient,if_neg (by simpa using inside),
      if_pos (by simpa using same),sendOggHeaders]
    simp [OggClient.start,idle,sendHeaderPages]

theorem Ok.arrive (idle : c.data.headersSent = true) (last : c.data.headers = (chainAfter none c.done).map (·.1))
    (delivered : c.delivered = expected none c.done) (nothing : c.sent = []) (pos : c.pos = 0)
    (spot : c.refbuf = .node d)
    (live : d ∈ s.live) (known : c.data.headers = d.associated → d.chain = chainAfter none c.done) : c.Ok s := by
  refine ⟨fun e here => ?_,fun off => absurd spot (off d),fun data here => nomatch spot.symm.trans here⟩
  cases spot.symm.trans here
  refine ⟨live,by rw [delivered,nothing,List.append_nil],?_⟩
  by_cases same : c.data.headers = d.associated
  · exact .data idle same (by omega) (by simp [nothing,part,known same,pos])
  · exact .fresh idle nothing pos last same

theorem OggListener.Ok.between (ok : c.Ok s) (inv : s.Inv lists)
    (filled : ∀ d ∈ s.live, d.bytes ≠ []) (quiet : c.Quiet) :
    c.data.headersSent = true ∧ c.data.headers = (chainAfter none c.passed).map (·.1) ∧
    c.delivered = expected none c.passed := by
  cases spot : c.refbuf with
  | null => simpa [OggListener.passed,spot] using ok.off (by simp [spot])
  | own data => simpa [OggListener.passed,spot] using ok.off (by simp [spot])
  | node d =>
    obtain ⟨live,delivered,stage⟩ := ok.on d spot
    simp only [OggListener.Quiet,spot] at quiet
    obtain ⟨idle,rest⟩ := quiet
    by_cases finished : c.pos = d.bytes.length
    · have nonempty := List.length_pos_iff.mpr (filled d live)
      simp only [OggListener.passed,spot,if_pos finished]
      cases stage with
      | fresh _ _ start _ _ => omega
      | sending _ busy _ _ _ _ _ _ => exact absurd (idle.symm.trans busy) (by decide)
      | data _ same _ sent =>
        refine ⟨idle,?_,?_⟩
        · simpa [chainAfter_append,chainAfter] using same.trans (inv.associated_eq live)
        · rw [expected_page,delivered,sent,finished]
    · obtain ⟨nothing,last⟩ := rest.resolve_left finished
      simp only [OggListener.passed,spot,if_neg finished]
      exact ⟨idle,last,by rw [delivered,nothing,List.append_nil]⟩

theorem turn_ok (ok : c.Ok s) (inv : s.Inv lists) (filled : ∀ d ∈ s.live, d.bytes ≠ [])
    (whole : c.error = false → WholePages s (c.check s).2 sends) (send : Send) :
    ∃ u, c.turn s sends send = some u ∧ u.Ok s := by
  unfold OggListener.turn
  cases failed : c.error with
  | true => exact ⟨c,rfl,ok⟩
  | false =>
    have whole := whole failed
    rw [if_neg (by decide)]
    cases spot : c.refbuf with
    | null =>
      simp only [OggListener.check,spot]
      exact ⟨c,rfl,ok⟩
    | own data =>
      simp only [OggListener.check,spot]
      cases more : c.pos != data.length with
      | false => exact ⟨c,rfl,ok⟩
      | true => exact write_own ok spot sends send
    | node d =>
      simp only [OggListener.check,spot] at whole ⊢
      by_cases finished : c.pos = d.bytes.length
      · simp only [if_pos finished] at whole ⊢
        cases next : nextData s d with
        | none => exact ⟨c,rfl,ok⟩
        | some e =>
          simp only [next] at whole ⊢
          obtain ⟨live,_,stage⟩ := ok.on d spot
          have there : e ∈ s.live := List.mem_of_find?_eq_some next
          have nonempty := List.length_pos_iff.mpr (filled d live)
          obtain ⟨idle,same⟩ : c.data.headersSent = true ∧ c.data.headers = d.associated := by
            cases stage with
            | fresh _ _ start _ _ => omega
            | sending _ _ _ start _ _ _ _ => omega
            | data idle same _ _ => exact ⟨idle,same⟩
          have quiet : c.Quiet := by
            simp only [OggListener.Quiet,spot]
            exact ⟨idle,.inl finished⟩
          obtain ⟨_,last,delivered⟩ := ok.between inv filled quiet
          refine write_node inv (Ok.arrive
            (c := c.setQueue (.node e)) idle last delivered rfl rfl rfl there fun again => ?_) rfl whole send
          have chain := inv.same_chain there live (again.symm.trans same)
          simpa [OggListener.setQueue,OggListener.passed,spot,finished,chainAfter_append,chainAfter] using chain
      · simp only [if_neg finished] at whole ⊢
        exact write_node inv ok spot whole send

theorem OggListener.Ok.congr (ok : c.Ok s) (live : ∀ d, c.refbuf = .node d → d ∈ s.live → d ∈ t.live) : c.Ok t where
  on := fun d here => by
    obtain ⟨there,rest⟩ := ok.on d here
    exact ⟨live d here there,rest⟩
  off := ok.off
  own := ok.own

theorem Pages.step_live (one : s.step event t) :
    (∀ d ∈ s.live, event ≠ .release d → d ∈ t.live) ∧
    ∀ d ∈ t.live, d ∈ s.live ∨ ∃ i, event = .complete i d.bytes := by
  have enabled := Pages.step_enabled one
  cases event with
  | attach i page a =>
    have one : attachHeader s i page a = some t := (if_pos enabled).symm.trans one
    have same : t.live = s.live := by
      simp only [attachHeader] at one
      split at one
      · split at one
        · cases one
          rfl
        · obtain ⟨_,_,one⟩ := Option.bind_eq_some_iff.mp one
          obtain ⟨_,_,rfl⟩ := Option.map_eq_some_iff.mp one
          rfl
      · obtain ⟨_,_,rfl⟩ := Option.map_eq_some_iff.mp one
        rfl
    rw [same]
    exact ⟨fun d member _ => member,fun d member => .inl member⟩
  | freeHeaders i =>
    obtain ⟨_,_,rfl⟩ := Option.map_eq_some_iff.mp
      (show Ogg.freeHeaders s i = some t from (if_pos enabled).symm.trans one)
    exact ⟨fun d member _ => member,fun d member => .inl member⟩
  | complete i bytes =>
    obtain ⟨_,_,rfl⟩ := Option.map_eq_some_iff.mp
      (show completeBuffer s i bytes = some t from (if_pos enabled).symm.trans one)
    refine ⟨fun d member _ => List.mem_append_left _ member,fun d member => ?_⟩
    rcases List.mem_append.mp member with old | new
    · exact .inl old
    · cases List.mem_singleton.mp new
      exact .inr ⟨i,rfl⟩
  | release e =>
    obtain ⟨_,_,rfl⟩ := Option.map_eq_some_iff.mp (show releaseData s e = some t from (if_pos enabled).symm.trans one)
    refine ⟨fun d member other => (List.mem_erase_of_ne ?_).mpr member,fun d member =>
      .inl (List.mem_of_mem_erase member)⟩
    exact fun same => other (by rw [same])

variable {h : Hall}

theorem update_inv (inv : h.Inv lists) (id : Nat) {f : OggListener → Option OggListener}
    (ok : ∀ c ∈ h.listeners, c.id = id → ∃ u, f c = some u ∧ u.Ok h.pages) :
    ∃ u, h.update id f = some u ∧ u.Inv lists := by
  have all : ∀ listeners : List OggListener, (∀ c ∈ listeners, c ∈ h.listeners) →
      ∃ us, (listeners.mapM fun c => if c.id = id then f c else some c) = some us ∧ ∀ c ∈ us, c.Ok h.pages := by
    intro listeners inside
    induction listeners with
    | nil => exact ⟨[],rfl,by simp⟩
    | cons c rest ih =>
      obtain ⟨us,ran,good⟩ := ih fun c member => inside c (List.mem_cons_of_mem _ member)
      have member := inside c List.mem_cons_self
      by_cases own : c.id = id
      · obtain ⟨u,done,fine⟩ := ok c member own
        exact ⟨u::us,by simp [List.mapM_cons,own,done,ran],by simpa [fine] using good⟩
      · exact ⟨c::us,by simp [List.mapM_cons,own,ran],by simpa [inv.listeners c member] using good⟩
  obtain ⟨us,ran,good⟩ := all h.listeners fun _ member => member
  exact ⟨{h with listeners := us},by rw [Hall.update,ran]; rfl,⟨inv.pages,inv.filled,good⟩⟩

theorem OggListener.Ok.of_waits (ok : c.Ok s) (waits : c.waits = true) :
    c.passed = c.done ∧ c.data.headersSent = true ∧ c.data.headers = (chainAfter none c.done).map (·.1) ∧
      c.delivered = expected none c.done := by
  cases spot : c.refbuf with
  | null => exact ⟨by simp [OggListener.passed,spot],ok.off (by simp [spot])⟩
  | own data => exact ⟨by simp [OggListener.passed,spot],ok.off (by simp [spot])⟩
  | node d => simp [OggListener.waits,spot] at waits

theorem pages_inv (inv : h.Inv lists) (enabled : (HallEvent.pages event).enabled h = true)
    (apart : Apart h.pages event) :
    ∃ u other, h.next (.pages event) = some u ∧ u.Inv other := by
  have able : event.enabled h.pages = true := by
    cases event with
    | attach i page a => exact enabled
    | freeHeaders i => rfl
    | complete i bytes => rfl
    | release d =>
      simp only [HallEvent.enabled,Bool.and_eq_true] at enabled
      exact enabled.1
  obtain ⟨t,other,one,pages⟩ := Pages.next_total inv.pages apart able
  obtain ⟨kept,added⟩ := Pages.step_live one
  refine ⟨{h with pages := t},other,?_,⟨pages,fun d member => ?_,fun c member => ?_⟩⟩
  · rw [Hall.next,if_pos enabled]
    rw [show h.pages.next event = some t from one]
    rfl
  · rcases added d member with old | ⟨i,rfl⟩
    · exact inv.filled d old
    · exact of_decide_eq_true enabled
  · refine (inv.listeners c member).congr fun d here live => kept d live ?_
    rintro rfl
    -- the queue keeps the refbuf that the client is at
    simp only [HallEvent.enabled,Bool.and_eq_true,List.all_eq_true] at enabled
    have := enabled.2 c member
    simp [OggListener.needs,here] at this

theorem Hall.next_total (inv : h.Inv lists) (orderly : Orderly h event) (enabled : event.enabled h = true) :
    ∃ u other, h.step event u ∧ u.Inv other := by
  have lift : ∀ {id} {f : OggListener → Option OggListener}, h.next event = h.update id f →
      (∀ c ∈ h.listeners, c.id = id → ∃ u, f c = some u ∧ u.Ok h.pages) → ∃ u other, h.step event u ∧ u.Inv other := by
    intro id f same ok
    obtain ⟨u,done,inv⟩ := update_inv inv id ok
    exact ⟨u,_,same.trans done,inv⟩
  cases event with
  | pages event => exact pages_inv inv enabled orderly
  | join id source =>
    refine ⟨_,_,if_pos enabled,⟨inv.pages,inv.filled,fun c member => ?_⟩⟩
    rcases List.mem_append.mp member with old | new
    · exact inv.listeners c old
    · cases List.mem_singleton.mp new
      exact ⟨fun d here => (nomatch here),fun _ => ⟨rfl,rfl,rfl⟩,fun data _ => Nat.zero_le _⟩
  | place id start =>
    refine lift (if_pos enabled) fun c member own => ⟨_,rfl,?_⟩
    have ready := List.all_eq_true.mp enabled c member
    simp only [own,bne_self_eq_false,Bool.false_or,Bool.and_eq_true] at ready
    obtain ⟨same,idle,last,delivered⟩ := (inv.listeners c member).of_waits ready.1
    have pass : (c.place start).done = c.done := same
    cases start with
    | none =>
      refine ⟨fun d here => (nomatch (show OggBuf.null = .node d from here)),fun _ => ⟨idle,by rw [pass]; exact last,
        by rw [pass]; exact delivered⟩
        ,fun data here => nomatch (show OggBuf.null = .own data from here)⟩
    | some d =>
      have live : d ∈ h.pages.live := by
        have := ready.2
        simp at this
        exact this.1
      exact Ok.arrive (c := c.place (some d)) idle (by rw [pass]; exact last)
        (by rw [pass]; exact delivered) rfl rfl rfl live
        fun again => by rw [pass]; exact orderly c member own again
  | file id data =>
    refine lift (if_pos enabled) fun c member own => ⟨_,rfl,?_⟩
    have ready := List.all_eq_true.mp enabled c member
    simp only [own,bne_self_eq_false,Bool.false_or] at ready
    obtain ⟨same,idle,last,delivered⟩ := (inv.listeners c member).of_waits ready
    have pass : (c.setQueue (.own data)).done = c.done := same
    refine ⟨fun d here => (nomatch (show OggBuf.own data = .node d from here)),fun _ => ⟨idle,by rw [pass]; exact last,
      by rw [pass]; exact delivered⟩
      ,fun other _ => Nat.zero_le _⟩
  | turn id sends send =>
    exact lift (if_pos enabled) fun c member own =>
      turn_ok (inv.listeners c member) inv.pages inv.filled (orderly c member own) send
  | move id source =>
    refine lift (if_pos enabled) fun c member own => ⟨_,rfl,?_⟩
    obtain ⟨idle,last,delivered⟩ := (inv.listeners c member).between inv.pages inv.filled (orderly c member own)
    exact ⟨fun d here => (nomatch (show OggBuf.null = .node d from here)),fun _ => ⟨idle,last,delivered⟩
      ,fun data here => nomatch (show OggBuf.null = .own data from here)⟩
  | leave id =>
    exact ⟨_,_,if_pos enabled,⟨inv.pages,inv.filled,fun c member => inv.listeners c (List.mem_of_mem_filter member)⟩⟩

-- A listener has been sent all its items whole, each with its header pages where the
-- chain changes, and for its current refbuf a part of that; the header page it is at
-- is alive.
structure Served (s : Pages) (c : OggListener) : Prop where
  items : match c.refbuf with
    | .node d => expected none c.done <+: c.delivered ∧ c.delivered <+: expected none (c.done++[.page d])
    | _ => c.delivered = expected none c.done
  alive : c.data.headersSent = false → ∀ a, c.data.headerPage = some a → s.heap a ≠ none

theorem Stage.sent_part (stage : Stage c d) (inv : s.Inv lists) (live : d ∈ s.live) :
    c.sent <+: part c.done d d.bytes.length := by
  cases stage with
  | fresh _ nothing _ _ _ => simp [nothing]
  | sending n _ sent _ last needs _ _ =>
    have apart : d.chain ≠ chainAfter none c.done := fun again => needs (by rw [last,inv.associated_eq live,again])
    simp only [part,if_neg apart,sent]
    refine .trans ⟨(d.headers.drop n).flatten,?_⟩ (List.prefix_append _ _)
    rw [←List.flatten_append,List.take_append_drop]
  | data _ _ inside sent =>
    rw [sent,part,part]
    apply (List.prefix_append_right_inj _).mpr
    simpa using List.take_prefix c.pos d.bytes

theorem OggListener.Ok.served (ok : c.Ok s) (inv : s.Inv lists) : Served s c := by
  cases spot : c.refbuf with
  | null =>
    obtain ⟨idle,_,delivered⟩ := ok.off (by simp [spot])
    exact ⟨by simpa [spot] using delivered,fun busy => absurd (idle.symm.trans busy) (by decide)⟩
  | own data =>
    obtain ⟨idle,_,delivered⟩ := ok.off (by simp [spot])
    exact ⟨by simpa [spot] using delivered,fun busy => absurd (idle.symm.trans busy) (by decide)⟩
  | node d =>
    obtain ⟨live,delivered,stage⟩ := ok.on d spot
    refine ⟨?_,fun busy a page gone => ?_⟩
    · simp only [spot]
      rw [delivered,expected_page]
      exact ⟨List.prefix_append _ _,(List.prefix_append_right_inj _).mpr (stage.sent_part inv live)⟩
    · cases stage with
      | fresh idle _ _ _ _ => exact absurd (idle.symm.trans busy) (by decide)
      | data idle _ _ _ => exact absurd (idle.symm.trans busy) (by decide)
      | sending n _ _ _ _ _ here _ =>
        have held : a ∈ d.took := List.mem_of_mem_drop (List.mem_of_head? (here.symm.trans page))
        have := inv.took_owed live held
        have := inv.counted.owed_zero gone
        omega

theorem Hall.step_enabled {u : Hall} (one : h.step event u) : event.enabled h = true := by
  by_contra off
  exact absurd ((if_neg off).symm.trans one) (by simp)

theorem initial_hall : Hall.initial.Inv fun _ => [] :=
    ⟨Pages.initial_inv,by simp [Hall.initial,Pages.initial],by simp [Hall.initial]⟩

theorem runs_served (path : Transition.Runs Hall.orderlyStep Hall.initial events h) :
    (∀ c ∈ h.listeners, Served h.pages c) ∧ ∀ event, event.enabled h = true → Orderly h event →
    ∃ u, h.step event u := by
  obtain ⟨lists,inv⟩ : ∃ lists, h.Inv lists := by
    induction path with
    | nil => exact ⟨_,initial_hall⟩
    | snoc _ one ih =>
      obtain ⟨lists,inv⟩ := ih
      obtain ⟨u,other,step,inv⟩ := Hall.next_total inv one.1 (Hall.step_enabled one.2)
      cases Option.some.inj (step.symm.trans one.2)
      exact ⟨other,inv⟩
  refine ⟨fun c member => (inv.listeners c member).served inv.pages,fun event enabled orderly => ?_⟩
  obtain ⟨u,_,step,_⟩ := Hall.next_total inv orderly enabled
  exact ⟨u,step⟩

instance {c : OggListener} : Decidable c.Quiet :=
  match spot : c.refbuf with
  | .node d => decidable_of_iff (c.data.headersSent = true ∧
      (c.pos = d.bytes.length ∨ c.sent = [] ∧ c.data.headers = (chainAfter none c.done).map (·.1)))
        (by simp [OggListener.Quiet,spot])
  | .null | .own _ => .isTrue (by simp [OggListener.Quiet,spot])

instance {c : OggListener} : Decidable (WholePages s c sends) := by
  unfold WholePages
  infer_instance

instance : Decidable (Orderly h event) :=
  match event with
  | .pages event => inferInstanceAs (Decidable (Apart h.pages event))
  | .place id (some d) => inferInstanceAs (Decidable (∀ c ∈ h.listeners,
      c.id = id → c.data.headers = d.associated → d.chain = chainAfter none c.done))
  | .turn id sends _ => inferInstanceAs (Decidable (∀ c ∈ h.listeners,
      c.id = id → c.error = false → WholePages h.pages (c.check h.pages).2 sends))
  | .move id _ => inferInstanceAs (Decidable (∀ c ∈ h.listeners, c.id = id → c.Quiet))
  | .place _ none | .join _ _ | .file _ _ | .leave _ => .isTrue trivial

def Hall.orderlyNext (h : Hall) (event : HallEvent) : Option Hall := if Orderly h event then h.next event else none

theorem Hall.orderlyNext_sound {u : Hall} (next : h.orderlyNext event = some u) : h.orderlyStep event u := by
  unfold Hall.orderlyNext at next
  split at next
  · exact ⟨‹_›,next⟩
  · cases next

-- The header pages of a chain of one codec.
def headerPair : List HallEvent := [.pages (.attach 0 ⟨true,[1,2,3],by decide⟩ 0),
    .pages (.attach 0 ⟨false,[4,5],by decide⟩ 1)]

-- A listener is sent a page in two parts, waits before the headers of the next chain,
-- and is moved to another source after its data page.
def patientListener : List HallEvent :=
  headerPair++[.pages (.complete 0 [7,8]),.join 5 0,.place 5 (some ⟨0,0,[7,8],some 0,[0,1],some (0,0),[[1,2,3],[4,5]]⟩)
  ,.turn 5 (fun _ => .sent 9) (.sent 1),.pages (.freeHeaders 0),.pages (.attach 0 ⟨true,[6],by decide⟩ 2),
    .pages (.complete 0 [9])
  ,.turn 5 (fun _ => .blocked) (.sent 1),.turn 5 (fun _ => .blocked) .blocked,
    .turn 5 (fun _ => .sent 9) (.sent 1),.move 5 1]

theorem runs_served_patient_listener : ∃ h : Hall, h.listeners.map (·.delivered) = [[1,2,3,4,5,7,8,6,9]] ∧
    (∀ c ∈ h.listeners, Served h.pages c) ∧ ∀ event, event.enabled h = true → Orderly h event →
    ∃ u, h.step event u := by
  have ran : (Transition.runFrom Hall.orderlyNext Hall.initial patientListener).map
    (fun h => h.listeners.map (·.delivered)) =
      some [[1,2,3,4,5,7,8,6,9]] := by decide +kernel
  obtain ⟨h,ran,same⟩ := Option.map_eq_some_iff.mp ran
  exact ⟨h,same,runs_served (Transition.runFrom_sound Hall.orderlyNext_sound ran)⟩

-- The socket takes two of the three bytes of the first header page.
def halfHeader : List HallEvent :=
  headerPair++[.pages (.complete 0 [7,8]),.join 5 0,.place 5 (some ⟨0,0,[7,8],some 0,[0,1],some (0,0),[[1,2,3],[4,5]]⟩)
  ,.turn 5 (fun _ => .sent 2) (.sent 9),.turn 5 (fun _ => .sent 9) (.sent 9)]

theorem half_header_unserved : ∃ h, Transition.Runs Hall.step Hall.initial halfHeader h ∧ ¬∀ c ∈ h.listeners,
    Served h.pages c := by
  have ran : (Transition.runFrom Hall.next Hall.initial halfHeader).map
    (fun h => h.listeners.map fun c => (c.refbuf,c.done,c.delivered)) =
      some [(.node ⟨0,0,[7,8],some 0,[0,1],some (0,0),[[1,2,3],[4,5]]⟩,[],[1,2,1,2,3,4,5,7,8])] := by decide +kernel
  obtain ⟨h,ran,same⟩ := Option.map_eq_some_iff.mp ran
  refine ⟨h,Transition.runFrom_sound id ran,fun served => ?_⟩
  obtain ⟨c,one,same⟩ := List.map_eq_singleton_iff.mp same
  simp only [Prod.mk.injEq] at same
  obtain ⟨refbuf,done,delivered⟩ := same
  have items := (served c (by simp [one])).items
  rw [refbuf] at items
  simp only [done,delivered] at items
  exact absurd items.2 (by decide)

end Icecast.Ogg
