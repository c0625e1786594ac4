import Icecast.QueueInvariant
import Icecast.Source

namespace Icecast
open RefHeap Linked

variable {α : Type u} {δ : Type v} {plugins : Nat → Plugin α δ} {q r : Queue α}
  {refs before window : List Nat} {m : Mount}

-- The refbufs from `start` on hold the produced data in order, up to its end.
def Queue.Contents (q : Queue α) : Nat → List Nat → Prop
  | start,[] => start = q.produced.length
  | start,a::rest => ∃ data tag, q.fixedAt a = some (data,tag,start) ∧ (q.produced.drop start).take data.length = data ∧
      q.Contents (start+data.length) rest

theorem Queue.Contents.congr (contents : q.Contents start cells) (fixed : ∀ a ∈ cells, r.fixedAt a = q.fixedAt a)
    (produced : r.produced = q.produced) : r.Contents start cells := by
  induction cells generalizing start with
  | nil => exact Eq.trans contents (congrArg List.length produced.symm)
  | cons a rest ih =>
    obtain ⟨data,tag,here,held,more⟩ := contents
    exact ⟨data,tag,(fixed a List.mem_cons_self).trans here,produced ▸ held,
      ih more fun b member => fixed b (List.mem_cons_of_mem _ member)⟩

theorem Queue.Contents.kept (contents : q.Contents start cells) (kept : q.Kept r cells) : r.Contents start cells := by
  obtain ⟨h,rfl,same⟩ := kept
  exact contents.congr (fun a member => congrArg (Option.map _) (same a member)) rfl

theorem Queue.Contents.suffix (contents : q.Contents start (front++back)) : ∃ later, q.Contents later back := by
  induction front generalizing start with
  | nil => exact ⟨start,contents⟩
  | cons a front ih =>
    obtain ⟨_,_,_,_,more⟩ := contents
    exact ih more

theorem Queue.Contents.snoc (contents : q.Contents start cells) (fixed : ∀ a ∈ cells, r.fixedAt a = q.fixedAt a)
    (added : r.fixedAt new = some (data,tag,q.produced.length)) (produced : r.produced = q.produced++data) :
    r.Contents start (cells++[new]) := by
  induction cells generalizing start with
  | nil =>
    have ends : start = q.produced.length := contents
    refine ⟨data,tag,ends ▸ added,?_,?_⟩
    · rw [produced,ends,List.drop_left,List.take_length]
    · rw [Queue.Contents,produced,ends,List.length_append]
  | cons a rest ih =>
    obtain ⟨bytes,tag,here,held,more⟩ := contents
    refine ⟨bytes,tag,(fixed a List.mem_cons_self).trans here,?_,ih more fun b member =>
      fixed b (List.mem_cons_of_mem _ member)⟩
    have room := congrArg List.length held
    rw [List.length_take,List.length_drop] at room
    by_cases empty : bytes.length = 0
    · rw [empty,List.take_zero,List.length_eq_zero_iff.mp empty]
    · rw [produced,List.drop_append_of_le_length (by omega),
        List.take_append_of_le_length (by rw [List.length_drop]; omega)]
      exact held

theorem Queue.Added.more (adds : q.Added r page added) : ∃ more, r.produced = q.produced++more := by
  cases page with
  | none => exact ⟨[],by rw [adds.2,List.append_nil]⟩
  | some page =>
    obtain ⟨_,_,_,produced⟩ := adds
    exact ⟨page.data,produced⟩

theorem Queue.Added.contents (adds : q.Added r page added) (contents : q.Contents start cells)
    (fixed : ∀ a ∈ cells, r.fixedAt a = q.fixedAt a) : r.Contents start (cells++added) := by
  cases page with
  | none =>
    obtain ⟨rfl,same⟩ := adds
    rw [List.append_nil]
    exact contents.congr fixed same
  | some page =>
    obtain ⟨a,rfl,content,produced⟩ := adds
    exact contents.snoc fixed content produced

theorem Queue.Contents.data_at (contents : q.Contents start cells) (member : a ∈ cells) :
    ∃ data tag seq, q.fixedAt a = some (data,tag,seq) ∧ (q.produced.drop seq).take data.length = data := by
  induction cells generalizing start with
  | nil => cases member
  | cons b rest ih =>
    obtain ⟨bytes,tag,here,held,more⟩ := contents
    rcases List.mem_cons.mp member with rfl | later
    · exact ⟨bytes,tag,start,here,held⟩
    · exact ih more later

theorem Queue.Contents.linked (contents : q.Contents start cells) (chain : Chain q.next p cells) (member : a ∈ cells)
    (link : q.next a = some (some n)) (here : q.fixedAt a = some (data,tag,seq)) :
    n ∈ cells ∧ ∃ more tag, q.fixedAt n = some (more,tag,seq+data.length) := by
  induction cells generalizing start p with
  | nil => cases member
  | cons b rest ih =>
    obtain ⟨bytes,_,first,_,later⟩ := contents
    cases chain with
    | cons next tail =>
      rcases List.mem_cons.mp member with rfl | behind
      · cases Option.some.inj (next.symm.trans link)
        cases Option.some.inj (first.symm.trans here)
        cases rest with
        | nil => cases tail
        | cons c rest =>
          obtain ⟨more,tag,second,_⟩ := later
          cases tail.head
          exact ⟨List.mem_cons_of_mem _ List.mem_cons_self,more,tag,second⟩
      · obtain ⟨inside,found⟩ := ih later tail behind
        exact ⟨List.mem_cons_of_mem _ inside,found⟩

-- A listener between two iterations.
structure ListenerOk (mount : Nat) (c : Listener δ) : Prop where
  advance : c.checkBuffer = .advance → ∃ a start, c.refbuf = .queue mount a ∧ c.placedAt = some start
  other : c.checkBuffer ≠ .advance → c.refbuf.refs = [] ∧ c.placedAt = none
  unanswered : c.respcode = 0 → c.checkBuffer = .http ∧ ∃ data, c.refbuf = .own data

theorem ListenerOk.home {c : Listener δ} (ok : ListenerOk mount c) : c.refbuf.Home mount := by
  intro m a queued
  by_cases advance : c.checkBuffer = .advance
  · obtain ⟨b,start,same,_⟩ := ok.advance advance
    rw [same] at queued
    cases queued
    rfl
  · have none_held := (ok.other advance).1
    rw [queued] at none_held
    cases none_held

theorem ListenerOk.error {c : Listener δ} (ok : ListenerOk mount c) (failed : Bool) : ListenerOk mount {c with error :=
  failed} :=
  ⟨ok.advance,ok.other,ok.unanswered⟩

-- With client data of some kind, a write that sends the refbuf's bytes from the
-- position on and nothing else. A write does not change the kind.
def PlainWrite (write : View α → Nat → δ → (Nat → Send) → Option (Written δ)) (keep : δ → Prop) : Prop :=
  ∀ view pos data sends w, write view pos data sends = some w → (keep w.formatData ↔ keep data) ∧
    (keep data → pos ≤ view.data.length → w.bytes <+: view.data.drop pos ∧ w.pos = pos+w.bytes.length)

def Plain (plugins : Nat → Plugin α δ) (c : Listener δ) : Prop :=
  ∃ keep, PlainWrite (writeFunction plugins c.writeToClient) keep ∧ keep c.formatData

theorem generic_plain : PlainWrite (formatGenericWriteToClient (α := α) (δ := δ)) (fun _ => True) := by
  intro view pos data sends w wrote
  cases Option.some.inj wrote
  refine ⟨Iff.rfl,fun _ _ => ?_⟩
  obtain ⟨front,_,length⟩ := send_bytes_spec (view.data.drop pos) (sends 0)
  refine ⟨front ▸ List.take_prefix _ _,?_⟩
  dsimp only
  split <;> omega

theorem Plugin.opening_plain (plugin : Plugin α δ) (given : plugin.handsOver d = true) :
    PlainWrite plugin.writeBufToClient (fun _ => True) := by
  intro view pos data sends w wrote
  obtain ⟨still,none_sent⟩ := plugin.opens d given view pos data sends w wrote
  refine ⟨Iff.rfl,fun _ _ => ⟨?_,?_⟩⟩
  · rw [none_sent]
    exact List.nil_prefix
  · rw [still,none_sent]
    rfl

theorem Plain.generic {c : Listener δ} (write : c.writeToClient = none) : Plain plugins c :=
  ⟨_,by rw [write]; exact generic_plain,trivial⟩

theorem Plain.opening {c : Listener δ} (write : c.writeToClient = some f)
    (given : (plugins f).handsOver d = true) : Plain plugins c :=
  ⟨_,by rw [write]; exact (plugins f).opening_plain given,trivial⟩

theorem handOver_cases (plugins : Nat → Plugin α δ) (c : Listener δ) : handOver plugins c = c ∨
    (handOver plugins c = {c with writeToClient := none} ∧ Plain plugins c) := by
  unfold handOver
  cases write : c.writeToClient with
  | none => exact .inl rfl
  | some f =>
    dsimp only
    split
    · rename_i given
      exact .inr ⟨rfl,.opening write given⟩
    · exact .inl rfl

-- What a placed listener was sent is the data from its start on, up to its position.
def Follows (plugins : Nat → Plugin α δ) (q : Queue α) (c : Listener δ) : Prop :=
  Plain plugins c → ∀ start, c.placedAt = some start → c.delivered <+: q.produced.drop start ∧
    ∀ m a, c.refbuf = .queue m a → ∃ data tag seq, q.fixedAt a = some (data,tag,seq) ∧
      start+c.delivered.length = seq+c.pos ∧ c.pos ≤ data.length

-- A listener together with the queue of its source.
structure Served (plugins : Nat → Plugin α δ) (q : Queue α) (refs before window : List Nat)
    (c : Listener δ) : Prop where
  queue : q.Inv (c.refbuf.refs++refs) before window
  contents : ∃ start, q.Contents start (before++window)
  ok : ListenerOk q.mount c
  follows : Follows plugins q c

theorem Follows.unplaced {c : Listener δ} (unplaced : c.placedAt = none) : Follows plugins q c := by
  intro _ start placed
  rw [unplaced] at placed
  cases placed

theorem Follows.same {c : Listener δ} (follows : Follows plugins q c) (produced : r.produced = q.produced++more)
    (fixed : ∀ a ∈ c.refbuf.refs, r.fixedAt a = q.fixedAt a) : Follows plugins r c := by
  intro plain start placed
  obtain ⟨sent,position⟩ := follows plain start placed
  refine ⟨sent.trans ?_,fun m a queued => ?_⟩
  · rw [produced,List.drop_append]
    exact List.prefix_append _ _
  · obtain ⟨data,tag,seq,here,rest⟩ := position m a queued
    exact ⟨data,tag,seq,(fixed a (by rw [queued]; exact List.mem_singleton_self a)).trans here,rest⟩

theorem Follows.kept {c : Listener δ} (follows : Follows plugins q c) (kept : q.Kept r cells)
    (inside : ∀ a ∈ c.refbuf.refs, a ∈ cells) :
    Follows plugins r c := by
  obtain ⟨h,rfl,same⟩ := kept
  intro plain start placed
  obtain ⟨sent,position⟩ := follows plain start placed
  refine ⟨sent,fun m a queued => ?_⟩
  obtain ⟨data,tag,seq,here,rest⟩ := position m a queued
  refine ⟨data,tag,seq,?_,rest⟩
  rw [←here]
  exact congrArg (Option.map _) (same a (inside a (by rw [queued]; exact List.mem_singleton_self a)))

theorem Queue.Kept.mount (kept : q.Kept r cells) : r.mount = q.mount := by
  obtain ⟨h,rfl,_⟩ := kept
  rfl

theorem skip_burst (chain : Chain q.next p cells) (size : UInt64) (fuelled : cells.length < fuel) :
    ∃ found rest, skipBurst q fuel size p = some found ∧ Chain q.next found rest ∧ rest.length ≤ cells.length ∧
      ∀ a ∈ rest, a ∈ cells := by
  induction fuel generalizing p cells size with
  | zero => omega
  | succ fuel ih =>
    cases chain with
    | nil => exact ⟨none,[],rfl,.nil,Nat.le_refl _,nofun⟩
    | @cons a link rest here tail =>
      unfold skipBurst
      by_cases done : size = 0
      · exact ⟨some a,a::rest,by rw [if_pos done],.cons here tail,Nat.le_refl _,fun _ member => member⟩
      · obtain ⟨buf,found,same⟩ := Option.map_eq_some_iff.mp here
        rw [if_neg done,found,Option.bind_some]
        cases next : buf.next with
        | none => exact ⟨some a,a::rest,rfl,.cons here tail,Nat.le_refl _,fun _ member => member⟩
        | some n =>
          rw [next] at same
          subst same
          simp only [List.length_cons] at fuelled
          obtain ⟨p,more,walked,chain,short,inside⟩ := ih tail (size-UInt64.ofNat buf.len.toNat) (by omega)
          exact ⟨p,more,walked,chain,
            by simp only [List.length_cons]; omega,fun b member => List.mem_cons_of_mem _ (inside b member)⟩

theorem first_sync (chain : Chain q.next p cells) (fuelled : cells.length < fuel) :
    ∃ found, firstSync q fuel p = some found ∧ ∀ a, found = some a → a ∈ cells := by
  induction fuel generalizing p cells with
  | zero => omega
  | succ fuel ih =>
    cases chain with
    | nil => exact ⟨none,rfl,nofun⟩
    | @cons a link rest here tail =>
      obtain ⟨buf,found,same⟩ := Option.map_eq_some_iff.mp here
      unfold firstSync
      rw [found,Option.bind_some]
      by_cases sync : buf.syncPoint = true
      · exact ⟨some a,by rw [if_pos sync],fun b same => by cases same; exact List.mem_cons_self⟩
      · rw [if_neg sync,same]
        simp only [List.length_cons] at fuelled
        obtain ⟨p,walked,inside⟩ := ih tail (by omega)
        exact ⟨p,walked,fun b same => List.mem_cons_of_mem _ (inside b same)⟩

theorem Queue.Inv.tail_read (inv : q.Inv refs before window) : ∃ atTail, tailSync q = some atTail := by
  unfold tailSync
  cases tail : q.streamDataTail with
  | none => exact ⟨false,rfl⟩
  | some t =>
    obtain ⟨buf,found⟩ := inv.counted.readable (inv.owed_pos (List.mem_of_getLast? (inv.tail.symm.trans tail)))
    exact ⟨buf.syncPoint,by dsimp only; rw [found]; rfl⟩

theorem Queue.Inv.startPoint (inv : q.Inv refs before window) (introOffset : Int) :
    ∃ found, startPoint q introOffset = some found ∧ ∀ a, found = some a → a ∈ before++window := by
  have length := inv.length_le
  obtain ⟨atTail,tail_read⟩ : ∃ atTail, (if introOffset = -1 then tailSync q else some false) = some atTail := by
    split
    · exact inv.tail_read
    · exact ⟨false,rfl⟩
  unfold Icecast.startPoint
  rw [tail_read,Option.bind_some]
  obtain ⟨origin,rest,walked,chain,short,inside⟩ : ∃ origin rest,
      (if atTail then some q.streamDataTail
        else skipBurst q (q.fresh+1) (UInt64.ofNat (introOffset % 2^64).toNat) q.burstPoint) = some origin ∧
      Chain q.next origin rest ∧ rest.length ≤ (before++window).length ∧ ∀ a ∈ rest, a ∈ before++window := by
    cases atTail with
    | true =>
      cases last : (before++window).getLast? with
      | none =>
        exact ⟨none,[],by rw [if_pos rfl,inv.tail,last],.nil,Nat.zero_le _,nofun⟩
      | some t =>
        obtain ⟨front,shape⟩ := List.getLast?_eq_some_iff.mp last
        have chain := inv.chain
        rw [shape] at chain
        refine ⟨some t,[t],by rw [if_pos rfl,inv.tail,last],chain.suffix,?_,fun a member => ?_⟩
        · rw [shape]
          simp
        · rw [List.mem_singleton.mp member]
          exact List.mem_of_getLast? last
    | false =>
      have burst : Chain q.next q.burstPoint window := by
        rw [inv.burst]
        exact inv.chain.suffix
      obtain ⟨p,rest,walked,chain,short,inside⟩ := skip_burst burst
        (UInt64.ofNat (introOffset % 2^64).toNat)
          (show window.length < q.fresh+1 by rw [List.length_append] at length; omega)
      exact ⟨p,rest,by rw [if_neg (by decide)]; exact walked,chain,by rw [List.length_append]; omega,
        fun a member => List.mem_append_right _ (inside a member)⟩
  obtain ⟨found,synced,member⟩ := first_sync chain (show rest.length < q.fresh+1 by omega)
  exact ⟨found,by rw [walked,Option.bind_some]; exact synced,fun a same => inside a (member a same)⟩

section Checks
variable {c : Listener δ} {f : Nat}

theorem Served.inside (served : Served plugins q refs before window c) : ∀ a ∈ c.refbuf.refs, a ∈ before++window :=
  fun a member => served.queue.inside a (List.mem_append_left _ (List.mem_append_left _ member))

theorem Served.unqueued (served : Served plugins q refs before window c) (free : c.refbuf.refs = [])
    (ok : ListenerOk q.mount d)
    (none_held : d.refbuf.refs = []) (unplaced : d.placedAt = none) : Served plugins q refs before window d where
  queue := by
    have queue := served.queue
    rw [free] at queue
    rw [none_held]
    exact queue
  contents := served.contents
  ok := ok
  follows := .unplaced unplaced

theorem Served.findClientStart (served : Served plugins q refs before window c) (answered : c.respcode ≠ 0)
    (format : m.format = some f) :
    ∃ r d, findClientStart m q c = some (r,d) ∧ q.Kept r (before++window) ∧ Served plugins r refs before window d := by
  obtain ⟨found,started,inside⟩ := served.queue.startPoint c.introOffset
  unfold Icecast.findClientStart
  rw [started,Option.bind_some]
  cases found with
  | none => exact ⟨q,c,rfl,.refl q _,served⟩
  | some a =>
    have member := inside a rfl
    obtain ⟨buf,found⟩ := served.queue.counted.readable (served.queue.owed_pos member)
    obtain ⟨r,set,kept,next⟩ := served.queue.setQueue served.ok.home member
    dsimp only
    rw [format,Option.bind_some,found,Option.bind_some,set,Option.map_some]
    refine ⟨r,_,rfl,kept,?_⟩
    obtain ⟨start,contents⟩ := served.contents
    refine ⟨next,⟨start,contents.kept kept⟩,⟨?_,nofun,fun unanswered => absurd unanswered answered⟩,?_⟩
    · intro _
      exact ⟨a,buf.seq,by dsimp only; rw [kept.mount],rfl⟩
    · intro _ first placed
      cases placed
      refine ⟨List.nil_prefix,fun m b queued => ?_⟩
      cases queued
      refine ⟨buf.data,buf.associated,buf.seq,?_,rfl,Nat.zero_le _⟩
      obtain ⟨h,rfl,same⟩ := kept
      rw [Queue.fixedAt]
      dsimp only
      rw [same a member,found]
      rfl

theorem Served.advanceQueue (served : Served plugins q refs before window c) (advance : c.checkBuffer = .advance) :
    ∃ go r d, formatAdvanceQueue q c = some (go,r,d) ∧ q.Kept r (before++window) ∧
    Served plugins r refs before window d ∧
      (go = true → ∃ view next, viewOf r d.refbuf = some (view,next)) := by
  obtain ⟨a,first,queued,placed⟩ := served.ok.advance advance
  have member : a ∈ before++window := served.inside a (by rw [queued]; exact List.mem_singleton_self a)
  obtain ⟨buf,found⟩ := served.queue.counted.readable (served.queue.owed_pos member)
  have view : viewOf q (.queue q.mount a) = some (⟨buf.data,buf.associated⟩,buf.next) := by
    rw [viewOf,if_pos rfl,found]
    rfl
  unfold formatAdvanceQueue
  rw [queued]
  dsimp only
  rw [view,Option.bind_some]
  by_cases ended : c.pos = buf.data.length
  · rw [if_pos ended]
    cases link : buf.next with
    | none => exact ⟨false,q,c,rfl,.refl q _,served,nofun⟩
    | some n =>
      have next : q.next a = some (some n) := by rw [Queue.next,found,←link]; rfl
      have here : q.fixedAt a = some (buf.data,buf.associated,buf.seq) := by rw [Queue.fixedAt,found]; rfl
      obtain ⟨start,contents⟩ := served.contents
      obtain ⟨listed,more,tag,there⟩ := contents.linked served.queue.chain member next here
      obtain ⟨r,set,kept,inv⟩ := served.queue.setQueue served.ok.home listed
      dsimp only
      rw [set,Option.map_some]
      obtain ⟨buf_n,found_n⟩ := served.queue.counted.readable (served.queue.owed_pos listed)
      have same_n : RefHeap.read r.heap n = some buf_n := by
        obtain ⟨h,rfl,same⟩ := kept
        exact (same n listed).trans found_n
      refine ⟨true,r,_,rfl,kept,⟨inv,⟨start,contents.kept kept⟩,⟨?_,?_,?_⟩,?_⟩,fun _ => ?_⟩
      · intro _
        exact ⟨n,first,by dsimp only; rw [kept.mount],placed⟩
      · intro other
        exact absurd advance other
      · intro unanswered
        have := (served.ok.unanswered unanswered).1
        rw [advance] at this
        cases this
      · intro plain begin_ place
        obtain ⟨sent,position⟩ := served.follows plain begin_ place
        obtain ⟨data,_,seq,same,count,_⟩ := position _ a queued
        rw [here] at same
        cases Option.some.inj same
        have produced : r.produced = q.produced := by
          obtain ⟨h,rfl,_⟩ := kept
          rfl
        refine ⟨produced ▸ sent,fun m b moved => ?_⟩
        cases moved
        refine ⟨more,tag,buf.seq+buf.data.length,?_,?_,Nat.zero_le _⟩
        · obtain ⟨h,rfl,same⟩ := kept
          rw [←there]
          exact congrArg (Option.map _) (same n listed)
        · dsimp only at count ⊢
          omega
      · refine ⟨⟨buf_n.data,buf_n.associated⟩,buf_n.next,?_⟩
        dsimp only
        rw [viewOf,if_pos kept.mount.symm,same_n]
        rfl
  · rw [if_neg ended]
    exact ⟨true,q,c,rfl,.refl q _,served,fun _ => ⟨_,_,by rw [queued]; exact view⟩⟩

theorem Served.offQueue (served : Served plugins q refs before window c) (free : c.refbuf.refs = [])
    (answered : c.respcode ≠ 0)
    (check : d.checkBuffer = .file) (held : d.refbuf.refs = []) (unplaced : d.placedAt = none)
    (same : d.respcode = c.respcode) :
    Served plugins q refs before window d := by
  refine served.unqueued free ⟨fun advance => ?_,fun _ => ⟨held,unplaced⟩,fun zero => ?_⟩ held unplaced
  · rw [check] at advance
    cases advance
  · exact absurd (same ▸ zero) answered

theorem Served.fileBuffer (served : Served plugins q refs before window c) (own : c.refbuf = .own data)
    (file : c.checkBuffer = .file) (format : m.format = some f) :
    ∃ go r d, fileBuffer m q c data = some (go,r,d) ∧ q.Kept r (before++window) ∧
    Served plugins r refs before window d ∧
      (go = true → ∃ view next, viewOf r d.refbuf = some (view,next)) := by
  obtain ⟨free,unplaced⟩ := served.ok.other (by rw [file]; decide)
  have answered : c.respcode ≠ 0 := fun zero => by
    have := (served.ok.unanswered zero).1
    rw [file] at this
    cases this
  have own_view : ∀ bytes, ∃ view next, viewOf q (.own bytes) = some (view,next) := fun bytes => ⟨_,_,rfl⟩
  unfold Icecast.fileBuffer
  dsimp only
  generalize (if c.introOffset < 0 then [] else
    ((m.introFile.getD []).drop c.introOffset.toNat).take perClientRefbufSize) = bytes
  split
  · split
    · exact ⟨true,q,_,rfl,.refl q _,served.offQueue free answered file rfl unplaced rfl,fun _ => own_view bytes⟩
    · split
      · obtain ⟨r,set,kept,inv⟩ := Queue.Inv.setNull (c := c) served.queue served.ok.home
        obtain ⟨start,contents⟩ := served.contents
        have next : Served plugins r refs before window {c with refbuf := .null,pos := 0} := by
          refine ⟨inv,⟨start,contents.kept kept⟩,
            ⟨fun advance => ?_,fun _ => ⟨rfl,unplaced⟩,fun zero => absurd zero answered⟩,
            .unplaced unplaced⟩
          rw [show ({c with refbuf := .null,pos := 0} : Listener δ).checkBuffer = .file from file] at advance
          cases advance
        obtain ⟨s,d,found,kept_too,last⟩ := next.findClientStart (m := m) answered format
        rw [set,Option.bind_some]
        dsimp only
        rw [found,Option.map_some]
        exact ⟨false,s,d,rfl,kept.trans kept_too,last,nofun⟩
      · exact ⟨false,q,_,rfl,.refl q _,served.offQueue free answered file free unplaced rfl,nofun⟩
  · exact ⟨true,q,c,rfl,.refl q _,served,fun _ => by rw [own]; exact own_view data⟩

theorem Served.checkFile (served : Served plugins q refs before window c) (file : c.checkBuffer = .file)
    (format : m.format = some f) :
    ∃ go r d, formatCheckFileBuffer m q c = some (go,r,d) ∧ q.Kept r (before++window) ∧
    Served plugins r refs before window d ∧
      (go = true → ∃ view next, viewOf r d.refbuf = some (view,next)) := by
  obtain ⟨free,unplaced⟩ := served.ok.other (by rw [file]; decide)
  have answered : c.respcode ≠ 0 := fun zero => by
    have := (served.ok.unanswered zero).1
    rw [file] at this
    cases this
  unfold formatCheckFileBuffer
  cases buf : c.refbuf with
  | null =>
    dsimp only
    split
    · obtain ⟨r,d,found,kept,next⟩ := served.findClientStart answered format
      exact ⟨false,r,d,by rw [found]; rfl,kept,next,nofun⟩
    · exact Served.fileBuffer (served.offQueue free answered file rfl unplaced rfl) rfl file format
  | own data => exact served.fileBuffer buf file format
  | queue mount a =>
    rw [buf] at free
    cases free

theorem Served.headersSent (served : Served plugins q refs before window c) (own : c.refbuf = .own data)
    (http : c.checkBuffer = .http) (answered : c.respcode ≠ 0) (format : m.format = some f) :
    ∃ go r d, headersSent m q c data = some (go,r,d) ∧ q.Kept r (before++window) ∧
    Served plugins r refs before window d ∧
      (go = true → ∃ view next, viewOf r d.refbuf = some (view,next)) := by
  obtain ⟨free,unplaced⟩ := served.ok.other (by rw [http]; decide)
  unfold Icecast.headersSent
  split
  · rw [format,Option.map_some]
    exact ⟨false,q,_,rfl,.refl q _,served.offQueue free answered rfl rfl unplaced rfl,nofun⟩
  · exact ⟨true,q,c,rfl,.refl q _,served,fun _ => ⟨_,_,by rw [own]; rfl⟩⟩

theorem Served.checkHttp (served : Served plugins q refs before window c) (http : c.checkBuffer = .http)
    (format : m.format = some f)
    (headers : Option (List UInt8 × δ)) :
    ∃ go r d, formatCheckHttpBuffer m q c headers = some (go,r,d) ∧ q.Kept r (before++window) ∧
      Served plugins r refs before window d ∧ (go = true → ∃ view next, viewOf r d.refbuf = some (view,next)) := by
  obtain ⟨free,unplaced⟩ := served.ok.other (by rw [http]; decide)
  have not_advance : c.checkBuffer ≠ .advance := by rw [http]; decide
  unfold formatCheckHttpBuffer
  cases buf : c.refbuf with
  | null => exact ⟨false,q,c,rfl,.refl q _,served,nofun⟩
  | queue mount a =>
    rw [buf] at free
    cases free
  | own data =>
    dsimp only
    split
    · cases headers with
      | none =>
        refine ⟨false,q,_,rfl,.refl q _,
          served.unqueued free ⟨fun advance => ?_,fun _ => ⟨rfl,unplaced⟩,nofun⟩ rfl unplaced,nofun⟩
        exact absurd advance not_advance
      | some answer =>
        obtain ⟨text,formatData⟩ := answer
        have next : Served plugins q refs before window {c with
            respcode := 200,refbuf := .own text,formatData := formatData} :=
          served.unqueued free ⟨fun advance => absurd advance not_advance,fun _ => ⟨rfl,unplaced⟩,nofun⟩ rfl unplaced
        exact next.headersSent rfl http (Nat.succ_ne_zero 199) format
    · rename_i answered
      exact served.headersSent buf http answered format

-- The check_buffer functions keep the queue and the listener in order.
theorem Served.checkBuffer (served : Served plugins q refs before window c)
    (format : m.format = some f) (turn : Turn δ) :
    ∃ go r d, checkBuffer m q c turn = some (go,r,d) ∧ q.Kept r (before++window) ∧
    Served plugins r refs before window d ∧
      (go = true → ∃ view next, viewOf r d.refbuf = some (view,next)) := by
  unfold Icecast.checkBuffer
  cases check : c.checkBuffer with
  | http => exact served.checkHttp check format turn.headers
  | file => exact served.checkFile check format
  | advance => exact served.advanceQueue check

end Checks

section Sending
variable {c : Listener δ} {f : Nat}

theorem Served.error (served : Served plugins q refs before window c) (failed : Bool) :
    Served plugins q refs before window {c with error := failed} :=
  ⟨served.queue,served.contents,served.ok.error failed,served.follows⟩

theorem prefix_extend {xs ys all : List UInt8} (front : xs <+: all) (more : ys <+: all.drop xs.length) :
    xs++ys <+: all := by
  obtain ⟨rest,rfl⟩ := front
  rw [List.drop_left] at more
  exact List.prefix_append_right_inj xs |>.mpr more

theorem Served.handOver (served : Served plugins q refs before window c) :
    Served plugins q refs before window (Icecast.handOver plugins c) := by
  rcases handOver_cases plugins c with same | ⟨same,plain⟩
  · rwa [same]
  · rw [same]
    exact ⟨served.queue,served.contents,⟨served.ok.advance,served.ok.other,served.ok.unanswered⟩,
      fun _ => served.follows plain⟩

theorem handOver_refbuf (plugins : Nat → Plugin α δ) (c : Listener δ) :
    (Icecast.handOver plugins c).refbuf = c.refbuf := by
  rcases handOver_cases plugins c with same | ⟨same,_⟩ <;> rw [same]

theorem Served.write (served : Served plugins q refs before window c)
    (wrote : writeToClient plugins q c sends = some (ret,d)) : Served plugins q refs before window d := by
  obtain ⟨⟨view,next⟩,seen,rest⟩ := Option.bind_eq_some_iff.mp wrote
  obtain ⟨w,written,same⟩ := Option.map_eq_some_iff.mp rest
  cases same
  rw [←handOver_refbuf plugins c] at seen
  replace served := served.handOver
  generalize Icecast.handOver plugins c = c at seen served written
  refine ⟨served.queue,served.contents,⟨served.ok.advance,served.ok.other,served.ok.unanswered⟩,?_⟩
  intro plain start placed
  obtain ⟨keep,law,kept⟩ := plain
  obtain ⟨same_kind,plainly⟩ := law view c.pos c.formatData sends w written
  have kind := same_kind.mp kept
  by_cases advance : c.checkBuffer = .advance
  · obtain ⟨a,first,queued,_⟩ := served.ok.advance advance
    obtain ⟨sent,position⟩ := served.follows ⟨keep,law,kind⟩ start placed
    obtain ⟨data,tag,seq,here,count,within⟩ := position _ a queued
    have member : a ∈ before++window := served.inside a (by rw [queued]; exact List.mem_singleton_self a)
    have shown : view.data = data := by
      rw [queued,viewOf,if_pos rfl] at seen
      obtain ⟨buf,found,same⟩ := Option.map_eq_some_iff.mp seen
      cases same
      rw [Queue.fixedAt,found] at here
      cases here
      rfl
    rw [shown] at plainly
    obtain ⟨bytes,pos⟩ := plainly kind within
    obtain ⟨begin_,contents⟩ := served.contents
    obtain ⟨data_too,tag_too,seq_too,here_too,held⟩ := contents.data_at member
    cases Option.some.inj (here.symm.trans here_too)
    have length := bytes.length_le
    rw [List.length_drop] at length
    refine ⟨?_,fun m b moved => ?_⟩
    · dsimp only
      refine prefix_extend sent (bytes.trans ?_)
      -- what is left of this refbuf is what the data goes on with
      rw [List.drop_drop,count]
      have rest : data.drop c.pos = ((q.produced.drop seq).drop c.pos).take (data.length-c.pos) := by
        rw [←List.drop_take,held]
      rw [rest,List.drop_drop]
      exact List.take_prefix _ _
    · cases queued.symm.trans moved
      refine ⟨data,tag,seq,here,?_,?_⟩
      · dsimp only
        rw [List.length_append,pos]
        omega
      · dsimp only
        rw [pos]
        omega
  · have unplaced := (served.ok.other advance).2
    rw [show ({c with pos := w.pos,error := c.error || w.error,formatData := w.formatData
                      delivered := c.delivered++w.bytes} : Listener δ).placedAt = none from unplaced] at placed
    cases placed

def Total (plugins : Nat → Plugin α δ) : Prop :=
  ∀ f view pos data sends, ∃ w, (plugins f).writeBufToClient view pos data sends = some w

theorem Total.writes (total : Total plugins) (seen : viewOf q c.refbuf = some (view,next)) (sends : Nat → Send) :
    ∃ ret d, writeToClient plugins q c sends = some (ret,d) := by
  have writes : ∀ d : Listener δ, ∃ w,
    writeFunction plugins d.writeToClient view d.pos d.formatData sends = some w := fun d => by
    cases d.writeToClient with
    | none => exact ⟨_,rfl⟩
    | some format => exact total format view d.pos d.formatData sends
  obtain ⟨w,written⟩ := writes (handOver plugins c)
  exact ⟨_,_,by rw [writeToClient,seen,Option.bind_some]; dsimp only; rw [written,Option.map_some]⟩

theorem Served.sendLoop {env : Nat → Turn δ} {loop : Nat} {total : Int} (served : Served plugins q refs before window c)
    (format : m.format = some f) (ran : sendLoop plugins m env loop total q c = some (r,d)) :
    q.Kept r (before++window) ∧ Served plugins r refs before window d := by
  induction loop generalizing total q c with
  | zero =>
    cases Option.some.inj ran
    exact ⟨.refl _ _,served.error _⟩
  | succ loop ih =>
    unfold Icecast.sendLoop at ran
    dsimp only at ran
    have timed := served.error (c.error || (env (loop+1)).expired)
    split at ran
    · cases Option.some.inj ran
      exact ⟨.refl _ _,timed⟩
    · split at ran
      · cases Option.some.inj ran
        exact ⟨.refl _ _,timed⟩
      · obtain ⟨go,s,e,checked,kept,next,_⟩ := timed.checkBuffer format (env (loop+1))
        rw [checked,Option.bind_some] at ran
        cases go with
        | false =>
          cases Option.some.inj ran
          exact ⟨kept,next⟩
        | true =>
          rw [if_pos rfl] at ran
          obtain ⟨⟨ret,e'⟩,wrote,rest⟩ := Option.bind_eq_some_iff.mp ran
          have written := next.write wrote
          dsimp only at rest
          split at rest
          · cases Option.some.inj rest
            exact ⟨kept,written⟩
          · obtain ⟨kept_too,last⟩ := ih written rest
            exact ⟨kept.trans kept_too,last⟩

theorem Served.sendLoop_total (total : Total plugins) (env : Nat → Turn δ) (loop : Nat) (sum : Int)
    (served : Served plugins q refs before window c) (format : m.format = some f) :
    ∃ r d, Icecast.sendLoop plugins m env loop sum q c = some (r,d) := by
  induction loop generalizing sum q c with
  | zero => exact ⟨_,_,rfl⟩
  | succ loop ih =>
    unfold Icecast.sendLoop
    dsimp only
    have timed := served.error (c.error || (env (loop+1)).expired)
    split
    · exact ⟨_,_,rfl⟩
    · split
      · exact ⟨_,_,rfl⟩
      · obtain ⟨go,s,e,checked,kept,next,shown⟩ := timed.checkBuffer format (env (loop+1))
        rw [checked,Option.bind_some]
        cases go with
        | false => exact ⟨_,_,rfl⟩
        | true =>
          obtain ⟨view,link,seen⟩ := shown rfl
          obtain ⟨ret,e',wrote⟩ := total.writes seen (env (loop+1)).sends
          rw [if_pos rfl,wrote,Option.bind_some]
          dsimp only
          split
          · exact ⟨_,_,rfl⟩
          · exact ih _ (next.write wrote)

end Sending

end Icecast
