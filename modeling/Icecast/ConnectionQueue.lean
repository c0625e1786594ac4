import Icecast.Lib.TailQueue
import Icecast.Lib.Transition

namespace Icecast.ConnectionQueue
open TailQueue Linked Transition

-- client_queue_t without its next field.
structure Node where
  client : Nat
  shoutcast : Nat
deriving DecidableEq

-- Where the one thread that runs the accept loop is: `nodeRef` is node_ref of
-- process_request_queue, `holding` the node of _handle_connection.
inductive Phase where
  | accepting
  | walking (nodeRef : Ref)
  | handling
  | holding (a : Nat)
deriving DecidableEq

structure Conn where
  nodes : Heap Node
  reqQueue : Queue
  conQueue : Queue
  phase : Phase

-- connection_initialize
def start : Conn := ⟨fun _ => none,.empty,.empty,.accepting⟩

def addConnection (s : Conn) (a : Nat) : Option Conn :=
  (push s.nodes s.conQueue a).map fun m => {s with nodes := m.1,conQueue := m.2}

def getConnection (s : Conn) : Option (Conn × Option Nat) :=
  (pop s.nodes s.conQueue).map fun m => ({s with nodes := m.1,conQueue := m.2.1},m.2.2)

def addRequestQueue (s : Conn) (a : Nat) : Option Conn :=
  (push s.nodes s.reqQueue a).map fun m => {s with nodes := m.1,reqQueue := m.2}

-- What the read and the search for the end of the headers come to.
inductive Found where
  | ready | failed | waiting
deriving DecidableEq

def takeOut (s : Conn) (nodeRef : Ref) (a : Nat) : Option Conn :=
  (unlink s.nodes s.reqQueue nodeRef a).map fun m => {s with nodes := m.1,reqQueue := m.2}

def freeNode (s : Conn) (a : Nat) : Option Conn := (s.nodes a).map fun _ => {s with nodes := assign s.nodes a none}

-- One turn of the loop of process_request_queue.
def processNode (s : Conn) (nodeRef : Ref) (a : Nat) : Found → Option Conn
  | .ready => (takeOut s nodeRef a).bind fun s => (setNext s.nodes a none).bind fun nodes =>
    addConnection {s with nodes := nodes} a
  | .failed => (takeOut s nodeRef a).bind fun s => freeNode s a
  | .waiting => some {s with phase := .walking (.next a)}

inductive Event where
  | accepted (a client : Nat) (shoutcast : Bool)
  | nothing
  | looked (a : Nat) (found : Found)
  | walked
  | got (a : Nat)
  | emptied
  | requeued (a : Nat)
  | finished (a : Nat)
deriving DecidableEq

-- none when the thread is elsewhere, and on a pointer into a node that is gone.
def next (s : Conn) : Event → Option Conn
  | .accepted a client shoutcast =>
    if s.phase = .accepting ∧ s.nodes a = none then
      let node : Cell Node := ⟨⟨client,if shoutcast then 1 else 0⟩,none⟩
      addRequestQueue {s with nodes := assign s.nodes a (some node),phase := .walking .head} a
    else none
  | .nothing => if s.phase = .accepting then some {s with phase := .walking .head} else none
  | .looked a found =>
    match s.phase with
    | .walking nodeRef =>
      if load s.nodes s.reqQueue nodeRef = some (some a) then processNode s nodeRef a found else none
    | _ => none
  | .walked =>
    match s.phase with
    | .walking nodeRef => if load s.nodes s.reqQueue nodeRef = some none then some {s with phase := .handling} else none
    | _ => none
  | .got a =>
    if s.phase = .handling then
      (getConnection s).bind fun m => if m.2 = some a then some {m.1 with phase := .holding a} else none
    else none
  | .emptied =>
    if s.phase = .handling then
      (getConnection s).bind fun m => if m.2 = none then some {m.1 with phase := .accepting} else none
    else none
  | .requeued a =>
    if s.phase = .holding a then
      (s.nodes a).bind fun c =>
        if c.item.shoutcast = 1 then
          addRequestQueue {s with nodes := assign s.nodes a (some {c with item := {c.item with shoutcast := 2}}),phase := .handling} a
        else none
    else none
  | .finished a => if s.phase = .holding a then (freeNode s a).map fun s => {s with phase := .handling} else none

def held : Phase → List Nat
  | .holding a => [a]
  | _ => []

-- The nodes by where they are.
def places (s : Conn) (reqs cons : List Nat) : List Nat := reqs++(cons++held s.phase)

structure Placed (s : Conn) (reqs cons : List Nat) : Prop where
  req : Holds s.nodes s.reqQueue reqs
  con : Holds s.nodes s.conQueue cons
  once : (places s reqs cons).Nodup
  live : ∀ a, s.nodes a ≠ none ↔ a ∈ places s reqs cons
  here : ∀ nodeRef, s.phase = .walking nodeRef → ∃ front back, reqs = front++back ∧ nodeRef = endOf front
  apart : ∀ a, s.phase = .holding a → nexts s.nodes a = some none

-- What an event does to the places: a node made, freed, put on or taken off the connection queue.
def madeBy : Event → List Nat
  | .accepted a _ _ => [a]
  | _ => []

def freedBy : Event → List Nat
  | .looked a .failed => [a]
  | .finished a => [a]
  | _ => []

def addedBy : Event → List Nat
  | .looked a .ready => [a]
  | _ => []

def takenBy : Event → List Nat
  | .got a => [a]
  | _ => []

def Advances (s t : Conn) (event : Event) (reqs cons : List Nat) : Prop :=
  ∃ reqs' cons', Placed t reqs' cons' ∧ cons++addedBy event = takenBy event++cons' ∧
    (places s reqs cons++madeBy event).Perm (freedBy event++places t reqs' cons')

theorem live_of_items {h k : Heap Node} (same : ∀ b, (k b).map (·.item) = (h b).map (·.item)) (a : Nat) :
    k a ≠ none ↔ h a ≠ none := by
  have items := same a
  cases left : k a <;> cases right : h a <;> simp_all

theorem nexts_none {h : Heap Node} (cell : h a = some c) (ends : c.next = none) : nexts h a = some none := by
  rw [nexts,cell,Option.map_some,ends]

theorem start_placed : Placed start [] [] where
  req := holds_empty _
  con := holds_empty _
  once := List.nodup_nil
  live := fun a => by simp [start,places,held]
  here := nofun
  apart := nofun

theorem nothing_advances (placed : Placed s reqs cons) (step : next s .nothing = some t) :
    Advances s t .nothing reqs cons := by
  simp only [next] at step
  split at step
  · rename_i phase
    cases step
    have same : places {s with phase := .walking .head} reqs cons = places s reqs cons := by simp [places,held,phase]
    refine ⟨reqs,cons,⟨placed.req,placed.con,same ▸ placed.once,fun a => same ▸ placed.live a,?_,nofun⟩,
      by simp [addedBy,takenBy],?_⟩
    · rintro nodeRef ⟨⟩
      exact ⟨[],reqs,rfl,rfl⟩
    · simp [madeBy,freedBy,same]
  · cases step

theorem walked_advances (placed : Placed s reqs cons) (step : next s .walked = some t) :
    Advances s t .walked reqs cons := by
  simp only [next] at step
  split at step
  · rename_i nodeRef phase
    split at step
    · cases step
      have same : places {s with phase := .handling} reqs cons = places s reqs cons := by simp [places,held,phase]
      exact ⟨reqs,cons,⟨placed.req,placed.con,same ▸ placed.once,fun a => same ▸ placed.live a,nofun,nofun⟩,
        by simp [addedBy,takenBy],
        by simp [madeBy,freedBy,same]⟩
    · cases step
  · cases step

theorem emptied_advances (placed : Placed s reqs cons) (step : next s .emptied = some t) :
    Advances s t .emptied reqs cons := by
  simp only [next] at step
  split at step
  · rename_i phase
    cases cons with
    | nil =>
      rw [getConnection,placed.con.pop_nil] at step
      cases step
      have same : places {s with phase := .accepting} reqs [] = places s reqs [] := by simp [places,held,phase]
      exact ⟨reqs,[],⟨placed.req,placed.con,same ▸ placed.once,fun a => same ▸ placed.live a,nofun,nofun⟩,rfl,
        by simp [madeBy,freedBy,same]⟩
    | cons a rest =>
      obtain ⟨k,r,c,popped,_⟩ := placed.con.pop
      rw [getConnection,popped] at step
      cases step
  · cases step

theorem Placed.settled {made freed : List Nat} (placed : Placed s reqs cons)
    (moved : (places s reqs cons++made).Perm (freed++places t reqs' cons'))
    (fresh : ∀ b ∈ made, s.nodes b = none) (single : made.Nodup)
    (heap : ∀ b, t.nodes b ≠ none ↔ (b ∈ made ∨ s.nodes b ≠ none) ∧ b ∉ freed) :
    (places t reqs' cons').Nodup ∧ ∀ b, t.nodes b ≠ none ↔ b ∈ places t reqs' cons' := by
  have before : (places s reqs cons++made).Nodup := by
    refine List.nodup_append.mpr ⟨placed.once,single,fun b there c new same => ?_⟩
    exact (placed.live b).mpr there (fresh b (same ▸ new))
  have after := List.nodup_append.mp (moved.nodup_iff.mp before)
  refine ⟨after.2.1,fun b => ?_⟩
  rw [heap b,placed.live b]
  have mem := moved.mem_iff (a := b)
  rw [List.mem_append,List.mem_append] at mem
  constructor
  · rintro ⟨kept,notFreed⟩
    exact (mem.mp kept.symm).resolve_left notFreed
  · intro there
    exact ⟨(mem.mpr (.inr there)).symm,fun freed => after.2.2 b freed b there rfl⟩

theorem Placed.req_con (placed : Placed s reqs cons) (member : b ∈ cons) : b ∉ reqs := by
  intro also
  exact (List.nodup_append.mp placed.once).2.2 b also b (List.mem_append_left _ member) rfl

theorem Placed.not_held (placed : Placed s reqs cons) (phase : s.phase = .holding a) : a ∉ reqs ∧ a ∉ cons := by
  have once := placed.once
  simp only [places,held,phase,List.nodup_append] at once
  exact ⟨fun member => once.2.2 a member a (by simp) rfl,fun member => once.2.1.2.2 a member a (by simp) rfl⟩

theorem accepted_advances (placed : Placed s reqs cons) (step : next s (.accepted a client shoutcast) = some t) :
    Advances s t (.accepted a client shoutcast) reqs cons := by
  simp only [next] at step
  split at step
  · rename_i enabled
    obtain ⟨phase,free⟩ := enabled
    have unplaced : a ∉ places s reqs cons := fun there => (placed.live a).mpr there free
    simp only [places,held,phase,List.append_nil,List.mem_append,not_or] at unplaced
    have req : Holds (assign s.nodes a (some ⟨⟨client,if shoutcast then 1 else 0⟩,none⟩)) s.reqQueue reqs :=
      placed.req.frame fun b member => assign_other fun here => unplaced.1 (here ▸ member)
    obtain ⟨k,r,pushed,queued,frame,items⟩ := req.push (nexts_none assign_same rfl) unplaced.1
    rw [addRequestQueue,pushed] at step
    cases step
    have moved : (places s reqs cons++[a]).Perm ([]++places ⟨k,r,s.conQueue,.walking .head⟩ (reqs++[a]) cons) := by
      simp only [places,held,phase,List.append_nil,List.nil_append]
      rw [List.append_assoc,List.append_assoc]
      exact (@List.perm_append_comm _ cons _).append_left reqs
    obtain ⟨once,live⟩ := placed.settled moved (by simpa using free) (by simp) fun b => by
      rw [live_of_items items b]
      by_cases here : b = a <;> simp [Linked.assign,here]
    refine ⟨reqs++[a],cons,⟨queued,?_,once,live,?_,nofun⟩,by simp [addedBy,takenBy],moved⟩
    · exact placed.con.frame fun b member => (frame b (placed.req_con member)).trans
        (assign_other fun here => unplaced.2 (here ▸ member))
    · rintro nodeRef ⟨⟩
      exact ⟨[],_,rfl,rfl⟩
  · cases step

theorem finished_advances (placed : Placed s reqs cons) (step : next s (.finished a) = some t) : Advances s t (.finished a) reqs cons := by
  simp only [next] at step
  split at step
  · rename_i phase
    obtain ⟨notReq,notCon⟩ := placed.not_held phase
    obtain ⟨u,freed,rfl⟩ := Option.map_eq_some_iff.mp step
    obtain ⟨c,cell,rfl⟩ := Option.map_eq_some_iff.mp freed
    have moved : (places s reqs cons++[]).Perm
      ([a]++places ⟨assign s.nodes a none,s.reqQueue,s.conQueue,.handling⟩ reqs cons) := by
      simp only [places,held,phase,List.append_nil]
      rw [←List.append_assoc]
      exact List.perm_append_comm
    obtain ⟨once,live⟩ := placed.settled moved (by simp) (by simp) fun b => by
      by_cases here : b = a <;> simp [Linked.assign,here]
    refine ⟨reqs,cons,⟨?_,?_,once,live,nofun,nofun⟩,by simp [addedBy,takenBy],moved⟩
    · exact placed.req.frame fun b member => assign_other fun here => notReq (here ▸ member)
    · exact placed.con.frame fun b member => assign_other fun here => notCon (here ▸ member)
  · cases step

theorem requeued_advances (placed : Placed s reqs cons) (step : next s (.requeued a) = some t) :
    Advances s t (.requeued a) reqs cons := by
  simp only [next] at step
  split at step
  · rename_i phase
    obtain ⟨notReq,notCon⟩ := placed.not_held phase
    obtain ⟨c,cell,step⟩ := Option.bind_eq_some_iff.mp step
    split at step
    · have ends : c.next = none := by
        have apart := placed.apart a phase
        rw [nexts,cell] at apart
        exact Option.some.inj apart
      have req : Holds (assign s.nodes a (some {c with item := {c.item with shoutcast := 2}})) s.reqQueue reqs :=
        placed.req.frame fun b member => assign_other fun here => notReq (here ▸ member)
      obtain ⟨k,r,pushed,queued,frame,items⟩ := req.push (nexts_none assign_same ends) notReq
      rw [addRequestQueue,pushed] at step
      cases step
      have moved : (places s reqs cons++[]).Perm ([]++places ⟨k,r,s.conQueue,.handling⟩ (reqs++[a]) cons) := by
        simp only [places,held,phase,List.append_nil,List.nil_append]
        rw [List.append_assoc]
        exact (@List.perm_append_comm _ cons _).append_left reqs
      obtain ⟨once,live⟩ := placed.settled moved (by simp) (by simp) fun b => by
        rw [live_of_items items b]
        by_cases here : b = a <;> simp [Linked.assign,here,cell]
      refine ⟨reqs++[a],cons,⟨queued,?_,once,live,by rintro _ ⟨⟩,by rintro _ ⟨⟩⟩,by simp [addedBy,takenBy],moved⟩
      exact placed.con.frame fun b member => (frame b (placed.req_con member)).trans
        (assign_other fun here => notCon (here ▸ member))
    · cases step
  · cases step

theorem got_advances (placed : Placed s reqs cons) (step : next s (.got a) = some t) :
    Advances s t (.got a) reqs cons := by
  simp only [next] at step
  split at step
  · rename_i phase
    cases cons with
    | nil =>
      rw [getConnection,placed.con.pop_nil] at step
      cases step
    | cons b rest =>
      obtain ⟨k,r,c,popped,queued,cell,ends,frame⟩ := placed.con.pop
      rw [getConnection,popped] at step
      simp only [Option.map_some,Option.bind_some,Option.some.injEq] at step
      split at step
      · rename_i same
        obtain rfl := same
        cases step
        have moved : (places s reqs (b::rest)++[]).Perm ([]++places ⟨k,s.reqQueue,r,.holding b⟩ reqs rest) := by
          simp only [places,held,phase,List.append_nil,List.nil_append]
          exact (@List.perm_append_comm _ [b] _).append_left reqs
        obtain ⟨once,live⟩ := placed.settled moved (by simp) (by simp) fun d => by
          by_cases here : d = b
          · simp [here,ends,cell]
          · simp [frame d here]
        refine ⟨reqs,rest,⟨?_,queued,once,live,nofun,?_⟩,by simp [addedBy,takenBy],moved⟩
        · refine placed.req.frame fun d member => frame d ?_
          rintro rfl
          exact placed.req_con List.mem_cons_self member
        · rintro d ⟨⟩
          exact nexts_none ends rfl
      · cases step
  · cases step

theorem Placed.taken (placed : Placed s (front++a::back) cons) :
    ∃ k r c, unlink s.nodes s.reqQueue (endOf front) a = some (k,r) ∧
    Holds k r (front++back) ∧ k a = some c ∧ (∀ b ∈ cons, k b = s.nodes b) ∧
    (∀ b, (k b).map (·.item) = (s.nodes b).map (·.item)) ∧ a ∉ front++back ∧ a ∉ cons := by
  obtain ⟨k,r,unlinked,rest,frame,items⟩ := placed.req.unlink
  have apart := List.nodup_append.mp placed.req.chain.nodup
  have notFront : a ∉ front := fun member => apart.2.2 a member a List.mem_cons_self rfl
  obtain ⟨c,cell⟩ := placed.req.live (show a ∈ front++a::back by simp)
  refine ⟨k,r,c,unlinked,rest,(frame a notFront).trans cell,fun b member => frame b fun also =>
    ?_,items,fun member => ?_,fun member => ?_⟩
  · exact placed.req_con member (List.mem_append_left _ also)
  · exact (List.mem_append.mp member).elim notFront (List.nodup_cons.mp apart.2.1).1
  · exact placed.req_con member (by simp)

theorem Placed.walking (placed : Placed s reqs cons) (phase : s.phase = .walking nodeRef)
    (loaded : load s.nodes s.reqQueue nodeRef = some (some a)) : ∃ front back, reqs = front++a::back ∧
    nodeRef = endOf front := by
  obtain ⟨front,back,rfl,rfl⟩ := placed.here nodeRef phase
  rw [placed.req.load] at loaded
  obtain ⟨back,rfl⟩ := List.head?_eq_some_iff.mp (Option.some.inj loaded)
  exact ⟨front,back,rfl,rfl⟩

theorem waiting_advances (placed : Placed s (front++a::back) cons) (phase : s.phase = .walking (endOf front))
    (step : processNode s (endOf front) a .waiting = some t) :
    Advances s t (.looked a .waiting) (front++a::back) cons := by
  cases step
  have same : places {s with phase := .walking (.next a)} (front++a::back) cons = places s (front++a::back) cons := by
    simp [places,held,phase]
  refine ⟨front++a::back,cons,⟨placed.req,placed.con,same ▸ placed.once,fun b => same ▸ placed.live b,?_,nofun⟩,
    by simp [addedBy,takenBy],by simp [madeBy,freedBy,same]⟩
  rintro nodeRef ⟨⟩
  exact ⟨front++[a],back,by simp,by simp⟩

theorem ready_advances (placed : Placed s (front++a::back) cons) (phase : s.phase = .walking (endOf front))
    (step : processNode s (endOf front) a .ready = some t) : Advances s t (.looked a .ready) (front++a::back) cons := by
  obtain ⟨k,r,c,unlinked,rest,cell,frame,items,notReq,notCon⟩ := placed.taken
  have con : Holds (Linked.assign k a (some {c with next := none})) s.conQueue cons := by
    refine placed.con.frame fun b member => ?_
    rw [assign_other (show b ≠ a by rintro rfl; exact notCon member),frame b member]
  obtain ⟨k',r',pushed,queued,frame',items'⟩ := con.push (nexts_none assign_same rfl) notCon
  rw [processNode,takeOut,unlinked] at step
  simp only [Option.map_some,Option.bind_some,setNext_eq cell,addConnection,pushed,Option.some.injEq] at step
  subst step
  have moved : (places s (front++a::back) cons++[]).Perm ([]++places ⟨k',r,r',s.phase⟩ (front++back) (cons++[a])) := by
    simp only [places,held,phase,List.append_nil,List.nil_append]
    rw [←List.append_assoc]
    refine (List.perm_middle.append_right cons).trans ?_
    exact @List.perm_append_comm _ [a] _
  have same : ∀ b, (k' b).map (·.item) = (s.nodes b).map (·.item) := by
    intro b
    rw [items' b,item_setNext cell none b,items b]
  obtain ⟨once,live⟩ := placed.settled moved (by simp) (by simp) fun b => by simpa using live_of_items same b
  refine ⟨front++back,cons++[a],⟨?_,queued,once,live,?_,?_⟩,by simp [addedBy,takenBy],moved⟩
  · refine rest.frame fun b member => ?_
    have other : b ≠ a := by
      rintro rfl
      exact notReq member
    refine (frame' b fun also => placed.req_con also ?_).trans (assign_other other)
    rcases List.mem_append.mp member with earlier | later <;> simp [*]
  · intro nodeRef walking
    cases phase.symm.trans walking
    exact ⟨front,back,rfl,rfl⟩
  · intro b holding
    cases phase.symm.trans holding

theorem failed_advances (placed : Placed s (front++a::back) cons) (phase : s.phase = .walking (endOf front))
    (step : processNode s (endOf front) a .failed = some t) :
    Advances s t (.looked a .failed) (front++a::back) cons := by
  obtain ⟨k,r,c,unlinked,rest,cell,frame,items,notReq,notCon⟩ := placed.taken
  rw [processNode,takeOut,unlinked] at step
  simp only [Option.map_some,Option.bind_some,freeNode,cell,Option.some.injEq] at step
  subst step
  have moved : (places s (front++a::back) cons++[]).Perm
      ([a]++places ⟨Linked.assign k a none,r,s.conQueue,s.phase⟩ (front++back) cons) := by
    simp only [places,held,phase,List.append_nil]
    exact List.perm_middle.append_right cons
  obtain ⟨once,live⟩ := placed.settled moved (by simp) (by simp) fun b => by
    have same := live_of_items items b
    by_cases here : b = a <;> simp_all
  refine ⟨front++back,cons,⟨?_,?_,once,live,?_,?_⟩,by simp [addedBy,takenBy],moved⟩
  · exact rest.frame fun b member => assign_other (by rintro rfl; exact notReq member)
  · refine placed.con.frame fun b member => ?_
    exact (assign_other (by rintro rfl; exact notCon member)).trans (frame b member)
  · intro nodeRef walking
    cases phase.symm.trans walking
    exact ⟨front,back,rfl,rfl⟩
  · intro b holding
    cases phase.symm.trans holding

theorem looked_advances (placed : Placed s reqs cons) (step : next s (.looked a found) = some t) :
    Advances s t (.looked a found) reqs cons := by
  simp only [next] at step
  split at step
  · rename_i nodeRef phase
    split at step
    · rename_i loaded
      obtain ⟨front,back,rfl,rfl⟩ := placed.walking phase loaded
      cases found with
      | waiting => exact waiting_advances placed phase step
      | ready => exact ready_advances placed phase step
      | failed => exact failed_advances placed phase step
    · cases step
  · cases step

theorem next_advances (placed : Placed s reqs cons) (step : next s event = some t) : Advances s t event reqs cons := by
  cases event with
  | accepted a client shoutcast => exact accepted_advances placed step
  | nothing => exact nothing_advances placed step
  | looked a found => exact looked_advances placed step
  | walked => exact walked_advances placed step
  | got a => exact got_advances placed step
  | emptied => exact emptied_advances placed step
  | requeued a => exact requeued_advances placed step
  | finished a => exact finished_advances placed step

def Step (s : Conn) (event : Event) (t : Conn) : Prop := next s event = some t

-- After every run the two tails point into their last nodes, every node there is stands in
-- one place, every node made is freed or stands there, once for each time, and the
-- connection queue gives nodes in the order it got them.
theorem runs_placed (path : Runs Step start events s) : ∃ reqs cons, Placed s reqs cons ∧
    events.flatMap addedBy = events.flatMap takenBy++cons ∧
    (events.flatMap madeBy).Perm (events.flatMap freedBy++places s reqs cons) := by
  induction path with
  | nil => exact ⟨[],[],start_placed,rfl,List.Perm.nil⟩
  | snoc _ last ih =>
    rename_i labels t event u _
    obtain ⟨reqs,cons,placed,order,made⟩ := ih
    obtain ⟨reqs',cons',placed',order',moved⟩ := next_advances placed last
    refine ⟨reqs',cons',placed',?_,?_⟩
    · simp only [List.flatMap_append,List.flatMap_cons,List.flatMap_nil,List.append_nil]
      rw [order,List.append_assoc,order',List.append_assoc]
    · simp only [List.flatMap_append,List.flatMap_cons,List.flatMap_nil,List.append_nil]
      rw [List.append_assoc]
      apply (made.append_right _).trans
      rw [List.append_assoc]
      exact moved.append_left _

-- A shoutcast client that comes back for its headers while another one times out.
def shoutcastEvents : List Event :=
  [.accepted 0 7 true,.looked 0 .waiting,.walked,.emptied,.accepted 1 8 false,.looked 0 .ready,.looked 1 .waiting,
    .walked,.got 0,.requeued 0
  ,.emptied,.nothing,.looked 1 .failed,.looked 0 .ready,.walked,.got 0,.finished 0]

theorem runs_placed_shoutcast : ∃ s reqs cons, Placed s reqs cons ∧
    shoutcastEvents.flatMap addedBy = shoutcastEvents.flatMap takenBy++cons ∧
    (shoutcastEvents.flatMap madeBy).Perm (shoutcastEvents.flatMap freedBy++places s reqs cons) := by
  have ran : (runFrom next start shoutcastEvents).isSome := by decide +kernel
  obtain ⟨s,ran⟩ := Option.isSome_iff_exists.mp ran
  exact ⟨s,runs_placed (runFrom_sound (fun step => step) ran)⟩

theorem next_enabled (placed : Placed s reqs cons) :
    (s.phase = .accepting → (∀ a client shoutcast, s.nodes a = none → (next s (.accepted a client shoutcast)).isSome) ∧
      (next s .nothing).isSome) ∧
    (∀ nodeRef, s.phase = .walking nodeRef → (next s .walked).isSome ∨
    ∃ a, ∀ found, (next s (.looked a found)).isSome) ∧
    (s.phase = .handling → (next s .emptied).isSome ∨ ∃ a, (next s (.got a)).isSome) ∧
    ∀ a, s.phase = .holding a → (next s (.finished a)).isSome ∧ ∃ c, s.nodes a = some c ∧
      (c.item.shoutcast = 1 → (next s (.requeued a)).isSome) := by
  refine ⟨fun phase => ⟨fun a client shoutcast free => ?_,by simp [next,phase]⟩,fun nodeRef phase =>
    ?_,fun phase => ?_,fun a phase => ?_⟩
  · have unplaced : a ∉ reqs := fun there => (placed.live a).mpr (List.mem_append_left _ there) free
    have req : Holds (Linked.assign s.nodes a (some ⟨⟨client,if shoutcast then 1 else 0⟩,none⟩)) s.reqQueue reqs :=
      placed.req.frame fun b member => assign_other (by rintro rfl; exact unplaced member)
    obtain ⟨k,r,pushed,_⟩ := req.push (nexts_none assign_same rfl) unplaced
    simp only [next]
    rw [if_pos ⟨phase,free⟩,addRequestQueue,pushed]
    rfl
  · obtain ⟨front,back,rfl,rfl⟩ := placed.here nodeRef phase
    have loaded := placed.req.load
    cases back with
    | nil =>
      refine .inl ?_
      simp [next,phase,loaded]
    | cons a back =>
      refine .inr ⟨a,fun found => ?_⟩
      obtain ⟨k,r,c,unlinked,rest,cell,frame,items,notReq,notCon⟩ := placed.taken
      have con : Holds (Linked.assign k a (some {c with next := none})) s.conQueue cons := by
        refine placed.con.frame fun b member => ?_
        rw [assign_other (show b ≠ a by rintro rfl; exact notCon member),frame b member]
      obtain ⟨k',r',pushed,_⟩ := con.push (nexts_none assign_same rfl) notCon
      simp only [next,phase,loaded,List.head?_cons,if_pos]
      cases found with
      | waiting => rfl
      | failed => simp [processNode,takeOut,unlinked,freeNode,cell]
      | ready => simp [processNode,takeOut,unlinked,setNext_eq cell,addConnection,pushed]
  · cases cons with
    | nil => exact .inl (by simp [next,phase,getConnection,placed.con.pop_nil])
    | cons a rest =>
      obtain ⟨k,r,c,popped,_⟩ := placed.con.pop
      exact .inr ⟨a,by simp [next,phase,getConnection,popped]⟩
  · obtain ⟨notReq,notCon⟩ := placed.not_held phase
    have apart := placed.apart a phase
    obtain ⟨c,cell,ends⟩ := Option.map_eq_some_iff.mp apart
    refine ⟨by simp [next,phase,freeNode,cell],c,cell,fun first => ?_⟩
    have req : Holds (Linked.assign s.nodes a (some {c with item := {c.item with shoutcast := 2}})) s.reqQueue reqs :=
      placed.req.frame fun b member => assign_other (by rintro rfl; exact notReq member)
    obtain ⟨k,r,pushed,_⟩ := req.push (nexts_none assign_same ends) notReq
    simp only [next,if_pos phase,cell,Option.bind_some,if_pos first,addRequestQueue,pushed]
    rfl

end Icecast.ConnectionQueue
