import Icecast.Lib.Lists
import Icecast.Lib.Transition

namespace Icecast.ClientLife
open Lists Transition

-- client_t. `auth` is none for NULL, else whether its authenticator has a release_listener;
-- `destroyed` and `usedAfter` only record what happens to the memory.
structure Client where
  respcode : Nat
  authenticated : Bool
  auth : Option Bool
  destroyed : Nat
  usedAfter : Bool
deriving DecidableEq

inductive Callback where
  | close | source | stats
deriving DecidableEq

inductive Purpose where
  | listener | stream | removal
deriving DecidableEq

-- Who has a client: the accept loop, the two queues, the handler of its request, the thread of
-- a relay, a source or a stats connection, a pending or a client tree, the file serving lists,
-- the queue of an authenticator and its thread.
inductive Holder where
  | accepting | request | connection | handler | relay | source | stats | pending | listening | postprocess
  | fserve (callback : Callback)
  | auth (purpose : Purpose)
  | authUser (purpose : Purpose)
deriving DecidableEq

-- Who goes on using a client that others have: auth_new_listener after
-- auth_postprocess_listener failed, command_kill_client after source_find_client, and what
-- reads source->client off the source's own thread (the metadata commands, source_update_settings).
inductive Borrower where
  | newListener | killClient | sourceClient
deriving DecidableEq

-- `built` tells whether the response headers could be built, else client_send_500 is called.
inductive Deed where
  | drop
  | answer (status : Nat) (built : Bool)
  | serveFile (status : Nat) (built : Bool)
  | queue | frame | take | requeue
  | allow | listen
  | full (built : Bool)
  | askAuth (stream release : Bool)
  | startSource (shoutcast : Bool)
  | startStats | connected
  | served (error : Bool)
  | ended
  | authTake | header | disconnected
  | reject (built : Bool)
  | streamDone (built : Bool)
  | removed (built : Bool)
  | headers (noData : Bool)
  | add | move
  | free (built : Bool)
deriving DecidableEq

-- client_destroy: auth_release_listener passes a client on to its authenticator's queue, any
-- other is destroyed for good.
def clientDestroy (c : Client) : Client × Option Holder :=
  if c.authenticated ∧ c.auth = some true then (c,some (.auth .removal))
  else ({c with authenticated := false,destroyed := c.destroyed+1},none)

-- client_send_error; client_send_500 only writes and calls client_destroy.
def clientSendError (c : Client) (status : Nat) (built : Bool) : Client × Option Holder :=
  if built then ({c with respcode := status},some (.fserve .close)) else clientDestroy c

-- fserve_client_create sets the response code before it builds the headers.
def fserveClientCreate (c : Client) (status : Nat) (built : Bool) : Client × Option Holder :=
  if built then ({c with respcode := status},some (.fserve .close)) else clientDestroy {c with respcode := status}

-- _free_client
def freeClient (c : Client) (built : Bool) : Client × Option Holder :=
  if c.respcode = 0 then clientSendError c 404 built else clientDestroy c

def authClientFree (c : Client) (built : Bool) : Client × Option Holder :=
  if c.respcode ≠ 0 then clientDestroy c else clientSendError c 401 built

-- What the holder of a client does with it: the client afterwards and who has it then.
def act (c : Client) : Holder → Deed → Option (Client × Option Holder)
  -- connection_accept_loop, process_request_queue, _handle_connection
  | .accepting,.queue => some (c,some .request)
  | .request,.frame => some (c,some .connection)
  | .connection,.take => some (c,some .handler)
  | .handler,.requeue => some ({c with respcode := 200},some .request)
  | .accepting,.drop | .request,.drop | .handler,.drop | .relay,.drop => some (clientDestroy c)
  -- client_send_400 to client_send_404, the admin commands' responses, xslt_transform
  | .accepting,.answer status built | .handler,.answer status built | .postprocess,.answer status built =>
    some (clientSendError c status built)
  -- add_authenticated_listener, in the handler or in auth_postprocess_listener
  | .handler,.allow => some ({c with authenticated := true},some .handler)
  | .authUser .listener,.allow => some ({c with authenticated := true},some .postprocess)
  | .handler,.listen | .postprocess,.listen => if c.authenticated then some (c,some .pending) else none
  | .handler,.serveFile status built | .postprocess,.serveFile status built => some (fserveClientCreate c status built)
  | .postprocess,.full built => some (clientSendError c 401 built)
  -- auth_add_listener, auth_stream_authenticate
  | .handler,.askAuth stream release =>
    some ({c with auth := some release},some (.auth (if stream then .stream else .listener)))
  -- source_startup, _handle_stats_request, start_relay_stream
  | .handler,.startSource shoutcast =>
    some ({c with respcode := 200},some (if shoutcast then .source else .fserve .source))
  | .handler,.startStats => some ({c with respcode := 200},some (.fserve .stats))
  | .relay,.connected => some (c,some .source)
  -- fserve_client_destroy with source_client_callback and stats_callback
  | .fserve .close,.served _ => some (clientDestroy c)
  | .fserve .source,.served error => some (if error then clientDestroy c else (c,some .source))
  | .fserve .stats,.served error => some (if error then clientDestroy c else (c,some .stats))
  -- source_clear_source for the source's own client, stats_connection
  | .source,.ended | .stats,.ended => some (clientDestroy c)
  -- auth_run_thread; `header` is what the authenticator's answer may grant
  | .auth purpose,.authTake => some (c,some (.authUser purpose))
  | .authUser purpose,.header => some ({c with authenticated := true},some (.authUser purpose))
  | .authUser .listener,.disconnected => some (authClientFree {c with respcode := 400,auth := none} true)
  | .authUser .listener,.reject built => some (authClientFree {c with auth := none} built)
  | .authUser .stream,.streamDone built =>
    some (if c.authenticated then ({c with auth := none},some .handler) else authClientFree {c with auth := none} built)
  | .authUser .removal,.removed built => some (authClientFree {c with auth := none,authenticated := false} built)
  -- source_main, source_move_clients and source_clear_source
  | .pending,.add => some (c,some .listening)
  | .pending,.move | .listening,.move => some (c,some .pending)
  | .listening,.headers noData =>
    if c.respcode = 0 then some ({c with respcode := if noData then 500 else 200},some .listening) else none
  | .pending,.free built | .listening,.free built => some (freeClient c built)
  | _,_ => none

-- The client that auth_new_listener goes on using, and the ones source->client points to.
def lent : Deed → List Borrower
  | .full _ => [.newListener]
  | _ => []

def aliased : Deed → Bool
  | .startSource _ | .connected => true
  | _ => false

-- The server with the client_t's made so far, who holds which, who else uses which, the
-- source->client pointers, and global.clients.
structure Server where
  clients : List Client
  refs : List (Nat × Holder)
  borrows : List (Nat × Borrower)
  aliases : List Nat
  count : Int

def start : Server := ⟨[],[],[],[],0⟩

-- `headersFailed` is format_prepare_headers that gives up through client_send_500, `find` and
-- `look` take a pointer to a client, `use` is what is done with it, `forget` sets
-- source->client to NULL.
inductive Event where
  | accept | relay
  | deed (c : Nat) (h : Holder) (d : Deed)
  | headersFailed (c : Nat)
  | find (c : Nat)
  | look (c : Nat)
  | use (c : Nat) (b : Borrower)
  | forget (c : Nat)
deriving DecidableEq

-- client_create
def clientCreate (s : Server) (h : Holder) : Server :=
  {s with clients := s.clients++[⟨0,false,none,0,false⟩],refs := (s.clients.length,h)::s.refs,count := s.count+1}

def Client.touch (c : Client) : Client := {c with usedAfter := c.usedAfter || decide (0 < c.destroyed)}

def countAfter (count : Int) (fate : Option Holder) : Int := if fate = none then count-1 else count

-- auth_new_listener drops the client's authenticator, the others only look or set con->error.
def useOf (c : Client) : Borrower → Client
  | .newListener => {c.touch with auth := none}
  | .killClient | .sourceClient => c.touch

def next (s : Server) : Event → Option Server
  | .accept => some (clientCreate s .accepting)
  | .relay => some (clientCreate s .relay)
  | .deed c h d =>
    if (c,h) ∈ s.refs then
      (s.clients[c]?).bind fun client => (act client.touch h d).map fun r =>
        ⟨s.clients.set c r.1,r.2.toList.map (c,·)++s.refs.erase (c,h),(lent d).map (c,·)++s.borrows
        ,if aliased d then c::s.aliases else s.aliases,countAfter s.count r.2⟩
    else none
  -- The client stays in the client tree, and format_check_http_buffer sets its con->error.
  | .headersFailed c =>
    if (c,.listening) ∈ s.refs then
      (s.clients[c]?).map fun client =>
        let r := clientDestroy {client.touch with respcode := 200}
        {s with clients := s.clients.set c r.1.touch,refs := r.2.toList.map (c,·)++s.refs,count :=
          countAfter s.count r.2}
    else none
  | .find c => if (c,.listening) ∈ s.refs then some {s with borrows := (c,.killClient)::s.borrows} else none
  | .look c => if c ∈ s.aliases then some {s with borrows := (c,.sourceClient)::s.borrows} else none
  | .use c b =>
    if (c,b) ∈ s.borrows then
      (s.clients[c]?).map fun client => {s with clients := s.clients.set c (useOf client b),borrows := s.borrows.erase (c,b)}
    else none
  | .forget c => if c ∈ s.aliases then some {s with aliases := s.aliases.erase c} else none

def Step (s : Server) (event : Event) (t : Server) : Prop := next s event = some t

def alive (clients : List Client) (c : Nat) : Bool := (clients[c]?).any (·.destroyed = 0)

-- No headers fail through client_send_500, no client is destroyed for good while somebody
-- goes on using it, and nobody takes a source->client that is destroyed and not yet NULL.
def Fair (s : Server) : Event → Prop
  | .deed c h d => (lent d ≠ [] ∨ c ∈ s.borrows.map (·.1)) → ∀ client ∈ s.clients[c]?,
    ∀ r ∈ act client.touch h d, r.2 ≠ none
  | .headersFailed _ => False
  | .look c => alive s.clients c
  | _ => True

instance decideFair (s : Server) : (event : Event) → Decidable (Fair s event)
  | .deed c h d => inferInstanceAs (Decidable (_ → ∀ client ∈ s.clients[c]?, ∀ r ∈ act client.touch h d, r.2 ≠ none))
  | .headersFailed _ => isFalse id
  | .look c => inferInstanceAs (Decidable (alive s.clients c = true))
  | .accept | .relay | .find _ | .use _ _ | .forget _ => isTrue trivial

-- A client that is not destroyed has one holder, a destroyed one none, and no borrower.
structure Owned (s : Server) : Prop where
  held : ∀ c, s.refs.countP (·.1 = c) = if alive s.clients c then 1 else 0
  once : ∀ client ∈ s.clients, client.destroyed ≤ 1 ∧ client.usedAfter = false
  lent : ∀ r ∈ s.borrows, alive s.clients r.1
  count : s.count = (s.clients.length : Int)-((s.clients.map (·.destroyed)).sum : Nat)

-- A client that nobody has afterwards is destroyed once more, any other is not.
def Fated (c : Client) (r : Client × Option Holder) : Prop :=
  r.1.usedAfter = c.usedAfter ∧ r.1.destroyed = c.destroyed+(if r.2 = none then 1 else 0)

theorem clientDestroy_fated (c : Client) : Fated c (clientDestroy c) := by
  unfold clientDestroy
  split
  · exact ⟨rfl,rfl⟩
  · exact ⟨rfl,rfl⟩

theorem clientSendError_fated (c : Client) (status : Nat) (built : Bool) :
    Fated c (clientSendError c status built) := by
  cases built with
  | true => exact ⟨rfl,rfl⟩
  | false => exact clientDestroy_fated c

theorem fserveClientCreate_fated (c : Client) (status : Nat) (built : Bool) :
    Fated c (fserveClientCreate c status built) := by
  cases built with
  | true => exact ⟨rfl,rfl⟩
  | false => exact clientDestroy_fated {c with respcode := status}

theorem freeClient_fated (c : Client) (built : Bool) : Fated c (freeClient c built) := by
  unfold freeClient
  split
  · exact clientSendError_fated c 404 built
  · exact clientDestroy_fated c

theorem authClientFree_fated (c : Client) (built : Bool) : Fated c (authClientFree c built) := by
  unfold authClientFree
  split
  · exact clientDestroy_fated c
  · exact clientSendError_fated c 401 built

theorem ite_fated {P : Prop} [Decidable P] (yes : Fated c a) (no : Fated c b) : Fated c (if P then a else b) := by
  split
  · exact yes
  · exact no

theorem act_fated (acted : act c h d = some r) : Fated c r := by
  have plain : ∀ {e : Client} {h : Holder}, e.usedAfter = c.usedAfter →
    e.destroyed = c.destroyed → Fated c (e,some h) :=
    fun used same => ⟨used,same⟩
  unfold act at acted
  split at acted
  all_goals first
    | cases acted; exact plain rfl rfl
    | cases acted; exact clientDestroy_fated c
    | cases acted; exact clientSendError_fated c _ _
    | cases acted; exact fserveClientCreate_fated c _ _
    | cases acted; exact freeClient_fated c _
    | cases acted; exact authClientFree_fated {c with respcode := 400,auth := none} true
    | cases acted; exact authClientFree_fated {c with auth := none} _
    | cases acted; exact authClientFree_fated {c with auth := none,authenticated := false} _
    | cases acted; exact ite_fated (clientDestroy_fated c) (plain rfl rfl)
    | cases acted; exact ite_fated (plain rfl rfl) (authClientFree_fated {c with auth := none} _)
    | (split at acted <;> cases acted; exact plain rfl rfl)
    | cases acted

theorem alive_set {clients : List Client} (here : clients[c]? = some client) (e : Client) (k : Nat) :
    alive (clients.set c e) k = if k = c then decide (e.destroyed = 0) else alive clients k := by
  have inside := (List.getElem?_eq_some_iff.mp here).1
  by_cases same : k = c
  · subst same
    simp [alive,List.getElem?_set_self inside]
  · simp [alive,List.getElem?_set_ne (Ne.symm same),same]

theorem alive_append {clients : List Client} (e : Client) (k : Nat) :
    alive (clients++[e]) k = if k = clients.length then decide (e.destroyed = 0) else alive clients k := by
  unfold alive
  rcases Nat.lt_trichotomy k clients.length with less | same | more
  · rw [List.getElem?_append_left less,if_neg (Nat.ne_of_lt less)]
  · subst same
    simp
  · rw [List.getElem?_eq_none (by simp; omega),List.getElem?_eq_none (by omega),if_neg (Nat.ne_of_gt more)]

theorem touch_fresh {c : Client} (fresh : c.destroyed = 0) : c.touch = c := by
  have same : (c.usedAfter || decide (0 < c.destroyed)) = c.usedAfter := by simp [fresh]
  rw [Client.touch,same]

theorem alive_iff (here : clients[c]? = some client) : alive clients c = true ↔ client.destroyed = 0 := by
  simp [alive,here]

theorem Owned.holds (owned : Owned s) (member : (c,h) ∈ s.refs) : alive s.clients c := by
  have filled : 0 < s.refs.countP (·.1 = c) := List.countP_pos_iff.mpr ⟨(c,h),member,by simp⟩
  by_contra dead
  rw [owned.held c,if_neg dead] at filled
  exact Nat.lt_irrefl 0 filled

theorem refs_erase {refs : List (Nat × Holder)} (member : (c,h) ∈ refs) (k : Nat) :
    refs.countP (·.1 = k) = (refs.erase (c,h)).countP (·.1 = k)+(if c = k then 1 else 0) := by
  rw [(List.perm_cons_erase member).countP_eq,List.countP_cons]
  simp

theorem fate_count (c : Nat) (fate : Option Holder) (k : Nat) :
    (fate.toList.map (c,·)).countP (fun r => r.1 = k) = if c = k ∧ fate ≠ none then 1 else 0 := by
  cases fate with
  | none => simp
  | some h => simp [List.countP_cons]

theorem deed_owned (owned : Owned s) (step : next s (.deed c h d) = some t) : Owned t ↔ Fair s (.deed c h d) := by
  simp only [next] at step
  split at step
  · rename_i member
    obtain ⟨client,here,step⟩ := Option.bind_eq_some_iff.mp step
    obtain ⟨r,acted,same⟩ := Option.map_eq_some_iff.mp step
    cases same
    have living := owned.holds member
    have zero := (alive_iff here).mp living
    have fresh := (owned.once client (List.mem_of_getElem? here)).2
    have fair : Fair s (.deed c h d) ↔ ((lent d ≠ [] ∨ c ∈ s.borrows.map (·.1)) → r.2 ≠ none) := by
      simp only [Fair,here,acted,Option.mem_def,Option.some.injEq,forall_eq']
    rw [touch_fresh zero] at acted
    obtain ⟨used,times⟩ := act_fated acted
    rw [zero,Nat.zero_add] at times
    have after : ∀ k, alive (s.clients.set c r.1) k = if k = c then decide (r.2 ≠ none) else alive s.clients k := by
      intro k
      rw [alive_set here,times]
      cases r.2 <;> simp
    have held : ∀ k, (r.2.toList.map (c,·)++s.refs.erase (c,h)).countP
      (·.1 = k) = if alive (s.clients.set c r.1) k then 1 else 0 := by
      intro k
      have before := refs_erase member k
      rw [owned.held k] at before
      rw [List.countP_append,fate_count,after]
      by_cases same : k = c
      · subst same
        rw [if_pos living,if_pos rfl] at before
        rw [show List.countP (·.1 = k) (s.refs.erase (k,h)) = 0 by omega]
        simp
      · rw [if_neg (Ne.symm same),Nat.add_zero] at before
        rw [←before]
        simp [same,Ne.symm same]
    have once : ∀ e ∈ s.clients.set c r.1, e.destroyed ≤ 1 ∧ e.usedAfter = false := by
      intro e inside
      rcases List.mem_or_eq_of_mem_set inside with old | rfl
      · exact owned.once e old
      · exact ⟨by rw [times]; split <;> omega,used.trans fresh⟩
    have count : countAfter s.count r.2 = ((s.clients.set c r.1).length :
      Int)-(((s.clients.set c r.1).map (·.destroyed)).sum : Nat) := by
      have total := sum_set (·.destroyed) here r.1
      have old := owned.count
      rw [times,zero] at total
      rw [List.length_set,countAfter]
      split
      · rename_i last
        rw [if_pos last] at total
        omega
      · rename_i more
        rw [if_neg more] at total
        omega
    rw [fair]
    constructor
    · intro sound others
      have borrow : ∃ b, (c,b) ∈ (lent d).map (c,·)++s.borrows := by
        rcases others with fresh | old
        · obtain ⟨b,inside⟩ := List.exists_mem_of_ne_nil _ fresh
          exact ⟨b,List.mem_append_left _ (List.mem_map.mpr ⟨b,inside,rfl⟩)⟩
        · obtain ⟨⟨_,b⟩,inside,rfl⟩ := List.mem_map.mp old
          exact ⟨b,List.mem_append_right _ inside⟩
      obtain ⟨b,inside⟩ := borrow
      have still := sound.lent (c,b) inside
      simpa [after] using still
    · intro kept
      refine ⟨held,once,?_,count⟩
      intro ⟨k,b⟩ inside
      show alive (s.clients.set c r.1) k
      rw [after]
      split
      · rename_i same
        subst same
        refine decide_eq_true (kept ?_)
        rcases List.mem_append.mp inside with new | old
        · left
          intro absent
          rw [absent] at new
          cases new
        · exact .inr (List.mem_map.mpr ⟨(k,b),old,rfl⟩)
      · rename_i apart
        rcases List.mem_append.mp inside with new | old
        · obtain ⟨_,_,same⟩ := List.mem_map.mp new
          exact absurd (congrArg (·.1) same).symm apart
        · exact owned.lent (k,b) old
  · cases step

theorem clientCreate_owned (owned : Owned s) (h : Holder) : Owned (clientCreate s h) := by
  have beyond : alive s.clients s.clients.length = false := by simp [alive]
  refine ⟨?_,?_,?_,?_⟩
  · intro k
    have before := owned.held k
    simp only [clientCreate,List.countP_cons,alive_append]
    by_cases same : k = s.clients.length
    · subst same
      rw [beyond] at before
      simp [before]
    · simp [same,Ne.symm same,before]
  · intro e inside
    rcases List.mem_append.mp inside with old | new
    · exact owned.once e old
    · cases List.mem_singleton.mp new
      exact ⟨Nat.zero_le 1,rfl⟩
  · intro r inside
    have still := owned.lent r inside
    show alive (s.clients++[_]) r.1
    rw [alive_append]
    split
    · rfl
    · exact still
  · have old := owned.count
    simp only [clientCreate,List.length_append,List.map_append,List.sum_append,List.length_cons,List.length_nil,
      List.map_cons,List.map_nil,
      List.sum_cons,List.sum_nil]
    omega

theorem headersFailed_unowned (owned : Owned s) (step : next s (.headersFailed c) = some t) : ¬Owned t := by
  simp only [next] at step
  split at step
  · rename_i member
    obtain ⟨client,here,same⟩ := Option.map_eq_some_iff.mp step
    cases same
    intro after
    have living := owned.holds member
    have zero := (alive_iff here).mp living
    have tree := owned.held c
    have all := after.held c
    obtain ⟨_,times⟩ := clientDestroy_fated {client.touch with respcode := 200}
    have zero' : ({client.touch with respcode := 200} : Client).destroyed = 0 := zero
    rw [zero',Nat.zero_add] at times
    rw [if_pos living] at tree
    dsimp only at all
    rw [List.countP_append,fate_count,tree,alive_set here,if_pos rfl] at all
    change _ = if decide ((clientDestroy {client.touch with respcode := 200}).1.destroyed = 0) =
      true then 1 else 0 at all
    rw [times] at all
    by_cases last : (clientDestroy {client.touch with respcode := 200}).2 = none
    · simp [last] at all
    · simp [last] at all
  · cases step

theorem use_owned (owned : Owned s) (step : next s (.use c b) = some t) : Owned t := by
  simp only [next] at step
  split at step
  · rename_i member
    obtain ⟨client,here,same⟩ := Option.map_eq_some_iff.mp step
    cases same
    have zero := (alive_iff here).mp (owned.lent (c,b) member)
    have fresh := owned.once client (List.mem_of_getElem? here)
    have kept : (useOf client b).destroyed = 0 ∧ (useOf client b).usedAfter = false := by
      have untouched := touch_fresh zero
      cases b with
      | newListener => exact ⟨zero,(congrArg (·.usedAfter) untouched).trans fresh.2⟩
      | killClient => exact ⟨zero,(congrArg (·.usedAfter) untouched).trans fresh.2⟩
      | sourceClient => exact ⟨zero,(congrArg (·.usedAfter) untouched).trans fresh.2⟩
    have after : ∀ k, alive (s.clients.set c (useOf client b)) k = alive s.clients k := by
      intro k
      rw [alive_set here]
      split
      · rename_i same
        rw [same,(alive_iff here).mpr zero,kept.1]
        rfl
      · rfl
    refine ⟨fun k => ?_,fun e inside => ?_,fun r inside => ?_,?_⟩
    · rw [after]
      exact owned.held k
    · rcases List.mem_or_eq_of_mem_set inside with old | rfl
      · exact owned.once e old
      · exact ⟨by omega,kept.2⟩
    · rw [after]
      exact owned.lent r (List.mem_of_mem_erase inside)
    · have total := sum_set (·.destroyed) here (useOf client b)
      have old := owned.count
      rw [kept.1,zero] at total
      rw [List.length_set]
      dsimp only
      omega
  · cases step

theorem borrow_owned (owned : Owned s) (c : Nat) (b : Borrower) :
    Owned {s with borrows := (c,b)::s.borrows} ↔ alive s.clients c = true := by
  constructor
  · intro after
    exact after.lent (c,b) List.mem_cons_self
  · intro living
    refine ⟨owned.held,owned.once,fun r inside => ?_,owned.count⟩
    rcases List.mem_cons.mp inside with rfl | old
    · exact living
    · exact owned.lent r old

theorem next_owned (owned : Owned s) (step : Step s event t) : Owned t ↔ Fair s event := by
  cases event with
  | accept =>
    cases step
    exact iff_of_true (clientCreate_owned owned _) trivial
  | relay =>
    cases step
    exact iff_of_true (clientCreate_owned owned _) trivial
  | deed c h d => exact deed_owned owned step
  | headersFailed c => exact iff_of_false (headersFailed_unowned owned step) id
  | find c =>
    simp only [Step,next] at step
    split at step
    · rename_i member
      cases step
      exact iff_of_true ((borrow_owned owned c _).mpr (owned.holds member)) trivial
    · cases step
  | look c =>
    simp only [Step,next] at step
    split at step
    · cases step
      exact borrow_owned owned c _
    · cases step
  | use c b => exact iff_of_true (use_owned owned step) trivial
  | forget c =>
    simp only [Step,next] at step
    split at step
    · cases step
      exact iff_of_true ⟨owned.held,owned.once,owned.lent,owned.count⟩ trivial
    · cases step

theorem start_owned : Owned start := ⟨fun _ => rfl,nofun,nofun,rfl⟩

-- In a run of fair events every client is destroyed at most once and not used afterwards, and
-- global.clients is the number of clients made less the number destroyed. The next event keeps
-- the clients in order exactly when it is fair as well.
theorem runs_owned (run : Runs (fun s event t => Step s event t ∧ Fair s event) start events s) :
    (∀ client ∈ s.clients, client.destroyed ≤ 1 ∧ client.usedAfter = false) ∧
      s.count = (s.clients.length : Int)-(s.clients.countP (·.destroyed = 1) : Nat) ∧
      ∀ event t, Step s event t → (Owned t ↔ Fair s event) := by
  have owned : Owned s := run.preserves (fun owned step => (next_owned owned step.1).mpr step.2) start_owned
  have times : (s.clients.map (·.destroyed)).sum = s.clients.countP (·.destroyed = 1) := by
    have once := owned.once
    generalize s.clients = clients at once
    induction clients with
    | nil => rfl
    | cons c clients ih =>
      have here := (once c List.mem_cons_self).1
      have rest := ih fun e inside => once e (List.mem_cons_of_mem _ inside)
      rw [List.map_cons,List.sum_cons,List.countP_cons,rest]
      by_cases one : c.destroyed = 1
      · rw [one,Nat.add_comm]
        rfl
      · have zero : c.destroyed = 0 := by omega
        rw [zero,Nat.zero_add]
        rfl
  have count := owned.count
  rw [times] at count
  exact ⟨owned.once,count,fun event t step => next_owned owned step⟩

-- From the accept loop to the handler.
def arrive (c : Nat) : List Event :=
  [.accept,.deed c .accepting .queue,.deed c .request .frame,.deed c .connection .take]

-- An authenticated listener that is killed, moved and removed, and a source whose metadata is
-- updated before it ends.
def lifeEvents : List Event :=
  arrive 0++[.deed 0 .handler (.askAuth false true),.deed 0 (.auth .listener) .authTake,
    .deed 0 (.authUser .listener) .header
  ,.deed 0 (.authUser .listener) .allow,.deed 0 .postprocess .listen,.deed 0 .pending .add,
    .deed 0 .listening (.headers false)]++
  arrive 1++[.deed 1 .handler (.startSource false),.deed 1 (.fserve .source) (.served false),.look 1,
    .find 0,.use 0 .killClient
  ,.use 1 .sourceClient,.deed 0 .listening .move,.deed 0 .pending .add,.deed 0 .listening (.free true),
    .deed 0 (.auth .removal) .authTake
  ,.deed 0 (.authUser .removal) (.removed true),.deed 1 .source .ended,.forget 1]

theorem runs_owned_life : ∃ s, Runs Step start lifeEvents s ∧ s.clients.length = 2 ∧ s.count = 0 ∧
    ∀ client ∈ s.clients, client.destroyed ≤ 1 ∧ client.usedAfter = false := by
  have ran : (runFrom (guarded Fair next) start lifeEvents).map (fun s => (s.clients.length,s.count)) = some (2,0) := by decide +kernel
  obtain ⟨s,ran,values⟩ := Option.map_eq_some_iff.mp ran
  have fair := runFrom_sound guarded_sound ran
  exact ⟨s,fair.imp fun step => step.1,congrArg (·.1) values,congrArg (·.2) values,(runs_owned fair).1⟩

-- Headers that fail through client_send_500.
def failedEvents : List Event :=
  arrive 0++[.deed 0 .handler .allow,.deed 0 .handler .listen,.deed 0 .pending .add,.headersFailed 0,
    .deed 0 .listening (.free true)]

-- A listener that is refused after it was authenticated, a listener that leaves while it is
-- killed, and a source that ends while its metadata is updated.
def refusedEvents : List Event :=
  arrive 0++[.deed 0 .handler (.askAuth false false),.deed 0 (.auth .listener) .authTake,
    .deed 0 (.authUser .listener) .allow
  ,.deed 0 .postprocess (.full true),.deed 0 (.fserve .close) (.served false),.use 0 .newListener]

def killedEvents : List Event :=
  arrive 0++[.deed 0 .handler .allow,.deed 0 .handler .listen,.deed 0 .pending .add,
    .deed 0 .listening (.headers false),.find 0
  ,.deed 0 .listening (.free true),.use 0 .killClient]

def metadataEvents : List Event :=
  arrive 0++[.deed 0 .handler (.startSource true),.deed 0 .source .ended,.look 0,.use 0 .sourceClient]

-- What a run leaves of its clients, and global.clients.
def leaves (events : List Event) : Option (List (Nat × Bool) × Int) :=
  (runFrom next start events).map fun s => (s.clients.map fun c => (c.destroyed,c.usedAfter),s.count)

theorem leaves_run (left : leaves events = some (all,count)) : ∃ s, Runs Step start events s ∧
    s.clients.map (fun c => (c.destroyed,c.usedAfter)) = all ∧ s.count = count := by
  obtain ⟨s,ran,values⟩ := Option.map_eq_some_iff.mp left
  exact ⟨s,runFrom_sound (fun step => step) ran,congrArg (·.1) values,congrArg (·.2) values⟩

theorem client_destroyed_twice :
    (∃ s, Runs Step start failedEvents s ∧
    s.clients.map (fun c => (c.destroyed,c.usedAfter)) = [(2,true)] ∧ s.count = -1) ∧
    (∃ s, Runs Step start refusedEvents s ∧
    s.clients.map (fun c => (c.destroyed,c.usedAfter)) = [(1,true)] ∧ s.count = 0) ∧
    (∃ s, Runs Step start killedEvents s ∧
    s.clients.map (fun c => (c.destroyed,c.usedAfter)) = [(1,true)] ∧ s.count = 0) ∧
    ∃ s, Runs Step start metadataEvents s ∧
    s.clients.map (fun c => (c.destroyed,c.usedAfter)) = [(1,true)] ∧ s.count = 0 :=
  ⟨leaves_run (by decide +kernel),leaves_run (by decide +kernel),leaves_run (by decide +kernel),
    leaves_run (by decide +kernel)⟩

end Icecast.ClientLife
