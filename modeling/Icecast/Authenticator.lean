import Icecast.Lib.Lists
import Icecast.Lib.Transition
import Mathlib.Data.List.Nodup

namespace Icecast.Authenticator
open Lists Transition

-- Which optional callbacks of auth_t are set.
structure Hooks where
  releaseListener : Bool
  streamAuth : Bool
  streamStart : Bool
  streamEnd : Bool
deriving DecidableEq

-- auth_get_htpasswd_auth sets none of them.
def htpasswd : Hooks := ⟨false,false,false,false⟩

-- An auth_client, by its process callback. The client of stream_auth_callback is the auth
-- thread's own as long as its auth is set, and is not followed.
inductive Entry where
  | newListener (c : Nat)
  | removeListener (c : Nat)
  | streamAuth
  | streamStart
  | streamEnd
deriving DecidableEq

-- The auth thread has a queued client, another thread has one that is out.
inductive Place where
  | queued
  | out
  | freed
deriving DecidableEq

-- A listener; `auth` tells that client->auth is this authenticator.
structure Client where
  auth : Bool
  authenticated : Bool
  place : Place
deriving DecidableEq

-- auth_run_thread, where it is in a callback or in auth_client_free.
inductive Thread where
  | looking
  | processing (e : Entry)
  | dropping (c : Nat)
  | failing (c : Nat)
  | hooked
  | releasing
  | freeing (c : Nat)
  | ended
deriving DecidableEq

-- Joining: another thread waits in auth_release for the auth thread to end.
inductive Life where
  | alive
  | joining
  | selfJoined
  | freed
deriving DecidableEq

structure Auth where
  refcount : Int
  running : Bool
  life : Life
  queue : List Entry
  thread : Thread
  mount : Bool
  borrowed : Nat
  clients : List Client
deriving DecidableEq

def start : Auth := ⟨1,true,.alive,[],.looking,true,0,[]⟩

def maxPending : Nat := 100

-- auth_release, by the auth thread or by another; joining itself fails, and it goes on.
def authRelease (self : Bool) (s : Auth) : Auth :=
  if s.refcount-1 = 0 then
    {s with refcount := s.refcount-1,running := false,life := if self then .selfJoined else .joining}
  else {s with refcount := s.refcount-1}

-- auth_release (client->auth); client->auth = NULL.
def releaseClient (s : Auth) (c : Nat) (client : Client) : Auth :=
  let s := if client.auth then authRelease true s else s
  {s with clients := s.clients.set c {client with auth := false}}

-- What the outside decides: how auth_new_listener goes, whether a stream hook holds this
-- authenticator while it runs, and whether a client that auth_client_free gets is destroyed or
-- sent a response.
inductive Outcome where
  | disconnected
  | refused
  | accepted
  | failed
deriving DecidableEq

-- The auth_t is gone.
def Auth.dead (s : Auth) : Bool := s.life = .freed || s.life = .selfJoined

-- Where auth_run_thread and its callbacks use the auth_t.
def Thread.touches : Thread → Bool
  | .freeing _ | .ended => false
  | _ => true

def process (s : Auth) (outcome : Outcome) : Entry → Option Auth
  | .newListener c => (s.clients[c]?).map fun client =>
    match outcome with
    | .disconnected | .refused => {s with thread := .dropping c}
    | .accepted => {s with clients := s.clients.set c {client with authenticated := true,place := .out},thread := .looking}
    | .failed => {s with clients := s.clients.set c {client with authenticated := true,place := .out},thread := .failing c}
  | .removeListener c => (s.clients[c]?).bind fun client =>
    if client.auth then some {releaseClient s c {client with authenticated := false} with thread := .freeing c} else none
  | .streamAuth => some {authRelease true s with thread := .looking}
  | .streamStart | .streamEnd =>
    if outcome = .accepted ∧ s.mount = true then some {s with refcount := s.refcount+1,thread := .hooked}
    else some {authRelease true s with thread := .looking}

def threadStep (s : Auth) (outcome : Outcome) : Option Auth :=
  if s.dead && s.thread.touches then none else
  match s.thread with
  | .looking =>
    if s.running = false then some {s with thread := .ended}
    else match s.queue with
      | [] => some s
      | e::rest => some {s with queue := rest,thread := .processing e}
  | .processing e => process s outcome e
  | .dropping c => (s.clients[c]?).map fun client => {releaseClient s c client with thread := .freeing c}
  | .failing c => (s.clients[c]?).bind fun client =>
    if client.place = .freed then none else some {releaseClient s c client with thread := .looking}
  | .hooked => some {authRelease true s with thread := .releasing}
  | .releasing => some {authRelease true s with thread := .looking}
  | .freeing c => (s.clients[c]?).map fun client =>
    {s with clients := s.clients.set c {client with authenticated := false,place :=
      if outcome = .disconnected then .freed else .out},
            thread := .looking}
  | .ended => none

-- queue_auth_client with a mount.
def queueMount (s : Auth) (clients : List Client) (e : Entry) : Auth :=
  {s with refcount := s.refcount+1,queue := s.queue++[e],clients := s.clients++clients}

-- client_destroy of a client that the auth thread has not got: auth_release_listener first.
def clientDestroy (hooks : Hooks) (s : Auth) (c : Nat) (client : Client) : Auth :=
  if client.authenticated ∧ client.auth ∧ hooks.releaseListener then
    {s with queue := s.queue++[.removeListener c],clients := s.clients.set c {client with place := .queued}}
  else {s with clients := s.clients.set c {client with authenticated := false,place := .freed}}

-- auth_add_listener, auth_stream_authenticate, auth_stream_start and auth_stream_end for the
-- mount, client_destroy, config_clear_mount, the stream hooks of another authenticator's thread
-- that hold this one, the end of a join, and a step of the auth thread.
inductive Event where
  | addListener
  | streamAuthenticate
  | streamStart
  | streamEnd
  | destroy (c : Nat)
  | clearMount
  | borrow
  | giveBack
  | joined
  | thread (outcome : Outcome)
deriving DecidableEq

def next (hooks : Hooks) (s : Auth) : Event → Option Auth
  | .addListener =>
    if s.mount = false then none
    else if maxPending < s.queue.length then some {s with clients := s.clients++[⟨false,false,.out⟩]}
    else some (queueMount s [⟨true,false,.queued⟩] (.newListener s.clients.length))
  | .streamAuthenticate =>
    if s.mount ∧ hooks.streamAuth then some (queueMount s [] .streamAuth) else none
  | .streamStart => if s.mount ∧ hooks.streamStart then some (queueMount s [] .streamStart) else none
  | .streamEnd => if s.mount ∧ hooks.streamEnd then some (queueMount s [] .streamEnd) else none
  | .destroy c => (s.clients[c]?).bind fun client =>
    if client.place = .out then some (clientDestroy hooks s c client) else none
  | .clearMount => if s.mount then some {authRelease false s with mount := false} else none
  | .borrow => if s.mount ∧ (hooks.streamStart ∨ hooks.streamEnd) then some
    {s with refcount := s.refcount+1,borrowed := s.borrowed+1} else none
  | .giveBack => if 0 < s.borrowed then some {authRelease false s with borrowed := s.borrowed-1} else none
  | .joined => if s.life = .joining ∧ s.thread = .ended then some {s with life := .freed} else none
  | .thread outcome => threadStep s outcome

def Step (hooks : Hooks) (s : Auth) (event : Event) (t : Auth) : Prop := next hooks s event = some t

-- A reference that an auth_client holds on its own.
def Entry.bare : Entry → Bool
  | .streamAuth | .streamStart | .streamEnd => true
  | _ => false

def Thread.held : Thread → Nat
  | .processing e => if e.bare then 1 else 0
  | .hooked => 2
  | .releasing => 1
  | _ => 0

-- All that holds a reference: the mount, the hooks of other threads, the auth clients of source
-- clients and streams, and the listeners that refer to it, destroyed or not.
def holders (s : Auth) : Nat :=
  s.mount.toNat+s.borrowed+s.queue.countP (·.bare)+s.thread.held+s.clients.countP (·.auth)

-- The auth thread is about to call auth_release on the authenticator.
def releases (s : Auth) (outcome : Outcome) : Bool :=
  match s.thread with
  | .processing (.removeListener _) | .processing .streamAuth | .hooked | .releasing => true
  | .processing .streamStart | .processing .streamEnd => !(outcome = .accepted && s.mount)
  | .dropping c | .failing c => (s.clients[c]?).any (·.auth)
  | _ => false

-- What an event does to the references: nothing, take one while the mount has its own, or give
-- one back, on the auth thread or on another.
def Keeps (s t : Auth) : Prop := holders t = holders s ∧ t.refcount = s.refcount ∧ t.life = s.life

def Takes (s t : Auth) : Prop :=
  holders t = holders s+1 ∧ 0 < holders s ∧ t.refcount = s.refcount+1 ∧ t.life = s.life

def Gives (self : Bool) (s t : Auth) : Prop :=
  holders t+1 = holders s ∧ t.refcount = s.refcount-1 ∧
    t.life = if s.refcount-1 = 0 then (if self then .selfJoined else .joining) else s.life

@[simp] theorem authRelease_refcount : (authRelease self s).refcount = s.refcount-1 := by
  unfold authRelease
  split <;> rfl

@[simp] theorem authRelease_life :
    (authRelease self s).life = if s.refcount-1 = 0 then (if self then .selfJoined else .joining) else s.life := by
  unfold authRelease
  split <;> rfl

@[simp] theorem authRelease_queue : (authRelease self s).queue = s.queue := by
  unfold authRelease
  split <;> rfl

@[simp] theorem authRelease_thread : (authRelease self s).thread = s.thread := by
  unfold authRelease
  split <;> rfl

@[simp] theorem authRelease_mount : (authRelease self s).mount = s.mount := by
  unfold authRelease
  split <;> rfl

@[simp] theorem authRelease_borrowed : (authRelease self s).borrowed = s.borrowed := by
  unfold authRelease
  split <;> rfl

@[simp] theorem authRelease_clients : (authRelease self s).clients = s.clients := by
  unfold authRelease
  split <;> rfl

theorem releaseClient_effect {c : Nat} {s : Auth} (here : s.clients[c]? = some client)
    (same : client'.auth = client.auth)
    (free : s.thread.held = 0) (free' : thread.held = 0) :
    if client.auth then Gives true s {releaseClient s c client' with thread := thread}
    else Keeps s {releaseClient s c client' with thread := thread} := by
  have count := countP_set (fun client : Client => client.auth) here {client' with auth := false}
  cases auth : client.auth with
  | true =>
    rw [auth] at same count
    simp only [if_true,Bool.false_eq_true,if_false] at count
    simp only [if_true,Gives,releaseClient,holders,same,authRelease_refcount,authRelease_life,
      authRelease_queue,authRelease_mount,
      authRelease_borrowed,authRelease_clients,free,free']
    exact ⟨by omega,trivial,trivial⟩
  | false =>
    rw [auth] at same count
    simp only [Bool.false_eq_true,if_false] at count
    simp only [Bool.false_eq_true,if_false,Keeps,releaseClient,holders,same,free,free']
    exact ⟨by omega,trivial,trivial⟩

def drops (s : Auth) : Event → Bool
  | .thread outcome => releases s outcome
  | _ => false

theorem releaseClient_thread {c : Nat} {s t : Auth} (here : s.clients[c]? = some client)
    (same : client'.auth = client.auth)
    (free : s.thread.held = 0) (free' : thread.held = 0) (ran : t = {releaseClient s c client' with thread := thread}) :
    if (s.clients[c]?).any (·.auth) then Gives true s t else Keeps s t := by
  rw [here,ran]
  exact releaseClient_effect here same free free'

theorem keeps_client {c : Nat} {s : Auth} (here : s.clients[c]? = some client)
    (same : client'.auth = client.auth) (held : thread.held = s.thread.held) :
    Keeps s {s with clients := s.clients.set c client',thread := thread} := by
  have count := countP_set (fun client : Client => client.auth) here client'
  simp only [same] at count
  refine ⟨?_,rfl,rfl⟩
  simp only [holders,held]
  omega

theorem keeps_thread (held : thread.held = s.thread.held) : Keeps s {s with thread := thread} := by
  refine ⟨?_,rfl,rfl⟩
  simp only [holders,held]

theorem gives_thread (held : thread.held+1 = s.thread.held) :
    Gives true s {authRelease true s with thread := thread} := by
  simp only [Gives,holders,authRelease_refcount,authRelease_life,authRelease_queue,authRelease_mount,
    authRelease_borrowed,authRelease_clients]
  exact ⟨by omega,trivial,trivial⟩

theorem process_effect {e : Entry} (spot : s.thread = .processing e) (ran : process s outcome e = some t) :
    if releases s outcome then Gives true s t else Keeps s t ∨ Takes s t := by
  have stream : ∀ e', s.thread = .processing e' → e'.bare = true →
      (if outcome = .accepted ∧ s.mount = true then some {s with refcount := s.refcount+1,thread := .hooked}
        else some {authRelease true s with thread := .looking}) = some t →
      if !(outcome = .accepted && s.mount) then Gives true s t else Keeps s t ∨ Takes s t := by
    intro e' spot bare ran
    have held : s.thread.held = 1 := by rw [spot,Thread.held,if_pos bare]
    split at ran
    · rename_i hook
      cases ran
      rw [if_neg (by simp [hook.1,hook.2])]
      refine .inr ⟨?_,?_,rfl,rfl⟩
      · simp only [holders,held]
        rw [Thread.held]
        omega
      · simp only [holders,held]
        omega
    · rename_i plain
      cases ran
      rw [if_pos (by simpa [Decidable.imp_iff_not_or] using plain)]
      exact gives_thread (by rw [held]; rfl)
  cases e with
  | newListener c =>
    obtain ⟨client,here,same⟩ := Option.map_eq_some_iff.mp ran
    have held : s.thread.held = 0 := by rw [spot]; rfl
    rw [releases,spot]
    refine .inl ?_
    cases outcome <;> cases same
    · exact keeps_thread held.symm
    · exact keeps_thread held.symm
    · exact keeps_client here rfl held.symm
    · exact keeps_client here rfl held.symm
  | removeListener c =>
    obtain ⟨client,here,rest⟩ := Option.bind_eq_some_iff.mp ran
    split at rest
    · rename_i auth
      cases rest
      rw [releases,spot]
      have effect : if client.auth then Gives true s
        {releaseClient s c {client with authenticated := false} with thread := .freeing c}
          else Keeps s {releaseClient s c {client with authenticated := false} with thread := .freeing c} :=
        releaseClient_effect here rfl (by rw [spot]; rfl) rfl
      rw [if_pos auth] at effect
      exact effect
    · cases rest
  | streamAuth =>
    cases ran
    rw [releases,spot]
    exact gives_thread (by rw [spot]; rfl)
  | streamStart =>
    rw [releases,spot]
    exact stream _ spot rfl ran
  | streamEnd =>
    rw [releases,spot]
    exact stream _ spot rfl ran

theorem threadStep_effect (ran : threadStep s outcome = some t) :
    if releases s outcome then Gives true s t else Keeps s t ∨ Takes s t := by
  unfold threadStep at ran
  split at ran
  · cases ran
  cases spot : s.thread with
  | looking =>
    rw [spot] at ran
    dsimp only at ran
    have held : s.thread.held = 0 := by rw [spot]; rfl
    rw [releases,spot]
    refine .inl ?_
    split at ran
    · cases ran
      exact keeps_thread held.symm
    · cases queue : s.queue with
      | nil =>
        rw [queue] at ran
        cases ran
        exact ⟨rfl,rfl,rfl⟩
      | cons e rest =>
        rw [queue] at ran
        cases ran
        refine ⟨?_,rfl,rfl⟩
        simp only [holders,held,queue,List.countP_cons]
        rw [Thread.held]
        omega
  | processing e =>
    rw [spot] at ran
    exact process_effect spot ran
  | dropping c =>
    rw [spot] at ran
    obtain ⟨client,here,same⟩ := Option.map_eq_some_iff.mp ran
    have effect := releaseClient_thread here rfl (by rw [spot]; rfl) rfl same.symm
    rw [releases,spot]
    dsimp only
    split
    · rename_i auth
      rwa [if_pos auth] at effect
    · rename_i auth
      rw [if_neg auth] at effect
      exact .inl effect
  | failing c =>
    rw [spot] at ran
    obtain ⟨client,here,rest⟩ := Option.bind_eq_some_iff.mp ran
    split at rest
    · cases rest
    have effect := releaseClient_thread here rfl (by rw [spot]; rfl) rfl (Option.some.inj rest).symm
    rw [releases,spot]
    dsimp only
    split
    · rename_i auth
      rwa [if_pos auth] at effect
    · rename_i auth
      rw [if_neg auth] at effect
      exact .inl effect
  | hooked =>
    rw [spot] at ran
    cases ran
    rw [releases,spot]
    exact gives_thread (by rw [spot]; rfl)
  | releasing =>
    rw [spot] at ran
    cases ran
    rw [releases,spot]
    exact gives_thread (by rw [spot]; rfl)
  | freeing c =>
    rw [spot] at ran
    obtain ⟨client,here,same⟩ := Option.map_eq_some_iff.mp ran
    rw [releases,spot,←same]
    exact .inl (keeps_client here rfl (by rw [spot]; rfl))
  | ended =>
    rw [spot] at ran
    cases ran

theorem queueMount_takes (mount : s.mount = true)
    (bare : clients.countP (·.auth)+(if e.bare then 1 else 0) = 1) : Takes s (queueMount s clients e) := by
  refine ⟨?_,?_,rfl,rfl⟩
  · simp only [holders,queueMount,List.countP_append,List.countP_singleton]
    omega
  · simp only [holders,mount,Bool.toNat_true]
    omega

theorem next_effect (step : Step hooks s event t) :
    if drops s event then Gives true s t
    else Keeps s t ∨ Takes s t ∨ Gives false s t ∨ s.life = .joining ∧ s.thread = .ended ∧
    t = {s with life := .freed} := by
  cases event with
  | addListener =>
    simp only [Step,next] at step
    split at step
    · cases step
    · rename_i mount
      split at step
      · cases step
        refine .inl ⟨?_,rfl,rfl⟩
        simp [holders]
      · cases step
        exact .inr (.inl (queueMount_takes (by simpa using mount) rfl))
  | streamAuthenticate | streamStart | streamEnd =>
    simp only [Step,next] at step
    split at step
    · rename_i mount
      cases step
      exact .inr (.inl (queueMount_takes mount.1 rfl))
    · cases step
  | destroy c =>
    obtain ⟨client,here,rest⟩ := Option.bind_eq_some_iff.mp step
    split at rest
    · rename_i out
      cases rest
      refine .inl ?_
      unfold clientDestroy
      split
      · have count := countP_set (fun client : Client => client.auth) here {client with place := .queued}
        refine ⟨?_,rfl,rfl⟩
        simp only [holders,List.countP_append,List.countP_singleton]
        simp only [Entry.bare,Bool.false_eq_true,if_false]
        dsimp only at count
        omega
      · exact keeps_client here rfl rfl
    · cases rest
  | clearMount =>
    simp only [Step,next] at step
    split at step
    · rename_i mount
      cases step
      refine .inr (.inr (.inl ?_))
      simp only [Gives,holders,authRelease_refcount,authRelease_life,authRelease_queue,authRelease_thread,
        authRelease_borrowed,authRelease_clients,
        mount,Bool.toNat_true,Bool.toNat_false]
      exact ⟨by omega,trivial,trivial⟩
    · cases step
  | borrow =>
    simp only [Step,next] at step
    split at step
    · rename_i held
      cases step
      refine .inr (.inl ⟨?_,?_,rfl,rfl⟩)
      · simp only [holders]
        omega
      · simp only [holders,held.1,Bool.toNat_true]
        omega
    · cases step
  | giveBack =>
    simp only [Step,next] at step
    split at step
    · rename_i filled
      cases step
      refine .inr (.inr (.inl ?_))
      simp only [Gives,holders,authRelease_refcount,authRelease_life,authRelease_queue,authRelease_thread,
        authRelease_mount,authRelease_clients]
      exact ⟨by omega,trivial,trivial⟩
    · cases step
  | joined =>
    simp only [Step,next] at step
    split at step
    · rename_i ended
      cases step
      exact .inr (.inr (.inr ⟨ended.1,ended.2,rfl⟩))
    · cases step
  | thread outcome =>
    have effect := threadStep_effect step
    rw [drops]
    split
    · rename_i gives
      rwa [if_pos gives] at effect
    · rename_i gives
      rw [if_neg gives] at effect
      exact effect.imp id .inl

-- In every run.
structure Inv (s : Auth) : Prop where
  count : s.refcount = (holders s : Int)
  life : s.life = .alive ↔ 0 < holders s
  ended : s.life = .freed → s.thread = .ended

theorem start_inv : Inv start := ⟨rfl,by decide,nofun⟩

theorem thread_ended (step : Step hooks s event t) (ended : s.thread = .ended) : t.thread = .ended := by
  cases event with
  | thread outcome =>
    simp only [Step,next,threadStep,ended] at step
    split at step <;> cases step
  | destroy c =>
    obtain ⟨client,here,rest⟩ := Option.bind_eq_some_iff.mp step
    split at rest
    · cases rest
      unfold clientDestroy
      split <;> exact ended
    · cases rest
  | addListener =>
    simp only [Step,next] at step
    split at step
    · cases step
    · split at step <;> cases step <;> exact ended
  | streamAuthenticate | streamStart | streamEnd | borrow | joined =>
    simp only [Step,next] at step
    split at step
    · cases step
      exact ended
    · cases step
  | clearMount | giveBack =>
    simp only [Step,next] at step
    split at step
    · cases step
      exact authRelease_thread.trans ended
    · cases step

theorem Gives.inv (gives : Gives self s t) (inv : Inv s) :
    t.refcount = (holders t : Int) ∧ (t.life = .alive ↔ 0 < holders t) ∧ t.life ≠ .freed := by
  obtain ⟨held,count,life⟩ := gives
  have old := inv.count
  have alive := inv.life.mpr (by omega)
  refine ⟨by omega,?_,?_⟩
  · rw [life]
    split
    · have absent : ¬0 < holders t := by omega
      cases self <;> simp [absent]
    · have filled : 0 < holders t := by omega
      simp [alive,filled]
  · rw [life]
    split
    · cases self <;> simp
    · simp [alive]

theorem step_inv (inv : Inv s) (step : Step hooks s event t) : Inv t := by
  have effect := next_effect step
  have gave : ∀ self, Gives self s t → Inv t := fun self gives =>
    have kept := gives.inv inv
    ⟨kept.1,kept.2.1,fun freed => absurd freed kept.2.2⟩
  split at effect
  · exact gave true effect
  · rcases effect with ⟨held,count,life⟩ | ⟨held,filled,count,life⟩ | gives | ⟨joining,ended,same⟩
    · refine ⟨by rw [count,held,inv.count],by rw [life,held]; exact inv.life,fun freed => ?_⟩
      exact thread_ended step (inv.ended (life ▸ freed))
    · have old := inv.count
      refine ⟨by omega,?_,fun freed => thread_ended step (inv.ended (life ▸ freed))⟩
      rw [life,held]
      exact ⟨fun _ => Nat.succ_pos _,fun _ => inv.life.mpr filled⟩
    · exact gave false gives
    · have dead : ¬0 < holders s := fun filled => by
        rw [inv.life.mpr filled] at joining
        cases joining
      subst same
      refine ⟨inv.count,?_,fun _ => ended⟩
      exact ⟨nofun,fun filled => absurd filled dead⟩

-- The auth thread gives back its reference only while the mount, another queued client, a
-- listener or another thread has one.
def Shared (s : Auth) (event : Event) : Prop := drops s event = true → 1 < holders s

instance decideShared (s : Auth) (event : Event) : Decidable (Shared s event) :=
  inferInstanceAs (Decidable (drops s event = true → 1 < holders s))

theorem step_joins (inv : Inv s) (before : s.life ≠ .selfJoined) (step : Step hooks s event t) :
    t.life ≠ .selfJoined ↔ Shared s event := by
  have effect := next_effect step
  have old := inv.count
  unfold Shared
  split at effect
  · rename_i gives
    obtain ⟨held,_,life⟩ := effect
    rw [life]
    split
    · simp [gives]
      omega
    · simp [gives,before]
      omega
  · rename_i gives
    refine ⟨fun _ up => absurd up gives,fun _ => ?_⟩
    rcases effect with ⟨_,_,life⟩ | ⟨_,_,_,life⟩ | ⟨_,_,life⟩ | ⟨_,_,same⟩
    · rwa [life]
    · rwa [life]
    · rw [life]
      split
      · exact nofun
      · exact before
    · rw [same]
      exact nofun

structure Joined (s : Auth) : Prop extends Inv s where
  before : s.life ≠ .selfJoined

-- Up to the first last reference that the auth thread itself gives back, the auth thread does
-- not join itself, and it has ended where the authenticator is freed.
theorem runs_join (run : Runs (fun s event t => Step hooks s event t ∧ Shared s event) start events s) :
    s.life ≠ .selfJoined ∧ (s.life = .freed → s.thread = .ended) ∧
      ∀ event t, Step hooks s event t →
      ((t.life ≠ .selfJoined ∧ (t.life = .freed → t.thread = .ended)) ↔ Shared s event) := by
  have inv : Joined s := run.preserves
    (fun inv last => ⟨step_inv inv.toInv last.1,(step_joins inv.toInv inv.before last.1).mpr last.2⟩) ⟨start_inv,nofun⟩
  refine ⟨inv.before,inv.ended,fun event t step => ?_⟩
  have joins := step_joins inv.toInv inv.before step
  exact ⟨fun safe => joins.mp safe.1,fun shared => ⟨joins.mpr shared,(step_inv inv.toInv step).ended⟩⟩

-- A refused listener whose release leaves the mount's reference, and a reload that ends the thread.
def reloaded : List Event :=
  [.addListener,.thread .refused,.thread .refused,.thread .refused,.thread .refused,.clearMount,
    .thread .refused,.joined]

theorem runs_join_reloaded : ∃ s, Runs (Step htpasswd) start reloaded s ∧ s.life = .freed ∧ s.thread = .ended := by
  have ran : (runFrom (guarded Shared (next htpasswd)) start reloaded).map (·.life) = some .freed := by decide +kernel
  obtain ⟨s,ran,life⟩ := Option.map_eq_some_iff.mp ran
  have shared := runFrom_sound guarded_sound ran
  exact ⟨s,shared.imp fun step => step.1,life,(runs_join shared).2.1 life⟩

-- The reload comes while the listener is being refused; the auth thread goes on to a freed auth_t.
def reloadedWhile : List Event := [.addListener,.thread .refused,.clearMount,.thread .refused,
    .thread .refused,.thread .refused]

theorem thread_joins_itself : ∃ s, Runs (Step htpasswd) start reloadedWhile s ∧ s.life = .selfJoined ∧
    s.refcount = 0 ∧ s.thread = .looking ∧
    ∀ outcome, threadStep s outcome = none := by
  have ran : (runFrom (next htpasswd) start reloadedWhile).map (fun s => (s.life,s.refcount,s.thread)) =
    some (.selfJoined,0,.looking) := by
    decide +kernel
  obtain ⟨s,ran,values⟩ := Option.map_eq_some_iff.mp ran
  have life : s.life = .selfJoined := congrArg (·.1) values
  have thread : s.thread = .looking := congrArg (·.2.2) values
  refine ⟨s,runFrom_sound (fun step => step) ran,life,congrArg (·.2.1) values,thread,fun outcome => ?_⟩
  rw [threadStep,if_pos]
  simp [Auth.dead,life,thread,Thread.touches]

-- Each queued client refers to the authenticator through its own entry, the mount and the live
-- clients that refer to it are counted, and the authenticator goes with the last of them.
structure Exact (s : Auth) : Prop where
  entries : s.queue.Nodup ∧ ∀ e ∈ s.queue, ∃ c client, e = .newListener c ∧ s.clients[c]? = some client ∧
    client.auth = true ∧ client.place = .queued
  count : s.refcount = ((s.mount.toNat+s.clients.countP fun client => client.auth && client.place ≠ .freed : Nat) : Int)
  gone : s.life ≠ .alive ↔ s.refcount = 0
  pointers : s.life ≠ .alive → ∀ client ∈ s.clients, client.place ≠ .freed → client.auth = false

-- No client that still refers to the authenticator is destroyed.
def Fair (s : Auth) : Event → Prop
  | .destroy c => ∀ client ∈ s.clients[c]?, client.auth = false
  | _ => True

instance decideFair (s : Auth) : (event : Event) → Decidable (Fair s event)
  | .destroy c => inferInstanceAs (Decidable (∀ client ∈ s.clients[c]?, client.auth = false))
  | .addListener | .streamAuthenticate | .streamStart | .streamEnd | .clearMount | .borrow | .giveBack | .joined | .thread _ => isTrue trivial

def Owns (s : Auth) (c : Nat) (auth : Bool) (place : Place) : Prop :=
  .newListener c ∉ s.queue ∧ ∃ client, s.clients[c]? = some client ∧ client.auth = auth ∧ client.place = place

-- The client in the hands of the auth thread.
def Held (s : Auth) : Prop :=
  match s.thread with
  | .looking | .ended => True
  | .processing (.newListener c) | .dropping c => Owns s c true .queued
  | .failing c => Owns s c true .out
  | .freeing c => Owns s c false .queued
  | _ => False

-- Runs of an htpasswd authenticator.
structure Plain (s : Auth) : Prop where
  borrowed : s.borrowed = 0
  queue : ∀ e ∈ s.queue, ∃ c client, e = .newListener c ∧ s.clients[c]? = some client ∧ client.auth = true ∧
    client.place = .queued
  nodup : s.queue.Nodup
  held : Held s
  freed : ∀ client ∈ s.clients, client.place = .freed → client.auth = false

theorem start_plain : Plain start := ⟨rfl,nofun,.nil,trivial,nofun⟩

theorem find_set {c d : Nat} {clients : List Client} (here : clients[c]? = some client)
    (other : clients[d]? = some client')
    (apart : client ≠ client') : (clients.set c new)[d]? = some client' := by
  have different : c ≠ d := by
    rintro rfl
    rw [here] at other
    exact apart (Option.some.inj other)
  rw [List.getElem?_set_ne different]
  exact other

theorem Owns.frame {s t : Auth} (owns : Owns s d auth place) (queue : t.queue = s.queue)
    (same : ∀ client, s.clients[d]? = some client → client.auth = auth → client.place = place →
    t.clients[d]? = some client) :
    Owns t d auth place := by
  obtain ⟨apart,client,here,isAuth,isPlace⟩ := owns
  exact ⟨by rw [queue]; exact apart,client,same client here isAuth isPlace,isAuth,isPlace⟩

theorem Plain.put {s t : Auth} (plain : Plain s) (owns : Owns s c auth place)
    (here : s.clients[c]? = some client) (queue : t.queue = s.queue)
    (clients : t.clients = s.clients.set c new) (borrowed : t.borrowed = s.borrowed)
    (freed : new.place = .freed → new.auth = false)
    (held : Owns t c new.auth new.place → Held t) : Plain t where
  borrowed := borrowed.trans plain.borrowed
  queue := by
    rw [queue,clients]
    intro e within
    obtain ⟨d,other,same,found,rest⟩ := plain.queue e within
    refine ⟨d,other,same,?_,rest⟩
    have different : c ≠ d := by
      rintro rfl
      exact owns.1 (same ▸ within)
    rw [List.getElem?_set_ne different]
    exact found
  nodup := by
    rw [queue]
    exact plain.nodup
  held := by
    have inside := (List.getElem?_eq_some_iff.mp here).1
    exact held ⟨by rw [queue]; exact owns.1,new,by rw [clients,List.getElem?_set_self inside],rfl,rfl⟩
  freed := by
    rw [clients]
    intro client within
    rcases List.mem_or_eq_of_mem_set within with old | same
    · exact plain.freed client old
    · rw [same]
      exact freed

theorem Plain.same {s t : Auth} (plain : Plain s) (queue : t.queue = s.queue) (clients : t.clients = s.clients)
    (borrowed : t.borrowed = 0)
    (held : Held t) : Plain t := by
  refine ⟨borrowed,?_,?_,held,?_⟩
  · rw [queue,clients]
    exact plain.queue
  · rw [queue]
    exact plain.nodup
  · rw [clients]
    exact plain.freed

theorem Held.move {s t : Auth} (held : Held s) (thread : t.thread = s.thread) 
    (owns : ∀ d auth place, auth = true ∨ place = .queued → Owns s d auth place → Owns t d auth place) : Held t := by
  unfold Held at held ⊢
  rw [thread]
  cases spot : s.thread with
  | processing e =>
    rw [spot] at held
    cases e with
    | newListener c => exact owns _ _ _ (.inl rfl) held
    | _ => exact held
  | dropping c | failing c =>
    rw [spot] at held
    exact owns _ _ _ (.inl rfl) held
  | freeing c =>
    rw [spot] at held
    exact owns _ _ _ (.inr rfl) held
  | looking | ended => trivial
  | hooked | releasing =>
    rw [spot] at held
    exact held

theorem releaseClient_fields (s : Auth) (c : Nat) (client : Client) :
    (releaseClient s c client).queue = s.queue ∧ (releaseClient s c client).borrowed = s.borrowed ∧
    (releaseClient s c client).clients = s.clients.set c {client with auth := false} := by
  unfold releaseClient
  cases client.auth
  · exact ⟨rfl,rfl,rfl⟩
  · exact ⟨authRelease_queue,authRelease_borrowed,congrArg (List.set · c _) authRelease_clients⟩

theorem thread_plain (plain : Plain s) (ran : threadStep s outcome = some t) : Plain t := by
  have held := plain.held
  unfold Held at held
  unfold threadStep at ran
  split at ran
  · cases ran
  cases spot : s.thread with
  | looking =>
    rw [spot] at ran
    dsimp only at ran
    split at ran
    · cases ran
      exact plain.same rfl rfl plain.borrowed trivial
    · cases queue : s.queue with
      | nil =>
        rw [queue] at ran
        cases ran
        exact plain
      | cons e rest =>
        rw [queue] at ran
        cases ran
        have nodup := plain.nodup
        rw [queue] at nodup
        obtain ⟨c,client,same,found⟩ := plain.queue e (by rw [queue]; exact List.mem_cons_self)
        subst same
        refine ⟨plain.borrowed,fun e within => ?_,nodup.tail,⟨(List.nodup_cons.mp nodup).1,client,found⟩,plain.freed⟩
        exact plain.queue e (by rw [queue]; exact List.mem_cons_of_mem _ within)
  | processing e =>
    rw [spot] at ran held
    cases e with
    | newListener c =>
      obtain ⟨client,here,same⟩ := Option.map_eq_some_iff.mp ran
      obtain ⟨apart,_,found,auth,place⟩ := id held
      rw [here] at found
      cases found
      cases outcome <;> cases same
      · exact plain.same rfl rfl plain.borrowed ⟨apart,client,here,auth,place⟩
      · exact plain.same rfl rfl plain.borrowed ⟨apart,client,here,auth,place⟩
      · exact plain.put held here rfl rfl rfl nofun fun _ => trivial
      · refine plain.put held here rfl rfl rfl nofun fun owns => ?_
        obtain ⟨apart,other,found,isAuth,isPlace⟩ := owns
        exact ⟨apart,other,found,isAuth.trans auth,isPlace⟩
    | _ => exact absurd held id
  | dropping c =>
    rw [spot] at ran held
    obtain ⟨client,here,same⟩ := Option.map_eq_some_iff.mp ran
    obtain ⟨_,_,found,auth,place⟩ := id held
    rw [here] at found
    cases found
    obtain ⟨queue,borrowed,clients⟩ := releaseClient_fields s c client
    subst same
    refine plain.put held here queue clients borrowed (fun _ => rfl) fun owns => ?_
    dsimp only at owns
    rw [place] at owns
    exact owns
  | failing c =>
    rw [spot] at ran held
    obtain ⟨client,here,rest⟩ := Option.bind_eq_some_iff.mp ran
    split at rest
    · cases rest
    obtain ⟨queue,borrowed,clients⟩ := releaseClient_fields s c client
    cases rest
    exact plain.put held here queue clients borrowed (fun _ => rfl) fun _ => trivial
  | freeing c =>
    rw [spot] at ran held
    obtain ⟨client,here,same⟩ := Option.map_eq_some_iff.mp ran
    obtain ⟨_,_,found,auth,_⟩ := id held
    rw [here] at found
    cases found
    subst same
    exact plain.put held here rfl rfl rfl (fun _ => auth) fun _ => trivial
  | hooked | releasing =>
    rw [spot] at held
    exact absurd held id
  | ended =>
    rw [spot] at ran
    cases ran

theorem destroy_plain {s : Auth} {c : Nat} (plain : Plain s) (here : s.clients[c]? = some client)
    (out : client.place = .out) (auth : client.auth = false) :
    Plain {s with clients := s.clients.set c {client with authenticated := false,place := .freed}} where
  borrowed := plain.borrowed
  queue := by
    intro e within
    obtain ⟨d,other,same,found,isAuth,isPlace⟩ := plain.queue e within
    refine ⟨d,other,same,find_set here found ?_,isAuth,isPlace⟩
    rintro rfl
    rw [out] at isPlace
    cases isPlace
  nodup := plain.nodup
  held := plain.held.move rfl fun d auth' place' busy owns => owns.frame rfl fun other found isAuth isPlace => by
    apply find_set here found
    rintro rfl
    rcases busy with up | queued
    · rw [auth,up] at isAuth
      cases isAuth
    · rw [out,queued] at isPlace
      cases isPlace
  freed := by
    intro other within freed
    rcases List.mem_or_eq_of_mem_set within with old | same
    · exact plain.freed other old freed
    · rw [same]
      exact auth

theorem add_plain (plain : Plain s) : Plain {s with clients := s.clients++[⟨false,false,.out⟩]} := by
  have kept : ∀ {d other}, s.clients[d]? = some other → (s.clients++[⟨false,false,.out⟩])[d]? = some other :=
    fun found => by
    rw [List.getElem?_append_left (List.getElem?_eq_some_iff.mp found).1]
    exact found
  refine ⟨plain.borrowed,fun e within => ?_,plain.nodup,plain.held.move rfl fun d _ _ _ owns =>
    owns.frame rfl fun _ found _ _ => kept found,?_⟩
  · obtain ⟨d,other,same,found,rest⟩ := plain.queue e within
    exact ⟨d,other,same,kept found,rest⟩
  · intro client within freed
    rcases List.mem_append.mp within with old | new
    · exact plain.freed client old freed
    · rw [List.mem_singleton.mp new] at freed
      cases freed

theorem queue_plain (plain : Plain s) :
    Plain (queueMount s [⟨true,false,.queued⟩] (.newListener s.clients.length)) := by
  have kept : ∀ {d other}, s.clients[d]? = some other → (s.clients++[⟨true,false,.queued⟩])[d]? = some other :=
    fun found => by
    rw [List.getElem?_append_left (List.getElem?_eq_some_iff.mp found).1]
    exact found
  have fresh : .newListener s.clients.length ∉ s.queue := fun within => by
    obtain ⟨d,other,same,found,_⟩ := plain.queue _ within
    cases same
    exact absurd (List.getElem?_eq_some_iff.mp found).1 (Nat.lt_irrefl _)
  refine ⟨plain.borrowed,fun e within => ?_,?_,plain.held.move rfl fun d _ _ _ owns => ?_,?_⟩
  · rcases List.mem_append.mp within with old | new
    · obtain ⟨d,other,same,found,rest⟩ := plain.queue e old
      exact ⟨d,other,same,kept found,rest⟩
    · exact ⟨s.clients.length,⟨true,false,.queued⟩,List.mem_singleton.mp new,by simp [queueMount],rfl,rfl⟩
  · exact List.nodup_append.mpr ⟨plain.nodup,List.nodup_singleton _,fun _ old _ new => fun same => fresh (by
      rw [List.mem_singleton.mp new] at same
      exact same ▸ old)⟩
  · obtain ⟨apart,other,found,rest⟩ := owns
    refine ⟨fun within => ?_,other,kept found,rest⟩
    rcases List.mem_append.mp within with old | new
    · exact apart old
    · cases List.mem_singleton.mp new
      exact absurd (List.getElem?_eq_some_iff.mp found).1 (Nat.lt_irrefl _)
  · intro client within freed
    rcases List.mem_append.mp within with old | new
    · exact plain.freed client old freed
    · rw [List.mem_singleton.mp new] at freed
      cases freed

theorem step_plain (plain : Plain s) (step : Step htpasswd s event t) (fair : Fair s event) : Plain t := by
  cases event with
  | addListener =>
    simp only [Step,next] at step
    split at step
    · cases step
    · split at step <;> cases step
      · exact add_plain plain
      · exact queue_plain plain
  | streamAuthenticate | streamStart | streamEnd | borrow => simp [Step,next,htpasswd] at step
  | destroy c =>
    obtain ⟨client,here,rest⟩ := Option.bind_eq_some_iff.mp step
    split at rest
    · rename_i out
      cases rest
      rw [clientDestroy,if_neg (by simp [htpasswd])]
      exact destroy_plain plain here out (fair client here)
    · cases rest
  | clearMount =>
    simp only [Step,next] at step
    split at step
    · cases step
      exact plain.same authRelease_queue authRelease_clients (authRelease_borrowed.trans plain.borrowed)
        (plain.held.move authRelease_thread fun d _ _ _ owns => owns.frame authRelease_queue fun _ found _ _ => by
          rw [show ({authRelease false s with mount := false} : Auth).clients = s.clients from authRelease_clients]
          exact found)
    · cases step
  | giveBack =>
    simp only [Step,next,plain.borrowed] at step
    cases step
  | joined =>
    simp only [Step,next] at step
    split at step
    · cases step
      exact plain.same rfl rfl plain.borrowed (plain.held.move rfl fun _ _ _ _ owns => owns)
    · cases step
  | thread outcome => exact thread_plain plain step

theorem countP_split (clients : List Client) : clients.countP (·.auth) =
    (clients.countP fun client => client.auth && client.place ≠ .freed)+clients.countP fun client =>
    client.auth && client.place = .freed := by
  induction clients with
  | nil => rfl
  | cons client clients ih =>
    simp only [List.countP_cons,ih]
    cases client.auth <;> by_cases freed : client.place = .freed <;> simp [freed] <;> omega

theorem Plain.holders (plain : Plain s) : Authenticator.holders s = s.mount.toNat+s.clients.countP (·.auth) := by
  have bare : s.queue.countP (·.bare) = 0 := by
    refine List.countP_eq_zero.mpr fun e within => ?_
    obtain ⟨c,_,same,_⟩ := plain.queue e within
    rw [same]
    exact Bool.false_ne_true
  have held : s.thread.held = 0 := by
    have held := plain.held
    unfold Held at held
    split at held <;> rename_i spot
    · rw [spot]
      rfl
    · rw [spot]
      rfl
    · rw [spot]
      rfl
    · rw [spot]
      rfl
    · rw [spot]
      rfl
    · rw [spot]
      rfl
    · exact absurd held id
  rw [Authenticator.holders,plain.borrowed,bare,held]
  rfl

theorem Plain.exact (plain : Plain s) (inv : Inv s) : Exact s := by
  have lost : (s.clients.countP fun client => client.auth && client.place = .freed) = 0 := by
    refine List.countP_eq_zero.mpr fun client within both => ?_
    simp only [Bool.and_eq_true,decide_eq_true_eq] at both
    rw [plain.freed client within both.2] at both
    exact absurd both.1 Bool.false_ne_true
  have count := inv.count
  have all := countP_split s.clients
  have alive := inv.life
  rw [plain.holders] at count alive
  refine ⟨⟨plain.nodup,plain.queue⟩,by omega,?_,fun dead client within _ => ?_⟩
  · rw [Ne,alive]
    omega
  · have absent : s.clients.countP (·.auth) = 0 := by
      rw [Ne,alive] at dead
      omega
    exact eq_false_of_ne_true (List.countP_eq_zero.mp absent client within)

structure Tracked (s : Auth) : Prop extends Inv s where
  plain : Plain s

theorem step_exact (tracked : Tracked s) (step : Step htpasswd s event t) : Exact t ↔ Fair s event := by
  constructor
  · intro equal
    cases event with
    | destroy c =>
      intro client here
      by_contra auth
      obtain ⟨client',here',rest⟩ := Option.bind_eq_some_iff.mp step
      rw [here] at here'
      cases here'
      split at rest
      · cases rest
        rename_i out
        have up : client.auth = true := by simpa using auth
        have count := equal.count
        rw [clientDestroy,if_neg (by simp [htpasswd])] at count
        have old := tracked.count
        rw [tracked.plain.holders,countP_split] at old
        have live := countP_set (fun client : Client => client.auth && client.place ≠ .freed) here
          {client with authenticated := false,place := .freed}
        have before : (client.auth && decide (client.place ≠ .freed)) = true := by simp [up,out]
        have after : (client.auth && decide (Place.freed ≠ .freed)) = false := by simp
        dsimp only at live count
        rw [before,after] at live
        simp only [if_true,Bool.false_eq_true,if_false] at live
        omega
      · cases rest
    | _ => trivial
  · exact fun fair => (step_plain tracked.plain step fair).exact (step_inv tracked.toInv step)

-- The references of an htpasswd authenticator are exact up to the first client that is destroyed
-- with client->auth still set.
theorem runs_exact (run : Runs (fun s event t => Step htpasswd s event t ∧ Fair s event) start events s) :
    Exact s ∧ ∀ event t, Step htpasswd s event t → (Exact t ↔ Fair s event) := by
  have tracked : Tracked s := run.preserves
    (fun old last => ⟨step_inv old.toInv last.1,step_plain old.plain last.1 last.2⟩) ⟨start_inv,start_plain⟩
  exact ⟨tracked.plain.exact tracked.toInv,fun _ _ step => step_exact tracked step⟩

-- A refused listener leaves, an accepted one keeps the authenticator over a reload.
def acceptedRefused : List Event :=
  [.addListener,.addListener,.thread .refused,.thread .refused,.thread .refused,.thread .refused,
    .thread .accepted,.thread .accepted,.destroy 0,
   .clearMount]

theorem runs_exact_reloaded : ∃ s, Runs (Step htpasswd) start acceptedRefused s ∧ s.refcount = 1 ∧
    s.life = .alive ∧ Exact s := by
  have ran : (runFrom (guarded Fair (next htpasswd)) start acceptedRefused).map (fun s => (s.refcount,s.life)) = some (1,.alive) := by decide +kernel
  obtain ⟨s,ran,values⟩ := Option.map_eq_some_iff.mp ran
  have fair := runFrom_sound guarded_sound ran
  exact ⟨s,fair.imp fun step => step.1,congrArg (·.1) values,congrArg (·.2) values,(runs_exact fair).1⟩

-- An accepted listener leaves its source, and the mount is released: nobody is left to free the authenticator.
theorem reference_leaked :
    ∃ s, Runs (Step htpasswd) start [.addListener,.thread .accepted,.thread .accepted,.destroy 0,.clearMount] s ∧
    s.refcount = 1 ∧ s.mount = false ∧ s.queue = [] ∧ (∀ client ∈ s.clients, client.place = .freed) ∧ ¬Exact s := by
  have ran : (runFrom (next htpasswd) start [.addListener,.thread .accepted,.thread .accepted,.destroy 0,.clearMount]).map
      (fun s => (s.refcount,s.mount,s.queue,s.clients)) = some (1,false,[],[⟨true,false,.freed⟩]) := by decide +kernel
  obtain ⟨s,ran,values⟩ := Option.map_eq_some_iff.mp ran
  have refcount : s.refcount = 1 := congrArg (·.1) values
  have mount : s.mount = false := congrArg (·.2.1) values
  have clients : s.clients = [⟨true,false,.freed⟩] := congrArg (·.2.2.2) values
  refine ⟨s,runFrom_sound (fun step => step) ran,refcount,mount,congrArg (·.2.2.1) values,
    fun client within => ?_,fun equal => ?_⟩
  · rw [clients] at within
    rw [List.mem_singleton.mp within]
  · have count := equal.count
    rw [refcount,mount,clients] at count
    exact absurd count (by decide)

end Icecast.Authenticator
