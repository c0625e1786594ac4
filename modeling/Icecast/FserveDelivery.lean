import Mathlib.Data.List.Nodup
import Mathlib.Data.List.Perm.Basic
import Icecast.Lib.Transition

namespace Icecast.FserveDelivery
open Transition

def BUFSIZE : Nat := 4096

-- fserve_t with its client: the chain at client->refbuf as the first buffer and the rest, what is
-- left of the file from its offset, and con->error.
structure Fserve where
  id : Nat
  refbuf : List UInt8
  next : List (List UInt8)
  pos : Nat
  within : pos ≤ refbuf.length
  file : Option (List UInt8)
  callback : Bool
  ready : Bool
  error : Bool
deriving DecidableEq

-- What con->send answers: some bytes taken, or a failure that sock_recoverable forgives or not.
inductive Reply where
  | took (n : Nat)
  | failed (fatal : Bool)
deriving DecidableEq

theorem nothing_sent (refbuf : List UInt8) : 0 ≤ refbuf.length := Nat.zero_le _

-- "Grab a new chunk": none where neither the file nor the chain has more.
def grab (e : Fserve) : Option Fserve :=
  if e.pos = e.refbuf.length then
    let bytes := (e.file.getD []).take BUFSIZE
    if bytes = [] then
      match e.next with
      | [] => none
      | refbuf::rest => some {e with refbuf := refbuf,next := rest,pos := 0,within := Nat.zero_le _}
    else some {e with refbuf := bytes,pos := 0,within := Nat.zero_le _,file := e.file.map (·.drop BUFSIZE)}
  else some e

theorem advance_within (e : Fserve) (n : Nat) : e.pos+min n (e.refbuf.length-e.pos) ≤ e.refbuf.length := by
  have within := e.within
  omega

-- format_generic_write_to_client: the bytes the client receives, and the entry after it.
def formatGenericWriteToClient (e : Fserve) : Reply → List UInt8 × Fserve
  | .took n =>
    let ret := min n (e.refbuf.length-e.pos)
    ((e.refbuf.drop e.pos).take ret,{e with pos := e.pos+ret,within := advance_within e n})
  | .failed fatal => ([],{e with error := e.error || fatal})

-- How an entry leaves the active list: to its callback or to client_destroy, after an error or not.
structure Handed where
  id : Nat
  callback : Bool
  error : Bool
deriving DecidableEq

def fserveClientDestroy (e : Fserve) : Handed := ⟨e.id,e.callback,e.error⟩

-- One ready client in the loop of fserv_thread_function.
def serve (reply : Reply) (e : Fserve) : List UInt8 × (Handed ⊕ Fserve) :=
  match grab {e with ready := false} with
  | none => ([],.inl (fserveClientDestroy e))
  | some e =>
    let wrote := formatGenericWriteToClient e reply
    (wrote.1,if wrote.2.error then .inl (fserveClientDestroy wrote.2) else .inr wrote.2)

-- The lists of fserve.c. While the thread walks the active list, `before` is what trail has passed.
-- `added`, `log` and `handed` record what was handed in, received and handed out.
structure State where
  pending : List Fserve
  before : List Fserve
  after : List Fserve
  clients : Nat
  walking : Bool
  added : List Fserve
  log : List (Nat × List UInt8)
  handed : List Handed
deriving DecidableEq

def State.active (s : State) : List Fserve := s.before++s.after

def idle : State := ⟨[],[],[],0,false,[],[],[]⟩

-- fserve_add_pending by any thread, and what the file serving thread does: wait_for_fds moves the
-- pending list over, poll marks clients ready, the loop looks at one client, and ends.
inductive Event where
  | add (e : Fserve)
  | take
  | poll (ready : List Nat)
  | walk
  | visit (reply : Reply)
  | rest
deriving DecidableEq

def mark (ready : List Nat) (e : Fserve) : Fserve := {e with ready := e.ready || decide (e.id ∈ ready)}

def next (s : State) : Event → Option State
  | .add e => if e.id ∈ s.added.map Fserve.id then none else some {s with pending := e::s.pending,added := e::s.added}
  | .take =>
    if s.walking then none
    else some {s with pending := [],after := s.pending.reverse++s.after,clients := s.clients+s.pending.length}
  | .poll ready => if s.walking then none else some {s with after := s.after.map (mark ready)}
  | .walk => if s.walking then none else some {s with walking := true}
  | .visit reply =>
    match s.walking,s.after with
    | true,e::after =>
      if e.ready then
        let served := serve reply e
        let log := s.log++[(e.id,served.1)]
        match served.2 with
        | .inl handed => some {s with after := after,clients := s.clients-1,log := log,handed := s.handed++[handed]}
        | .inr e => some {s with before := s.before++[e],after := after,log := log}
      else some {s with before := s.before++[e],after := after}
    | _,_ => none
  | .rest => if s.walking ∧ s.after = [] then some {s with before := [],after := s.before,walking := false} else none

def Step (s : State) (event : Event) (t : State) : Prop := next s event = some t

def received (s : State) (id : Nat) : List UInt8 := (s.log.filter fun chunk => chunk.1 = id).flatMap Prod.snd

-- What an entry has still to send, all of it for one that was just handed in.
def left (e : Fserve) : List UInt8 := e.refbuf.drop e.pos++e.file.getD []++e.next.flatten

theorem grab_left (e : Fserve) : match grab e with
    | none => left e = []
    | some f => left f = left e ∧ f.id = e.id ∧ f.callback = e.callback ∧ f.error = e.error := by
  unfold grab
  by_cases done : e.pos = e.refbuf.length
  · have sent : e.refbuf.drop e.pos = [] := by simp [done]
    simp only [if_pos done]
    by_cases empty : (e.file.getD []).take BUFSIZE = []
    · have file : e.file.getD [] = [] := by simpa [BUFSIZE] using empty
      rw [if_pos empty]
      cases chain : e.next with
      | nil => simp [left,sent,file,chain]
      | cons refbuf rest => simp [left,sent,file,chain]
    · rw [if_neg empty]
      refine ⟨?_,rfl,rfl,rfl⟩
      have file : (e.file.getD []).take BUFSIZE++(e.file.map (·.drop BUFSIZE)).getD [] = e.file.getD [] := by
        cases e.file with
        | none => rfl
        | some bytes => exact List.take_append_drop BUFSIZE bytes
      simp only [left,List.drop_zero,sent,List.nil_append]
      rw [file]
  · simp [if_neg done]

theorem write_left (reply : Reply) (e : Fserve) :
    (formatGenericWriteToClient e reply).1++left (formatGenericWriteToClient e reply).2 = left e ∧
      (formatGenericWriteToClient e reply).2.id = e.id ∧
      (formatGenericWriteToClient e reply).2.callback = e.callback := by
  cases reply with
  | failed fatal => simp [formatGenericWriteToClient,left]
  | took n =>
    refine ⟨?_,rfl,rfl⟩
    simp only [formatGenericWriteToClient,left,←List.append_assoc]
    rw [←List.drop_drop,List.take_append_drop]

theorem serve_spec (reply : Reply) (e : Fserve) : match (serve reply e).2 with
    | .inl h => h.id = e.id ∧ h.callback = e.callback ∧
    ∃ lost, (serve reply e).1++lost = left e ∧ (h.error = true ∨ lost = [])
    | .inr f => f.id = e.id ∧ f.callback = e.callback ∧ (serve reply e).1++left f = left e ∧ f.error = false := by
  have chunk := grab_left {e with ready := false}
  have whole : left {e with ready := false} = left e := rfl
  unfold serve
  cases got : grab {e with ready := false} with
  | none =>
    rw [got] at chunk
    exact ⟨rfl,rfl,[],(whole.symm.trans chunk).symm,.inr rfl⟩
  | some f =>
    rw [got] at chunk
    obtain ⟨same,id,callback,_⟩ := chunk
    obtain ⟨sent,id',callback'⟩ := write_left reply f
    have split : (formatGenericWriteToClient f reply).1++left (formatGenericWriteToClient f reply).2 = left e := by
      rw [sent,same,whole]
    dsimp only
    cases failed : (formatGenericWriteToClient f reply).2.error with
    | true =>
      simp only [if_true]
      exact ⟨id'.trans id,callback'.trans callback,_,split,.inl failed⟩
    | false =>
      simp only [Bool.false_eq_true,if_false]
      exact ⟨id'.trans id,callback'.trans callback,split,failed⟩

-- Ready visits one after another: an entry that has sent everything is gone after as many as it
-- has buffers.
def visits : List Reply → Fserve → Option Fserve
  | [],e => some e
  | reply::replies,e => match (serve reply e).2 with
    | .inl _ => none
    | .inr e => visits replies e

theorem serve_shorter (sent : left e = []) (kept : (serve reply e).2 = .inr f) : left f = [] ∧
    f.next.length < e.next.length := by
  have spec := serve_spec reply e
  rw [kept] at spec
  have rest : left f = [] := by
    have whole := spec.2.2.1
    rw [sent] at whole
    exact (List.append_eq_nil_iff.mp whole).2
  refine ⟨rest,?_⟩
  unfold left at sent
  obtain ⟨first,chain⟩ := List.append_eq_nil_iff.mp sent
  obtain ⟨first,file⟩ := List.append_eq_nil_iff.mp first
  have done : e.pos = e.refbuf.length := Nat.le_antisymm e.within (List.drop_eq_nil_iff.mp first)
  have absent : (e.file.getD []).take BUFSIZE = [] := by rw [file,List.take_nil]
  unfold serve grab at kept
  simp only [if_pos done,if_pos absent] at kept
  cases links : e.next with
  | nil =>
    simp only [links] at kept
    cases kept
  | cons refbuf more =>
    simp only [links] at kept
    split at kept
    · cases kept
    · cases reply with
      | took n =>
        cases kept
        exact Nat.lt_succ_self _
      | failed fatal =>
        cases kept
        exact Nat.lt_succ_self _

theorem visits_end (replies : List Reply) (e : Fserve) (sent : left e = []) (enough : e.next.length < replies.length) :
    visits replies e = none := by
  induction replies generalizing e with
  | nil => cases enough
  | cons reply replies ih =>
    unfold visits
    cases kept : (serve reply e).2 with
    | inl h => rfl
    | inr f =>
      obtain ⟨rest,shorter⟩ := serve_shorter sent kept
      rw [List.length_cons] at enough
      exact ih f rest (by omega)

def State.held (s : State) : List Fserve := s.pending++s.active

-- An entry on a list comes from one that was handed in, and has sent what it has not left; one whose
-- connection failed was handed in so and not served yet.
def Serves (s : State) (e : Fserve) : Prop :=
  ∃ first ∈ s.added, e.id = first.id ∧ e.callback = first.callback ∧ received s e.id++left e = left first ∧
    (e.error = true → e = {first with ready := e.ready})

-- An entry that was handed out has sent everything, or its connection failed.
def Served (s : State) (h : Handed) : Prop :=
  ∃ first ∈ s.added, h.id = first.id ∧ h.callback = first.callback ∧
    ∃ lost, received s h.id++lost = left first ∧ (h.error = true ∨ lost = [])

structure Inv (s : State) : Prop where
  nodup : (s.added.map Fserve.id).Nodup
  places : (s.held.map Fserve.id++s.handed.map Handed.id).Perm (s.added.map Fserve.id)
  count : s.clients = s.active.length
  live : ∀ e ∈ s.held, Serves s e
  done : ∀ h ∈ s.handed, Served s h
  logged : ∀ chunk ∈ s.log, chunk.1 ∈ s.added.map Fserve.id

theorem received_append (s t : State) (log : t.log = s.log++[(k,out)]) (id : Nat) :
    received t id = received s id++if k = id then out else [] := by
  unfold received
  rw [log,List.filter_append,List.flatMap_append]
  by_cases same : k = id <;> simp [same]

theorem received_none (s : State) (id : Nat) (free : ∀ chunk ∈ s.log, chunk.1 ≠ id) : received s id = [] := by
  unfold received
  have nothing : (s.log.filter fun chunk => chunk.1 = id) = [] := List.filter_eq_nil_iff.mpr (by simpa using free)
  rw [nothing]
  rfl

theorem Inv.added (inv : Inv s) (e : Fserve) (fresh : e.id ∉ s.added.map Fserve.id) :
    Inv {s with pending := e::s.pending,added := e::s.added} where
  nodup := List.nodup_cons.mpr ⟨fresh,inv.nodup⟩
  places := inv.places.cons e.id
  count := inv.count
  live := by
    intro x member
    rcases List.mem_cons.mp member with rfl | member
    · have nothing := received_none s x.id fun chunk logged same => fresh (same ▸ inv.logged chunk logged)
      exact ⟨x,List.mem_cons_self,rfl,rfl,congrArg (·++left x) nothing,fun _ => rfl⟩
    · obtain ⟨first,mem,rest⟩ := inv.live x member
      exact ⟨first,List.mem_cons_of_mem _ mem,rest⟩
  done := by
    intro h member
    obtain ⟨first,mem,rest⟩ := inv.done h member
    exact ⟨first,List.mem_cons_of_mem _ mem,rest⟩
  logged := fun chunk member => List.mem_cons_of_mem _ (inv.logged chunk member)

theorem Inv.moved (inv : Inv s) (added : t.added = s.added) (log : t.log = s.log) (handed : t.handed = s.handed)
    (ids : (t.held.map Fserve.id).Perm (s.held.map Fserve.id))
    (held : ∀ e ∈ t.held, ∃ x ∈ s.held, e = {x with ready := e.ready})
    (count : t.clients = t.active.length) : Inv t := by
  have same : ∀ id, received t id = received s id := by
    intro id
    unfold received
    rw [log]
  refine ⟨added ▸ inv.nodup,?_,count,?_,?_,?_⟩
  · rw [added,handed]
    exact (ids.append_right _).trans inv.places
  · intro e member
    obtain ⟨x,xmem,marked⟩ := held e member
    obtain ⟨first,mem,id,callback,whole,failed⟩ := inv.live x xmem
    rw [marked]
    refine ⟨first,added ▸ mem,id,callback,?_,?_⟩
    · rw [same]
      exact whole
    · intro bad
      rw [failed bad]
  · intro h member
    obtain ⟨first,mem,id,callback,lost,whole,reason⟩ := inv.done h (handed ▸ member)
    refine ⟨first,added ▸ mem,id,callback,lost,?_,reason⟩
    rw [same]
    exact whole
  · rw [log,added]
    exact inv.logged

theorem Inv.permuted (inv : Inv s) (added : t.added = s.added) (log : t.log = s.log) (handed : t.handed = s.handed)
    (held : t.held.Perm s.held) (count : t.clients = t.active.length) : Inv t :=
  inv.moved added log handed (held.map _) (fun e member => ⟨e,held.mem_iff.mp member,rfl⟩) count

-- The entry that is served, and those that are not: the others keep what they have received.
structure Picked (s : State) (e : Fserve) (others : List Fserve) : Prop where
  serves : Serves s e
  rest : ∀ x ∈ others, Serves s x ∧ x.id ≠ e.id
  handed : ∀ h ∈ s.handed, h.id ≠ e.id
  places : (e.id::(others.map Fserve.id++s.handed.map Handed.id)).Perm (s.added.map Fserve.id)

theorem Inv.picked (inv : Inv s) (split : s.held.Perm (e::others)) : Picked s e others := by
  have places : (e.id::(others.map Fserve.id++s.handed.map Handed.id)).Perm (s.added.map Fserve.id) :=
    ((split.map Fserve.id).symm.append_right _).trans inv.places
  have apart := (List.nodup_cons.mp (places.nodup_iff.mpr inv.nodup)).1
  refine ⟨inv.live e (split.mem_iff.mpr List.mem_cons_self),?_,?_,places⟩
  · intro x member
    refine ⟨inv.live x (split.mem_iff.mpr (List.mem_cons_of_mem _ member)),?_⟩
    intro same
    exact apart (List.mem_append_left _ (List.mem_map.mpr ⟨x,member,same⟩))
  · intro h member same
    exact apart (List.mem_append_right _ (List.mem_map.mpr ⟨h,member,same⟩))

theorem Serves.other (serves : Serves s x) (apart : x.id ≠ k) (added : t.added = s.added)
    (log : t.log = s.log++[(k,out)]) :
    Serves t x := by
  obtain ⟨first,mem,id,callback,whole,failed⟩ := serves
  refine ⟨first,added ▸ mem,id,callback,?_,failed⟩
  rw [received_append s t log,if_neg (Ne.symm apart),List.append_nil]
  exact whole

theorem Served.other (served : Served s h) (apart : h.id ≠ k) (added : t.added = s.added)
    (log : t.log = s.log++[(k,out)]) :
    Served t h := by
  obtain ⟨first,mem,id,callback,lost,whole,reason⟩ := served
  refine ⟨first,added ▸ mem,id,callback,lost,?_,reason⟩
  rw [received_append s t log,if_neg (Ne.symm apart),List.append_nil]
  exact whole

theorem logged_append {t : State} (inv : Inv s) (serves : Serves s e) (added : t.added = s.added)
    (log : t.log = s.log++[(e.id,out)]) :
    ∀ chunk ∈ t.log, chunk.1 ∈ t.added.map Fserve.id := by
  rw [log,added]
  intro chunk member
  rcases List.mem_append.mp member with member | member
  · exact inv.logged chunk member
  · cases List.mem_singleton.mp member
    obtain ⟨first,mem,id,_⟩ := serves
    exact id ▸ List.mem_map.mpr ⟨first,mem,rfl⟩

theorem Inv.kept (inv : Inv s) (split : s.held.Perm (e::others)) (served : (serve reply e).2 = .inr f)
    (added : t.added = s.added)
    (log : t.log = s.log++[(e.id,(serve reply e).1)]) (handed : t.handed = s.handed) (held : t.held.Perm (f::others))
    (count : t.clients = t.active.length) : Inv t := by
  have picked := inv.picked split
  have spec := serve_spec reply e
  rw [served] at spec
  obtain ⟨sameId,sameCallback,sent,fine⟩ := spec
  refine ⟨added ▸ inv.nodup,?_,count,?_,?_,logged_append inv picked.serves added log⟩
  · rw [added,handed]
    apply ((held.map Fserve.id).append_right _).trans
    rw [List.map_cons,sameId]
    exact picked.places
  · intro x member
    rcases List.mem_cons.mp (held.mem_iff.mp member) with rfl | member
    · obtain ⟨first,mem,id,callback,whole,_⟩ := picked.serves
      refine ⟨first,added ▸ mem,sameId.trans id,sameCallback.trans callback,?_,
        fun bad => by rw [fine] at bad; cases bad⟩
      rw [received_append s t log,if_pos sameId.symm,List.append_assoc,sent,sameId]
      exact whole
    · obtain ⟨serves,apart⟩ := picked.rest x member
      exact serves.other apart added log
  · rw [handed]
    intro h member
    exact (inv.done h member).other (picked.handed h member) added log

theorem Inv.gone (inv : Inv s) (split : s.held.Perm (e::others)) (served : (serve reply e).2 = .inl h)
    (added : t.added = s.added)
    (log : t.log = s.log++[(e.id,(serve reply e).1)]) (handed : t.handed = s.handed++[h]) (held : t.held.Perm others)
    (count : t.clients = t.active.length) : Inv t := by
  have picked := inv.picked split
  have spec := serve_spec reply e
  rw [served] at spec
  obtain ⟨sameId,sameCallback,lost,sent,reason⟩ := spec
  refine ⟨added ▸ inv.nodup,?_,count,?_,?_,logged_append inv picked.serves added log⟩
  · rw [added,handed,List.map_append,List.map_singleton,sameId]
    apply ((held.map Fserve.id).append_right _).trans
    rw [←List.append_assoc]
    exact (List.perm_append_singleton _ _).trans picked.places
  · intro x member
    obtain ⟨serves,apart⟩ := picked.rest x (held.mem_iff.mp member)
    exact serves.other apart added log
  · rw [handed]
    intro g member
    rcases List.mem_append.mp member with member | member
    · exact (inv.done g member).other (picked.handed g member) added log
    · cases List.mem_singleton.mp member
      obtain ⟨first,mem,id,callback,whole,_⟩ := picked.serves
      refine ⟨first,added ▸ mem,sameId.trans id,sameCallback.trans callback,lost,?_,reason⟩
      rw [received_append s t log,if_pos sameId.symm,List.append_assoc,sent,sameId]
      exact whole

theorem middle (pending before after : List Fserve) (e : Fserve) :
    (pending++(before++e::after)).Perm (e::(pending++(before++after))) :=
  (List.perm_middle.append_left pending).trans List.perm_middle

theorem Inv.step (inv : Inv s) (step : Step s event t) : Inv t := by
  unfold Step next at step
  cases event with
  | add e =>
    simp only at step
    split at step
    · cases step
    · cases step
      rename_i fresh
      exact inv.added e fresh
  | take =>
    simp only at step
    split at step
    · cases step
    · cases step
      refine inv.permuted rfl rfl rfl ?_ ?_
      · simp only [State.held,State.active,List.nil_append]
        rw [←List.append_assoc,←List.append_assoc]
        exact (List.perm_append_comm.trans ((List.reverse_perm _).append_right _)).append_right _
      · have count := inv.count
        simp only [State.active,List.length_append,List.length_reverse] at count ⊢
        omega
  | poll ready =>
    simp only at step
    split at step
    · cases step
    · cases step
      refine inv.moved rfl rfl rfl ?_ ?_ ?_
      · simp only [State.held,State.active,List.map_append,List.map_map]
        exact .refl _
      · intro e member
        simp only [State.held,State.active,List.mem_append,List.mem_map] at member ⊢
        rcases member with pending | before | ⟨x,after,rfl⟩
        · exact ⟨e,.inl pending,rfl⟩
        · exact ⟨e,.inr (.inl before),rfl⟩
        · exact ⟨x,.inr (.inr after),rfl⟩
      · simpa [State.active] using inv.count
  | walk =>
    simp only at step
    split at step
    · cases step
    · cases step
      exact inv.permuted rfl rfl rfl (.refl _) inv.count
  | visit reply =>
    simp only at step
    split at step
    · rename_i e after _ list
      have split_ : s.held.Perm (e::(s.pending++(s.before++after))) := by
        unfold State.held State.active
        rw [list]
        exact middle _ _ _ _
      have count := inv.count
      rw [State.active,list] at count
      simp only [List.length_append,List.length_cons] at count
      split at step
      · split at step
        · rename_i served
          cases step
          refine inv.gone split_ served rfl rfl rfl (.refl _) ?_
          simp only [State.active,List.length_append]
          omega
        · rename_i f served
          cases step
          refine inv.kept split_ served rfl rfl rfl ?_ ?_
          · simp only [State.held,State.active,List.append_assoc,List.singleton_append]
            exact middle _ _ _ _
          · simp only [State.active,List.length_append,List.length_singleton]
            omega
      · cases step
        refine inv.permuted rfl rfl rfl ?_ ?_
        · simp [State.held,State.active,list]
        · simp only [State.active,List.length_append,List.length_singleton]
          omega
    · cases step
  | rest =>
    simp only at step
    split at step
    · rename_i done
      cases step
      refine inv.permuted rfl rfl rfl ?_ ?_
      · simp [State.held,State.active,done.2]
      · simpa [State.active,done.2] using inv.count
    · cases step

theorem idle_inv : Inv idle :=
    ⟨List.nodup_nil,.refl _,rfl,by simp [State.held,State.active,idle],by simp [idle],by simp [idle]⟩

theorem run_inv (run : Runs Step idle labels s) : Inv s := run.preserves Inv.step idle_inv

theorem active_stays (step : Step s event t) (member : e ∈ s.active) :
    e.id ∈ t.active.map Fserve.id ∨ ∃ h ∈ t.handed, h.id = e.id := by
  have here : e.id ∈ s.active.map Fserve.id := List.mem_map.mpr ⟨e,member,rfl⟩
  unfold Step next at step
  cases event with
  | add x =>
    simp only at step
    split at step
    · cases step
    · cases step
      exact .inl here
  | take =>
    simp only at step
    split at step
    · cases step
    · cases step
      left
      simp only [State.active,List.map_append,List.mem_append] at here ⊢
      rcases here with before | after
      · exact .inl before
      · exact .inr (.inr after)
  | poll ready =>
    simp only at step
    split at step
    · cases step
    · cases step
      left
      simp only [State.active,List.map_append,List.map_map] at here ⊢
      exact here
  | walk =>
    simp only at step
    split at step
    · cases step
    · cases step
      exact .inl here
  | visit reply =>
    simp only at step
    split at step
    · rename_i x after _ list
      simp only [State.active,list,List.map_append,List.map_cons,List.mem_append,List.mem_cons] at here
      split at step
      · have spec := serve_spec reply x
        split at step
        · rename_i h served
          cases step
          rw [served] at spec
          rcases here with before | same | later
          · exact .inl (by simp only [State.active,List.map_append,List.mem_append]; exact .inl before)
          · exact .inr ⟨h,List.mem_append_right _ List.mem_cons_self,spec.1.trans same.symm⟩
          · exact .inl (by simp only [State.active,List.map_append,List.mem_append]; exact .inr later)
        · rename_i f served
          cases step
          rw [served] at spec
          left
          simp only [State.active,List.map_append,List.map_singleton,List.mem_append,List.mem_singleton]
          rcases here with before | same | later
          · exact .inl (.inl before)
          · exact .inl (.inr (same.trans spec.1.symm))
          · exact .inr later
      · cases step
        left
        simp only [State.active,List.map_append,List.map_singleton,List.mem_append,List.mem_singleton]
        rcases here with before | same | later
        · exact .inl (.inl before)
        · exact .inl (.inr same)
        · exact .inr later
    · cases step
  | rest =>
    simp only at step
    split at step
    · rename_i done
      cases step
      left
      simpa [State.active,done.2] using here
    · cases step

theorem Inv.once (inv : Inv s) (member : e ∈ s.added) :
    s.held.countP (fun x => x.id = e.id)+s.handed.countP (fun h => h.id = e.id) = 1 := by
  have counted := inv.places.countP_eq (fun id => decide (id = e.id))
  rw [List.countP_append,List.countP_map,List.countP_map] at counted
  have one : (s.added.map Fserve.id).count e.id = 1 :=
    List.count_eq_one_of_mem inv.nodup (List.mem_map.mpr ⟨e,member,rfl⟩)
  have single : (s.added.map Fserve.id).countP (fun id => decide (id = e.id)) = 1 := by
    rw [←one,List.count]
    rfl
  rw [single] at counted
  exact counted

theorem Inv.received_part (inv : Inv s) (member : e ∈ s.added) : received s e.id <+: left e := by
  have listed := inv.places.mem_iff.mpr (List.mem_map.mpr ⟨e,member,rfl⟩)
  rcases List.mem_append.mp listed with held | handed
  · obtain ⟨x,xmem,same⟩ := List.mem_map.mp held
    obtain ⟨first,mem,id,_,whole,_⟩ := inv.live x xmem
    have it : first = e := List.inj_on_of_nodup_map inv.nodup mem member (id.symm.trans same)
    rw [←same,←it,←whole]
    exact List.prefix_append _ _
  · obtain ⟨h,hmem,same⟩ := List.mem_map.mp handed
    obtain ⟨first,mem,id,_,lost,whole,_⟩ := inv.done h hmem
    have it : first = e := List.inj_on_of_nodup_map inv.nodup mem member (id.symm.trans same)
    rw [←same,←it,←whole]
    exact List.prefix_append _ _

theorem Inv.sent (inv : Inv s) (member : e ∈ s.active) (first : Fserve) (mem : first ∈ s.added) (same : first.id = e.id)
    (all : received s e.id = left first) : left e = [] := by
  obtain ⟨other,otherMem,id,_,whole,_⟩ := inv.live e (List.mem_append_right _ member)
  have it : other = first := List.inj_on_of_nodup_map inv.nodup otherMem mem (id.symm.trans same.symm)
  rw [it,←all] at whole
  exact List.append_right_eq_self.mp whole

theorem fserve_delivers (run : Runs Step idle labels s) :
    (∀ e ∈ s.added, received s e.id <+: left e) ∧
    (∀ e ∈ s.added, s.held.countP (fun x => x.id = e.id)+s.handed.countP (fun h => h.id = e.id) = 1) ∧
    (∀ h ∈ s.handed, ∃ e ∈ s.added, h.id = e.id ∧
    h.callback = e.callback ∧ (h.error = true ∨ received s h.id = left e)) ∧
    (∀ e ∈ s.active, e.error = true → ∃ first ∈ s.added, e = {first with ready := e.ready}) ∧
    (∀ e ∈ s.active, (∃ first ∈ s.added, first.id = e.id ∧ received s e.id = left first) →
      ∀ replies : List Reply, e.next.length < replies.length → visits replies e = none) ∧
    (∀ event t, Step s event t → ∀ e ∈ s.active, e.id ∈ t.active.map Fserve.id ∨ ∃ h ∈ t.handed, h.id = e.id) ∧
    s.clients = s.active.length := by
  have inv := run_inv run
  refine ⟨fun e member => inv.received_part member,fun e member => inv.once member,?_,?_,?_,
    fun event t step e member => active_stays step member,inv.count⟩
  · intro h member
    obtain ⟨first,mem,id,callback,lost,whole,reason⟩ := inv.done h member
    refine ⟨first,mem,id,callback,reason.imp_right ?_⟩
    intro nothing
    rw [←whole,nothing,List.append_nil]
  · intro e member failed
    obtain ⟨first,mem,_,_,_,itself⟩ := inv.live e (List.mem_append_right _ member)
    exact ⟨first,mem,itself failed⟩
  · rintro e member ⟨first,mem,same,all⟩ replies enough
    exact visits_end replies e (inv.sent member first mem same all) enough

-- A file with a header before it and two buffers behind it, one of them empty.
def page : Fserve := ⟨7,[1,2],[[],[4]],0,Nat.zero_le _,some [3],true,false,false⟩

def served : List Event := [.add page,.take]++
  ([Reply.took 1,.took 1,.failed false,.took 1,.took 0,.took 5,.took 0].flatMap fun reply =>
    [.poll [7],.walk,.visit reply,.rest])

def emptied : State := ⟨[],[],[],0,false,[page],[(7,[1]),(7,[2]),(7,[]),(7,[3]),(7,[]),(7,[4]),(7,[])],[⟨7,true,false⟩]⟩

theorem served_emptied : Runs Step idle served emptied :=
  runFrom_sound id (by decide +kernel : runFrom next idle served = some emptied)

theorem fserve_delivers_page : received emptied 7 = [1,2,3,4] ∧ received emptied 7 <+: left page :=
  ⟨by decide,(fserve_delivers served_emptied).1 page List.mem_cons_self⟩

end Icecast.FserveDelivery
