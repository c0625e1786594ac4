import Icecast.Lib.Lists
import Icecast.Lib.Transition
import Mathlib.Logic.Function.Basic
import Mathlib.Data.List.Nodup

namespace Icecast.RelayThreads
open Lists Transition

-- _slave_mutex and the relay_lock of the configuration.
inductive Lock where
  | mutex
  | relay
deriving DecidableEq

inductive Owner where
  | slave
  | thread (i : Nat)
deriving DecidableEq

-- Where the thread of a relay is in start_relay_stream: `opening` is open_relay_connection with the
-- most of connection_complete_source, whose slave_rebuild_mounts is `announcing`, `playing` is
-- source_main, `updating` is slave_update_all_mounts, `rebuilding` slave_rebuild_mounts, and
-- `failing` to `leaving` the end of the function for a relay that failed.
inductive Pc where
  | opening
  | announcing
  | announced
  | playing
  | updating
  | updated
  | cleaning
  | rebuilding
  | rebuilt
  | failing
  | locking
  | marking
  | marked
  | leaving
  | exited
deriving DecidableEq

-- What a thread does next: something of its own, a lock, or relay->cleanup = 1.
inductive Act where
  | go (q : Pc)
  | clean (q : Pc)
  | lock (l : Lock) (q : Pc)
  | unlock (l : Lock) (q : Pc)
deriving DecidableEq

-- start_relay_stream. `choice` is whether the connection is made, and whether source_main goes on.
def program (on_demand choice : Bool) : Pc → Option Act
  | .opening => some (.go (if choice then .announcing else .failing))
  | .announcing => some (.lock .mutex .announced)
  | .announced => some (.unlock .mutex .playing)
  | .playing => some (.go (if choice then .playing else if on_demand then .cleaning else .updating))
  | .updating => some (.lock .mutex .updated)
  | .updated => some (.unlock .mutex .cleaning)
  | .cleaning => some (.clean .rebuilding)
  | .rebuilding => some (.lock .mutex .rebuilt)
  | .rebuilt => some (.unlock .mutex .exited)
  | .failing => some (.lock .mutex .locking)
  | .locking => some (.lock .relay .marking)
  | .marking => some (.clean .marked)
  | .marked => some (.unlock .relay .leaving)
  | .leaving => some (.unlock .mutex .exited)
  | .exited => none

-- The fields of relay_server that the threads go by, whether thread_create gave it a thread, where
-- that one is until it is joined, and how often one was created and joined.
structure Relay where
  on_demand : Bool
  source : Bool
  running : Bool
  cleanup : Bool
  thread : Bool
  freed : Bool
  pc : Option Pc
  created : Nat
  joined : Nat
deriving DecidableEq

-- relay_copy
def newRelay (on_demand : Bool) : Relay := ⟨on_demand,false,false,false,false,false,none,0,0⟩

-- The turns of the two loops of relay_check_streams.
inductive Job where
  | free (i : Nat)
  | check (i : Nat)
deriving DecidableEq

def Job.index : Job → Nat
  | .free i => i
  | .check i => i

-- The slave thread: between its rounds, in source_recheck_mounts, in relay_check_streams, in the
-- slave_update_all_mounts of a new on-demand relay, in thread_join, and at its end.
inductive Slave where
  | idle
  | settling
  | working (jobs : List Job)
  | reserved (i : Nat) (jobs : List Job)
  | telling (i : Nat) (jobs : List Job)
  | joining (i : Nat) (free : Bool) (jobs : List Job)
  | exited
deriving DecidableEq

-- `closing` is the shutdown, where relay_check_streams runs without the relay_lock.
structure State where
  relays : List Relay
  slave : Slave
  owner : Lock → Option Owner
  closing : Bool

def start : State := ⟨[],.idle,fun _ => none,false⟩

def State.put (s : State) (i : Nat) (r : Relay) : State := {s with relays := s.relays.set i r}

def State.give (s : State) (l : Lock) (o : Option Owner) : State := {s with owner := Function.update s.owner l o}

def State.to (s : State) (slave : Slave) : State := {s with slave := slave}

def threadStep (s : State) (i : Nat) (r : Relay) : Act → Option State
  | .go q => some (s.put i {r with pc := some q})
  | .clean q => some (s.put i {r with pc := some q,cleanup := true})
  | .lock l q => if s.owner l = none then some ((s.put i {r with pc := some q}).give l (some (.thread i))) else none
  | .unlock l q => some ((s.put i {r with pc := some q}).give l none)

-- check_relay_stream behind the reservation. `due` is whether the time has come and, for a relay on
-- demand, whether a listener asks for it. The fields are read at once: only the slave thread writes
-- `running`, and the relay's thread is done with the others once `cleanup` is set.
def checkStarted (s : State) (i : Nat) (r : Relay) (jobs : List Job) (due : Bool) : State :=
  if r.source = true ∧ r.running = false ∧ due = true then
    (s.put i {r with running := true,thread := true,pc := some .opening,created := r.created+1}).to (.working jobs)
  else if r.cleanup then
    if r.thread then s.to (.joining i false jobs)
    else (s.put i {r with cleanup := false,running := false}).to (.working jobs)
  else s.to (.working jobs)

-- A turn of relay_check_streams. `reserve` is whether source_reserve finds the name free.
def workStep (s : State) (reserve due : Bool) : List Job → Option State
  | [] => some (if s.closing then s.to .exited else (s.give .relay none).to .idle)
  | .free i::jobs => s.relays[i]?.map fun r =>
    if r.source = true ∧ r.running = true then (s.put i {r with running := false}).to (.joining i true jobs)
    else (s.put i {r with freed := true}).to (.working jobs)
  | .check i::jobs => s.relays[i]?.map fun r =>
    if r.source then checkStarted s i r jobs due
    else if reserve then
      if r.on_demand then (s.put i {r with source := true}).to (.reserved i jobs)
      else checkStarted (s.put i {r with source := true}) i {r with source := true} jobs due
    else s.to (.working jobs)

-- The end of a thread_join, and what follows it.
def joinStep (s : State) (i : Nat) (free : Bool) (jobs : List Job) : Option State :=
  s.relays[i]?.bind fun r =>
    if r.pc = some .exited then
      let r := {r with pc := none,joined := r.joined+1}
      some ((s.put i (if free then {r with freed := true} else {r with thread := false,cleanup := false,running := false})).to (.working jobs))
    else none

-- The relays that a list of jobs is about can be there once only, and not after relay_free.
def Known (relays : List Relay) (indices : List Nat) : Prop :=
  indices.Nodup ∧ ∀ i ∈ indices,∃ r,relays[i]? = some r ∧ r.freed = false

instance decideKnown (relays : List Relay) (indices : List Nat) : Decidable (Known relays indices) :=
  decidable_of_iff (indices.Nodup ∧ ∀ i ∈ indices,relays[i]?.any (!·.freed) = true) <| by
    simp only [Known,Option.any_eq_true,Bool.not_eq_true']

inductive Event where
  | settle
  | settled
  -- relays taken off the list and kept, and new ones
  | round (removed checked : List Nat) (added : List Bool)
  -- relay_has_changed, for a relay that is kept
  | demand (i : Nat) (on_demand : Bool)
  | work (reserve due : Bool)
  | shutdown (relays : List Nat)
  | thread (i : Nat) (choice : Bool)
deriving DecidableEq

def next (s : State) : Event → Option State
  | .settle => if s.slave = .idle ∧ s.owner .mutex = none then some ((s.give .mutex (some .slave)).to .settling) else none
  | .settled => if s.slave = .settling then some ((s.give .mutex none).to .idle) else none
  | .round removed checked added =>
    if s.slave = .idle ∧ s.closing = false ∧ s.owner .relay = none ∧
      Known (s.relays++added.map newRelay) (removed++checked) then
      some (({s with relays := s.relays++added.map newRelay}.give .relay (some .slave)).to
        (.working (removed.map Job.free++checked.map Job.check)))
    else none
  | .demand i on_demand =>
    if s.slave = .idle ∧ s.closing = false ∧ s.owner .relay = none then
      s.relays[i]?.bind fun r => if r.freed then none else some (s.put i {r with on_demand := on_demand})
    else none
  | .shutdown relays =>
    if s.slave = .idle ∧ Known s.relays relays then some
      ({s with closing := true}.to (.working (relays.map Job.free))) else none
  | .work reserve due => match s.slave with
    | .working jobs => workStep s reserve due jobs
    | .reserved i jobs => if s.owner .mutex = none then some
      ((s.give .mutex (some .slave)).to (.telling i jobs)) else none
    | .telling i jobs => s.relays[i]?.map fun r => checkStarted (s.give .mutex none) i r jobs due
    | .joining i free jobs => joinStep s i free jobs
    | _ => none
  | .thread i choice => s.relays[i]?.bind fun r =>
    r.pc.bind fun p => (program r.on_demand choice p).bind (threadStep s i r)

def Step (s : State) (e : Event) (t : State) : Prop := next s e = some t

-- The locks a thread has at a place.
def held : Pc → List Lock
  | .announced | .updated | .rebuilt | .locking | .leaving => [.mutex]
  | .marking | .marked => [.relay,.mutex]
  | _ => []

def Relay.held (r : Relay) : List Lock := (r.pc.map RelayThreads.held).getD []

def Slave.held (closing : Bool) : Slave → List Lock
  | .settling => [.mutex]
  | .telling .. => if closing then [.mutex] else [.mutex,.relay]
  | .working .. | .reserved .. | .joining .. => if closing then [] else [.relay]
  | .idle | .exited => []

def State.holds (s : State) : Owner → Lock → Prop
  | .slave,l => l ∈ s.slave.held s.closing
  | .thread i,l => ∃ r,s.relays[i]? = some r ∧ l ∈ r.held

-- A thread behind relay->cleanup = 1.
def late : Pc → Bool
  | .rebuilding | .rebuilt | .marked | .leaving | .exited => true
  | _ => false

def Slave.pending : Slave → List Nat
  | .working jobs => jobs.map Job.index
  | .reserved i jobs | .telling i jobs | .joining i _ jobs => i::jobs.map Job.index
  | _ => []

def Slave.frees (i : Nat) : Slave → Bool
  | .joining j true _ => j = i
  | _ => false

-- A relay has a thread while it is running, or while it is joined to be freed, and one at most.
structure Relay.Sound (frees : Bool) (r : Relay) : Prop where
  count : r.created = r.joined+r.pc.isSome.toNat
  freed : r.freed = true → r.pc = none
  late : r.freed = false → r.cleanup = true → ∃ p,r.pc = some p ∧ RelayThreads.late p = true
  alive : r.pc.isSome = true → r.thread = true ∧ (r.running = true ∨ frees = true)
  running : r.running = true → r.pc.isSome = true ∧ r.source = true
  stopped : frees = true → r.running = false

structure Inv (s : State) : Prop where
  owned : ∀ l o,s.owner l = some o ↔ s.holds o l
  sound : ∀ i (r : Relay),s.relays[i]? = some r → r.Sound (s.slave.frees i)
  known : Known s.relays s.slave.pending
  joins : ∀ i free jobs,s.slave = .joining i free jobs → ∃ r p,s.relays[i]? = some r ∧ r.pc = some p

def Act.target : Act → Pc
  | .go q | .clean q | .lock _ q | .unlock _ q => q

-- A lock is taken by a thread that does not have it, and released by one that has.
def Act.Changes (p : Pc) (l : Lock) : Act → Prop
  | .go q | .clean q => l ∈ held q ↔ l ∈ held p
  | .lock m q => m ∉ held p ∧ (l ∈ held q ↔ l = m ∨ l ∈ held p)
  | .unlock m q => m ∈ held p ∧ (l ∈ held q ↔ l ≠ m ∧ l ∈ held p)

theorem program_held (known : program on_demand choice p = some act) (l : Lock) : act.Changes p l := by
  cases on_demand <;> cases choice <;> cases p <;> cases known
  all_goals
    unfold Act.Changes
    cases l <;> decide

theorem program_late (known : program on_demand choice p = some act) :
    late p = true ∨ act = .clean act.target → late act.target = true := by
  cases on_demand <;> cases choice <;> cases p <;> cases known <;> decide

theorem getElem?_put {relays : List Relay} (found : (relays.set i r')[j]? = some r) : j = i ∧ r = r' ∨ j ≠ i ∧
    relays[j]? = some r := by
  rw [List.getElem?_set] at found
  split at found
  · rename_i same
    split at found
    · exact .inl ⟨same.symm,(Option.some.inj found).symm⟩
    · cases found
  · rename_i other
    exact .inr ⟨fun same => other same.symm,found⟩

theorem getElem?_put_self {relays : List Relay} (here : relays[i]? = some r) : (relays.set i r')[i]? = some r' := by
  obtain ⟨inside,_⟩ := List.getElem?_eq_some_iff.mp here
  rw [List.getElem?_set_self inside]

theorem getElem?_put_ne {relays : List Relay} (other : j ≠ i) : (relays.set i r')[j]? = relays[j]? :=
  List.getElem?_set_ne fun same => other same.symm

def Owned (s : State) : Prop := ∀ l o,s.owner l = some o ↔ s.holds o l

theorem owned_step {s t : State} (owned : Owned s) (me : Owner) (others : ∀ o l,o ≠ me → (t.holds o l ↔ s.holds o l))
    (locks : ∀ l,(t.owner l = s.owner l ∧ (t.holds me l ↔ s.holds me l)) ∨
      (s.owner l = none ∧ t.owner l = some me ∧ t.holds me l) ∨ (s.owner l = some me ∧ t.owner l = none ∧
      ¬t.holds me l)) : Owned t := by
  intro l o
  by_cases mine : o = me
  · subst mine
    rcases locks l with ⟨same,holds⟩ | ⟨_,taken,has⟩ | ⟨_,freed,lacks⟩
    · rw [same,holds]
      exact owned l o
    · exact ⟨fun _ => has,fun _ => taken⟩
    · rw [freed]
      exact ⟨fun none => absurd none (by simp),fun has => absurd has lacks⟩
  · rw [others o l mine]
    rcases locks l with ⟨same,_⟩ | ⟨free,taken,_⟩ | ⟨was,freed,_⟩
    · rw [same]
      exact owned l o
    · rw [←owned l o,taken,free]
      exact ⟨fun same => absurd (Option.some.inj same).symm mine,fun none => absurd none (by simp)⟩
    · rw [←owned l o,freed,was]
      exact ⟨fun none => absurd none (by simp),fun same => absurd (Option.some.inj same).symm mine⟩

theorem known_put {relays : List Relay} (known : Known relays indices) (here : relays[i]? = some r)
    (same : r'.freed = r.freed) :
    Known (relays.set i r') indices := by
  refine ⟨known.1,fun j member => ?_⟩
  obtain ⟨r₀,found,unfreed⟩ := known.2 j member
  by_cases equal : j = i
  · subst equal
    cases here.symm.trans found
    exact ⟨r',getElem?_put_self here,same.trans unfreed⟩
  · exact ⟨r₀,(getElem?_put_ne equal).trans found,unfreed⟩

theorem threadStep_cases (known : program r.on_demand choice p = some act)
    (step : threadStep s i r act = some t) :
    t.relays = s.relays.set i {r with pc := some act.target,cleanup := r.cleanup || decide (act = .clean act.target)} ∧
      t.slave = s.slave ∧ t.closing = s.closing ∧
      ∀ l,(t.owner l = s.owner l ∧ (l ∈ held act.target ↔ l ∈ held p)) ∨
        (s.owner l = none ∧ t.owner l = some (.thread i) ∧ l ∈ held act.target) ∨
        (l ∈ held p ∧ t.owner l = none ∧ l ∉ held act.target) := by
  have locks := program_held known
  cases act with
  | go q =>
    cases Option.some.inj step
    refine ⟨?_,rfl,rfl,fun l => .inl ⟨rfl,locks l⟩⟩
    simp [State.put,Act.target]
  | clean q =>
    cases Option.some.inj step
    refine ⟨?_,rfl,rfl,fun l => .inl ⟨rfl,locks l⟩⟩
    simp [State.put,Act.target]
  | lock m q =>
    rw [threadStep] at step
    split at step
    · rename_i free
      cases Option.some.inj step
      refine ⟨?_,rfl,rfl,fun l => ?_⟩
      · simp [State.put,State.give,Act.target]
      · by_cases same : l = m
        · subst same
          exact .inr (.inl ⟨free,Function.update_self ..,(locks l).2.mpr (.inl rfl)⟩)
        · refine .inl ⟨Function.update_of_ne same ..,(locks l).2.trans ?_⟩
          exact ⟨fun either => either.resolve_left same,.inr⟩
    · cases step
  | unlock m q =>
    cases Option.some.inj step
    refine ⟨?_,rfl,rfl,fun l => ?_⟩
    · simp [State.put,State.give,Act.target]
    · by_cases same : l = m
      · subst same
        exact .inr (.inr ⟨(locks l).1,Function.update_self ..,fun has => ((locks l).2.mp has).1 rfl⟩)
      · refine .inl ⟨Function.update_of_ne same ..,(locks l).2.trans ?_⟩
        exact ⟨fun both => both.2,fun has => ⟨same,has⟩⟩

theorem held_some {r : Relay} (pc : r.pc = some p) : r.held = held p := by
  rw [Relay.held,pc]
  rfl

theorem holds_thread {s : State} {r : Relay} (here : s.relays[i]? = some r) : s.holds (.thread i) l ↔ l ∈ r.held := by
  constructor
  · rintro ⟨_,found,has⟩
    cases here.symm.trans found
    exact has
  · exact fun has => ⟨r,here,has⟩

theorem holds_other {s t : State} (relays : t.relays = s.relays.set i r') (other : j ≠ i) :
    t.holds (.thread j) l ↔ s.holds (.thread j) l := by
  rw [State.holds,relays,getElem?_put_ne other,State.holds]

theorem start_inv : Inv start where
  owned l o := by
    refine ⟨fun none => absurd none (by simp [start]),fun has => ?_⟩
    cases o with
    | slave => cases has
    | thread i =>
      obtain ⟨_,found,_⟩ := has
      cases found
  sound _ _ found := by cases found
  known := ⟨List.nodup_nil,fun _ none => absurd none List.not_mem_nil⟩
  joins _ _ _ same := by cases same

theorem thread_sound {r : Relay} (sound : r.Sound frees) (pc : r.pc = some p)
    (known : program r.on_demand choice p = some act) :
    ({r with pc := some act.target,cleanup := r.cleanup || decide (act = .clean act.target)} : Relay).Sound frees := by
  refine ⟨?_,fun freed => ?_,fun unfreed cleanup => ?_,fun _ => sound.alive (by rw [pc]; rfl),
    fun running => ?_,sound.stopped⟩
  · have count := sound.count
    rw [pc] at count
    exact count
  · have none := sound.freed freed
    rw [pc] at none
    cases none
  · refine ⟨_,rfl,program_late known ?_⟩
    simp only [Bool.or_eq_true,decide_eq_true_eq] at cleanup
    refine cleanup.imp (fun was => ?_) id
    obtain ⟨q,same,late⟩ := sound.late unfreed was
    cases pc.symm.trans same
    exact late
  · exact ⟨rfl,(sound.running running).2⟩

theorem thread_inv (inv : Inv s) (here : s.relays[i]? = some r) (pc : r.pc = some p)
    (known : program r.on_demand choice p = some act)
    (step : threadStep s i r act = some t) : Inv t := by
  obtain ⟨relays,slave,closing,locks⟩ := threadStep_cases known step
  obtain ⟨r',this⟩ : ∃ r' :
    Relay,{r with pc := some act.target,cleanup := r.cleanup || decide (act = .clean act.target)} = r' := ⟨_,rfl⟩
  rw [this] at relays
  have pc' : r'.pc = some act.target := by rw [←this]
  have at' : t.relays[i]? = some r' := by rw [relays,getElem?_put_self here]
  refine ⟨owned_step inv.owned (.thread i) ?_ ?_,?_,?_,?_⟩
  · intro o l other
    cases o with
    | slave => rw [State.holds,slave,closing,State.holds]
    | thread j => exact holds_other relays fun same => other (congrArg Owner.thread same)
  · intro l
    rw [holds_thread at',holds_thread here,held_some pc',held_some pc]
    rcases locks l with same | taken | ⟨has,freed,gone⟩
    · exact .inl same
    · exact .inr (.inl taken)
    · refine .inr (.inr ⟨(inv.owned l (.thread i)).mpr ?_,freed,gone⟩)
      rw [holds_thread here,held_some pc]
      exact has
  · intro j x found
    rw [slave]
    rw [relays] at found
    rcases getElem?_put found with ⟨rfl,rfl⟩ | ⟨_,found⟩
    · rw [←this]
      exact thread_sound (inv.sound j r here) pc known
    · exact inv.sound j x found
  · rw [relays,slave]
    refine known_put inv.known here ?_
    rw [←this]
  · intro j free jobs same
    rw [slave] at same
    obtain ⟨x,q,found,filled⟩ := inv.joins j free jobs same
    by_cases equal : j = i
    · subst equal
      exact ⟨r',_,at',pc'⟩
    · exact ⟨x,q,by rw [relays,getElem?_put_ne equal,found],filled⟩

theorem inv_move (inv : Inv s) (here : s.relays[i]? = some r) {slave : Slave} (locks : r'.held = r.held)
    (same : slave.held s.closing = s.slave.held s.closing) (sound : r'.Sound (slave.frees i))
    (others : ∀ j,j ≠ i → slave.frees j = s.slave.frees j) (known : Known (s.relays.set i r') slave.pending)
    (joins : ∀ j free jobs,slave = .joining j free jobs → j = i ∧ r'.pc.isSome = true) :
    Inv ((s.put i r').to slave) := by
  have at' : ((s.put i r').to slave).relays[i]? = some r' := getElem?_put_self here
  refine ⟨fun l o => (inv.owned l o).trans ?_,fun j x found => ?_,known,fun j free jobs equal => ?_⟩
  · cases o with
    | slave => exact iff_of_eq (congrArg (l ∈ ·) same.symm)
    | thread j =>
      by_cases mine : j = i
      · subst mine
        rw [holds_thread here,holds_thread at',locks]
      · exact (holds_other (t := (s.put i r').to slave) rfl mine).symm
  · rcases getElem?_put found with ⟨rfl,rfl⟩ | ⟨other,found⟩
    · exact sound
    · have before := inv.sound j x found
      rw [←others j other] at before
      exact before
  · obtain ⟨rfl,alive⟩ := joins j free jobs equal
    obtain ⟨p,pc⟩ := Option.isSome_iff_exists.mp alive
    exact ⟨r',p,at',pc⟩

theorem put_self {s : State} (here : s.relays[i]? = some r) : s.put i r = s := by
  obtain ⟨inside,rfl⟩ := List.getElem?_eq_some_iff.mp here
  unfold State.put
  rw [List.set_getElem_self]

theorem working_frees {s : State} (slave : s.slave = .working jobs) (j : Nat) : s.slave.frees j = false := by
  rw [slave]
  rfl

theorem known_tail (known : Known relays (i::indices)) : Known relays indices :=
  ⟨(List.nodup_cons.mp known.1).2,fun j member => known.2 j (List.mem_cons_of_mem _ member)⟩

theorem known_other {relays : List Relay} (known : Known relays indices) (away : i ∉ indices) (r' : Relay) :
    Known (relays.set i r') indices := by
  refine ⟨known.1,fun j member => ?_⟩
  have apart : j ≠ i := fun same => away (same ▸ member)
  rw [getElem?_put_ne apart]
  exact known.2 j member

section
variable (inv : Inv s) (slave : s.slave = .working (job::jobs))
include inv slave

theorem job_known : Known s.relays (job.index::jobs.map Job.index) := by
  have known := inv.known
  rw [slave] at known
  exact known

theorem job_away : job.index ∉ jobs.map Job.index := (List.nodup_cons.mp (job_known inv slave).1).1

variable (here : s.relays[job.index]? = some r)
include here

theorem job_unfreed : r.freed = false := by
  obtain ⟨x,found,unfreed⟩ := (job_known inv slave).2 _ List.mem_cons_self
  cases here.symm.trans found
  exact unfreed

theorem job_sound : r.Sound false := by
  have sound := inv.sound _ r here
  rw [working_frees slave] at sound
  exact sound

theorem job_idle (stopped : r.running = false) : r.pc = none := by
  cases pc : r.pc with
  | none => rfl
  | some p =>
    rcases ((job_sound inv slave here).alive (by rw [pc]; rfl)).2 with running | freed
    · rw [stopped] at running
      cases running
    · cases freed

theorem job_done (locks : r'.held = r.held) (sound : r'.Sound false) :
    Inv ((s.put job.index r').to (.working jobs)) := by
  refine inv_move inv here locks (by rw [slave]; rfl) sound (fun j _ => (working_frees slave j).symm) ?_
    (fun _ _ _ same => by cases same)
  exact known_other (known_tail (job_known inv slave)) (job_away inv slave) r'

theorem job_skipped : Inv (s.to (.working jobs)) := by
  have done := job_done inv slave here rfl (job_sound inv slave here)
  rw [put_self here] at done
  exact done

theorem job_goes_on (r' : Relay) (slave' : Slave) (locks : r'.held = r.held)
    (same : slave'.held s.closing = s.slave.held s.closing)
    (pending : slave'.pending = job.index::jobs.map Job.index) (freed : r'.freed = r.freed)
    (sound : r'.Sound (slave'.frees job.index))
    (others : ∀ j,j ≠ job.index → slave'.frees j = false)
    (joins : ∀ j free jobs,slave' = .joining j free jobs → j = job.index ∧ r'.pc.isSome = true) :
    Inv ((s.put job.index r').to slave') := by
  refine inv_move inv here locks same sound
    (fun j other => (others j other).trans (working_frees slave j).symm) ?_ joins
  rw [pending]
  exact known_put (job_known inv slave) here freed

theorem checkStarted_inv (due : Bool) : Inv (checkStarted s job.index r jobs due) := by
  have sound := job_sound inv slave here
  have unfreed := job_unfreed inv slave here
  unfold checkStarted
  split_ifs with starts cleanup handle
  · have idle := job_idle inv slave here starts.2.1
    have count := sound.count
    rw [idle] at count
    refine job_done inv slave here ?_ ⟨?_,?_,?_,?_,?_,?_⟩
    · rw [held_some rfl,Relay.held,idle]
      rfl
    · exact congrArg (·+1) count
    · intro freed
      rw [unfreed] at freed
      cases freed
    · intro _ cleanup
      obtain ⟨p,pc,_⟩ := sound.late unfreed cleanup
      rw [idle] at pc
      cases pc
    · exact fun _ => ⟨rfl,.inl rfl⟩
    · exact fun _ => ⟨rfl,starts.1⟩
    · intro frees
      cases frees
  · have goes := job_goes_on inv slave here _ (.joining job.index false jobs) rfl
      (by rw [slave]; rfl) rfl rfl sound (fun _ _ => rfl) (by
      rintro j free rest same
      cases same
      obtain ⟨p,pc,_⟩ := sound.late unfreed cleanup
      exact ⟨rfl,by rw [pc]; rfl⟩)
    rw [put_self here] at goes
    exact goes
  · obtain ⟨p,pc,_⟩ := sound.late unfreed cleanup
    exact absurd (sound.alive (by rw [pc]; rfl)).1 handle
  · exact job_skipped inv slave here

end

@[simp] theorem to_owner (s : State) (slave : Slave) : (s.to slave).owner = s.owner := rfl

@[simp] theorem to_slave (s : State) (slave : Slave) : (s.to slave).slave = slave := rfl

@[simp] theorem to_closing (s : State) (slave : Slave) : (s.to slave).closing = s.closing := rfl

@[simp] theorem give_closing (s : State) (l : Lock) (o : Option Owner) : (s.give l o).closing = s.closing := rfl

theorem give_self {s : State} : (s.give l o).owner l = o := Function.update_self ..

theorem give_other {s : State} (other : m ≠ l) : (s.give l o).owner m = s.owner m := Function.update_of_ne other ..

theorem inv_slave (inv : Inv s) {t : State} (relays : t.relays = s.relays)
    (locks : ∀ l,(t.owner l = s.owner l ∧ (l ∈ t.slave.held t.closing ↔ l ∈ s.slave.held s.closing)) ∨
      (s.owner l = none ∧ t.owner l = some .slave ∧ l ∈ t.slave.held t.closing) ∨
      (l ∈ s.slave.held s.closing ∧ t.owner l = none ∧ l ∉ t.slave.held t.closing))
    (known : Known t.relays t.slave.pending) (frees : ∀ j,t.slave.frees j = s.slave.frees j)
    (joins : ∀ j free jobs,t.slave ≠ .joining j free jobs) : Inv t := by
  refine ⟨owned_step inv.owned .slave ?_ ?_,?_,known,fun j free jobs same => absurd same (joins j free jobs)⟩
  · intro o l other
    cases o with
    | slave => exact absurd rfl other
    | thread j => rw [State.holds,relays,State.holds]
  · intro l
    rcases locks l with same | taken | ⟨has,freed,gone⟩
    · exact .inl same
    · exact .inr (.inl taken)
    · exact .inr (.inr ⟨(inv.owned l .slave).mpr has,freed,gone⟩)
  · intro j x found
    rw [relays] at found
    rw [frees]
    exact inv.sound j x found

theorem known_nil (relays : List Relay) : Known relays [] := ⟨List.nodup_nil,fun _ none => absurd none List.not_mem_nil⟩

theorem work_inv (inv : Inv s) (slave : s.slave = .working jobs) (step : workStep s reserve due jobs = some t) :
    Inv t := by
  cases jobs with
  | nil =>
    cases Option.some.inj step
    split
    · rename_i closing
      refine inv_slave inv rfl (fun l => .inl ⟨rfl,?_⟩) (known_nil _) (fun j => (working_frees slave j).symm)
        (fun _ _ _ same => by cases same)
      rw [slave,closing]
      exact Iff.rfl
    · rename_i open_
      have locked : s.slave.held s.closing = [.relay] := by
        rw [slave,Slave.held,if_neg open_]
      refine inv_slave inv rfl (fun l => ?_) (known_nil _) (fun j => (working_frees slave j).symm)
        (fun _ _ _ same => by cases same)
      rw [locked]
      cases l with
      | mutex =>
        refine .inl ⟨?_,?_⟩
        · rw [to_owner,give_other (by decide)]
        · rw [to_slave,Slave.held]
          decide
      | relay =>
        refine .inr (.inr ⟨List.mem_singleton.mpr rfl,?_,List.not_mem_nil⟩)
        rw [to_owner,give_self]
  | cons job jobs =>
    cases job with
    | free i =>
      obtain ⟨r,here,rfl⟩ := Option.map_eq_some_iff.mp step
      have sound := job_sound inv slave here
      split
      · rename_i runs
        obtain ⟨alive,_⟩ := sound.running runs.2
        refine job_goes_on inv slave here _ (.joining i true jobs) rfl (by rw [slave]; rfl) rfl rfl ?_ ?_ ?_
        · refine ⟨sound.count,sound.freed,sound.late,fun alive => ⟨(sound.alive alive).1,.inr ?_⟩,?_,fun _ => rfl⟩
          · exact decide_eq_true rfl
          · intro running
            cases running
        · exact fun j other => decide_eq_false fun same : i = j => other same.symm
        · rintro j free rest same
          cases same
          exact ⟨rfl,alive⟩
      · rename_i stopped
        have still : r.running = false := by
          cases running : r.running with
          | false => rfl
          | true => exact absurd ⟨(sound.running running).2,running⟩ stopped
        have idle := job_idle inv slave here still
        refine job_done inv slave here rfl ⟨sound.count,fun _ => idle,?_,sound.alive,sound.running,sound.stopped⟩
        intro unfreed
        cases unfreed
    | check i =>
      obtain ⟨r,here,rfl⟩ := Option.map_eq_some_iff.mp step
      have sound := job_sound inv slave here
      have reserved : ({r with source := true} : Relay).Sound false :=
        ⟨sound.count,sound.freed,sound.late,sound.alive,fun running => ⟨(sound.running running).1,rfl⟩,sound.stopped⟩
      split_ifs with source reserve demand
      · exact checkStarted_inv inv slave here due
      · exact job_goes_on inv slave here _ (.reserved i jobs) rfl (by rw [slave]; rfl) rfl rfl reserved (fun _ _ => rfl)
          (fun _ _ _ same => by cases same)
      · have put : Inv (s.put i {r with source := true}) := by
          have goes := job_goes_on inv slave here {r with source := true} s.slave rfl rfl (by rw [slave]; rfl) rfl
            (by rw [working_frees slave]; exact reserved) (fun j _ => working_frees slave j)
              (fun _ _ _ same => by rw [slave] at same; cases same)
          exact goes
        exact checkStarted_inv put slave (getElem?_put_self here) due
      · exact job_skipped inv slave here

theorem join_inv (inv : Inv s) (slave : s.slave = .joining i free jobs)
    (step : joinStep s i free jobs = some t) : Inv t := by
  obtain ⟨r,here,step⟩ := Option.bind_eq_some_iff.mp step
  split at step
  · rename_i exited
    cases Option.some.inj step
    have sound := inv.sound i r here
    have known := inv.known
    rw [slave] at known
    have away : i ∉ jobs.map Job.index := (List.nodup_cons.mp known.1).1
    have count := sound.count
    rw [exited] at count
    have others (j : Nat) (other : j ≠ i) : (Slave.working jobs).frees j = s.slave.frees j := by
      rw [slave]
      cases free with
      | true => exact (decide_eq_false fun same : i = j => other same.symm).symm
      | false => rfl
    have held : r.held = [] := held_some exited
    refine inv_move inv here ?_ (by rw [slave]; rfl) ?_ others (known_other (known_tail known) away _) (fun _ _ _ same => by cases same)
    · cases free <;> exact held.symm
    · cases free with
      | true =>
        have stopped := sound.stopped (by rw [slave]; exact decide_eq_true rfl)
        refine ⟨count,fun _ => rfl,?_,?_,?_,?_⟩
        · intro unfreed
          cases unfreed
        · intro alive
          cases alive
        · intro running
          rw [show r.running = true from running] at stopped
          cases stopped
        · intro frees
          cases frees
      | false =>
        refine ⟨count,fun _ => rfl,?_,?_,?_,fun _ => rfl⟩
        · intro _ cleanup
          cases cleanup
        · intro alive
          cases alive
        · intro running
          cases running
  · cases step

theorem newRelay_sound (on_demand : Bool) : (newRelay on_demand).Sound false := by
  refine ⟨rfl,fun _ => rfl,?_,?_,?_,fun _ => rfl⟩
  · intro _ cleanup
    cases cleanup
  · intro alive
    cases alive
  · intro running
    cases running

theorem inv_added (inv : Inv s) (idle : s.slave = .idle) (added : List Bool) :
    Inv {s with relays := s.relays++added.map newRelay} := by
  have split {i : Nat} {r : Relay} (found : (s.relays++added.map newRelay)[i]? = some r) :
      s.relays[i]? = some r ∨ ∃ on_demand,r = newRelay on_demand := by
    rw [List.getElem?_append] at found
    split at found
    · exact .inl found
    · obtain ⟨on_demand,_,same⟩ := List.mem_map.mp (List.mem_of_getElem? found)
      exact .inr ⟨on_demand,same.symm⟩
  refine ⟨fun l o => (inv.owned l o).trans ?_,fun i r found => ?_,?_,fun i free jobs same => ?_⟩
  · cases o with
    | slave => exact Iff.rfl
    | thread i =>
      constructor
      · rintro ⟨r,found,has⟩
        exact ⟨r,(List.getElem?_append_left (List.getElem?_eq_some_iff.mp found).1).trans found,has⟩
      · rintro ⟨r,found,has⟩
        rcases split found with found | ⟨on_demand,rfl⟩
        · exact ⟨r,found,has⟩
        · cases has
  · rcases split found with found | ⟨on_demand,rfl⟩
    · exact inv.sound i r found
    · rw [idle]
      exact newRelay_sound on_demand
  · rw [idle]
    exact known_nil _
  · rw [idle] at same
    cases same

theorem index_free (indices : List Nat) : (indices.map Job.free).map Job.index = indices := by
  rw [List.map_map]
  exact List.map_id indices

theorem index_check (indices : List Nat) : (indices.map Job.check).map Job.index = indices := by
  rw [List.map_map]
  exact List.map_id indices

theorem inv_takes (inv : Inv s) {slave : Slave} (l : Lock) (free : s.owner l = none)
    (more : ∀ m,m ∈ slave.held s.closing ↔ m = l ∨ m ∈ s.slave.held s.closing)
    (known : Known s.relays slave.pending) (frees : ∀ j,slave.frees j = s.slave.frees j)
    (joins : ∀ j free jobs,slave ≠ .joining j free jobs) :
    Inv ((s.give l (some .slave)).to slave) := by
  refine inv_slave inv rfl (fun m => ?_) known frees joins
  by_cases same : m = l
  · subst same
    exact .inr (.inl ⟨free,by rw [to_owner,give_self],(more m).mpr (.inl rfl)⟩)
  · refine .inl ⟨by rw [to_owner,give_other same],(more m).trans ?_⟩
    exact ⟨fun either => either.resolve_left same,.inr⟩

theorem inv_gives (inv : Inv s) {slave : Slave} (l : Lock) (mine : l ∈ s.slave.held s.closing)
    (less : ∀ m,m ∈ slave.held s.closing ↔ m ≠ l ∧ m ∈ s.slave.held s.closing)
    (known : Known s.relays slave.pending) (frees : ∀ j,slave.frees j = s.slave.frees j)
    (joins : ∀ j free jobs,slave ≠ .joining j free jobs) :
    Inv ((s.give l none).to slave) := by
  refine inv_slave inv rfl (fun m => ?_) known frees joins
  by_cases same : m = l
  · subst same
    exact .inr (.inr ⟨mine,by rw [to_owner,give_self],fun has => ((less m).mp has).1 rfl⟩)
  · refine .inl ⟨by rw [to_owner,give_other same],(less m).trans ?_⟩
    exact ⟨fun both => both.2,fun has => ⟨same,has⟩⟩

theorem known_pending {slave slave' : Slave} (inv : Inv s) (same : s.slave = slave)
    (pending : slave'.pending = slave.pending) : Known s.relays slave'.pending := by
  rw [pending,←same]
  exact inv.known

-- The slave takes the mutex of the mounts in slave_update_all_mounts, and gives it back.
theorem reserved_inv (inv : Inv s) (slave : s.slave = .reserved i jobs) (free : s.owner .mutex = none) :
    Inv ((s.give .mutex (some .slave)).to (.telling i jobs)) := by
  refine inv_takes inv .mutex free (fun m => ?_) ?_ (fun j => ?_) (fun _ _ _ same => by cases same)
  · rw [slave,Slave.held,Slave.held]
    split
    · rw [List.mem_singleton,or_iff_left List.not_mem_nil]
    · rw [List.mem_cons]
  · exact known_pending inv slave rfl
  · rw [slave]
    rfl

theorem telling_inv (inv : Inv s) (slave : s.slave = .telling i jobs) :
    Inv ((s.give .mutex none).to (.working (.check i::jobs))) := by
  refine inv_gives inv .mutex ?_ (fun m => ?_) (known_pending inv slave rfl) (fun j => ?_)
    (fun _ _ _ same => by cases same)
  · rw [slave,Slave.held]
    split <;> exact List.mem_cons_self
  · rw [slave,Slave.held,Slave.held]
    split
    · rw [List.mem_singleton]
      exact ⟨fun none => absurd none List.not_mem_nil,fun both => absurd both.2 both.1⟩
    · cases m <;> decide
  · rw [slave]
    rfl

theorem settle_inv (inv : Inv s) (step : Step s .settle t) : Inv t := by
  rw [Step,next] at step
  split at step
  · rename_i ready
    cases Option.some.inj step
    refine inv_takes inv .mutex ready.2 (fun m => ?_) (known_nil _) (fun j => ?_) (fun _ _ _ same => by cases same)
    · rw [ready.1,Slave.held,Slave.held,List.mem_singleton,or_iff_left List.not_mem_nil]
    · rw [ready.1]
      rfl
  · cases step

theorem settled_inv (inv : Inv s) (step : Step s .settled t) : Inv t := by
  rw [Step,next] at step
  split at step
  · rename_i there
    cases Option.some.inj step
    refine inv_gives inv .mutex (by rw [there]; exact List.mem_singleton.mpr rfl) (fun m => ?_)
      (known_nil _) (fun j => ?_)
      (fun _ _ _ same => by cases same)
    · rw [there,Slave.held,Slave.held,List.mem_singleton]
      exact ⟨fun none => absurd none List.not_mem_nil,fun both => absurd both.2 both.1⟩
    · rw [there]
      rfl
  · cases step

theorem round_inv (inv : Inv s) (step : Step s (.round removed checked added) t) : Inv t := by
  rw [Step,next] at step
  split at step
  · rename_i ready
    obtain ⟨idle,open_,free,known⟩ := ready
    cases Option.some.inj step
    refine inv_takes (inv_added inv idle added) .relay free (fun m => ?_) ?_ (fun j => ?_)
      (fun _ _ _ same => by cases same)
    · simp only [idle,open_,Slave.held,Bool.false_eq_true,if_false,List.mem_singleton,List.not_mem_nil,or_false]
    · rw [Slave.pending,List.map_append,index_free,index_check]
      exact known
    · simp only [idle]
      rfl
  · cases step

theorem demand_inv (inv : Inv s) (step : Step s (.demand i on_demand) t) : Inv t := by
  rw [Step,next] at step
  split at step
  · rename_i ready
    obtain ⟨r,here,step⟩ := Option.bind_eq_some_iff.mp step
    split at step
    · cases step
    · cases Option.some.inj step
      have sound := inv.sound i r here
      have locks : ({r with on_demand := on_demand} : Relay).held = r.held := rfl
      refine inv_move inv here locks rfl
        ⟨sound.count,sound.freed,sound.late,sound.alive,sound.running,sound.stopped⟩ (fun _ _ => rfl) ?_
        (fun _ _ _ same => by rw [ready.1] at same; cases same)
      rw [ready.1]
      exact known_nil _
  · cases step

theorem work_event_inv (inv : Inv s) (step : Step s (.work reserve due) t) : Inv t := by
  rw [Step,next] at step
  cases slave : s.slave with
  | working jobs =>
    rw [slave] at step
    exact work_inv inv slave step
  | joining i free jobs =>
    rw [slave] at step
    exact join_inv inv slave step
  | reserved i jobs =>
    simp only [slave] at step
    split at step
    · rename_i free
      cases Option.some.inj step
      exact reserved_inv inv slave free
    · cases step
  | telling i jobs =>
    simp only [slave] at step
    obtain ⟨r,here,rfl⟩ := Option.map_eq_some_iff.mp step
    exact checkStarted_inv (telling_inv inv slave) rfl here due
  | idle =>
    rw [slave] at step
    cases step
  | settling =>
    rw [slave] at step
    cases step
  | exited =>
    rw [slave] at step
    cases step

theorem shutdown_inv (inv : Inv s) (step : Step s (.shutdown relays) t) : Inv t := by
  rw [Step,next] at step
  split at step
  · rename_i ready
    obtain ⟨idle,known⟩ := ready
    cases Option.some.inj step
    refine inv_slave inv rfl (fun m => .inl ⟨rfl,?_⟩) ?_ (fun j => ?_) (fun _ _ _ same => by cases same)
    · rw [idle]
      exact Iff.rfl
    · rw [to_slave,Slave.pending,index_free]
      exact known
    · rw [idle]
      rfl
  · cases step

theorem thread_event_inv (inv : Inv s) (step : Step s (.thread i choice) t) : Inv t := by
  rw [Step,next] at step
  obtain ⟨r,here,step⟩ := Option.bind_eq_some_iff.mp step
  obtain ⟨p,pc,step⟩ := Option.bind_eq_some_iff.mp step
  obtain ⟨act,known,step⟩ := Option.bind_eq_some_iff.mp step
  exact thread_inv inv here pc known step

theorem step_inv (inv : Inv s) (step : Step s e t) : Inv t := by
  cases e with
  | settle => exact settle_inv inv step
  | settled => exact settled_inv inv step
  | round _ _ _ => exact round_inv inv step
  | demand _ _ => exact demand_inv inv step
  | work _ _ => exact work_event_inv inv step
  | shutdown _ => exact shutdown_inv inv step
  | thread _ _ => exact thread_event_inv inv step

theorem run_inv (path : Runs Step start events s) : Inv s :=
  path.preserves (fun inv step => step_inv inv step) start_inv

-- In every interleaving a relay has one thread at most, each of its threads is joined once, through
-- the handle it was created with, and no other is created before that; it is freed when all are
-- joined; and a lock has one holder.
theorem relay_threads (path : Runs Step start events s) :
    (∀ i (r : Relay),s.relays[i]? = some r →
    r.created = r.joined+r.pc.isSome.toNat ∧ (r.freed = true → r.created = r.joined) ∧
      (r.pc.isSome = true → r.thread = true ∧ (r.running = true ∨ ∃ jobs,s.slave = .joining i true jobs))) ∧
    (∀ i free jobs,s.slave = .joining i free jobs →
      ∃ r,s.relays[i]? = some r ∧ r.pc.isSome = true ∧ r.thread = true ∧ r.freed = false) ∧
    ∀ l o o',s.holds o l → s.holds o' l → o = o' := by
  have inv := run_inv path
  refine ⟨fun i r found => ?_,fun i free jobs slave => ?_,fun l o o' one two => ?_⟩
  · have sound := inv.sound i r found
    refine ⟨sound.count,fun freed => ?_,fun alive => (sound.alive alive).imp id (Or.imp id fun frees => ?_)⟩
    · have count := sound.count
      rw [sound.freed freed] at count
      exact count
    · cases slave : s.slave with
      | joining j free jobs =>
        rw [slave] at frees
        cases free with
        | true =>
          cases (of_decide_eq_true frees : j = i)
          exact ⟨jobs,rfl⟩
        | false => cases frees
      | _ =>
        rw [slave] at frees
        cases frees
  · obtain ⟨r,p,found,pc⟩ := inv.joins i free jobs slave
    obtain ⟨x,same,unfreed⟩ := inv.known.2 i (by rw [slave]; exact List.mem_cons_self)
    cases found.symm.trans same
    have alive : r.pc.isSome = true := by rw [pc]; rfl
    exact ⟨r,found,alive,((inv.sound i r found).alive alive).1,unfreed⟩
  · have first := (inv.owned l o).mpr one
    have second := (inv.owned l o').mpr two
    exact Option.some.inj (first.symm.trans second)

-- The steps of relay threads alone.
def ThreadStep (s : State) (e : Event) (t : State) : Prop := (∃ i choice,e = .thread i choice) ∧ Step s e t

-- The slave thread can go on from here.
def Moves (s : State) : Prop := ∃ e t,(e = .settle ∨ e = .settled ∨ ∃ reserve due,e = .work reserve due) ∧ Step s e t

-- It never goes on, whatever the relay threads do.
def Blocked (s : State) : Prop := ∀ events t,Runs ThreadStep s events t → ¬Moves t

def AtLocking (s : State) : Prop := ∃ (j : Nat) (x : Relay),s.relays[j]? = some x ∧ x.pc = some .locking

-- It waits with the relay_lock for _slave_mutex, which a failed relay's thread has that waits for
-- the relay_lock; or for the end of a thread that is to take the relay_lock, or _slave_mutex while
-- a failed relay's thread has it.
def Dead (s : State) : Prop := s.closing = false ∧ match s.slave with
  | .reserved _ _ => AtLocking s
  | .joining i _ _ => ∃ r,s.relays[i]? = some r ∧ (r.pc = some .failing ∨ r.pc ≠ some .exited ∧ AtLocking s)
  | _ => False

theorem thread_step_parts (step : ThreadStep s e t) : ∃ i choice r p act,e = .thread i choice ∧
    s.relays[i]? = some r ∧ r.pc = some p ∧
    program r.on_demand choice p = some act ∧ threadStep s i r act = some t := by
  obtain ⟨⟨i,choice,rfl⟩,step⟩ := step
  rw [Step,next] at step
  obtain ⟨r,here,step⟩ := Option.bind_eq_some_iff.mp step
  obtain ⟨p,pc,step⟩ := Option.bind_eq_some_iff.mp step
  obtain ⟨act,known,step⟩ := Option.bind_eq_some_iff.mp step
  exact ⟨i,choice,r,p,act,rfl,here,pc,known,step⟩

theorem locking_owner (inv : Inv s) {r : Relay} (here : s.relays[j]? = some r) (pc : r.pc = some .locking) :
    s.owner .mutex = some (.thread j) := by
  rw [inv.owned,holds_thread here,held_some pc]
  decide

-- Without the relay_lock the thread of a failed relay does not go on.
theorem locking_stays (known : program on_demand choice .locking = some act) (owner : s.owner .relay = some o) :
    threadStep s i r act = none := by
  cases known
  rw [threadStep,owner,if_neg (by simp)]

theorem dead_owner (inv : Inv s) (dead : Dead s) : s.owner .relay = some .slave := by
  obtain ⟨open_,dead⟩ := dead
  rw [inv.owned,State.holds]
  split at dead
  · rename_i i jobs slave
    rw [slave,Slave.held,open_]
    decide
  · rename_i i free jobs slave
    rw [slave,Slave.held,open_]
    decide
  · exact dead.elim

-- A thread that ends has _slave_mutex up to then.
theorem program_exits (known : program on_demand choice p = some act) (ends : act.target = .exited) :
    .mutex ∈ held p := by
  cases on_demand <;> cases choice <;> cases p <;> cases known <;> revert ends <;> decide

theorem dead_step (inv : Inv s) (dead : Dead s) (step : ThreadStep s e t) : Dead t := by
  have owner := dead_owner inv dead
  obtain ⟨k,choice,r,p,act,rfl,here,pc,known,step⟩ := thread_step_parts step
  obtain ⟨relays,slave,closing,_⟩ := threadStep_cases known step
  have waits : p ≠ .locking := by
    rintro rfl
    rw [locking_stays known owner] at step
    cases step
  have still : AtLocking s → AtLocking t := by
    rintro ⟨j,x,found,locks⟩
    have apart : j ≠ k := by
      rintro rfl
      cases here.symm.trans found
      exact waits (Option.some.inj (pc.symm.trans locks))
    exact ⟨j,x,by rw [relays,getElem?_put_ne apart,found],locks⟩
  obtain ⟨open_,dead⟩ := dead
  refine ⟨closing.trans open_,?_⟩
  rw [slave]
  split at dead
  · exact still dead
  · rename_i i _ _ _
    obtain ⟨x,found,why⟩ := dead
    by_cases mine : i = k
    · subst mine
      cases here.symm.trans found
      refine ⟨_,by rw [relays,getElem?_put_self here],?_⟩
      rcases why with failing | ⟨alive,locking⟩
      · cases pc.symm.trans failing
        cases known
        refine .inr ⟨?_,i,_,by rw [relays,getElem?_put_self here],rfl⟩
        simp only [Act.target,ne_eq,Option.some.injEq,reduceCtorEq,not_false_eq_true]
      · refine .inr ⟨fun ends => ?_,still locking⟩
        obtain ⟨j,y,there,locks⟩ := locking
        have first := locking_owner inv there locks
        have second : s.owner .mutex = some (.thread i) := by
          rw [inv.owned,holds_thread here,held_some pc]
          exact program_exits known (Option.some.inj ends)
        cases first.symm.trans second
        cases here.symm.trans there
        exact waits (Option.some.inj (pc.symm.trans locks))
    · refine ⟨x,by rw [relays,getElem?_put_ne mine,found],why.imp id (And.imp id still)⟩
  · exact dead.elim

theorem dead_stuck (inv : Inv s) (dead : Dead s) : ¬Moves s := by
  rintro ⟨e,t,kind,step⟩
  obtain ⟨_,dead⟩ := dead
  rcases kind with rfl | rfl | ⟨reserve,due,rfl⟩
  all_goals rw [Step,next] at step
  · split at step
    · rename_i ready
      rw [ready.1] at dead
      exact dead
    · cases step
  · split at step
    · rename_i there
      rw [there] at dead
      exact dead
    · cases step
  · cases slave : s.slave with
    | reserved i jobs =>
      simp only [slave] at step dead
      obtain ⟨j,x,found,locks⟩ := dead
      rw [locking_owner inv found locks,if_neg (by simp)] at step
      cases step
    | joining i free jobs =>
      simp only [slave] at step dead
      obtain ⟨r,found,why⟩ := dead
      have alive : r.pc ≠ some .exited := by
        rcases why with failing | ⟨alive,_⟩
        · rw [failing]
          decide
        · exact alive
      rw [joinStep,found,Option.bind_some,if_neg alive] at step
      cases step
    | _ =>
      rw [slave] at dead
      exact dead

-- The steps that a thread has left when its connection is made and source_main ends.
def rank : Pc → Nat
  | .opening => 9
  | .announcing => 8
  | .announced => 7
  | .playing => 6
  | .updating | .failing => 5
  | .updated | .locking => 4
  | .cleaning | .marking => 3
  | .rebuilding | .marked => 2
  | .rebuilt | .leaving => 1
  | .exited => 0

def failed : Pc → Bool
  | .failing | .locking => true
  | _ => false

theorem program_goes (on_demand : Bool) (p : Pc) (more : p ≠ .exited) :
    ∃ choice act,program on_demand choice p = some act ∧
    rank act.target < rank p ∧ (failed p = false → failed act.target = false) ∧
      (act = .lock .relay act.target → p = .locking) := by
  refine ⟨decide (p = .opening),?_⟩
  cases on_demand <;> cases p <;> first | exact absurd rfl more | exact ⟨_,rfl,by decide,by decide,by decide⟩

-- Who has the relay_lock as a relay's thread has _slave_mutex too.
theorem relay_owner (inv : Inv s) (owner : s.owner .relay = some (.thread k)) : s.owner .mutex = some (.thread k) := by
  obtain ⟨r,here,has⟩ := (inv.owned .relay (.thread k)).mp owner
  rw [inv.owned,holds_thread here]
  cases pc : r.pc with
  | none =>
    rw [Relay.held,pc] at has
    cases has
  | some p =>
    rw [held_some pc] at has ⊢
    revert has
    cases p <;> decide

-- Where a thread can have the relay_lock, or is not to ask for it.
def Open (s : State) (p : Pc) : Prop := s.owner .relay ≠ some .slave ∨ failed p = false

-- Some steps of one thread, which has _slave_mutex from time to time.
structure Driven (s t : State) (i : Nat) : Prop where
  slave : t.slave = s.slave
  closing : t.closing = s.closing
  others : ∀ j,j ≠ i → t.relays[j]? = s.relays[j]?
  relay : s.owner .relay ≠ some .slave → t.owner .relay ≠ some .slave
  inv : Inv t

-- A thread that can have _slave_mutex goes one step towards its end.
theorem drive_step (inv : Inv s) {r : Relay} (here : s.relays[i]? = some r) (pc : r.pc = some p) (more : p ≠ .exited)
    (mutex : s.owner .mutex = none ∨ s.owner .mutex = some (.thread i)) (opens : Open s p) :
    ∃ e t r' q,ThreadStep s e t ∧ Driven s t i ∧ t.relays[i]? = some r' ∧ r'.pc = some q ∧ rank q < rank p ∧
      (t.owner .mutex = none ∨ t.owner .mutex = some (.thread i)) ∧ Open t q := by
  obtain ⟨choice,act,known,less,fails,asks⟩ := program_goes r.on_demand p more
  have free (l : Lock) (q : Pc) (takes : act = .lock l q) : s.owner l = none := by
    subst takes
    have without : l ∉ held p := (program_held known l).1
    have mine : s.owner l ≠ some (.thread i) := by
      rw [ne_eq,inv.owned,holds_thread here,held_some pc]
      exact without
    cases l with
    | mutex => exact mutex.resolve_right mine
    | relay =>
      cases asks rfl
      have owner := locking_owner inv here pc
      cases known : s.owner .relay with
      | none => rfl
      | some o =>
        cases o with
        | slave => exact absurd known (opens.resolve_right (by decide))
        | thread k =>
          cases owner.symm.trans (relay_owner inv known)
          exact absurd known mine
  obtain ⟨t,step⟩ : ∃ t,threadStep s i r act = some t := by
    cases act with
    | go q => exact ⟨_,rfl⟩
    | clean q => exact ⟨_,rfl⟩
    | lock l q => exact ⟨_,by rw [threadStep,if_pos (free l q rfl)]⟩
    | unlock l q => exact ⟨_,rfl⟩
  obtain ⟨relays,slave,closing,locks⟩ := threadStep_cases known step
  have owners (l : Lock) : t.owner l = s.owner l ∨ t.owner l = some (.thread i) ∨ t.owner l = none := by
    rcases locks l with ⟨same,_⟩ | ⟨_,taken,_⟩ | ⟨_,freed,_⟩
    · exact .inl same
    · exact .inr (.inl taken)
    · exact .inr (.inr freed)
  have relay : s.owner .relay ≠ some .slave → t.owner .relay ≠ some .slave := by
    intro apart
    rcases owners .relay with same | taken | freed
    · rw [same]
      exact apart
    · rw [taken]
      simp only [ne_eq,Option.some.injEq,reduceCtorEq,not_false_eq_true]
    · rw [freed]
      decide
  refine ⟨.thread i choice,t,_,act.target,⟨⟨i,choice,rfl⟩,?_⟩,
    ⟨slave,closing,fun j other => ?_,relay,thread_inv inv here pc known step⟩,
    by rw [relays,getElem?_put_self here],rfl,less,?_,opens.imp relay fails⟩
  · rw [Step,next,here,Option.bind_some,pc,Option.bind_some,known,Option.bind_some,step]
  · rw [relays,getElem?_put_ne other]
  · rcases owners .mutex with same | taken | freed
    · rw [same]
      exact mutex
    · exact .inr taken
    · exact .inl freed

theorem Driven.trans (one : Driven s m i) (two : Driven m t i) : Driven s t i :=
  ⟨two.slave.trans one.slave,two.closing.trans one.closing,
    fun j other => (two.others j other).trans (one.others j other),
    fun apart => two.relay (one.relay apart),two.inv⟩

-- And so it comes to its end, and no one has _slave_mutex then.
theorem drive (inv : Inv s) {r : Relay} (here : s.relays[i]? = some r) (pc : r.pc = some p)
    (mutex : s.owner .mutex = none ∨ s.owner .mutex = some (.thread i)) (opens : Open s p) :
    ∃ events t r',Runs ThreadStep s events t ∧ Driven s t i ∧ t.relays[i]? = some r' ∧ r'.pc = some .exited ∧
    t.owner .mutex = none := by
  induction measure : rank p using Nat.strongRecOn generalizing s r p with
  | ind n ih =>
    by_cases ends : p = .exited
    · subst ends
      refine ⟨[],s,r,.nil,⟨rfl,rfl,fun _ _ => rfl,id,inv⟩,here,pc,mutex.resolve_right ?_⟩
      rw [inv.owned,holds_thread here,held_some pc]
      decide
    · obtain ⟨e,m,r',q,step,driven,there,pc',less,mutex',opens'⟩ := drive_step inv here pc ends mutex opens
      obtain ⟨events,t,r'',path,rest,found,done,free⟩ :=
        ih (rank q) (measure ▸ less) driven.inv there pc' mutex' opens' rfl
      exact ⟨e::events,t,r'',.cons step path,driven.trans rest,found,done,free⟩

-- _slave_mutex comes free where the thread that has it can end.
theorem free_mutex (inv : Inv s) (other : s.owner .mutex ≠ some .slave)
    (opens : s.owner .relay ≠ some .slave ∨ ¬AtLocking s) :
    ∃ events t,Runs ThreadStep s events t ∧ t.slave = s.slave ∧ t.closing = s.closing ∧ Inv t ∧
      (s.owner .relay ≠ some .slave → t.owner .relay ≠ some .slave) ∧ t.owner .mutex = none ∧
      ∀ j,s.owner .mutex ≠ some (.thread j) → t.relays[j]? = s.relays[j]? := by
  cases owner : s.owner .mutex with
  | none => exact ⟨[],s,.nil,rfl,rfl,inv,id,owner,fun _ _ => rfl⟩
  | some o =>
    cases o with
    | slave => exact absurd owner other
    | thread i =>
      obtain ⟨r,here,has⟩ := (inv.owned .mutex (.thread i)).mp owner
      cases pc : r.pc with
      | none =>
        rw [Relay.held,pc] at has
        cases has
      | some p =>
        rw [held_some pc] at has
        have open_ : Open s p := by
          refine opens.imp id fun away => ?_
          cases p with
          | failing => cases has
          | locking => exact absurd ⟨i,r,here,pc⟩ away
          | _ => rfl
        obtain ⟨events,t,r',path,driven,_,_,free⟩ := drive inv here pc (.inr owner) open_
        refine ⟨events,t,path,driven.slave,driven.closing,driven.inv,driven.relay,free,
          fun j apart => driven.others j ?_⟩
        rintro rfl
        exact apart rfl

theorem slave_without (inv : Inv s) (l : Lock) (without : l ∉ s.slave.held s.closing) : s.owner l ≠ some .slave := by
  rw [ne_eq,inv.owned]
  exact without

theorem reserved_moves (inv : Inv s) (slave : s.slave = .reserved i jobs) (notDead : ¬Dead s) :
    ∃ events t,Runs ThreadStep s events t ∧ Moves t := by
  have mutex : s.owner .mutex ≠ some .slave := by
    refine slave_without inv .mutex ?_
    rw [slave,Slave.held]
    split <;> decide
  have opens : s.owner .relay ≠ some .slave ∨ ¬AtLocking s := by
    cases closing : s.closing with
    | true =>
      refine .inl (slave_without inv .relay ?_)
      rw [slave,closing]
      exact List.not_mem_nil
    | false =>
      refine .inr fun locking => notDead ⟨closing,?_⟩
      rw [slave]
      exact locking
  obtain ⟨events,t,path,same,_,_,_,free,_⟩ := free_mutex inv mutex opens
  have goes : next t (.work false false) = some ((t.give .mutex (some .slave)).to (.telling i jobs)) := by
    simp only [next,same,slave,free,if_true]
  exact ⟨events,t,path,.work false false,_,.inr (.inr ⟨_,_,rfl⟩),goes⟩

theorem joining_moves (inv : Inv s) (slave : s.slave = .joining i free jobs) (notDead : ¬Dead s) :
    ∃ events t,Runs ThreadStep s events t ∧ Moves t := by
  obtain ⟨r,p,found,pc⟩ := inv.joins i free jobs slave
  have joins {t : State} {x : Relay} (same : t.slave = s.slave) (there : t.relays[i]? = some x)
    (ended : x.pc = some .exited) : Moves t := by
    obtain ⟨after,step⟩ : ∃ after,joinStep t i free jobs = some after := by
      rw [joinStep,there,Option.bind_some,if_pos ended]
      exact ⟨_,rfl⟩
    have goes : next t (.work false false) = some after := by
      simp only [next,same,slave,step]
    exact ⟨.work false false,after,.inr (.inr ⟨_,_,rfl⟩),goes⟩
  by_cases ends : p = .exited
  · exact ⟨[],s,.nil,joins rfl found (pc.trans (congrArg some ends))⟩
  have mutex : s.owner .mutex ≠ some .slave := by
    refine slave_without inv .mutex ?_
    rw [slave,Slave.held]
    split <;> decide
  have opens : (s.owner .relay ≠ some .slave ∨ ¬AtLocking s) ∧ (s.owner .relay ≠ some .slave ∨ failed p = false) := by
    cases closing : s.closing with
    | true =>
      have without : s.owner .relay ≠ some .slave := by
        refine slave_without inv .relay ?_
        rw [slave,closing]
        exact List.not_mem_nil
      exact ⟨.inl without,.inl without⟩
    | false =>
      have calm : p ≠ .failing ∧ ¬AtLocking s := by
        refine ⟨fun same => notDead ⟨closing,?_⟩,fun locking => notDead ⟨closing,?_⟩⟩
        · rw [slave]
          exact ⟨r,found,.inl (pc.trans (congrArg some same))⟩
        · rw [slave]
          exact ⟨r,found,.inr ⟨fun same => ends (Option.some.inj (pc.symm.trans same)),locking⟩⟩
      refine ⟨.inr calm.2,.inr ?_⟩
      cases p with
      | failing => exact absurd rfl calm.1
      | locking => exact absurd ⟨i,r,found,pc⟩ calm.2
      | _ => rfl
  by_cases mine : s.owner .mutex = some (.thread i)
  · obtain ⟨events,t,r',path,driven,there,ended,_⟩ := drive inv found pc (.inr mine) opens.2
    exact ⟨events,t,path,joins driven.slave there ended⟩
  · obtain ⟨first,m,path,same,_,inv',relay,none,rest⟩ := free_mutex inv mutex opens.1
    obtain ⟨events,t,r',path',driven,there,ended,_⟩ :=
      drive inv' ((rest i mine).trans found) pc (.inl none) (opens.2.imp relay id)
    exact ⟨first++events,t,path.append path',joins (driven.slave.trans same) there ended⟩

theorem not_dead_moves (inv : Inv s) (alive : s.slave ≠ .exited) (notDead : ¬Dead s) :
    ∃ events t,Runs ThreadStep s events t ∧ Moves t := by
  have here {i : Nat} (pending : i ∈ s.slave.pending) : ∃ r,s.relays[i]? = some r := by
    obtain ⟨r,found,_⟩ := inv.known.2 i pending
    exact ⟨r,found⟩
  cases slave : s.slave with
  | exited => exact absurd slave alive
  | settling => exact ⟨[],s,.nil,.settled,_,.inr (.inl rfl),by rw [Step,next,if_pos slave]⟩
  | idle =>
    have without (l : Lock) : s.owner l ≠ some .slave := slave_without inv l (by rw [slave]; exact List.not_mem_nil)
    obtain ⟨events,t,path,same,_,_,_,free,_⟩ := free_mutex inv (without .mutex) (.inl (without .relay))
    exact ⟨events,t,path,.settle,_,.inl rfl,by rw [Step,next,if_pos ⟨same.trans slave,free⟩]⟩
  | working jobs =>
    have goes : ∃ t,workStep s false false jobs = some t := by
      cases jobs with
      | nil => exact ⟨_,rfl⟩
      | cons job jobs =>
        obtain ⟨r,found⟩ := here (i := job.index) (by rw [slave]; exact List.mem_cons_self)
        cases job with
        | free i => exact ⟨_,congrArg (Option.map _) found⟩
        | check i => exact ⟨_,congrArg (Option.map _) found⟩
    obtain ⟨t,step⟩ := goes
    exact ⟨[],s,.nil,.work false false,t,.inr (.inr ⟨_,_,rfl⟩),by rw [Step,next,slave]; exact step⟩
  | telling i jobs =>
    obtain ⟨r,found⟩ := here (i := i) (by rw [slave]; exact List.mem_cons_self)
    have goes : next s (.work false false) = some (checkStarted (s.give .mutex none) i r jobs false) := by
      simp only [next,slave,found,Option.map_some]
    exact ⟨[],s,.nil,.work false false,_,.inr (.inr ⟨_,_,rfl⟩),goes⟩
  | reserved i jobs => exact reserved_moves inv slave notDead
  | joining i free jobs => exact joining_moves inv slave notDead

theorem run_dead (inv : Inv s) (dead : Dead s) (path : Runs ThreadStep s events t) : Inv t ∧ Dead t := by
  induction path with
  | nil => exact ⟨inv,dead⟩
  | snoc _ last ih => exact ⟨step_inv ih.1 last.2,dead_step ih.1 ih.2 last⟩

-- The slave thread is in a deadlock in exactly these states.
theorem blocked_iff (path : Runs Step start events s) (alive : s.slave ≠ .exited) : Blocked s ↔ Dead s := by
  have inv := run_inv path
  constructor
  · intro blocked
    by_contra notDead
    obtain ⟨later,t,goes,moves⟩ := not_dead_moves inv alive notDead
    exact blocked later t goes moves
  · intro dead later t goes
    obtain ⟨inv',dead'⟩ := run_dead inv dead goes
    exact dead_stuck inv' dead'

-- A relay is taken off the configuration while its connection fails: thread_join waits for a thread
-- that waits for the relay_lock.
def removal : List Event := [.round [] [0] [false],.work true true,.work true true,.thread 0 false,
    .round [0] [] [],.work true true]

theorem removal_runs : ∃ s,Runs Step start removal s ∧ s.slave = .joining 0 true [] ∧ Dead s := by
  have ran : ∃ s,runFrom next start removal = some s ∧ s.slave = .joining 0 true [] ∧ Dead s := ⟨_,rfl,rfl,rfl,_,rfl,.inl rfl⟩
  obtain ⟨s,ran,joining,dead⟩ := ran
  exact ⟨s,runFrom_sound id ran,joining,dead⟩

theorem relay_threads_removal : ∃ s r,Runs Step start removal s ∧ s.relays[0]? = some r ∧
    r.pc.isSome = true ∧ r.thread = true := by
  obtain ⟨s,path,joining,_⟩ := removal_runs
  obtain ⟨r,found,alive,handle,_⟩ := (relay_threads path).2.1 0 true [] joining
  exact ⟨s,r,path,found,alive,handle⟩

theorem blocked_iff_removal : ∃ s,Runs Step start removal s ∧ Blocked s := by
  obtain ⟨s,path,joining,dead⟩ := removal_runs
  have alive : s.slave ≠ .exited := by
    rw [joining]
    exact Slave.noConfusion
  exact ⟨s,path,(blocked_iff path alive).mpr dead⟩

end Icecast.RelayThreads
