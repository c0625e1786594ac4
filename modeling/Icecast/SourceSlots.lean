import Icecast.Lib.Lists
import Icecast.Lib.Transition

namespace Icecast.SourceSlots
open Lists Transition

-- How a source is started: source_startup for a native and for a shoutcast client, start_relay_stream,
-- source_fallback_file.
inductive Kind where
  | client
  | shoutcast
  | relay
  | file
deriving DecidableEq

-- Where a source is. `entering` to `completing` and `refusing` are connection_complete_source,
-- `queued` to `spawning` what leads a client over source_client_callback to its thread, `running` is
-- source_main and `leaving` to `shut` source_shutdown.
inductive Pc where
  | waiting
  | connecting
  | entering
  | reading
  | testing
  | checking
  | counting
  | unlocking
  | completing
  | refusing
  | queued
  | calling
  | dropping
  | discounting
  | dropped
  | spawning
  | stuck
  | running
  | leaving
  | subtracting
  | shut
  | ended
deriving DecidableEq

-- `ups` and `downs` count how often the source was added to global.sources and taken off.
structure Party where
  kind : Kind
  pc : Pc
  ups : Nat
  downs : Nat
deriving DecidableEq

-- global.sources under global_lock, and config->source_limit under the configuration lock, which
-- `readers` hold shared.
structure Shared where
  sources : Int
  source_limit : Int
  locked : Bool
  readers : Nat
deriving DecidableEq

def Party.at (p : Party) (pc : Pc) : Party := {p with pc := pc}

-- Where a source goes that is done: a relay can be started again.
def Party.gone (p : Party) : Party := p.at (if p.kind = .relay then .waiting else .ended)

-- One step of a source. `choice` is whether a connection or a file is there, whether the content type
-- and the format plugin are accepted, whether the client has an error, whether a thread is created
-- and whether source_main goes on.
def partyStep (choice : Bool) (m : Shared) (p : Party) : Option (Party × Shared) :=
  match p.pc with
  | .waiting => some (p.at .connecting,m)
  | .connecting => some (if choice then p.at .entering else p.gone,m)
  | .entering => if m.locked then none else some (p.at .reading,{m with locked := true})
  | .reading => some (p.at .testing,{m with readers := m.readers+1})
  | .testing => some (p.at (if m.sources < m.source_limit then .checking else .refusing),m)
  | .checking => some (p.at (if choice then .counting else .refusing),m)
  | .counting => some ({p with pc := .unlocking,ups := p.ups+1},{m with sources := m.sources+1})
  | .unlocking => some (p.at .completing,{m with locked := false})
  | .completing =>
    some (p.at (match p.kind with
      | .client => .queued
      | .shoutcast => .calling
      | .relay | .file => .running),{m with readers := m.readers-1})
  | .refusing => some (p.gone,{m with locked := false,readers := m.readers-1})
  | .queued => some (p.at .calling,m)
  | .calling => some (p.at (if choice then .dropping else .spawning),m)
  | .dropping => if m.locked then none else some (p.at .discounting,{m with locked := true})
  | .discounting => some ({p with pc := .dropped,downs := p.downs+1},{m with sources := m.sources-1})
  | .dropped => some (p.at .ended,{m with locked := false})
  | .spawning => some (p.at (if choice then .running else .stuck),m)
  | .running => some (p.at (if choice then .running else .leaving),m)
  | .leaving => if m.locked then none else some (p.at .subtracting,{m with locked := true})
  | .subtracting => some ({p with pc := .shut,downs := p.downs+1},{m with sources := m.sources-1})
  | .shut => some (p.gone,{m with locked := false})
  | .stuck | .ended => none

structure State where
  shared : Shared
  parties : List Party
deriving DecidableEq

def start (source_limit : Int) : State := ⟨⟨0,source_limit,false,0⟩,[]⟩

-- A new source, a step of one, and a configuration with another limit, which waits for the readers.
inductive Event where
  | arrive (kind : Kind)
  | party (i : Nat) (choice : Bool)
  | limit (n : Int)
deriving DecidableEq

def next (s : State) : Event → Option State
  | .arrive kind => some {s with parties := s.parties++[⟨kind,.connecting,0,0⟩]}
  | .party i choice => (s.parties[i]?).bind fun p => (partyStep choice s.shared p).map fun r =>
    ⟨r.2,s.parties.set i r.1⟩
  | .limit n => if s.shared.readers = 0 then some {s with shared := {s.shared with source_limit := n}} else none

def Step (s : State) (event : Event) (t : State) : Prop := next s event = some t

def Pc.holds : Pc → Bool
  | .reading | .testing | .checking | .counting | .unlocking | .refusing | .discounting | .dropped | .subtracting | .shut => true
  | _ => false

def Pc.reads : Pc → Bool
  | .testing | .checking | .counting | .unlocking | .completing | .refusing => true
  | _ => false

-- connection_complete_source found room.
def Pc.found : Pc → Bool
  | .checking | .counting => true
  | _ => false

-- connection_complete_source has counted the source, and it has not reached a decrement.
def Pc.counted : Pc → Bool
  | .unlocking | .completing | .queued | .calling | .dropping | .discounting | .spawning | .stuck | .running | .leaving | .subtracting => true
  | _ => false

-- What a step of a source does to the shared variables.
structure Moved (m : Shared) (p : Party) (m' : Shared) (p' : Party) : Prop where
  lock : one p'.pc.holds+one m.locked = one p.pc.holds+one m'.locked
  readers : m'.readers+one p.pc.reads = m.readers+one p'.pc.reads
  sources : m'.sources+one p.pc.counted = m.sources+one p'.pc.counted
  tally : p.ups = p.downs+one p.pc.counted → p'.ups = p'.downs+one p'.pc.counted
  limit : m'.source_limit = m.source_limit
  alone : m'.sources ≠ m.sources → p.pc.holds = true
  found : p'.pc.found = true → m'.sources = m.sources ∧ (p.pc.found = true ∨ m.sources < m.source_limit)
  rises : m.sources < m'.sources → p.pc.found = true ∧ m'.sources = m.sources+1

theorem gone_pc (p : Party) : p.gone.pc = .waiting ∨ p.gone.pc = .ended := by
  unfold Party.gone Party.at
  split
  · exact .inl rfl
  · exact .inr rfl

theorem Moved.same (lock : one p'.pc.holds+one m.locked = one p.pc.holds+one m'.locked)
    (readers : m'.readers+one p.pc.reads = m.readers+one p'.pc.reads) (counted : p'.pc.counted = p.pc.counted)
    (ups : p'.ups = p.ups) (downs : p'.downs = p.downs) (sources : m'.sources = m.sources)
    (limit : m'.source_limit = m.source_limit)
    (found : p'.pc.found = true → p.pc.found = true ∨ m.sources < m.source_limit) : Moved m p m' p' where
  lock := lock
  readers := readers
  sources := by rw [counted,sources]
  tally := by rw [ups,downs,counted]; exact id
  limit := limit
  alone := fun differs => absurd sources differs
  found := fun yes => ⟨sources,found yes⟩
  rises := fun less => absurd (sources ▸ less) (Int.lt_irrefl _)

theorem Moved.quiet (holds : p'.pc.holds = p.pc.holds) (reads : p'.pc.reads = p.pc.reads)
    (counted : p'.pc.counted = p.pc.counted)
    (ups : p'.ups = p.ups) (downs : p'.downs = p.downs) (found : p'.pc.found = true → p.pc.found = true ∨
    m.sources < m.source_limit) :
    Moved m p m p' := .same (by rw [holds]) (by rw [reads]) counted ups downs rfl rfl found

theorem partyStep_moved (locked : p.pc.holds = true → m.locked = true) (read : p.pc.reads = true → 0 < m.readers)
    (step : partyStep choice m p = some (p',m')) : Moved m p m' p' := by
  obtain ⟨kind,pc,ups,downs⟩ := p
  cases pc with
  | waiting | queued =>
    cases step
    exact .quiet rfl rfl rfl rfl rfl nofun
  | connecting =>
    simp only [partyStep] at step
    cases step
    split
    · exact .quiet rfl rfl rfl rfl rfl nofun
    · rcases gone_pc ⟨kind,.connecting,ups,downs⟩ with spot | spot <;>
        exact .quiet (by rw [spot]; rfl) (by rw [spot]; rfl) (by rw [spot]; rfl) rfl rfl (by rw [spot]; nofun)
  | entering | dropping | leaving =>
    simp only [partyStep] at step
    split at step
    · cases step
    · rename_i free
      cases step
      exact .same (by simp [one,free,Party.at,Pc.holds]) rfl rfl rfl rfl rfl rfl nofun
  | reading =>
    cases step
    exact .same rfl rfl rfl rfl rfl rfl rfl nofun
  | testing =>
    simp only [partyStep] at step
    cases step
    split
    · rename_i room
      exact .quiet rfl rfl rfl rfl rfl fun _ => .inr room
    · exact .quiet rfl rfl rfl rfl rfl nofun
  | checking =>
    simp only [partyStep] at step
    cases step
    split
    · exact .quiet rfl rfl rfl rfl rfl fun _ => .inl rfl
    · exact .quiet rfl rfl rfl rfl rfl nofun
  | counting =>
    cases step
    refine ⟨rfl,rfl,?_,?_,rfl,fun _ => rfl,nofun,fun _ => ⟨rfl,rfl⟩⟩
    · simp [one,Pc.counted]
    · intro tally
      simp only [one,Pc.counted] at tally ⊢
      simpa using tally
  | unlocking =>
    cases step
    have held := locked rfl
    exact .same (by simp [one,held,Party.at,Pc.holds]) rfl rfl rfl rfl rfl rfl nofun
  | completing =>
    have filled := read rfl
    cases step
    have freed : m.readers-1+one true = m.readers+one false := by
      simp only [one,if_true,Bool.false_eq_true,if_false]
      omega
    cases kind <;>
      exact .same rfl freed rfl rfl rfl rfl rfl nofun
  | refusing =>
    have held := locked rfl
    have filled := read rfl
    cases step
    have freed : m.readers-1+one true = m.readers+one false := by
      simp only [one,if_true,Bool.false_eq_true,if_false]
      omega
    cases kind <;>
      exact .same (by simp [one,held,Party.gone,Party.at,Pc.holds]) freed rfl rfl rfl rfl rfl nofun
  | calling | spawning =>
    simp only [partyStep] at step
    cases step
    split <;> exact .quiet rfl rfl rfl rfl rfl nofun
  | running =>
    simp only [partyStep] at step
    cases step
    split <;> exact .quiet rfl rfl rfl rfl rfl nofun
  | discounting | subtracting =>
    cases step
    refine ⟨rfl,rfl,?_,?_,rfl,fun _ => rfl,nofun,?_⟩
    · simp [one,Pc.counted]
    · intro tally
      simp only [one,Pc.counted] at tally ⊢
      simp only [if_true,Bool.false_eq_true,if_false] at tally ⊢
      omega
    · intro less
      simp only at less
      omega
  | dropped =>
    cases step
    have held := locked rfl
    exact .same (by simp [one,held,Party.at,Pc.holds]) rfl rfl rfl rfl rfl rfl nofun
  | shut =>
    cases step
    have held := locked rfl
    cases kind <;>
      exact .same (by simp [one,held,Party.gone,Party.at,Pc.holds]) rfl rfl rfl rfl rfl rfl nofun
  | stuck | ended => cases step

-- The locks are held by those that took them, global.sources counts the sources that are counted, each
-- source is off the count as often as it was on it, and one that found room has it still.
structure Inv (s : State) : Prop where
  lock : s.parties.countP (·.pc.holds) = one s.shared.locked
  readers : s.parties.countP (·.pc.reads) = s.shared.readers
  sources : s.shared.sources = s.parties.countP (·.pc.counted)
  tally : ∀ p ∈ s.parties, p.ups = p.downs+one p.pc.counted
  room : ∀ p ∈ s.parties, p.pc.found = true → s.shared.sources < s.shared.source_limit

theorem Inv.locked (inv : Inv s) (member : p ∈ s.parties) (holds : p.pc.holds = true) : s.shared.locked = true := by
  have filled : 0 < s.parties.countP (·.pc.holds) := List.countP_pos_iff.mpr ⟨p,member,holds⟩
  have lock := inv.lock
  by_contra free
  rw [eq_false_of_ne_true free] at lock
  simp only [one,Bool.false_eq_true,if_false] at lock
  omega

theorem Inv.read (inv : Inv s) (member : p ∈ s.parties) (reads : p.pc.reads = true) : 0 < s.shared.readers := by
  rw [←inv.readers]
  exact List.countP_pos_iff.mpr ⟨p,member,reads⟩

theorem found_holds {pc : Pc} (found : pc.found = true) : pc.holds = true := by
  cases pc <;> first | rfl | cases found

theorem found_reads {pc : Pc} (found : pc.found = true) : pc.reads = true := by
  cases pc <;> first | rfl | cases found

-- While one source holds global_lock no other does.
theorem Inv.others {i j : Nat} (inv : Inv s) (here : s.parties[i]? = some p) (holds : p.pc.holds = true)
    (there : s.parties[j]? = some q) (holds' : q.pc.holds = true) : i = j := by
  by_contra apart
  have out : Pc.ended.holds = false := rfl
  have moved := countP_set (fun x : Party => x.pc.holds) here ⟨p.kind,.ended,0,0⟩
  have still : (s.parties.set i ⟨p.kind,.ended,0,0⟩)[j]? = some q := by rw [List.getElem?_set_ne apart,there]
  have filled : 0 < (s.parties.set i ⟨p.kind,.ended,0,0⟩).countP (fun x => x.pc.holds) :=
    List.countP_pos_iff.mpr ⟨q,List.mem_of_getElem? still,holds'⟩
  have lock := inv.lock
  have bound := one_le (b := s.shared.locked)
  simp only [holds,out,if_true,Bool.false_eq_true,if_false] at moved
  omega

theorem Inv.moves {i : Nat} (inv : Inv s) (here : s.parties[i]? = some p) (moved : Moved s.shared p m' p') :
    Inv ⟨m',s.parties.set i p'⟩ := by
  have holders : (s.parties.set i p').countP (·.pc.holds)+one p.pc.holds = s.parties.countP
    (·.pc.holds)+one p'.pc.holds := countP_set _ here p'
  have readers : (s.parties.set i p').countP (·.pc.reads)+one p.pc.reads = s.parties.countP
    (·.pc.reads)+one p'.pc.reads := countP_set _ here p'
  have counts : (s.parties.set i p').countP (·.pc.counted)+one p.pc.counted = s.parties.countP
    (·.pc.counted)+one p'.pc.counted :=
    countP_set _ here p'
  have lock := inv.lock
  have reading := inv.readers
  have sources := inv.sources
  have lock' := moved.lock
  have reading' := moved.readers
  have sources' := moved.sources
  refine ⟨?_,?_,?_,?_,?_⟩
  · dsimp only
    omega
  · dsimp only
    omega
  · dsimp only
    omega
  · intro q member
    rcases List.mem_or_eq_of_mem_set member with old | rfl
    · exact inv.tally q old
    · exact moved.tally (inv.tally p (List.mem_of_getElem? here))
  · intro q member found
    dsimp only
    obtain ⟨j,there⟩ := List.getElem?_of_mem member
    by_cases same : i = j
    · subst same
      have inside := (List.getElem?_eq_some_iff.mp here).1
      rw [List.getElem?_set_self inside] at there
      cases there
      obtain ⟨unchanged,reason⟩ := moved.found found
      rw [unchanged,moved.limit]
      exact reason.elim (inv.room p (List.mem_of_getElem? here)) id
    · -- another source found room under the lock, so this one does not hold it
      rw [List.getElem?_set_ne same] at there
      have unchanged : m'.sources = s.shared.sources := by
        by_contra differs
        exact same (inv.others here (moved.alone differs) there (found_holds found))
      rw [unchanged,moved.limit]
      exact inv.room q (List.mem_of_getElem? there) found

theorem Inv.party {i : Nat} (inv : Inv s) (here : s.parties[i]? = some p)
    (step : partyStep choice s.shared p = some (p',m')) :
    Moved s.shared p m' p' :=
  partyStep_moved (inv.locked (List.mem_of_getElem? here)) (inv.read (List.mem_of_getElem? here)) step

theorem Inv.step (inv : Inv s) (step : Step s event t) : Inv t := by
  cases event with
  | arrive kind =>
    cases step
    refine ⟨?_,?_,?_,?_,?_⟩
    · dsimp only
      rw [List.countP_append]
      exact inv.lock
    · dsimp only
      rw [List.countP_append]
      exact inv.readers
    · dsimp only
      rw [List.countP_append]
      exact inv.sources
    · intro p member
      rcases List.mem_append.mp member with old | new
      · exact inv.tally p old
      · cases List.mem_singleton.mp new
        rfl
    · intro p member found
      rcases List.mem_append.mp member with old | new
      · exact inv.room p old found
      · cases List.mem_singleton.mp new
        cases found
  | party i choice =>
    obtain ⟨p,here,rest⟩ := Option.bind_eq_some_iff.mp step
    obtain ⟨r,moved,same⟩ := Option.map_eq_some_iff.mp rest
    rw [←same]
    exact inv.moves here (inv.party here moved)
  | limit n =>
    unfold Step next at step
    simp only at step
    split at step
    · rename_i free
      cases step
      refine ⟨inv.lock,inv.readers,inv.sources,inv.tally,?_⟩
      intro p member found
      have reader := inv.read member (found_reads found)
      omega
    · cases step

theorem start_inv (n : Int) : Inv (start n) := ⟨rfl,rfl,rfl,by simp [start],by simp [start]⟩

theorem Inv.rises (inv : Inv s) (step : Step s event t) (up : s.shared.sources < t.shared.sources) :
    s.shared.sources < s.shared.source_limit ∧ t.shared.sources = s.shared.sources+1 := by
  cases event with
  | arrive kind =>
    cases step
    exact absurd up (Int.lt_irrefl _)
  | party i choice =>
    obtain ⟨p,here,rest⟩ := Option.bind_eq_some_iff.mp step
    obtain ⟨r,moved,same⟩ := Option.map_eq_some_iff.mp rest
    rw [←same] at up ⊢
    obtain ⟨found,by_one⟩ := (inv.party here moved).rises up
    exact ⟨inv.room p (List.mem_of_getElem? here) found,by_one⟩
  | limit n =>
    unfold Step next at step
    simp only at step
    split at step
    · cases step
      exact absurd up (Int.lt_irrefl _)
    · cases step

-- global.sources is the number of sources that connection_complete_source has accepted and that have
-- not come to a decrement; each is counted off once for each time it was counted on.
theorem sources_exact (run : Runs Step (start n) labels s) :
    s.shared.sources = s.parties.countP (·.pc.counted) ∧ 0 ≤ s.shared.sources ∧
    (∀ p ∈ s.parties, p.ups = p.downs+one p.pc.counted) ∧
    ∀ event t, Step s event t → s.shared.sources < t.shared.sources →
      s.shared.sources < s.shared.source_limit ∧ t.shared.sources = s.shared.sources+1 := by
  have inv : Inv s := run.preserves Inv.step (start_inv n)
  refine ⟨inv.sources,?_,inv.tally,fun event t step up => inv.rises step up⟩
  rw [inv.sources]
  exact Int.natCast_nonneg _

def steps (i : Nat) (choices : List Bool) : List Event := choices.map (.party i)

-- With room for one: a relay is turned away while a client has the place, the client fails before its
-- thread starts, and the relay comes back, plays and stops.
def evening : List Event := [.arrive .client,.arrive .relay]++steps 0 [true,true,true,true,true,true,true,true]++
  steps 1 [true,true,true,true,true]++steps 0 [true,true,true,true,true]++
  steps 1 [true,true,true,true,true,true,true,true,true,true,false,true,true,true]

def closed : State := ⟨⟨0,1,false,0⟩,[⟨.client,.ended,1,1⟩,⟨.relay,.waiting,1,1⟩]⟩

theorem evening_closed : Runs Step (start 1) evening closed :=
  runFrom_sound id (by decide +kernel : runFrom next (start 1) evening = some closed)

theorem sources_exact_evening : closed.shared.sources = closed.parties.countP (·.pc.counted) :=
    (sources_exact evening_closed).1

end Icecast.SourceSlots
