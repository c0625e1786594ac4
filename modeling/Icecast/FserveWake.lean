import Icecast.Lib.Lists
import Icecast.Lib.Transition

namespace Icecast.FserveWake
open Lists Transition

-- The static variables of fserve.c; ufds is none for NULL, else the length of the array.
structure Shared where
  pending : List Nat
  active : List Nat
  clients : Nat
  changed : Bool
  ufds : Option Nat
  running : Bool
  locked : Bool
deriving DecidableEq

-- Where a caller of fserve_add_pending is: `rest` is what it read of pending_list.
inductive Caller where
  | entering (c : Nat)
  | linking (c : Nat)
  | inserting (c : Nat) (rest : List Nat)
  | looking
  | raising
  | starting
  | unlocking
  | returned
deriving DecidableEq

-- Where a file serving thread is: wait_for_fds up to `unlocking`, fserve_client_waiting up to
-- `marking`, the loop of fserv_thread_function, and the end of fserve_client_waiting where it
-- found no descriptors.
inductive Thread where
  | checking
  | looking
  | locking
  | taking
  | moving (rest : List Nat)
  | counting (rest : List Nat)
  | clearing
  | unlocking
  | waiting
  | sizing
  | allocating (n : Nat)
  | filling (k : Nat)
  | testing
  | polling
  | marking (k : Nat)
  | walking (k : Nat)
  | dropping (k : Nat)
  | stopLocking
  | stopping
  | stopUnlocking
  | ended
deriving DecidableEq

-- One access of fserve_add_pending, and whether it is thread_create.
def callerStep (m : Shared) : Caller → Option (Caller × Shared × Bool)
  | .entering c => if m.locked then none else some (.linking c,{m with locked := true},false)
  | .linking c => some (.inserting c m.pending,m,false)
  | .inserting c rest => some (.looking,{m with pending := c::rest},false)
  | .looking => some (if m.running then .unlocking else .raising,m,false)
  | .raising => some (.starting,{m with running := true},false)
  | .starting => some (.unlocking,m,true)
  | .unlocking => some (.returned,{m with locked := false},false)
  | .returned => none

-- One access of a file serving thread. `choice` is what poll finds, or that a client of the
-- active list is done. realloc to no size at all gives NULL.
def threadStep (choice : Bool) (m : Shared) : Thread → Option (Thread × Shared)
  | .checking => some (if m.running then .looking else .ended,m)
  | .looking => some (if m.pending = [] then .waiting else .locking,m)
  | .locking => if m.locked then none else some (.taking,{m with locked := true})
  | .taking => some (.moving m.pending,m)
  | .moving [] => some (.clearing,m)
  | .moving (c::rest) => some (.counting rest,{m with active := c::m.active,changed := true})
  | .counting rest => some (.moving rest,{m with clients := m.clients+1})
  | .clearing => some (.unlocking,{m with pending := []})
  | .unlocking => some (.waiting,{m with locked := false})
  | .waiting => some (if m.changed then .sizing else .testing,{m with changed := false})
  | .sizing => some (.allocating m.clients,m)
  | .allocating n => some (.filling 0,{m with ufds := if n = 0 then none else some n})
  | .filling k => some (if k < m.active.length then .filling (k+1) else .testing,m)
  | .testing => some (if m.ufds = none then .stopLocking else .polling,m)
  | .polling => some (if choice then .marking 0 else .checking,m)
  | .marking k => some (if k < m.clients then .marking (k+1) else .walking 0,m)
  | .walking k =>
    if k < m.active.length then
      some (if choice then (.dropping k,{m with active := m.active.eraseIdx k}) else (.walking (k+1),m))
    else some (.checking,m)
  | .dropping k => some (.walking k,{m with clients := m.clients-1,changed := true})
  | .stopLocking => if m.locked then none else some (.stopping,{m with locked := true})
  | .stopping => some (.stopUnlocking,{m with running := false})
  | .stopUnlocking => some (.ended,{m with locked := false})
  | .ended => none

structure Fserve where
  shared : Shared
  callers : List Caller
  threads : List Thread
deriving DecidableEq

def start : Fserve := ⟨⟨[],[],0,false,none,false,false⟩,[],[]⟩

-- A call of fserve_add_pending, and the next access of a caller or a thread.
inductive Event where
  | call (c : Nat)
  | caller (i : Nat)
  | thread (i : Nat) (choice : Bool)
deriving DecidableEq

def next (s : Fserve) : Event → Option Fserve
  | .call c => some {s with callers := s.callers++[.entering c]}
  | .caller i =>
    (s.callers[i]?).bind fun pc => (callerStep s.shared pc).map fun r =>
      ⟨r.2.1,s.callers.set i r.1,if r.2.2 then s.threads++[.checking] else s.threads⟩
  | .thread i choice =>
    (s.threads[i]?).bind fun pc => (threadStep choice s.shared pc).map fun r => ⟨r.2,s.callers,s.threads.set i r.1⟩

def Step (s : Fserve) (event : Event) (t : Fserve) : Prop := next s event = some t

-- Between its thread_spin_lock and its thread_spin_unlock.
def Caller.holds : Caller → Bool
  | .entering _ | .returned => false
  | _ => true

def Thread.holds : Thread → Bool
  | .taking | .moving _ | .counting _ | .clearing | .unlocking | .stopping | .stopUnlocking => true
  | _ => false

-- A caller that starts the thread where run_fserv stays 0.
def Caller.willStart : Caller → Bool
  | .unlocking | .returned => false
  | _ => true

def Thread.serves : Thread → Bool
  | .stopUnlocking | .ended => false
  | _ => true

-- A thread that follows the pointers of the active list.
def Thread.walks : Thread → Bool
  | .moving _ | .counting _ | .filling _ | .marking _ | .walking _ | .dropping _ => true
  | _ => false

-- A client in the pending list is waited for by a thread, or by a caller that will start one.
def Awaited (s : Fserve) : Prop :=
  s.shared.pending ≠ [] → s.shared.running = true ∨ ∃ pc ∈ s.callers, pc.willStart = true

-- The thread does not clear run_fserv over a client that came after its look at the pending
-- list, unless another caller is about to enter.
def Fair (s : Fserve) : Event → Prop
  | .thread i _ => s.threads[i]? = some .stopping → s.shared.pending ≠ [] → ∃ pc ∈ s.callers, pc.willStart = true
  | _ => True

instance decideFair (s : Fserve) : (event : Event) → Decidable (Fair s event)
  | .thread i _ => inferInstanceAs
    (Decidable (s.threads[i]? = some .stopping → s.shared.pending ≠ [] → ∃ pc ∈ s.callers, pc.willStart = true))
  | .call _ | .caller _ => isTrue trivial

-- The lock has one holder, run_fserv tells that there is one thread or that it is created, and
-- a caller that is about to set it found it 0.
structure Inv (s : Fserve) : Prop where
  lock : s.callers.countP (·.holds)+s.threads.countP (·.holds) = one s.shared.locked
  single : s.threads.countP (·.serves)+s.callers.countP (· = .starting) = one s.shared.running
  raise : s.shared.running = true → s.callers.countP (· = .raising) = 0

theorem Inv.raisers (inv : Inv s) : s.callers.countP (· = .raising) ≤ 1 := by
  have holders : s.callers.countP (· = .raising) ≤ s.callers.countP (·.holds) := by
    refine List.countP_mono_left fun pc _ same => ?_
    rw [of_decide_eq_true same]
    rfl
  have lock := inv.lock
  have bound := one_le (b := s.shared.locked)
  omega

theorem Inv.holder {i : Nat} (inv : Inv s) {pc : Thread} (here : s.threads[i]? = some pc) (holds : pc.holds = true) :
    s.shared.locked = true ∧ s.callers.countP (·.holds) = 0 := by
  have filled : 0 < s.threads.countP (·.holds) := List.countP_pos_iff.mpr ⟨pc,List.mem_of_getElem? here,holds⟩
  have lock := inv.lock
  cases locked : s.shared.locked with
  | true =>
    rw [locked] at lock
    simp only [one,if_true] at lock
    exact ⟨rfl,by omega⟩
  | false =>
    rw [locked] at lock
    simp only [one,Bool.false_eq_true,if_false] at lock
    omega

theorem Inv.caller_holder {i : Nat} (inv : Inv s) {pc : Caller} (here : s.callers[i]? = some pc)
    (holds : pc.holds = true) :
    s.shared.locked = true := by
  have filled : 0 < s.callers.countP (·.holds) := List.countP_pos_iff.mpr ⟨pc,List.mem_of_getElem? here,holds⟩
  have lock := inv.lock
  by_contra free
  rw [eq_false_of_ne_true free] at lock
  simp only [one,Bool.false_eq_true,if_false] at lock
  omega

theorem Inv.caller_moves (inv : Inv s) (here : s.callers[i]? = some pc)
    (lock : one pc'.holds+one s.shared.locked = one pc.holds+one m.locked)
    (single : one created+one (pc' = .starting)+one s.shared.running = one (pc = .starting)+one m.running)
    (raise : m.running = true → pc' ≠ .raising ∧ (s.shared.running = true ∨ pc = .raising)) :
    Inv ⟨m,s.callers.set i pc',if created then s.threads++[.checking] else s.threads⟩ := by
  have holders : (s.callers.set i pc').countP (·.holds)+one pc.holds = s.callers.countP
    (·.holds)+one pc'.holds := countP_set _ here pc'
  have starters : (s.callers.set i pc').countP (· = .starting)+one (pc = .starting) = s.callers.countP
    (· = .starting)+one (pc' = .starting) :=
    countP_set _ here pc'
  have raisers : (s.callers.set i pc').countP (· = .raising)+one (pc = .raising) = s.callers.countP
    (· = .raising)+one (pc' = .raising) :=
    countP_set _ here pc'
  have threads : (if created then s.threads++[.checking] else s.threads).countP (·.holds) = s.threads.countP (·.holds) ∧
      (if created then s.threads++[.checking] else s.threads).countP (·.serves) = s.threads.countP
        (·.serves)+one created := by
    cases created with
    | true => exact ⟨by rw [if_pos rfl,List.countP_append]; rfl,by rw [if_pos rfl,List.countP_append]; rfl⟩
    | false => exact ⟨rfl,rfl⟩
  have oldLock := inv.lock
  have oldSingle := inv.single
  refine ⟨?_,?_,fun running => ?_⟩
  · rw [threads.1]
    dsimp only
    omega
  · rw [threads.2]
    dsimp only
    omega
  · obtain ⟨other,cause⟩ := raise running
    have absent : one (decide (pc' = .raising)) = 0 := by simp [one,other]
    rw [absent] at raisers
    rcases cause with up | same
    · have old := inv.raise up
      dsimp only
      omega
    · have one_ : one (decide (pc = .raising)) = 1 := by simp [one,same]
      have old := inv.raisers
      dsimp only
      omega

theorem caller_inv (inv : Inv s) (here : s.callers[i]? = some pc)
    (step : callerStep s.shared pc = some (pc',m,created)) :
    Inv ⟨m,s.callers.set i pc',if created then s.threads++[.checking] else s.threads⟩ := by
  cases pc with
  | entering c =>
    simp only [callerStep] at step
    split at step
    · cases step
    · rename_i free
      cases step
      exact inv.caller_moves here (by simp [Caller.holds,one,free]) (by simp [one]) fun running => ⟨nofun,.inl running⟩
  | linking c =>
    cases step
    exact inv.caller_moves here rfl (by simp [one]) fun running => ⟨nofun,.inl running⟩
  | inserting c rest =>
    cases step
    exact inv.caller_moves here rfl (by simp [one]) fun running => ⟨nofun,.inl running⟩
  | looking =>
    cases up : s.shared.running with
    | true =>
      simp only [callerStep,up,if_true] at step
      cases step
      exact inv.caller_moves here rfl (by simp [one]) fun running => ⟨nofun,.inl running⟩
    | false =>
      simp only [callerStep,up,Bool.false_eq_true,if_false] at step
      cases step
      exact inv.caller_moves here rfl (by simp [one]) fun running => absurd (running.symm.trans up) (by decide)
  | raising =>
    cases step
    have down : s.shared.running = false := by
      have filled : 0 < s.callers.countP (· = .raising) :=
        List.countP_pos_iff.mpr ⟨_,List.mem_of_getElem? here,decide_eq_true rfl⟩
      by_contra up
      have absent := inv.raise (by simpa using up)
      omega
    exact inv.caller_moves here rfl (by simp [one,down]) fun _ => ⟨nofun,.inr rfl⟩
  | starting =>
    cases step
    exact inv.caller_moves here rfl (by simp [one]) fun running => ⟨nofun,.inl running⟩
  | unlocking =>
    cases step
    have locked := inv.caller_holder here rfl
    exact inv.caller_moves here (by simp [Caller.holds,one,locked]) (by simp [one]) fun running => ⟨nofun,.inl running⟩
  | returned => cases step

theorem Inv.thread_moves (inv : Inv s) (here : s.threads[i]? = some pc)
    (lock : one pc'.holds+one s.shared.locked = one pc.holds+one m.locked)
    (single : one pc'.serves+one s.shared.running = one pc.serves+one m.running)
    (raise : m.running = true → s.shared.running = true) :
    Inv ⟨m,s.callers,s.threads.set i pc'⟩ := by
  have holders : (s.threads.set i pc').countP (·.holds)+one pc.holds = s.threads.countP
    (·.holds)+one pc'.holds := countP_set _ here pc'
  have servers : (s.threads.set i pc').countP (·.serves)+one pc.serves = s.threads.countP
    (·.serves)+one pc'.serves := countP_set _ here pc'
  have oldLock := inv.lock
  have oldSingle := inv.single
  refine ⟨?_,?_,fun running => inv.raise (raise running)⟩
  · dsimp only
    omega
  · dsimp only
    omega

-- A thread that serves is the only one, and run_fserv is set.
theorem Inv.server {i : Nat} (inv : Inv s) {pc : Thread} (here : s.threads[i]? = some pc) (serves : pc.serves = true) :
    s.shared.running = true := by
  have filled : 0 < s.threads.countP (·.serves) := List.countP_pos_iff.mpr ⟨pc,List.mem_of_getElem? here,serves⟩
  have single := inv.single
  by_contra down
  rw [eq_false_of_ne_true down] at single
  simp only [one,Bool.false_eq_true,if_false] at single
  omega

theorem thread_inv {i : Nat} (inv : Inv s) (here : s.threads[i]? = some pc)
    (step : threadStep choice s.shared pc = some (pc',m)) :
    Inv ⟨m,s.callers,s.threads.set i pc'⟩ := by
  cases pc with
  | checking =>
    have up := inv.server here rfl
    simp only [threadStep,up,if_true] at step
    cases step
    exact inv.thread_moves here rfl rfl id
  | looking =>
    simp only [threadStep] at step
    split at step <;> cases step <;> exact inv.thread_moves here rfl rfl id
  | locking =>
    simp only [threadStep] at step
    split at step
    · cases step
    · rename_i free
      cases step
      exact inv.thread_moves here (by simp [Thread.holds,one,free]) rfl id
  | taking =>
    cases step
    exact inv.thread_moves here rfl rfl id
  | moving rest =>
    cases rest <;> cases step <;> exact inv.thread_moves here rfl rfl id
  | counting rest =>
    cases step
    exact inv.thread_moves here rfl rfl id
  | clearing =>
    cases step
    exact inv.thread_moves here rfl rfl id
  | unlocking =>
    cases step
    have locked := (inv.holder here rfl).1
    exact inv.thread_moves here (by simp [Thread.holds,one,locked]) rfl id
  | waiting =>
    simp only [threadStep] at step
    cases step
    split <;> exact inv.thread_moves here rfl rfl id
  | sizing =>
    cases step
    exact inv.thread_moves here rfl rfl id
  | allocating n =>
    cases step
    exact inv.thread_moves here rfl rfl id
  | filling k =>
    simp only [threadStep] at step
    cases step
    split <;> exact inv.thread_moves here rfl rfl id
  | testing =>
    simp only [threadStep] at step
    cases step
    split <;> exact inv.thread_moves here rfl rfl id
  | polling =>
    simp only [threadStep] at step
    cases step
    split <;> exact inv.thread_moves here rfl rfl id
  | marking k =>
    simp only [threadStep] at step
    cases step
    split <;> exact inv.thread_moves here rfl rfl id
  | walking k =>
    simp only [threadStep] at step
    split at step
    · cases choice <;> cases step <;> exact inv.thread_moves here rfl rfl id
    · cases step
      exact inv.thread_moves here rfl rfl id
  | dropping k =>
    cases step
    exact inv.thread_moves here rfl rfl id
  | stopLocking =>
    simp only [threadStep] at step
    split at step
    · cases step
    · rename_i free
      cases step
      exact inv.thread_moves here (by simp [Thread.holds,one,free]) rfl id
  | stopping =>
    cases step
    have up := inv.server here rfl
    exact inv.thread_moves here rfl (by simp [Thread.serves,one,up]) nofun
  | stopUnlocking =>
    cases step
    have locked := (inv.holder here rfl).1
    exact inv.thread_moves here (by simp [Thread.holds,one,locked]) rfl id
  | ended => cases step

theorem step_inv (inv : Inv s) (step : Step s event t) : Inv t := by
  cases event with
  | call c =>
    cases step
    refine ⟨?_,?_,fun running => ?_⟩
    · dsimp only
      rw [List.countP_append]
      exact inv.lock
    · dsimp only
      rw [List.countP_append]
      exact inv.single
    · dsimp only
      rw [List.countP_append]
      exact inv.raise running
  | caller i =>
    obtain ⟨pc,here,rest⟩ := Option.bind_eq_some_iff.mp step
    obtain ⟨r,moved,same⟩ := Option.map_eq_some_iff.mp rest
    rw [←same]
    exact caller_inv inv here moved
  | thread i choice =>
    obtain ⟨pc,here,rest⟩ := Option.bind_eq_some_iff.mp step
    obtain ⟨r,moved,same⟩ := Option.map_eq_some_iff.mp rest
    rw [←same]
    exact thread_inv inv here moved

theorem start_inv : Inv start := ⟨rfl,rfl,nofun⟩

theorem Inv.one_walks (inv : Inv s) : s.threads.countP (·.walks) ≤ 1 := by
  have walkers : s.threads.countP (·.walks) ≤ s.threads.countP (·.serves) := by
    refine List.countP_mono_left fun pc _ walks => ?_
    cases pc <;> first | rfl | cases walks
  have single := inv.single
  have bound := one_le (b := s.shared.running)
  omega

theorem willStart_set {i : Nat} {callers : List Caller} (here : callers[i]? = some pc) (same : pc.willStart = false)
    (other : ∃ pc ∈ callers, pc.willStart = true) : ∃ pc ∈ callers.set i pc', pc.willStart = true := by
  obtain ⟨starter,within,starts⟩ := other
  obtain ⟨j,found⟩ := List.getElem?_of_mem within
  refine ⟨starter,List.mem_of_getElem? (i := j) ?_,starts⟩
  by_cases place : i = j
  · subst place
    rw [found] at here
    cases here
    exact absurd (same.symm.trans starts) (by decide)
  · rw [List.getElem?_set_ne place,found]

theorem willStart_new {i : Nat} {callers : List Caller} (here : callers[i]? = some pc) (starts : pc'.willStart = true) :
    ∃ pc ∈ callers.set i pc', pc.willStart = true :=
  ⟨pc',List.mem_set (List.getElem?_eq_some_iff.mp here).1 pc',starts⟩

theorem caller_awaited {i : Nat} (inv : Inv s) (waits : Awaited s) (here : s.callers[i]? = some pc)
    (step : callerStep s.shared pc = some (pc',m,created)) : m.pending ≠ [] → m.running = true ∨
    ∃ pc ∈ s.callers.set i pc', pc.willStart = true := by
  intro filled
  cases pc with
  | entering c =>
    simp only [callerStep] at step
    split at step
    · cases step
    · cases step
      exact .inr (willStart_new here rfl)
  | linking c =>
    cases step
    exact .inr (willStart_new here rfl)
  | inserting c rest =>
    cases step
    exact .inr (willStart_new here rfl)
  | looking =>
    cases up : s.shared.running with
    | true =>
      cases step
      exact .inl up
    | false =>
      simp only [callerStep,up,Bool.false_eq_true,if_false] at step
      cases step
      exact .inr (willStart_new here rfl)
  | raising =>
    cases step
    exact .inl rfl
  | starting =>
    cases step
    have filled : 0 < s.callers.countP (· = .starting) :=
      List.countP_pos_iff.mpr ⟨_,List.mem_of_getElem? here,decide_eq_true rfl⟩
    have single := inv.single
    refine .inl ?_
    by_contra down
    rw [eq_false_of_ne_true down] at single
    simp only [one,Bool.false_eq_true,if_false] at single
    omega
  | unlocking =>
    cases step
    exact (waits filled).imp id (willStart_set here rfl)
  | returned => cases step

-- Only clearing run_fserv can leave a client behind, and the pending list only loses clients otherwise.
theorem thread_keeps (step : threadStep choice m pc = some (pc',m')) (other : pc ≠ .stopping) :
    m'.running = m.running ∧ (m'.pending ≠ [] → m.pending ≠ []) := by
  cases pc with
  | stopping => exact absurd rfl other
  | clearing =>
    cases step
    exact ⟨rfl,fun filled => absurd rfl filled⟩
  | moving rest => cases rest <;> cases step <;> exact ⟨rfl,id⟩
  | locking | stopLocking =>
    simp only [threadStep] at step
    split at step <;> cases step
    exact ⟨rfl,id⟩
  | walking k =>
    simp only [threadStep] at step
    split at step
    · cases choice <;> cases step <;> exact ⟨rfl,id⟩
    · cases step
      exact ⟨rfl,id⟩
  | ended => cases step
  | _ =>
    cases step
    exact ⟨rfl,id⟩

theorem step_awaited (inv : Inv s) (waits : Awaited s) (step : Step s event t) : Awaited t ↔ Fair s event := by
  cases event with
  | call c =>
    cases step
    refine ⟨fun _ => trivial,fun _ filled => (waits filled).imp id ?_⟩
    rintro ⟨pc,within,starts⟩
    exact ⟨pc,List.mem_append_left _ within,starts⟩
  | caller i =>
    obtain ⟨pc,here,rest⟩ := Option.bind_eq_some_iff.mp step
    obtain ⟨r,moved,same⟩ := Option.map_eq_some_iff.mp rest
    rw [←same]
    exact ⟨fun _ => trivial,fun _ => caller_awaited inv waits here moved⟩
  | thread i choice =>
    obtain ⟨pc,here,rest⟩ := Option.bind_eq_some_iff.mp step
    obtain ⟨r,moved,same⟩ := Option.map_eq_some_iff.mp rest
    rw [←same]
    by_cases stops : pc = .stopping
    · subst stops
      cases moved
      constructor
      · intro kept _ filled
        exact (kept filled).resolve_left nofun
      · intro fair filled
        exact .inr (fair here filled)
    · obtain ⟨running,pending⟩ := thread_keeps moved stops
      constructor
      · intro _ place
        rw [here] at place
        exact absurd (Option.some.inj place) stops
      · intro _ filled
        refine (waits (pending filled)).imp (fun up => ?_) id
        exact running.trans up

-- What fair runs keep.
structure Watched (s : Fserve) : Prop extends Inv s where
  waits : Awaited s

theorem Watched.next (watched : Watched s) (step : Step s event t) (fair : Fair s event) : Watched t :=
  ⟨step_inv watched.toInv step,(step_awaited watched.toInv watched.waits step).mpr fair⟩

-- Two threads never walk the active list together; a pending client stays awaited up to the
-- first time run_fserv is cleared over it.
theorem runs_wake (run : Runs Step start events s) : s.threads.countP (·.walks) ≤ 1 ∧
    (Runs (fun s event t => Step s event t ∧ Fair s event) start events s →
      Awaited s ∧ ∀ event t, Step s event t → (Awaited t ↔ Fair s event)) := by
  have inv : Inv s := run.preserves (fun inv last => step_inv inv last) start_inv
  refine ⟨inv.one_walks,fun fair => ?_⟩
  have watched : Watched s := fair.preserves (fun old last => old.next last.1 last.2) ⟨start_inv,nofun⟩
  exact ⟨watched.waits,fun _ _ step => step_awaited inv watched.waits step⟩

-- A client is taken over, served and dropped, and the thread finds nothing left to poll.
def drained : List Event :=
  [.call 1]++List.replicate 7 (.caller 0)++List.replicate 15 (.thread 0 false)++List.replicate 4 (.thread 0 true)++
  List.replicate 9 (.thread 0 false)

-- A second client comes there: to the thread that is about to stop, or after it stopped.
def missed : List Event := drained++[.call 2]++List.replicate 5 (.caller 1)
def restarted : List Event := drained++List.replicate 3 (.thread 0 false)++[.call 2]++List.replicate 7 (.caller 1)

theorem runs_wake_restarted : ∃ s, Runs Step start restarted s ∧ s.shared.pending = [2] ∧
    s.threads.countP (·.walks) ≤ 1 ∧
    Awaited s := by
  have ran : (runFrom (guarded Fair next) start restarted).map (·.shared.pending) = some [2] := by decide +kernel
  obtain ⟨s,ran,pending⟩ := Option.map_eq_some_iff.mp ran
  have fair := runFrom_sound guarded_sound ran
  have plain : Runs Step start restarted s := fair.imp fun step => step.1
  have wakes := runs_wake plain
  exact ⟨s,plain,pending,wakes.1,(wakes.2 fair).1⟩

-- The second client is left in the pending list with no thread and no caller.
theorem client_stranded : ∃ s, Runs Step start (missed++[.thread 0 false,.thread 0 false,.thread 0 false]) s ∧
    s.shared.pending = [2] ∧ s.shared.running = false ∧ s.threads = [.ended] ∧
    s.callers = [.returned,.returned] ∧ ¬Awaited s := by
  have ran : (runFrom next start (missed++[.thread 0 false,.thread 0 false,.thread 0 false])).map
      (fun s => (s.shared.pending,s.shared.running,s.threads,s.callers)) =
        some ([2],false,[.ended],[.returned,.returned]) := by
    decide +kernel
  obtain ⟨s,ran,values⟩ := Option.map_eq_some_iff.mp ran
  have pending : s.shared.pending = [2] := congrArg (·.1) values
  have running : s.shared.running = false := congrArg (·.2.1) values
  have callers : s.callers = [.returned,.returned] := congrArg (·.2.2.2) values
  refine ⟨s,runFrom_sound (fun step => step) ran,pending,running,congrArg (·.2.2.1) values,callers,fun waits => ?_⟩
  rcases waits (by rw [pending]; nofun) with up | ⟨pc,within,starts⟩
  · rw [running] at up
    cases up
  · rw [callers] at within
    have returned : pc = .returned := by simpa using within
    rw [returned] at starts
    cases starts

end Icecast.FserveWake
