import Mathlib.Data.List.Basic
import Icecast.Lib.Transition

namespace Icecast.ListenSockets
open Transition

-- listener_t.
structure Listener where
  port : Int
  bind_address : Option String
  shoutcast_compat : Bool
  shoutcast_mount : Option String
  ssl : Bool
deriving DecidableEq

def Listener.place (l : Listener) : Int × Option String := (l.port,l.bind_address)

-- The loop of connection_setup_sockets. Each listener comes with the socket that
-- sock_get_server_socket and sock_listen give for it; one that fails is removed from the list.
def connectionSetupSockets : List (Listener × Option Nat) → List Listener × List (Option Nat)
  | [] => ([],[])
  | (listener,some sock)::rest =>
    let r := connectionSetupSockets rest
    (listener::r.1,some sock::r.2)
  | (_,none)::rest => connectionSetupSockets rest

-- The events poll finds on a socket.
structure Revents where
  pollin : Bool
  failed : Bool
deriving DecidableEq

-- The first loop of wait_for_serversock: the first socket with a connection, or the sockets with
-- those that failed closed. SOCK_ERROR is none.
def scan : List (Option Nat) → List Revents → Option (Option Nat) × List (Option Nat)
  | sock::socks,ev::revents =>
    if ev.pollin then (some sock,sock::socks)
    else
      let r := scan socks revents
      (r.1,(if ev.failed then none else sock)::r.2)
  | socks,_ => (none,socks)

-- "remove any closed sockets".
def compact (serversock : List (Option Nat)) : List (Option Nat) := serversock.filter Option.isSome

def waitForServersock (serversock : List (Option Nat)) (revents : List Revents) : Option Nat × List (Option Nat) :=
  match scan serversock revents with
  | (some sock,socks) => (sock,socks)
  | (none,socks) => (none,compact socks)

-- The loop of config_get_listen_sock over the listeners and global.serversock.
def configGetListenSock (con : Nat) : List Listener → List (Option Nat) → Option Listener
  | listener::listeners,sock::serversock =>
    if sock = some con then some listener else configGetListenSock con listeners serversock
  | _,_ => none

-- The configured listeners, global.serversock, what each socket was bound to, and the accepted
-- connections by their con->serversock.
structure State where
  listeners : List Listener
  serversock : List (Option Nat)
  bound : List (Nat × (Int × Option String))
  cons : List Nat
deriving DecidableEq

-- The server as it starts to listen.
def setup (opened : List (Listener × Option Nat)) : State :=
  let r := connectionSetupSockets opened
  ⟨r.1,r.2,opened.filterMap fun o => o.2.map fun sock => (sock,o.1.place),[]⟩

-- A wait for a connection, which sock_accept then gives or not; event_config_read with a file that
-- parses; a connection that is gone.
inductive Event where
  | poll (revents : List Revents) (accepted : Bool)
  | reload (listeners : List Listener)
  | finish (con : Nat)
deriving DecidableEq

def next (s : State) : Event → Option State
  | .poll revents accepted =>
    let waited := waitForServersock s.serversock revents
    let cons := match waited.1 with
      | some sock => if accepted then sock::s.cons else s.cons
      | none => s.cons
    some {s with serversock := waited.2,cons := cons}
  | .reload listeners => some {s with listeners := listeners}
  | .finish con => some {s with cons := s.cons.erase con}

def Step (s : State) (event : Event) (t : State) : Prop := next s event = some t

-- The listener entry of the port and address a connection was accepted on, or NULL where the
-- configuration has none.
def Right (s : State) (con : Nat) : Prop :=
  match configGetListenSock con s.listeners s.serversock with
  | some l => s.bound.lookup con = some l.place
  | none => ∀ l ∈ s.listeners, s.bound.lookup con ≠ some l.place

instance (s : State) (con : Nat) : Decidable (Right s con) := by
  unfold Right
  split <;> infer_instance

-- The listener at a position is the one the socket was opened for; past the end of the list, the
-- list has no such listener.
def Fits (bound : List (Nat × (Int × Option String))) (listeners : List Listener) (i sock : Nat) : Prop :=
  match listeners[i]? with
  | some l => bound.lookup sock = some l.place
  | none => ∀ l ∈ listeners, bound.lookup sock ≠ some l.place

-- A reload keeps the port and address at the position of every open socket, and brings none back
-- that a connection came from whose socket is closed. A poll closes no socket that a connection came
-- from and that is configured, and moves no open socket to the place of another listener.
def Fair (s : State) : Event → Prop
  | .reload listeners =>
    (∀ i sock, s.serversock[i]? = some (some sock) → Fits s.bound listeners i sock) ∧
      ∀ con ∈ s.cons, some con ∉ s.serversock → ∀ l ∈ listeners, s.bound.lookup con ≠ some l.place
  | .poll revents _ =>
    let scanned := scan s.serversock revents
    (∀ con ∈ s.cons, some con ∈ s.serversock → some con ∉ scanned.2 → ∀ l ∈ s.listeners,
      s.bound.lookup con ≠ some l.place) ∧
      (scanned.1 = none → ∀ j sock, scanned.2[j]? = some (some sock) →
        let i := (scanned.2.take j).countP Option.isSome
        i = j ∨ Fits s.bound s.listeners i sock)
  | .finish _ => True

theorem search_found {con : Nat} (listeners : List Listener) {serversock : List (Option Nat)}
    (open_ : some con ∈ serversock) :
    ∃ i : Nat, serversock[i]? = some (some con) ∧ configGetListenSock con listeners serversock = listeners[i]? := by
  induction serversock generalizing listeners with
  | nil => cases open_
  | cons sock serversock ih =>
    by_cases here : sock = some con
    · refine ⟨0,by simp [here],?_⟩
      cases listeners with
      | nil => rfl
      | cons l listeners => simp [configGetListenSock,here]
    · have later : some con ∈ serversock := (List.mem_cons.mp open_).resolve_left (Ne.symm here)
      cases listeners with
      | nil =>
        obtain ⟨i,spot,_⟩ := ih [] later
        exact ⟨i+1,by simpa using spot,rfl⟩
      | cons l listeners =>
        obtain ⟨i,spot,found⟩ := ih listeners later
        refine ⟨i+1,by simpa using spot,?_⟩
        rw [configGetListenSock,if_neg here,found]
        rfl

theorem search_closed {con : Nat} {listeners : List Listener} {serversock : List (Option Nat)}
    (closed : some con ∉ serversock) :
    configGetListenSock con listeners serversock = none := by
  induction serversock generalizing listeners with
  | nil => cases listeners <;> rfl
  | cons sock serversock ih =>
    cases listeners with
    | nil => rfl
    | cons l listeners =>
      have other : ¬sock = some con := fun same => closed (same ▸ List.mem_cons_self)
      rw [configGetListenSock,if_neg other]
      exact ih fun later => closed (List.mem_cons_of_mem _ later)

-- Closing only turns entries into SOCK_ERROR, each in its place.
theorem scan_keeps {socks : List (Option Nat)} (revents : List Revents) {i sock : Nat}
    (here : (scan socks revents).2[i]? = some (some sock)) : socks[i]? = some (some sock) := by
  induction socks generalizing revents i with
  | nil => simp [scan] at here
  | cons first socks ih =>
    cases revents with
    | nil => exact here
    | cons ev revents =>
      unfold scan at here
      split at here
      · exact here
      · cases i with
        | zero =>
          simp only [List.getElem?_cons_zero,Option.some.injEq] at here ⊢
          split at here
          · cases here
          · exact here
        | succ i =>
          simp only [List.getElem?_cons_succ] at here ⊢
          exact ih revents here

theorem scan_returns {socks : List (Option Nat)} {revents : List Revents} (found : (scan socks revents).1 = some sock) :
    sock ∈ (scan socks revents).2 := by
  induction socks generalizing revents with
  | nil => simp [scan] at found
  | cons first socks ih =>
    cases revents with
    | nil => simp [scan] at found
    | cons ev revents =>
      unfold scan at found ⊢
      split at found
      · rename_i ready
        rw [if_pos ready]
        cases Option.some.inj found
        exact List.mem_cons_self
      · rename_i idle
        rw [if_neg idle]
        exact List.mem_cons_of_mem _ (ih found)

theorem compact_index {socks : List (Option Nat)} {i sock : Nat} (here : (compact socks)[i]? = some (some sock)) :
    ∃ j, socks[j]? = some (some sock) ∧ (socks.take j).countP Option.isSome = i := by
  unfold compact at here
  induction socks generalizing i with
  | nil => simp at here
  | cons first socks ih =>
    cases first with
    | none =>
      obtain ⟨j,spot,count⟩ := ih (by simpa using here)
      exact ⟨j+1,by simpa using spot,by simpa using count⟩
    | some fd =>
      cases i with
      | zero => exact ⟨0,by simpa using here,rfl⟩
      | succ i =>
        obtain ⟨j,spot,count⟩ := ih (i := i) (by simpa using here)
        exact ⟨j+1,by simpa using spot,by simpa using count⟩

theorem compact_mem {socks : List (Option Nat)} : some sock ∈ compact socks ↔ some sock ∈ socks := by simp [compact]

structure Inv (s : State) : Prop where
  open_ : ∀ i sock, s.serversock[i]? = some (some sock) → Fits s.bound s.listeners i sock
  gone : ∀ con ∈ s.cons, some con ∉ s.serversock → ∀ l ∈ s.listeners, s.bound.lookup con ≠ some l.place

theorem Inv.right (inv : Inv s) (member : con ∈ s.cons) : Right s con := by
  unfold Right
  by_cases open_ : some con ∈ s.serversock
  · obtain ⟨i,here,found⟩ := search_found s.listeners open_
    rw [found]
    exact inv.open_ i con here
  · rw [search_closed open_]
    exact inv.gone con member open_

theorem Inv.poll (inv : Inv s) (fair : Fair s (.poll revents accepted))
    (step : Step s (.poll revents accepted) t) : Inv t := by
  obtain ⟨closed,moved⟩ := fair
  cases step
  have kept : ∀ i sock, (waitForServersock s.serversock revents).2[i]? = some (some sock) →
    Fits s.bound s.listeners i sock := by
    intro i sock here
    unfold waitForServersock at here
    split at here
    · rename_i first socks scanned
      refine inv.open_ i sock (scan_keeps revents ?_)
      rw [scanned]
      exact here
    · rename_i socks scanned
      obtain ⟨j,before,count⟩ := compact_index here
      rw [scanned] at moved
      rcases moved rfl j sock before with same | fits
      · rw [←count,same]
        refine inv.open_ j sock (scan_keeps revents ?_)
        rw [scanned]
        exact before
      · exact count ▸ fits
  have members : ∀ con, some con ∈ (waitForServersock s.serversock revents).2 ↔
    some con ∈ (scan s.serversock revents).2 := by
    intro con
    unfold waitForServersock
    split
    · rename_i scanned
      rw [scanned]
    · rename_i scanned
      rw [scanned]
      exact compact_mem
  refine ⟨kept,?_⟩
  intro con member out
  have out : some con ∉ (scan s.serversock revents).2 := fun inside => out ((members con).mpr inside)
  have old : con ∈ s.cons → ∀ l ∈ s.listeners, s.bound.lookup con ≠ some l.place := by
    intro member
    by_cases before : some con ∈ s.serversock
    · exact closed con member before out
    · exact inv.gone con member before
  -- a connection that was just accepted came from a socket that stays open
  have new : (waitForServersock s.serversock revents).1 ≠ some con := by
    intro found
    unfold waitForServersock at found
    split at found
    · rename_i scanned
      exact out (scan_returns (by rw [scanned]; exact congrArg some found))
    · cases found
  simp only at member
  split at member
  · rename_i sock returned
    split at member
    · rcases List.mem_cons.mp member with rfl | member
      · exact absurd returned new
      · exact old member
    · exact old member
  · exact old member

theorem Inv.step (inv : Inv s) (fair : Fair s event) (step : Step s event t) : Inv t := by
  cases event with
  | poll revents accepted => exact inv.poll fair step
  | reload listeners =>
    cases step
    exact ⟨fair.1,fair.2⟩
  | finish con =>
    cases step
    exact ⟨inv.open_,fun other member => inv.gone other (List.mem_of_mem_erase member)⟩

def boundTo (opened : List (Listener × Option Nat)) : List (Nat × (Int × Option String)) :=
  opened.filterMap fun o => o.2.map fun sock => (sock,o.1.place)

theorem setup_parallel {opened : List (Listener × Option Nat)} {i sock : Nat}
    (here : (connectionSetupSockets opened).2[i]? = some (some sock)) :
    ∃ l, (connectionSetupSockets opened).1[i]? = some l ∧ (sock,l.place) ∈ boundTo opened := by
  induction opened generalizing i with
  | nil => simp [connectionSetupSockets] at here
  | cons o opened ih =>
    obtain ⟨listener,result⟩ := o
    cases result with
    | none =>
      obtain ⟨l,spot,member⟩ := ih here
      exact ⟨l,spot,by simpa [boundTo] using member⟩
    | some fd =>
      cases i with
      | zero =>
        simp only [connectionSetupSockets,List.getElem?_cons_zero,Option.some.injEq] at here
        exact ⟨listener,rfl,by simp [boundTo,here]⟩
      | succ i =>
        obtain ⟨l,spot,member⟩ := ih (i := i) here
        refine ⟨l,spot,?_⟩
        unfold boundTo at member ⊢
        rw [List.filterMap_cons]
        exact List.mem_cons_of_mem _ member

theorem lookup_mem {α : Type u} {entries : List (Nat × α)} {k : Nat} {v : α}
    (distinct : (entries.map Prod.fst).Nodup) (member : (k,v) ∈ entries) :
    entries.lookup k = some v := by
  induction entries with
  | nil => cases member
  | cons entry entries ih =>
    obtain ⟨first,value⟩ := entry
    obtain ⟨apart,distinct⟩ := List.nodup_cons.mp distinct
    rw [List.lookup_cons]
    rcases List.mem_cons.mp member with same | later
    · cases same
      simp
    · have other : (k == first) = false := by
        rw [beq_eq_false_iff_ne]
        intro equal
        exact apart (List.mem_map.mpr ⟨(k,v),later,equal⟩)
      rw [other]
      exact ih distinct later

theorem setup_inv (opened : List (Listener × Option Nat)) (distinct : (opened.filterMap Prod.snd).Nodup) :
    Inv (setup opened) := by
  have keys : (boundTo opened).map Prod.fst = opened.filterMap Prod.snd := by
    unfold boundTo
    rw [List.map_filterMap]
    congr 1
    funext o
    cases o.2 <;> rfl
  refine ⟨?_,by simp [setup]⟩
  intro i sock here
  obtain ⟨l,spot,member⟩ := setup_parallel here
  unfold Fits
  rw [show (setup opened).listeners[i]? = some l from spot]
  exact lookup_mem (keys ▸ distinct) member

-- A run whose steps are all fair finds the right listener for every connection at any time.
theorem getListenSock_right (opened : List (Listener × Option Nat)) (distinct : (opened.filterMap Prod.snd).Nodup)
    (run : Runs (fun s event t => Step s event t ∧ Fair s event) (setup opened) labels s) :
    ∀ con ∈ s.cons, Right s con := by
  have inv : Inv s := run.preserves (fun inv step => inv.step step.2 step.1) (setup_inv opened distinct)
  intro con member
  exact inv.right member

def plain (port : Int) : Listener := ⟨port,none,false,none,false⟩

def shoutcast (port : Int) : Listener := ⟨port,none,true,some "/live",false⟩

def quiet : Revents := ⟨false,false⟩

def started : List (Listener × Option Nat) := [(plain 8000,some 3),(plain 8001,none),(shoutcast 8002,some 5)]

def accepted : State := ⟨[plain 8000,shoutcast 8002],[some 3,some 5],[(3,(8000,none)),(5,(8002,none))],[5]⟩

theorem accepted_step : Step (setup started) (.poll [quiet,⟨true,false⟩] true) accepted := rfl

theorem reload_step : Step accepted (.reload [plain 8000]) {accepted with listeners := [plain 8000]} := rfl

theorem reload_fair : Fair accepted (.reload [plain 8000]) := by
  refine ⟨?_,by decide⟩
  intro i sock here
  match i with
  | 0 =>
    cases Option.some.inj (Option.some.inj here)
    exact rfl
  | 1 =>
    cases Option.some.inj (Option.some.inj here)
    simp [Fits,accepted,plain,Listener.place,List.lookup_cons]
  | i+2 => simp [accepted] at here

-- A listener that fails to bind, a connection on the last socket, and a reload that drops its listener.
theorem getListenSock_right_dropped : Right {accepted with listeners := [plain 8000]} 5 := by
  have poll : Fair (setup started) (.poll [quiet,⟨true,false⟩] true) :=
    ⟨by simp [setup],by simp [scan,setup,started,connectionSetupSockets,quiet]⟩
  exact getListenSock_right started (by decide)
    (.cons ⟨accepted_step,poll⟩ (.cons ⟨reload_step,reload_fair⟩ .nil)) 5 (by decide)

-- The first of two sockets fails and is taken out of the array, not its listener out of the list:
-- a connection on the second is served as the first.
theorem moved_socket_misread : ¬∀ (opened : List (Listener × Option Nat)) (labels : List Event) (s : State),
    (opened.filterMap Prod.snd).Nodup → Runs Step (setup opened) labels s → ∀ con ∈ s.cons, Right s con := by
  intro all
  have run : Runs Step (setup [(plain 8000,some 3),(shoutcast 8001,some 4)])
      [.poll [⟨false,true⟩,quiet] false,.poll [⟨true,false⟩] true]
      ⟨[plain 8000,shoutcast 8001],[some 4],[(3,(8000,none)),(4,(8001,none))],[4]⟩ :=
    runFrom_sound id (by decide +kernel : runFrom next _ _ = some _)
  have right := all _ _ _ (by decide) run 4 (by decide)
  revert right
  decide

end Icecast.ListenSockets
