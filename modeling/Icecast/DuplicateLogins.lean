import Icecast.Lib.Bytes
import Icecast.Lib.Keyed
import Icecast.Lib.Transition
import Mathlib.Data.List.Sort

namespace Icecast.DuplicateLogins
open Bytes Transition

-- auth_t
structure Auth where
  allowDuplicateUsers : Bool
deriving DecidableEq

-- mount_proxy
structure MountProxy where
  fallbackMount : Option Text
  auth : Option Auth
deriving DecidableEq

-- format_type_t
inductive FormatType where
  | error
  | ogg
  | ebml
  | generic
deriving DecidableEq

-- client_t, with the id of its connection.
structure Client where
  id : Nat
  username : Option Text
deriving DecidableEq

-- What of a source the start and end of its stream, and a reload, set.
structure Settings where
  running : Bool
  onDemand : Bool
  format : Option FormatType
  maxListeners : Int
  fallbackWhenFull : Bool
  fallbackMount : Option Text
deriving DecidableEq

-- source_t
structure Source where
  mount : Text
  settings : Settings
  listeners : Nat
  clientTree : List Client
  pendingTree : List Client
deriving DecidableEq

def Source.all (source : Source) : List Client := source.clientTree++source.pendingTree

-- Where an auth thread is with a listener; from the search on it holds the source tree.
inductive Login where
  | idle
  | clients (client : Client) (mount : Text)
  | pending (client : Client) (mount : Text)
  | choosing (client : Client) (checked : Option Text) (mount : Text) (loop : Nat)
  | inserting (client : Client) (checked : Option Text) (mount : Text)
deriving DecidableEq

-- The auth thread of a mount.
structure Thread where
  mount : Text
  login : Login
deriving DecidableEq

structure Server where
  config : Text → Option MountProxy
  sources : List Source
  threads : List Thread
  connections : Nat

def start (config : Text → Option MountProxy) (mounts : List Text) : Server := ⟨config,[],mounts.map (⟨·,.idle⟩),0⟩

-- source_find_mount
def findMount (config : Text → Option MountProxy) (sources : List Source) : Nat → Option Text → Option Source
  | 0,_ => none
  | _+1,none => none
  | depth+1,some mount =>
    match (Keyed.find Source.mount sources mount).filter fun source =>
      source.settings.running || source.settings.onDemand with
    | some source => some source
    | none => (config mount).bind fun mountinfo => findMount config sources depth mountinfo.fallbackMount

def maxFallbackDepth : Nat := 10

def sourceFindMount (s : Server) (mount : Text) : Option Source :=
  findMount s.config s.sources maxFallbackDepth (some mount)

def sameName (existing client : Client) : Bool := existing.username.isSome && existing.username == client.username

-- One of the two scans of check_duplicate_logins.
def scan (tree : List Client) (client : Client) : Bool := tree.any (sameName · client)

-- Whether check_duplicate_logins looks at the trees.
def scans (client : Client) (mountinfo : MountProxy) : Bool :=
  client.username.isSome && mountinfo.auth.any fun auth => !auth.allowDuplicateUsers

-- add_authenticated_listener up to its check
def addAuthenticatedListener (s : Server) (mount : Text) (client : Client) : Login :=
  match sourceFindMount s mount with
  | none => .idle
  | some source =>
    if (s.config mount).any (scans client) then .clients client source.mount
    else .choosing client none source.mount 10

def full (source : Source) : Bool := 0 ≤ source.settings.maxListeners && source.settings.maxListeners ≤ source.listeners

def insertClient (client : Client) (tree : List Client) : List Client :=
  tree.orderedInsert (fun a b => a.id ≤ b.id) client

-- A login's next look at a source, or its insertion.
def advance (s : Server) : Login → Option (List Source × Login)
  | .idle => none
  | .clients client mount => (Keyed.find Source.mount s.sources mount).map fun source =>
      (s.sources,if scan source.clientTree client then .idle else .pending client mount)
  | .pending client mount => (Keyed.find Source.mount s.sources mount).map fun source =>
      (s.sources,if scan source.pendingTree client then .idle else .choosing client (some mount) mount 10)
  | .choosing client checked mount loop => (Keyed.find Source.mount s.sources mount).map fun source =>
      if full source then
        match loop,source.settings.fallbackWhenFull,source.settings.fallbackMount with
        | loop+1,true,some fallback =>
          match sourceFindMount s fallback with
          | some next => (s.sources,.choosing client checked next.mount loop)
          | none => (s.sources,.idle)
        | _,_,_ => (s.sources,.idle)
      else (s.sources,.inserting client checked mount)
  | .inserting client _ mount => (Keyed.find Source.mount s.sources mount).map fun source =>
      (Keyed.put Source.mount s.sources {source with pendingTree := insertClient client source.pendingTree},.idle)

-- A pending client in source_main's pass.
def takeIn (source : Source) (client : Client) : Source :=
  if full source then source
  else {source with clientTree := insertClient client source.clientTree,listeners := source.listeners+1}

-- A pass of source_main over its trees; errors are the connections that failed.
def serve (errors : List Nat) (source : Source) : Source :=
  let kept := source.clientTree.filter fun client => client.id ∉ errors
  let served := {source with clientTree := kept,listeners := source.listeners-(source.clientTree.length-kept.length)}
  {source.pendingTree.foldl takeIn served with pendingTree := []}

-- Whether source_move_clients gets to its loops.
def moves (source dest : Source) : Bool :=
  source.mount ≠ dest.mount && (dest.settings.running || dest.settings.onDemand) &&
    (source.settings.onDemand || source.settings.format.isSome) &&
    !(source.settings.format.isSome && dest.settings.format.isSome && source.settings.format ≠ dest.settings.format)

-- source_move_clients
def sourceMoveClients (source dest : Source) : Source × Source :=
  if moves source dest then
    ({source with clientTree := [],pendingTree := [],listeners := 0},
      {dest with pendingTree := (source.pendingTree++source.clientTree).foldl (fun tree client => insertClient client tree) dest.pendingTree})
  else (source,dest)

-- source_clear_source
def sourceClearSource (source : Source) : Source :=
  {source with
    clientTree := []
    pendingTree := []
    listeners := 0
    settings := {source.settings with format := none,maxListeners := -1,fallbackMount := none}}

inductive Event where
  | login (i : Nat) (username : Option Text)
  | advance (i : Nat)
  | pass (mount : Text) (errors : List Nat)
  | move (source dest : Text)
  | clear (mount : Text)
  | settings (mount : Text) (settings : Settings)
  | reserve (mount : Text)
  | free (mount : Text)
  | reload (config : Text → Option MountProxy)

def change (s : Server) (mount : Text) (f : Source → Source) : Option Server :=
  (Keyed.find Source.mount s.sources mount).map fun source =>
    {s with sources := Keyed.put Source.mount s.sources (f source)}

-- No login holds the source tree.
def unlocked (s : Server) : Bool := s.threads.all fun thread => thread.login = .idle

def next (s : Server) : Event → Option Server
  | .login i username =>
    match s.threads[i]? with
    | some ⟨mount,.idle⟩ => some {s with
        threads := s.threads.set i ⟨mount,addAuthenticatedListener s mount ⟨s.connections,username⟩⟩
        connections := s.connections+1}
    | _ => none
  | .advance i => s.threads[i]?.bind fun thread => (advance s thread.login).map fun (sources,login) =>
      {s with sources := sources,threads := s.threads.set i ⟨thread.mount,login⟩}
  | .pass mount errors => change s mount (serve errors)
  | .move source dest => (Keyed.find Source.mount s.sources source).bind fun source =>
    (Keyed.find Source.mount s.sources dest).map fun dest =>
      let (source,dest) := sourceMoveClients source dest
      {s with sources := Keyed.put Source.mount (Keyed.put Source.mount s.sources source) dest}
  | .clear mount => change s mount sourceClearSource
  | .settings mount settings => change s mount fun source => {source with settings := settings}
  | .reserve mount =>
    if unlocked s ∧ Keyed.find Source.mount s.sources mount = none then
      some {s with sources := s.sources++[⟨mount,⟨false,false,none,-1,false,none⟩,0,[],[]⟩]}
    else none
  | .free mount => if unlocked s then some {s with sources := Keyed.delete Source.mount s.sources mount} else none
  | .reload config => some {s with config := config}

def Step (s : Server) (event : Event) (t : Server) : Prop := next s event = some t

-- No two listeners of a source have one name.
def Distinct (source : Source) : Prop := source.all.Pairwise fun a b => sameName a b = false

def NoDuplicates (s : Server) : Prop := ∀ source ∈ s.sources, Distinct source

-- A login that both scans of a source have let pass.
def Login.passed (login : Login) (mount : Text) (client : Client) : Bool :=
  match login with
  | .choosing other (some checked) _ _ | .inserting other (some checked) _ => checked = mount && sameName other client
  | _ => false

-- A client comes to a source that neither has its name nor has let a login of its name pass.
def Enters (threads : List Thread) (dest : Source) (client : Client) : Prop :=
  scan dest.all client = false ∧ ∀ thread ∈ threads, thread.login.passed dest.mount client = false

-- A login that goes into a source was checked against it, or is alone there with its name, and no
-- other login of its name is between its check and its insertion there.
def Login.Inserts (login : Login) (sources : List Source) (others : List Thread) : Prop :=
  match login with
  | .inserting client checked mount => ∀ dest ∈ sources, dest.mount = mount →
      (checked = some mount ∨ scan dest.all client = false) ∧ ∀ thread ∈ others,
        thread.login.passed mount client = false
  | _ => True

-- No waiting client of a source has the name of a login that is between the two scans of it.
def Login.Between (login : Login) (source : Source) : Prop :=
  match login with
  | .pending client mount => mount = source.mount → scan source.pendingTree client = false
  | _ => True

instance decideEnters (threads : List Thread) (dest : Source) (client : Client) :
    Decidable (Enters threads dest client) :=
  inferInstanceAs (Decidable (_ ∧ ∀ thread ∈ threads, _))

instance decideInserts (login : Login) (sources : List Source) (others : List Thread) :
    Decidable (login.Inserts sources others) := by
  unfold Login.Inserts
  split <;> infer_instance

instance decideBetween (login : Login) (source : Source) : Decidable (login.Between source) := by
  unfold Login.Between
  split <;> infer_instance

def Fair (s : Server) : Event → Prop
  | .advance i => ∀ thread ∈ s.threads[i]?, thread.login.Inserts s.sources (s.threads.eraseIdx i)
  | .move source dest => ∀ a ∈ s.sources, a.mount = source → ∀ b ∈ s.sources, b.mount = dest → moves a b = true →
      ∀ client ∈ a.all, Enters s.threads b client
  | .pass mount _ => ∀ source ∈ s.sources, source.mount = mount → ∀ thread ∈ s.threads, thread.login.Between source
  | _ => True

instance decideFair (s : Server) : (event : Event) → Decidable (Fair s event)
  | .advance i => inferInstanceAs
    (Decidable (∀ thread ∈ s.threads[i]?, thread.login.Inserts s.sources (s.threads.eraseIdx i)))
  | .move source dest => inferInstanceAs
    (Decidable (∀ a ∈ s.sources, a.mount = source → ∀ b ∈ s.sources, b.mount = dest → moves a b = true →
      ∀ client ∈ a.all, Enters s.threads b client))
  | .pass mount _ => inferInstanceAs
    (Decidable (∀ source ∈ s.sources, source.mount = mount → ∀ thread ∈ s.threads, thread.login.Between source))
  | .login .. | .clear _ | .settings .. | .reserve _ | .free _ | .reload _ => isTrue trivial

-- The source that a login goes into has no listener of its name.
def Login.Alone (login : Login) (sources : List Source) : Prop :=
  match login with
  | .inserting client _ mount => ∀ dest ∈ sources, dest.mount = mount → scan dest.all client = false
  | _ => True

-- No name comes to a source that has it.
def Alone (s : Server) : Event → Prop
  | .advance i => ∀ thread ∈ s.threads[i]?, thread.login.Alone s.sources
  | .move source dest => ∀ a ∈ s.sources, a.mount = source → ∀ b ∈ s.sources, b.mount = dest → moves a b = true →
      ∀ client ∈ a.all, scan b.all client = false
  | _ => True

-- What the scans of a login have found.
def Login.Clear (login : Login) (source : Source) : Prop :=
  match login with
  | .pending client mount => mount = source.mount → scan source.clientTree client = false
  | .choosing client (some mount) _ _ | .inserting client (some mount) _ => mount = source.mount →
    scan source.all client = false
  | _ => True

-- No source has a name twice, and no source has the name of a login that it let pass.
structure Inv (s : Server) : Prop where
  unique : Keyed.Unique Source.mount s.sources
  distinct : NoDuplicates s
  clear : ∀ thread ∈ s.threads, ∀ source ∈ s.sources, thread.login.Clear source

theorem scan_false {tree : List Client} : scan tree client = false ↔ ∀ other ∈ tree,
    sameName other client = false := by simp [scan]

theorem scan_sub {tree tree' : List Client} (alone : scan tree client = false)
    (sub : ∀ other ∈ tree', other ∈ tree) : scan tree' client = false :=
  scan_false.mpr fun other within => scan_false.mp alone other (sub other within)

theorem sameName_comm (a b : Client) : sameName a b = sameName b a := by
  obtain ⟨_,name⟩ := a
  obtain ⟨_,name'⟩ := b
  cases name <;> cases name' <;> simp [sameName,eq_comm]

theorem insertClient_perm (client : Client) (tree : List Client) : (insertClient client tree).Perm (client::tree) :=
  List.perm_orderedInsert _ client tree

theorem distinct_perm {source : Source} (same : source.all.Perm clients) :
    Distinct source ↔ clients.Pairwise fun a b => sameName a b = false :=
  same.pairwise_iff fun {a b} apart => (sameName_comm b a).trans apart

theorem insert_perm (source : Source) (client : Client) :
    ({source with pendingTree := insertClient client source.pendingTree} : Source).all.Perm (client::source.all) :=
  ((insertClient_perm client source.pendingTree).append_left source.clientTree).trans List.perm_middle

theorem insert_distinct (distinct : Distinct source) (client : Client) :
    Distinct {source with pendingTree := insertClient client source.pendingTree} ↔ scan source.all client = false := by
  rw [distinct_perm (insert_perm source client),List.pairwise_cons,scan_false]
  refine ⟨fun both a listed => (sameName_comm a client).trans (both.1 a listed),
    fun alone => ⟨fun a listed => ?_,distinct⟩⟩
  exact (sameName_comm client a).trans (alone a listed)

-- What source_move_clients makes of its destination.
theorem moved_perm (moved : moves source dest = true) : (sourceMoveClients source dest).2.all.Perm
    (source.all++dest.all) := by
  have inserted := Keyed.insertAll_perm insertClient_perm (source.pendingTree++source.clientTree) dest.pendingTree
  rw [sourceMoveClients,if_pos moved]
  apply (inserted.append_left dest.clientTree).trans
  rw [←List.append_assoc]
  apply (List.perm_append_comm.append_right dest.pendingTree).trans
  rw [List.append_assoc]
  exact List.perm_append_comm.append_right (dest.clientTree++dest.pendingTree)

theorem moved_distinct (moved : moves source dest = true) (distinct : Distinct source) (distinct' : Distinct dest) :
    Distinct (sourceMoveClients source dest).2 ↔ ∀ client ∈ source.all, scan dest.all client = false := by
  rw [distinct_perm (moved_perm moved),List.pairwise_append]
  refine ⟨fun all a listed => scan_false.mpr fun b other =>
    ?_,fun alone => ⟨distinct,distinct',fun a listed b other => ?_⟩⟩
  · exact (sameName_comm b a).trans (all.2.2 a listed b other)
  · exact (sameName_comm a b).trans (scan_false.mp (alone a listed) b other)

theorem Login.stages (login : Login) : (∃ client mount, login = .pending client mount) ∨
    (∃ client mount, (∀ source, login.Clear source ↔ (mount = source.mount → scan source.all client = false)) ∧
      ∀ dest other, login.passed dest other = (decide (mount = dest) && sameName client other)) ∨
    ∀ source, login.Clear source := by
  cases login with
  | idle | clients client mount => exact .inr (.inr fun _ => trivial)
  | pending client mount => exact .inl ⟨client,mount,rfl⟩
  | choosing client checked mount loop | inserting client checked mount =>
    cases checked with
    | none => exact .inr (.inr fun _ => trivial)
    | some checked => exact .inr (.inl ⟨client,checked,fun _ => Iff.rfl,fun _ _ => rfl⟩)

theorem Login.Clear.enter {login : Login} {source source' : Source} (clear : login.Clear source)
    (mount : source'.mount = source.mount)
    (clients : ∀ client ∈ source'.clientTree, client ∈ source.clientTree)
    (all : ∀ client ∈ source'.all, client ∈ source.all ∨ login.passed source.mount client = false) :
    login.Clear source' := by
  rcases login.stages with ⟨client,spot,rfl⟩ | ⟨client,spot,cleared,passed⟩ | always
  · exact fun here => scan_sub (clear (here.trans mount)) clients
  · rw [cleared] at clear ⊢
    refine fun here => scan_false.mpr fun a listed => ?_
    rcases all a listed with old | new
    · exact scan_false.mp (clear (here.trans mount)) a old
    · rw [passed] at new
      rw [sameName_comm]
      simpa [here.trans mount] using new
  · exact always source'

theorem Login.Clear.sub {login : Login} {source source' : Source} (clear : login.Clear source)
    (mount : source'.mount = source.mount)
    (clients : ∀ client ∈ source'.clientTree, client ∈ source.clientTree)
    (all : ∀ client ∈ source'.all, client ∈ source.all) :
    login.Clear source' :=
  clear.enter mount clients fun client within => .inl (all client within)

theorem Inv.put (inv : Inv s) (source : Source) (distinct : Distinct source)
    (clear : ∀ thread ∈ s.threads, thread.login.Clear source) :
    Inv {s with sources := Keyed.put Source.mount s.sources source} where
  unique := inv.unique.put source
  distinct := fun other within => by
    rcases Keyed.mem_put within with same | old
    · exact same ▸ distinct
    · exact inv.distinct other old
  clear := fun thread member other within => by
    rcases Keyed.mem_put within with same | old
    · exact same ▸ clear thread member
    · exact inv.clear thread member other old

theorem Inv.thread (inv : Inv s) (i : Nat) (thread : Thread) (clear : ∀ source ∈ s.sources, thread.login.Clear source) :
    Inv {s with threads := s.threads.set i thread} where
  unique := inv.unique
  distinct := inv.distinct
  clear := fun other member => by
    rcases List.mem_or_eq_of_mem_set member with old | same
    · exact inv.clear other old
    · exact same ▸ clear

theorem mem_set {threads : List Thread} {i : Nat} (member : other ∈ threads.set i thread) : other = thread ∨
    other ∈ threads.eraseIdx i := by
  obtain ⟨j,here⟩ := List.mem_iff_getElem?.mp member
  by_cases same : i = j
  · rw [List.getElem?_set,if_pos same] at here
    split at here
    · exact .inl (Option.some.inj here).symm
    · cases here
  · rw [List.getElem?_set_ne same] at here
    exact .inr (List.mem_eraseIdx_iff_getElem?.mpr ⟨j,fun equal => same equal.symm,here⟩)

theorem add_clear (s : Server) (mount : Text) (client : Client) (source : Source) :
    (addAuthenticatedListener s mount client).Clear source := by
  unfold addAuthenticatedListener
  split
  · trivial
  · split <;> trivial

theorem Inv.found (inv : Inv s) (found : Keyed.find Source.mount s.sources mount = some source)
    (within : other ∈ s.sources)
    (here : mount = other.mount) : other = source := by
  have spot := inv.unique.find_of_mem within
  rw [←here,found] at spot
  exact (Option.some.inj spot).symm

theorem find_source {sources : List Source} (found : Keyed.find Source.mount sources mount = some source) :
    source ∈ sources ∧ source.mount = mount :=
  ⟨Keyed.find_mem found,Keyed.find_key found⟩

theorem insert_inv (inv : Inv s) (spot : s.threads[i]? = some thread)
    (place : thread.login = .inserting client checked mount)
    (found : Keyed.find Source.mount s.sources mount = some source)
    (fair : thread.login.Inserts s.sources (s.threads.eraseIdx i)) :
    Inv {s with
      sources := Keyed.put Source.mount s.sources {source with pendingTree := insertClient client source.pendingTree}
      threads := s.threads.set i ⟨thread.mount,.idle⟩} := by
  obtain ⟨within,named⟩ := find_source found
  rw [place] at fair
  obtain ⟨free,others⟩ := fair source within named
  have alone : scan source.all client = false := by
    rcases free with here | alone
    · have clear := inv.clear thread (List.mem_of_getElem? spot) source within
      rw [place,here] at clear
      exact clear named.symm
    · exact alone
  refine ⟨inv.unique.put _,fun other member => ?_,fun other member x known => ?_⟩
  · rcases Keyed.mem_put member with same | old
    · rw [same]
      exact (insert_distinct (inv.distinct source within) client).mpr alone
    · exact inv.distinct other old
  · rcases mem_set member with same | old
    · rw [same]
      trivial
    · have before := inv.clear other (List.mem_of_mem_eraseIdx old)
      rcases Keyed.mem_put known with same | kept
      · rw [same]
        refine (before source within).enter rfl (fun _ listed => listed) fun a listed => ?_
        rcases List.mem_cons.mp ((insert_perm source client).mem_iff.mp listed) with new | listed
        · rw [new,named]
          exact .inr (others other old)
        · exact .inl listed
      · exact before x kept

theorem Inv.scanned (inv : Inv s) (i : Nat) (mount : Text)
    (clear : scan tree client = false → ∀ source ∈ s.sources, login.Clear source) :
    Inv {s with threads := s.threads.set i ⟨mount,if scan tree client then .idle else login⟩} := by
  refine inv.thread i _ fun source within => ?_
  dsimp only
  split
  · trivial
  · rename_i alone
    exact clear (Bool.eq_false_of_not_eq_true alone) source within

theorem advance_inv (inv : Inv s) (spot : s.threads[i]? = some thread)
    (ran : advance s thread.login = some (sources,login))
    (fair : thread.login.Inserts s.sources (s.threads.eraseIdx i)) :
    Inv {s with sources := sources,threads := s.threads.set i ⟨thread.mount,login⟩} := by
  have clear := inv.clear thread (List.mem_of_getElem? spot)
  cases place : thread.login with
  | idle =>
    rw [place] at ran
    cases ran
  | clients client mount =>
    rw [place] at ran
    obtain ⟨source,found,same⟩ := Option.map_eq_some_iff.mp ran
    cases same
    apply inv.scanned i
    intro alone other within here
    rw [inv.found found within here]
    exact alone
  | pending client mount =>
    rw [place] at ran
    obtain ⟨source,found,same⟩ := Option.map_eq_some_iff.mp ran
    cases same
    apply inv.scanned i
    intro alone other within here
    have first := clear other within
    rw [place] at first
    have same := inv.found found within here
    refine scan_false.mpr fun a listed => ?_
    rcases List.mem_append.mp listed with active | waiting
    · exact scan_false.mp (first here) a active
    · rw [same] at waiting
      exact scan_false.mp alone a waiting
  | choosing client checked mount loop =>
    rw [place] at ran clear
    obtain ⟨source,_,same⟩ := Option.map_eq_some_iff.mp ran
    split at same
    · split at same
      · split at same
        · cases same
          exact inv.thread i _ fun other within => by cases checked <;> exact clear other within
        · cases same
          exact inv.thread i _ fun _ _ => trivial
      · cases same
        exact inv.thread i _ fun _ _ => trivial
    · cases same
      exact inv.thread i _ fun other within => by cases checked <;> exact clear other within
  | inserting client checked mount =>
    rw [place] at ran
    obtain ⟨source,found,same⟩ := Option.map_eq_some_iff.mp ran
    cases same
    exact insert_inv inv spot place found fair

theorem takeIn_all (source : Source) (clients : List Client) : ∃ accepted, accepted.Sublist clients ∧
    (clients.foldl takeIn source).mount = source.mount ∧ (clients.foldl takeIn source).clientTree.Perm
    (accepted++source.clientTree) := by
  induction clients generalizing source with
  | nil => exact ⟨[],.slnil,rfl,.rfl⟩
  | cons client clients ih =>
    obtain ⟨accepted,sub,mount,perm⟩ := ih (takeIn source client)
    rw [List.foldl_cons]
    unfold takeIn at mount perm ⊢
    split at mount
    · rename_i full_
      rw [if_pos full_] at perm ⊢
      exact ⟨accepted,sub.cons client,mount,perm⟩
    · rename_i free
      rw [if_neg free] at perm ⊢
      refine ⟨client::accepted,sub.cons_cons client,mount,perm.trans ?_⟩
      exact ((insertClient_perm client source.clientTree).append_left accepted).trans List.perm_middle

theorem serve_spec (errors : List Nat) (source : Source) : ∃ accepted kept, accepted.Sublist source.pendingTree ∧
    kept.Sublist source.clientTree ∧
    (serve errors source).mount = source.mount ∧ (serve errors source).pendingTree = [] ∧
    (serve errors source).clientTree.Perm (accepted++kept) := by
  obtain ⟨accepted,sub,mount,perm⟩ := takeIn_all {source with
    clientTree := source.clientTree.filter fun client => client.id ∉ errors
    listeners := source.listeners-(source.clientTree.length-(source.clientTree.filter fun client =>
      client.id ∉ errors).length)} source.pendingTree
  exact ⟨accepted,_,sub,List.filter_sublist,mount,rfl,perm⟩

theorem serve_mount (errors : List Nat) (source : Source) : (serve errors source).mount = source.mount := by
  obtain ⟨_,_,_,_,same,_,_⟩ := serve_spec errors source
  exact same

theorem serve_all (errors : List Nat) (source : Source) : ∃ clients :
    List Client, clients.Sublist source.all ∧ (serve errors source).all.Perm clients := by
  obtain ⟨accepted,kept,accepted_sub,kept_sub,_,empty,perm⟩ := serve_spec errors source
  refine ⟨kept++accepted,kept_sub.append accepted_sub,?_⟩
  rw [Source.all,empty,List.append_nil]
  exact perm.trans List.perm_append_comm

theorem serve_distinct (distinct : Distinct source) (errors : List Nat) : Distinct (serve errors source) := by
  obtain ⟨clients,sub,perm⟩ := serve_all errors source
  exact (distinct_perm perm).mpr (distinct.sublist sub)

theorem serve_inv (inv : Inv s) (found : Keyed.find Source.mount s.sources mount = some source)
    (fair : ∀ thread ∈ s.threads, thread.login.Between source) :
    Inv {s with sources := Keyed.put Source.mount s.sources (serve errors source)} := by
  obtain ⟨within,_⟩ := find_source found
  obtain ⟨accepted,kept,accepted_sub,kept_sub,same,_,perm⟩ := serve_spec errors source
  obtain ⟨clients,sub,all⟩ := serve_all errors source
  have inside : ∀ client ∈ (serve errors source).all, client ∈ source.all := fun client listed =>
    sub.subset (all.mem_iff.mp listed)
  refine inv.put _ (serve_distinct (inv.distinct source within) errors) fun thread member => ?_
  have clear := inv.clear thread member source within
  have between := fair thread member
  generalize thread.login = login at clear between
  rcases login.stages with ⟨client,spot,rfl⟩ | ⟨client,spot,cleared,_⟩ | always
  · refine fun here => scan_false.mpr fun a listed => ?_
    rcases List.mem_append.mp (perm.mem_iff.mp listed) with new | old
    · exact scan_false.mp (between (here.trans same)) a (accepted_sub.subset new)
    · exact scan_false.mp (clear (here.trans same)) a (kept_sub.subset old)
  · rw [cleared] at clear ⊢
    exact fun here => scan_sub (clear (here.trans same)) inside
  · exact always _

theorem emptied_inv (inv : Inv s) (within : source ∈ s.sources) (emptied : Source)
    (mount : emptied.mount = source.mount)
    (clients : emptied.clientTree = []) (pending : emptied.pendingTree = []) :
    Inv {s with sources := Keyed.put Source.mount s.sources emptied} := by
  have nobody : emptied.all = [] := by rw [Source.all,clients,pending,List.append_nil]
  refine inv.put _ ?_ fun thread member => ?_
  · rw [Distinct,nobody]
    exact .nil
  · exact (inv.clear thread member source within).sub mount (by rw [clients]; nofun) (by rw [nobody]; nofun)

theorem move_inv (inv : Inv s) (found : Keyed.find Source.mount s.sources mount = some source)
    (found' : Keyed.find Source.mount s.sources mount' = some dest)
    (fair : moves source dest = true → ∀ client ∈ source.all, Enters s.threads dest client) :
    Inv {s with sources := Keyed.put Source.mount (Keyed.put Source.mount s.sources (sourceMoveClients source dest).1) (sourceMoveClients source dest).2} := by
  obtain ⟨within,_⟩ := find_source found
  obtain ⟨within',_⟩ := find_source found'
  by_cases moved : moves source dest = true
  · have alone := (moved_distinct moved (inv.distinct source within)
      (inv.distinct dest within')).mpr fun a listed => (fair moved a listed).1
    have perm := moved_perm moved
    rw [sourceMoveClients,if_pos moved] at alone perm ⊢
    have emptied := emptied_inv inv within {source with clientTree := [],pendingTree := [],listeners := 0} rfl rfl rfl
    refine emptied.put _ alone fun thread member => ?_
    refine (inv.clear thread member dest within').enter rfl (fun _ listed => listed) fun a listed => ?_
    rcases List.mem_append.mp (perm.mem_iff.mp listed) with new | old
    · exact .inr ((fair moved a new).2 thread member)
    · exact .inl old
  · rw [sourceMoveClients,if_neg moved]
    have kept := inv.put source (inv.distinct source within) fun thread member => inv.clear thread member source within
    exact kept.put dest (inv.distinct dest within') fun thread member => inv.clear thread member dest within'

theorem step_inv (inv : Inv s) (step : Step s event t) (fair : Fair s event) : Inv t := by
  unfold Step next at step
  cases event with
  | login i username =>
    dsimp only at step
    split at step
    · rename_i mount _
      cases step
      have joined := inv.thread i ⟨mount,_⟩ fun source _ => add_clear s mount ⟨s.connections,username⟩ source
      exact ⟨joined.unique,joined.distinct,joined.clear⟩
    · cases step
  | advance i =>
    obtain ⟨thread,spot,went⟩ := Option.bind_eq_some_iff.mp step
    obtain ⟨⟨sources,login⟩,ran,same⟩ := Option.map_eq_some_iff.mp went
    cases same
    exact advance_inv inv spot ran (fair thread spot)
  | pass mount errors =>
    obtain ⟨source,found,same⟩ := Option.map_eq_some_iff.mp step
    cases same
    obtain ⟨within,named⟩ := find_source found
    exact serve_inv inv found (fair source within named)
  | move source dest =>
    obtain ⟨a,found,rest⟩ := Option.bind_eq_some_iff.mp step
    obtain ⟨b,found',same⟩ := Option.map_eq_some_iff.mp rest
    cases same
    obtain ⟨within,named⟩ := find_source found
    obtain ⟨within',named'⟩ := find_source found'
    exact move_inv inv found found' (fair a within named b within' named')
  | clear mount =>
    obtain ⟨source,found,same⟩ := Option.map_eq_some_iff.mp step
    cases same
    exact emptied_inv inv (find_source found).1 _ rfl rfl rfl
  | settings mount settings =>
    obtain ⟨source,found,same⟩ := Option.map_eq_some_iff.mp step
    cases same
    obtain ⟨within,_⟩ := find_source found
    refine inv.put _ (inv.distinct source within) fun thread member => ?_
    exact (inv.clear thread member source within).sub rfl (fun _ listed => listed) fun _ listed => listed
  | reserve mount =>
    dsimp only at step
    split at step
    · rename_i able
      cases step
      refine ⟨inv.unique.insert able.2,fun source within => ?_,fun thread member source within => ?_⟩
      · rcases List.mem_append.mp within with old | new
        · exact inv.distinct source old
        · rw [List.mem_singleton.mp new]
          exact .nil
      · rcases List.mem_append.mp within with old | new
        · exact inv.clear thread member source old
        · have idle : thread.login = .idle := by simpa using List.all_eq_true.mp able.1 thread member
          rw [idle]
          trivial
    · cases step
  | free mount =>
    dsimp only at step
    split at step
    · cases step
      exact ⟨inv.unique.delete mount,fun source within => inv.distinct source (List.mem_of_mem_filter within),
        fun thread member source within => inv.clear thread member source (List.mem_of_mem_filter within)⟩
    · cases step
  | reload config =>
    cases step
    exact ⟨inv.unique,inv.distinct,inv.clear⟩

theorem put_distinct {sources : List Source} {source' : Source} (distinct : ∀ other ∈ sources, Distinct other)
    (within : source ∈ sources)
    (same : source.mount = source'.mount) : (∀ other ∈ Keyed.put Source.mount sources source', Distinct other) ↔
    Distinct source' := by
  refine ⟨fun all => all source' (Keyed.mem_put_self within same),fun new other member => ?_⟩
  rcases Keyed.mem_put member with here | old
  · exact here ▸ new
  · exact distinct other old

theorem move_alone (inv : Inv s) (found : Keyed.find Source.mount s.sources mount = some source)
    (found' : Keyed.find Source.mount s.sources mount' = some dest) (moved : moves source dest = true) :
    (∀ other ∈ Keyed.put Source.mount (Keyed.put Source.mount s.sources (sourceMoveClients source dest).1)
    (sourceMoveClients source dest).2, Distinct other) ↔
      ∀ client ∈ source.all, scan dest.all client = false := by
  obtain ⟨within,_⟩ := find_source found
  obtain ⟨within',_⟩ := find_source found'
  rw [←moved_distinct moved (inv.distinct source within) (inv.distinct dest within')]
  have apart : dest.mount ≠ source.mount := by
    unfold moves at moved
    simp only [Bool.and_eq_true,decide_eq_true_eq] at moved
    exact fun same => moved.1.1.1 same.symm
  have emptied := emptied_inv inv within {source with clientTree := [],pendingTree := [],listeners := 0} rfl rfl rfl
  rw [sourceMoveClients,if_pos moved]
  exact put_distinct emptied.distinct (Keyed.mem_put_other within' apart) rfl

theorem step_alone (inv : Inv s) (step : Step s event t) : NoDuplicates t ↔ Alone s event := by
  cases event with
  | advance i =>
    obtain ⟨thread,spot,went⟩ := Option.bind_eq_some_iff.mp step
    obtain ⟨⟨sources,login⟩,ran,same⟩ := Option.map_eq_some_iff.mp went
    cases same
    have one : Alone s (.advance i) ↔ thread.login.Alone s.sources :=
      ⟨fun alone => alone thread spot,fun alone other here => Option.some.inj (spot.symm.trans here) ▸ alone⟩
    rw [one]
    cases place : thread.login with
    | inserting client checked mount =>
      rw [place] at ran
      obtain ⟨source,found,same⟩ := Option.map_eq_some_iff.mp ran
      cases same
      obtain ⟨within,named⟩ := find_source found
      let joined : Source := {source with pendingTree := insertClient client source.pendingTree}
      have put : (∀ other ∈ Keyed.put Source.mount s.sources joined, Distinct other) ↔ Distinct joined :=
        put_distinct inv.distinct within rfl
      refine put.trans ((insert_distinct (inv.distinct source within) client).trans ?_)
      exact ⟨fun alone dest there here => inv.found found there here.symm ▸ alone,fun alone =>
        alone source within named⟩
    | idle | clients _ _ | pending _ _ | choosing _ _ _ _ =>
      exact ⟨fun _ => trivial,fun _ => (advance_inv inv spot ran (by rw [place]; trivial)).distinct⟩
  | move source dest =>
    obtain ⟨a,found,rest⟩ := Option.bind_eq_some_iff.mp step
    obtain ⟨b,found',same⟩ := Option.map_eq_some_iff.mp rest
    cases same
    obtain ⟨within,named⟩ := find_source found
    obtain ⟨within',named'⟩ := find_source found'
    have one : Alone s (.move source dest) ↔ (moves a b = true → ∀ client ∈ a.all, scan b.all client = false) := by
      refine ⟨fun alone => alone a within named b within' named',fun alone x there here y there' here' => ?_⟩
      rw [inv.found found there here.symm,inv.found found' there' here'.symm]
      exact alone
    rw [one]
    by_cases moved : moves a b = true
    · exact (move_alone inv found found' moved).trans ⟨fun alone _ => alone,fun alone => alone moved⟩
    · have kept := move_inv inv found found' fun other => absurd other moved
      exact ⟨fun _ other => absurd other moved,fun _ => kept.distinct⟩
  | pass mount errors =>
    obtain ⟨source,found,same⟩ := Option.map_eq_some_iff.mp step
    cases same
    obtain ⟨within,_⟩ := find_source found
    have put := put_distinct inv.distinct within (serve_mount errors source).symm
    exact ⟨fun _ => trivial,fun _ => put.mpr (serve_distinct (inv.distinct source within) errors)⟩
  | login _ _ | clear _ | settings _ _ | reserve _ | free _ | reload _ =>
    exact ⟨fun _ => trivial,fun _ => (step_inv inv step trivial).distinct⟩

theorem start_inv (config : Text → Option MountProxy) (mounts : List Text) : Inv (start config mounts) := by
  exact ⟨List.nodup_nil,nofun,fun _ _ => nofun⟩

-- In every run whose logins are inserted where they were checked and alone, and whose moves bring
-- no name that is there, no source has a name twice; and the next step keeps it so exactly when it
-- brings no name to a source that has it.
theorem runs_distinct (run : Runs (fun s event t => Step s event t ∧ Fair s event) (start config mounts) events s) :
    NoDuplicates s ∧ ∀ event t, Step s event t → (NoDuplicates t ↔ Alone s event) := by
  have inv : Inv s := run.preserves (fun inv step => step_inv inv step.1 step.2) (start_inv config mounts)
  exact ⟨inv.distinct,fun event t step => step_alone inv step⟩

instance decideNoDuplicates (s : Server) : Decidable (NoDuplicates s) :=
  inferInstanceAs (Decidable (∀ source ∈ s.sources, source.all.Pairwise fun a b => sameName a b = false))

-- Every mount has an authenticator that allows no name twice; /a falls back to /b.
def strict (mount : Text) : Option MountProxy := some ⟨if mount = [47,97] then some [47,98] else none,some ⟨false⟩⟩

-- Two streams, /a with room for max listeners.
def streams (most : Int) : List Event :=
  [.reserve [47,97],.reserve [47,98],.settings [47,97] ⟨true,false,some .ogg,most,true,some [47,98]⟩,
    .settings [47,98] ⟨true,false,some .ogg,-1,false,none⟩]

def logsIn (i : Nat) (username : Text) (steps : Nat) : List Event :=
  .login i (some username)::List.replicate steps (.advance i)

-- Two logins, one that is sent to the fallback, one of a name that is there, and the end of /a.
def served : List Event :=
  streams 1++logsIn 1 [117] 4++logsIn 0 [118] 4++[.pass [47,97] []]++logsIn 0 [119] 5++logsIn 1 [117] 2++
    [.settings [47,97] ⟨false,false,some .ogg,1,true,some [47,98]⟩,.move [47,97] [47,98],.clear [47,97],.free [47,97]]

theorem runs_distinct_served : ∃ s, Runs (fun s event t => Step s event t ∧ Fair s event)
    (start strict [[47,97],[47,98]]) served s ∧
    s.sources.map (fun source => source.all.map (·.username)) = [[some [117],some [118],some [119]]] ∧
    NoDuplicates s := by
  have ran : (runFrom (guarded Fair next) (start strict [[47,97],[47,98]]) served).map
      (fun s => s.sources.map fun source => source.all.map (·.username)) = some [[some [117],some [118],some [119]]] := by decide +kernel
  obtain ⟨s,ran,names⟩ := Option.map_eq_some_iff.mp ran
  have fair := runFrom_sound guarded_sound ran
  exact ⟨s,fair,names,(runs_distinct fair).1⟩

-- A full mount sends a listener to its fallback, which has its name; a source that ends moves one
-- there; and a waiting client is taken in between the two scans.
def redirected : List Event := streams 1++logsIn 1 [117] 4++logsIn 0 [118] 4++[.pass [47,97] []]++logsIn 0 [117] 5
def moved : List Event :=
  streams 1++logsIn 1 [117] 4++logsIn 0 [117] 4++[.settings [47,97] ⟨false,false,some .ogg,1,true,some [47,98]⟩,
    .move [47,97] [47,98]]
def overtaken : List Event :=
  .reserve [47,98]::.settings [47,98] ⟨true,false,some .ogg,-1,false,none⟩::logsIn 1 [117] 4++logsIn 0
    [117] 1++[.pass [47,98] []]++List.replicate 3 (.advance 0)

theorem names_twice : (∀ mount, (strict mount).bind (·.auth) = some ⟨false⟩) ∧ ∀ events ∈ [redirected,moved,overtaken],
    ∃ s, Runs Step (start strict [[47,97],[47,98]]) events s ∧ ¬NoDuplicates s := by
  have twice : ∀ events ∈ [redirected,moved,overtaken],
      (runFrom next (start strict [[47,97],[47,98]]) events).map (fun s => decide (NoDuplicates s)) = some false := by decide +kernel
  refine ⟨fun _ => rfl,fun events member => ?_⟩
  obtain ⟨s,ran,twiceNamed⟩ := Option.map_eq_some_iff.mp (twice events member)
  exact ⟨s,runFrom_sound (fun step => step) ran,of_decide_eq_false twiceNamed⟩

end Icecast.DuplicateLogins
