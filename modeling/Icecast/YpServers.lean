import Mathlib.Data.List.Nodup
import Icecast.YpEntries

namespace Icecast.YpServers
open Transition
open YpEntries (YpServer YpData createYpEntry addPendingYp deleteMarkedYp)

-- config->yp_url, yp_url_timeout and yp_touch_interval at one index.
structure YpDirectory where
  url : String
  url_timeout : Int
  touch_interval : Int
deriving DecidableEq

-- struct yp_server, with its entries.
structure Server where
  url : String
  url_timeout : Nat
  remove : Bool
  entries : YpServer
deriving DecidableEq

-- `raising` are the calls of yp_recheck_config that have released yp_lock and not yet set yp_update.
structure State where
  active_yps : List Server
  pending_yps : List Server
  yp_update : Bool
  raising : Nat
deriving DecidableEq

def start : State := ⟨[],[],false,0⟩

def urls (servers : List Server) : List String := servers.map (·.url)
def listed (config : List YpDirectory) : List String := config.map (·.url)

-- server->remove = 0 at the first server of this url
def clearRemove (url : String) : List Server → List Server
  | [] => []
  | server::rest => if server.url = url then {server with remove := false}::rest else server::clearRemove url rest

-- An int that is assigned to an unsigned.
def unsigned (n : Int) : Nat := (n%4294967296).toNat

def newServer (d : YpDirectory) : Server where
  url := d.url
  url_timeout := if unsigned d.url_timeout > 10 ∨ unsigned d.url_timeout < 1 then 6 else unsigned d.url_timeout
  remove := false
  entries := ⟨if unsigned d.touch_interval < 30 then 30 else unsigned d.touch_interval,[],[]⟩

-- One turn of the loop of yp_recheck_config, with find_yp_server.
def recheckUrl (s : State) (d : YpDirectory) : State :=
  if d.url ∈ urls s.active_yps then {s with active_yps := clearRemove d.url s.active_yps}
  else if d.url ∈ urls s.pending_yps then {s with pending_yps := clearRemove d.url s.pending_yps}
  else {s with pending_yps := newServer d::s.pending_yps}

def ypRecheckConfig (config : List YpDirectory) (s : State) : State :=
  config.foldl recheckUrl {s with active_yps := s.active_yps.map fun server => {server with remove := true}}

-- The loop over the source tree for a server that is added: a mount with the source's yp_public.
def populate (sources : List (String × Bool)) (server : Server) : Server :=
  {server with entries := {server.entries with mounts := sources.foldl (fun mounts source =>
    if source.2 then {createYpEntry source.1 0 server.entries.touch_interval with next_update := 0}::mounts else mounts) server.entries.mounts}}

def checkServers (sources : List (String × Bool)) (s : State) : State :=
  {s with
    active_yps := s.pending_yps.foldl (fun active server => populate sources server::active)
      (s.active_yps.filter fun server => !server.remove)
    pending_yps := []}

-- What yp_update_thread does under the write lock.
def update (sources : List (String × Bool)) (s : State) : State :=
  let checked := checkServers sources s
  {checked with
    active_yps := checked.active_yps.map fun server =>
      {server with entries := deleteMarkedYp (addPendingYp server.entries)}
    yp_update := false}

-- A reload of the configuration in its two steps, the update thread's, and yp_add, yp_remove and the
-- talk with the YP servers, which change the entries.
inductive Event where
  | recheck (config : List YpDirectory)
  | raise
  | entries
  | update (sources : List (String × Bool))
deriving DecidableEq

def Served (before after : Server) : Prop :=
  after.url = before.url ∧ after.url_timeout = before.url_timeout ∧ after.remove = before.remove ∧
    after.entries.touch_interval = before.entries.touch_interval

inductive Step : State → Event → State → Prop where
  | recheck : Step s (.recheck config) {ypRecheckConfig config s with raising := s.raising+1}
  | raise : 0 < s.raising → Step s .raise {s with yp_update := true,raising := s.raising-1}
  | entries : List.Forall₂ Served s.active_yps after →
    Step s .entries {s with active_yps := after,yp_update := s.yp_update || raised}
  | update : s.yp_update = true → Step s (.update sources) (update sources s)

-- The configurations a run read, in order.
def configs (labels : List Event) : List (List YpDirectory) := labels.filterMap fun
  | .recheck config => some config
  | _ => none

def Event.isUpdate : Event → Bool
  | .update _ => true
  | _ => false

-- Before the first reload, or just behind the update thread.
structure Settled (s : State) : Prop where
  distinct : (urls s.active_yps).Nodup
  kept : ∀ server ∈ s.active_yps,server.remove = false
  drained : s.pending_yps = []

-- The state some reloads after a settled one.
structure Since (old : List String) (reloads : List (List YpDirectory)) (s : State) : Prop where
  active : urls s.active_yps = old
  distinct : old.Nodup
  flags : ∀ server ∈ s.active_yps,server.remove = true ↔ ∃ config,reloads.getLast? = some config ∧
    server.url ∉ listed config
  pending : ∀ url,url ∈ urls s.pending_yps ↔ url ∉ old ∧ ∃ config ∈ reloads,url ∈ listed config
  apart : (urls s.pending_yps).Nodup
  fresh : ∀ server ∈ s.pending_yps,server.remove = false ∧ server.entries.mounts = [] ∧
    server.entries.pending_mounts = []
  raised : reloads ≠ [] → s.yp_update = true ∨ 0 < s.raising

theorem Settled.since (settled : Settled s) : Since (urls s.active_yps) [] s := by
  refine ⟨rfl,settled.distinct,?_,?_,?_,?_,fun filled => absurd rfl filled⟩
  · intro server member
    rw [settled.kept server member]
    constructor
    · intro yes
      cases yes
    · rintro ⟨config,last,_⟩
      cases last
  · intro url
    rw [settled.drained]
    constructor
    · intro none
      cases none
    · rintro ⟨_,config,none,_⟩
      cases none
  · rw [settled.drained]
    exact List.nodup_nil
  · intro server member
    rw [settled.drained] at member
    cases member

theorem urls_clear (url : String) (servers : List Server) : urls (clearRemove url servers) = urls servers := by
  induction servers with
  | nil => rfl
  | cons server rest ih =>
    unfold clearRemove
    split
    · rfl
    · exact congrArg (server.url::·) ih

theorem clear_map (url : String) (distinct : (urls servers).Nodup) :
    clearRemove url servers = servers.map fun server =>
    if server.url = url then {server with remove := false} else server := by
  induction servers with
  | nil => rfl
  | cons server rest ih =>
    obtain ⟨absent,distinct⟩ := List.nodup_cons.mp (show (server.url::urls rest).Nodup from distinct)
    unfold clearRemove
    split
    · rename_i same
      have others : ∀ other ∈ rest,(if other.url = url then {other with remove := false} else other) = other :=
        fun other member =>
        if_neg fun equal => absent (List.mem_map.mpr ⟨other,member,equal.trans same.symm⟩)
      rw [List.map_cons,if_pos same,List.map_congr_left others,List.map_id']
    · rename_i different
      rw [List.map_cons,if_neg different,ih distinct]

theorem clear_fresh (url : String) {servers : List Server} (fresh : ∀ server ∈ servers,server.remove = false) :
    clearRemove url servers = servers := by
  induction servers with
  | nil => rfl
  | cons server rest ih =>
    have here : {server with remove := false} = server := by rw [←fresh server List.mem_cons_self]
    unfold clearRemove
    rw [here,ih fun other member => fresh other (List.mem_cons_of_mem _ member),ite_self]

-- In the middle of yp_recheck_config.
structure Rechecking (old : List String) (before : String → Prop) (done : List YpDirectory) (s : State) : Prop where
  active : urls s.active_yps = old
  flags : ∀ server ∈ s.active_yps,server.remove = true ↔ server.url ∉ listed done
  pending : ∀ url,url ∈ urls s.pending_yps ↔ before url ∨ url ∉ old ∧ url ∈ listed done
  apart : (urls s.pending_yps).Nodup
  fresh : ∀ server ∈ s.pending_yps,server.remove = false ∧ server.entries.mounts = [] ∧
    server.entries.pending_mounts = []

theorem mem_listed (done : List YpDirectory) (d : YpDirectory) (url : String) : url ∈ listed (done++[d]) ↔
    url ∈ listed done ∨ url = d.url := by
  rw [listed,List.map_append,List.mem_append]
  exact or_congr_right List.mem_singleton

theorem recheck_turn (distinct : old.Nodup) (inv : Rechecking old before done s) (d : YpDirectory) :
    Rechecking old before (done++[d]) (recheckUrl s d) := by
  unfold recheckUrl
  split
  · rename_i known
    have inside : d.url ∈ old := inv.active ▸ known
    have cleared := clear_map d.url (inv.active.symm ▸ distinct)
    refine ⟨(urls_clear d.url s.active_yps).trans inv.active,?_,fun url => ?_,inv.apart,inv.fresh⟩
    · intro server member
      dsimp only at member
      rw [cleared] at member
      obtain ⟨other,there,rfl⟩ := List.mem_map.mp member
      have flag := inv.flags other there
      rw [mem_listed,not_or]
      split
      · rename_i same
        exact ⟨fun yes => Bool.noConfusion yes,fun both => absurd same both.2⟩
      · rename_i different
        exact flag.trans (iff_self_and.mpr fun _ => different)
    · rw [inv.pending url,mem_listed]
      have other : url ∉ old → url ≠ d.url := fun absent same => absent (same ▸ inside)
      tauto
  · rename_i unknown
    have absent : d.url ∉ old := inv.active ▸ unknown
    have flags : ∀ server ∈ s.active_yps,server.remove = true ↔ server.url ∉ listed (done++[d]) := by
      intro server member
      have other : server.url ≠ d.url := fun same => unknown (List.mem_map.mpr ⟨server,member,same⟩)
      rw [inv.flags server member,mem_listed,not_or]
      exact iff_self_and.mpr fun _ => other
    split
    · rename_i waiting
      rw [clear_fresh d.url fun server member => (inv.fresh server member).1]
      refine ⟨inv.active,flags,fun url => ?_,inv.apart,inv.fresh⟩
      have here := (inv.pending d.url).mp waiting
      rw [inv.pending url,mem_listed]
      constructor
      · tauto
      · rintro (earlier | ⟨outside,done | rfl⟩)
        · exact .inl earlier
        · exact .inr ⟨outside,done⟩
        · exact here
    · rename_i new
      refine ⟨inv.active,flags,fun url => ?_,List.nodup_cons.mpr ⟨new,inv.apart⟩,?_⟩
      · show url ∈ d.url::urls s.pending_yps ↔ _
        rw [List.mem_cons,inv.pending url,mem_listed]
        have outside : url = d.url → url ∉ old := fun same => same ▸ absent
        tauto
      · intro server member
        rcases List.mem_cons.mp member with rfl | member
        · exact ⟨rfl,rfl,rfl⟩
        · exact inv.fresh server member

theorem recheck_loop (distinct : old.Nodup) (inv : Rechecking old before done s) (config : List YpDirectory) :
    Rechecking old before (done++config) (config.foldl recheckUrl s) := by
  induction config generalizing done s with
  | nil =>
    rw [List.append_nil]
    exact inv
  | cons d config ih =>
    have next := ih (recheck_turn distinct inv d)
    rw [List.append_assoc] at next
    exact next

theorem recheck_since (since : Since old reloads s) (config : List YpDirectory) :
    Since old (reloads++[config]) {ypRecheckConfig config s with raising := s.raising+1} := by
  have begun : Rechecking old (fun url => url ∈ urls s.pending_yps) []
      {s with active_yps := s.active_yps.map fun server => {server with remove := true}} := by
    refine ⟨?_,?_,fun url => ?_,since.apart,since.fresh⟩
    · rw [←since.active]
      exact List.map_map
    · intro server member
      obtain ⟨other,_,rfl⟩ := List.mem_map.mp member
      exact ⟨fun _ => List.not_mem_nil,fun _ => rfl⟩
    · exact ⟨.inl,fun either => either.elim id fun both => absurd both.2 List.not_mem_nil⟩
  have done := recheck_loop since.distinct begun config
  rw [List.nil_append] at done
  refine ⟨done.active,since.distinct,?_,fun url => ?_,done.apart,done.fresh,fun _ => .inr (Nat.succ_pos _)⟩
  · intro server member
    rw [done.flags server member,List.getLast?_concat]
    exact ⟨fun absent => ⟨config,rfl,absent⟩,by rintro ⟨other,same,absent⟩; cases same; exact absent⟩
  · refine (done.pending url).trans ?_
    rw [since.pending url]
    constructor
    · rintro (⟨outside,other,member,inside⟩ | ⟨outside,inside⟩)
      · exact ⟨outside,other,List.mem_append_left _ member,inside⟩
      · exact ⟨outside,config,List.mem_append_right _ (List.mem_singleton.mpr rfl),inside⟩
    · rintro ⟨outside,other,member,inside⟩
      rcases List.mem_append.mp member with earlier | last
      · exact .inl ⟨outside,other,earlier,inside⟩
      · cases List.mem_singleton.mp last
        exact .inr ⟨outside,inside⟩

theorem served_urls (served : List.Forall₂ Served before after) : urls after = urls before := by
  induction served with
  | nil => rfl
  | cons one _ ih => exact congrArg₂ List.cons one.1 ih

theorem served_mem (served : List.Forall₂ Served before after) (member : server ∈ after) : ∃ old ∈ before,
    Served old server := by
  induction served with
  | nil => cases member
  | cons one _ ih =>
    rcases List.mem_cons.mp member with rfl | member
    · exact ⟨_,List.mem_cons_self,one⟩
    · obtain ⟨old,there,same⟩ := ih member
      exact ⟨old,List.mem_cons_of_mem _ there,same⟩

theorem step_since (since : Since old reloads s) (step : Step s event t) (quiet : event.isUpdate = false) :
    Since old (reloads++configs [event]) t := by
  cases step with
  | recheck => exact recheck_since since _
  | raise more =>
    rw [show configs [Event.raise] = [] by rfl,List.append_nil]
    exact ⟨since.active,since.distinct,since.flags,since.pending,since.apart,since.fresh,fun _ => .inl rfl⟩
  | entries served =>
    rw [show configs [Event.entries] = [] by rfl,List.append_nil]
    refine ⟨(served_urls served).trans since.active,since.distinct,?_,since.pending,since.apart,
      since.fresh,fun filled => ?_⟩
    · intro server member
      obtain ⟨before,there,url,_,remove,_⟩ := served_mem served member
      rw [url,remove]
      exact since.flags before there
    · exact (since.raised filled).imp_left fun yes => by rw [yes]; rfl
  | update => cases quiet

theorem checked_active (sources : List (String × Bool)) (s : State) :
    (checkServers sources s).active_yps =
    (s.pending_yps.map (populate sources)).reverse++s.active_yps.filter fun server => !server.remove := by
  have pushed (pending active : List Server) :
      pending.foldl (fun active server => populate sources server::active) active =
        (pending.map (populate sources)).reverse++active := by
    induction pending generalizing active with
    | nil => rfl
    | cons server pending ih =>
      rw [List.foldl_cons,ih,List.map_cons,List.reverse_cons,List.append_assoc]
      rfl
  exact pushed s.pending_yps _

-- The mounts of the sources that are public, as a new server has them.
def publicMounts (sources : List (String × Bool)) : List String := ((sources.filter (·.2)).map (·.1)).reverse

theorem populated (sources : List (String × Bool)) (touch : Nat) (mounts : List YpData) :
    ∃ added,sources.foldl (fun mounts source =>
    if source.2 then {createYpEntry source.1 0 touch with next_update := 0}::mounts else mounts) mounts =
      added++mounts ∧ added.map (·.mount) = publicMounts sources ∧ ∀ yp ∈ added,yp.remove = false := by
  induction sources generalizing mounts with
  | nil => exact ⟨[],rfl,rfl,List.forall_mem_nil _⟩
  | cons source sources ih =>
    rw [List.foldl_cons]
    by_cases yp_public : source.2 = true
    · rw [if_pos yp_public]
      obtain ⟨added,ran,names,kept⟩ := ih ({createYpEntry source.1 0 touch with next_update := 0}::mounts)
      refine ⟨added++[{createYpEntry source.1 0 touch with next_update := 0}],?_,?_,?_⟩
      · rw [ran,List.append_assoc]
        rfl
      · rw [List.map_append,names,publicMounts,publicMounts,List.filter_cons_of_pos yp_public]
        exact List.reverse_cons.symm
      · intro yp member
        rcases List.mem_append.mp member with earlier | last
        · exact kept yp earlier
        · cases List.mem_singleton.mp last
          rfl
    · rw [if_neg yp_public]
      obtain ⟨added,ran,names,kept⟩ := ih mounts
      refine ⟨added,ran,?_,kept⟩
      rw [names,publicMounts,publicMounts,List.filter_cons_of_neg yp_public]

-- The urls of the active servers after the reloads since they were `old`.
def Wanted (old : List String) (reloads : List (List YpDirectory)) (url : String) : Prop :=
  (url ∈ old ∧ ∀ config,reloads.getLast? = some config → url ∈ listed config) ∨
    (url ∉ old ∧ ∃ config ∈ reloads,url ∈ listed config)

theorem update_urls (sources : List (String × Bool)) (s : State) :
    urls (update sources s).active_yps = (urls s.pending_yps).reverse++urls
    (s.active_yps.filter fun server => !server.remove) := by
  rw [update,checked_active,urls,urls,urls,List.map_map,List.map_append,List.map_reverse,List.map_map]
  rfl

theorem kept_url (since : Since old reloads s) (url : String) :
    url ∈ urls (s.active_yps.filter fun server => !server.remove) ↔
      url ∈ old ∧ ∀ config,reloads.getLast? = some config → url ∈ listed config := by
  constructor
  · intro member
    obtain ⟨server,inside,rfl⟩ := List.mem_map.mp member
    obtain ⟨there,kept⟩ := List.mem_filter.mp inside
    refine ⟨since.active ▸ List.mem_map.mpr ⟨server,there,rfl⟩,fun config last => ?_⟩
    by_contra absent
    rw [(since.flags server there).mpr ⟨config,last,absent⟩] at kept
    cases kept
  · rintro ⟨inside,lists⟩
    rw [←since.active] at inside
    obtain ⟨server,there,rfl⟩ := List.mem_map.mp inside
    refine List.mem_map.mpr ⟨server,List.mem_filter.mpr ⟨there,?_⟩,rfl⟩
    cases flag : server.remove with
    | false => rfl
    | true =>
      obtain ⟨config,last,absent⟩ := (since.flags server there).mp flag
      exact absurd (lists config last) absent

theorem update_wanted (since : Since old reloads s) (sources : List (String × Bool)) (url : String) :
    url ∈ urls (update sources s).active_yps ↔ Wanted old reloads url := by
  rw [update_urls,List.mem_append,List.mem_reverse,since.pending,kept_url since]
  exact or_comm

theorem update_settled (since : Since old reloads s) (sources : List (String × Bool)) : Settled (update sources s) := by
  refine ⟨?_,?_,rfl⟩
  · rw [update_urls,List.nodup_append]
    have sub : (urls (s.active_yps.filter fun server => !server.remove)).Sublist (urls s.active_yps) :=
      List.filter_sublist.map _
    refine ⟨List.nodup_reverse.mpr since.apart,(since.active.symm ▸ since.distinct).sublist sub,?_⟩
    rintro url new other kept rfl
    exact ((since.pending url).mp (List.mem_reverse.mp new)).1 ((kept_url since url).mp kept).1
  · intro server member
    rw [update,checked_active] at member
    obtain ⟨before,inside,rfl⟩ := List.mem_map.mp member
    rcases List.mem_append.mp inside with new | kept
    · obtain ⟨other,waiting,rfl⟩ := List.mem_map.mp (List.mem_reverse.mp new)
      exact (since.fresh other waiting).1
    · have flag := (List.mem_filter.mp kept).2
      exact Bool.not_eq_true' _ ▸ flag

-- A server that stays keeps its entries, and a new one has one for each public source.
def Entered (old : List String) (sources : List (String × Bool)) (before : List Server) (server : Server) : Prop :=
  (server.url ∈ old ∧ ∃ kept ∈ before,server = {kept with entries := deleteMarkedYp (addPendingYp kept.entries)}) ∨
  (server.url ∉ old ∧ server.entries.mounts.map (·.mount) = publicMounts sources ∧ server.entries.pending_mounts = [])

theorem update_entered (since : Since old reloads s) (sources : List (String × Bool))
    (member : server ∈ (update sources s).active_yps) :
    Entered old sources s.active_yps server := by
  rw [update,checked_active] at member
  obtain ⟨before,inside,rfl⟩ := List.mem_map.mp member
  rcases List.mem_append.mp inside with new | kept
  · obtain ⟨other,waiting,rfl⟩ := List.mem_map.mp (List.mem_reverse.mp new)
    obtain ⟨_,empty,vacant⟩ := since.fresh other waiting
    obtain ⟨added,ran,names,unmarked⟩ := populated sources other.entries.touch_interval other.entries.mounts
    refine .inr ⟨((since.pending other.url).mp (List.mem_map.mpr ⟨other,waiting,rfl⟩)).1,?_,rfl⟩
    have all : ∀ yp ∈ added,(!yp.remove) = true := fun yp there => by rw [unmarked yp there]; rfl
    have mounts : (deleteMarkedYp (addPendingYp (populate sources other).entries)).mounts = added := by
      unfold deleteMarkedYp addPendingYp populate
      dsimp only
      rw [vacant,ran,empty,List.append_nil,List.nil_append,List.filter_eq_self.mpr all]
    exact (congrArg (List.map (·.mount)) mounts).trans names
  · have there := (List.mem_filter.mp kept).1
    exact .inl ⟨since.active ▸ List.mem_map.mpr ⟨before,there,rfl⟩,before,there,rfl⟩

theorem configs_append (xs ys : List Event) : configs (xs++ys) = configs xs++configs ys := List.filterMap_append

theorem run_since (since : Since old reloads s) (path : Runs Step s labels t)
    (quiet : ∀ event ∈ labels,event.isUpdate = false) :
    Since old (reloads++configs labels) t := by
  induction path with
  | nil =>
    rw [show configs [] = [] by rfl,List.append_nil]
    exact since
  | snoc _ last ih =>
    rw [configs_append,←List.append_assoc]
    exact step_since (ih fun event member => quiet event (List.mem_append_left _ member)) last
      (quiet _ (List.mem_append_right _ (List.mem_singleton.mpr rfl)))

theorem start_settled : Settled start := ⟨List.nodup_nil,fun _ none => absurd none List.not_mem_nil,rfl⟩

theorem reached (path : Runs Step start labels s) : ∃ old reloads,Since old reloads s := by
  induction path with
  | nil => exact ⟨_,_,start_settled.since⟩
  | snoc _ last ih =>
    rename_i label next _
    obtain ⟨old,reloads,since⟩ := ih
    cases quiet : label.isUpdate with
    | false => exact ⟨_,_,step_since since last quiet⟩
    | true =>
      cases last with
      | update => exact ⟨_,_,(update_settled since _).since⟩
      | _ => cases quiet

theorem settled_behind (path : Runs Step start before s)
    (rest : before = [] ∨ ∃ earlier sources,before = earlier++[.update sources]) : Settled s := by
  cases path with
  | nil => exact start_settled
  | snoc earlier last =>
    rcases rest with none | ⟨front,sources,same⟩
    · exact absurd none (List.append_ne_nil_of_right_ne_nil _ (List.cons_ne_nil _ _))
    · obtain ⟨rfl,one⟩ := List.append_inj' same rfl
      cases List.singleton_inj.mp one
      obtain ⟨old,reloads,since⟩ := reached earlier
      cases last
      exact update_settled since _

def directory (url : String) : YpDirectory := ⟨url,15,600⟩

-- A server is added and dropped again by two reloads with no update between them.
def firstReload : List Event := [.recheck [directory "a"],.raise,.update [("/jazz",true)]]
def twoReloads : List Event := [.recheck [directory "b"],.recheck [directory "a"]]

theorem dropped : ∃ s t,Runs Step start firstReload s ∧ Runs Step s twoReloads t ∧ urls s.active_yps = ["a"] := by
  have first : ∃ s,Runs Step start firstReload s ∧ urls s.active_yps = ["a"] :=
    ⟨_,.cons .recheck (.cons (.raise (by decide)) (.cons (.update (by decide)) .nil)),by decide +kernel⟩
  have more (s : State) : ∃ t,Runs Step s twoReloads t := ⟨_,.cons .recheck (.cons .recheck .nil)⟩
  obtain ⟨s,ran,active⟩ := first
  obtain ⟨t,again⟩ := more s
  exact ⟨s,t,ran,again,active⟩

-- Over every run of reloads and of the update thread, no reload is lost; where the thread takes the
-- reloads up the active servers are one for each url of the last configuration that was active
-- before, and one for each that was not and that any of the configurations lists.
theorem yp_servers (path : Runs Step start before s)
    (rest : before = [] ∨ ∃ earlier sources,before = earlier++[.update sources])
    (later : Runs Step s labels t) (quiet : ∀ event ∈ labels,event.isUpdate = false) (sources : List (String × Bool)) :
    (configs labels ≠ [] → t.yp_update = true ∨ 0 < t.raising) ∧ (urls (update sources t).active_yps).Nodup ∧
      (∀ url,url ∈ urls (update sources t).active_yps ↔ Wanted (urls s.active_yps) (configs labels) url) ∧
      (∀ server ∈ (update sources t).active_yps,Entered (urls s.active_yps) sources t.active_yps server) := by
  have since := run_since (settled_behind path rest).since later quiet
  rw [List.nil_append] at since
  exact ⟨since.raised,(update_settled since sources).distinct,update_wanted since sources,fun server member =>
    update_entered since sources member⟩

theorem yp_servers_dropped : ∃ s t,Runs Step start firstReload s ∧ Runs Step s twoReloads t ∧
    (t.yp_update = true ∨ 0 < t.raising) ∧ "b" ∈ urls (update [] t).active_yps := by
  obtain ⟨s,t,first,more,active⟩ := dropped
  obtain ⟨raised,_,all,_⟩ := yp_servers first (.inr ⟨[.recheck [directory "a"],.raise],_,rfl⟩) more (by decide) []
  refine ⟨s,t,first,more,raised (by decide),(all "b").mpr ?_⟩
  rw [active]
  exact .inr ⟨by decide,[directory "b"],by decide,by decide⟩

-- The servers are those of the last configuration exactly when each url that another of the
-- configurations lists is one of the last, too, or was active before.
theorem yp_servers_exact (path : Runs Step start before s)
    (rest : before = [] ∨ ∃ earlier sources,before = earlier++[.update sources])
    (later : Runs Step s labels t) (quiet : ∀ event ∈ labels,event.isUpdate = false)
    (last : (configs labels).getLast? = some config)
    (sources : List (String × Bool)) :
    (∀ url,url ∈ urls (update sources t).active_yps ↔ url ∈ listed config) ↔
      ∀ earlier ∈ configs labels,∀ url ∈ listed earlier,url ∈ listed config ∨ url ∈ urls s.active_yps := by
  have since := run_since (settled_behind path rest).since later quiet
  rw [List.nil_append] at since
  have only : ∀ url,(∀ other,(configs labels).getLast? = some other → url ∈ listed other) ↔
    url ∈ listed config := fun url =>
    ⟨fun all => all config last,fun inside other same => Option.some.inj (last.symm.trans same) ▸ inside⟩
  have member : config ∈ configs labels := List.mem_of_getLast? last
  simp only [update_wanted since sources,Wanted,only]
  constructor
  · intro same earlier read url inside
    by_cases active : url ∈ urls s.active_yps
    · exact .inr active
    · exact .inl ((same url).mp (.inr ⟨active,earlier,read,inside⟩))
  · intro all url
    constructor
    · rintro (⟨_,inside⟩ | ⟨outside,earlier,read,inside⟩)
      · exact inside
      · exact (all earlier read url inside).resolve_right outside
    · intro inside
      by_cases active : url ∈ urls s.active_yps
      · exact .inl ⟨active,inside⟩
      · exact .inr ⟨active,config,member,inside⟩

theorem yp_servers_exact_dropped : ∃ s t,Runs Step start firstReload s ∧ Runs Step s twoReloads t ∧
    ¬∀ url,url ∈ urls (update [] t).active_yps ↔ url ∈ listed [directory "a"] := by
  obtain ⟨s,t,first,more,active⟩ := dropped
  refine ⟨s,t,first,more,fun same => ?_⟩
  have all := (yp_servers_exact first (.inr ⟨[.recheck [directory "a"],.raise],_,rfl⟩) more
    (by decide) (by rfl) []).mp same
  have b := all [directory "b"] (by decide) "b" (by decide)
  rw [active] at b
  exact absurd b (by decide)

end Icecast.YpServers
