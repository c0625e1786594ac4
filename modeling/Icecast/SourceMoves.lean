import Mathlib.Logic.Function.Basic
import Icecast.AvlCursor
import Icecast.AvlRuns
import Icecast.Client

namespace Icecast.SourceMoves
open NodeHeap AvlNodes Transition

-- What source_move_clients reads and writes of client_t.
structure Client where
  refbuf : Option Nat
  pos : Nat
  checkBuffer : CheckBuffer
  introOffset : Int
deriving DecidableEq

-- The clients by address, 0 being NULL, and the calls of refbuf_addref and refbuf_release.
structure World where
  clients : Nat → Client
  held : List Nat
  released : List Nat

-- source_t. `format` is the type of its format plugin, `con` whether it has a connection. Trees hold
-- the addresses of clients.
structure Source where
  mount : String
  running : Bool
  onDemand : Bool
  onDemandReq : Bool
  format : Option Nat
  con : Bool
  listeners : Nat
  clientTree : AvlTree Nat
  pendingTree : AvlTree Nat

def clientSetQueue (w : World) (client : Nat) (refbuf : Option Nat) : World :=
  let to_release := (w.clients client).refbuf
  { clients := Function.update w.clients client {w.clients client with refbuf := refbuf,pos := 0}
    held := w.held++refbuf.toList
    released := w.released++to_release.toList }

-- What becomes of a client on its way: a client that still has headers to send keeps its buffer.
def moveClient (con : Bool) (w : World) (client : Nat) : World :=
  if (w.clients client).checkBuffer ≠ .http then
    let w := clientSetQueue w client none
    let c := w.clients client
    let c := {c with checkBuffer := .file,introOffset := if con then c.introOffset else -1}
    {w with clients := Function.update w.clients client c}
  else w

section Trees

-- con->id of a client, which nothing changes, and the node malloc gives where these are in use.
variable (conId : Nat → Nat) (malloc : List Nat → Nat)

def compareClients (a b : Nat) : Int := if conId a < conId b then -1 else if conId a > conId b then 1 else 0

-- The loop that empties one tree of the source into the pending tree of dest. The count does not
-- reach the size of an unsigned long before the addresses are used up.
def drain (con : Bool) : Nat → World → AvlTree Nat → AvlTree Nat → Nat →
    Option (World × AvlTree Nat × AvlTree Nat × Nat)
  | 0,_,_,_,_ => none
  | fuel+1,w,tree,dest,count =>
    (avlGetFirst tree).bind fun node =>
    match node with
    | none => some (w,tree,dest,count)
    | some node =>
      let client := (tree.heap node).key
      (avlDelete (compareClients conId) tree client).bind fun done =>
      let w := moveClient con w client
      (avlInsert (compareClients conId) dest client (malloc dest.nodes)).bind fun dest =>
      drain con fuel w done.tree dest (count+1)

def sameFormat (source dest : Source) : Bool :=
  match source.format,dest.format with
  | some f,some g => f == g
  | _,_ => true

def sourceMoveClients (w : World) (source dest : Source) : Option (World × Source × Source) :=
  if source.mount = dest.mount then some (w,source,dest)
  else if !dest.running && !dest.onDemand then some (w,source,dest)
  else
    let moved :=
      if !source.onDemand && source.format.isNone then some (w,source,dest,0)
      else if !sameFormat source dest then some (w,source,dest,0)
      else
        (drain conId malloc source.con
          (source.pendingTree.nodes.length+1) w source.pendingTree dest.pendingTree 0).bind fun r =>
        let (w,pending,tree,count) := r
        (drain conId malloc source.con (source.clientTree.nodes.length+1) w source.clientTree tree count).map fun r =>
        let (w,clients,tree,count) := r
        (w,{source with pendingTree := pending,clientTree := clients,listeners := 0},
          {dest with pendingTree := tree},count)
    moved.map fun r =>
    let (w,source,dest,count) := r
    (w,source,if !dest.running && dest.onDemand && count != 0 then {dest with onDemandReq := true} else dest)

end Trees

section Move

variable {conId : Nat → Nat} {malloc : List Nat → Nat} {con : Bool} {w : World}

theorem compareClients_order : Preordered (compareClients conId) := by
  unfold compareClients
  constructor
  · intro a b
    split <;> split <;> omega
  · intro a b c
    split <;> split <;> (try split) <;> (try split) <;> (try split) <;> omega

theorem compareClients_equal (equal : compareClients conId a b = 0) : conId a = conId b := by
  unfold compareClients at equal
  split at equal
  · cases equal
  · split at equal
    · cases equal
    · omega

theorem only_one {keys : List Nat} (ids : (keys.map conId).Nodup) (inside : k ∈ keys) :
    ∀ k' ∈ keys, compareClients conId k k' = 0 → k' = k := by
  intro k' inside' equal
  exact List.inj_on_of_nodup_map ids inside' inside (compareClients_equal equal).symm

theorem empty_nil {T : NodeTree Nat} (absent : T.entries = []) : T = .nil := by
  cases T with
  | nil => rfl
  | node id l k b rk r =>
    rw [NodeTree.entries] at absent
    simp at absent

-- A tree that is emptied from its first client on: what avl_get_first and avl_delete leave of it.
structure Opened (conId : Nat → Nat) (tree : AvlTree Nat) (T : NodeTree Nat) (x k : Nat) (done : Deleted Nat)
    (T' : NodeTree Nat) : Prop where
  first : avlGetFirst tree = some (some x)
  key : (tree.heap x).key = k
  run : avlDelete (compareClients conId) tree k = some done
  holds : Holds (compareClients conId) done.tree T'
  keys : T.keys = k::T'.keys
  size : T.size = T'.size+1
  ids : (T'.keys.map conId).Nodup
  nonnull : ∀ k ∈ T'.keys, k ≠ 0

theorem opened {tree : AvlTree Nat} {T : NodeTree Nat} (holds : Holds (compareClients conId) tree T)
    (ids : (T.keys.map conId).Nodup)
    (nonnull : ∀ k ∈ T.keys, k ≠ 0) :
    T = .nil ∧ avlGetFirst tree = some none ∨ ∃ x k done T', Opened conId tree T x k done T' := by
  have first := avlGetFirst_spec holds nonnull
  cases entries : T.entries with
  | nil =>
    rw [entries] at first
    exact .inl ⟨empty_nil entries,first⟩
  | cons e rest =>
    obtain ⟨x,k⟩ := e
    rw [entries] at first
    have member : (x,k) ∈ T.entries := entries ▸ List.mem_cons_self
    have inside : k ∈ T.keys := NodeTree.keys_entries T ▸ List.mem_map_of_mem member
    obtain ⟨done,T',a',run,holds',_,after,same⟩ := delete_exact (a := []) compareClients_order holds entries
      (only_one ids inside) ids.of_map
    have nothing : a' = [] := List.map_eq_nil_iff.mp same
    rw [nothing] at after
    have keys : T.keys = k::T'.keys := by
      rw [←NodeTree.keys_entries,←NodeTree.keys_entries,entries,after]
      rfl
    have size : T.size = T'.size+1 := by rw [←NodeTree.length_keys,keys,List.length_cons,NodeTree.length_keys]
    rw [keys] at ids nonnull
    exact .inr ⟨x,k,done,T',first,holds.key_eq member,run,holds',keys,size,(List.nodup_cons.mp ids).2,
      fun k member => nonnull k (List.mem_cons_of_mem _ member)⟩

theorem drain_spec (con : Bool) (fresh : ∀ nodes, malloc nodes ∉ nodes) (fuel : Nat) (w : World)
    (tree dest : AvlTree Nat)
    (T D : NodeTree Nat) (count : Nat) (holds : Holds (compareClients conId) tree T)
    (target : Holds (compareClients conId) dest D) (ids : (T.keys.map conId).Nodup)
    (nonnull : ∀ k ∈ T.keys, k ≠ 0) (enough : T.size < fuel) :
    ∃ tree' dest' D', drain conId malloc con fuel w tree dest count =
    some (T.keys.foldl (moveClient con) w,tree',dest',count+T.size) ∧
      Holds (compareClients conId) tree' .nil ∧ Holds (compareClients conId) dest' D' ∧
      D'.keys.Perm (T.keys++D.keys) := by
  induction fuel generalizing w tree dest T D count with
  | zero => cases enough
  | succ fuel ih =>
    unfold drain
    rcases opened holds ids nonnull with ⟨rfl,first⟩ | ⟨x,k,done,T',head⟩
    · rw [first]
      exact ⟨tree,dest,D,rfl,holds,target,List.Perm.refl _⟩
    · have sizes := head.size
      obtain ⟨dest',D',_,_,put,inserted,target'⟩ := avlInsert_spec compareClients_order target k (fresh dest.nodes)
      obtain ⟨tree',dest'',D'',drained,emptied,filled,perm⟩ :=
        ih (moveClient con w k) done.tree dest' T' D' (count+1) head.holds target'
        head.ids head.nonnull (by omega)
      refine ⟨tree',dest'',D'',?_,emptied,filled,?_⟩
      · rw [head.first]
        simp only [Option.bind_some,head.key,head.run,put]
        rw [drained,head.keys,List.foldl_cons,sizes]
        congr 4
        omega
      · rw [head.keys]
        exact perm.trans ((inserted.keys.append_left _).trans List.perm_middle)

-- A client after the move, and the reference it gives up.
def detached (con : Bool) (c : Client) : Client :=
  if c.checkBuffer = .http then c else ⟨none,0,.file,if con then c.introOffset else -1⟩

def givenUp (c : Client) : Option Nat := if c.checkBuffer = .http then none else c.refbuf

theorem moveClient_same (k : Nat) : (moveClient con w k).clients k = detached con (w.clients k) := by
  unfold moveClient clientSetQueue detached
  by_cases http : (w.clients k).checkBuffer = .http
  · rw [if_neg (not_not_intro http),if_pos http]
  · rw [if_pos http,if_neg http]
    simp

theorem moveClient_other (apart : c ≠ k) : (moveClient con w k).clients c = w.clients c := by
  unfold moveClient clientSetQueue
  split
  · simp [Function.update_of_ne apart]
  · rfl

theorem moveClient_released (k : Nat) : (moveClient con w k).released = w.released++(givenUp (w.clients k)).toList := by
  unfold moveClient clientSetQueue givenUp
  by_cases http : (w.clients k).checkBuffer = .http
  · rw [if_neg (not_not_intro http),if_pos http,Option.toList_none,List.append_nil]
  · rw [if_pos http,if_neg http]

theorem moved_once (con : Bool) {moved : List Nat} (nodup : moved.Nodup) (w : World) :
    (∀ c, (moved.foldl (moveClient con) w).clients c = if c ∈ moved then detached con (w.clients c) else w.clients c) ∧
    (moved.foldl (moveClient con) w).released = w.released++moved.filterMap fun c => givenUp (w.clients c) := by
  induction moved generalizing w with
  | nil => simp
  | cons k rest ih =>
    obtain ⟨out,nodup⟩ := List.nodup_cons.mp nodup
    obtain ⟨clients,released⟩ := ih nodup (moveClient con w k)
    rw [List.foldl_cons]
    refine ⟨fun c => ?_,?_⟩
    · rw [clients c]
      by_cases same : c = k
      · subst same
        rw [if_neg out,if_pos List.mem_cons_self,moveClient_same]
      · rw [moveClient_other same]
        by_cases inside : c ∈ rest
        · rw [if_pos inside,if_pos (List.mem_cons_of_mem _ inside)]
        · rw [if_neg inside,if_neg (List.not_mem_cons_of_ne_of_not_mem same inside)]
    · have later : rest.filterMap (fun c => givenUp ((moveClient con w k).clients c)) = rest.filterMap fun c =>
        givenUp (w.clients c) := by
        refine List.filterMap_congr fun c inside => ?_
        have apart : c ≠ k := fun same => out (same ▸ inside)
        rw [moveClient_other apart]
      rw [released,later,moveClient_released,List.filterMap_cons,List.append_assoc]
      cases givenUp (w.clients k) <;> rfl

-- Both trees of the source emptied, their clients in the pending tree of dest, each once and each as
-- a client that changes queues has to be.
structure Moved (conId : Nat → Nat) (w : World) (source dest : Source) (moved waiting : List Nat) (w' : World)
    (source' dest' : Source) : Prop where
  pending : Holds (compareClients conId) source'.pendingTree .nil
  clients : Holds (compareClients conId) source'.clientTree .nil
  target : ∃ T, Holds (compareClients conId) dest'.pendingTree T ∧ T.keys.Perm (moved++waiting)
  once : moved.Nodup
  listeners : source'.listeners = 0
  sent : ∀ c ∈ moved, (w.clients c).checkBuffer ≠ .http →
    (w'.clients c).refbuf = none ∧ (w'.clients c).pos = 0 ∧ (w'.clients c).checkBuffer = .file
  greeted : ∀ c ∈ moved, (w.clients c).checkBuffer = .http → w'.clients c = w.clients c
  others : ∀ c ∉ moved, w'.clients c = w.clients c
  released : w'.released = w.released++moved.filterMap fun c => givenUp (w.clients c)
  asked : dest.running = false → dest.onDemand = true → moved ≠ [] → dest'.onDemandReq = true

theorem keys_sorted {tree : AvlTree Nat} {T : NodeTree Nat} (holds : Holds (compareClients conId) tree T) :
    T.keys.Pairwise fun a b => conId a ≤ conId b := by
  refine holds.sorted.imp fun {a b} below => ?_
  unfold compareClients at below
  split at below
  · omega
  · split at below <;> omega

theorem reads_sorted {read : Nat → Listener δ} (ids : ∀ k, (read k).id = conId k)
    {tree : AvlTree Nat} {T : NodeTree Nat}
    (holds : Holds (compareClients conId) tree T) :
    (T.keys.map read).Pairwise fun a b => a.id ≤ b.id := by
  refine List.pairwise_map.mpr ((keys_sorted holds).imp fun {a b} below => ?_)
  rw [ids,ids]
  exact below

theorem reads_inserted {read : Nat → Listener δ} (ids : ∀ k, (read k).id = conId k)
    {tree : AvlTree Nat} {T : NodeTree Nat}
    {kept new : List Nat} (holds : Holds (compareClients conId) tree T)
    (sorted : (kept.map read).Pairwise fun a b => a.id ≤ b.id)
    (perm : T.keys.Perm (new++kept)) (distinct : ((new++kept).map conId).Nodup) :
    T.keys.map read = (new.map read).foldl (fun tree c => insertClient c tree) (kept.map read) := by
  obtain ⟨sorted',perm'⟩ := insertClients_sorted sorted (new.map read)
  have same : (T.keys.map read).Perm ((new.map read).foldl (fun tree c => insertClient c tree) (kept.map read)) := by
    refine (perm.map read).trans ?_
    rw [List.map_append]
    exact perm'.symm
  refine same.eq_of_pairwise ?_ (reads_sorted ids holds) sorted'
  intro c d cin din le ge
  obtain ⟨x,xin,rfl⟩ := List.mem_map.mp cin
  obtain ⟨y,yin,rfl⟩ := List.mem_map.mp (same.mem_iff.mpr din)
  rw [ids,ids] at le ge
  have equal : x = y := List.inj_on_of_nodup_map distinct (perm.mem_iff.mp xin) (perm.mem_iff.mp yin)
    (Nat.le_antisymm le ge)
  rw [equal]

theorem Moved.listed {read : Nat → Listener δ} {w w' : World} {source dest source' dest' : Source}
    {moved : List Nat} {D : NodeTree Nat}
    {tree : AvlTree Nat} (done : Moved conId w source dest moved D.keys w' source' dest')
    (ids : ∀ k, (read k).id = conId k)
    (target : Holds (compareClients conId) tree D) (distinct : ((moved++D.keys).map conId).Nodup) :
    ∃ T, Holds (compareClients conId) dest'.pendingTree T ∧
      T.keys.map read = (moved.map read).foldl (fun tree c => insertClient c tree) (D.keys.map read) := by
  obtain ⟨T,holds,perm⟩ := done.target
  exact ⟨T,holds,reads_inserted ids holds (reads_sorted ids target) perm distinct⟩

-- The checks of source_move_clients.
def moves (source dest : Source) : Bool :=
  source.mount != dest.mount && (dest.running || dest.onDemand) && (source.onDemand || source.format.isSome) &&
    sameFormat source dest

-- What a move leaves besides, field by field.
structure Left (w : World) (source dest : Source) (moved : List Nat) (w' : World) (source' dest' : Source) : Prop where
  emptied : source' = {source with pendingTree := source'.pendingTree,clientTree := source'.clientTree,listeners := 0}
  joined : dest' = {dest with
    pendingTree := dest'.pendingTree
    onDemandReq := dest.onDemandReq || (!dest.running && dest.onDemand && !moved.isEmpty)}
  detached : ∀ c ∈ moved, w'.clients c = detached source.con (w.clients c)

theorem asked_eq (dest : Source) (asked : Bool) : (if asked then {dest with onDemandReq := true} else dest) =
    {dest with onDemandReq := dest.onDemandReq || asked} := by
  cases asked
  · simp
  · simp

theorem stays (still : moves source dest = false) : sourceMoveClients conId malloc w source dest = some (w,source,dest) := by
  unfold moves at still
  unfold sourceMoveClients
  by_cases mount : source.mount = dest.mount
  · exact if_pos mount
  rw [if_neg mount]
  by_cases down : (!dest.running && !dest.onDemand) = true
  · exact if_pos down
  rw [if_neg down]
  by_cases unready : (!source.onDemand && source.format.isNone) = true
  · simp [unready]
  rw [if_neg unready]
  rw [←Bool.not_or,Bool.not_eq_true,Bool.not_eq_false'] at down
  rw [←Option.not_isSome,←Bool.not_or,Bool.not_eq_true,Bool.not_eq_false'] at unready
  rw [bne_iff_ne.mpr mount,down,unready,Bool.true_and,Bool.true_and,Bool.true_and] at still
  simp [still]

theorem moves_goes (moving : moves source dest = true) : source.mount ≠ dest.mount ∧
    (!dest.running && !dest.onDemand) = false ∧ (!source.onDemand && source.format.isNone) = false ∧
    (!sameFormat source dest) = false := by
  unfold moves at moving
  simp only [Bool.and_eq_true,bne_iff_ne] at moving
  obtain ⟨⟨⟨mount,up⟩,ready⟩,types⟩ := moving
  rw [←Option.not_isSome,←Bool.not_or,←Bool.not_or,up,ready,types]
  exact ⟨mount,rfl,rfl,rfl⟩

theorem move_spec (w : World) (source dest : Source) {P C D : NodeTree Nat}
    (fresh : ∀ nodes, malloc nodes ∉ nodes)
    (pending : Holds (compareClients conId) source.pendingTree P)
    (clients : Holds (compareClients conId) source.clientTree C)
    (target : Holds (compareClients conId) dest.pendingTree D) (ids : ((P.keys++C.keys).map conId).Nodup)
    (nonnull : ∀ k ∈ P.keys++C.keys, k ≠ 0) :
    ∃ w' source' dest', sourceMoveClients conId malloc w source dest = some (w',source',dest') ∧
      (moves source dest = false ∧ w' = w ∧ source' = source ∧ dest' = dest ∨
      moves source dest = true ∧ Moved conId w source dest (P.keys++C.keys) D.keys w' source' dest' ∧
        Left w source dest (P.keys++C.keys) w' source' dest') := by
  by_cases moving : moves source dest = true
  case neg =>
    have still := Bool.not_eq_true _ ▸ moving
    exact ⟨w,source,dest,stays still,.inl ⟨still,rfl,rfl,rfl⟩⟩
  have moved := ids
  rw [List.map_append] at moved
  obtain ⟨pids,cids,_⟩ := List.nodup_append.mp moved
  have pcount := pending.nodes.length_eq
  have ccount := clients.nodes.length_eq
  rw [List.length_cons,NodeTree.length_ids] at pcount ccount
  obtain ⟨pending',tree,D',pdrained,pempty,target',perm⟩ :=
    drain_spec source.con fresh (source.pendingTree.nodes.length+1) w
    source.pendingTree dest.pendingTree P D 0 pending target pids
      (fun k member => nonnull k (List.mem_append_left _ member)) (by omega)
  obtain ⟨clients',tree',D'',cdrained,cempty,target'',perm'⟩ :=
    drain_spec source.con fresh (source.clientTree.nodes.length+1)
    (P.keys.foldl (moveClient source.con) w) source.clientTree tree C D' (0+P.size) clients target' cids
    (fun k member => nonnull k (List.mem_append_right _ member)) (by omega)
  obtain ⟨after,released⟩ := moved_once source.con ids.of_map w
  rw [List.foldl_append] at after released
  have inside : ∀ c ∈ P.keys++C.keys,
    (C.keys.foldl (moveClient source.con) (P.keys.foldl (moveClient source.con) w)).clients c =
      detached source.con (w.clients c) := fun c member => (after c).trans (if_pos member)
  have anyone : (0+P.size+C.size != 0) = !(P.keys++C.keys).isEmpty := by
    rw [Nat.zero_add,←NodeTree.length_keys,←NodeTree.length_keys,←List.length_append]
    cases P.keys++C.keys <;> rfl
  let asked := !dest.running && dest.onDemand && !(P.keys++C.keys).isEmpty
  refine ⟨_,{source with pendingTree := pending',clientTree := clients',listeners := 0},
    {dest with pendingTree := tree',onDemandReq := dest.onDemandReq || asked},?_,
    .inr ⟨moving,⟨pempty,cempty,⟨D'',target'',?_⟩,ids.of_map,rfl,?_,?_,?_,released,?_⟩,rfl,rfl,inside⟩⟩
  · obtain ⟨mount,up,ready,types⟩ := moves_goes moving
    rw [sourceMoveClients,if_neg mount,up,ready,types]
    simp only [Bool.false_eq_true,if_false,pdrained,cdrained,Option.bind_some,Option.map_some,anyone]
    exact congrArg (fun reached => some (_,_,reached)) (asked_eq {dest with pendingTree := tree'} asked)
  · refine perm'.trans ((perm.append_left _).trans ?_)
    rw [←List.append_assoc]
    exact List.perm_append_comm.append_right _
  · intro c member http
    rw [inside c member,detached,if_neg http]
    exact ⟨rfl,rfl,rfl⟩
  · intro c member http
    rw [inside c member,detached,if_pos http]
  · intro c out
    exact (after c).trans (if_neg out)
  · intro stopped onDemand positive
    have waiting : (P.keys++C.keys).isEmpty = false := List.isEmpty_eq_false_iff.mpr positive
    simp [asked,stopped,onDemand,waiting]

-- Either nothing changes, or every client of the source is moved.
theorem source_move_clients (w : World) (source dest : Source) {P C D : NodeTree Nat}
    (fresh : ∀ nodes, malloc nodes ∉ nodes)
    (pending : Holds (compareClients conId) source.pendingTree P)
    (clients : Holds (compareClients conId) source.clientTree C)
    (target : Holds (compareClients conId) dest.pendingTree D) (ids : ((P.keys++C.keys).map conId).Nodup)
    (nonnull : ∀ k ∈ P.keys++C.keys, k ≠ 0) :
    ∃ w' source' dest', sourceMoveClients conId malloc w source dest = some (w',source',dest') ∧
      (w' = w ∧ source' = source ∧ dest' = dest ∨
      Moved conId w source dest (P.keys++C.keys) D.keys w' source' dest') := by
  obtain ⟨w',source',dest',run,kept | moved⟩ := move_spec w source dest fresh pending clients target ids nonnull
  · exact ⟨w',source',dest',run,.inl kept.2⟩
  · exact ⟨w',source',dest',run,.inr moved.2.1⟩

end Move

section Example

def nextNode (nodes : List Nat) : Nat := nodes.foldr max 0+1

theorem nextNode_fresh (nodes : List Nat) : nextNode nodes ∉ nodes := by
  intro member
  have bound : ∀ xs : List Nat, ∀ x ∈ xs, x ≤ xs.foldr max 0 := by
    intro xs
    induction xs with
    | nil => simp
    | cons y xs ih =>
      intro x inside
      rw [List.foldr_cons]
      rcases List.mem_cons.mp inside with rfl | inside
      · exact Nat.le_max_left _ _
      · exact Nat.le_trans (ih x inside) (Nat.le_max_right _ _)
  have small := bound nodes _ member
  unfold nextNode at small
  omega

-- A source with two listeners, one of which has been sent its headers, a third that waits, and a
-- fallback with none.
def listening : State Nat :=
    (runFrom (next (compareClients id)) (start 0) [.insert 7 1,.insert 5 2]).get (by decide +kernel)

def waiting : State Nat := (runFrom (next (compareClients id)) (start 0) [.insert 9 1]).get (by decide +kernel)

theorem listening_run : Runs (Step (compareClients id)) (start 0) [.insert 7 1,.insert 5 2] listening :=
  runFrom_sound next_sound (Option.some_get _).symm

theorem waiting_run : Runs (Step (compareClients id)) (start 0) [.insert 9 1] waiting :=
  runFrom_sound next_sound (Option.some_get _).symm

def jazz : Source := ⟨"/jazz",true,false,false,some 0,true,2,listening.tree,waiting.tree⟩

def fallback : Source := ⟨"/fallback",true,false,false,some 0,true,0,avlTreeNew 0,avlTreeNew 0⟩

def evening : World := ⟨fun c => if c = 7 then ⟨some 70,12,.advance,3⟩ else ⟨some 50,0,.http,0⟩,[],[]⟩

theorem source_move_clients_jazz : ∃ w' source' dest',
    sourceMoveClients id nextNode evening jazz fallback = some (w',source',dest') ∧
    source'.listeners = 0 ∧ (w'.clients 7).refbuf = none ∧ (w'.clients 5).refbuf = some 50 := by
  obtain ⟨C,csound⟩ := run_sound compareClients_order listening_run
  obtain ⟨P,psound⟩ := run_sound compareClients_order waiting_run
  have target : Holds (compareClients id) (avlTreeNew 0 : AvlTree Nat) .nil := (start_sound 0).holds
  have ckeys : C.keys.Perm [5,7] := csound.keys
  have pkeys : P.keys.Perm [9] := psound.keys
  have keys : (P.keys++C.keys).Perm [9,5,7] := pkeys.append ckeys
  have nonnull : ∀ k ∈ [9,5,7], k ≠ 0 := by decide
  obtain ⟨w',source',dest',run,either⟩ :=
    source_move_clients evening jazz fallback nextNode_fresh psound.holds csound.holds target
    (by rw [List.map_id]; exact keys.nodup_iff.mpr (by decide)) fun k member => nonnull k (keys.mem_iff.mp member)
  have emptied : (sourceMoveClients id nextNode evening jazz fallback).map
    (·.2.1.listeners) = some 0 := by decide +kernel
  refine ⟨w',source',dest',run,?_⟩
  rw [run] at emptied
  rcases either with ⟨_,unchanged,_⟩ | moved
  · rw [unchanged] at emptied
    cases emptied
  · have seven : 7 ∈ P.keys++C.keys := keys.mem_iff.mpr (by decide)
    have five : 5 ∈ P.keys++C.keys := keys.mem_iff.mpr (by decide)
    exact ⟨moved.listeners,(moved.sent 7 seven (by decide)).1,congrArg Client.refbuf (moved.greeted 5 five rfl)⟩

end Example

end Icecast.SourceMoves
