import Icecast.SourceMoves

namespace Icecast.SourcePass
open NodeHeap AvlNodes SourceMoves Transition

-- The trees and the counter of a source in one pass of source_main, with what the pass did so far:
-- the calls of send_to_listener and of _free_client, and the clients added with the counter before.
structure Pass where
  clientTree : AvlTree Nat
  pendingTree : AvlTree Nat
  listeners : Nat
  sent : List Nat
  freed : List Nat
  added : List (Nat × Nat)

section Loops

-- Whether client->con->error is set once send_to_listener has been called, and source->max_listeners.
variable (conId : Nat → Nat) (malloc : List Nat → Nat) (errored : Nat → Bool) (maxListeners : Int)

-- The loop over client_tree: the next node is taken before the current one is deleted.
def serve : Nat → Pass → Option Nat → Option Pass
  | _,s,none => some s
  | 0,_,some _ => none
  | fuel+1,s,some node =>
    let client := (s.clientTree.heap node).key
    let s := {s with sent := s.sent++[client]}
    (avlGetNext s.clientTree node).bind fun next =>
    if errored client then
      (avlDelete (compareClients conId) s.clientTree client).bind fun done =>
      serve fuel {s with clientTree := done.tree,listeners := s.listeners-1,freed := s.freed++done.freed.toList} next
    else serve fuel s next

-- "source->listeners >= (unsigned long)source->max_listeners" where there is a limit.
def full (listeners : Nat) : Bool := maxListeners != -1 && decide (listeners ≥ (maxListeners % 2^64).toNat)

-- "add pending clients".
def addPending : Nat → Pass → Option Nat → Option Pass
  | _,s,none => some s
  | 0,_,some _ => none
  | fuel+1,s,some node =>
    let client := (s.pendingTree.heap node).key
    if full maxListeners s.listeners then
      (avlGetNext s.pendingTree node).bind fun next =>
      (avlDelete (compareClients conId) s.pendingTree client).bind fun done =>
      addPending fuel {s with pendingTree := done.tree,freed := s.freed++done.freed.toList} next
    else
      (avlInsert (compareClients conId) s.clientTree client (malloc s.clientTree.nodes)).bind fun tree =>
      (avlGetNext s.pendingTree node).bind fun next =>
      addPending fuel {s with clientTree := tree,listeners := s.listeners+1,added :=
        s.added++[(client,s.listeners)]} next

-- "clear pending tree": source_remove_client leaves the clients alone.
def clearPending : Nat → AvlTree Nat → Option (AvlTree Nat)
  | 0,_ => none
  | fuel+1,tree =>
    (avlGetFirst tree).bind fun node =>
    match node with
    | none => some tree
    | some node => (avlDelete (compareClients conId) tree (tree.heap node).key).bind fun done =>
      clearPending fuel done.tree

def pass (clientTree pendingTree : AvlTree Nat) (listeners : Nat) : Option Pass :=
  (avlGetFirst clientTree).bind fun node =>
  (serve conId errored clientTree.nodes.length ⟨clientTree,pendingTree,listeners,[],[],[]⟩ node).bind fun s =>
  (avlGetFirst s.pendingTree).bind fun node =>
  (addPending conId malloc maxListeners s.pendingTree.nodes.length s node).bind fun s =>
  (clearPending conId (s.pendingTree.nodes.length+1) s.pendingTree).map fun tree => {s with pendingTree := tree}

end Loops

section Spec

variable {conId : Nat → Nat} {malloc : List Nat → Nat} {errored : Nat → Bool} {maxListeners : Int}

theorem keys_split {T : NodeTree Nat} {a b : List (Nat × Nat)} (entries : T.entries = a++b) :
    T.keys = a.map Prod.snd++b.map Prod.snd := by
  rw [←NodeTree.keys_entries,entries,List.map_append]

-- What is left of a tree in which a walk stands before the nodes b: the keys before it as they were.
structure Walk (conId : Nat → Nat) (tree : AvlTree Nat) (T : NodeTree Nat) (a b : List (Nat × Nat)) : Prop where
  holds : Holds (compareClients conId) tree T
  entries : T.entries = a++b
  ids : (T.keys.map conId).Nodup
  nonnull : ∀ k ∈ T.keys, k ≠ 0

theorem Walk.key {tree : AvlTree Nat} {T : NodeTree Nat} {a b : List (Nat × Nat)}
    (walk : Walk conId tree T a ((x,k)::b)) :
    (tree.heap x).key = k := by
  apply walk.holds.key_eq
  rw [walk.entries]
  exact List.mem_append_right _ List.mem_cons_self

theorem Walk.next {tree : AvlTree Nat} {T : NodeTree Nat} {a b : List (Nat × Nat)}
    (walk : Walk conId tree T a ((x,k)::b)) :
    avlGetNext tree x = some (b.head?.map Prod.fst) := avlGetNext_spec walk.holds walk.nonnull walk.entries

theorem Walk.pass {tree : AvlTree Nat} {T : NodeTree Nat} {a b : List (Nat × Nat)}
    (walk : Walk conId tree T a ((x,k)::b)) :
    Walk conId tree T (a++[(x,k)]) b := ⟨walk.holds,by rw [walk.entries,List.append_assoc]; rfl,walk.ids,walk.nonnull⟩

theorem Walk.delete {tree : AvlTree Nat} {T : NodeTree Nat} {a b : List (Nat × Nat)}
    (walk : Walk conId tree T a ((x,k)::b)) :
    ∃ done T' a', avlDelete (compareClients conId) tree k = some done ∧ done.freed = some k ∧
    Walk conId done.tree T' a' b ∧
      a'.map Prod.snd = a.map Prod.snd := by
  have keys := keys_split walk.entries
  have inside : k ∈ T.keys := by
    rw [keys]
    simp
  obtain ⟨done,T',a',run,holds,freed,entries,same⟩ := delete_exact compareClients_order walk.holds walk.entries
    (only_one walk.ids inside)
    walk.ids.of_map
  have keys' := keys_split entries
  rw [same] at keys'
  have fewer : T'.keys.Sublist T.keys := by
    rw [keys,keys']
    exact List.Sublist.append_left (List.sublist_cons_self _ _) _
  exact ⟨done,T',a',run,freed,
    ⟨holds,entries,walk.ids.sublist (fewer.map _),fun k member => walk.nonnull k (fewer.mem member)⟩,same⟩

-- The loop over client_tree from where it stands: each client after it is served once, and those that
-- are errored then are out of the tree and freed.
theorem serve_spec (errored : Nat → Bool) (fuel : Nat) (s : Pass) (T : NodeTree Nat) (a b : List (Nat × Nat))
    (walk : Walk conId s.clientTree T a b) (counted : s.listeners = T.size) (enough : b.length ≤ fuel) :
    ∃ tree T' listeners, serve conId errored fuel s (b.head?.map Prod.fst) =
        some {s with
          clientTree := tree,listeners := listeners,sent := s.sent++b.map Prod.snd
          freed := s.freed++(b.map Prod.snd).filter errored} ∧
      Holds (compareClients conId) tree T' ∧ T'.keys = a.map Prod.snd++(b.map Prod.snd).filter (!errored ·) ∧
        listeners = T'.size := by
  induction b generalizing fuel s T a with
  | nil =>
    refine ⟨s.clientTree,T,s.listeners,?_,walk.holds,?_,counted⟩
    · unfold serve
      simp
    · simpa using keys_split walk.entries
  | cons e b ih =>
    obtain ⟨x,k⟩ := e
    cases fuel with
    | zero => cases enough
    | succ fuel =>
      have fewer := Nat.le_of_succ_le_succ enough
      have key := walk.key
      have next := walk.next
      unfold serve
      simp only [List.head?_cons,Option.map_some,key,next,Option.bind_some]
      by_cases bad : errored k
      · obtain ⟨done,T₁,a',run,freed,walk',same⟩ := walk.delete
        have sizes : T.size = T₁.size+1 := by
          rw [←NodeTree.length_keys,←NodeTree.length_keys,keys_split walk.entries,keys_split walk'.entries,same]
          simp only [List.length_append,List.map_cons,List.length_cons]
          omega
        obtain ⟨tree,T',listeners,rest,holds,keys,count⟩ := ih fuel
          {s with sent := s.sent++[k],clientTree := done.tree,listeners := s.listeners-1,freed :=
            s.freed++done.freed.toList} T₁ a' walk'
          (by dsimp only; omega) fewer
        refine ⟨tree,T',listeners,?_,holds,?_,count⟩
        · rw [if_pos bad,run,Option.bind_some,rest,freed]
          simp [bad]
        · rw [keys,same]
          simp [bad]
      · obtain ⟨tree,T',listeners,rest,holds,keys,count⟩ :=
          ih fuel {s with sent := s.sent++[k]} T (a++[(x,k)]) walk.pass counted fewer
        refine ⟨tree,T',listeners,?_,holds,?_,count⟩
        · rw [if_neg bad,rest]
          simp [bad]
        · rw [keys]
          simp [bad]

theorem full_iff : full maxListeners n = true ↔ maxListeners ≠ -1 ∧ n ≥ (maxListeners % 2^64).toNat := by
  unfold full
  rw [Bool.and_eq_true,bne_iff_ne,decide_eq_true_iff]

-- The loop over pending_tree from where it stands: each client after it is added below the limit, or
-- is out of the tree and freed.
theorem addPending_spec (maxListeners : Int) (fresh : ∀ nodes, malloc nodes ∉ nodes) (fuel : Nat)
    (s : Pass) (P C : NodeTree Nat)
    (a b : List (Nat × Nat)) (walk : Walk conId s.pendingTree P a b)
    (clients : Holds (compareClients conId) s.clientTree C) (counted : s.listeners = C.size)
    (enough : b.length ≤ fuel) :
    ∃ tree pending listeners added rejected C' P' a', addPending conId malloc maxListeners fuel s
    (b.head?.map Prod.fst) =
        some {s with
          clientTree := tree,pendingTree := pending,listeners := listeners
          freed := s.freed++rejected,added := s.added++added} ∧
      Walk conId pending P' a' [] ∧ Holds (compareClients conId) tree C' ∧
        C'.keys.Perm (C.keys++added.map Prod.fst) ∧ listeners = C'.size ∧
      (added.map Prod.fst++rejected).Perm (b.map Prod.snd) ∧ ∀ e ∈ added, full maxListeners e.2 = false := by
  induction b generalizing fuel s P C a with
  | nil =>
    refine ⟨s.clientTree,s.pendingTree,s.listeners,[],[],C,P,a,?_,walk,clients,?_,counted,List.Perm.refl _,by simp⟩
    · unfold addPending
      simp
    · simp
  | cons e b ih =>
    obtain ⟨x,k⟩ := e
    cases fuel with
    | zero => cases enough
    | succ fuel =>
      have fewer := Nat.le_of_succ_le_succ enough
      have key := walk.key
      have next := walk.next
      unfold addPending
      simp only [List.head?_cons,Option.map_some,key,next,Option.bind_some]
      by_cases spent : full maxListeners s.listeners = true
      · obtain ⟨done,P₁,a',run,freed,walk',_⟩ := walk.delete
        obtain ⟨tree,pending,listeners,added,rejected,C',P',a'',rest,left,holds,keys,count,parts,limit⟩ := ih fuel
          {s with pendingTree := done.tree,freed := s.freed++done.freed.toList} P₁ C a' walk' clients counted fewer
        refine ⟨tree,pending,listeners,added,k::rejected,C',P',a'',?_,left,holds,keys,count,?_,limit⟩
        · rw [if_pos spent,run,Option.bind_some,rest,freed]
          simp
        · exact List.perm_middle.trans (parts.cons _)
      · obtain ⟨tree₁,C₁,_,_,put,inserted,clients'⟩ :=
          avlInsert_spec compareClients_order clients k (fresh s.clientTree.nodes)
        have more := inserted.keys
        have sizes : C₁.size = C.size+1 := by
          rw [←NodeTree.length_keys,←NodeTree.length_keys,more.length_eq]
          rfl
        obtain ⟨tree,pending,listeners,added,rejected,C',P',a',rest,left,holds,keys,count,parts,limit⟩ := ih fuel
          {s with clientTree := tree₁,listeners := s.listeners+1,added := s.added++[(k,s.listeners)]} P C₁
            (a++[(x,k)]) walk.pass clients'
          (by dsimp only; omega) fewer
        refine ⟨tree,pending,listeners,(k,s.listeners)::added,rejected,C',P',a',?_,left,holds,?_,count,parts.cons _,?_⟩
        · rw [if_neg spent,put,Option.bind_some,rest]
          simp
        · exact keys.trans ((more.append_right _).trans List.perm_middle.symm)
        · exact List.forall_mem_cons.mpr ⟨eq_false_of_ne_true spent,limit⟩

theorem clearPending_spec (fuel : Nat) (tree : AvlTree Nat) (T : NodeTree Nat)
    (holds : Holds (compareClients conId) tree T)
    (ids : (T.keys.map conId).Nodup) (nonnull : ∀ k ∈ T.keys, k ≠ 0) (enough : T.size < fuel) :
    ∃ tree', clearPending conId fuel tree = some tree' ∧ Holds (compareClients conId) tree' .nil := by
  induction fuel generalizing tree T with
  | zero => cases enough
  | succ fuel ih =>
    unfold clearPending
    rcases opened holds ids nonnull with ⟨rfl,first⟩ | ⟨x,k,done,T',head⟩
    · rw [first]
      exact ⟨tree,rfl,holds⟩
    · have sizes := head.size
      obtain ⟨tree',rest,emptied⟩ := ih done.tree T' head.holds head.ids head.nonnull (by omega)
      refine ⟨tree',?_,emptied⟩
      rw [head.first]
      simp only [Option.bind_some,head.key,head.run]
      exact rest

-- What a pass comes to over a client tree of the clients C and a pending tree of the clients P.
structure Served (conId : Nat → Nat) (errored : Nat → Bool) (maxListeners : Int) (C P : List Nat)
    (s : Pass) : Prop where
  sent : s.sent = C
  once : (C++P).Nodup
  clients : ∃ T, Holds (compareClients conId) s.clientTree T ∧ T.keys.Perm (C.filter (!errored ·)++s.added.map Prod.fst)
  pending : Holds (compareClients conId) s.pendingTree .nil
  listeners : s.listeners = s.clientTree.length
  freed : ∃ rejected, (s.added.map Prod.fst++rejected).Perm P ∧ s.freed = C.filter errored++rejected
  single : s.freed.Nodup
  limit : maxListeners ≠ -1 → ∀ e ∈ s.added, e.2 < (maxListeners % 2^64).toNat

theorem Served.listed {read : Nat → Listener δ} {C P : NodeTree Nat} {s : Pass} {tree : AvlTree Nat}
    (served : Served conId errored maxListeners C.keys P.keys s) (ids : ∀ k, (read k).id = conId k)
    (clients : Holds (compareClients conId) tree C) (distinct : ((C.keys++P.keys).map conId).Nodup) :
    ∃ T, Holds (compareClients conId) s.clientTree T ∧
      T.keys.map read = ((s.added.map Prod.fst).map read).foldl (fun tree c => insertClient c tree)
        ((C.keys.filter (!errored ·)).map read) := by
  obtain ⟨T,holds,perm⟩ := served.clients
  obtain ⟨rejected,parts,_⟩ := served.freed
  have sorted : ((C.keys.filter (!errored ·)).map read).Pairwise fun a b => a.id ≤ b.id :=
    (reads_sorted ids clients).sublist (List.filter_sublist.map read)
  have all : ((C.keys++(s.added.map Prod.fst++rejected)).map conId).Nodup :=
    ((parts.append_left _).map conId).nodup_iff.mpr distinct
  have fewer : (C.keys.filter (!errored ·)++s.added.map Prod.fst).Sublist (C.keys++(s.added.map Prod.fst++rejected)) :=
    List.filter_sublist.append (List.sublist_append_left _ _)
  refine ⟨T,holds,reads_inserted ids holds sorted (perm.trans List.perm_append_comm) ?_⟩
  exact (List.perm_append_comm.map conId).nodup_iff.mp (all.sublist (fewer.map conId))

-- Every pass of source_main serves each of its listeners once, whichever of them break, keeps the
-- others and takes on those that wait as far as the limit allows.
theorem source_pass (errored : Nat → Bool) (maxListeners : Int)
    {clientTree pendingTree : AvlTree Nat} {C P : NodeTree Nat}
    (fresh : ∀ nodes, malloc nodes ∉ nodes) (clients : Holds (compareClients conId) clientTree C)
    (pending : Holds (compareClients conId) pendingTree P) (ids : ((C.keys++P.keys).map conId).Nodup)
    (nonnull : ∀ k ∈ C.keys++P.keys, k ≠ 0)
    (counted : listeners = clientTree.length) :
    ∃ s, pass conId malloc errored maxListeners clientTree pendingTree listeners = some s ∧
      Served conId errored maxListeners C.keys P.keys s := by
  have split := ids
  rw [List.map_append] at split
  obtain ⟨cids,pids,_⟩ := List.nodup_append.mp split
  have cnonnull : ∀ k ∈ C.keys, k ≠ 0 := fun k member => nonnull k (List.mem_append_left _ member)
  have pnonnull : ∀ k ∈ P.keys, k ≠ 0 := fun k member => nonnull k (List.mem_append_right _ member)
  have ccount := clients.nodes.length_eq
  have pcount := pending.nodes.length_eq
  rw [List.length_cons,NodeTree.length_ids] at ccount pcount
  have lengths : ∀ T : NodeTree Nat, T.entries.length = T.size := fun T => by
    rw [←NodeTree.length_keys,←NodeTree.keys_entries,List.length_map]
  obtain ⟨tree₁,C₁,n₁,served,holds₁,keys₁,count₁⟩ := serve_spec errored clientTree.nodes.length
    ⟨clientTree,pendingTree,listeners,[],[],[]⟩ C [] C.entries ⟨clients,rfl,cids,cnonnull⟩
      (counted.trans clients.length)
    (by rw [lengths]; omega)
  obtain ⟨tree₂,pending₂,n₂,added,rejected,C₂,P₂,a,filled,walk,holds₂,keys₂,count₂,parts,limit⟩ :=
    addPending_spec maxListeners fresh pendingTree.nodes.length ⟨tree₁,pendingTree,n₁,[]++C.entries.map Prod.snd,
      []++(C.entries.map Prod.snd).filter errored,[]⟩
    P C₁ [] P.entries
    ⟨pending,rfl,pids,pnonnull⟩ holds₁ count₁ (by rw [lengths]; omega)
  have count₃ := walk.holds.nodes.length_eq
  rw [List.length_cons,NodeTree.length_ids] at count₃
  obtain ⟨pending₃,cleared,emptied⟩ :=
    clearPending_spec (pending₂.nodes.length+1) pending₂ P₂ walk.holds walk.ids walk.nonnull (by omega)
  simp only [NodeTree.keys_entries,List.nil_append] at served filled parts keys₁
  refine ⟨⟨tree₂,pending₃,n₂,C.keys,C.keys.filter errored++rejected,added⟩,?_,?_⟩
  · unfold pass
    rw [avlGetFirst_spec clients cnonnull]
    simp only [Option.bind_some,served,avlGetFirst_spec pending pnonnull,filled,cleared,Option.map_some]
  · refine ⟨rfl,ids.of_map,⟨C₂,holds₂,?_⟩,emptied,count₂.trans holds₂.length.symm,⟨rejected,parts,rfl⟩,?_,
      fun limited e member => ?_⟩
    · rw [keys₁] at keys₂
      exact keys₂
    · have all : (C.keys++(added.map Prod.fst++rejected)).Nodup := ((parts.append_left _).nodup_iff).mpr ids.of_map
      exact all.sublist (List.filter_sublist.append (List.sublist_append_right _ _))
    · by_contra above
      have filled := limit e member
      rw [full_iff.mpr ⟨limited,Nat.not_lt.mp above⟩] at filled
      cases filled

-- Two listeners, one of which breaks, and one that waits, with room for two.
theorem source_pass_jazz : ∃ s, pass id nextNode (· == 5) 2 listening.tree waiting.tree 2 = some s ∧ s.sent.Perm [5,7] ∧
    s.listeners = s.clientTree.length := by
  obtain ⟨C,csound⟩ := run_sound compareClients_order listening_run
  obtain ⟨P,psound⟩ := run_sound compareClients_order waiting_run
  have ckeys : C.keys.Perm [5,7] := csound.keys
  have keys : (C.keys++P.keys).Perm [5,7,9] := ckeys.append psound.keys
  have nonnull : ∀ k ∈ [5,7,9], k ≠ 0 := by decide
  obtain ⟨s,run,served⟩ := source_pass (· == 5) 2 nextNode_fresh csound.holds psound.holds
    (by rw [List.map_id]; exact keys.nodup_iff.mpr (by decide)) (fun k member => nonnull k (keys.mem_iff.mp member))
    (by decide +kernel : 2 = listening.tree.length)
  exact ⟨s,run,served.sent ▸ ckeys,served.listeners⟩

end Spec

end Icecast.SourcePass
