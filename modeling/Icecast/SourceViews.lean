import Mathlib.Data.List.Forall2
import Mathlib.Data.List.Perm.Basic
import Icecast.Source
import Icecast.SourceMoves

namespace Icecast.SourceViews
open NodeHeap AvlNodes
open SourceMoves (World compareClients detached)

-- format_type_t
def code : FormatType → Nat
  | .ogg => 1
  | .ebml => 2
  | .generic => 3

theorem code_eq {f g : FormatType} : code f = code g ↔ f = g := by cases f <;> cases g <;> decide

-- A listener in its place in memory, and as the listeners of a source are listed.
structure Same {δ : Type v} (conId : Nat → Nat) (w : World) (k : Nat) (c : Listener δ) : Prop where
  there : k ≠ 0
  id : conId k = c.id
  checkBuffer : (w.clients k).checkBuffer = c.checkBuffer
  pos : (w.clients k).pos = c.pos
  introOffset : (w.clients k).introOffset = c.introOffset
  refbuf : (w.clients k).refbuf = none ↔ c.refbuf = .null

-- A tree of listeners and the list of them.
def Listed {δ : Type v} (conId : Nat → Nat) (w : World) (tree : AvlTree Nat) (list : List (Listener δ)) : Prop :=
  ∃ T, Holds (compareClients conId) tree T ∧ List.Forall₂ (Same conId w) T.keys list

-- One source_t in both models.
structure Shows {α : Type u} {δ : Type v} (plugins : Nat → Plugin α δ) (conId : Nat → Nat) (w : World)
    (source : SourceMoves.Source) (s : Source α δ) : Prop where
  running : source.running = s.running
  onDemand : source.onDemand = s.onDemand
  onDemandReq : source.onDemandReq = s.onDemandReq
  con : source.con = s.mount.con
  format : source.format = s.mount.format.map fun f => code (plugins f).type
  listeners : source.listeners = s.listeners.toNat
  pending : Listed conId w source.pendingTree s.pendingTree
  clients : Listed conId w source.clientTree s.clientTree

section

variable {α : Type u} {δ : Type v} {conId : Nat → Nat} {w w' : World} {keys : List Nat} {list : List (Listener δ)}

theorem same_ids (same : List.Forall₂ (Same conId w) keys list) : keys.map conId = list.map (·.id) := by
  induction same with
  | nil => rfl
  | cons one _ ih => rw [List.map_cons,List.map_cons,one.id,ih]

theorem same_there (same : List.Forall₂ (Same conId w) keys list) : ∀ k ∈ keys, k ≠ 0 := by
  induction same with
  | nil => simp
  | cons one _ ih => exact List.forall_mem_cons.mpr ⟨one.there,ih⟩

theorem same_kept (same : List.Forall₂ (Same conId w) keys list) (kept : ∀ k ∈ keys, w'.clients k = w.clients k) :
    List.Forall₂ (Same conId w') keys list := by
  induction same with
  | nil => exact .nil
  | cons one _ ih =>
    obtain ⟨here,later⟩ := List.forall_mem_cons.mp kept
    refine .cons ⟨one.there,one.id,?_,?_,?_,?_⟩ (ih later)
    · rw [here]
      exact one.checkBuffer
    · rw [here]
      exact one.pos
    · rw [here]
      exact one.introOffset
    · rw [here]
      exact one.refbuf

theorem detach_same {m : Mount} {q q' : Queue α} {c c' : Listener δ} (took : detachClient m q c = some (q',c'))
    (same : Same conId w k c) (now : w'.clients k = detached m.con (w.clients k)) : Same conId w' k c' := by
  unfold detachClient at took
  by_cases http : c.checkBuffer = .http
  · rw [if_neg (not_not_intro http)] at took
    cases took
    rw [detached,if_pos (same.checkBuffer.trans http)] at now
    have one : List.Forall₂ (Same conId w') [k] [c] :=
      same_kept (.cons same .nil) fun _ member => List.mem_singleton.mp member ▸ now
    exact (List.forall₂_cons.mp one).1
  · rw [if_pos http] at took
    obtain ⟨⟨r,d⟩,set,out⟩ := Option.map_eq_some_iff.mp took
    obtain ⟨_,_,set⟩ := Option.map_eq_some_iff.mp set
    cases set
    cases out
    rw [detached,if_neg fun http' => http (same.checkBuffer.symm.trans http')] at now
    refine ⟨same.there,same.id,?_,?_,?_,?_⟩
    · rw [now]
    · rw [now]
    · rw [now]
      dsimp only
      rw [same.introOffset]
    · rw [now]
      exact iff_of_true rfl rfl

theorem detachAll_same {m : Mount} {q q' : Queue α} {gone : List (Listener δ)}
    (took : detachClients m q list = some (q',gone)) (same : List.Forall₂ (Same conId w) keys list)
    (now : ∀ k ∈ keys, w'.clients k = detached m.con (w.clients k)) : List.Forall₂ (Same conId w') keys gone := by
  induction same generalizing q gone with
  | nil =>
    cases took
    exact .nil
  | cons one _ ih =>
    obtain ⟨⟨r,d⟩,first,rest⟩ := Option.bind_eq_some_iff.mp took
    obtain ⟨⟨_,others⟩,later,out⟩ := Option.map_eq_some_iff.mp rest
    cases out
    obtain ⟨here,behind⟩ := List.forall_mem_cons.mp now
    exact .cons (detach_same first one here) (ih later behind)

-- With an id for each listener there is one order.
theorem same_placed {keys' : List Nat} {list' : List (Listener δ)} (same : List.Forall₂ (Same conId w) keys list)
    (perm : keys'.Perm keys) (perm' : list'.Perm list) (sorted : keys'.Pairwise fun a b => conId a ≤ conId b)
    (sorted' : list'.Pairwise fun a b => a.id ≤ b.id) (distinct : (list.map (·.id)).Nodup) :
    List.Forall₂ (Same conId w) keys' list' := by
  obtain ⟨found,follows,there⟩ := List.perm_comp_forall₂ perm same
  have ordered : found.Pairwise fun a b => a.id ≤ b.id := by
    have ids : (keys'.map conId).Pairwise (· ≤ ·) := List.pairwise_map.mpr sorted
    rw [same_ids follows] at ids
    exact List.pairwise_map.mp ids
  have one : found = list' := (there.trans perm'.symm).eq_of_pairwise (fun a b ain bin le ge =>
    List.inj_on_of_nodup_map distinct (there.mem_iff.mp ain) (perm'.mem_iff.mp bin) (Nat.le_antisymm le ge))
    ordered sorted'
  exact one ▸ follows

variable {plugins : Nat → Plugin α δ} {source dest : SourceMoves.Source} {s d t e : Source α δ}

theorem moves_eq (shown : Shows plugins conId w source s) (shown' : Shows plugins conId w dest d)
    (apart : source.mount = dest.mount ↔ s.queue.mount = d.queue.mount) :
    SourceMoves.moves source dest = movable plugins s d := by
  have mount : (source.mount != dest.mount) = (s.queue.mount != d.queue.mount) := by
    rw [Bool.eq_iff_iff,bne_iff_ne,bne_iff_ne]
    exact not_congr apart
  unfold SourceMoves.moves movable SourceMoves.sameFormat
  rw [mount,shown'.running,shown'.onDemand,shown.onDemand,shown.format,shown'.format,Option.isSome_map]
  cases s.mount.format with
  | none => rfl
  | some f =>
    cases d.mount.format with
    | none => rfl
    | some g =>
      congr 1
      rw [Bool.eq_iff_iff,Option.map_some,Option.map_some]
      simp [code_eq]

-- source_move_clients on trees of clients in memory does what it does on the lists of them.
theorem moves_agree {malloc : List Nat → Nat} (fresh : ∀ nodes, malloc nodes ∉ nodes)
    (shown : Shows plugins conId w source s) (shown' : Shows plugins conId w dest d)
    (apart : source.mount = dest.mount ↔ s.queue.mount = d.queue.mount)
    (ids : (((s.pendingTree++s.clientTree)++(d.pendingTree++d.clientTree)).map (·.id)).Nodup)
    (run : sourceMoveClients plugins s d = some (t,e)) :
    ∃ w' source' dest', SourceMoves.sourceMoveClients conId malloc w source dest = some (w',source',dest') ∧
      Shows plugins conId w' source' t ∧ Shows plugins conId w' dest' e := by
  obtain ⟨P,pending,psame⟩ := shown.pending
  obtain ⟨C,clients,csame⟩ := shown.clients
  obtain ⟨D,waiting,dsame⟩ := shown'.pending
  obtain ⟨E,playing,esame⟩ := shown'.clients
  have gone := List.rel_append psame csame
  have stay := List.rel_append dsame esame
  rw [List.map_append,←same_ids gone,←same_ids stay] at ids
  obtain ⟨own,_,different⟩ := List.nodup_append.mp ids
  obtain ⟨w',source',dest',ran,⟨still,rfl,rfl,rfl⟩ | ⟨moving,moved,left⟩⟩ :=
    SourceMoves.move_spec w source dest fresh pending clients waiting own (same_there gone)
  · rw [moves_eq shown shown' apart] at still
    rw [sourceMoveClients,still] at run
    cases run
    exact ⟨_,_,_,ran,shown,shown'⟩
  · rw [moves_eq shown shown' apart] at moving
    rw [sourceMoveClients,if_pos moving] at run
    obtain ⟨⟨q,taken⟩,took,out⟩ := Option.map_eq_some_iff.mp run
    cases out
    have now := detachAll_same took gone (shown.con ▸ left.detached)
    have others : ∀ k ∈ D.keys++E.keys, w'.clients k = w.clients k := fun k member =>
      moved.others k fun inside => different _ (List.mem_map_of_mem inside) _ (List.mem_map_of_mem member) rfl
    refine ⟨w',source',dest',ran,?_,?_⟩
    · rw [left.emptied]
      exact ⟨shown.running,shown.onDemand,shown.onDemandReq,shown.con,shown.format,rfl,
        ⟨.nil,moved.pending,.nil⟩,⟨.nil,moved.clients,.nil⟩⟩
    · rw [left.joined]
      have waits := same_kept dsame fun k member => others k (List.mem_append_left _ member)
      have listeners := same_kept esame fun k member => others k (List.mem_append_right _ member)
      refine ⟨shown'.running,shown'.onDemand,?_,shown'.con,shown'.format,shown'.listeners,?_,⟨E,playing,listeners⟩⟩
      · have length := now.length_eq
        have empty : (P.keys++C.keys).isEmpty = taken.isEmpty := by
          rw [Bool.eq_iff_iff,List.isEmpty_iff_length_eq_zero,List.isEmpty_iff_length_eq_zero,length]
        dsimp only
        rw [shown'.onDemandReq,shown'.running,shown'.onDemand,empty]
      · obtain ⟨T,target,perm⟩ := moved.target
        have sorted : d.pendingTree.Pairwise fun a b => a.id ≤ b.id := by
          have keys : (D.keys.map conId).Pairwise (· ≤ ·) := List.pairwise_map.mpr (SourceMoves.keys_sorted waiting)
          rw [same_ids dsame] at keys
          exact List.pairwise_map.mp keys
        obtain ⟨sorted',perm'⟩ := insertClients_sorted sorted taken
        have distinct : ((taken++d.pendingTree).map (·.id)).Nodup := by
          rw [List.map_append,←same_ids now,←same_ids dsame]
          refine ids.sublist (List.Sublist.append_left ?_ _)
          rw [List.map_append]
          exact List.sublist_append_left _ _
        exact ⟨T,target,same_placed (List.rel_append now waits) perm perm' (SourceMoves.keys_sorted target) sorted'
          distinct⟩

end

end Icecast.SourceViews
