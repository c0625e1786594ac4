import Icecast.AvlCursor
import Icecast.AvlRuns

namespace Icecast.AvlNodes
open NodeHeap Transition

section Loops

variable {κ : Type u} [Inhabited κ] [DecidableEq κ]

-- A loop over avl_get_next or avl_get_prev: the nodes it comes by.
def walk (step : Nat → Option (Option Nat)) : Nat → Option Nat → Option (List Nat)
  | _,none => some []
  | 0,some _ => none
  | fuel+1,some node => (step node).bind fun next => (walk step fuel next).map (node::·)

-- The loop of stats_clear_virtual_mounts, `drops` telling at which visits it deletes: what it visits
-- and the tree it leaves, or none where it goes on from a node that has been freed.
def sweep (compare : κ → κ → Int) (drops : Nat → Bool) : Nat → Nat → AvlTree κ → Option Nat →
    Option (List (Nat × κ) × AvlTree κ)
  | _,_,tree,none => some ([],tree)
  | 0,_,_,some _ => none
  | fuel+1,n,tree,some snode =>
    if snode ∈ tree.nodes then
      let src := (tree.heap snode).key
      (avlGetNext tree snode).bind fun next =>
      (if drops n then (avlDelete compare tree src).map (·.tree) else some tree).bind fun tree =>
      (sweep compare drops fuel (n+1) tree next).map fun r => ((snode,src)::r.1,r.2)
    else none

end Loops

section Spec

variable {κ : Type u} {compare : κ → κ → Int} {T : NodeTree κ}

theorem walk_spec (fuel : Nat) {xs : List Nat} (each : ∀ p x q, xs = p++x::q → step x = some q.head?)
    (enough : xs.length ≤ fuel) :
    walk step fuel xs.head? = some xs := by
  induction xs generalizing fuel with
  | nil => cases fuel <;> rfl
  | cons x xs ih =>
    cases fuel with
    | zero => cases enough
    | succ fuel =>
      have rest := ih fuel (fun p y q split => each (x::p) y q (by rw [split]; rfl)) (Nat.le_of_succ_le_succ enough)
      rw [List.head?_cons,walk,each [] x xs rfl,Option.bind_some,rest,Option.map_some]

theorem split_ids {entries : List (Nat × κ)} (split : entries.map Prod.fst = p++x::q) :
    ∃ a k b, entries = a++(x,k)::b ∧ a.map Prod.fst = p ∧ b.map Prod.fst = q := by
  obtain ⟨a,rest,rfl,before,after⟩ := List.map_eq_append_iff.mp split
  obtain ⟨⟨x',k⟩,b,rfl,rfl,behind⟩ := List.map_eq_cons_iff.mp after
  exact ⟨a,k,b,rfl,before,behind⟩

variable [Inhabited κ]

theorem Holds.room {tree : AvlTree κ} (holds : Holds compare tree T) : T.entries.length ≤ tree.nodes.length := by
  have count := holds.nodes.length_eq
  rw [List.length_cons,←NodeTree.ids_entries,List.length_map] at count
  omega

theorem Holds.allocated {tree : AvlTree κ} (holds : Holds compare tree T) (member : (x,k) ∈ T.entries) :
    x ∈ tree.nodes := by
  refine holds.nodes.mem_iff.mp (List.mem_cons_of_mem _ ?_)
  rw [←NodeTree.ids_entries]
  exact List.mem_map_of_mem member

theorem delete_kept (order : Preordered compare) {tree : AvlTree κ} (holds : Holds compare tree T)
    (entries : T.entries = a++(x,k)::b)
    (later : ∀ e ∈ b, compare k e.2 ≠ 0) :
    ∃ done T' a', avlDelete compare tree k = some done ∧ Holds compare done.tree T' ∧ T'.entries = a'++b ∧
    ∀ k' ∈ T'.keys, k' ∈ T.keys := by
  obtain ⟨done,T',y,k',run,holds',taken⟩ := avlDelete_present order holds entries
  have equal := taken.equal
  have fewer : ∀ k ∈ T'.keys, k ∈ T.keys := fun k member => taken.keys.mem_iff.mpr (List.mem_cons_of_mem _ member)
  -- the place of the key is not behind the node
  have behind {p q : List (Nat × κ)} {z : Nat} (whole : p++(z,k')::q = a++(x,k)::b) : ∃ r, q = r++b := by
    rcases List.append_eq_append_iff.mp whole with ⟨r,_,rest⟩ | ⟨r,_,rest⟩
    · cases r with
      | nil => exact ⟨[],(List.cons.inj rest).2⟩
      | cons e r => exact ⟨r++[(x,k)],by rw [(List.cons.inj rest).2]; simp⟩
    · cases r with
      | nil => exact ⟨[],(List.cons.inj rest).2.symm⟩
      | cons e r =>
        have member : (z,k') ∈ b := by
          rw [(List.cons.inj rest).2]
          simp
        exact absurd equal (later _ member)
  have dropped := taken.dropped
  generalize before : T.entries = old at dropped
  generalize after : T'.entries = new at dropped
  rw [before] at entries
  cases dropped with
  | plain p q =>
    obtain ⟨r,rfl⟩ := behind entries
    exact ⟨done,T',p++r,run,holds',by rw [after,List.append_assoc],fewer⟩
  | swapped p q z ky =>
    have shape : (p++[(y,ky)])++(z,k')::q = p++(y,ky)::(z,k')::q := by simp
    obtain ⟨r,rfl⟩ := behind (shape.trans entries)
    exact ⟨done,T',p++(z,ky)::r,run,holds',by rw [after]; simp,fewer⟩

variable [DecidableEq κ]

theorem walk_next {tree : AvlTree κ} (holds : Holds compare tree T) (keyed : ∀ k ∈ T.keys, k ≠ default) :
    (avlGetFirst tree).bind (walk (avlGetNext tree) tree.nodes.length) = some (T.entries.map Prod.fst) := by
  rw [avlGetFirst_spec holds keyed,Option.bind_some,←List.head?_map]
  refine walk_spec _ (fun p x q split => ?_) (by rw [List.length_map]; exact holds.room)
  obtain ⟨a,k,b,entries,_,rfl⟩ := split_ids split
  rw [avlGetNext_spec holds keyed entries,List.head?_map]

theorem walk_prev {tree : AvlTree κ} (holds : Holds compare tree T) (keyed : ∀ k ∈ T.keys, k ≠ default) :
    walk (avlGetPrev tree) tree.nodes.length (T.entries.map Prod.fst).getLast? =
    some (T.entries.map Prod.fst).reverse := by
  rw [←List.head?_reverse]
  refine walk_spec _ (fun p x q split => ?_) (by rw [List.length_reverse,List.length_map]; exact holds.room)
  have forward : T.entries.map Prod.fst = q.reverse++x::p.reverse := by
    rw [←List.reverse_reverse (T.entries.map Prod.fst),split]
    simp
  obtain ⟨a,k,b,entries,before,_⟩ := split_ids forward
  rw [avlGetPrev_spec holds keyed entries,←List.getLast?_map,before,List.getLast?_reverse]

theorem sweep_spec (order : Preordered compare) (fuel n : Nat) {tree : AvlTree κ} {T : NodeTree κ}
    {a b : List (Nat × κ)} {drops : Nat → Bool}
    (holds : Holds compare tree T) (keyed : ∀ k ∈ T.keys, k ≠ default) (entries : T.entries = a++b)
    (apart : ∀ p x k q, b = p++(x,k)::q → drops (n+p.length) = true → ∀ e ∈ q, compare k e.2 ≠ 0)
    (enough : b.length ≤ fuel) :
    ∃ tree' T', sweep compare drops fuel n tree (b.head?.map Prod.fst) = some (b,tree') ∧ Holds compare tree' T' := by
  induction b generalizing fuel n tree T a with
  | nil => exact ⟨tree,T,by cases fuel <;> rfl,holds⟩
  | cons e b ih =>
    obtain ⟨x,k⟩ := e
    cases fuel with
    | zero => cases enough
    | succ fuel =>
      have member : (x,k) ∈ T.entries := by
        rw [entries]
        exact List.mem_append_right _ List.mem_cons_self
      have behind : ∀ p y k' q, b = p++(y,k')::q → drops (n+1+p.length) = true → ∀ e ∈ q, compare k' e.2 ≠ 0 :=
        fun p y k' q split dropped =>
        apart ((x,k)::p) y k' q (by rw [split]; rfl)
          (by rw [List.length_cons,Nat.add_comm p.length,←Nat.add_assoc]; exact dropped)
      have visit : sweep compare drops (fuel+1) n tree (some x) =
          (if drops n then (avlDelete compare tree k).map (·.tree) else some tree).bind fun tree =>
          (sweep compare drops fuel (n+1) tree (b.head?.map Prod.fst)).map fun r => ((x,k)::r.1,r.2) := by
        rw [sweep,if_pos (holds.allocated member)]
        dsimp only
        rw [avlGetNext_spec holds keyed entries,Option.bind_some,holds.key_eq member]
      rw [List.head?_cons,Option.map_some,visit]
      cases dropped : drops n with
      | false =>
        obtain ⟨tree',T',ran,holds'⟩ :=
          ih fuel (n+1) holds keyed (by rw [entries,List.append_assoc]; rfl : T.entries = (a++[(x,k)])++b) behind
          (Nat.le_of_succ_le_succ enough)
        refine ⟨tree',T',?_,holds'⟩
        rw [if_neg Bool.false_ne_true,Option.bind_some,ran,Option.map_some]
      | true =>
        obtain ⟨done,T₁,a',run,holds₁,entries₁,fewer⟩ := delete_kept order holds entries (apart [] x k b rfl dropped)
        obtain ⟨tree',T',ran,holds'⟩ := ih fuel (n+1) holds₁ (fun k member => keyed k (fewer k member)) entries₁ behind
          (Nat.le_of_succ_le_succ enough)
        refine ⟨tree',T',?_,holds'⟩
        rw [if_pos rfl,run,Option.map_some,Option.bind_some,ran,Option.map_some]

end Spec

section Runs

variable {κ : Type u} [Inhabited κ] [DecidableEq κ] {compare : κ → κ → Int}

-- In every tree that calls of avl_insert and avl_delete have built, both walks come by every node in
-- order and end, and one that deletes on its way comes by the same nodes as one that does not, as long
-- as no key that it deletes is equal to a later one.
theorem avl_iteration (order : Preordered compare) (run : Runs (Step compare) (start root) calls s)
    (keyed : ∀ k ∈ s.inserted, k ≠ default) :
    ∃ T, Holds compare s.tree T ∧ (s.freed++T.keys).Perm s.inserted ∧
      (avlGetFirst s.tree).bind (walk (avlGetNext s.tree) s.tree.nodes.length) = some (T.entries.map Prod.fst) ∧
      walk (avlGetPrev s.tree) s.tree.nodes.length (T.entries.map Prod.fst).getLast? =
      some (T.entries.map Prod.fst).reverse ∧
      ∀ drops : Nat → Bool, (∀ a x k b, T.entries = a++(x,k)::b → drops a.length = true → ∀ e ∈ b, compare k e.2 ≠ 0) →
        ∃ tree' T', (avlGetFirst s.tree).bind (sweep compare drops s.tree.nodes.length 0 s.tree) =
        some (T.entries,tree') ∧
          Holds compare tree' T' := by
  obtain ⟨T,holds,keys⟩ := run_sound order run
  have keyed' : ∀ k ∈ T.keys, k ≠ default := fun k member => keyed k (keys.mem_iff.mp (List.mem_append_right _ member))
  refine ⟨T,holds,keys,walk_next holds keyed',walk_prev holds keyed',fun drops apart => ?_⟩
  rw [avlGetFirst_spec holds keyed',Option.bind_some]
  refine sweep_spec order s.tree.nodes.length 0 holds keyed' (List.nil_append _).symm
    (fun p x k q split dropped => ?_) holds.room
  exact apart p x k q split (by rwa [Nat.zero_add] at dropped)

end Runs

-- Five keys, every one of them deleted when it has been visited.
def five : List (Call Int) := [.insert 30 1,.insert 10 2,.insert 40 3,.insert 20 4,.insert 50 5]

def fiveKeys : State Int := (runFrom (next byDifference) (start 0) five).get (by decide +kernel)

theorem fiveKeys_run : Runs (Step byDifference) (start 0) five fiveKeys :=
  runFrom_sound next_sound (Option.some_get _).symm

theorem avl_iteration_five : ∃ T tree' T', Holds byDifference fiveKeys.tree T ∧ T.keys.Perm [50,20,40,10,30] ∧
    (avlGetFirst fiveKeys.tree).bind
    (sweep byDifference (fun _ => true) fiveKeys.tree.nodes.length 0 fiveKeys.tree) = some (T.entries,tree') ∧
    Holds byDifference tree' T' := by
  obtain ⟨T,holds,keys,_,_,swept⟩ := avl_iteration byDifference_order fiveKeys_run (by decide +kernel)
  have inserted : fiveKeys.freed = [] ∧ fiveKeys.inserted = [50,20,40,10,30] := by decide +kernel
  rw [inserted.1,inserted.2,List.nil_append] at keys
  have nodup : T.keys.Nodup := keys.nodup_iff.mpr (by decide)
  obtain ⟨tree',T',ran,holds'⟩ := swept (fun _ => true) fun a x k b entries _ e member equal => by
    rw [←NodeTree.keys_entries,entries,List.map_append,List.map_cons] at nodup
    have same : k = e.2 := by
      unfold byDifference at equal
      omega
    exact (List.nodup_cons.mp (List.nodup_append.mp nodup).2.1).1 (List.mem_map.mpr ⟨e,member,same.symm⟩)
  exact ⟨T,tree',T',holds,keys,ran,holds'⟩

-- Two equal keys: the delete at the first node takes out the second, which the walk stands at next.
def twins : State Int := (runFrom (next byDifference) (start 0) [.insert 7 1,.insert 7 2]).get (by decide +kernel)

theorem twins_run : Runs (Step byDifference) (start 0) [.insert 7 1,.insert 7 2] twins :=
  runFrom_sound next_sound (Option.some_get _).symm

theorem twin_freed : ¬∀ (calls : List (Call Int)) (s : State Int), Runs (Step byDifference) (start 0) calls s →
    (∀ k ∈ s.inserted, k ≠ default) →
    ∀ T, Holds byDifference s.tree T → ∀ drops : Nat → Bool, ∃ tree',
      (avlGetFirst s.tree).bind (sweep byDifference drops s.tree.nodes.length 0 s.tree) = some (T.entries,tree') := by
  intro all
  obtain ⟨T,holds,_⟩ := run_sound byDifference_order twins_run
  obtain ⟨tree',ran⟩ := all _ twins twins_run (by decide +kernel) T holds (fun n => n = 0)
  have stuck : ((avlGetFirst twins.tree).bind
    (sweep byDifference (fun n => n = 0) twins.tree.nodes.length 0 twins.tree)).isNone = true := by
    decide +kernel
  rw [ran] at stuck
  cases stuck

end Icecast.AvlNodes
