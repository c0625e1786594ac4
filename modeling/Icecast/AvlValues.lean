import Icecast.AvlRuns
import Icecast.Lib.Avl

namespace Icecast.AvlNodes
open NodeHeap Transition

section Values

variable {κ : Type u} {compare : κ → κ → Int}

-- What a compare function returns, as a tree of values takes it.
def orderOf (compare : κ → κ → Int) (a b : κ) : Ordering := Ord.compare (compare a b) 0

theorem orderOf_gt : orderOf compare a b = .gt ↔ 0 < compare a b := Int.compare_eq_gt

theorem orderOf_eq : orderOf compare a b = .eq ↔ compare a b = 0 := Int.compare_eq_eq

theorem orderOf_lt : orderOf compare a b = .lt ↔ compare a b < 0 := Int.compare_eq_lt

theorem orderOf_trans (order : Preordered compare) : Std.TransCmp (orderOf compare) where
  eq_swap := by
    intro a b
    have flip := order.flip a b
    have flip' := order.flip b a
    cases swapped : orderOf compare b a with
    | lt => exact orderOf_gt.mpr (flip'.mp (orderOf_lt.mp swapped))
    | gt => exact orderOf_lt.mpr (flip.mpr (orderOf_gt.mp swapped))
    | eq =>
      have level := orderOf_eq.mp swapped
      exact orderOf_eq.mpr (by omega)
  isLE_trans := by
    intro a b c left right
    simp only [Ordering.isLE_iff_ne_gt,orderOf_gt,Int.not_lt] at left right ⊢
    exact order.trans a b c left right

-- What one call makes of a tree of values.
def Call.value (compare : κ → κ → Int) (t : Avl.AvlTree κ) : Call κ → Avl.AvlTree κ
  | .insert key _ => Avl.insert (orderOf compare) key t
  | .delete key => Avl.delete (orderOf compare) key t

theorem sorted_values (sorted : Avl.Sorted (orderOf compare) t) : Sorted compare t.toList :=
  sorted.imp fun le => Int.not_lt.mp fun less => le (orderOf_gt.mpr less)

-- Keys that are equal where they compare equal have one order.
theorem sorted_unique (order : Preordered compare) (identify : ∀ a b, compare a b = 0 → a = b) {xs ys : List κ}
    (left : Sorted compare xs) (right : Sorted compare ys) (same : xs.Perm ys) : xs = ys := by
  refine same.eq_of_pairwise (fun a b _ _ le ge => identify a b ?_) left right
  have flip := order.flip a b
  have flip' := order.flip b a
  omega

variable [Inhabited κ]

-- The nodes make up a tree of the keys that the tree of values has.
structure Values (compare : κ → κ → Int) (tree : AvlTree κ) (t : Avl.AvlTree κ) : Prop where
  sorted : Avl.Sorted (orderOf compare) t
  nodes : ∃ T, Holds compare tree T ∧ T.keys = t.toList

theorem Values.insert (order : Preordered compare) (identify : ∀ a b, compare a b = 0 → a = b) {tree : AvlTree κ}
    (values : Values compare tree t) (fresh : new ∉ tree.nodes) (run : avlInsert compare tree key new = some tree') :
    Values compare tree' (Avl.insert (orderOf compare) key t) := by
  have := orderOf_trans order
  obtain ⟨T,holds,keys⟩ := values.nodes
  obtain ⟨_,T',a,b,run',inserted,holds'⟩ := avlInsert_spec order holds key fresh
  cases Option.some.inj (run.symm.trans run')
  have sorted := Avl.sorted_insert values.sorted key
  obtain ⟨front,back,split,put,_,_⟩ := Avl.toList_insert values.sorted key
  refine ⟨sorted,T',holds',sorted_unique order identify holds'.sorted (sorted_values sorted) ?_⟩
  have more : T'.keys.Perm (key::(front++back)) := by
    rw [←split,←keys]
    exact inserted.keys
  rw [put]
  exact more.trans List.perm_middle.symm

theorem Values.present (order : Preordered compare) (values : Values compare tree t)
    (keys : T.keys = t.toList) (key : κ) :
    Present compare key T ↔ (Avl.getByKey (orderOf compare) key t).isSome := by
  have := orderOf_trans order
  unfold Present
  rw [keys]
  cases found : Avl.getByKey (orderOf compare) key t with
  | none =>
    refine iff_of_false ?_ Bool.false_ne_true
    rintro ⟨k,member,equal⟩
    exact Avl.get_none values.sorted found k member (orderOf_eq.mpr equal)
  | some k =>
    obtain ⟨member,equal⟩ := Avl.get_mem found
    exact iff_of_true ⟨k,member,orderOf_eq.mp equal⟩ rfl

theorem Values.delete (order : Preordered compare) (identify : ∀ a b, compare a b = 0 → a = b) {tree : AvlTree κ}
    (values : Values compare tree t) (run : avlDelete compare tree key = some done) :
    Values compare done.tree (Avl.delete (orderOf compare) key t) := by
  have := orderOf_trans order
  obtain ⟨T,holds,keys⟩ := values.nodes
  obtain ⟨done',T',run',deletes⟩ := deletes order holds key
  cases Option.some.inj (run.symm.trans run')
  have sorted := Avl.sorted_delete values.sorted key
  refine ⟨sorted,T',deletes.holds,sorted_unique order identify deletes.holds.sorted (sorted_values sorted) ?_⟩
  have present := deletes.present.trans (values.present order keys key)
  rw [deletes.result] at present
  have left := keys ▸ deletes.keys
  rcases Avl.toList_delete (orderOf compare) key t with ⟨missing,kept⟩ | ⟨front,k,back,found,split,deleted⟩
  · rw [missing] at present
    cases freed : done.freed with
    | some k =>
      rw [freed] at present
      exact absurd (present.mp rfl) Bool.false_ne_true
    | none =>
      rw [freed] at left
      rw [kept]
      exact left.symm
  · rw [found] at present
    cases freed : done.freed with
    | none =>
      rw [freed] at present
      exact absurd (present.mpr rfl) (by simp)
    | some other =>
      have same : other = k := (identify key other (deletes.equal other freed)).symm.trans
        (identify key k (orderOf_eq.mp (Avl.get_mem found).2))
      rw [freed,same,split] at left
      rw [deleted]
      exact ((List.perm_middle.symm.trans left).cons_inv).symm

theorem values_start (root : Nat) : Values compare (start root : State κ).tree .leaf :=
  ⟨.nil,.nil,(start_sound root).holds,rfl⟩

-- In every run of calls the nodes hold the keys of the tree of values, and a key is found in both or in neither.
theorem avl_values (order : Preordered compare) (identify : ∀ a b, compare a b = 0 → a = b)
    (run : Runs (Step compare) (start root) calls s) :
    Values compare s.tree (calls.foldl (Call.value compare) .leaf) ∧
      ∀ key, avlGetByKey compare s.tree key =
        some (Avl.getByKey (orderOf compare) key (calls.foldl (Call.value compare) .leaf)) := by
  have values : Values compare s.tree (calls.foldl (Call.value compare) .leaf) := by
    induction run with
    | nil => exact values_start root
    | snoc _ step ih =>
      rw [List.foldl_append]
      cases step with
      | insert fresh run => exact ih.insert order identify fresh run
      | delete run => exact ih.delete order identify run
  refine ⟨values,fun key => ?_⟩
  obtain ⟨T,holds,keys⟩ := values.nodes
  obtain ⟨found,search,sure,good⟩ := holds.get order key
  rw [search]
  have both := sure.trans (values.present order keys key)
  cases here : Avl.getByKey (orderOf compare) key (calls.foldl (Call.value compare) .leaf) with
  | none =>
    rw [here] at both
    rw [Option.not_isSome_iff_eq_none.mp fun there => Bool.false_ne_true (both.mp there)]
  | some k =>
    rw [here] at both
    obtain ⟨other,rfl⟩ := Option.isSome_iff_exists.mp (both.mpr rfl)
    rw [(identify key other (good other rfl).2).symm.trans (identify key k (orderOf_eq.mp (Avl.get_mem here).2))]

end Values

end Icecast.AvlNodes
