import Icecast.Lib.Avl
import Mathlib.Data.List.Nodup
import Mathlib.Data.List.Perm.Basic

namespace AvlMap
open Avl

-- A tree of items ordered by a key, each key once.
structure Once (cmp : α → α → Ordering) (key : α → κ) (t : AvlTree α) : Prop where
  sorted : Sorted cmp t
  unique : (t.toList.map key).Nodup

-- What is there under the key goes, then the item is inserted.
def put (cmp : α → α → Ordering) (x : α) (t : AvlTree α) : AvlTree α :=
  if (getByKey cmp x t).isSome then insert cmp x (delete cmp x t) else insert cmp x t

theorem leaf_once (cmp : α → α → Ordering) (key : α → κ) : Once cmp key .leaf := ⟨.nil,.nil⟩

variable {cmp : α → α → Ordering} [Std.TransCmp cmp] {key : α → κ} {t : AvlTree α}

theorem Once.get_iff (once : Once cmp key t) (same : ∀ x y, cmp x y = .eq ↔ key x = key y) (x v : α) :
    getByKey cmp x t = some v ↔ v ∈ t.toList ∧ key x = key v := by
  cases found : getByKey cmp x t with
  | none =>
    have missing := get_none once.sorted found
    simp only [reduceCtorEq,false_iff]
    exact fun ⟨member,equal⟩ => missing v member ((same x v).mpr equal)
  | some y =>
    obtain ⟨member,equal⟩ := get_mem found
    have equal := (same x y).mp equal
    constructor
    · intro read
      cases Option.some.inj read
      exact ⟨member,equal⟩
    · intro ⟨there,other⟩
      rw [List.inj_on_of_nodup_map once.unique member there (equal.symm.trans other)]

theorem Once.drop (once : Once cmp key t) (same : ∀ x y, cmp x y = .eq ↔ key x = key y) (x : α) :
    Once cmp key (delete cmp x t) ∧ ∀ v, v ∈ (delete cmp x t).toList ↔ v ∈ t.toList ∧ key v ≠ key x := by
  rcases toList_delete cmp x t with ⟨missing,kept⟩ | ⟨front,y,back,found,split,deleted⟩
  · have others := get_none once.sorted missing
    refine ⟨⟨sorted_delete once.sorted x,by rw [kept]; exact once.unique⟩,fun v => ?_⟩
    rw [kept]
    exact ⟨fun member => ⟨member,fun here => others v member ((same x v).mpr here.symm)⟩,fun both => both.1⟩
  · have here : key y = key x := ((same x y).mp (get_mem found).2).symm
    have sub : (front++back).Sublist t.toList := by
      rw [split]
      exact (List.sublist_cons_self y back).append_left front
    have unique := once.unique
    rw [split] at unique
    simp only [List.map_append,List.map_cons,List.nodup_append,List.nodup_cons] at unique
    refine ⟨⟨sorted_delete once.sorted x,?_⟩,fun v => ?_⟩
    · rw [deleted]
      exact once.unique.sublist (sub.map _)
    · rw [deleted,split]
      constructor
      · intro member
        refine ⟨by simp at member ⊢; tauto,fun equal => ?_⟩
        rcases List.mem_append.mp member with earlier | later
        · exact unique.2.2 (key v) (List.mem_map_of_mem earlier) (key y) List.mem_cons_self (equal.trans here.symm)
        · exact unique.2.1.1 (by rw [here,←equal]; exact List.mem_map_of_mem later)
      · rintro ⟨member,other⟩
        have apart : v ≠ y := fun equal => other (equal ▸ here)
        simpa [apart] using member

theorem Once.add (once : Once cmp key t) (x : α) (fresh : ∀ v ∈ t.toList, key v ≠ key x) :
    Once cmp key (insert cmp x t) := by
  obtain ⟨front,back,split,inserted,_,_⟩ := toList_insert once.sorted x
  have unique := once.unique
  rw [split] at unique fresh
  refine ⟨sorted_insert once.sorted x,?_⟩
  rw [inserted]
  have moved : ((front++x::back).map key).Perm (key x::(front++back).map key) := by simp
  refine moved.nodup_iff.mpr (List.nodup_cons.mpr ⟨fun again => ?_,unique⟩)
  obtain ⟨v,member,equal⟩ := List.mem_map.mp again
  exact fresh v member equal

theorem Once.put (once : Once cmp key t) (same : ∀ x y, cmp x y = .eq ↔ key x = key y) (x : α) :
    Once cmp key (put cmp x t) ∧ ∀ v, v ∈ (AvlMap.put cmp x t).toList ↔ v = x ∨ v ∈ t.toList ∧ key v ≠ key x := by
  unfold AvlMap.put
  cases found : getByKey cmp x t with
  | some y =>
    simp only [Option.isSome_some,if_true]
    obtain ⟨dropped,mem⟩ := once.drop same x
    refine ⟨dropped.add x fun v member => ((mem v).mp member).2,fun v => ?_⟩
    rw [mem_insert dropped.sorted,mem]
  | none =>
    simp only [Option.isSome_none,Bool.false_eq_true,if_false]
    have missing := get_none once.sorted found
    have fresh (v : α) (member : v ∈ t.toList) : key v ≠ key x := fun equal =>
      missing v member ((same x v).mpr equal.symm)
    refine ⟨once.add x fresh,fun v => ?_⟩
    rw [mem_insert once.sorted]
    exact or_congr_right ⟨fun member => ⟨member,fresh v member⟩,fun both => both.1⟩

theorem Once.get_put (once : Once cmp key t) (same : ∀ x y, cmp x y = .eq ↔ key x = key y) (x probe : α)
    [Decidable (key probe = key x)] :
    getByKey cmp probe (AvlMap.put cmp x t) = if key probe = key x then some x else getByKey cmp probe t := by
  obtain ⟨stored,mem⟩ := once.put same x
  refine Option.ext fun v => ?_
  rw [stored.get_iff same,mem]
  by_cases own : key probe = key x
  · rw [if_pos own]
    constructor
    · intro ⟨either,equal⟩
      cases either with
      | inl here => exact congrArg some here.symm
      | inr other => exact absurd (equal.symm.trans own) other.2
    · intro here
      cases Option.some.inj here
      exact ⟨.inl rfl,own⟩
  · rw [if_neg own,once.get_iff same]
    constructor
    · intro ⟨either,equal⟩
      cases either with
      | inl here => exact absurd (here ▸ equal) own
      | inr other => exact ⟨other.1,equal⟩
    · intro ⟨member,equal⟩
      exact ⟨.inr ⟨member,fun here => own (equal.trans here)⟩,equal⟩

end AvlMap
