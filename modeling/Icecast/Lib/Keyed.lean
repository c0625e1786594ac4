import Mathlib.Data.List.Nodup

namespace Keyed

variable {α : Type u} {κ : Type v} [DecidableEq κ] {key : α → κ} {xs : List α} {x : α} {k : κ}

-- A tree of items by their keys, as the list of its items.
def find (key : α → κ) (xs : List α) (k : κ) : Option α := xs.find? fun x => key x = k

-- The item with the key of x is changed in place.
def put (key : α → κ) (xs : List α) (x : α) : List α := xs.map fun y => if key y = key x then x else y

def delete (key : α → κ) (xs : List α) (k : κ) : List α := xs.filter fun x => key x ≠ k

-- No two items have one key.
def Unique (key : α → κ) (xs : List α) : Prop := (xs.map key).Nodup

theorem find_key (found : find key xs k = some x) : key x = k := by simpa using List.find?_some found

theorem find_mem (found : find key xs k = some x) : x ∈ xs := List.mem_of_find?_eq_some found

theorem find_put (found : find key xs (key x) = some y) (k : κ) :
    find key (put key xs x) k = if k = key x then some x else find key xs k := by
  unfold find put at *
  induction xs with
  | nil => cases found
  | cons z xs ih =>
    rw [List.map_cons]
    by_cases here : key z = key x
    · rw [if_pos here]
      by_cases same : k = key x
      · rw [if_pos same,List.find?_cons_of_pos (by simp [same])]
      · have other : ¬key x = k := fun equal => same equal.symm
        have other' : ¬key z = k := here ▸ other
        rw [if_neg same,List.find?_cons_of_neg (by simpa using other),List.find?_cons_of_neg (by simpa using other')]
        clear ih found
        induction xs with
        | nil => rfl
        | cons w xs ih' =>
          rw [List.map_cons,List.find?_cons,List.find?_cons,ih']
          by_cases spot : key w = key x
          · rw [if_pos spot]
            have other'' : ¬key w = k := spot ▸ other
            simp [other,other'']
          · rw [if_neg spot]
    · rw [if_neg here]
      rw [List.find?_cons_of_neg (by simpa using here)] at found
      rw [List.find?_cons,List.find?_cons,ih found]
      by_cases same : k = key x
      · have other : ¬key z = k := same ▸ here
        simp [same,here]
      · simp [same]

theorem find_delete (xs : List α) (k k' : κ) :
    find key (delete key xs k) k' = if k' = k then none else find key xs k' := by
  unfold find delete
  rw [List.find?_filter]
  split
  · rename_i same
    rw [List.find?_eq_none]
    simp [same]
  · rename_i other
    congr 1
    funext y
    by_cases spot : key y = k' <;> simp [spot,other]

theorem find_insert (absent : find key xs (key x) = none) (k : κ) :
    find key (xs++[x]) k = if k = key x then some x else find key xs k := by
  unfold find at *
  rw [List.find?_append]
  split
  · rename_i same
    rw [same,absent]
    simp
  · rename_i other
    have different : ¬key x = k := fun equal => other equal.symm
    simp [different]

theorem mem_put (within : y ∈ put key xs x) : y = x ∨ y ∈ xs := by
  obtain ⟨z,old,same⟩ := List.mem_map.mp within
  split at same
  · exact .inl same.symm
  · exact .inr (same ▸ old)

theorem mem_put_self (within : y ∈ xs) (same : key y = key x) : x ∈ put key xs x :=
  List.mem_map.mpr ⟨y,within,if_pos same⟩

theorem mem_put_other (within : y ∈ xs) (other : key y ≠ key x) : y ∈ put key xs x :=
  List.mem_map.mpr ⟨y,within,if_neg other⟩

theorem put_keys (xs : List α) (x : α) : (put key xs x).map key = xs.map key := by
  rw [put,List.map_map]
  refine List.map_congr_left fun y _ => ?_
  simp only [Function.comp]
  split
  · rename_i same
    exact same.symm
  · rfl

theorem Unique.put (unique : Unique key xs) (x : α) : Unique key (put key xs x) := by
  rw [Unique,put_keys]
  exact unique

theorem Unique.delete (unique : Unique key xs) (k : κ) : Unique key (delete key xs k) :=
  unique.sublist (List.filter_sublist.map key)

theorem Unique.insert (unique : Unique key xs) (absent : find key xs (key x) = none) : Unique key (xs++[x]) := by
  rw [Unique,List.map_append]
  refine List.nodup_append.mpr ⟨unique,List.nodup_singleton _,fun a old b new same => ?_⟩
  obtain ⟨y,within,rfl⟩ := List.mem_map.mp old
  rw [List.map_singleton,List.mem_singleton] at new
  exact absurd (List.find?_eq_none.mp absent y within) (by simp [same,new])

theorem Unique.find_of_mem (unique : Unique key xs) (within : x ∈ xs) : find key xs (key x) = some x := by
  unfold find
  induction xs with
  | nil => cases within
  | cons y xs ih =>
    obtain ⟨fresh,rest⟩ := List.nodup_cons.mp unique
    rcases List.mem_cons.mp within with same | later
    · rw [same,List.find?_cons_of_pos (by simp)]
    · have other : ¬key y = key x := fun equal => fresh (equal ▸ List.mem_map_of_mem later)
      rw [List.find?_cons_of_neg (by simpa using other)]
      exact ih rest later

theorem insertAll_perm {insert : α → List α → List α} (one : ∀ x xs, (insert x xs).Perm (x::xs)) (items xs : List α) :
    (items.foldl (fun xs x => insert x xs) xs).Perm (items++xs) := by
  induction items generalizing xs with
  | nil => rfl
  | cons x items ih => exact ((ih (insert x xs)).trans ((one x xs).append_left items)).trans List.perm_middle

end Keyed
