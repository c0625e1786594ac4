import Mathlib.Algebra.GroupWithZero.Nat
import Mathlib.Algebra.BigOperators.Group.List.Basic
import Mathlib.Data.List.Basic

namespace Lists

theorem split_at {xs : List α} (here : xs[k]? = some x) :
    ∃ front back, xs = front++x::back ∧ (∀ y, xs.set k y = front++y::back) ∧ xs.eraseIdx k = front++back := by
  obtain ⟨inside,rfl⟩ := List.getElem?_eq_some_iff.mp here
  refine ⟨xs.take k,xs.drop (k+1),?_,fun y => ?_,List.eraseIdx_eq_take_drop_succ ..⟩
  · rw [List.getElem_cons_drop inside,List.take_append_drop]
  · rw [List.set_eq_take_append_cons_drop,if_pos inside]

theorem sum_set {xs : List α} (f : α → Nat) (here : xs[k]? = some x) (y : α) : ((xs.set k y).map f).sum+f x =
    (xs.map f).sum+f y := by
  obtain ⟨front,back,split,put,_⟩ := split_at here
  rw [put,split]
  simp only [List.map_append,List.map_cons,List.sum_append,List.sum_cons]
  omega

theorem countP_set {xs : List α} (p : α → Bool) (here : xs[k]? = some x) (y : α) :
    (xs.set k y).countP p+(if p x then 1 else 0) = xs.countP p+(if p y then 1 else 0) := by
  obtain ⟨front,back,split,put,_⟩ := split_at here
  rw [put,split]
  simp only [List.countP_append,List.countP_cons]
  omega

-- A flag as a count.
def one (b : Bool) : Nat := if b then 1 else 0

theorem one_le {b : Bool} : one b ≤ 1 := by
  cases b
  · exact Nat.zero_le 1
  · exact Nat.le_refl 1

-- Runs that together cover a list, each but the first starting with the last element of the
-- one before it.
inductive Covers : List (List α) → List α → Prop where
  | one : Covers [run] run
  | next : Covers (runs++[front++[p]]) whole → Covers (runs++[front++[p]]++[p::run]) (whole++run)

theorem Covers.again (covers : Covers (runs++[front++[p]]) whole) : Covers (runs++[front++[p]]++[[p]]) whole := by
  have more := @Covers.next _ runs front p whole [] covers
  rwa [List.append_nil] at more

theorem Covers.snoc {runs : List (List α)} {run : List α} (covers : Covers (runs++[run]) whole) (x : α) :
    Covers (runs++[run++[x]]) (whole++[x]) := by
  generalize all : runs++[run] = lists at covers
  cases covers with
  | one =>
    obtain ⟨rfl,last⟩ := List.append_inj' (show runs++[run] = []++[_] from all) rfl
    cases last
    exact .one
  | @next before front p part rest earlier =>
    obtain ⟨rfl,last⟩ := List.append_inj' all rfl
    cases last
    have more := @Covers.next _ before front p part (rest++[x]) earlier
    rw [←List.append_assoc part] at more
    exact more

end Lists
