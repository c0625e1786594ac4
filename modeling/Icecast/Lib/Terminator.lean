import Mathlib.Data.List.Infix
import Mathlib.Data.List.TakeWhile

namespace Terminator

variable {α : Type u} [DecidableEq α]

-- Where a pattern first occurs in a text.
def position (pattern : List α) : List α → Option Nat
  | [] => if pattern = [] then some 0 else none
  | c::text => if pattern <+: c::text then some 0 else (position pattern text).map (·+1)

-- The start and the end of the first occurrence of the first of several patterns that
-- occurs at all.
def search (kinds : List (List α)) (text : List α) : Option (Nat × Nat) :=
  kinds.findSome? fun t => (position t text).map fun i => (i,i+t.length)

-- The shortest part of the text that ends with one of the patterns.
def firstEnd (kinds : List (List α)) (text : List α) : Option Nat :=
  (List.range (text.length+1)).find? fun m => kinds.any fun t => t <:+ text.take m

-- The patterns tried before the one that ends there.
def earlier (kinds : List (List α)) (text : List α) (m : Nat) : List (List α) :=
  kinds.takeWhile fun t => ¬t <:+ text.take m

-- No pattern that is tried before the one that ends first occurs in the text.
def Tidy (kinds : List (List α)) (text : List α) : Prop :=
  ∀ m, firstEnd kinds text = some m → ∀ u ∈ earlier kinds text m, ¬u <:+: text

instance (kinds : List (List α)) (text : List α) : Decidable (Tidy kinds text) :=
  decidable_of_iff (∀ m ∈ (firstEnd kinds text).toList, ∀ u ∈ earlier kinds text m, ¬u <:+: text) (by simp [Tidy])

-- The text in front of the first end and the end, as the first kind there has it.
def firstSplit (kinds : List (List α)) (text : List α) : Option (Nat × Nat) :=
  (firstEnd kinds text).bind fun m => (kinds.find? fun t => t <:+ text.take m).map fun t => (m-t.length,m)

omit [DecidableEq α] in
theorem infix_iff {pattern text : List α} : pattern <:+: text ↔ ∃ m ≤ text.length, pattern <:+ text.take m := by
  constructor
  · rintro ⟨front,back,rfl⟩
    refine ⟨(front++pattern).length,by simp,?_⟩
    rw [List.take_left]
    exact List.suffix_append front pattern
  · rintro ⟨m,_,ends⟩
    exact ends.isInfix.trans (List.take_prefix m text).isInfix

theorem position_some {pattern text : List α} (found : position pattern text = some i) :
    i+pattern.length ≤ text.length ∧
    pattern <:+ text.take (i+pattern.length) ∧ ∀ m ≤ text.length, pattern <:+ text.take m → i+pattern.length ≤ m := by
  induction text generalizing i with
  | nil =>
    rw [position] at found
    split at found
    · cases found
      simp [*]
    · cases found
  | cons c text ih =>
    rw [position] at found
    split at found
    · rename_i here
      cases found
      obtain ⟨rest,whole⟩ := here
      rw [←whole]
      refine ⟨by simp,by simp,fun m inside ends => ?_⟩
      have shorter := ends.length_le
      simp only [List.length_take] at shorter
      omega
    · rename_i absent
      obtain ⟨i,later,rfl⟩ := Option.map_eq_some_iff.mp found
      obtain ⟨fits,ends,least⟩ := ih later
      have split : i+1+pattern.length = (i+pattern.length)+1 := by omega
      rw [split,List.take_succ_cons]
      refine ⟨by simpa using fits,ends.trans (List.suffix_cons c _),fun m inside there => ?_⟩
      cases m with
      | zero =>
        have empty : pattern = [] := by simpa using there
        exact absurd (empty ▸ List.nil_prefix) absent
      | succ m =>
        rw [List.take_succ_cons,List.suffix_cons_iff] at there
        rcases there with whole | inner
        · exact absurd (whole ▸ (List.cons_prefix_cons.mpr ⟨rfl,List.take_prefix m text⟩)) absent
        · have := least m (by simpa using inside) inner
          omega

theorem position_none {pattern text : List α} : position pattern text = none ↔ ¬pattern <:+: text := by
  induction text with
  | nil => simp [position]
  | cons c text ih =>
    rw [position,List.infix_cons_iff]
    split
    · simp [*]
    · simp [*]

theorem search_none {kinds : List (List α)} {text : List α} : search kinds text = none ↔ ∀ t ∈ kinds, ¬t <:+: text := by
  simp [search,List.findSome?_eq_none_iff,position_none]

theorem firstEnd_some {kinds : List (List α)} {text : List α} (first : firstEnd kinds text = some m) : m ≤ text.length ∧
    (∃ t ∈ kinds, t <:+ text.take m) ∧ ∀ t ∈ kinds, ∀ j < m, ¬t <:+ text.take j := by
  unfold firstEnd at first
  rw [List.find?_range_eq_some] at first
  obtain ⟨here,inside,least⟩ := first
  refine ⟨Nat.le_of_lt_succ (List.mem_range.mp inside),by simpa using here,fun t member j before ends => ?_⟩
  have := least j before
  simp only [Bool.not_eq_true',List.any_eq_false,decide_eq_true_eq] at this
  exact this t member ends

theorem firstEnd_none {kinds : List (List α)} {text : List α} (never : firstEnd kinds text = none) :
    ∀ t ∈ kinds, ¬t <:+: text := by
  intro t member occurs
  obtain ⟨m,inside,ends⟩ := infix_iff.mp occurs
  unfold firstEnd at never
  rw [List.find?_eq_none] at never
  apply never m (List.mem_range.mpr (by omega))
  simpa using ⟨t,member,ends⟩

omit [DecidableEq α] in
theorem infix_take {pattern text : List α} : pattern <:+: text.take n ↔ ∃ m ≤ text.length, m ≤ n ∧
    pattern <:+ text.take m := by
  rw [infix_iff]
  constructor
  · rintro ⟨m,inside,ends⟩
    rw [List.length_take] at inside
    rw [List.take_take,Nat.min_eq_left (by omega)] at ends
    exact ⟨m,by omega,by omega,ends⟩
  · rintro ⟨m,inside,low,ends⟩
    refine ⟨m,by rw [List.length_take]; omega,?_⟩
    rw [List.take_take,Nat.min_eq_left low]
    exact ends

theorem search_before {kinds : List (List α)} {text : List α} (first : firstEnd kinds text = some m) (low : n < m) :
    search kinds (text.take n) = none := by
  obtain ⟨_,_,least⟩ := firstEnd_some first
  refine search_none.mpr fun t member occurs => ?_
  obtain ⟨j,_,below,ends⟩ := infix_take.mp occurs
  exact least t member j (by omega) ends

theorem search_never {kinds : List (List α)} {text : List α} (never : firstEnd kinds text = none) (n : Nat) :
    search kinds (text.take n) = none := by
  refine search_none.mpr fun t member occurs => ?_
  exact firstEnd_none never t member (occurs.trans (List.take_prefix n text).isInfix)

theorem search_some {kinds : List (List α)} {text : List α} (found : search kinds (text.take n) = some (i,h)) :
    ∃ before t after, kinds = before++t::after ∧ i+t.length = h ∧ h ≤ text.length ∧ h ≤ n ∧ t <:+ text.take h ∧
      (∀ j ≤ n, j ≤ text.length → t <:+ text.take j → h ≤ j) ∧ ∀ u ∈ before, ¬u <:+: text.take n := by
  obtain ⟨before,t,after,shape,here,none_before⟩ := List.findSome?_eq_some_iff.mp found
  obtain ⟨i',place,same⟩ := Option.map_eq_some_iff.mp here
  cases same
  obtain ⟨fits,ends,least⟩ := position_some place
  rw [List.length_take] at fits
  rw [List.take_take,Nat.min_eq_left (by omega)] at ends
  refine ⟨before,t,after,shape,rfl,by omega,by omega,ends,fun j low inside there => ?_,fun u member => ?_⟩
  · apply least j (by rw [List.length_take]; omega)
    rw [List.take_take,Nat.min_eq_left low]
    exact there
  · simpa [position_none] using none_before u member

theorem search_whole {kinds : List (List α)} {text : List α} (found : search kinds text = some split) :
    search kinds (text.take text.length) = some split := by
  rw [List.take_length]
  exact found

theorem firstSplit_some {kinds before after : List (List α)} {text : List α} (first : firstEnd kinds text = some m)
    (shape : kinds = before++t::after) (ends : t <:+ text.take m) (others : ∀ u ∈ before, ¬u <:+ text.take m) :
    firstSplit kinds text = some (m-t.length,m) := by
  have found : (kinds.find? fun t => t <:+ text.take m) = some t := by
    rw [List.find?_eq_some_iff_append]
    exact ⟨by simpa using ends,before,after,shape,by simpa using others⟩
  rw [firstSplit,first,Option.bind_some,found]
  rfl

theorem search_first {kinds : List (List α)} {text : List α} (first : firstEnd kinds text = some m)
    (found : search kinds (text.take n) = some (i,m)) : firstSplit kinds text = some (i,m) := by
  obtain ⟨before,t,after,shape,length,inside,low,ends,_,others⟩ := search_some found
  rw [firstSplit_some first shape ends fun u member there => others u member (infix_take.mpr ⟨m,inside,low,there⟩)]
  congr 2
  omega

theorem search_later {kinds : List (List α)} {text : List α} (first : firstEnd kinds text = some m)
    (found : search kinds (text.take n) = some (i,h)) : m ≤ h := by
  obtain ⟨before,t,after,shape,_,inside,_,ends,_,_⟩ := search_some found
  by_contra small
  exact (firstEnd_some first).2.2 t (by rw [shape]; simp) h (by omega) ends

theorem Tidy.search {kinds : List (List α)} {text : List α} (tidy : Tidy kinds text)
    (first : firstEnd kinds text = some m) (seen : m ≤ n) :
    ∃ i, search kinds (text.take n) = some (i,m) ∧ firstSplit kinds text = some (i,m) := by
  obtain ⟨inside,⟨t,member,ends⟩,least⟩ := firstEnd_some first
  cases found : Terminator.search kinds (text.take n) with
  | none => exact absurd (infix_take.mpr ⟨m,inside,seen,ends⟩) (search_none.mp found t member)
  | some split =>
    obtain ⟨i,h⟩ := split
    obtain ⟨before,u,after,shape,length,fits,low,there,lowest,others⟩ := search_some found
    -- the kind that was found is not tried before the one that ends first
    have here : u <:+ text.take m := by
      by_contra absent
      have early : u ∈ earlier kinds text m := by
        have front : ∀ v ∈ before++[u], decide (¬v <:+ text.take m) = true := by
          intro v among
          rcases List.mem_append.mp among with old | new
          · simpa using fun ends => others v old (infix_take.mpr ⟨m,inside,seen,ends⟩)
          · simpa [List.mem_singleton.mp new] using absent
        unfold earlier
        rw [shape,show before++u::after = (before++[u])++after by simp,List.takeWhile_append_of_pos front]
        simp
      exact tidy m first u early (there.isInfix.trans (List.take_prefix h text).isInfix)
    have last := lowest m seen inside here
    have same : h = m := Nat.le_antisymm last (search_later first found)
    subst same
    exact ⟨i,rfl,search_first first found⟩

theorem tidy_of_search {kinds : List (List α)} {text : List α} (first : firstEnd kinds text = some m)
    (found : search kinds text = some (i,m)) : Tidy kinds text := by
  intro m' same u early occurs
  cases first.symm.trans same
  rw [←List.take_length (l := text)] at found
  obtain ⟨before,t,after,shape,_,_,_,ends,_,others⟩ := search_some found
  rw [List.take_length] at others
  refine others u ?_ occurs
  unfold earlier at early
  rw [shape,List.takeWhile_append] at early
  split at early
  · simpa [ends] using early
  · exact (List.takeWhile_prefix _).subset early

end Terminator
