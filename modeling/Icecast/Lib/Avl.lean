import Mathlib.Data.List.Basic

namespace Avl

inductive Balance where
  | left | even | right
deriving DecidableEq,Repr

-- A height balanced tree; every node records which of its subtrees is the higher one.
inductive AvlTree (α : Type u) where
  | leaf
  | node (left : AvlTree α) (key : α) (balance : Balance) (right : AvlTree α)
deriving DecidableEq,Repr

def AvlTree.toList : AvlTree α → List α
  | .leaf => []
  | .node left key _ right => left.toList++key::right.toList

-- The balances of the two parts of a node that a double rotation takes apart.
def Balance.outer : Balance → Balance × Balance
  | .left => (.even,.right)
  | .right => (.left,.even)
  | .even => (.even,.even)

-- A node whose left subtree may have grown, and whether the node has.
def growLeft (left : AvlTree α) (grown : Bool) (key : α) (balance : Balance) (right : AvlTree α) : AvlTree α × Bool :=
  if !grown then (.node left key balance right,false) else
  match balance with
  | .even => (.node left key .left right,true)
  | .right => (.node left key .even right,false)
  | .left =>
    match left with
    | .node a x .left b => (.node a x .even (.node b key .even right),false)
    | .node a x .right (.node b y middle c) =>
      (.node (.node a x middle.outer.1 b) y .even (.node c key middle.outer.2 right),false)
    | other => (.node other key .left right,false)

def growRight (left : AvlTree α) (key : α) (balance : Balance) (right : AvlTree α) (grown : Bool) : AvlTree α × Bool :=
  if !grown then (.node left key balance right,false) else
  match balance with
  | .even => (.node left key .right right,true)
  | .left => (.node left key .even right,false)
  | .right =>
    match right with
    | .node b x .right c => (.node (.node left key .even b) x .even c,false)
    | .node (.node b y middle c) x .left d =>
      (.node (.node left key middle.outer.1 b) y .even (.node c x middle.outer.2 d),false)
    | other => (.node left key .right other,false)

-- A node whose left subtree may be shorter now, and whether the node is.
def shrinkLeft (left : AvlTree α) (shorter : Bool) (key : α) (balance : Balance)
    (right : AvlTree α) : AvlTree α × Bool :=
  if !shorter then (.node left key balance right,false) else
  match balance with
  | .even => (.node left key .right right,false)
  | .left => (.node left key .even right,true)
  | .right =>
    match right with
    | .node b x .even c => (.node (.node left key .right b) x .left c,false)
    | .node b x .right c => (.node (.node left key .even b) x .even c,true)
    | .node (.node b y middle c) x .left d =>
      (.node (.node left key middle.outer.1 b) y .even (.node c x middle.outer.2 d),true)
    | other => (.node left key .right other,false)

def shrinkRight (left : AvlTree α) (key : α) (balance : Balance) (right : AvlTree α)
    (shorter : Bool) : AvlTree α × Bool :=
  if !shorter then (.node left key balance right,false) else
  match balance with
  | .even => (.node left key .left right,false)
  | .right => (.node left key .even right,true)
  | .left =>
    match left with
    | .node a x .even b => (.node a x .right (.node b key .left right),false)
    | .node a x .left b => (.node a x .even (.node b key .even right),true)
    | .node a x .right (.node b y middle c) =>
      (.node (.node a x middle.outer.1 b) y .even (.node c key middle.outer.2 right),true)
    | other => (.node other key .left right,false)

section Compare
variable (cmp : α → α → Ordering)

-- The comparison functions get the wanted key first.
def getByKey (key : α) : AvlTree α → Option α
  | .leaf => none
  | .node left x _ right =>
    match cmp key x with
    | .lt => getByKey key left
    | .gt => getByKey key right
    | .eq => some x

-- Equal keys are put to the left.
def insertGrow (key : α) : AvlTree α → AvlTree α × Bool
  | .leaf => (.node .leaf key .even .leaf,true)
  | .node left x balance right =>
    if cmp key x ≠ .gt then
      let (left,grown) := insertGrow key left
      growLeft left grown x balance right
    else
      let (right,grown) := insertGrow key right
      growRight left x balance right grown

def insert (key : α) (t : AvlTree α) : AvlTree α := (insertGrow cmp key t).1

-- Takes the last key out of a tree that has one.
def popLast (left : AvlTree α) (key : α) (balance : Balance) : AvlTree α → α × AvlTree α × Bool
  | .leaf => (key,left,true)
  | .node l x b r =>
    let (last,right,shorter) := popLast l x b r
    (last,shrinkRight left key balance right shorter)

def deleteShrink (key : α) : AvlTree α → AvlTree α × Bool
  | .leaf => (.leaf,false)
  | .node left x balance right =>
    match cmp key x with
    | .lt =>
      let (left,shorter) := deleteShrink key left
      shrinkLeft left shorter x balance right
    | .gt =>
      let (right,shorter) := deleteShrink key right
      shrinkRight left x balance right shorter
    | .eq =>
      match left,right with
      | .node l y b r,.node _ _ _ _ =>
        let (last,left,shorter) := popLast l y b r
        shrinkLeft left shorter last balance right
      | .leaf,right => (right,true)
      | left,.leaf => (left,true)

def delete (key : α) (t : AvlTree α) : AvlTree α := (deleteShrink cmp key t).1

end Compare

@[simp] theorem toList_leaf : (AvlTree.leaf : AvlTree α).toList = [] := rfl
@[simp] theorem toList_node : (AvlTree.node left key balance right).toList = left.toList++key::right.toList := rfl

@[simp] theorem toList_growLeft (left right : AvlTree α) :
    (growLeft left grown key balance right).1.toList = left.toList++key::right.toList := by
  unfold growLeft
  split
  · rfl
  · split
    · rfl
    · rfl
    · split <;> simp

@[simp] theorem toList_growRight (left right : AvlTree α) :
    (growRight left key balance right grown).1.toList = left.toList++key::right.toList := by
  unfold growRight
  split
  · rfl
  · split
    · rfl
    · rfl
    · split <;> simp

@[simp] theorem toList_shrinkLeft (left right : AvlTree α) :
    (shrinkLeft left shorter key balance right).1.toList = left.toList++key::right.toList := by
  unfold shrinkLeft
  split
  · rfl
  · split
    · rfl
    · rfl
    · split <;> simp

@[simp] theorem toList_shrinkRight (left right : AvlTree α) :
    (shrinkRight left key balance right shorter).1.toList = left.toList++key::right.toList := by
  unfold shrinkRight
  split
  · rfl
  · split
    · rfl
    · rfl
    · split <;> simp

theorem toList_popLast (left right : AvlTree α) (key : α) (balance : Balance) :
    (popLast left key balance right).2.1.toList++[(popLast left key balance right).1] =
    left.toList++key::right.toList := by
  induction right generalizing left key balance with
  | leaf => rfl
  | node l x b r _ ih =>
    have rest := ih l x b
    simp only [popLast,toList_shrinkRight,toList_node]
    rw [←rest]
    simp

variable {cmp : α → α → Ordering}

-- In key order, equal keys side by side.
def Sorted (cmp : α → α → Ordering) (t : AvlTree α) : Prop := t.toList.Pairwise fun x y => cmp x y ≠ .gt

theorem get_mem (found : getByKey cmp key t = some x) : x ∈ t.toList ∧ cmp key x = .eq := by
  induction t with
  | leaf => cases found
  | node left y balance right left_ih right_ih =>
    simp only [getByKey] at found
    cases order : cmp key y with
    | lt =>
      simp only [order] at found
      exact ⟨by simp [(left_ih found).1],(left_ih found).2⟩
    | gt =>
      simp only [order] at found
      exact ⟨by simp [(right_ih found).1],(right_ih found).2⟩
    | eq =>
      simp only [order] at found
      cases Option.some.inj found
      exact ⟨by simp,order⟩

section Ordered
variable [Std.TransCmp cmp]

theorem ne_gt_trans (first : cmp x y ≠ .gt) (second : cmp y z ≠ .gt) : cmp x z ≠ .gt :=
  Ordering.isLE_iff_ne_gt.mp
    (Std.TransCmp.isLE_trans (Ordering.isLE_iff_ne_gt.mpr first) (Ordering.isLE_iff_ne_gt.mpr second))

theorem get_none (sorted : Sorted cmp t) (missing : getByKey cmp key t = none) : ∀ x ∈ t.toList, cmp key x ≠ .eq := by
  induction t with
  | leaf => simp
  | node left y balance right left_ih right_ih =>
    simp only [Sorted,toList_node,List.pairwise_append,List.pairwise_cons] at sorted
    obtain ⟨left_sorted,⟨after,right_sorted⟩,before⟩ := sorted
    simp only [getByKey] at missing
    intro x member same
    have order : cmp key y = cmp x y := Std.TransCmp.congr_left same
    rw [order] at missing
    simp only [toList_node,List.mem_append,List.mem_cons] at member
    cases place : cmp x y with
    | lt =>
      simp only [place] at missing
      rcases member with earlier | rfl | later
      · exact left_ih left_sorted missing x earlier same
      · exact absurd (place.symm.trans Std.ReflCmp.compare_self) (by decide)
      · apply after x later
        exact Std.OrientedCmp.gt_iff_lt.mpr place
    | gt =>
      simp only [place] at missing
      rcases member with earlier | rfl | later
      · exact before x earlier y List.mem_cons_self place
      · exact absurd (place.symm.trans Std.ReflCmp.compare_self) (by decide)
      · exact right_ih right_sorted missing x later same
    | eq => simp [place] at missing

theorem toList_insert (sorted : Sorted cmp t) (key : α) :
    ∃ front back, t.toList = front++back ∧ (insert cmp key t).toList = front++key::back ∧
      (∀ x ∈ front, cmp key x = .gt) ∧ ∀ x ∈ back, cmp key x ≠ .gt := by
  unfold insert
  induction t with
  | leaf => exact ⟨[],[],rfl,rfl,by simp,by simp⟩
  | node left y balance right left_ih right_ih =>
    simp only [Sorted,toList_node,List.pairwise_append,List.pairwise_cons] at sorted
    obtain ⟨left_sorted,⟨after,right_sorted⟩,before⟩ := sorted
    by_cases small : cmp key y ≠ .gt
    · obtain ⟨front,back,split,inserted,smaller,larger⟩ := left_ih left_sorted
      refine ⟨front,back++y::right.toList,by simp [split],by simp [insertGrow,small,inserted],smaller,?_⟩
      intro x member
      rcases List.mem_append.mp member with here | later
      · exact larger x here
      · rcases List.mem_cons.mp later with rfl | later
        · exact small
        · exact ne_gt_trans small (after x later)
    · obtain ⟨front,back,split,inserted,smaller,larger⟩ := right_ih right_sorted
      rw [not_not] at small
      refine ⟨left.toList++y::front,back,by simp [split],by simp [insertGrow,small,inserted],?_,larger⟩
      intro x member
      rcases List.mem_append.mp member with earlier | later
      · by_contra other
        exact ne_gt_trans other (before x earlier y List.mem_cons_self) small
      · rcases List.mem_cons.mp later with rfl | later
        · exact small
        · exact smaller x later

theorem sorted_insert (sorted : Sorted cmp t) (key : α) : Sorted cmp (insert cmp key t) := by
  obtain ⟨front,back,split,inserted,smaller,larger⟩ := toList_insert sorted key
  rw [Sorted,split,List.pairwise_append] at sorted
  rw [Sorted,inserted,List.pairwise_append,List.pairwise_cons]
  refine ⟨sorted.1,⟨larger,sorted.2.1⟩,fun x member z place => ?_⟩
  rcases List.mem_cons.mp place with rfl | later
  · rw [Std.OrientedCmp.gt_iff_lt.mp (smaller x member)]
    decide
  · exact sorted.2.2 x member z later

theorem mem_insert (sorted : Sorted cmp t) (key : α) : x ∈ (insert cmp key t).toList ↔ x = key ∨ x ∈ t.toList := by
  obtain ⟨front,back,split,inserted,_,_⟩ := toList_insert sorted key
  rw [split,inserted]
  simp
  tauto

end Ordered

theorem toList_delete (cmp : α → α → Ordering) (key : α) (t : AvlTree α) :
    (getByKey cmp key t = none ∧ (delete cmp key t).toList = t.toList) ∨
    ∃ front x back, getByKey cmp key t = some x ∧
    t.toList = front++x::back ∧ (delete cmp key t).toList = front++back := by
  unfold delete
  induction t with
  | leaf => exact .inl ⟨rfl,rfl⟩
  | node left y balance right left_ih right_ih =>
    cases order : cmp key y with
    | lt =>
      rcases left_ih with ⟨missing,same⟩ | ⟨front,x,back,found,split,deleted⟩
      · exact .inl ⟨by simp [getByKey,order,missing],by simp [deleteShrink,order,same]⟩
      · exact .inr ⟨front,x,back++y::right.toList,
          by simp [getByKey,order,found],by simp [split],by simp [deleteShrink,order,deleted]⟩
    | gt =>
      rcases right_ih with ⟨missing,same⟩ | ⟨front,x,back,found,split,deleted⟩
      · exact .inl ⟨by simp [getByKey,order,missing],by simp [deleteShrink,order,same]⟩
      · exact .inr ⟨left.toList++y::front,x,back,
          by simp [getByKey,order,found],by simp [split],by simp [deleteShrink,order,deleted]⟩
    | eq =>
      refine .inr ⟨left.toList,y,right.toList,by simp [getByKey,order],rfl,?_⟩
      cases left with
      | leaf => simp [deleteShrink,order]
      | node l z b r =>
        cases right with
        | leaf => simp [deleteShrink,order]
        | node l' z' b' r' =>
          have last := toList_popLast l r z b
          simp only [deleteShrink,order,toList_shrinkLeft,toList_node]
          rw [←last]
          simp

theorem sorted_delete (sorted : Sorted cmp t) (key : α) : Sorted cmp (delete cmp key t) := by
  rcases toList_delete cmp key t with ⟨_,same⟩ | ⟨front,x,back,_,split,deleted⟩
  · rw [Sorted,same]
    exact sorted
  · rw [Sorted,deleted]
    rw [Sorted,split] at sorted
    exact sorted.sublist ((List.sublist_cons_self x back).append_left front)

end Avl
