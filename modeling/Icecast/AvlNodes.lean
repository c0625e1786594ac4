import Icecast.Lib.BalancedTree
import Icecast.Lib.Transition

namespace Icecast.AvlNodes
open NodeHeap

-- avl_tree: the nodes by address, those that are allocated, and the dummy node whose right child is
-- the top of the tree. NULL as a key is the default of the key type. The two counts, unsigned int there, stay
-- below the number of nodes there is memory for.
structure AvlTree (κ : Type u) where
  heap : Heap κ
  nodes : List Nat
  root : Nat
  height : Nat
  length : Nat

def avlNodeNew (key : κ) (parent : Option Nat) : Node κ := ⟨key,none,none,parent,0,1⟩

def avlTreeNew [Inhabited κ] (root : Nat) : AvlTree κ := ⟨fun _ => avlNodeNew default none,[root],root,0,0⟩

section Compare

variable {κ : Type u} (compare : κ → κ → Int)

-- Where "compare_fun (key, p->key) < 1" sends a key.
def sideOf (key k : κ) : Side := if compare key k < 1 then .left else .right

-- The first loop of avl_insert: the way down from p with the ranks raised, up to the new node. t and s
-- are the last node that is not even and its parent. No way down has more nodes than are allocated.
def insertWalk (key : κ) (new : Nat) : Nat → Heap κ → Nat → Nat → Nat → Option (Heap κ × Nat × Nat)
  | 0,_,_,_,_ => none
  | fuel+1,h,t,s,p =>
    let d := sideOf compare key (h p).key
    let h := if d = .left then modify h p fun n => n.setRank (n.rank+1) else h
    match (h p).child d with
    | none => some (modify (modify h new fun _ => avlNodeNew key (some p)) p (·.setChild d (some new)),t,s)
    | some q => if (h q).balance ≠ 0 then insertWalk key new fuel h p q q else insertWalk key new fuel h t s q

-- "adjust balance factors": from p down to the new node.
def adjustBalances (key : κ) (new : Nat) : Nat → Heap κ → Option Nat → Option (Heap κ)
  | 0,_,_ => none
  | fuel+1,h,p => p.bind fun p =>
    if p = new then some h
    else
      let d := sideOf compare key (h p).key
      let h := modify h p (·.setBalance d.sign)
      adjustBalances key new fuel h ((h p).child d)

-- "finishing touch": p takes the place of s under t.
def finishingTouch (h : Heap κ) (t s p : Nat) : Heap κ :=
  let h := if (h t).right = some s then modify h t (·.setChild .right (some p))
    else modify h t (·.setChild .left (some p))
  modify h p (·.setParent (some t))

-- The balances after a double rotation that brought p up between s and r, a being the heavy side.
def doubleBalances (h : Heap κ) (a : Side) (s r p : Nat) : Heap κ :=
  let h :=
    if (h p).balance = a.sign then modify (modify h s (·.setBalance (-a.sign))) r (·.setBalance 0)
    else if (h p).balance = -a.sign then modify (modify h s (·.setBalance 0)) r (·.setBalance a.sign)
    else modify (modify h s (·.setBalance 0)) r (·.setBalance 0)
  modify h p (·.setBalance 0)

-- "balancing act" at s, r being its child on the side of the key, and whether the tree is higher.
def balancingAct (h : Heap κ) (a : Side) (t s r new : Nat) : Option (Heap κ × Bool) :=
  if (h s).balance = 0 then some (modify h s (·.setBalance a.sign),true)
  else if (h s).balance = -a.sign then some (modify h s (·.setBalance 0),false)
  else if (h s).balance = a.sign then
    if (h r).balance = a.sign then
      let h := rotate a.other h s r
      let h := modify (modify h s (·.setBalance 0)) r (·.setBalance 0)
      some (finishingTouch h t s r,false)
    else if (h r).balance = -a.sign then
      ((h r).child a.other).map fun p =>
        let h := rotate a.other (rotate a h r p) s p
        (finishingTouch (doubleBalances h a s r p) t s p,false)
    else some (finishingTouch h t s new,false)
  else some (h,false)

-- avl_insert, `new` being the node malloc gives.
def avlInsert (ob : AvlTree κ) (key : κ) (new : Nat) : Option (AvlTree κ) :=
  match (ob.heap ob.root).right with
  | none =>
    let h := modify (modify ob.heap new fun _ => avlNodeNew key (some ob.root)) ob.root (·.setChild .right (some new))
    some {ob with heap := h,nodes := new::ob.nodes,length := ob.length+1}
  | some top =>
    (insertWalk compare key new ob.nodes.length ob.heap ob.root top top).bind fun walked =>
    let (h,t,s) := walked
    let r := (h s).child (sideOf compare key (h s).key)
    (adjustBalances compare key new (ob.nodes.length+1) h r).bind fun h =>
    r.bind fun r =>
    (balancingAct h (sideOf compare key (h s).key) t s r new).map fun done =>
    {ob with heap := done.1,nodes := new::ob.nodes,height := if done.2 then ob.height+1 else ob.height,length := ob.length+1}

-- The loop of avl_get_by_key.
def getByKey (key : κ) : Nat → Heap κ → Option Nat → Option (Option κ)
  | _,_,none => some none
  | 0,_,some _ => none
  | fuel+1,h,some x =>
    let compare_result := compare key (h x).key
    if compare_result < 0 then getByKey key fuel h (h x).left
    else if 0 < compare_result then getByKey key fuel h (h x).right
    else some (some (h x).key)

-- The key it stores, none for a result of -1.
def avlGetByKey (tree : AvlTree κ) (key : κ) : Option (Option κ) :=
  getByKey compare key tree.nodes.length tree.heap (tree.heap tree.root).right

-- "Oops! now we have to undo the rank changes all the way up the tree".
def undoRanks (top : Nat) : Nat → Heap κ → Nat → Option (Heap κ)
  | 0,_,_ => none
  | fuel+1,h,x =>
    if x = top then some h
    else (h x).parent.bind fun p =>
      undoRanks top fuel (if (h p).left = some x then modify h p fun n => n.setRank (n.rank+1) else h) p

-- The search of avl_delete: the ranks on the way to the node, or the tree with its ranks put back.
def deleteWalk (key : κ) (top limit : Nat) : Nat → Heap κ → Nat → Option (Heap κ × Option Nat)
  | 0,_,_ => none
  | fuel+1,h,x =>
    let compare_result := compare key (h x).key
    if compare_result < 0 then
      let h := modify h x fun n => n.setRank (n.rank-1)
      match (h x).left with
      | some y => deleteWalk key top limit fuel h y
      | none => (undoRanks top limit (modify h x fun n => n.setRank (n.rank+1)) x).map (·,none)
    else if 0 < compare_result then
      match (h x).right with
      | some y => deleteWalk key top limit fuel h y
      | none => (undoRanks top limit (modify h x fun n => n.setRank (n.rank+1)) x).map (·,none)
    else some (h,some x)

-- "find the immediate predecessor": to the right as far as it goes.
def rightmost : Nat → Heap κ → Nat → Option Nat
  | 0,_,_ => none
  | fuel+1,h,y =>
    match (h y).right with
    | none => some y
    | some z => rightmost fuel h z

-- "swap x with y".
def swapKeys (h : Heap κ) (x y : Nat) : Heap κ :=
  let temp_key := (h x).key
  let h := modify h x (·.setKey (h y).key)
  let h := modify h y (·.setKey temp_key)
  modify h x fun n => n.setRank (n.rank-1)

-- The child of x takes its place; the side of the parent that is shortened.
def scoot (h : Heap κ) (x parent : Nat) : Heap κ × Side :=
  let x_child := match (h x).left with
    | some l => some l
    | none => (h x).right
  let h := reparent h x_child (some parent)
  if (h parent).left = some x then (modify h parent (·.setChild .left x_child),.left)
  else (modify h parent (·.setChild .right x_child),.right)

-- "let p's former parent know this".
def tellTop (h : Heap κ) (top p q : Nat) : Heap κ :=
  if (h top).left = some p then modify h top (·.setChild .left (some q)) else modify h top (·.setChild .right (some q))

-- One round of the climb at p: the heap, the node that is at the place of p, and whether it is shorter.
def climbStep (h : Heap κ) (p top : Nat) (shortened_side : Side) : Option (Heap κ × Nat × Bool) :=
  if (h p).balance = 0 then some (modify h p (·.setBalance (-shortened_side.sign)),p,false)
  else if (h p).balance = shortened_side.sign then some (modify h p (·.setBalance 0),p,true)
  else ((h p).child shortened_side.other).bind fun q =>
    if (h q).balance = 0 then
      let h := rotate shortened_side (modify h q (·.setParent (h p).parent)) p q
      let h := modify (modify h q (·.setBalance shortened_side.sign)) p (·.setBalance (-shortened_side.sign))
      some (tellTop h top p q,q,false)
    else if (h q).balance = (h p).balance then
      let h := rotate shortened_side (modify h q (·.setParent (h p).parent)) p q
      let h := modify (modify h q (·.setBalance 0)) p (·.setBalance 0)
      some (tellTop h top p q,q,true)
    else ((h q).child shortened_side).map fun r =>
      let h := modify h r (·.setParent (h p).parent)
      let h := rotate shortened_side (rotate shortened_side.other h q r) p r
      let h :=
        if (h r).balance = shortened_side.sign then
          modify (modify h q (·.setBalance (-shortened_side.sign))) p (·.setBalance 0)
        else if (h r).balance = -shortened_side.sign then
          modify (modify h q (·.setBalance 0)) p (·.setBalance shortened_side.sign)
        else modify (modify h q (·.setBalance 0)) p (·.setBalance 0)
      (tellTop (modify h r (·.setBalance 0)) top p r,r,true)

def climb : Nat → Heap κ → Nat → Side → Bool → Option (Heap κ)
  | 0,_,_,_,_ => none
  | fuel+1,h,p,shortened_side,shorter =>
    match shorter,(h p).parent with
    | true,some top => (climbStep h p top shortened_side).bind fun r =>
      let (h,x,shorter) := r
      (h x).parent.bind fun p => climb fuel h p (if (h p).left = some x then .left else .right) shorter
    | _,_ => some h

-- "The complicated case" made a simple one: the node to free, which has at most one child.
def simpleCase (n : Nat) (h : Heap κ) (x : Nat) : Option (Heap κ × Nat) :=
  match (h x).left,(h x).right with
  | some l,some _ => (rightmost n h l).map fun y => (swapKeys h x y,y)
  | _,_ => some (h,x)

-- What avl_delete returns, and the key it passes to the free function.
structure Deleted (κ : Type u) where
  tree : AvlTree κ
  result : Int
  freed : Option κ

-- x scooted out and returned to storage, and the climb from its parent.
def freeNode (tree : AvlTree κ) (h : Heap κ) (x : Nat) : Option (Deleted κ) :=
  (h x).parent.bind fun p =>
  let freed := (h x).key
  let scooted := scoot h x p
  (climb tree.nodes.length scooted.1 p scooted.2 true).map fun h =>
  ⟨{tree with heap := h,nodes := tree.nodes.erase x,length := tree.length-1},0,some freed⟩

def avlDelete (tree : AvlTree κ) (key : κ) : Option (Deleted κ) :=
  match (tree.heap tree.root).right with
  | none => some ⟨tree,-1,none⟩
  | some top =>
    let n := tree.nodes.length
    (deleteWalk compare key top n n tree.heap top).bind fun walked =>
    match walked with
    | (h,none) => some ⟨{tree with heap := h},-1,none⟩
    | (h,some x) => (simpleCase n h x).bind fun r => freeNode tree r.1 r.2

-- The loop of avl_get_by_index.
def getByIndex : Nat → Heap κ → Option Nat → Nat → Option (Option κ)
  | _,_,none,_ => some none
  | 0,_,some _,_ => none
  | fuel+1,h,some p,m =>
    let rank := (h p).rank.toNat
    if m < rank then getByIndex fuel h (h p).left m
    else if rank < m then getByIndex fuel h (h p).right (m-rank)
    else some (some (h p).key)

def avlGetByIndex (tree : AvlTree κ) (index : Nat) : Option (Option κ) :=
  getByIndex tree.nodes.length tree.heap (tree.heap tree.root).right (index+1)

end Compare

end Icecast.AvlNodes
