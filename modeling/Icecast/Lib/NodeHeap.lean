import Mathlib.Algebra.Group.Nat.Defs
import Mathlib.Algebra.Group.Int.Defs
import Mathlib.Data.List.Nodup
import Mathlib.Data.List.Perm.Basic

namespace NodeHeap

inductive Side where
  | left
  | right
deriving DecidableEq

def Side.other : Side → Side
  | .left => .right
  | .right => .left

-- The side as the difference of heights it adds to.
def Side.sign : Side → Int
  | .left => -1
  | .right => 1

@[simp] theorem Side.other_other (d : Side) : d.other.other = d := by cases d <;> rfl

@[simp] theorem Side.sign_other (d : Side) : d.other.sign = -d.sign := by cases d <;> rfl

theorem Side.sign_ne (d : Side) : d.sign ≠ 0 := by cases d <;> decide

theorem Side.sign_bounds (d : Side) : -1 ≤ d.sign ∧ d.sign ≤ 1 := by cases d <;> decide

theorem Side.sign_cases (d : Side) (low : -1 ≤ b) (high : b ≤ 1) : b = 0 ∨ b = -d.sign ∨ b = d.sign := by
  cases d <;> simp only [Side.sign] <;> omega

-- A node of a binary tree with parent links.
structure Node (κ : Type u) where
  key : κ
  left : Option Nat
  right : Option Nat
  parent : Option Nat
  balance : Int
  rank : BitVec 30

def Node.child (n : Node κ) : Side → Option Nat
  | .left => n.left
  | .right => n.right

def Node.setChild (n : Node κ) (d : Side) (p : Option Nat) : Node κ :=
  match d with
  | .left => {n with left := p}
  | .right => {n with right := p}

def Node.setParent (n : Node κ) (p : Option Nat) : Node κ := {n with parent := p}

def Node.setBalance (n : Node κ) (b : Int) : Node κ := {n with balance := b}

def Node.setRank (n : Node κ) (r : BitVec 30) : Node κ := {n with rank := r}

def Node.setKey (n : Node κ) (k : κ) : Node κ := {n with key := k}

-- What is stored at every address; which addresses are in use is kept elsewhere.
abbrev Heap (κ : Type u) := Nat → Node κ

def modify (h : Heap κ) (i : Nat) (f : Node κ → Node κ) : Heap κ := fun j => if j = i then f (h j) else h j

@[simp] theorem modify_same (h : Heap κ) (i : Nat) (f : Node κ → Node κ) : modify h i f i = f (h i) := if_pos rfl

theorem modify_other (h : Heap κ) (f : Node κ → Node κ) (other : j ≠ i) : modify h i f j = h j := if_neg other

-- The parent link of the node a pointer leads to, if it leads to one.
def reparent (h : Heap κ) (p : Option Nat) (parent : Option Nat) : Heap κ :=
  match p with
  | none => h
  | some i => modify h i (·.setParent parent)

theorem reparent_other (h : Heap κ) (x : Option Nat) (other : p ≠ some j) : reparent h p x j = h j := by
  cases p with
  | none => rfl
  | some i =>
    unfold reparent
    exact modify_other h _ fun same => other (congrArg some same.symm)

-- The tree a heap holds, with the address of every node.
inductive NodeTree (κ : Type u) where
  | nil
  | node (id : Nat) (l : NodeTree κ) (key : κ) (balance : Int) (rank : BitVec 30) (r : NodeTree κ)

namespace NodeTree

def ptr : NodeTree κ → Option Nat
  | nil => none
  | node id _ _ _ _ _ => some id

-- The nodes in order.
def entries : NodeTree κ → List (Nat × κ)
  | nil => []
  | node id l key _ _ r => l.entries++(id,key)::r.entries

def ids : NodeTree κ → List Nat
  | nil => []
  | node id l _ _ _ r => l.ids++id::r.ids

def keys : NodeTree κ → List κ
  | nil => []
  | node _ l key _ _ r => l.keys++key::r.keys

def height : NodeTree κ → Nat
  | nil => 0
  | node _ l _ _ _ r => 1+max l.height r.height

def size : NodeTree κ → Nat
  | nil => 0
  | node _ l _ _ _ r => l.size+1+r.size

theorem ids_entries (t : NodeTree κ) : t.entries.map Prod.fst = t.ids := by
  induction t with
  | nil => rfl
  | node id l key b rk r ihl ihr => simp [entries,ids,ihl,ihr]

theorem keys_entries (t : NodeTree κ) : t.entries.map Prod.snd = t.keys := by
  induction t with
  | nil => rfl
  | node id l key b rk r ihl ihr => simp [entries,keys,ihl,ihr]

theorem length_keys (t : NodeTree κ) : t.keys.length = t.size := by
  induction t with
  | nil => rfl
  | node id l key b rk r ihl ihr =>
    simp only [keys,size,List.length_append,List.length_cons,ihl,ihr]
    omega

theorem length_ids (t : NodeTree κ) : t.ids.length = t.size := by
  rw [←ids_entries,List.length_map,←length_keys,←keys_entries,List.length_map]

theorem ptr_mem {t : NodeTree κ} (here : t.ptr = some i) : i ∈ t.ids := by
  cases t with
  | nil => cases here
  | node id l key b rk r =>
    cases here
    exact List.mem_append_right _ List.mem_cons_self

end NodeTree

-- A heap holds a tree at its root, under the given parent.
def Rep (h : Heap κ) (parent : Option Nat) : NodeTree κ → Prop
  | .nil => True
  | .node id l key b rk r => h id = ⟨key,l.ptr,r.ptr,parent,b,rk⟩ ∧ Rep h (some id) l ∧ Rep h (some id) r

theorem Rep.congr {h h' : Heap κ} {t : NodeTree κ} (rep : Rep h p t) (same : ∀ j ∈ t.ids, h' j = h j) : Rep h' p t := by
  induction t generalizing p with
  | nil => trivial
  | node id l key b rk r ihl ihr =>
    obtain ⟨here,left,right⟩ := rep
    refine ⟨?_,ihl left fun j member => same j (List.mem_append_left _ member),
      ihr right fun j member => same j (List.mem_append_right _ (List.mem_cons_of_mem _ member))⟩
    rw [same id (List.mem_append_right _ List.mem_cons_self)]
    exact here

theorem Rep.reparent {h : Heap κ} {t : NodeTree κ} (rep : Rep h p t) (nodup : t.ids.Nodup) (x : Option Nat) :
    Rep (reparent h t.ptr x) x t := by
  cases t with
  | nil => trivial
  | node id l key b rk r =>
    obtain ⟨here,left,right⟩ := rep
    obtain ⟨_,inner,apart⟩ := List.nodup_append.mp nodup
    refine ⟨?_,left.congr fun j member => ?_,right.congr fun j member => ?_⟩
    · simp [NodeHeap.reparent,NodeTree.ptr,here,Node.setParent]
    · exact reparent_other h x fun same => apart j member id List.mem_cons_self (Option.some.inj same).symm
    · refine reparent_other h x fun same => ?_
      exact (List.nodup_cons.mp inner).1 ((Option.some.inj same) ▸ member)

theorem Rep.child_parent {h : Heap κ} {t : NodeTree κ} (rep : Rep h p t) (inside : i ∈ t.ids)
    (child : (h i).child d = some j) :
    j ∈ t.ids ∧ (h j).parent = some i := by
  induction t generalizing p with
  | nil => cases inside
  | node x l k b rk r ihl ihr =>
    obtain ⟨here,left,right⟩ := rep
    rcases List.mem_append.mp inside with inside | inside
    · obtain ⟨deep,linked⟩ := ihl left inside
      exact ⟨List.mem_append_left _ deep,linked⟩
    · rcases List.mem_cons.mp inside with rfl | inside
      · rw [here] at child
        cases d with
        | left =>
          cases l with
          | nil => cases child
          | node q ll lk lb lrk lr =>
            cases child
            refine ⟨List.mem_append_left _ (NodeTree.ptr_mem rfl),?_⟩
            rw [left.1]
        | right =>
          cases r with
          | nil => cases child
          | node q rl rk' rb rrk rr =>
            cases child
            refine ⟨List.mem_append_right _ (List.mem_cons_of_mem _ (NodeTree.ptr_mem rfl)),?_⟩
            rw [right.1]
      · obtain ⟨deep,linked⟩ := ihr right inside
        exact ⟨List.mem_append_right _ (List.mem_cons_of_mem _ deep),linked⟩

theorem Rep.parent_child {h : Heap κ} {t : NodeTree κ} (rep : Rep h p t) (inside : j ∈ t.ids) :
    t.ptr = some j ∧ (h j).parent = p ∨ ∃ i ∈ t.ids, ∃ d, (h i).child d = some j ∧ (h j).parent = some i := by
  induction t generalizing p with
  | nil => cases inside
  | node x l k b rk r ihl ihr =>
    obtain ⟨here,left,right⟩ := rep
    have own : x ∈ (NodeTree.node x l k b rk r).ids := List.mem_append_right _ List.mem_cons_self
    rcases List.mem_append.mp inside with inside | inside
    · rcases ihl left inside with ⟨top,linked⟩ | ⟨i,deep,d,child,linked⟩
      · exact .inr ⟨x,own,.left,by rw [here]; exact top,linked⟩
      · exact .inr ⟨i,List.mem_append_left _ deep,d,child,linked⟩
    · rcases List.mem_cons.mp inside with rfl | inside
      · exact .inl ⟨rfl,by rw [here]⟩
      · rcases ihr right inside with ⟨top,linked⟩ | ⟨i,deep,d,child,linked⟩
        · exact .inr ⟨x,own,.right,by rw [here]; exact top,linked⟩
        · exact .inr ⟨i,List.mem_append_right _ (List.mem_cons_of_mem _ deep),d,child,linked⟩

theorem Rep.same {h h' : Heap κ} {t : NodeTree κ} (rep : Rep h p t) (rep' : Rep h' p t)
    (inside : i ∈ t.ids) : h' i = h i := by
  induction t generalizing p with
  | nil => cases inside
  | node x l k b rk r ihl ihr =>
    obtain ⟨here,left,right⟩ := rep
    obtain ⟨here',left',right'⟩ := rep'
    rcases List.mem_append.mp inside with inside | inside
    · exact ihl left left' inside
    · rcases List.mem_cons.mp inside with rfl | inside
      · rw [here,here']
      · exact ihr right right' inside

-- A node with a hole for one of its subtrees.
structure Frame (κ : Type u) where
  side : Side
  id : Nat
  key : κ
  balance : Int
  rank : BitVec 30
  sibling : NodeTree κ

def Frame.fill (f : Frame κ) (t : NodeTree κ) : NodeTree κ :=
  match f.side with
  | .left => .node f.id t f.key f.balance f.rank f.sibling
  | .right => .node f.id f.sibling f.key f.balance f.rank t

def Frame.node (f : Frame κ) (hole parent : Option Nat) : Node κ :=
  match f.side with
  | .left => ⟨f.key,hole,f.sibling.ptr,parent,f.balance,f.rank⟩
  | .right => ⟨f.key,f.sibling.ptr,hole,parent,f.balance,f.rank⟩

@[simp] theorem Frame.fill_ptr (f : Frame κ) (t : NodeTree κ) : (f.fill t).ptr = some f.id := by
  unfold Frame.fill
  cases f.side <;> rfl

theorem Frame.fill_ids (f : Frame κ) (t : NodeTree κ) : (f.fill t).ids.Perm (f.id::(f.sibling.ids++t.ids)) := by
  unfold Frame.fill
  cases f.side with
  | left => exact List.perm_middle.trans (List.perm_append_comm.cons _)
  | right => exact List.perm_middle

theorem rep_fill {h : Heap κ} {f : Frame κ} {t : NodeTree κ} :
    Rep h p (f.fill t) ↔ h f.id = f.node t.ptr p ∧ Rep h (some f.id) t ∧ Rep h (some f.id) f.sibling := by
  unfold Frame.fill Frame.node
  cases f.side with
  | left => exact Iff.rfl
  | right => exact ⟨fun ⟨here,left,right⟩ => ⟨here,right,left⟩,fun ⟨here,right,left⟩ => ⟨here,left,right⟩⟩

@[simp] theorem Frame.node_child (f : Frame κ) (hole p : Option Nat) : (f.node hole p).child f.side = hole := by
  unfold Frame.node
  cases f.side <;> rfl

@[simp] theorem Frame.node_sibling (f : Frame κ) (hole p : Option Nat) :
    (f.node hole p).child f.side.other = f.sibling.ptr := by
  unfold Frame.node
  cases f.side <;> rfl

@[simp] theorem Frame.node_parent (f : Frame κ) (hole p : Option Nat) : (f.node hole p).parent = p := by
  unfold Frame.node
  cases f.side <;> rfl

@[simp] theorem Frame.node_balance (f : Frame κ) (hole p : Option Nat) : (f.node hole p).balance = f.balance := by
  unfold Frame.node
  cases f.side <;> rfl

@[simp] theorem Frame.node_rank (f : Frame κ) (hole p : Option Nat) : (f.node hole p).rank = f.rank := by
  unfold Frame.node
  cases f.side <;> rfl

@[simp] theorem Frame.node_key (f : Frame κ) (hole p : Option Nat) : (f.node hole p).key = f.key := by
  unfold Frame.node
  cases f.side <;> rfl

theorem Frame.node_setChild (f : Frame κ) (hole p x : Option Nat) : (f.node hole p).setChild f.side x = f.node x p := by
  unfold Frame.node
  cases f.side <;> rfl

-- The way from a subtree up: its parent first.
abbrev Ctx (κ : Type u) := List (Frame κ)

def Ctx.parent : Ctx κ → Option Nat
  | [] => none
  | f::_ => some f.id

def Ctx.ids : Ctx κ → List Nat
  | [] => []
  | f::c => f.id::(f.sibling.ids++Ctx.ids c)

def RepCtx (h : Heap κ) : Ctx κ → Option Nat → Prop
  | [],_ => True
  | f::c,hole => h f.id = f.node hole (Ctx.parent c) ∧ Rep h (some f.id) f.sibling ∧ RepCtx h c (some f.id)

theorem RepCtx.congr {h h' : Heap κ} {c : Ctx κ} (rep : RepCtx h c hole) (same : ∀ j ∈ Ctx.ids c, h' j = h j) :
    RepCtx h' c hole := by
  induction c generalizing hole with
  | nil => trivial
  | cons f c ih =>
    obtain ⟨here,sibling,rest⟩ := rep
    refine ⟨?_,sibling.congr fun j member => same j (List.mem_cons_of_mem _ (List.mem_append_left _ member)),
      ih rest fun j member => same j (List.mem_cons_of_mem _ (List.mem_append_right _ member))⟩
    rw [same f.id List.mem_cons_self]
    exact here

-- A heap that holds a whole tree, seen from one of its subtrees.
structure Focus (h : Heap κ) (c : Ctx κ) (t : NodeTree κ) : Prop where
  ctx : RepCtx h c t.ptr
  rep : Rep h (Ctx.parent c) t
  nodup : (Ctx.ids c++t.ids).Nodup

theorem focus_ids (f : Frame κ) (c : Ctx κ) (t : NodeTree κ) : (Ctx.ids c++(f.fill t).ids).Perm
    (Ctx.ids (f::c)++t.ids) := by
  apply ((f.fill_ids t).append_left _).trans
  apply List.perm_middle.trans
  simp only [Ctx.ids,List.cons_append,List.append_assoc]
  apply List.Perm.cons _
  rw [←List.append_assoc,←List.append_assoc]
  exact List.perm_append_comm.append_right _

theorem focus_fill {h : Heap κ} {f : Frame κ} {c : Ctx κ} {t : NodeTree κ} : Focus h c (f.fill t) ↔
    Focus h (f::c) t := by
  constructor
  · intro focus
    obtain ⟨here,hole,sibling⟩ := rep_fill.mp focus.rep
    have ctx := focus.ctx
    rw [Frame.fill_ptr] at ctx
    exact ⟨⟨here,sibling,ctx⟩,hole,(focus_ids f c t).nodup_iff.mp focus.nodup⟩
  · intro focus
    obtain ⟨here,sibling,ctx⟩ := focus.ctx
    refine ⟨?_,rep_fill.mpr ⟨here,focus.rep,sibling⟩,(focus_ids f c t).nodup_iff.mpr focus.nodup⟩
    rw [Frame.fill_ptr]
    exact ctx

def plug : Ctx κ → NodeTree κ → NodeTree κ
  | [],t => t
  | f::c,t => plug c (f.fill t)

theorem focus_plug {h : Heap κ} {c c' : Ctx κ} {t : NodeTree κ} : Focus h (c++c') t ↔ Focus h c' (plug c t) := by
  induction c generalizing t with
  | nil => exact Iff.rfl
  | cons f c ih =>
    rw [List.cons_append,←focus_fill]
    exact ih

theorem Focus.update {h : Heap κ} {f f' : Frame κ} {c : Ctx κ} {t : NodeTree κ} {g : Node κ → Node κ}
    (focus : Focus h (f::c) t)
    (id : f'.id = f.id) (sibling : f'.sibling = f.sibling) (node : ∀ hole p, g (f.node hole p) = f'.node hole p) :
    Focus (modify h f.id g) (f'::c) t := by
  obtain ⟨here,rest,ctx⟩ := focus.ctx
  have nodup := focus.nodup
  have outside : ∀ j ∈ f.sibling.ids++(Ctx.ids c++t.ids), modify h f.id g j = h j := by
    intro j member
    refine modify_other h g fun same => ?_
    have split := List.nodup_cons.mp (by simpa only [Ctx.ids,List.cons_append,List.append_assoc] using nodup)
    exact split.1 (same ▸ member)
  refine ⟨⟨?_,?_,?_⟩,?_,?_⟩
  · rw [id,modify_same,here]
    exact node _ _
  · rw [id,sibling]
    exact rest.congr fun j member => outside j (List.mem_append_left _ member)
  · rw [id]
    exact ctx.congr fun j member => outside j (List.mem_append_right _ (List.mem_append_left _ member))
  · have inside := focus.rep.congr fun j member => outside j (List.mem_append_right _ (List.mem_append_right _ member))
    simpa only [Ctx.parent,id] using inside
  · simpa only [Ctx.ids,id,sibling] using nodup

section Focus

variable {κ : Type u} {h h' : Heap κ} {f : Frame κ} {c : Ctx κ} {t : NodeTree κ}

theorem Ctx.ids_map {g : Frame κ → Frame κ} (id : ∀ x, (g x).id = x.id)
    (sibling : ∀ x, (g x).sibling = x.sibling) (c : Ctx κ) :
    Ctx.ids (c.map g) = Ctx.ids c := by
  induction c with
  | nil => rfl
  | cons x c ih => simp only [List.map_cons,Ctx.ids,id,sibling,ih]

theorem Ctx.ids_append (c c' : Ctx κ) : Ctx.ids (c++c') = Ctx.ids c++Ctx.ids c' := by
  induction c with
  | nil => rfl
  | cons f c ih => simp only [List.cons_append,Ctx.ids,ih,List.append_assoc]

theorem modify_comm (apart : i ≠ j) (m n : Node κ → Node κ) :
    modify (modify h i m) j n = modify (modify h j n) i m := by
  funext x
  unfold NodeHeap.modify
  by_cases xi : x = i
  · have xj : x ≠ j := fun same => apart (xi.symm.trans same)
    simp [xi,apart]
  · simp [xi]

theorem plug_ptr_congr {t' : NodeTree κ} (same : t.ptr = t'.ptr) : (plug c t).ptr = (plug c t').ptr := by
  induction c generalizing t t' with
  | nil => exact same
  | cons f c ih => exact ih (by rw [Frame.fill_ptr,Frame.fill_ptr])

theorem focus_node (focus : Focus h (f::c) t) : h f.id = f.node t.ptr (Ctx.parent c) := focus.ctx.1

theorem focus_key (focus : Focus h (f::c) t) : (h f.id).key = f.key := by
  rw [focus_node focus]
  exact f.node_key _ _

theorem focus_child (focus : Focus h (f::c) t) : (h f.id).child f.side = t.ptr := by
  rw [focus_node focus]
  exact f.node_child _ _

theorem RepCtx.child_iff (ctx : RepCtx h (f::c) (some x)) (out : x ∉ Ctx.ids (f::c)) (d : Side) :
    (h f.id).child d = some x ↔ f.side = d := by
  rw [ctx.1]
  constructor
  · intro link
    by_contra apart
    have other : d = f.side.other := by
      cases side : f.side <;> cases d <;> simp_all [Side.other]
    rw [other,Frame.node_sibling] at link
    exact out (List.mem_cons_of_mem _ (List.mem_append_left _ (NodeTree.ptr_mem link)))
  · rintro rfl
    exact Frame.node_child _ _ _

theorem Focus.out (focus : Focus h c t) (here : t.ptr = some x) : x ∉ Ctx.ids c := fun member =>
  (List.nodup_append.mp focus.nodup).2.2 x member x (NodeTree.ptr_mem here) rfl

theorem hangs_left (focus : Focus h (f::c) t) (here : t.ptr = some x) : (h f.id).left = some x ↔ f.side = .left :=
  RepCtx.child_iff (here ▸ focus.ctx) (focus.out here) .left

theorem outside_focus (focus : Focus h (f::c) t) (member : j ∈ Ctx.ids c) : j ∉ f.id::(f.sibling.ids++t.ids) := by
  intro inside
  have up := focus_fill.mpr focus
  exact (List.nodup_append.mp up.nodup).2.2 j member j ((f.fill_ids t).mem_iff.mpr inside) rfl

theorem frame_nodup (focus : Focus h (f::c) t) : (f.id::(f.sibling.ids++t.ids)).Nodup :=
  (f.fill_ids t).nodup_iff.mp (List.nodup_append.mp (focus_fill.mpr focus).nodup).2.1

theorem RepCtx.hang (ctx : RepCtx h (f::c) p) (node : h' f.id = f.node t.ptr (Ctx.parent c))
    (outside : ∀ j ∈ f.sibling.ids++Ctx.ids c, h' j = h j) (rep : Rep h' (some f.id) t)
    (nodup : (Ctx.ids (f::c)++t.ids).Nodup) :
    Focus h' (f::c) t := by
  refine ⟨⟨node,?_,?_⟩,rep,nodup⟩
  · exact ctx.2.1.congr fun j member => outside j (List.mem_append_left _ member)
  · exact ctx.2.2.congr fun j member => outside j (List.mem_append_right _ member)

theorem Focus.replace {t' : NodeTree κ} (focus : Focus h (f::c) t) (hole : h' f.id = (h f.id).setChild f.side t'.ptr)
    (same : ∀ j ∈ f.sibling.ids++Ctx.ids c, h' j = h j) (rep : Rep h' (some f.id) t')
    (nodup : (Ctx.ids (f::c)++t'.ids).Nodup) :
    Focus h' (f::c) t' := by
  refine focus.ctx.hang ?_ same rep nodup
  rw [hole,focus_node focus]
  exact f.node_setChild _ _ _

theorem Focus.room {S : NodeTree κ} (focus : Focus h (f::c) t) (entries : S.entries = (f.fill t).entries) :
    RepCtx h c (some f.id) ∧ (Ctx.ids c++S.ids).Nodup ∧ f.id ∉ Ctx.ids c := by
  have up := focus_fill.mpr focus
  have ids : S.ids = (f.fill t).ids := by rw [←NodeTree.ids_entries,entries,NodeTree.ids_entries]
  refine ⟨f.fill_ptr t ▸ up.ctx,?_,up.out (f.fill_ptr t)⟩
  rw [ids]
  exact up.nodup

end Focus

-- The rotation that takes p down to side d of its child q on the other side. A rank counts the nodes
-- from the leftmost of its subtree.
def rotate (d : Side) (h : Heap κ) (p q : Nat) : Heap κ :=
  let m := (h q).child d
  let h := modify h p (·.setChild d.other m)
  let h := reparent h m (some p)
  let h := modify h q (·.setChild d (some p))
  let h := modify h p (·.setParent (some q))
  match d with
  | .left => modify h q fun n => n.setRank (n.rank+(h p).rank)
  | .right => modify h p fun n => n.setRank (n.rank-(h q).rank)

def downRank (d : Side) (p q : BitVec 30) : BitVec 30 :=
  match d with
  | .left => p
  | .right => p-q

def upRank (d : Side) (p q : BitVec 30) : BitVec 30 :=
  match d with
  | .left => q+p
  | .right => q

section Rotate

variable {d : Side} {h : Heap κ} {p q : Nat}

theorem rotate_down (apart : p ≠ q) (mp : (h q).child d ≠ some p) (mq : (h q).child d ≠ some q) :
    rotate d h p q p = (((h p).setChild d.other ((h q).child d)).setParent (some q)).setRank
    (downRank d (h p).rank (h q).rank) := by
  cases d with
  | left =>
    simp only [rotate,modify_other _ _ apart,modify_same,reparent_other _ _ mp]
    rfl
  | right =>
    simp only [rotate,modify_same,modify_other _ _ apart,modify_other _ _ apart.symm,reparent_other _ _ mp,
      reparent_other _ _ mq]
    rfl

theorem rotate_up (apart : p ≠ q) (mp : (h q).child d ≠ some p) (mq : (h q).child d ≠ some q) :
    rotate d h p q q = ((h q).setChild d (some p)).setRank (upRank d (h p).rank (h q).rank) := by
  cases d with
  | left =>
    simp only [rotate,modify_same,modify_other _ _ apart,modify_other _ _ apart.symm,reparent_other _ _ mp,
      reparent_other _ _ mq]
    rfl
  | right =>
    simp only [rotate,modify_same,modify_other _ _ apart.symm,reparent_other _ _ mq]
    rfl

theorem rotate_else (jp : j ≠ p) (jq : j ≠ q) : rotate d h p q j = reparent h ((h q).child d) (some p) j := by
  have inner : reparent (modify h p (·.setChild d.other ((h q).child d))) ((h q).child d) (some p) j = reparent h
    ((h q).child d) (some p) j := by
    cases (h q).child d with
    | none =>
      unfold reparent
      exact modify_other h _ jp
    | some m =>
      unfold reparent modify
      simp [jp]
  cases d with
  | left =>
    simp only [rotate,modify_other _ _ jp,modify_other _ _ jq]
    exact inner
  | right =>
    simp only [rotate,modify_other _ _ jp,modify_other _ _ jq]
    exact inner

end Rotate

theorem rotate_rep {d : Side} {h : Heap κ} {f g : Frame κ} {A B : NodeTree κ} {x y z : Option Nat}
    (fd : f.side = d) (gd : g.side = d)
    (down : h f.id = f.node A.ptr x) (up : h g.id = g.node B.ptr y)
    (a : Rep h (some f.id) A) (b : Rep h z B) (c : Rep h (some g.id) g.sibling)
    (nodup : (f.id::g.id::(A.ids++(B.ids++g.sibling.ids))).Nodup) :
    Rep (rotate d h f.id g.id) y ({g with rank := upRank d f.rank g.rank}.fill
      ({f with rank := downRank d f.rank g.rank,sibling := B}.fill A)) ∧
    ∀ j ∉ f.id::g.id::B.ids, rotate d h f.id g.id j = h j := by
  obtain ⟨fout,nodup⟩ := List.nodup_cons.mp nodup
  obtain ⟨gout,nodup⟩ := List.nodup_cons.mp nodup
  obtain ⟨_,nodup,aout⟩ := List.nodup_append.mp nodup
  obtain ⟨bnodup,_,bout⟩ := List.nodup_append.mp nodup
  have apart : f.id ≠ g.id := fun same => fout (same ▸ List.mem_cons_self)
  have middle : (h g.id).child d = B.ptr := by
    rw [up,←gd]
    exact g.node_child _ _
  have mp : (h g.id).child d ≠ some f.id := by
    rw [middle]
    intro same
    exact fout (List.mem_cons_of_mem _ (List.mem_append_right _ (List.mem_append_left _ (NodeTree.ptr_mem same))))
  have mq : (h g.id).child d ≠ some g.id := by
    rw [middle]
    intro same
    exact gout (List.mem_append_right _ (List.mem_append_left _ (NodeTree.ptr_mem same)))
  have else_ : ∀ j ∉ f.id::g.id::B.ids, rotate d h f.id g.id j = h j := by
    intro j out
    have jf : j ≠ f.id := fun same => out (same ▸ List.mem_cons_self)
    have jg : j ≠ g.id := fun same => out (same ▸ List.mem_cons_of_mem _ List.mem_cons_self)
    rw [rotate_else jf jg,middle]
    refine reparent_other h _ fun same => out ?_
    exact List.mem_cons_of_mem _ (List.mem_cons_of_mem _ (NodeTree.ptr_mem same))
  have aSame : ∀ j ∈ A.ids, rotate d h f.id g.id j = h j := by
    intro j member
    refine else_ j fun inside => ?_
    rcases List.mem_cons.mp inside with same | inside
    · exact fout (same ▸ List.mem_cons_of_mem _ (List.mem_append_left _ member))
    · rcases List.mem_cons.mp inside with same | inside
      · exact gout (same ▸ List.mem_append_left _ member)
      · exact aout j member j (List.mem_append_left _ inside) rfl
  have cSame : ∀ j ∈ g.sibling.ids, rotate d h f.id g.id j = h j := by
    intro j member
    refine else_ j fun inside => ?_
    rcases List.mem_cons.mp inside with same | inside
    · exact fout (same ▸ List.mem_cons_of_mem _ (List.mem_append_right _ (List.mem_append_right _ member)))
    · rcases List.mem_cons.mp inside with same | inside
      · exact gout (same ▸ List.mem_append_right _ (List.mem_append_right _ member))
      · exact bout j inside j member rfl
  have bSame : ∀ j ∈ B.ids, rotate d h f.id g.id j = reparent h B.ptr (some f.id) j := by
    intro j member
    have jf : j ≠ f.id := fun same =>
      fout (same ▸ List.mem_cons_of_mem _ (List.mem_append_right _ (List.mem_append_left _ member)))
    have jg : j ≠ g.id := fun same => gout (same ▸ List.mem_append_right _ (List.mem_append_left _ member))
    rw [rotate_else jf jg,middle]
  refine ⟨?_,else_⟩
  rw [rep_fill]
  refine ⟨?_,?_,c.congr cSame⟩
  · rw [rotate_up apart mp mq,down,up,Frame.fill_ptr]
    unfold Frame.node
    subst gd
    cases g.side <;> cases f.side <;> rfl
  · rw [rep_fill]
    refine ⟨?_,a.congr aSame,(b.reparent bnodup (some f.id)).congr bSame⟩
    rw [rotate_down apart mp mq,middle,down,up]
    unfold Frame.node
    subst fd
    cases f.side <;> cases g.side <;> rfl

end NodeHeap
