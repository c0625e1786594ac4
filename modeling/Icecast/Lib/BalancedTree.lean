import Mathlib.Data.List.Induction
import Icecast.Lib.NodeHeap

namespace NodeHeap

-- Every balance is the height of the right subtree less that of the left, and at most one.
def Balanced : NodeTree κ → Prop
  | .nil => True
  | .node _ l _ b _ r => b = (r.height : Int)-l.height ∧ -1 ≤ b ∧ b ≤ 1 ∧ Balanced l ∧ Balanced r

-- Every rank is one more than the size of the left subtree, in the 30 bits there are for it.
def Ranked : NodeTree κ → Prop
  | .nil => True
  | .node _ l _ _ rk r => rk = BitVec.ofNat 30 (l.size+1) ∧ Ranked l ∧ Ranked r

-- Every rank is one more than the size of the left subtree, as a number.
def Numbered : NodeTree κ → Prop
  | .nil => True
  | .node _ l _ _ rk r => rk.toNat = l.size+1 ∧ Numbered l ∧ Numbered r

theorem Ranked.numbered {t : NodeTree κ} (ranked : Ranked t) (few : t.size < 2^30) : Numbered t := by
  induction t with
  | nil => trivial
  | node x l k b rk r ihl ihr =>
    obtain ⟨rank,left,right⟩ := ranked
    unfold NodeTree.size at few
    refine ⟨?_,ihl left (by omega),ihr right (by omega)⟩
    rw [rank,BitVec.toNat_ofNat]
    exact Nat.mod_eq_of_lt (by omega)

def NodeTree.balance : NodeTree κ → Int
  | .nil => 0
  | .node _ _ _ b _ _ => b

@[simp] theorem Frame.fill_height (f : Frame κ) (t : NodeTree κ) :
    (f.fill t).height = 1+max t.height f.sibling.height := by
  unfold Frame.fill
  cases f.side with
  | left => rfl
  | right =>
    simp only [NodeTree.height]
    omega

@[simp] theorem Frame.fill_size (f : Frame κ) (t : NodeTree κ) : (f.fill t).size = t.size+1+f.sibling.size := by
  unfold Frame.fill
  cases f.side with
  | left => rfl
  | right =>
    simp only [NodeTree.size]
    omega

@[simp] theorem Frame.fill_balance (f : Frame κ) (t : NodeTree κ) : (f.fill t).balance = f.balance := by
  unfold Frame.fill
  cases f.side <;> rfl

-- A frame as the balance of a tree with a hole of height n sees it.
structure Frame.Level (f : Frame κ) (n : Nat) : Prop where
  sibling : Balanced f.sibling
  balance : f.balance = f.side.sign*((n : Int)-f.sibling.height)
  low : -1 ≤ f.balance
  high : f.balance ≤ 1

theorem balanced_fill {f : Frame κ} {t : NodeTree κ} : Balanced (f.fill t) ↔ Balanced t ∧ f.Level t.height := by
  unfold Frame.fill
  cases side : f.side with
  | left =>
    constructor
    · rintro ⟨b,low,high,left,right⟩
      exact ⟨left,right,by rw [side,b,Side.sign]; omega,low,high⟩
    · rintro ⟨left,level⟩
      have b := level.balance
      rw [side,Side.sign] at b
      exact ⟨by omega,level.low,level.high,left,level.sibling⟩
  | right =>
    constructor
    · rintro ⟨b,low,high,left,right⟩
      exact ⟨right,left,by rw [side,b,Side.sign]; omega,low,high⟩
    · rintro ⟨right,level⟩
      have b := level.balance
      rw [side,Side.sign] at b
      exact ⟨by omega,level.low,level.high,level.sibling,right⟩

-- A context that is balanced around a hole of height n.
def LevelCtx : Ctx κ → Nat → Prop
  | [],_ => True
  | f::c,n => f.Level n ∧ LevelCtx c (1+max n f.sibling.height)

theorem balanced_plug {c : Ctx κ} {t : NodeTree κ} : Balanced (plug c t) ↔ Balanced t ∧ LevelCtx c t.height := by
  induction c generalizing t with
  | nil => exact ⟨fun b => ⟨b,trivial⟩,fun b => b.1⟩
  | cons f c ih =>
    unfold plug LevelCtx
    rw [ih,balanced_fill,Frame.fill_height]
    exact and_assoc

def Frame.rankOf (f : Frame κ) (n : Nat) : BitVec 30 :=
  match f.side with
  | .left => BitVec.ofNat 30 (n+1)
  | .right => BitVec.ofNat 30 (f.sibling.size+1)

def Frame.Ranks (f : Frame κ) (n : Nat) : Prop := Ranked f.sibling ∧ f.rank = f.rankOf n

theorem ranked_fill {f : Frame κ} {t : NodeTree κ} : Ranked (f.fill t) ↔ Ranked t ∧ f.Ranks t.size := by
  unfold Frame.fill Frame.Ranks Frame.rankOf
  cases f.side with
  | left => exact ⟨fun ⟨rk,left,right⟩ => ⟨left,right,rk⟩,fun ⟨left,right,rk⟩ => ⟨rk,left,right⟩⟩
  | right => exact ⟨fun ⟨rk,left,right⟩ => ⟨right,left,rk⟩,fun ⟨right,left,rk⟩ => ⟨rk,left,right⟩⟩

def RanksCtx : Ctx κ → Nat → Prop
  | [],_ => True
  | f::c,n => f.Ranks n ∧ RanksCtx c (n+1+f.sibling.size)

theorem ranked_plug {c : Ctx κ} {t : NodeTree κ} : Ranked (plug c t) ↔ Ranked t ∧ RanksCtx c t.size := by
  induction c generalizing t with
  | nil => exact ⟨fun b => ⟨b,trivial⟩,fun b => b.1⟩
  | cons f c ih =>
    unfold plug RanksCtx
    rw [ih,ranked_fill,Frame.fill_size]
    exact and_assoc

-- What stands before and after the hole, in order.
def Frame.before (f : Frame κ) : List (Nat × κ) :=
  match f.side with
  | .left => []
  | .right => f.sibling.entries++[(f.id,f.key)]

def Frame.after (f : Frame κ) : List (Nat × κ) :=
  match f.side with
  | .left => (f.id,f.key)::f.sibling.entries
  | .right => []

def before : Ctx κ → List (Nat × κ)
  | [] => []
  | f::c => before c++f.before

def after : Ctx κ → List (Nat × κ)
  | [] => []
  | f::c => f.after++after c

theorem Frame.fill_entries (f : Frame κ) (t : NodeTree κ) : (f.fill t).entries = f.before++(t.entries++f.after) := by
  unfold Frame.fill Frame.before Frame.after
  cases f.side <;> simp [NodeTree.entries]

theorem plug_entries (c : Ctx κ) (t : NodeTree κ) : (plug c t).entries = before c++(t.entries++after c) := by
  induction c generalizing t with
  | nil => simp [plug,before,after]
  | cons f c ih =>
    unfold plug before after
    rw [ih,Frame.fill_entries]
    simp only [List.append_assoc]

theorem plug_append (c c' : Ctx κ) (t : NodeTree κ) : plug (c++c') t = plug c' (plug c t) := by
  induction c generalizing t with
  | nil => rfl
  | cons f c ih => exact ih (f.fill t)

section Contexts

variable {κ : Type u} {c : Ctx κ} {t T : NodeTree κ} {g : Frame κ → Frame κ}

theorem before_append (c c' : Ctx κ) : before (c++c') = before c'++before c := by
  induction c with
  | nil => simp [before]
  | cons f c ih => simp only [List.cons_append,before,ih,List.append_assoc]

theorem after_append (c c' : Ctx κ) : after (c++c') = after c++after c' := by
  induction c with
  | nil => rfl
  | cons f c ih => simp only [List.cons_append,after,ih,List.append_assoc]

theorem plug_map_ptr {g : Frame κ → Frame κ} (id : ∀ x, (g x).id = x.id) : (plug (c.map g) t).ptr = (plug c t).ptr := by
  induction c using List.reverseRecOn with
  | nil => rfl
  | append_singleton c f ih =>
    rw [List.map_append,plug_append,plug_append]
    simp only [List.map_cons,List.map_nil,plug,Frame.fill_ptr,id]

theorem plug_map_height {t' : NodeTree κ} (sibling : ∀ f, (g f).sibling = f.sibling) (same : t'.height = t.height) :
    (plug (c.map g) t').height = (plug c t).height := by
  induction c generalizing t t' with
  | nil => exact same
  | cons f c ih =>
    apply ih
    rw [Frame.fill_height,Frame.fill_height,same,sibling]

theorem before_map {g : Frame κ → Frame κ} (same : ∀ f, (g f).before = f.before) (c : Ctx κ) :
    before (c.map g) = before c := by
  induction c with
  | nil => rfl
  | cons f c ih => simp only [List.map_cons,before,ih,same]

theorem after_map {g : Frame κ → Frame κ} (same : ∀ f, (g f).after = f.after) (c : Ctx κ) :
    after (c.map g) = after c := by
  induction c with
  | nil => rfl
  | cons f c ih => simp only [List.map_cons,after,ih,same]

theorem length_plug (c : Ctx κ) (t : NodeTree κ) : c.length+t.size ≤ (plug c t).size := by
  induction c generalizing t with
  | nil => simp [plug]
  | cons f c ih =>
    have rest := ih (f.fill t)
    rw [Frame.fill_size] at rest
    rw [List.length_cons,plug]
    omega

theorem height_size (t : NodeTree κ) : t.height ≤ t.size := by
  induction t with
  | nil => exact Nat.le_refl _
  | node id l k b rk r ihl ihr =>
    simp only [NodeTree.height,NodeTree.size]
    omega

theorem level_append {c c' : Ctx κ} {t : NodeTree κ} :
    LevelCtx (c++c') t.height ↔ LevelCtx c t.height ∧ LevelCtx c' (plug c t).height := by
  induction c generalizing t with
  | nil => exact ⟨fun l => ⟨trivial,l⟩,fun l => l.2⟩
  | cons f c ih =>
    rw [List.cons_append,LevelCtx,LevelCtx,and_assoc,plug,←f.fill_height,←ih]

theorem level_map (sibling : ∀ f, (g f).sibling = f.sibling) (level : ∀ f n, (g f).Level n ↔ f.Level n) :
    LevelCtx (c.map g) n ↔ LevelCtx c n := by
  induction c generalizing n with
  | nil => exact Iff.rfl
  | cons f c ih =>
    rw [List.map_cons,LevelCtx,LevelCtx,level,sibling,ih]

theorem ranks_append {c c' : Ctx κ} : RanksCtx (c++c') t.size ↔ RanksCtx c t.size ∧ RanksCtx c' (plug c t).size := by
  induction c generalizing t with
  | nil => exact ⟨fun l => ⟨trivial,l⟩,fun l => l.2⟩
  | cons f c ih =>
    rw [List.cons_append,RanksCtx,RanksCtx,and_assoc,plug,←f.fill_size,←ih]

theorem RanksCtx.map {i j : Nat} (sibling : ∀ f, (g f).sibling = f.sibling)
    (step : ∀ f n, f.Ranks (n+i) → (g f).Ranks (n+j))
    (ranks : RanksCtx c (n+i)) : RanksCtx (c.map g) (n+j) := by
  induction c generalizing n with
  | nil => trivial
  | cons f c ih =>
    obtain ⟨here,rest⟩ := ranks
    refine ⟨step f n here,?_⟩
    have before : n+i+1+f.sibling.size = n+1+f.sibling.size+i := by omega
    have after : n+j+1+(g f).sibling.size = n+1+f.sibling.size+j := by
      rw [sibling]
      omega
    rw [before] at rest
    rw [after]
    exact ih rest

theorem after_right {c : Ctx κ} (sides : ∀ e ∈ c, e.side = Side.right) : after c = [] := by
  induction c with
  | nil => rfl
  | cons e c ih =>
    unfold after Frame.after
    rw [sides e List.mem_cons_self,ih fun e member => sides e (List.mem_cons_of_mem _ member)]
    rfl

theorem mem_keys {f : Frame κ} (member : f ∈ c) (t : NodeTree κ) : f.key ∈ (plug c t).keys := by
  induction c generalizing t with
  | nil => cases member
  | cons g c ih =>
    rcases List.mem_cons.mp member with rfl | member
    · rw [plug,←NodeTree.keys_entries,plug_entries,Frame.fill_entries]
      unfold Frame.before Frame.after
      cases f.side <;> simp
    · exact ih member (g.fill t)

theorem exists_plug (member : (x,k) ∈ T.entries) : ∃ c f X, plug c (Frame.fill f X) = T ∧ f.side = .left ∧
    f.id = x ∧ f.key = k := by
  induction T with
  | nil => cases member
  | node id l k' b rk r ihl ihr =>
    rcases List.mem_append.mp member with member | member
    · obtain ⟨c,f,X,whole,same⟩ := ihl member
      refine ⟨c++[⟨.left,id,k',b,rk,r⟩],f,X,?_,same⟩
      rw [plug_append,whole]
      rfl
    · rcases List.mem_cons.mp member with equal | member
      · cases equal
        exact ⟨[],⟨.left,x,k,b,rk,r⟩,l,rfl,rfl,rfl,rfl⟩
      · obtain ⟨c,f,X,whole,same⟩ := ihr member
        refine ⟨c++[⟨.right,id,k',b,rk,l⟩],f,X,?_,same⟩
        rw [plug_append,whole]
        rfl

end Contexts

-- A node that is seen from one of its subtrees can be seen from the other.
def Frame.flip (f : Frame κ) (t : NodeTree κ) : Frame κ := {f with side := f.side.other,sibling := t}

theorem Frame.fill_flip (f : Frame κ) (t : NodeTree κ) : (f.flip t).fill f.sibling = f.fill t := by
  obtain ⟨side,id,key,b,rk,sibling⟩ := f
  cases side <;> rfl

theorem exists_frame (d : Side) {t : NodeTree κ} (filled : t.ptr = some i) : ∃ f : Frame κ, ∃ s, f.side = d ∧
    f.id = i ∧ t = f.fill s := by
  cases t with
  | nil => cases filled
  | node id l key b rk r =>
    cases filled
    cases d with
    | left => exact ⟨⟨.left,i,key,b,rk,r⟩,l,rfl,rfl,rfl⟩
    | right => exact ⟨⟨.right,i,key,b,rk,l⟩,r,rfl,rfl,rfl⟩

theorem focus_balance {h : Heap κ} {c : Ctx κ} {t : NodeTree κ} (focus : Focus h c t) (here : t.ptr = some q) :
    (h q).balance = t.balance := by
  obtain ⟨f,X,_,rfl,rfl⟩ := exists_frame .left here
  rw [focus_node (focus_fill.mp focus),Frame.node_balance,Frame.fill_balance]

theorem parent_here {h : Heap κ} {f : Frame κ} {c : Ctx κ} {t : NodeTree κ} (focus : Focus h (f::c) t)
    (here : t.ptr = some x) :
    (h x).parent = some f.id := by
  obtain ⟨z,X,_,rfl,rfl⟩ := exists_frame .left here
  rw [focus_node (focus_fill.mp focus),Frame.node_parent]
  rfl

theorem Frame.node_flip (f : Frame κ) (t : NodeTree κ) (p : Option Nat) :
    (f.flip t).node f.sibling.ptr p = f.node t.ptr p := by
  obtain ⟨side,id,key,b,rk,sibling⟩ := f
  cases side <;> rfl

-- What a rotation makes of f over A, its sibling being g over B.
def rotated (d : Side) (f g : Frame κ) (A B : NodeTree κ) : NodeTree κ :=
  {g with rank := upRank d f.rank g.rank}.fill ({f with rank := downRank d f.rank g.rank,sibling := B}.fill A)

theorem rotated_entries {d : Side} {f g : Frame κ} {A B : NodeTree κ} (fd : f.side = d) (gd : g.side = d)
    (sibling : f.sibling = g.fill B) :
    (rotated d f g A B).entries = (f.fill A).entries := by
  obtain ⟨side,id,key,b,rk,fsib⟩ := f
  obtain ⟨gside,gid,gkey,gb,grk,gsib⟩ := g
  cases fd
  cases gd
  cases sibling
  cases side <;> simp [rotated,Frame.fill,NodeTree.entries]

theorem rotated_ranked {d : Side} {f g : Frame κ} {A B : NodeTree κ} (fd : f.side = d) (gd : g.side = d)
    (sibling : f.sibling = g.fill B)
    (ranked : Ranked (f.fill A)) : Ranked (rotated d f g A B) := by
  obtain ⟨side,id,key,b,rk,fsib⟩ := f
  obtain ⟨gside,gid,gkey,gb,grk,gsib⟩ := g
  cases fd
  cases gd
  cases sibling
  cases side with
  | left =>
    obtain ⟨rk,a,grk,b,c⟩ := ranked
    refine ⟨?_,⟨rk,a,b⟩,c⟩
    rw [upRank,rk,grk,BitVec.add_comm,←BitVec.ofNat_add]
    exact congrArg (BitVec.ofNat 30) (Nat.add_assoc _ _ _).symm
  | right =>
    obtain ⟨whole,⟨part,c,b⟩,a⟩ := ranked
    have sizes : (NodeTree.node gid gsib gkey gb grk B).size+1 = (B.size+1)+(gsib.size+1) := by
      simp only [NodeTree.size]
      omega
    refine ⟨part,c,?_,b,a⟩
    rw [downRank,whole,part]
    change BitVec.ofNat 30 ((NodeTree.node gid gsib gkey gb grk B).size+1)-_ = _
    rw [sizes,BitVec.ofNat_add,BitVec.add_sub_cancel]

-- The balance of one node set to b.
def NodeTree.withBalance (i : Nat) (b : Int) : NodeTree κ → NodeTree κ
  | .nil => .nil
  | .node id l k b0 rk r => .node id (l.withBalance i b) k (if id = i then b else b0) rk (r.withBalance i b)

@[simp] theorem withBalance_ptr (t : NodeTree κ) : (t.withBalance i b).ptr = t.ptr := by cases t <;> rfl

@[simp] theorem withBalance_entries (t : NodeTree κ) : (t.withBalance i b).entries = t.entries := by
  induction t with
  | nil => rfl
  | node id l k b0 rk r ihl ihr => simp [NodeTree.withBalance,NodeTree.entries,ihl,ihr]

@[simp] theorem withBalance_size (t : NodeTree κ) : (t.withBalance i b).size = t.size := by
  rw [←NodeTree.length_ids,←NodeTree.length_ids,←NodeTree.ids_entries,←NodeTree.ids_entries,withBalance_entries]

theorem withBalance_else {t : NodeTree κ} (out : i ∉ t.ids) : t.withBalance i b = t := by
  induction t with
  | nil => rfl
  | node id l k b0 rk r ihl ihr =>
    simp only [NodeTree.ids,List.mem_append,List.mem_cons,not_or] at out
    rw [NodeTree.withBalance,ihl out.1,ihr out.2.2,if_neg (Ne.symm out.2.1)]

theorem withBalance_fill (f : Frame κ) (t : NodeTree κ) : (f.fill t).withBalance i b =
    {f with balance := if f.id = i then b else f.balance,sibling := f.sibling.withBalance i b}.fill
    (t.withBalance i b) := by
  obtain ⟨side,id,key,b0,rk,sibling⟩ := f
  cases side <;> rfl

theorem Rep.withBalance {h : Heap κ} {t : NodeTree κ} (rep : Rep h p t) (i : Nat) (b : Int) :
    Rep (modify h i (·.setBalance b)) p (t.withBalance i b) := by
  induction t generalizing p with
  | nil => trivial
  | node id l k b0 rk r ihl ihr =>
    obtain ⟨here,left,right⟩ := rep
    refine ⟨?_,ihl left,ihr right⟩
    unfold modify
    by_cases same : id = i
    · rw [if_pos same,if_pos same,here,withBalance_ptr,withBalance_ptr]
      rfl
    · rw [if_neg same,if_neg same,here,withBalance_ptr,withBalance_ptr]

-- A comparison function that orders the keys, keys that compare equal not necessarily being one.
structure Preordered (compare : κ → κ → Int) : Prop where
  flip : ∀ a b, compare a b < 0 ↔ 0 < compare b a
  trans : ∀ a b c, compare a b ≤ 0 → compare b c ≤ 0 → compare a c ≤ 0

theorem Preordered.refl {compare : κ → κ → Int} (order : Preordered compare) (a : κ) : compare a a = 0 := by
  have same := order.flip a a
  omega

def Sorted (compare : κ → κ → Int) (keys : List κ) : Prop := keys.Pairwise fun a b => compare a b ≤ 0

theorem Sorted.inner {compare : κ → κ → Int} {c : Ctx κ} {t : NodeTree κ} (sorted : Sorted compare (plug c t).keys) :
    Sorted compare t.keys := by
  refine List.Pairwise.sublist ?_ sorted
  rw [←NodeTree.keys_entries,←NodeTree.keys_entries,plug_entries,List.map_append,List.map_append]
  exact (List.sublist_append_left _ _).trans (List.sublist_append_right _ _)

theorem Frame.fill_keys (f : Frame κ) (t : NodeTree κ) : (f.fill t).keys = match f.side with
    | .left => t.keys++f.key::f.sibling.keys
    | .right => f.sibling.keys++f.key::t.keys := by
  unfold Frame.fill
  cases f.side <;> rfl

-- Where a key stands among sorted keys: those before it are not above it, those after it not below it.
structure Between (compare : κ → κ → Int) (key : κ) (xs ys : List κ) : Prop where
  before : ∀ x ∈ xs, compare x key ≤ 0
  after : ∀ y ∈ ys, compare key y ≤ 0

theorem Sorted.insert {compare : κ → κ → Int} (sorted : Sorted compare (xs++ys)) (between : Between compare key xs ys) :
    Sorted compare (xs++key::ys) := by
  obtain ⟨left,right,across⟩ := List.pairwise_append.mp sorted
  refine List.pairwise_append.mpr ⟨left,List.pairwise_cons.mpr ⟨between.after,right⟩,?_⟩
  intro x xmem y ymem
  rcases List.mem_cons.mp ymem with rfl | ymem
  · exact between.before x xmem
  · exact across x xmem y ymem

theorem before_plug {compare : κ → κ → Int} {P : κ → Prop} (closed : ∀ a b, compare a b ≤ 0 → P b → P a)
    {c : Ctx κ} {t : NodeTree κ}
    (sorted : Sorted compare (plug c t).keys) (right : ∀ f ∈ c, f.side = .right → P f.key) : ∀ x ∈ before c, P x.2 := by
  induction c generalizing t with
  | nil => simp [NodeHeap.before]
  | cons f c ih =>
    have rest := ih (t := f.fill t) sorted fun g member => right g (List.mem_cons_of_mem _ member)
    have here : Sorted compare (f.fill t).keys := Sorted.inner (c := c) sorted
    rw [Frame.fill_keys] at here
    intro x member
    unfold NodeHeap.before Frame.before at member
    rcases List.mem_append.mp member with member | member
    · exact rest x member
    · cases side : f.side with
      | left =>
        rw [side] at member
        cases member
      | right =>
        rw [side] at member here
        have bound := right f List.mem_cons_self side
        rcases List.mem_append.mp member with member | member
        · obtain ⟨_,_,across⟩ := List.pairwise_append.mp here
          refine closed _ _ (across x.2 ?_ f.key List.mem_cons_self) bound
          rw [←NodeTree.keys_entries]
          exact List.mem_map_of_mem member
        · rw [List.mem_singleton.mp member]
          exact bound

theorem after_plug {compare : κ → κ → Int} {P : κ → Prop} (closed : ∀ a b, compare a b ≤ 0 → P a → P b)
    {c : Ctx κ} {t : NodeTree κ}
    (sorted : Sorted compare (plug c t).keys) (left : ∀ f ∈ c, f.side = .left → P f.key) : ∀ x ∈ after c, P x.2 := by
  induction c generalizing t with
  | nil => simp [NodeHeap.after]
  | cons f c ih =>
    have rest := ih (t := f.fill t) sorted fun g member => left g (List.mem_cons_of_mem _ member)
    have here : Sorted compare (f.fill t).keys := Sorted.inner (c := c) sorted
    rw [Frame.fill_keys] at here
    intro x member
    unfold NodeHeap.after Frame.after at member
    rcases List.mem_append.mp member with member | member
    · cases side : f.side with
      | right =>
        rw [side] at member
        cases member
      | left =>
        rw [side] at member here
        have bound := left f List.mem_cons_self side
        rcases List.mem_cons.mp member with rfl | member
        · exact bound
        · obtain ⟨_,tail,_⟩ := List.pairwise_append.mp here
          refine closed _ _ ((List.pairwise_cons.mp tail).1 x.2 ?_) bound
          rw [←NodeTree.keys_entries]
          exact List.mem_map_of_mem member
    · exact rest x member

-- A way down that keeps to the side of the comparison: what is passed on the right is not above the
-- key, what is passed on the left not below it.
theorem between_plug {compare : κ → κ → Int} (order : Preordered compare) {c : Ctx κ} {t : NodeTree κ}
    (sorted : Sorted compare (plug c t).keys)
    (left : ∀ f ∈ c, f.side = .left → compare key f.key ≤ 0) (right : ∀ f ∈ c, f.side = .right →
    compare f.key key ≤ 0) :
    Between compare key ((before c).map Prod.snd) ((after c).map Prod.snd) := by
  constructor
  · intro k member
    obtain ⟨x,inside,rfl⟩ := List.mem_map.mp member
    exact before_plug (P := fun a => compare a key ≤ 0)
      (fun a b le below => order.trans _ _ _ le below) sorted right x inside
  · intro k member
    obtain ⟨x,inside,rfl⟩ := List.mem_map.mp member
    exact after_plug (P := fun a => compare key a ≤ 0)
      (fun a b le above => order.trans _ _ _ above le) sorted left x inside

end NodeHeap
