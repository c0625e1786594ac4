import Icecast.AvlDeletion

namespace Icecast.AvlNodes
open NodeHeap

section Cursor

variable {κ : Type u} [Inhabited κ] [DecidableEq κ]

-- To the left as far as it goes.
def leftmost : Nat → Heap κ → Nat → Option Nat
  | 0,_,_ => none
  | fuel+1,h,node =>
    match (h node).left with
    | none => some node
    | some l => leftmost fuel h l

def avlGetFirst (tree : AvlTree κ) : Option (Option Nat) :=
  match (tree.heap tree.root).right with
  | none => some none
  | some node => if (tree.heap node).key = default then some none else
    (leftmost tree.nodes.length tree.heap node).map some

-- The loop of avl_get_next, up to the first node entered from the left; the dummy node has no key.
def climbNext : Nat → Heap κ → Nat → Option (Option Nat)
  | 0,_,_ => none
  | fuel+1,h,child =>
    match (h child).parent with
    | none => some none
    | some node =>
      if (h node).key = default then some none
      else if (h node).left = some child then some (some node)
      else climbNext fuel h node

def avlGetNext (tree : AvlTree κ) (node : Nat) : Option (Option Nat) :=
  match (tree.heap node).right with
  | some r => (leftmost tree.nodes.length tree.heap r).map some
  | none => climbNext tree.nodes.length tree.heap node

-- The loop of avl_get_prev, up to the first node entered from the right.
def climbPrev : Nat → Heap κ → Nat → Option (Option Nat)
  | 0,_,_ => none
  | fuel+1,h,child =>
    match (h child).parent with
    | none => some none
    | some node =>
      if (h node).key = default then some none
      else if (h node).right = some child then some (some node)
      else climbPrev fuel h node

def avlGetPrev (tree : AvlTree κ) (node : Nat) : Option (Option Nat) :=
  match (tree.heap node).left with
  | some l => (rightmost tree.nodes.length tree.heap l).map some
  | none => climbPrev tree.nodes.length tree.heap node

-- What both loops are: up to the first node entered from one side.
def climbOut (d : Side) : Nat → Heap κ → Nat → Option (Option Nat)
  | 0,_,_ => none
  | fuel+1,h,child =>
    match (h child).parent with
    | none => some none
    | some node =>
      if (h node).key = default then some none
      else if (h node).child d = some child then some (some node)
      else climbOut d fuel h node

theorem climbNext_out (fuel : Nat) (h : Heap κ) (child : Nat) :
    climbNext fuel h child = climbOut .left fuel h child := by
  induction fuel generalizing child with
  | zero => rfl
  | succ fuel ih =>
    unfold climbNext climbOut
    simp only [ih]
    rfl

theorem climbPrev_out (fuel : Nat) (h : Heap κ) (child : Nat) :
    climbPrev fuel h child = climbOut .right fuel h child := by
  induction fuel generalizing child with
  | zero => rfl
  | succ fuel ih =>
    unfold climbPrev climbOut
    simp only [ih]
    rfl

end Cursor

section Next

variable {κ : Type u} {compare : κ → κ → Int} {h : Heap κ} {c : Ctx κ} {t T : NodeTree κ}

theorem leftmost_spec (fuel : Nat) (rep : Rep h p t) (here : t.ptr = some x) (enough : t.height ≤ fuel) :
    ∃ y rest, leftmost fuel h x = some y.1 ∧ t.entries = y::rest := by
  induction t generalizing p x fuel with
  | nil => cases here
  | node id l k b rk r ihl _ =>
    cases here
    obtain ⟨node,left,_⟩ := rep
    cases fuel with
    | zero =>
      unfold NodeTree.height at enough
      omega
    | succ fuel =>
      unfold leftmost
      rw [node]
      cases l with
      | nil => exact ⟨(id,k),r.entries,rfl,rfl⟩
      | node id' l' k' b' rk' r' =>
        unfold NodeTree.height at enough
        obtain ⟨y,rest,found,entries⟩ := ihl fuel left rfl (by omega)
        exact ⟨y,rest++(id,k)::r.entries,found,by rw [NodeTree.entries,entries,List.cons_append]⟩

theorem split_unique {α : Type v} {β : Type w} (g : α → β) {u u' : α} {a b a' b' : List α}
    (same : a++u::b = a'++u'::b') (equal : g u = g u')
    (nodup : ((a++u::b).map g).Nodup) : a = a' ∧ u = u' ∧ b = b' := by
  induction a generalizing a' with
  | nil =>
    cases a' with
    | nil =>
      cases same
      exact ⟨rfl,rfl,rfl⟩
    | cons y a' =>
      obtain ⟨rfl,rfl⟩ := List.cons.inj (show u::b = y::(a'++u'::b') from same)
      rw [List.nil_append,List.map_cons,List.map_append,List.map_cons,equal] at nodup
      exact absurd (List.mem_append_right _ List.mem_cons_self) (List.nodup_cons.mp nodup).1
  | cons y a ih =>
    cases a' with
    | nil =>
      cases same
      rw [List.cons_append,List.map_cons,List.map_append,List.map_cons,equal] at nodup
      exact absurd (List.mem_append_right _ List.mem_cons_self) (List.nodup_cons.mp nodup).1
    | cons z a' =>
      obtain ⟨rfl,rest⟩ := List.cons.inj same
      obtain ⟨rfl,keys,behind⟩ := ih rest (List.nodup_cons.mp nodup).2
      exact ⟨rfl,keys,behind⟩

theorem after_head (c : Ctx κ) : (after c).head?.map Prod.fst = (c.find? (·.side = .left)).map Frame.id := by
  induction c with
  | nil => rfl
  | cons f c ih =>
    unfold NodeHeap.after Frame.after
    rw [List.find?_cons]
    cases side : f.side with
    | left => rfl
    | right => exact ih

theorem before_last (c : Ctx κ) : (before c).getLast?.map Prod.fst = (c.find? (·.side = .right)).map Frame.id := by
  induction c with
  | nil => rfl
  | cons f c ih =>
    unfold before Frame.before
    rw [List.find?_cons]
    cases side : f.side with
    | left =>
      rw [List.append_nil]
      exact ih
    | right =>
      rw [←List.append_assoc,List.getLast?_concat]
      rfl

variable [Inhabited κ]

theorem Holds.place {tree : AvlTree κ} (holds : Holds compare tree T) (entries : T.entries = a++(x,k)::b) :
    ∃ c f X, plug c (f.fill X) = T ∧ f.side = .left ∧ f.id = x ∧ a = before c++X.entries ∧
    b = f.sibling.entries++after c ∧
      Focus tree.heap (f::(c++[sentinel tree.root])) X ∧ c.length+X.size+f.sibling.size+2 ≤ tree.nodes.length := by
  have member : (x,k) ∈ T.entries := by
    rw [entries]
    exact List.mem_append_right _ List.mem_cons_self
  obtain ⟨c,f,X,whole,left,rfl,rfl⟩ := exists_plug member
  have count := holds.nodes.length_eq
  rw [List.length_cons,NodeTree.length_ids] at count
  have small := length_plug c (f.fill X)
  rw [whole,Frame.fill_size] at small
  have place : T.entries = (before c++X.entries)++(f.id,f.key)::(f.sibling.entries++after c) := by
    rw [←whole,plug_entries,Frame.fill_entries]
    simp [Frame.before,Frame.after,left]
  have nodup : (T.entries.map Prod.fst).Nodup := by
    rw [NodeTree.ids_entries]
    exact (List.nodup_append.mp holds.focus.nodup).2.1
  rw [entries] at nodup
  obtain ⟨ahead,_,behind⟩ := split_unique Prod.fst (entries.symm.trans place) rfl nodup
  have focus := holds.focus
  rw [←whole] at focus
  exact ⟨c,f,X,whole,left,rfl,ahead,behind,focus_fill.mp (focus_plug.mpr focus),by omega⟩

theorem Holds.key_eq {tree : AvlTree κ} (holds : Holds compare tree T) (member : (x,k) ∈ T.entries) :
    (tree.heap x).key = k := by
  obtain ⟨c,f,X,whole,_,rfl,rfl⟩ := exists_plug member
  have focus := holds.focus
  rw [←whole] at focus
  exact focus_key (focus_fill.mp (focus_plug.mpr focus))

theorem plug_keyed (whole : plug c (Frame.fill f t) = T) (keyed : ∀ k ∈ T.keys, k ≠ default) :
    ∀ g ∈ c, g.key ≠ default :=
  fun g inside => keyed g.key (whole ▸ mem_keys inside _)

variable [DecidableEq κ]

theorem climbOut_spec (d : Side) (fuel : Nat) (t : NodeTree κ) (focus : Focus h (c++[sentinel root]) t)
    (here : t.ptr = some x)
    (keyed : ∀ f ∈ c, f.key ≠ default) (enough : c.length < fuel) :
    climbOut d fuel h x = some ((c.find? (·.side = d)).map Frame.id) := by
  induction c generalizing t x fuel with
  | nil =>
    cases fuel with
    | zero => cases enough
    | succ fuel =>
      have parent : (h x).parent = some (sentinel (κ := κ) root).id := parent_here (c := []) focus here
      have key : (h (sentinel (κ := κ) root).id).key = default := by
        rw [focus_key (f := sentinel root) (c := []) focus]
        rfl
      unfold climbOut
      rw [parent]
      exact if_pos key
  | cons f c ih =>
    cases fuel with
    | zero => cases enough
    | succ fuel =>
      have down : Focus h (f::(c++[sentinel root])) t := focus
      have parent := parent_here down here
      have key : (h f.id).key ≠ default := by
        rw [focus_key down]
        exact keyed f List.mem_cons_self
      have hangs := RepCtx.child_iff (here ▸ down.ctx) (down.out here) d
      unfold climbOut
      rw [parent]
      dsimp only
      rw [if_neg key,List.find?_cons]
      by_cases side : f.side = d
      · rw [if_pos (hangs.mpr side),decide_eq_true side]
        rfl
      · rw [if_neg fun link => side (hangs.mp link),decide_eq_false side,
          ih fuel (f.fill t) (focus_fill.mpr down) (f.fill_ptr t)
          (fun g member => keyed g (List.mem_cons_of_mem _ member)) (Nat.lt_of_succ_lt_succ enough)]

theorem avlGetNext_spec {tree : AvlTree κ} (holds : Holds compare tree T) (keyed : ∀ k ∈ T.keys, k ≠ default)
    (entries : T.entries = a++(x,k)::b) : avlGetNext tree x = some (b.head?.map Prod.fst) := by
  obtain ⟨c,f,X,whole,left,rfl,_,behind,focus,fits⟩ := holds.place entries
  have right : (tree.heap f.id).right = f.sibling.ptr := by
    have moved := f.node_sibling X.ptr (Ctx.parent (c++[sentinel tree.root]))
    rw [left] at moved
    rw [focus_node focus]
    exact moved
  unfold avlGetNext
  rw [right,behind]
  cases below : f.sibling with
  | nil =>
    dsimp only [NodeTree.ptr]
    rw [climbNext_out,climbOut_spec .left tree.nodes.length _ (focus_fill.mpr focus) (f.fill_ptr X)
      (plug_keyed whole keyed) (by omega),←after_head]
    rfl
  | node id l k b rk r =>
    have rep := focus.ctx.2.1
    rw [below] at rep
    have high := height_size f.sibling
    rw [below] at high fits
    obtain ⟨y,rest,found,first⟩ := leftmost_spec tree.nodes.length rep rfl (by omega)
    dsimp only [NodeTree.ptr]
    rw [found,first]
    rfl

theorem avlGetPrev_spec {tree : AvlTree κ} (holds : Holds compare tree T) (keyed : ∀ k ∈ T.keys, k ≠ default)
    (entries : T.entries = a++(x,k)::b) : avlGetPrev tree x = some (a.getLast?.map Prod.fst) := by
  obtain ⟨c,f,X,whole,left,rfl,ahead,_,focus,fits⟩ := holds.place entries
  have child : (tree.heap f.id).left = X.ptr := by
    have moved := focus_child focus
    rw [left] at moved
    exact moved
  unfold avlGetPrev
  rw [child,ahead]
  cases here : X.ptr with
  | none =>
    have empty : X = .nil := by
      cases X with
      | nil => rfl
      | node id l k b rk r => cases here
    subst empty
    dsimp only [NodeTree.entries]
    rw [List.append_nil,climbPrev_out,climbOut_spec .right tree.nodes.length _ (focus_fill.mpr focus)
      (f.fill_ptr _) (plug_keyed whole keyed)
      (by omega),before_last]
  | some y =>
    have high := height_size X
    obtain ⟨g,c',found,sides,inside,_⟩ := rightmost_spec tree.nodes.length focus here (by omega)
    have last : X.entries = (before c'++g.sibling.entries)++[(g.id,g.key)] := by
      rw [←inside,plug_entries,after_right sides]
      simp [before,Frame.before,sides g List.mem_cons_self,NodeTree.entries]
    dsimp only
    rw [found,last,←List.append_assoc,List.getLast?_concat]
    rfl

theorem avlGetFirst_spec {tree : AvlTree κ} (holds : Holds compare tree T) (keyed : ∀ k ∈ T.keys, k ≠ default) :
    avlGetFirst tree = some (T.entries.head?.map Prod.fst) := by
  have count := holds.nodes.length_eq
  rw [List.length_cons,NodeTree.length_ids] at count
  have high := height_size T
  unfold avlGetFirst
  rw [holds.top]
  cases T with
  | nil => rfl
  | node id l k b rk r =>
    have node := holds.focus.rep.1
    have key : (tree.heap id).key ≠ default := by
      rw [node]
      exact keyed k (List.mem_append_right _ List.mem_cons_self)
    obtain ⟨y,rest,found,first⟩ := leftmost_spec tree.nodes.length holds.focus.rep rfl (by omega)
    dsimp only [NodeTree.ptr]
    rw [if_neg key,found,first]
    rfl

end Next

section Exact

variable {κ : Type u} [Inhabited κ] {compare : κ → κ → Int} {T : NodeTree κ}

theorem avlDelete_present (order : Preordered compare) {tree : AvlTree κ} (holds : Holds compare tree T)
    (entries : T.entries = a++(x,k)::b) :
    ∃ done T' y k', avlDelete compare tree k = some done ∧ Holds compare done.tree T' ∧
    Taken compare tree T k done T' y k' := by
  have inside : k ∈ T.keys := by
    rw [←NodeTree.keys_entries,entries]
    simp
  obtain ⟨done,T',run,holds',⟨y,k',taken⟩ | missed⟩ := avlDelete_spec order holds k
  · exact ⟨done,T',y,k',run,holds',taken⟩
  · exact absurd (order.refl k) (missed.absent k inside)

-- A delete of a key that no other is equal to: what stands after its node stays, node for node, and
-- what stands before it keeps its keys.
theorem delete_exact (order : Preordered compare) {tree : AvlTree κ} (holds : Holds compare tree T)
    (entries : T.entries = a++(x,k)::b)
    (only : ∀ k' ∈ T.keys, compare k k' = 0 → k' = k) (nodup : T.keys.Nodup) :
    ∃ done T' a', avlDelete compare tree k = some done ∧ Holds compare done.tree T' ∧
    done.freed = some k ∧ T'.entries = a'++b ∧
      a'.map Prod.snd = a.map Prod.snd := by
  rw [←NodeTree.keys_entries] at nodup
  obtain ⟨done,T',y,k',run,holds',taken⟩ := avlDelete_present order holds entries
  have removed : k' ∈ T.keys := by
    obtain ⟨p,q,old,_⟩ := taken.dropped.keys
    rw [←NodeTree.keys_entries,old]
    simp
  have same : k' = k := only k' removed taken.equal
  subst same
  have dropped := taken.dropped
  generalize before : T.entries = old at dropped
  generalize after : T'.entries = new at dropped
  rw [before] at entries nodup
  cases dropped with
  | plain a' b' =>
    obtain ⟨rfl,_,rfl⟩ := split_unique Prod.snd entries rfl nodup
    exact ⟨done,T',a',run,holds',taken.freed,after,rfl⟩
  | swapped a' b' z ky =>
    have shape : a'++(y,ky)::(z,k')::b' = (a'++[(y,ky)])++(z,k')::b' := by simp
    rw [shape] at entries nodup
    obtain ⟨rfl,_,rfl⟩ := split_unique Prod.snd entries rfl nodup
    exact ⟨done,T',a'++[(z,ky)],run,holds',taken.freed,by simp [after],by simp⟩

end Exact

end Icecast.AvlNodes
