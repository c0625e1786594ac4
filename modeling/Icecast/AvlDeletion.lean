import Icecast.AvlInsertion

namespace Icecast.AvlNodes
open NodeHeap

section Search

variable {κ : Type u} {compare : κ → κ → Int} {key : κ} {g : Frame κ} {h : Heap κ} {c : Ctx κ} {t : NodeTree κ}

-- What the way down of avl_delete does to a node it passes on.
def lower (f : Frame κ) : Frame κ := {f with rank := if f.side = .left then f.rank-1 else f.rank}

-- The rank of the node that was the last, where the key is not found.
def overdone (f : Frame κ) : Frame κ := {f with rank := if f.side = .left then f.rank else f.rank+1}

-- The side of a node that the search for the key turns to.
def Turn (compare : κ → κ → Int) (key : κ) (f : Frame κ) : Prop :=
  match f.side with
  | .left => compare key f.key < 0
  | .right => 0 < compare key f.key

theorem lowered_left {f : Frame κ} {X : NodeTree κ} (focus : Focus h (f::c) X) (left : f.side = .left) :
    Focus (modify h f.id fun n => n.setRank (n.rank-1)) (lower f::c) X :=
  focus.update rfl rfl fun hole p => by
    rw [lower,if_pos left]
    unfold Frame.node
    rw [left]
    rfl

theorem restored_left {f : Frame κ} {X : NodeTree κ} (focus : Focus h (lower f::c) X) (left : f.side = .left) :
    Focus (modify h f.id fun n => n.setRank (n.rank+1)) (f::c) X :=
  focus.update (f := lower f) rfl rfl fun hole p => by
    unfold lower Frame.node
    rw [left]
    simp only [if_true,Node.setRank,BitVec.sub_add_cancel]

theorem overdone_right {f : Frame κ} {X : NodeTree κ} (focus : Focus h (f::c) X) (right : f.side = .right) :
    Focus (modify h f.id fun n => n.setRank (n.rank+1)) (overdone f::c) X :=
  focus.update rfl rfl fun hole p => by
    unfold overdone Frame.node
    rw [right]
    rfl

theorem lower_right {f : Frame κ} (right : f.side = .right) : lower f = f := by
  obtain ⟨side,id,key,b,rk,sibling⟩ := f
  cases right
  rfl

theorem Ctx.ids_lower (c : Ctx κ) : Ctx.ids (c.map lower) = Ctx.ids c :=
  Ctx.ids_map (g := lower) (fun _ => rfl) (fun _ => rfl) c

theorem undoRanks_spec (fuel : Nat) (h : Heap κ) (t : NodeTree κ) (focus : Focus h (c.map lower++[g]) t)
    (here : t.ptr = some x)
    (top : (plug c t).ptr = some root) (enough : c.length < fuel) :
    ∃ h', undoRanks root fuel h x = some h' ∧ Focus h' (c++[g]) t := by
  induction c generalizing fuel h t x with
  | nil =>
    cases fuel with
    | zero => cases enough
    | succ fuel =>
      have same : x = root := Option.some.inj (here.symm.trans top)
      exact ⟨h,by rw [undoRanks,if_pos same],focus⟩
  | cons f c ih =>
    cases fuel with
    | zero => cases enough
    | succ fuel =>
      have apart : x ≠ root := by
        intro same
        have above : root ∈ Ctx.ids ((f::c).map lower) := by
          rw [Ctx.ids_lower]
          cases c using List.reverseRecOn with
          | nil =>
            rw [plug,plug,Frame.fill_ptr] at top
            exact Option.some.inj top ▸ List.mem_cons_self
          | append_singleton c e _ =>
            rw [←List.cons_append,plug_append,plug,plug,Frame.fill_ptr] at top
            rw [←List.cons_append,Ctx.ids_append,←Option.some.inj top]
            exact List.mem_append_right _ List.mem_cons_self
        have nodup := focus.nodup
        rw [Ctx.ids_append] at nodup
        exact (List.nodup_append.mp nodup).2.2 root (List.mem_append_left _ above) root
          (same ▸ NodeTree.ptr_mem here) rfl
      have put : Focus (if (h f.id).left = some x then modify h f.id fun n => n.setRank (n.rank+1) else h)
        (f::(c.map lower++[g])) t := by
        have side : (h f.id).left = some x ↔ f.side = .left := hangs_left (f := lower f) focus here
        by_cases left : f.side = .left
        · rw [if_pos (side.mpr left)]
          exact restored_left focus left
        · rw [if_neg (fun up => left (side.mp up))]
          have right : f.side = .right := by
            cases side : f.side with
            | left => exact absurd side left
            | right => rfl
          rw [List.map_cons,lower_right right] at focus
          exact focus
      obtain ⟨h',done,back⟩ := ih fuel _ _ (focus_fill.mpr put) (f.fill_ptr t) top (Nat.lt_of_succ_lt_succ enough)
      refine ⟨h',?_,focus_fill.mp back⟩
      rw [undoRanks,if_neg apart,parent_here (f := lower f) focus here]
      exact done

theorem overdone_left {f : Frame κ} (left : f.side = .left) : overdone f = f := by
  obtain ⟨side,id,key,b,rk,sibling⟩ := f
  cases left
  rfl

-- The nodes a search for the key comes by.
inductive Passes (compare : κ → κ → Int) (key : κ) (h : Heap κ) : Option Nat → Nat → Prop where
  | here : Passes compare key h (some x) x
  | left : compare key (h x).key < 0 → Passes compare key h (h x).left y → Passes compare key h (some x) y
  | right : 0 < compare key (h x).key → Passes compare key h (h x).right y → Passes compare key h (some x) y

theorem Passes.step {f : Frame κ} (focus : Focus h (f::c) t) (turn : Turn compare key f)
    (passes : Passes compare key h t.ptr y) :
    Passes compare key h (some f.id) y := by
  rw [←focus_child focus] at passes
  unfold Turn at turn
  rw [←focus_key focus] at turn
  cases side : f.side with
  | left =>
    rw [side] at turn passes
    exact .left turn passes
  | right =>
    rw [side] at turn passes
    exact .right turn passes

theorem Passes.plug {c' : Ctx κ} (focus : Focus h (c++c') t) (turns : ∀ f ∈ c, Turn compare key f)
    (passes : Passes compare key h t.ptr y) :
    Passes compare key h (plug c t).ptr y := by
  induction c generalizing t with
  | nil => exact passes
  | cons f c ih =>
    have down : Focus h (f::(c++c')) t := focus
    refine ih (focus_fill.mpr down) (fun g member => turns g (List.mem_cons_of_mem _ member)) ?_
    rw [Frame.fill_ptr]
    exact passes.step down (turns f List.mem_cons_self)

-- What the search of avl_delete comes to: the node, the ranks above it lowered; or the place where it
-- would be, the ranks put back but for that of the last node, if the place is on its right.
inductive Searched (compare : κ → κ → Int) (key : κ) (g : Frame κ) (T : NodeTree κ) (h : Heap κ) :
    Option Nat → Prop where
  | found (f : Frame κ) (X : NodeTree κ) (c : Ctx κ) : plug c (f.fill X) = T → f.side = .left → compare key f.key = 0 →
    (∀ e ∈ c, Turn compare key e) → Focus h (f::(c.map lower++[g])) X → Searched compare key g T h (some f.id)
  | missed (f : Frame κ) (c : Ctx κ) : plug (f::c) .nil = T → (∀ e ∈ f::c, Turn compare key e) →
    Focus h (overdone f::(c++[g])) .nil → Searched compare key g T h none

theorem undoRanks_missed {f e : Frame κ} (focus : Focus h (e::(c.map lower++[g])) .nil) (last : e.id = f.id)
    (whole : plug c (f.fill .nil) = T)
    (top : T.ptr = some root) (limit : T.size ≤ n) :
    ∃ h', undoRanks root n h f.id = some h' ∧ Focus h' (e::(c++[g])) .nil := by
  have same : (e.fill (.nil : NodeTree κ)).ptr = some f.id := last ▸ e.fill_ptr _
  have many := length_plug (f::c) .nil
  rw [plug,whole,List.length_cons] at many
  obtain ⟨h',undone,focus'⟩ := undoRanks_spec n _ _ (focus_fill.mpr focus) same
    ((plug_ptr_congr (same.trans (f.fill_ptr .nil).symm)).trans (whole.symm ▸ top)) (by omega)
  exact ⟨h',undone,focus_fill.mp focus'⟩

theorem deleteWalk_spec (compare : κ → κ → Int) (key : κ) (fuel : Nat) (h : Heap κ) (P : NodeTree κ)
    (focus : Focus h (c.map lower++[g]) P) (here : P.ptr = some x) (whole : plug c P = T) (top : T.ptr = some root)
    (turns : ∀ f ∈ c, Turn compare key f) (enough : P.height ≤ fuel) (limit : T.size ≤ n) :
    ∃ h' r, deleteWalk compare key root n fuel h x = some (h',r) ∧ Searched compare key g T h' r := by
  induction fuel generalizing h c P x with
  | zero =>
    cases P with
    | nil => cases here
    | node id l k b rk r =>
      unfold NodeTree.height at enough
      omega
  | succ fuel ih =>
    have side : ∃ d, (compare key (h x).key < 0 → d = Side.left) ∧ (0 < compare key (h x).key → d = .right) ∧
        (compare key (h x).key = 0 → d = .left) := by
      by_cases up : 0 < compare key (h x).key
      · exact ⟨.right,by omega,fun _ => rfl,by omega⟩
      · exact ⟨.left,fun _ => rfl,by omega,fun _ => rfl⟩
    obtain ⟨d,toLeft,toRight,stay⟩ := side
    obtain ⟨f,X,fside,rfl,rfl⟩ := exists_frame d here
    have down := focus_fill.mp focus
    have keyed := focus_key down
    rw [keyed] at toLeft toRight stay
    rw [Frame.fill_height] at enough
    unfold deleteWalk
    simp only [keyed]
    by_cases below : compare key f.key < 0
    · have left : f.side = .left := fside.trans (toLeft below)
      have turn : Turn compare key f := by
        unfold Turn
        rw [left]
        exact below
      have turns' := List.forall_mem_cons.mpr ⟨turn,turns⟩
      have lowered := lowered_left down left
      have child : (modify h f.id (fun n => n.setRank (n.rank-1)) f.id).left = X.ptr := by
        have moved := focus_child lowered
        rw [show (lower f).side = .left from left] at moved
        exact moved
      rw [if_pos below,child]
      cases X with
      | nil =>
        obtain ⟨h',undone,focus'⟩ := undoRanks_missed (restored_left lowered left) rfl whole top limit
        refine ⟨h',none,?_,.missed f c whole turns' ?_⟩
        · dsimp only [NodeTree.ptr]
          rw [undone]
          rfl
        · rw [overdone_left left]
          exact focus'
      | node q l k b rk r => exact ih (c := f::c) _ (.node q l k b rk r) lowered rfl whole turns' (by omega)
    · rw [if_neg below]
      by_cases above : 0 < compare key f.key
      · have right : f.side = .right := fside.trans (toRight above)
        have turn : Turn compare key f := by
          unfold Turn
          rw [right]
          exact above
        have turns' := List.forall_mem_cons.mpr ⟨turn,turns⟩
        have child : (h f.id).right = X.ptr := by
          have moved := focus_child down
          rw [right] at moved
          exact moved
        rw [if_pos above,child]
        cases X with
        | nil =>
          obtain ⟨h',undone,focus'⟩ := undoRanks_missed (f := f) (overdone_right down right) rfl whole top limit
          refine ⟨h',none,?_,.missed f c whole turns' focus'⟩
          dsimp only [NodeTree.ptr]
          rw [undone]
          rfl
        | node q l k b rk r =>
          have same : (f::c).map lower = f::c.map lower := by rw [List.map_cons,lower_right right]
          exact ih (c := f::c) _ (.node q l k b rk r) (same ▸ down) rfl whole turns' (by omega)
      · have equal : compare key f.key = 0 := by omega
        rw [if_neg above]
        exact ⟨h,some f.id,rfl,.found f X c whole (fside.trans (stay equal)) equal turns down⟩

end Search

section Remove

variable {κ : Type u} {compare : κ → κ → Int} {key : κ} {g : Frame κ} {h : Heap κ} {c : Ctx κ} {t T : NodeTree κ}

theorem rightmost_spec (fuel : Nat) {P : NodeTree κ} (focus : Focus h c P) (here : P.ptr = some p)
    (enough : P.height ≤ fuel) :
    ∃ f c', rightmost fuel h p = some f.id ∧ (∀ e ∈ f::c', e.side = Side.right) ∧ plug (f::c') .nil = P ∧
    Focus h (f::(c'++c)) .nil := by
  induction fuel generalizing c P p with
  | zero =>
    cases P with
    | nil => cases here
    | node id l k b rk r =>
      unfold NodeTree.height at enough
      omega
  | succ fuel ih =>
    obtain ⟨f,X,side,rfl,rfl⟩ := exists_frame .right here
    have down := focus_fill.mp focus
    have child : (h f.id).right = X.ptr := by
      have moved := focus_child down
      rw [side] at moved
      exact moved
    unfold rightmost
    rw [child]
    cases X with
    | nil => exact ⟨f,[],rfl,by simp [side],rfl,down⟩
    | node z l k b rk r =>
      rw [Frame.fill_height] at enough
      obtain ⟨f',c',found,sides,whole,deep⟩ := ih down rfl (by omega)
      refine ⟨f',c'++[f],found,?_,?_,by simpa using deep⟩
      · intro e member
        rw [←List.cons_append] at member
        rcases List.mem_append.mp member with member | member
        · exact sides e member
        · rw [List.mem_singleton.mp member]
          exact side
      · rw [←List.cons_append,plug_append,whole]
        rfl

-- "swap x with y".
theorem swapKeys_spec {f e : Frame κ} {c c' : Ctx κ} (focus : Focus h (f::(c++e::c')) t) :
    Focus (swapKeys h e.id f.id) ({f with key := e.key}::(c++{e with key := f.key,rank := e.rank-1}::c')) t := by
  have rekey : ∀ (x : Frame κ) (k : κ) (hole p : Option Nat),
    (x.node hole p).setKey k = ({x with key := k} : Frame κ).node hole p := by
    intro x k hole p
    unfold Frame.node
    cases x.side <;> rfl
  have outer : Focus h (e::c') (plug (f::c) t) := focus_plug.mp focus
  have ykey := focus_key focus
  have xkey := focus_key outer
  have first : Focus (modify h e.id (·.setKey f.key)) (f::(c++{e with key := f.key}::c')) t :=
    focus_plug (c := f::c).mpr (outer.update rfl rfl fun hole p => rekey e _ hole p)
  have second : Focus (modify (modify h e.id (·.setKey f.key)) f.id (·.setKey e.key))
      ({f with key := e.key}::(c++{e with key := f.key}::c')) t := first.update rfl rfl fun hole p => rekey f _ hole p
  have outer' : Focus _ ({e with key := f.key}::c') (plug ({f with key := e.key}::c) t) := focus_plug.mp second
  have third : Focus (modify (modify (modify h e.id (·.setKey f.key)) f.id (·.setKey e.key)) e.id fun n =>
    n.setRank (n.rank-1))
      ({e with key := f.key,rank := e.rank-1}::c') (plug ({f with key := e.key}::c) t) :=
    outer'.update rfl rfl fun hole p => by unfold Frame.node; cases e.side <;> rfl
  unfold swapKeys
  rw [ykey,xkey]
  exact focus_plug (c := {f with key := e.key}::c).mpr third

theorem absent_plug (order : Preordered compare) {c : Ctx κ} (sorted : Sorted compare (plug c .nil).keys)
    (turns : ∀ f ∈ c, Turn compare key f) :
    ∀ k ∈ (plug c (.nil : NodeTree κ)).keys, compare key k ≠ 0 := by
  intro k member
  rw [←NodeTree.keys_entries,plug_entries] at member
  obtain ⟨x,inside,rfl⟩ := List.mem_map.mp member
  have downward : ∀ a b, compare a b ≤ 0 → 0 < compare key b → 0 < compare key a := by
    intro a b le above
    by_contra up
    have down := order.trans _ _ _ (Int.not_lt.mp up) le
    omega
  have higher : ∀ a b, compare a b ≤ 0 → compare key a < 0 → compare key b < 0 := by
    intro a b le below
    have flipped := (order.flip key a).mp below
    apply (order.flip key b).mpr
    by_contra up
    have down := order.trans _ _ _ le (Int.not_lt.mp up)
    omega
  have right : ∀ f ∈ c, f.side = .right → 0 < compare key f.key := by
    intro f member side
    have turn := turns f member
    unfold Turn at turn
    rwa [side] at turn
  have left : ∀ f ∈ c, f.side = .left → compare key f.key < 0 := by
    intro f member side
    have turn := turns f member
    unfold Turn at turn
    rwa [side] at turn
  rcases List.mem_append.mp inside with low | high
  · have above := before_plug (P := fun a => 0 < compare key a) downward sorted right x low
    omega
  · have below := after_plug (P := fun a => compare key a < 0) higher sorted left x high
    omega

theorem scoot_spec {f e : Frame κ} {A : Ctx κ} (focus : Focus h (f::e::A) .nil) :
    ∃ h', scoot h f.id e.id = (h',e.side) ∧ Focus h' (e::A) f.sibling := by
  have up := focus_fill.mpr focus
  have node := focus_node focus
  have nodup := up.nodup
  obtain ⟨ctxNodup,inner,apart⟩ := List.nodup_append.mp nodup
  have ids : (f.fill .nil).ids.Perm (f.id::f.sibling.ids) := by
    have perm := f.fill_ids .nil
    rw [NodeTree.ids,List.append_nil] at perm
    exact perm
  have split := List.nodup_cons.mp (ids.nodup_iff.mp inner)
  have child : (h f.id).left = none ∧ (h f.id).right = f.sibling.ptr ∨ (h f.id).left = f.sibling.ptr ∧
    (h f.id).right = none := by
    rw [node]
    unfold Frame.node
    cases f.side with
    | left => exact .inl ⟨rfl,rfl⟩
    | right => exact .inr ⟨rfl,rfl⟩
  have eout : e.id ∉ f.sibling.ids := fun member =>
    apart e.id List.mem_cons_self e.id (ids.mem_iff.mpr (List.mem_cons_of_mem _ member)) rfl
  have kept : ∀ j, j ∉ f.sibling.ids → reparent h f.sibling.ptr (some e.id) j = h j :=
    fun j out => reparent_other h _ fun same => out (NodeTree.ptr_mem same)
  have hangs := hangs_left up (f.fill_ptr _)
  have scooted : scoot h f.id e.id =
    (modify (reparent h f.sibling.ptr (some e.id)) e.id (·.setChild e.side f.sibling.ptr),e.side) := by
    have moved : scoot h f.id e.id =
        let h' := reparent h f.sibling.ptr (some e.id)
        if (h' e.id).left = some f.id then (modify h' e.id (·.setChild .left f.sibling.ptr),.left)
        else (modify h' e.id (·.setChild .right f.sibling.ptr),.right) := by
      unfold scoot
      rcases child with ⟨left,right⟩ | ⟨left,right⟩
      · rw [left,right]
      · rw [left,right]
        cases f.sibling.ptr <;> rfl
    rw [moved]
    simp only [kept e.id eout]
    cases side : e.side with
    | left => rw [if_pos (hangs.mpr side)]
    | right =>
      refine if_neg fun left => ?_
      rw [hangs.mp left] at side
      cases side
  refine ⟨_,scooted,up.replace ?_ ?_ ?_ ?_⟩
  · rw [modify_same,kept e.id eout]
  · intro j member
    have je : j ≠ e.id := fun same => (List.nodup_cons.mp ctxNodup).1 (same ▸ member)
    rw [modify_other _ _ je]
    refine kept j fun inside => ?_
    exact apart j (List.mem_cons_of_mem _ member) j (ids.mem_iff.mpr (List.mem_cons_of_mem _ inside)) rfl
  · have moved := focus.ctx.2.1.reparent split.2 (some e.id)
    refine moved.congr fun j member => modify_other _ _ fun same => eout (same ▸ member)
  · refine List.nodup_append.mpr ⟨ctxNodup,split.2,fun a above b below => ?_⟩
    exact apart a above b (ids.mem_iff.mpr (List.mem_cons_of_mem _ below))

-- What becomes of the nodes in order when a key is taken out: its node goes, or that of its
-- predecessor does, whose key the node takes.
inductive Dropped (x : Nat) (k : κ) : List (Nat × κ) → List (Nat × κ) → Prop where
  | plain (a b : List (Nat × κ)) : Dropped x k (a++(x,k)::b) (a++b)
  | swapped (a b : List (Nat × κ)) (y : Nat) (ky : κ) : Dropped x k (a++(x,ky)::(y,k)::b) (a++(y,ky)::b)

theorem Dropped.ids {x : Nat} {k : κ} {old new : List (Nat × κ)} (dropped : Dropped x k old new) :
    (old.map Prod.fst).Perm (x::new.map Prod.fst) := by
  cases dropped with
  | plain a b =>
    rw [List.map_append,List.map_append]
    exact List.perm_middle
  | swapped a b y ky =>
    rw [List.map_append,List.map_append]
    exact List.perm_middle

theorem Dropped.keys {x : Nat} {k : κ} {old new : List (Nat × κ)} (dropped : Dropped x k old new) :
    ∃ a b, old.map Prod.snd = a++k::b ∧ new.map Prod.snd = a++b := by
  cases dropped with
  | plain a b => exact ⟨a.map Prod.snd,b.map Prod.snd,by simp,by simp⟩
  | swapped a b y ky => exact ⟨a.map Prod.snd++[ky],b.map Prod.snd,by simp,by simp⟩

theorem level_lower {c : Ctx κ} : LevelCtx (c.map lower) n ↔ LevelCtx c n :=
  level_map (fun _ => rfl) fun _ _ => ⟨fun l => ⟨l.1,l.2,l.3,l.4⟩,fun l => ⟨l.1,l.2,l.3,l.4⟩⟩

theorem lower_ranks (f : Frame κ) (n : Nat) (ranks : f.Ranks (n+1)) : (lower f).Ranks n := by
  obtain ⟨sibling,rank⟩ := ranks
  refine ⟨sibling,?_⟩
  unfold Frame.rankOf at rank ⊢
  change (if f.side = .left then f.rank-1 else f.rank) = _
  cases side : f.side with
  | left =>
    rw [side] at rank
    rw [if_pos rfl,rank,lower,side,BitVec.ofNat_add (n+1) 1]
    exact BitVec.add_sub_cancel _ _
  | right =>
    rw [side] at rank
    rw [if_neg (by decide),rank,lower,side]

theorem ranks_lower {c : Ctx κ} (ranks : RanksCtx c (n+1)) : RanksCtx (c.map lower) n :=
  RanksCtx.map (i := 1) (j := 0) (fun _ => rfl) lower_ranks ranks

-- The node to be freed, with nothing on one side: what becomes of the tree without it.
structure Ready (compare : κ → κ → Int) (key : κ) (g : Frame κ) (T : NodeTree κ) (h : Heap κ) (f : Frame κ)
    (C : Ctx κ) : Prop where
  focus : Focus h (f::(C.map lower++[g])) .nil
  equal : compare key f.key = 0
  dropped : Dropped f.id f.key T.entries (plug C f.sibling).entries
  sibling : Balanced f.sibling
  level : LevelCtx C (f.sibling.height+1)
  ranks : Ranked T → Ranked f.sibling ∧ RanksCtx C (f.sibling.size+1)

theorem ready_plain {f : Frame κ} {C : Ctx κ} (focus : Focus h (f::(C.map lower++[g])) .nil)
    (equal : compare key f.key = 0)
    (balanced : Balanced (plug C (f.fill .nil))) : Ready compare key g (plug C (f.fill .nil)) h f C := by
  obtain ⟨here,level⟩ := balanced_plug.mp balanced
  have height : (f.fill .nil).height = f.sibling.height+1 := by
    rw [Frame.fill_height,NodeTree.height]
    omega
  have size : (f.fill .nil).size = f.sibling.size+1 := by
    rw [Frame.fill_size,NodeTree.size]
    omega
  refine ⟨focus,equal,?_,(balanced_fill.mp here).2.sibling,height ▸ level,fun ranked => ?_⟩
  · rw [plug_entries,plug_entries,Frame.fill_entries]
    unfold Frame.before Frame.after
    cases f.side with
    | left =>
      have plain := Dropped.plain (x := f.id) (k := f.key) (before C) (f.sibling.entries++after C)
      simpa [NodeTree.entries] using plain
    | right =>
      have plain := Dropped.plain (x := f.id) (k := f.key) (before C++f.sibling.entries) (after C)
      simpa [NodeTree.entries] using plain
  · obtain ⟨inner,outer⟩ := ranked_plug.mp ranked
    rw [size] at outer
    exact ⟨(ranked_fill.mp inner).2.1,outer⟩

theorem map_lower_right {c : Ctx κ} (sides : ∀ e ∈ c, e.side = Side.right) : c.map lower = c := by
  rw [List.map_congr_left fun e member => lower_right (sides e member),List.map_id']

theorem ready_swapped {f e : Frame κ} {c C : Ctx κ} (focus : Focus h (f::(c++e::(C.map lower++[g]))) .nil)
    (left : e.side = .left)
    (sides : ∀ x ∈ f::c, x.side = Side.right) (equal : compare key e.key = 0)
    (balanced : Balanced (plug C (e.fill (plug (f::c) .nil)))) :
    Ready compare key g (plug C (e.fill (plug (f::c) .nil))) (swapKeys h e.id f.id) {f with key := e.key}
    (c++{e with key := f.key}::C) := by
  have whole : plug C (e.fill (plug (f::c) .nil)) = plug (c++e::C) (f.fill .nil) := by
    rw [plug_append]
    rfl
  rw [whole] at balanced ⊢
  have fside := sides f List.mem_cons_self
  have csides := fun x member => sides x (List.mem_cons_of_mem _ member)
  obtain ⟨here,level⟩ := balanced_plug.mp balanced
  obtain ⟨clevel,elevel,Clevel⟩ := level_append.mp level
  have height : (f.fill .nil).height = f.sibling.height+1 := by
    rw [Frame.fill_height,NodeTree.height]
    omega
  have size : (f.fill .nil).size = f.sibling.size+1 := by
    rw [Frame.fill_size,NodeTree.size]
    omega
  refine ⟨?_,equal,?_,(balanced_fill.mp here).2.sibling,?_,fun ranked => ?_⟩
  · have lowered : (c++{e with key := f.key}::C).map lower++[g] = c++{e with key := f.key,rank :=
      e.rank-1}::(C.map lower++[g]) := by
      rw [List.map_append,map_lower_right csides,List.append_assoc]
      simp only [List.map_cons,lower,left,if_true,List.cons_append]
    rw [lowered]
    exact swapKeys_spec focus
  · have swapped := Dropped.swapped (x := f.id) (k := e.key) (before C++before c++f.sibling.entries)
      (e.sibling.entries++after C) e.id f.key
    have old : (plug (c++e::C) (f.fill .nil)).entries =
        before C++before c++f.sibling.entries++(f.id,f.key)::(e.id,e.key)::(e.sibling.entries++after C) := by
      rw [plug_entries,before_append,after_append,after_right csides,Frame.fill_entries]
      simp [Frame.before,Frame.after,fside,left,NodeHeap.before,NodeHeap.after,NodeTree.entries]
    have new : (plug (c++{e with key := f.key}::C) f.sibling).entries =
        before C++before c++f.sibling.entries++(e.id,f.key)::(e.sibling.entries++after C) := by
      rw [plug_entries,before_append,after_append,after_right csides]
      simp [Frame.before,Frame.after,left,NodeHeap.before,NodeHeap.after]
    rw [old]
    change Dropped f.id e.key _ (plug (c++{e with key := f.key}::C) f.sibling).entries
    rw [new]
    exact swapped
  · change LevelCtx (c++{e with key := f.key}::C) (f.sibling.height+1)
    rw [←height]
    exact level_append.mpr ⟨clevel,⟨elevel.1,elevel.2,elevel.3,elevel.4⟩,Clevel⟩
  · obtain ⟨inner,outer⟩ := ranked_plug.mp ranked
    obtain ⟨cranks,eranks,Cranks⟩ := ranks_append.mp outer
    refine ⟨(ranked_fill.mp inner).2.1,?_⟩
    change RanksCtx (c++{e with key := f.key}::C) (f.sibling.size+1)
    rw [←size]
    exact ranks_append.mpr ⟨cranks,⟨eranks.1,eranks.2⟩,Cranks⟩

end Remove

section Climb

variable {κ : Type u} {h : Heap κ} {e f : Frame κ} {A : Ctx κ} {S : NodeTree κ}

-- "let p's former parent know this".
theorem tellTop_focus {p q : Nat} (ctx : RepCtx h (e::A) (some p)) (rep : Rep h (some e.id) S) (here : S.ptr = some q)
    (nodup : (Ctx.ids (e::A)++S.ids).Nodup) (out : p ∉ Ctx.ids (e::A)) : Focus (tellTop h e.id p q) (e::A) S := by
  obtain ⟨_,_,apart⟩ := List.nodup_append.mp nodup
  have split := List.nodup_cons.mp (List.nodup_append.mp nodup).1
  have link : (h e.id).left = some p ↔ e.side = .left := ctx.child_iff out .left
  have linked : tellTop h e.id p q = modify h e.id (·.setChild e.side (some q)) := by
    unfold tellTop
    cases side : e.side with
    | left => exact if_pos (link.mpr side)
    | right =>
      refine if_neg fun same => ?_
      rw [link,side] at same
      cases same
  rw [linked]
  refine ctx.hang ?_ (fun j member => modify_other _ _ fun same => split.1 (same ▸ member)) ?_ nodup
  · rw [modify_same,ctx.1,e.node_setChild,here]
  · refine rep.congr fun j member => modify_other _ _ fun same => ?_
    exact apart e.id List.mem_cons_self j member same.symm

theorem told {h' : Heap κ} {S' : NodeTree κ} (focus : Focus h (f::e::A) S) (same : ∀ j ∈ Ctx.ids (e::A), h' j = h j)
    (rep : Rep h' (some e.id) S') (here : S'.ptr = some q) (entries : S'.entries = (f.fill S).entries) :
    Focus (tellTop h' e.id f.id q) (e::A) S' := by
  obtain ⟨ctx,nodup,out⟩ := focus.room entries
  exact tellTop_focus (ctx.congr same) rep here nodup out

-- What a round of the climb at f leaves: a subtree that is balanced, and shorter or not.
structure Climbed (f : Frame κ) (S S' : NodeTree κ) (shorter : Bool) : Prop where
  done : Rebalanced (f.fill S) S'
  height : S'.height+shorter.toNat = 1+max (S.height+1) f.sibling.height

-- What the three cases of a rotation see: p from its other side, q under it with the parent of p.
structure Tilted (h : Heap κ) (e f z : Frame κ) (X S : NodeTree κ) : Prop where
  sibling : f.sibling = z.fill X
  down : modify h z.id (·.setParent (some e.id)) f.id = (f.flip S).node (some z.id) (some e.id)
  up : modify h z.id (·.setParent (some e.id)) z.id = z.node X.ptr (some e.id)
  near : Rep (modify h z.id (·.setParent (some e.id))) (some f.id) S
  far : Rep (modify h z.id (·.setParent (some e.id))) (some z.id) z.sibling
  low : Rep (modify h z.id (·.setParent (some e.id))) (some z.id) X
  nodup : (f.id::z.id::(S.ids++(z.sibling.ids++X.ids))).Nodup

theorem tilted_of {z : Frame κ} {X : NodeTree κ} (focus : Focus h (f::e::A) S) (sibling : f.sibling = z.fill X) :
    Tilted h e f z X S := by
  have node := focus_node focus
  have beside := focus.ctx.2.1
  have nodup := frame_nodup focus
  have here := focus.rep
  rw [sibling] at beside nodup
  obtain ⟨up,low,far⟩ := rep_fill.mp beside
  have perm : (f.id::((z.fill X).ids++S.ids)).Perm (f.id::z.id::(S.ids++(z.sibling.ids++X.ids))) := by
    refine List.Perm.cons _ (((z.fill_ids X).append_right _).trans (List.Perm.cons _ List.perm_append_comm))
  have split := perm.nodup_iff.mp nodup
  obtain ⟨fout,rest⟩ := List.nodup_cons.mp split
  obtain ⟨zout,_⟩ := List.nodup_cons.mp rest
  simp only [List.mem_append,not_or] at zout
  have kept : ∀ j, j ≠ z.id → modify h z.id (·.setParent (some e.id)) j = h j := fun j other => modify_other _ _ other
  refine ⟨sibling,?_,?_,?_,?_,?_,split⟩
  · rw [kept f.id fun same => fout (same ▸ List.mem_cons_self),node,←Frame.node_flip,sibling,Frame.fill_ptr]
    rfl
  · rw [modify_same,up]
    unfold Frame.node
    cases z.side <;> rfl
  · exact here.congr fun j member => kept j fun same => zout.1 (same ▸ member)
  · exact far.congr fun j member => kept j fun same => zout.2.1 (same ▸ member)
  · exact low.congr fun j member => kept j fun same => zout.2.2 (same ▸ member)

theorem climbStep_turn {z : Frame κ} {X : NodeTree κ} (focus : Focus h (f::e::A) S) (sibling : f.sibling = z.fill X)
    (heavy : f.balance = -f.side.sign) : climbStep h f.id e.id f.side =
      let H := modify h z.id (·.setParent (some e.id))
      if z.balance = 0 then
        some (tellTop (modify (modify (rotate f.side H f.id z.id) z.id (·.setBalance f.side.sign)) f.id
          (·.setBalance (-f.side.sign)))
          e.id f.id z.id,z.id,false)
      else if z.balance = f.balance then
        some (tellTop (modify (modify (rotate f.side H f.id z.id) z.id (·.setBalance 0)) f.id
          (·.setBalance 0)) e.id f.id z.id,z.id,true)
      else ((h z.id).child f.side).map fun r =>
        let h := modify h r (·.setParent (some e.id))
        let h := rotate f.side (rotate f.side.other h z.id r) f.id r
        let h :=
          if (h r).balance = f.side.sign then modify (modify h z.id (·.setBalance (-f.side.sign))) f.id (·.setBalance 0)
          else if (h r).balance = -f.side.sign then modify (modify h z.id (·.setBalance 0)) f.id
            (·.setBalance f.side.sign)
          else modify (modify h z.id (·.setBalance 0)) f.id (·.setBalance 0)
        (tellTop (modify h r (·.setBalance 0)) e.id f.id r,r,true) := by
  have sign := f.side.sign_ne
  have node := focus_node focus
  have beside := focus.ctx.2.1
  rw [sibling] at beside
  have up := (rep_fill.mp beside).1
  have child : (h f.id).child f.side.other = some z.id := by
    rw [node,Frame.node_sibling,sibling,Frame.fill_ptr]
  have parent : (h f.id).parent = some e.id := by
    rw [node,Frame.node_parent]
    rfl
  have fbalance : (h f.id).balance = f.balance := by rw [node,Frame.node_balance]
  have zbalance : (h z.id).balance = z.balance := by rw [up,Frame.node_balance]
  unfold climbStep
  rw [fbalance,heavy,if_neg (by omega),if_neg (by omega),child,Option.bind_some]
  simp only [zbalance,parent]

theorem Tilted.outside {z : Frame κ} {X : NodeTree κ} (focus : Focus h (f::e::A) S)
    (sibling : f.sibling = z.fill X) (member : j ∈ Ctx.ids (e::A)) :
    j ∉ f.id::z.id::(S.ids++(z.sibling.ids++X.ids)) := by
  have out := outside_focus focus member
  have ids := (z.fill_ids X).mem_iff (a := j)
  rw [sibling] at out
  simp only [List.mem_cons,List.mem_append] at out ids ⊢
  tauto

theorem lean_height (level : f.Level (S.height+1)) (heavy : f.balance = -f.side.sign) :
    f.sibling.height = S.height+2 := by
  have bal := level.balance
  rw [heavy] at bal
  cases side : f.side <;> rw [side] at bal <;> simp only [Side.sign] at bal <;> omega

theorem climbStep_single {z : Frame κ} {X : NodeTree κ} (focus : Focus h (f::e::A) S) (balanced : Balanced S)
    (level : f.Level (S.height+1))
    (heavy : f.balance = -f.side.sign) (sibling : f.sibling = z.fill X) (zside : z.side = f.side.other)
    (outer : z.balance = 0 ∨ z.balance = f.balance) :
    ∃ h' x b S', climbStep h f.id e.id f.side = some (h',x,b) ∧ Focus h' (e::A) S' ∧ S'.ptr = some x ∧
    Climbed f S S' b := by
  have lean := tilted_of focus sibling
  have height := lean_height level heavy
  have zbalanced := level.sibling
  rw [sibling] at height zbalanced
  have whole : (f.flip S).fill (z.fill X) = f.fill S := by rw [←sibling,Frame.fill_flip]
  have turned : (f.flip S).side.sign = -f.side.sign := f.side.sign_other
  have apart : f.id ≠ z.id := fun same => (List.nodup_cons.mp lean.nodup).1 (same ▸ List.mem_cons_self)
  have rotated : ∀ v w, Rep
    (modify (modify (rotate f.side (modify h z.id (·.setParent (some e.id))) f.id z.id) z.id (·.setBalance w)) f.id
        (·.setBalance v)) (some e.id) (singled (f.flip S) z X v w) ∧
      ∀ j ∈ Ctx.ids (e::A), modify
        (modify (rotate f.side (modify h z.id (·.setParent (some e.id))) f.id z.id) z.id (·.setBalance w)) f.id
        (·.setBalance v) j = h j := by
    intro v w
    obtain ⟨rep,kept⟩ := rep_singled (f := f.flip S) (v := v)
      (w := w) zside lean.down lean.up lean.near lean.far lean.low lean.nodup
    rw [show (f.flip S).side.other = f.side from f.side.other_other,show (f.flip S).id = f.id from rfl,
      modify_comm apart] at rep kept
    refine ⟨rep,fun j member => ?_⟩
    have out := Tilted.outside focus sibling member
    simp only [List.mem_cons,List.mem_append,not_or] at out
    rw [kept j]
    · exact modify_other _ _ out.2.1
    · simp only [List.mem_cons,not_or]
      exact ⟨out.1,out.2.1,out.2.2.2.1⟩
  rw [climbStep_turn focus sibling heavy]
  rcases outer with even | same
  · obtain ⟨done,high⟩ := singled_uneven (f := f.flip S) balanced zside zbalanced even height
    rw [whole,turned,Int.neg_neg] at done
    rw [turned,Int.neg_neg] at high
    obtain ⟨rep,kept⟩ := rotated (-f.side.sign) f.side.sign
    refine ⟨_,z.id,false,_,if_pos even,told focus kept rep (singled_ptr _ _) done.entries,singled_ptr _ _,done,?_⟩
    rw [high,sibling,height]
    change S.height+3+0 = _
    omega
  · have leaning : z.balance = (f.flip S).side.sign := by rw [same,heavy,turned]
    obtain ⟨done,high⟩ := singled_even (f := f.flip S) balanced zside zbalanced leaning height
    rw [whole] at done
    obtain ⟨rep,kept⟩ := rotated 0 0
    have uneven : z.balance ≠ 0 := by
      have sign := f.side.sign_ne
      omega
    refine ⟨_,z.id,true,_,(if_neg uneven).trans (if_pos same),told focus kept rep (singled_ptr _ _) done.entries,
      singled_ptr _ _,done,?_⟩
    rw [high,sibling,height]
    change S.height+2+1 = _
    omega

theorem double_balances {x z m : Nat} {b : Int} (apart : x ≠ z) (side : Side) (H : Heap κ) (here : (H m).balance = b) :
    (if (H m).balance = side.sign then modify (modify H z (·.setBalance (-side.sign))) x (·.setBalance 0)
      else if (H m).balance = -side.sign then modify (modify H z (·.setBalance 0)) x (·.setBalance side.sign)
      else modify (modify H z (·.setBalance 0)) x (·.setBalance 0)) =
    modify (modify H x (·.setBalance (outerBalance side.other b))) z (·.setBalance (innerBalance side.other b)) := by
  have sign := side.sign_ne
  rw [here,modify_comm apart]
  unfold outerBalance innerBalance
  rw [Side.sign_other,Int.neg_neg]
  by_cases outer : b = side.sign
  · rw [if_pos outer,if_pos outer,if_neg (by omega)]
  · rw [if_neg outer,if_neg outer]
    by_cases within : b = -side.sign
    · rw [if_pos within,if_pos within]
    · rw [if_neg within,if_neg within]

theorem climbStep_double {z : Frame κ} {X : NodeTree κ} (focus : Focus h (f::e::A) S) (balanced : Balanced S)
    (level : f.Level (S.height+1))
    (heavy : f.balance = -f.side.sign) (sibling : f.sibling = z.fill X) (zside : z.side = f.side)
    (leaning : z.balance = f.side.sign) :
    ∃ h' x b S', climbStep h f.id e.id f.side = some (h',x,b) ∧ Focus h' (e::A) S' ∧ S'.ptr = some x ∧
    Climbed f S S' b := by
  have height := lean_height level heavy
  have zbalanced := level.sibling
  rw [sibling] at height zbalanced
  have sign := f.side.sign_ne
  -- the node between the two is there, as its side is the higher one
  have zlean := (balanced_fill.mp zbalanced).2.balance
  rw [leaning,zside] at zlean
  have taller : (X.height : Int)-z.sibling.height = 1 := Int.eq_one_of_mul_eq_self_right sign zlean.symm
  obtain ⟨r,there⟩ : ∃ r, X.ptr = some r := by
    cases X with
    | nil =>
      simp only [NodeTree.height] at taller
      omega
    | node id l k b rk r => exact ⟨id,rfl⟩
  obtain ⟨m,Y,mside,rfl,rfl⟩ := exists_frame f.side.other there
  have node := focus_node focus
  have beside := focus.ctx.2.1
  rw [sibling] at beside
  obtain ⟨up,low,far⟩ := rep_fill.mp beside
  obtain ⟨mid,mlow,mfar⟩ := rep_fill.mp low
  rw [Frame.fill_ptr] at up
  have child : (h z.id).child f.side = some m.id := by
    rw [up,←zside]
    exact z.node_child _ _
  have outside : ∀ j ∈ Ctx.ids (e::A), j ∉ f.id::z.id::m.id::(S.ids++(z.sibling.ids++(Y.ids++m.sibling.ids))) := by
    intro j member inside
    apply Tilted.outside focus sibling member
    exact (single_ids (f.flip S) z (m.fill Y)).mem_iff.mp ((double_ids (f.flip S) z m Y).mem_iff.mpr inside)
  have spread : (f.id::z.id::m.id::(S.ids++(z.sibling.ids++(Y.ids++m.sibling.ids)))).Nodup := by
    apply (double_ids (f.flip S) z m Y).nodup_iff.mp
    exact (single_ids (f.flip S) z (m.fill Y)).nodup_iff.mpr (tilted_of focus sibling).nodup
  obtain ⟨fout,rest⟩ := List.nodup_cons.mp spread
  obtain ⟨zout,inner⟩ := List.nodup_cons.mp rest
  have mout := (List.nodup_cons.mp inner).1
  simp only [List.mem_cons,List.mem_append,not_or] at fout zout mout
  have kept : ∀ j, j ≠ m.id → modify h m.id (·.setParent (some e.id)) j = h j := fun j other => modify_other _ _ other
  have down : modify h m.id (·.setParent (some e.id)) f.id = (f.flip S).node (some z.id) (some e.id) := by
    rw [kept f.id fout.2.1,node,←Frame.node_flip,sibling,Frame.fill_ptr]
    rfl
  have between : modify h m.id (·.setParent (some e.id)) m.id = m.node Y.ptr (some e.id) := by
    rw [modify_same,mid]
    unfold Frame.node
    cases m.side <;> rfl
  have near : Rep (modify h m.id (·.setParent (some e.id))) (some f.id) S :=
    focus.rep.congr fun j member => kept j fun same => mout.1 (same ▸ member)
  have zsib : Rep (modify h m.id (·.setParent (some e.id))) (some z.id) z.sibling :=
    far.congr fun j member => kept j fun same => mout.2.1 (same ▸ member)
  have ylow : Rep (modify h m.id (·.setParent (some e.id))) (some m.id) Y :=
    mlow.congr fun j member => kept j fun same => mout.2.2.1 (same ▸ member)
  have msib : Rep (modify h m.id (·.setParent (some e.id))) (some m.id) m.sibling :=
    mfar.congr fun j member => kept j fun same => mout.2.2.2 (same ▸ member)
  obtain ⟨rep,same⟩ := rep_doubled (f := f.flip S) (u := outerBalance f.side.other m.balance)
    (v := innerBalance f.side.other m.balance) (w := 0)
    (zside.trans f.side.other_other.symm) mside down ((kept z.id zout.1).trans up) between near zsib msib ylow spread
  have whole : (f.flip S).fill (z.fill (m.fill Y)) = f.fill S := by rw [←sibling,Frame.fill_flip]
  have turned : (f.flip S).side.sign = -f.side.sign := f.side.sign_other
  obtain ⟨done,high⟩ := doubled_even (f := f.flip S) balanced (zside.trans f.side.other_other.symm) mside zbalanced
    (by rw [leaning,turned,Int.neg_neg]) height
  rw [whole] at done
  have rotated : (rotate f.side
    (rotate f.side.other (modify h m.id (·.setParent (some e.id))) z.id m.id) f.id m.id m.id).balance = m.balance := by
    rw [rotate_balance,rotate_balance,between,Frame.node_balance]
  rw [show (f.flip S).side = f.side.other from rfl,f.side.other_other,show (f.flip S).id = f.id from rfl,
    ←double_balances fout.1 f.side _ rotated] at rep same
  rw [climbStep_turn focus sibling heavy]
  refine ⟨_,m.id,true,_,?_,told focus ?_ rep (doubled_ptr _ _ _) done.entries,doubled_ptr _ _ _,done,?_⟩
  · have uneven : z.balance ≠ 0 := by omega
    have opposite : z.balance ≠ f.balance := by omega
    dsimp only
    rw [if_neg uneven,if_neg opposite,child]
    rfl
  · intro j member
    have out := outside j member
    rw [same j]
    · refine kept j fun equal => out ?_
      rw [equal]
      simp
    · simp only [List.mem_cons,List.mem_append,not_or] at out ⊢
      exact ⟨out.1,out.2.1,out.2.2.1,out.2.2.2.2.2⟩
  · have total := high
    change NodeTree.height (doubled (f.flip S) z m Y (outerBalance f.side.other m.balance)
      (innerBalance f.side.other m.balance) 0) = S.height+2 at total
    rw [total,sibling,height]
    change S.height+2+1 = _
    omega

theorem climbStep_spec (focus : Focus h (f::e::A) S) (balanced : Balanced S) (level : f.Level (S.height+1)) :
    ∃ h' x b S', climbStep h f.id e.id f.side = some (h',x,b) ∧ Focus h' (e::A) S' ∧ S'.ptr = some x ∧
    Climbed f S S' b := by
  have sign := f.side.sign_ne
  have bounds := f.side.sign_bounds
  have fbalance : (h f.id).balance = f.balance := by rw [focus_node focus,Frame.node_balance]
  have bal := level.balance
  have written : ∀ b, Focus (modify h f.id (·.setBalance b)) (e::A) ({f with balance := b}.fill S) := fun b =>
    focus_fill.mpr (focus.update rfl rfl fun hole p => by unfold Frame.node; cases f.side <;> rfl)
  rcases f.side.sign_cases level.low level.high with zero | heavy | light
  · rw [zero] at bal
    have equal := (Int.mul_eq_zero.mp bal.symm).resolve_left sign
    refine ⟨_,f.id,false,_,?_,written (-f.side.sign),Frame.fill_ptr _ _,leaned balanced level.sibling ?_ (by omega),?_⟩
    · unfold climbStep
      rw [fbalance,if_pos zero]
    · have less : (S.height : Int)-f.sibling.height = -1 := by omega
      rw [less]
      omega
    · rw [Frame.fill_height]
      change 1+max S.height f.sibling.height+0 = _
      omega
  · have height := lean_height level heavy
    obtain ⟨q,there⟩ : ∃ q, f.sibling.ptr = some q := by
      cases fs : f.sibling with
      | nil =>
        rw [fs,NodeTree.height] at height
        omega
      | node id l k b rk r => exact ⟨id,rfl⟩
    obtain ⟨z,X,zside,zid,sibling⟩ := exists_frame f.side.other there
    have zlevel := level.sibling
    rw [sibling] at zlevel
    have zlevel := (balanced_fill.mp zlevel).2
    rcases f.side.sign_cases zlevel.low zlevel.high with zero | same | opposite
    · exact climbStep_single focus balanced level heavy sibling zside (.inl zero)
    · exact climbStep_single focus balanced level heavy sibling zside (.inr (same.trans heavy.symm))
    · refine climbStep_double (z := z.flip X) (X := z.sibling) focus balanced level heavy ?_ ?_ opposite
      · rw [sibling,Frame.fill_flip]
      · rw [Frame.flip,zside,Side.other_other]
  · rw [light] at bal
    have equal : ((S.height+1 : Nat) : Int)-f.sibling.height = 1 := Int.eq_one_of_mul_eq_self_right sign bal.symm
    refine ⟨_,f.id,true,_,?_,written 0,Frame.fill_ptr _ _,leaned balanced level.sibling ?_ (by decide),?_⟩
    · unfold climbStep
      rw [fbalance,light,if_neg sign,if_pos rfl]
    · have vacant : (S.height : Int)-f.sibling.height = 0 := by omega
      rw [vacant,Int.mul_zero]
    · rw [Frame.fill_height]
      change 1+max S.height f.sibling.height+1 = _
      omega

theorem climb_spec {g : Frame κ} {C : Ctx κ} (fuel : Nat) (h : Heap κ) (S : NodeTree κ)
    (focus : Focus h (C++[g]) S) (balanced : Balanced S)
    (level : LevelCtx C (S.height+1)) (p : Nat) (d : Side) (up : ∃ f A, C++[g] = f::A ∧ f.id = p ∧ f.side = d)
    (enough : C.length < fuel) :
    ∃ h' T', climb fuel h p d true = some h' ∧ Focus h' [g] T' ∧ Rebalanced (plug C S) T' := by
  induction C generalizing fuel h S p d with
  | nil =>
    obtain ⟨f,A,same,rfl,rfl⟩ := up
    cases same
    cases fuel with
    | zero => cases enough
    | succ fuel =>
      refine ⟨h,S,?_,focus,rfl,balanced,fun ranked => ranked⟩
      unfold climb
      rw [focus_node (f := g) (c := []) focus,Frame.node_parent]
      rfl
  | cons f C ih =>
    obtain ⟨f',A',same,rfl,rfl⟩ := up
    cases same
    obtain ⟨e,A,outer⟩ : ∃ e A, C++[g] = e::A := by
      cases C with
      | nil => exact ⟨g,[],rfl⟩
      | cons e C => exact ⟨e,C++[g],rfl⟩
    have focus' : Focus h (f::(C++[g])) S := focus
    rw [outer] at focus'
    cases fuel with
    | zero => cases enough
    | succ fuel =>
      obtain ⟨h',x,b,S',step,done,here,climbed⟩ := climbStep_spec focus' balanced level.1
      have parent : (h f.id).parent = some e.id := by
        rw [focus_node focus',Frame.node_parent]
        rfl
      have parent' : (h' x).parent = some e.id := parent_here done here
      have side : (if (h' e.id).left = some x then Side.left else .right) = e.side := by
        by_cases left : e.side = .left
        · rw [if_pos ((hangs_left done here).mpr left),left]
        · rw [if_neg fun hangs => left ((hangs_left done here).mp hangs)]
          cases side : e.side with
          | left => exact absurd side left
          | right => rfl
      have enter : climb (fuel+1) h f.id f.side true = climb fuel h' e.id e.side b := by
        conv_lhs => unfold climb
        rw [parent]
        simp only [step,Option.bind_some,parent',side]
      have height := climbed.height
      rw [enter]
      cases b with
      | true =>
        rw [←outer] at done
        have level' : LevelCtx C (S'.height+1) := by
          rw [show S'.height+1 = _ from height]
          exact level.2
        obtain ⟨h'',T',run,focus'',rebalanced⟩ :=
          ih fuel h' S' done climbed.done.balanced level' e.id e.side ⟨e,A,outer,rfl,rfl⟩
          (Nat.lt_of_succ_lt_succ enough)
        refine ⟨h'',T',run,focus'',?_,rebalanced.balanced,fun ranked => rebalanced.ranked ?_⟩
        · rw [rebalanced.entries,plug,plug_entries,plug_entries,climbed.done.entries]
        · obtain ⟨inner,ranks⟩ := (ranked_plug (c := C) (t := f.fill S)).mp ranked
          refine ranked_plug.mpr ⟨climbed.done.ranked inner,?_⟩
          rw [size_entries climbed.done.entries]
          exact ranks
      | false =>
        have same : S'.height = 1+max (S.height+1) f.sibling.height := height
        refine ⟨h',plug C S',?_,focus_plug.mp (outer ▸ done),climbed.done.plug (same ▸ level.2)⟩
        cases fuel with
        | zero =>
          rw [List.length_cons] at enough
          omega
        | succ fuel => rfl

end Climb

section Delete

variable {κ : Type u} [Inhabited κ] {compare : κ → κ → Int} {key : κ}

-- A delete that has found its key: one node gone, and the keys and the ranks right for what is left.
structure Taken (compare : κ → κ → Int) (tree : AvlTree κ) (T : NodeTree κ) (key : κ)
    (done : Deleted κ) (T' : NodeTree κ)
    (x : Nat) (k : κ) : Prop where
  result : done.result = 0
  freed : done.freed = some k
  equal : compare key k = 0
  dropped : Dropped x k T.entries T'.entries
  ranked : Ranked T → Ranked T'
  root : done.tree.root = tree.root
  nodes : done.tree.nodes = tree.nodes.erase x
  length : done.tree.length = tree.length-1
  focus : Focus done.tree.heap [sentinel tree.root] T'
  balanced : Balanced T'

theorem Taken.holds {tree : AvlTree κ} {T T' : NodeTree κ} {done : Deleted κ} {x : Nat} {k : κ}
    (holds : Holds compare tree T)
    (taken : Taken compare tree T key done T' x k) : Holds compare done.tree T' := by
  have ids := taken.dropped.ids
  rw [NodeTree.ids_entries,NodeTree.ids_entries] at ids
  obtain ⟨a,b,old,new⟩ := taken.dropped.keys
  have sorted := holds.sorted
  rw [←NodeTree.keys_entries,old] at sorted
  refine ⟨taken.root.symm ▸ taken.focus,?_,taken.balanced,?_,?_⟩
  · rw [taken.root,taken.nodes]
    have all : (tree.root::x::T'.ids).Perm tree.nodes := (ids.symm.cons _).trans holds.nodes
    have less := ((List.Perm.swap _ _ _).trans all).erase x
    rwa [List.erase_cons_head] at less
  · rw [←NodeTree.keys_entries,new]
    exact sorted.sublist (List.Sublist.append_left (List.sublist_cons_self _ _) _)
  · rw [taken.length,holds.length,←NodeTree.length_ids,←NodeTree.length_ids,ids.length_eq]
    rfl

theorem Ready.remove {κ : Type u} {compare : κ → κ → Int} {key : κ} {g f : Frame κ} {h : Heap κ}
    {T : NodeTree κ} {C : Ctx κ}
    (ready : Ready compare key g T h f C) (enough : T.size ≤ n) :
    ∃ p h' T', (h f.id).parent = some p ∧ (h f.id).key = f.key ∧
    climb n (scoot h f.id p).1 p (scoot h f.id p).2 true = some h' ∧
      Focus h' [g] T' ∧ Balanced T' ∧ Dropped f.id f.key T.entries T'.entries ∧ (Ranked T → Ranked T') := by
  obtain ⟨e,A,outer⟩ : ∃ e A, C.map lower++[g] = e::A := by
    cases C with
    | nil => exact ⟨g,[],rfl⟩
    | cons e C => exact ⟨lower e,C.map lower++[g],rfl⟩
  have focus := ready.focus
  rw [outer] at focus
  have node := focus_node focus
  obtain ⟨h',scooted,focus'⟩ := scoot_spec focus
  rw [←outer] at focus'
  have count := ready.dropped.ids.length_eq
  rw [NodeTree.ids_entries,NodeTree.ids_entries,List.length_cons,NodeTree.length_ids,NodeTree.length_ids] at count
  have few := length_plug C f.sibling
  obtain ⟨h'',T',climbed,done,rebalanced⟩ :=
    climb_spec n h' f.sibling focus' ready.sibling (level_lower.mpr ready.level) e.id e.side
    ⟨e,A,outer,rfl,rfl⟩ (by rw [List.length_map]; omega)
  refine ⟨e.id,h'',T',?_,?_,?_,done,rebalanced.balanced,?_,fun ranked => rebalanced.ranked ?_⟩
  · rw [node,Frame.node_parent]
    rfl
  · rw [node,Frame.node_key]
  · rw [scooted]
    exact climbed
  · have same : (plug (C.map lower) f.sibling).entries = (plug C f.sibling).entries := by
      rw [plug_entries,plug_entries,before_map (g := lower) fun _ => rfl,after_map (g := lower) fun _ => rfl]
    rw [rebalanced.entries,same]
    exact ready.dropped
  · obtain ⟨inner,outer⟩ := ready.ranks ranked
    exact ranked_plug.mpr ⟨inner,ranks_lower outer⟩

-- A delete that has not: nothing freed and the keys where they were, the ranks too unless the search
-- came to a node below the key with nothing on its right.
structure Missed (compare : κ → κ → Int) (tree : AvlTree κ) (T : NodeTree κ) (key : κ) (done : Deleted κ)
    (T' : NodeTree κ) : Prop where
  result : done.result = -1
  freed : done.freed = none
  absent : ∀ k ∈ T.keys, compare key k ≠ 0
  entries : T'.entries = T.entries
  root : done.tree.root = tree.root
  nodes : done.tree.nodes = tree.nodes
  height : done.tree.height = tree.height
  length : done.tree.length = tree.length
  focus : Focus done.tree.heap [sentinel tree.root] T'
  balanced : Balanced T'
  exact : (∀ y, Passes compare key tree.heap (tree.heap tree.root).right y →
    0 < compare key (tree.heap y).key → (tree.heap y).right ≠ none) →
    T' = T

theorem Missed.holds {tree : AvlTree κ} {T T' : NodeTree κ} {done : Deleted κ} (holds : Holds compare tree T)
    (missed : Missed compare tree T key done T') : Holds compare done.tree T' := by
  refine ⟨missed.root.symm ▸ missed.focus,?_,missed.balanced,?_,?_⟩
  · rw [missed.root,missed.nodes,←NodeTree.ids_entries,missed.entries,NodeTree.ids_entries]
    exact holds.nodes
  · rw [←NodeTree.keys_entries,missed.entries,NodeTree.keys_entries]
    exact holds.sorted
  · rw [missed.length,holds.length,size_entries missed.entries]

theorem Ready.freed {tree : AvlTree κ} {T : NodeTree κ} (holds : Holds compare tree T)
    (fits : T.size ≤ tree.nodes.length) {h : Heap κ} {f : Frame κ}
    {C : Ctx κ} (ready : Ready compare key (sentinel tree.root) T h f C) :
    ∃ done T', freeNode tree h f.id = some done ∧ Holds compare done.tree T' ∧
    ∃ x k, Taken compare tree T key done T' x k := by
  obtain ⟨p,h',T',parent,keyed,climbed,focus,balanced,dropped,ranked⟩ := ready.remove fits
  have taken : Taken compare tree T key
    ⟨{tree with heap := h',nodes := tree.nodes.erase f.id,length := tree.length-1},0,some f.key⟩ T' f.id
      f.key := ⟨rfl,rfl,ready.equal,dropped,ranked,rfl,rfl,rfl,focus,balanced⟩
  refine ⟨_,T',?_,taken.holds holds,_,_,taken⟩
  unfold freeNode
  rw [parent]
  simp only [Option.bind_some,keyed,climbed,Option.map_some]

theorem overdone_fair {tree : AvlTree κ} {T : NodeTree κ} (holds : Holds compare tree T) {f : Frame κ}
    {c : Ctx κ} (whole : plug (f::c) .nil = T)
    (turns : ∀ e ∈ f::c, Turn compare key e)
    (fair : ∀ y, Passes compare key tree.heap (tree.heap tree.root).right y →
    0 < compare key (tree.heap y).key → (tree.heap y).right ≠ none) :
    f.side = .left := by
  cases side : f.side with
  | left => rfl
  | right =>
    have down : Focus tree.heap (f::(c++[sentinel tree.root])) .nil :=
      focus_plug (c := f::c).mpr (whole.symm ▸ holds.focus)
    have down' := focus_fill.mpr down
    have passes : Passes compare key tree.heap (f.fill .nil).ptr f.id := by
      rw [Frame.fill_ptr]
      exact .here
    have passes' := Passes.plug down' (fun e member => turns e (List.mem_cons_of_mem _ member)) passes
    have turn := turns f List.mem_cons_self
    unfold Turn at turn
    rw [side] at turn
    refine absurd ?_ (fair f.id ?_ ?_)
    · have child := focus_child down
      rw [side] at child
      exact child
    · rw [holds.top,←whole]
      exact passes'
    · rw [focus_key down]
      exact turn

theorem search_missed (order : Preordered compare) {tree : AvlTree κ} {T : NodeTree κ}
    (holds : Holds compare tree T) {h : Heap κ} {f : Frame κ}
    {c : Ctx κ} (whole : plug (f::c) .nil = T) (turns : ∀ e ∈ f::c, Turn compare key e)
    (focus : Focus h (overdone f::(c++[sentinel tree.root])) .nil) :
    Missed compare tree T key ⟨{tree with heap := h},-1,none⟩ (plug c ((overdone f).fill .nil)) := by
  have same : (plug c ((overdone f).fill .nil)).entries = T.entries := by
    rw [←whole,plug,plug_entries,plug_entries,Frame.fill_entries,Frame.fill_entries]
    rfl
  have balanced : Balanced (plug c ((overdone f).fill .nil)) := by
    have both := holds.balanced
    rw [←whole,plug] at both
    obtain ⟨inner,level⟩ := balanced_plug.mp both
    obtain ⟨bare,flevel⟩ := balanced_fill.mp inner
    refine balanced_plug.mpr ⟨balanced_fill.mpr ⟨bare,flevel.1,flevel.2,flevel.3,flevel.4⟩,?_⟩
    rw [Frame.fill_height] at level ⊢
    exact level
  refine ⟨rfl,rfl,?_,same,rfl,rfl,rfl,rfl,focus_plug.mp (focus_fill.mpr focus),balanced,fun fair => ?_⟩
  · rw [←whole]
    exact absent_plug order (whole.symm ▸ holds.sorted) turns
  · have side := overdone_fair holds whole turns fair
    rw [←whole]
    exact congrArg (plug c) (congrArg (Frame.fill · .nil) (overdone_left side))

theorem search_found {tree : AvlTree κ} {T : NodeTree κ} (balanced : Balanced T)
    (fits : T.size ≤ tree.nodes.length) {h : Heap κ} {f : Frame κ}
    {X : NodeTree κ} {c : Ctx κ} (whole : plug c (f.fill X) = T) (left : f.side = .left) (equal : compare key f.key = 0)
    (focus : Focus h (f::(c.map lower++[sentinel tree.root])) X) :
    ∃ h₂ f₂ C, simpleCase tree.nodes.length h f.id = some (h₂,f₂.id) ∧
    Ready compare key (sentinel tree.root) T h₂ f₂ C := by
  have node := focus_node focus
  unfold Frame.node at node
  rw [left] at node
  have lchild : (h f.id).left = X.ptr := by rw [node]
  have rchild : (h f.id).right = f.sibling.ptr := by rw [node]
  cases X with
  | nil =>
    refine ⟨h,f,c,?_,whole ▸ ready_plain focus equal (whole.symm ▸ balanced)⟩
    unfold simpleCase
    rw [lchild,rchild]
    rfl
  | node q l k b rk r =>
    generalize inner : NodeTree.node q l k b rk r = X at *
    have xhere : X.ptr = some q := inner ▸ rfl
    cases sibling : f.sibling with
    | nil =>
      have turned : (f.flip X).fill .nil = f.fill X := by rw [←sibling,Frame.fill_flip]
      have focus' : Focus h (f.flip X::(c.map lower++[sentinel tree.root])) .nil :=
        focus_fill.mp (turned.symm ▸ focus_fill.mpr focus)
      refine ⟨h,f.flip X,c,?_,?_⟩
      · unfold simpleCase
        rw [lchild,rchild,xhere,sibling]
        rfl
      · rw [←whole,←turned]
        exact ready_plain focus' equal (by rw [turned,whole]; exact balanced)
    | node q' l' k' b' rk' r' =>
      have small := height_size T
      obtain ⟨y,c',found,sides,inside,deep⟩ := rightmost_spec tree.nodes.length focus xhere (by
        have sizes := length_plug c (f.fill X)
        have high := height_size X
        rw [whole,Frame.fill_size] at sizes
        omega)
      have simple : simpleCase tree.nodes.length h f.id = some (swapKeys h f.id y.id,y.id) := by
        unfold simpleCase
        rw [lchild,rchild,xhere,sibling]
        simp only [NodeTree.ptr,found,Option.map_some]
      rw [←whole,←inside] at balanced
      have ready := ready_swapped deep left sides equal balanced
      rw [inside,whole] at ready
      exact ⟨_,{y with key := f.key},_,simple,ready⟩

theorem avlDelete_spec (order : Preordered compare) {tree : AvlTree κ} {T : NodeTree κ}
    (holds : Holds compare tree T) (key : κ) :
    ∃ done T', avlDelete compare tree key = some done ∧ Holds compare done.tree T' ∧
      ((∃ x k, Taken compare tree T key done T' x k) ∨ Missed compare tree T key done T') := by
  have top := holds.top
  have count := holds.nodes.length_eq
  rw [List.length_cons,NodeTree.length_ids] at count
  have fits : T.size ≤ tree.nodes.length := by omega
  cases here : T.ptr with
  | none =>
    have nothing : T = .nil := by
      cases T with
      | nil => rfl
      | node id l k b rk r => cases here
    subst nothing
    have missed : Missed compare tree .nil key ⟨tree,-1,none⟩ .nil :=
      ⟨rfl,rfl,by simp [NodeTree.keys],rfl,rfl,rfl,rfl,rfl,holds.focus,holds.balanced,fun _ => rfl⟩
    refine ⟨_,.nil,?_,holds,.inr missed⟩
    unfold avlDelete
    rw [top]
    rfl
  | some root =>
    have start : Focus tree.heap (([] : Ctx κ).map lower++[sentinel tree.root]) T := holds.focus
    obtain ⟨h,r,walk,searched⟩ :=
      deleteWalk_spec compare key tree.nodes.length tree.heap T start here rfl here (by simp)
      (by have small := height_size T; omega) fits
    have reached : plug [] T = T := rfl
    rw [reached] at searched
    cases searched with
    | missed f c whole turns focus =>
      have missed := search_missed order holds whole turns focus
      refine ⟨_,_,?_,missed.holds holds,.inr missed⟩
      unfold avlDelete
      rw [top,here]
      simp only [walk,Option.bind_some]
    | found f X c whole left equal turns focus =>
      obtain ⟨h₂,f₂,C,simple,ready⟩ := search_found holds.balanced fits whole left equal focus
      obtain ⟨done,T',freed,kept,taken⟩ := ready.freed holds fits
      refine ⟨done,T',?_,kept,.inl taken⟩
      unfold avlDelete
      rw [top,here]
      simp only [walk,Option.bind_some,simple,freed]

end Delete

end Icecast.AvlNodes
