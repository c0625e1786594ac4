import Mathlib.Data.List.Induction
import Icecast.AvlNodes
import Icecast.Lib.Rotations

namespace Icecast.AvlNodes
open NodeHeap

section Insert

variable {κ : Type u} {compare : κ → κ → Int} {key : κ} {new : Nat} {g : Frame κ} {h : Heap κ}
  {c : Ctx κ} {t : NodeTree κ}

-- What the way down of avl_insert does to a node it passes on.
def raise (f : Frame κ) : Frame κ := {f with rank := if f.side = .left then f.rank+1 else f.rank}

def leaf (new : Nat) (key : κ) : NodeTree κ := .node new .nil key 0 1 .nil

theorem raised {f : Frame κ} {X : NodeTree κ} (focus : Focus h (f::c) X) :
    Focus (if f.side = .left then modify h f.id fun n => n.setRank (n.rank+1) else h) (raise f::c) X := by
  by_cases left : f.side = .left
  · rw [if_pos left]
    refine focus.update rfl rfl fun hole p => ?_
    rw [raise,if_pos left]
    unfold Frame.node
    rw [left]
    rfl
  · have same : raise f = f := by rw [raise,if_neg left]
    rw [if_neg left,same]
    exact focus

theorem attached {f : Frame κ} (focus : Focus h (f::c) .nil) (fresh : new ∉ Ctx.ids (f::c)) (side : f.side = d) :
    Focus (modify (modify h new fun _ => avlNodeNew key (some f.id)) f.id (·.setChild d (some new)))
    (f::c) (leaf new key) := by
  have apart : f.id ≠ new := fun same => fresh (same ▸ List.mem_cons_self)
  have nodup := focus.nodup
  rw [NodeTree.ids,List.append_nil] at nodup
  subst side
  refine focus.replace ?_ ?_ ?_ ?_
  · rw [modify_same,modify_other _ _ apart]
    rfl
  · intro j member
    have here : j ≠ f.id := fun same => (List.nodup_cons.mp nodup).1 (same ▸ member)
    have there : j ≠ new := fun same => fresh (same ▸ List.mem_cons_of_mem _ member)
    rw [modify_other _ _ here,modify_other _ _ there]
  · refine ⟨?_,trivial,trivial⟩
    rw [modify_other _ _ apart.symm,modify_same]
    rfl
  · refine List.nodup_append.mpr ⟨nodup,List.nodup_singleton _,?_⟩
    intro a member b single same
    rw [same,List.mem_singleton.mp single] at member
    exact fresh member

-- The end of the way down: the new node hangs under `below`, whose last frame is s, with even nodes
-- between; s is not even unless it is the top.
structure Walked (compare : κ → κ → Int) (key : κ) (new : Nat) (g : Frame κ) (T : NodeTree κ)
    (h : Heap κ) (below above : Ctx κ)
    (t s : Nat) : Prop where
  focus : Focus h ((below++above).map raise++[g]) (leaf new key)
  whole : plug (below++above) .nil = T
  nonempty : below ≠ []
  top : (plug below .nil).ptr = some s
  up : Ctx.parent (above++[g]) = some t
  flat : ∀ f ∈ below.dropLast, f.balance = 0
  heavy : above = [] ∨ (plug below .nil).balance ≠ 0
  sides : ∀ f ∈ below++above, f.side = sideOf compare key f.key

theorem insertWalk_spec (compare : κ → κ → Int) (key : κ) (new : Nat) (fuel : Nat) (h : Heap κ)
    (below above : Ctx κ) (P : NodeTree κ)
    (t s p : Nat) (focus : Focus h ((below++above).map raise++[g]) P) (here : P.ptr = some p)
    (top : (plug below P).ptr = some s)
    (up : Ctx.parent (above++[g]) = some t) (flat : below = [] ∨ P.balance = 0 ∧ ∀ f ∈ below.dropLast, f.balance = 0)
    (heavy : above = [] ∨ (plug below P).balance ≠ 0) (sides : ∀ f ∈ below++above, f.side = sideOf compare key f.key)
    (fresh : new ∉ Ctx.ids ((below++above).map raise++[g])++P.ids) (enough : P.height ≤ fuel) :
    ∃ h' t' s' below' above', insertWalk compare key new fuel h t s p = some (h',t',s') ∧
      Walked compare key new g (plug (below++above) P) h' below' above' t' s' := by
  induction fuel generalizing h below above P t s p with
  | zero =>
    cases P with
    | nil => cases here
    | node id l k b rk r =>
      unfold NodeTree.height at enough
      omega
  | succ fuel ih =>
    obtain ⟨f,X,side,rfl,rfl⟩ := exists_frame (sideOf compare key (h p).key) here
    have down := focus_fill.mp focus
    have keyed := focus_key down
    rw [keyed] at side
    have lifted := raised down
    have ids : Ctx.ids ((f::below++above).map raise++[g]) = Ctx.ids (f::((below++above).map raise++[g])) := rfl
    have fresh' : new ∉ Ctx.ids ((f::below++above).map raise++[g])++X.ids := fun member =>
      fresh ((focus_ids f _ X).mem_iff.mpr (ids ▸ member))
    have sides' : ∀ x ∈ f::below++above, x.side = sideOf compare key x.key := List.forall_mem_cons.mpr ⟨side,sides⟩
    unfold insertWalk
    simp only [keyed,←side]
    have child : ((if f.side = .left then modify h f.id fun n =>
      n.setRank (n.rank+1) else h) f.id).child f.side = X.ptr :=
      focus_child (f := raise f) lifted
    rw [child]
    cases X with
    | nil =>
      refine ⟨_,t,s,f::below,above,rfl,?_⟩
      refine ⟨attached (d := f.side) lifted (fun member => fresh' (List.mem_append_left _ member)) rfl,rfl,
        List.cons_ne_nil _ _,top,up,?_,
        heavy,sides'⟩
      intro x member
      rcases flat with rfl | ⟨even,flat⟩
      · cases member
      · cases below with
        | nil => cases member
        | cons y below =>
          rcases List.mem_cons.mp member with rfl | member
          · rw [←even,Frame.fill_balance]
          · exact flat x member
    | node q l k b rk r =>
      have deeper : (NodeTree.node q l k b rk r).height ≤ fuel := by
        rw [Frame.fill_height] at enough
        omega
      dsimp only [NodeTree.ptr]
      rw [focus_balance lifted (q := q) rfl]
      by_cases even : (NodeTree.node q l k b rk r).balance ≠ 0
      · rw [if_pos even]
        have moved := ih _ [] (f::below++above) _ f.id q q lifted rfl rfl rfl (.inl rfl) (.inr even)
          sides' fresh' deeper
        exact moved
      · rw [if_neg even]
        have zero : (NodeTree.node q l k b rk r).balance = 0 := by simpa using even
        refine ih _ (f::below) above _ t s q lifted rfl top up (.inr ⟨zero,?_⟩) heavy sides' fresh' deeper
        intro x member
        cases below with
        | nil => cases member
        | cons y below =>
          rcases flat with wrong | ⟨even,flat⟩
          · cases wrong
          · rcases List.mem_cons.mp member with rfl | member
            · rw [←even,Frame.fill_balance]
            · exact flat x member

-- What "adjust balance factors" does to a node between s and the new one.
def settle (f : Frame κ) : Frame κ := {f with balance := f.side.sign}

theorem adjustBalances_spec (zs rest : Ctx κ) (fuel : Nat) (h : Heap κ) (focus : Focus h (zs++rest) (leaf new key))
    (sides : ∀ f ∈ zs, f.side = sideOf compare key f.key) (enough : zs.length < fuel) :
    ∃ h', adjustBalances compare key new fuel h (plug zs (leaf new key)).ptr = some h' ∧
      Focus h' (zs.map settle++rest) (leaf new key) := by
  induction zs using List.reverseRecOn generalizing rest fuel h with
  | nil =>
    cases fuel with
    | zero => cases enough
    | succ fuel => exact ⟨h,by simp [adjustBalances,plug,leaf,NodeTree.ptr],focus⟩
  | append_singleton zs z ih =>
    cases fuel with
    | zero => cases enough
    | succ fuel =>
      rw [List.append_assoc,List.singleton_append] at focus
      have spot := focus_plug.mp focus
      have node := focus_node spot
      have side := sides z (List.mem_append_right _ List.mem_cons_self)
      have other : z.id ≠ new := by
        intro same
        refine (List.nodup_append.mp focus.nodup).2.2 z.id ?_ new (by simp [leaf,NodeTree.ids]) same
        rw [Ctx.ids_append]
        exact List.mem_append_right _ List.mem_cons_self
      have settled : Focus (modify h z.id (·.setBalance z.side.sign)) (settle z::rest) (plug zs (leaf new key)) :=
        spot.update rfl rfl fun hole p => by
          unfold settle Frame.node
          cases z.side <;> rfl
      rw [List.length_append,List.length_singleton] at enough
      obtain ⟨h',done,focus'⟩ := ih (settle z::rest) fuel _ (focus_plug.mpr settled)
        (fun f member => sides f (List.mem_append_left _ member)) (by omega)
      refine ⟨h',?_,?_⟩
      · rw [plug_append,plug,plug,Frame.fill_ptr,adjustBalances,Option.bind_some,if_neg other,node,Frame.node_key,←side]
        have child : (modify h z.id (·.setBalance z.side.sign) z.id).child z.side = (plug zs (leaf new key)).ptr :=
          focus_child (f := settle z) settled
        dsimp only
        rw [child]
        exact done
      · rw [List.map_append,List.append_assoc]
        exact focus'

theorem grown {zs : Ctx κ} {t t' : NodeTree κ} (even : ∀ f ∈ zs, f.balance = 0) (taller : t'.height = t.height+1)
    (balanced : Balanced t')
    (level : LevelCtx zs t.height) :
    Balanced (plug (zs.map settle) t') ∧ (plug (zs.map settle) t').height = (plug zs t).height+1 := by
  induction zs generalizing t t' with
  | nil => exact ⟨balanced,taller⟩
  | cons f zs ih =>
    obtain ⟨here,level⟩ := level
    have zero := even f List.mem_cons_self
    have equal := here.balance
    rw [zero] at equal
    have heights : t.height = f.sibling.height := by
      cases side : f.side <;> rw [side,Side.sign] at equal <;> omega
    refine ih (t := f.fill t) (fun g member => even g (List.mem_cons_of_mem _ member)) ?_ ?_ ?_
    · simp only [Frame.fill_height,taller,settle]
      omega
    · refine balanced_fill.mpr ⟨balanced,here.sibling,?_,?_,?_⟩
      · simp only [settle,taller]
        cases f.side <;> simp only [Side.sign] <;> omega
      · exact f.side.sign_bounds.1
      · exact f.side.sign_bounds.2
    · rw [Frame.fill_height]
      exact level

theorem finishingTouch_focus {e : Frame κ} {A : Ctx κ} {S : NodeTree κ} {y : Option Nat}
    (ctx : RepCtx h (e::A) (some s)) (rep : Rep h y S)
    (here : S.ptr = some p) (nodup : (Ctx.ids (e::A)++S.ids).Nodup) (out : s ∉ Ctx.ids (e::A)) :
    Focus (finishingTouch h e.id s p) (e::A) S := by
  obtain ⟨_,inner,apart⟩ := List.nodup_append.mp nodup
  have inside := NodeTree.ptr_mem here
  have ep : e.id ≠ p := fun same => apart e.id List.mem_cons_self p inside same
  have split := List.nodup_cons.mp (List.nodup_append.mp nodup).1
  have link : (h e.id).right = some s ↔ e.side = .right := ctx.child_iff out .right
  have linked : (if (h e.id).right = some s then modify h e.id (·.setChild .right (some p)) else modify h e.id
    (·.setChild .left (some p))) =
      modify h e.id (·.setChild e.side (some p)) := by
    cases side : e.side with
    | right => exact if_pos (link.mpr side)
    | left =>
      refine if_neg fun same => ?_
      rw [link,side] at same
      cases same
  unfold finishingTouch
  rw [linked]
  refine ctx.hang ?_ (fun j member => ?_) ?_ nodup
  · rw [modify_other _ _ ep,modify_same,ctx.1,e.node_setChild,here]
  · have jp : j ≠ p := fun same => apart j (List.mem_cons_of_mem _ member) p inside same
    have je : j ≠ e.id := fun same => split.1 (same ▸ member)
    rw [modify_other _ _ jp,modify_other _ _ je]
  · have moved := rep.reparent inner (some e.id)
    rw [here] at moved
    refine moved.congr fun j member => ?_
    have je : j ≠ e.id := fun same => apart e.id List.mem_cons_self j member same.symm
    unfold reparent NodeHeap.modify
    simp only [if_neg je]

theorem hung {e f : Frame κ} {A : Ctx κ} {S : NodeTree κ} {h' : Heap κ} {y : Option Nat} (focus : Focus h (f::e::A) t)
    (same : ∀ j ∈ Ctx.ids (e::A), h' j = h j) (rep : Rep h' y S) (here : S.ptr = some p)
    (entries : S.entries = (f.fill t).entries) :
    Focus (finishingTouch h' e.id f.id p) (e::A) S := by
  obtain ⟨ctx,nodup,out⟩ := focus.room entries
  exact finishingTouch_focus (ctx.congr same) rep here nodup out

-- "single rotation".
theorem balancingAct_single (new : Nat) {e f z : Frame κ} {A : Ctx κ} {X : NodeTree κ}
    (focus : Focus h (f::e::A) (z.fill X))
    (balanced : Balanced (z.fill X)) (siblings : Balanced f.sibling) (heavy : f.balance = f.side.sign)
    (taller : (z.fill X).height = f.sibling.height+2)
    (same : z.side = f.side) (leaning : z.balance = f.side.sign) :
    ∃ h' S, balancingAct h f.side e.id f.id z.id new = some (h',false) ∧ Focus h' (e::A) S ∧
    Rebalanced (f.fill (z.fill X)) S ∧
      S.height = f.sibling.height+2 := by
  have sign := f.side.sign_ne
  have node := focus_node focus
  rw [Frame.fill_ptr] at node
  have down := focus_fill.mp focus
  have node' := focus_node down
  have spread := (single_ids f z X).nodup_iff.mp (frame_nodup focus)
  obtain ⟨rep,kept⟩ := rep_singled (v := 0) (w := 0) same node node' focus.ctx.2.1 down.ctx.2.1 down.rep spread
  obtain ⟨done,height⟩ := singled_even siblings same balanced leaning taller
  refine ⟨_,_,?_,hung focus ?_ rep (singled_ptr 0 0) done.entries,done,height⟩
  · unfold balancingAct
    rw [node,node',Frame.node_balance,Frame.node_balance,heavy,if_neg sign,if_neg (by omega),if_pos rfl,if_pos leaning]
  · intro j member
    refine kept j fun inside => outside_focus focus member ((single_ids f z X).mem_iff.mpr ?_)
    simp only [List.mem_cons,List.mem_append] at inside ⊢
    tauto

-- "double rotation".
theorem balancingAct_double (new : Nat) {e f z : Frame κ} {A : Ctx κ} {X : NodeTree κ}
    (focus : Focus h (f::e::A) (z.fill X))
    (balanced : Balanced (z.fill X)) (siblings : Balanced f.sibling) (heavy : f.balance = f.side.sign)
    (taller : (z.fill X).height = f.sibling.height+2)
    (zside : z.side = f.side.other) (leaning : z.balance = -f.side.sign) :
    ∃ h' S, balancingAct h f.side e.id f.id z.id new = some (h',false) ∧ Focus h' (e::A) S ∧
    Rebalanced (f.fill (z.fill X)) S ∧
      S.height = f.sibling.height+2 := by
  have sign := f.side.sign_ne
  -- the node between the two is there, as its side is the higher one
  have level := (balanced_fill.mp balanced).2
  have lean := level.balance
  rw [leaning,zside,Side.sign_other] at lean
  have inner : (X.height : Int)-z.sibling.height = 1 := Int.eq_one_of_mul_eq_self_right (by omega) lean.symm
  have there : ∃ p, X.ptr = some p := by
    cases X with
    | nil =>
      simp only [NodeTree.height] at inner
      omega
    | node id l k b rk r => exact ⟨id,rfl⟩
  obtain ⟨p,there⟩ := there
  obtain ⟨m,Y,mside,rfl,rfl⟩ := exists_frame f.side there
  have node := focus_node focus
  rw [Frame.fill_ptr] at node
  have down := focus_fill.mp focus
  have node' := focus_node down
  rw [Frame.fill_ptr] at node'
  have low := focus_fill.mp down
  have node'' := focus_node low
  have spread := (double_ids f z m Y).nodup_iff.mp (frame_nodup focus)
  obtain ⟨rep,kept⟩ := rep_doubled (u := outerBalance f.side m.balance) (v := innerBalance f.side m.balance) (w := 0)
    zside mside node node' node''
    focus.ctx.2.1 down.ctx.2.1 low.ctx.2.1 low.rep spread
  obtain ⟨done,height⟩ := doubled_even siblings zside mside balanced leaning taller
  have turned : (rotate f.side.other (rotate f.side h z.id m.id) f.id m.id m.id).balance = m.balance := by
    rw [rotate_balance,rotate_balance,node'',Frame.node_balance]
  have balances : doubleBalances (rotate f.side.other (rotate f.side h z.id m.id) f.id m.id) f.side f.id z.id m.id =
      modify (modify (modify (rotate f.side.other (rotate f.side h z.id m.id) f.id m.id) f.id
        (·.setBalance (outerBalance f.side m.balance)))
        z.id (·.setBalance (innerBalance f.side m.balance))) m.id (·.setBalance 0) := by
    unfold doubleBalances outerBalance innerBalance
    rw [turned]
    by_cases outer : m.balance = f.side.sign
    · rw [if_pos outer,if_pos outer,if_neg (by omega)]
    · rw [if_neg outer,if_neg outer]
      by_cases within : m.balance = -f.side.sign
      · rw [if_pos within,if_pos within]
      · rw [if_neg within,if_neg within]
  refine ⟨_,_,?_,hung focus ?_ rep (doubled_ptr _ _ _) done.entries,done,height⟩
  · unfold balancingAct
    have child : (h z.id).child f.side.other = some m.id := by
      rw [node',←zside]
      exact z.node_child _ _
    rw [node,node',Frame.node_balance,Frame.node_balance,←node',child,heavy,if_neg sign,if_neg (by omega),
      if_pos rfl,leaning,if_neg (by omega),
      if_pos rfl,←balances]
    rfl
  · intro j member
    refine kept j fun inside => outside_focus focus member ((double_ids f z m Y).mem_iff.mpr ?_)
    simp only [List.mem_cons,List.mem_append] at inside ⊢
    tauto

-- "balancing act": the subtree at s balanced again, and no higher than before unless s was even.
theorem balancingAct_spec (new : Nat) {e f : Frame κ} {A : Ctx κ} {L : NodeTree κ} (focus : Focus h (f::e::A) L)
    (balanced : Balanced L)
    (level : f.Level n) (taller : L.height = n+1) (leaning : n = 0 ∨ L.balance ≠ 0) (here : L.ptr = some r) :
    ∃ h' b S, balancingAct h f.side e.id f.id r new = some (h',b) ∧ Focus h' (e::A) S ∧ Rebalanced (f.fill L) S ∧
      (f.balance ≠ 0 → S.height = 1+max n f.sibling.height) := by
  have sign := f.side.sign_ne
  have bounds := f.side.sign_bounds
  have node := focus_node focus
  have bal := level.balance
  have written : ∀ b, Focus (modify h f.id (·.setBalance b)) (e::A) ({f with balance := b}.fill L) := fun b =>
    focus_fill.mpr (focus.update rfl rfl fun hole p => by unfold Frame.node; cases f.side <;> rfl)
  rcases f.side.sign_cases level.low level.high with zero | light | heavy
  · refine ⟨_,true,_,?_,written f.side.sign,leaned balanced level.sibling ?_ bounds,fun uneven => absurd zero uneven⟩
    · unfold balancingAct
      rw [node,Frame.node_balance,if_pos zero]
    · rw [zero] at bal
      have equal := (Int.mul_eq_zero.mp bal.symm).resolve_left sign
      have one : (L.height : Int)-f.sibling.height = 1 := by omega
      rw [one,Int.mul_one]
  · have lean : (n : Int)-f.sibling.height = -1 := by
      rw [light] at bal
      cases side : f.side <;> rw [side] at bal <;> simp only [Side.sign] at bal <;> omega
    refine ⟨_,false,_,?_,written 0,leaned balanced level.sibling ?_ (by decide),fun _ => ?_⟩
    · unfold balancingAct
      rw [node,Frame.node_balance,light,if_neg (by omega),if_pos rfl]
    · have absent : (L.height : Int)-f.sibling.height = 0 := by omega
      rw [absent,Int.mul_zero]
    · rw [Frame.fill_height]
      change 1+max L.height f.sibling.height = _
      omega
  · have lean : (n : Int)-f.sibling.height = 1 := by
      rw [heavy] at bal
      exact Int.eq_one_of_mul_eq_self_right sign bal.symm
    have height : L.height = f.sibling.height+2 := by omega
    have uneven : L.balance ≠ 0 := leaning.resolve_left (by omega)
    have before : 1+max n f.sibling.height = f.sibling.height+2 := by omega
    obtain ⟨z,X,zside,rfl,rfl⟩ := exists_frame f.side here
    have zlevel := (balanced_fill.mp balanced).2
    rw [Frame.fill_balance] at uneven
    rcases f.side.sign_cases zlevel.low zlevel.high with zero | inner | outer
    · exact absurd zero uneven
    · have whole := z.fill_flip X
      rw [←whole] at focus balanced height ⊢
      obtain ⟨h',S,run,done,rebalanced,same⟩ := balancingAct_double new focus balanced level.sibling heavy height
        (congrArg Side.other zside) inner
      exact ⟨h',false,S,run,done,rebalanced,fun _ => same.trans before.symm⟩
    · obtain ⟨h',S,run,done,rebalanced,same⟩ :=
        balancingAct_single new focus balanced level.sibling heavy height zside outer
      exact ⟨h',false,S,run,done,rebalanced,fun _ => same.trans before.symm⟩

theorem level_raise {c : Ctx κ} : LevelCtx (c.map raise) n ↔ LevelCtx c n :=
  level_map (fun _ => rfl) fun _ _ => ⟨fun l => ⟨l.1,l.2,l.3,l.4⟩,fun l => ⟨l.1,l.2,l.3,l.4⟩⟩

theorem raise_ranks (f : Frame κ) (n : Nat) (ranks : f.Ranks n) : (raise f).Ranks (n+1) := by
  obtain ⟨sibling,rank⟩ := ranks
  refine ⟨sibling,?_⟩
  unfold Frame.rankOf at rank ⊢
  change (if f.side = .left then f.rank+1 else f.rank) = _
  cases side : f.side with
  | left =>
    rw [side] at rank
    rw [if_pos rfl,rank,raise,side]
    exact (BitVec.ofNat_add (n+1) 1).symm
  | right =>
    rw [side] at rank
    rw [if_neg (by decide),rank,raise,side]

theorem ranks_raise {c : Ctx κ} (ranks : RanksCtx c n) : RanksCtx (c.map raise) (n+1) :=
  RanksCtx.map (i := 0) (j := 1) (fun _ => rfl) raise_ranks ranks

theorem ranks_settle {c rest : Ctx κ} : RanksCtx (c.map settle++rest) n ↔ RanksCtx (c++rest) n := by
  induction c generalizing n with
  | nil => exact Iff.rfl
  | cons f c ih => exact and_congr Iff.rfl ih

theorem sideOf_between (order : Preordered compare) {c : Ctx κ} {t : NodeTree κ}
    (sorted : Sorted compare (plug c t).keys)
    (sides : ∀ f ∈ c, f.side = sideOf compare key f.key) :
    Between compare key ((before c).map Prod.snd) ((after c).map Prod.snd) := by
  refine between_plug order sorted ?_ ?_
  · intro f member side
    rw [sides f member,sideOf] at side
    split at side
    · omega
    · cases side
  · intro f member side
    rw [sides f member,sideOf] at side
    split at side
    · cases side
    · have above := order.flip f.key key
      omega

theorem settled_leaning (new : Nat) (key : κ) (zs : Ctx κ) : ∃ r, (plug (zs.map raise) (leaf new key)).ptr = some r ∧
    ((plug zs (.nil : NodeTree κ)).height = 0 ∨ (plug ((zs.map raise).map settle) (leaf new key)).balance ≠ 0) := by
  cases zs using List.reverseRecOn with
  | nil => exact ⟨_,rfl,.inl rfl⟩
  | append_singleton zs z _ =>
    simp only [List.map_append,List.map_cons,List.map_nil,plug_append,plug,Frame.fill_ptr,Frame.fill_balance,settle]
    exact ⟨_,rfl,.inr (Side.sign_ne _)⟩

theorem Walked.finish {t : Nat} (w : Walked compare key new g T h below above t s) (balanced : Balanced T)
    (enough : T.size < fuel) :
    ∃ r h₂ h₃ b T', (h s).child (sideOf compare key (h s).key) = some r ∧
    adjustBalances compare key new fuel h (some r) = some h₂ ∧
      balancingAct h₂ (sideOf compare key (h₂ s).key) t s r new = some (h₃,b) ∧ Focus h₃ [g] T' ∧
      Rebalanced (plug ((below++above).map raise) (leaf new key)) T' := by
  obtain ⟨zs,f,rfl⟩ := (List.eq_nil_or_concat' below).resolve_left w.nonempty
  have whole := w.whole
  -- the way down, and the two levels at its end
  have level : LevelCtx (zs++f::above) (.nil : NodeTree κ).height := by
    have both := balanced_plug.mp (whole ▸ balanced)
    simpa using both.2
  obtain ⟨zlevel,flevel,alevel⟩ := level_append.mp level
  have s_eq : s = f.id := by
    have top := w.top
    rw [plug_append,plug,plug,Frame.fill_ptr] at top
    exact (Option.some.inj top).symm
  subst s_eq
  obtain ⟨e,A,outer,e_id⟩ : ∃ e A, above.map raise++[g] = e::A ∧ e.id = t := by
    have up := w.up
    cases above with
    | nil => exact ⟨_,[],rfl,Option.some.inj up⟩
    | cons x above => exact ⟨raise x,above.map raise++[g],rfl,Option.some.inj up⟩
  subst e_id
  have shape : (zs++[f]++above).map raise++[g] = zs.map raise++raise f::e::A := by
    rw [←outer]
    simp
  have focus₁ := w.focus
  rw [shape] at focus₁
  have side : f.side = sideOf compare key f.key := w.sides f (by simp)
  have node₁ : h f.id = (raise f).node (plug (zs.map raise) (leaf new key)).ptr (Ctx.parent (e::A)) :=
    focus_node (focus_plug.mp focus₁)
  have raised : ∀ z ∈ zs.map raise, z.balance = 0 ∧ z.side = sideOf compare key z.key := by
    intro z member
    obtain ⟨x,inside,rfl⟩ := List.mem_map.mp member
    exact ⟨w.flat x (by rw [List.dropLast_concat]; exact inside),w.sides x (by simp [inside])⟩
  have few := length_plug (zs++[f]++above) NodeTree.nil
  rw [whole] at few
  simp only [List.length_append] at few
  obtain ⟨h₂,adjusted,focus₂⟩ := adjustBalances_spec (zs.map raise) (raise f::e::A) fuel h focus₁
    (fun z member => (raised z member).2)
    (by rw [List.length_map]; omega)
  have focus₃ := focus_plug.mp focus₂
  have node₂ : h₂ f.id = (raise f).node _ (Ctx.parent (e::A)) := focus_node focus₃
  obtain ⟨lbalanced,taller⟩ := grown (fun z member => (raised z member).1)
    (show (leaf new key).height = (.nil : NodeTree κ).height+1 from rfl)
      ⟨rfl,by decide,by decide,trivial,trivial⟩ (level_raise.mpr zlevel)
  have flat : (plug (zs.map raise) .nil).height = (plug zs (.nil : NodeTree κ)).height :=
    plug_map_height (fun _ => rfl) rfl
  obtain ⟨r,here,leaning⟩ := settled_leaning new key zs
  have flevel' : (raise f).Level (plug zs NodeTree.nil).height := ⟨flevel.1,flevel.2,flevel.3,flevel.4⟩
  obtain ⟨h₃,b,S,acted,focus₄,done,height⟩ :=
    balancingAct_spec new focus₃ lbalanced flevel' (by rw [taller,flat]) leaning
    ((plug_map_ptr (g := settle) fun _ => rfl).trans here)
  have alevel' : LevelCtx (above.map raise) S.height := by
    apply level_raise.mpr
    rcases w.heavy with rfl | uneven
    · trivial
    · rw [plug_append,plug,plug,Frame.fill_balance] at uneven
      rw [height uneven]
      exact alevel
  have settled := done.plug alevel'
  have same : plug (above.map raise) ((raise f).fill (plug ((zs.map raise).map settle) (leaf new key))) =
      plug ((zs.map raise).map settle++(raise f::above.map raise)) (leaf new key) := by
    rw [plug_append]
    rfl
  rw [same] at settled
  have same' : (zs++[f]++above).map raise = zs.map raise++(raise f::above.map raise) := by simp
  refine ⟨r,h₂,h₃,b,plug (above.map raise) S,?_,here ▸ adjusted,?_,focus_plug.mp (outer ▸ focus₄),
    ⟨?_,settled.balanced,fun ranked => ?_⟩⟩
  · rw [node₁,Frame.node_key]
    change Node.child _ (sideOf compare key f.key) = _
    rw [←side,←here]
    exact (raise f).node_child _ _
  · rw [node₂,Frame.node_key]
    change balancingAct h₂ (sideOf compare key f.key) _ _ _ _ = _
    rw [←side]
    exact acted
  · rw [settled.entries,same',plug_entries,plug_entries,before_append,before_append,after_append,after_append,
      before_map (g := settle) fun _ => rfl,after_map (g := settle) fun _ => rfl]
  · rw [same'] at ranked
    refine settled.ranked (ranked_plug.mpr ?_)
    obtain ⟨inner,ranks⟩ := ranked_plug.mp ranked
    exact ⟨inner,ranks_settle.mpr ranks⟩

end Insert

section Holds

variable {κ : Type u} [Inhabited κ] {compare : κ → κ → Int} {key : κ} {new : Nat}

-- The dummy node above the tree.
def sentinel (root : Nat) : Frame κ := ⟨.right,root,default,0,1,.nil⟩

-- The tree that the nodes make up: linked both ways, balanced and sorted, of as many nodes as counted.
structure Holds (compare : κ → κ → Int) (tree : AvlTree κ) (T : NodeTree κ) : Prop where
  focus : Focus tree.heap [sentinel tree.root] T
  nodes : (tree.root::T.ids).Perm tree.nodes
  balanced : Balanced T
  sorted : Sorted compare T.keys
  length : tree.length = T.size

theorem Holds.top {tree : AvlTree κ} {T : NodeTree κ} (holds : Holds compare tree T) :
    (tree.heap tree.root).right = T.ptr := by
  have node : tree.heap tree.root = (sentinel tree.root).node T.ptr none := focus_node holds.focus
  rw [node]
  rfl

-- Where avl_insert has put the new node.
structure Inserted (tree : AvlTree κ) (T : NodeTree κ) (key : κ) (new : Nat) (tree' : AvlTree κ)
    (T' : NodeTree κ) (a b : List (Nat × κ)) : Prop where
  old : T.entries = a++b
  entries : T'.entries = a++(new,key)::b
  ranked : Ranked T → Ranked T'
  root : tree'.root = tree.root
  nodes : tree'.nodes = new::tree.nodes
  length : tree'.length = tree.length+1

theorem Inserted.holds {tree tree' : AvlTree κ} {T T' : NodeTree κ} {a b : List (Nat × κ)}
    (holds : Holds compare tree T)
    (inserted : Inserted tree T key new tree' T' a b) (focus : Focus tree'.heap [sentinel tree.root] T')
    (balanced : Balanced T')
    (between : Between compare key (a.map Prod.snd) (b.map Prod.snd)) : Holds compare tree' T' := by
  have ids : T'.ids.Perm (new::T.ids) := by
    rw [←NodeTree.ids_entries,←NodeTree.ids_entries,inserted.entries,inserted.old,List.map_append,List.map_append]
    exact List.perm_middle
  have sorted := holds.sorted
  rw [←NodeTree.keys_entries,inserted.old,List.map_append] at sorted
  refine ⟨inserted.root.symm ▸ focus,?_,balanced,?_,?_⟩
  · rw [inserted.root,inserted.nodes]
    exact ((ids.cons _).trans (List.Perm.swap _ _ _)).trans (holds.nodes.cons _)
  · rw [←NodeTree.keys_entries,inserted.entries,List.map_append]
    exact sorted.insert between
  · rw [inserted.length,holds.length,←NodeTree.length_ids,←NodeTree.length_ids,ids.length_eq]
    rfl

theorem avlInsert_spec (order : Preordered compare) {tree : AvlTree κ} {T : NodeTree κ}
    (holds : Holds compare tree T) (key : κ)
    (fresh : new ∉ tree.nodes) :
    ∃ tree' T' a b, avlInsert compare tree key new = some tree' ∧ Inserted tree T key new tree' T' a b ∧
    Holds compare tree' T' := by
  have unused : new ∉ tree.root::T.ids := fun member => fresh (holds.nodes.mem_iff.mp member)
  have count := holds.nodes.length_eq
  rw [List.length_cons,NodeTree.length_ids] at count
  have fresh' : new ∉ Ctx.ids [sentinel (κ := κ) tree.root]++T.ids := unused
  cases T with
  | nil =>
    have focus : Focus tree.heap [sentinel tree.root] .nil := holds.focus
    have hung : Focus _ [sentinel tree.root] (leaf new key) :=
      attached (d := .right) focus (fun member => fresh' (List.mem_append_left _ member)) rfl
    have inserted : Inserted tree .nil key new {tree with
        heap := modify (modify tree.heap new fun _ => avlNodeNew key (some tree.root)) tree.root
          (·.setChild .right (some new)),
        nodes := new::tree.nodes,length := tree.length+1} (leaf new key) [] [] :=
      ⟨rfl,rfl,fun _ => ⟨rfl,trivial,trivial⟩,rfl,rfl,rfl⟩
    refine ⟨_,_,[],[],?_,inserted,inserted.holds holds hung ⟨rfl,by decide,by decide,trivial,trivial⟩ ⟨by simp,by simp⟩⟩
    unfold avlInsert
    rw [holds.top]
    rfl
  | node top l k b rk r =>
    generalize whole : NodeTree.node top l k b rk r = T at *
    have here : T.ptr = some top := whole ▸ rfl
    obtain ⟨h₁,t,s,below,above,walk,w⟩ :=
      insertWalk_spec (g := sentinel tree.root) compare key new tree.nodes.length tree.heap
      [] [] T tree.root top top holds.focus here here rfl (.inl rfl) (.inl rfl) (by simp) fresh'
      (by have small := height_size T; omega)
    have reached : plug ([]++[]) T = T := rfl
    rw [reached] at w
    obtain ⟨r,h₂,h₃,b,T',child,adjusted,acted,focus,done⟩ :=
      w.finish holds.balanced (show T.size < tree.nodes.length+1 by omega)
    have entries : (plug ((below++above).map raise) (leaf new key)).entries = before
      (below++above)++(new,key)::after (below++above) := by
      rw [plug_entries,before_map (g := raise) fun _ => rfl,after_map (g := raise) fun _ => rfl]
      rfl
    have inserted : Inserted tree T key new {tree with
        heap := h₃,nodes := new::tree.nodes,height := if b then tree.height+1 else tree.height,
          length := tree.length+1} T'
        (before (below++above)) (after (below++above)) := by
      refine ⟨?_,done.entries.trans entries,fun ranked => done.ranked (ranked_plug.mpr ?_),rfl,rfl,rfl⟩
      · rw [←w.whole,plug_entries]
        rfl
      · rw [←w.whole] at ranked
        exact ⟨⟨rfl,trivial,trivial⟩,ranks_raise (ranked_plug.mp ranked).2⟩
    refine ⟨_,T',_,_,?_,inserted,
      inserted.holds holds focus done.balanced (sideOf_between order (w.whole ▸ holds.sorted) w.sides)⟩
    unfold avlInsert
    rw [holds.top,here]
    simp only [walk,child,adjusted,acted,Option.bind_some,Option.map_some]

end Holds

end Icecast.AvlNodes
