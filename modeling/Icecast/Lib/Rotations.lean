import Icecast.Lib.BalancedTree

namespace NodeHeap

variable {κ : Type u} {a : Side} {h : Heap κ} {f z m : Frame κ} {X Y : NodeTree κ} {x y : Option Nat}

-- f over z over X, z being taller than the sibling of f on the outer side: z comes up.
def singled (f z : Frame κ) (X : NodeTree κ) (bf bz : Int) : NodeTree κ :=
  {z.flip X with rank := upRank f.side.other f.rank z.rank,balance := bz}.fill
    ({f.flip X with rank := downRank f.side.other f.rank z.rank,sibling := z.sibling,balance := bf}.fill f.sibling)

-- f over z over m over Y, z being taller on the inner side: m comes up between f and z.
def lowered (f z m : Frame κ) (Y : NodeTree κ) (bz : Int) : NodeTree κ :=
  {z.flip Y with rank := downRank f.side z.rank m.rank,balance := bz}.fill z.sibling

def doubled (f z m : Frame κ) (Y : NodeTree κ) (bf bz bm : Int) : NodeTree κ :=
  {m.flip (lowered f z m Y bz) with rank := upRank f.side.other f.rank (upRank f.side z.rank m.rank),balance := bm}.fill
    ({f.flip Y with rank := downRank f.side.other f.rank (upRank f.side z.rank m.rank),sibling := m.sibling,balance := bf}.fill f.sibling)

theorem singled_ptr (bf bz : Int) : (singled f z X bf bz).ptr = some z.id := Frame.fill_ptr _ _

theorem doubled_ptr (bf bz bm : Int) : (doubled f z m Y bf bz bm).ptr = some m.id := Frame.fill_ptr _ _

theorem singled_withBalance (bf bz v w : Int) (nodup : (f.id::z.id::(f.sibling.ids++(z.sibling.ids++X.ids))).Nodup) :
    ((singled f z X bf bz).withBalance f.id v).withBalance z.id w = singled f z X v w := by
  obtain ⟨fout,rest⟩ := List.nodup_cons.mp nodup
  have zout := (List.nodup_cons.mp rest).1
  simp only [List.mem_cons,List.mem_append,not_or] at fout zout
  unfold singled
  simp only [withBalance_fill,withBalance_else fout.2.1,withBalance_else fout.2.2.1,withBalance_else zout.1,
    withBalance_else zout.2.1,
    Frame.flip,withBalance_else fout.2.2.2,withBalance_else zout.2.2,if_neg fout.1,if_neg (Ne.symm fout.1),if_true]

theorem rep_singled {v w : Int} (same : z.side = f.side) (down : h f.id = f.node (some z.id) x)
    (up : h z.id = z.node X.ptr y)
    (fs : Rep h (some f.id) f.sibling) (zs : Rep h (some z.id) z.sibling) (xs : Rep h (some z.id) X)
    (nodup : (f.id::z.id::(f.sibling.ids++(z.sibling.ids++X.ids))).Nodup) :
    Rep (modify (modify (rotate f.side.other h f.id z.id) f.id (·.setBalance v)) z.id (·.setBalance w)) y
    (singled f z X v w) ∧
    ∀ j ∉ f.id::z.id::z.sibling.ids,
      modify (modify (rotate f.side.other h f.id z.id) f.id (·.setBalance v)) z.id (·.setBalance w) j = h j := by
  have down' : h (f.flip (z.fill X)).id = (f.flip (z.fill X)).node f.sibling.ptr x := by
    rw [Frame.node_flip,Frame.fill_ptr]
    exact down
  have up' : h (z.flip X).id = (z.flip X).node z.sibling.ptr y := by
    rw [Frame.node_flip]
    exact up
  have side : (z.flip X).side = f.side.other := congrArg Side.other same
  obtain ⟨rep,else_⟩ := rotate_rep (f := f.flip (z.fill X)) (g := z.flip X) rfl side down' up' fs zs xs nodup
  refine ⟨?_,?_⟩
  · rw [←singled_withBalance f.balance z.balance v w nodup]
    exact (rep.withBalance f.id v).withBalance z.id w
  · intro j out
    have jz : j ≠ z.id := fun equal => out (equal ▸ List.mem_cons_of_mem _ List.mem_cons_self)
    have jf : j ≠ f.id := fun equal => out (equal ▸ List.mem_cons_self)
    rw [modify_other _ _ jz,modify_other _ _ jf]
    exact else_ j out

theorem singled_entries (same : z.side = f.side) (bf bz : Int) : (singled f z X bf bz).entries =
    (f.fill (z.fill X)).entries := by
  obtain ⟨side,id,key,b,rk,sibling⟩ := f
  obtain ⟨zside,zid,zkey,zb,zrk,zsib⟩ := z
  cases same
  cases side <;> simp [singled,Frame.fill,Frame.flip,Side.other,NodeTree.entries]

theorem singled_ranked (same : z.side = f.side) (bf bz : Int) (ranked : Ranked (f.fill (z.fill X))) :
    Ranked (singled f z X bf bz) := by
  have side : (z.flip X).side = f.side.other := congrArg Side.other same
  rw [←Frame.fill_flip] at ranked
  have turned := rotated_ranked (f := f.flip (z.fill X)) (g := z.flip X) rfl side (z.fill_flip X).symm ranked
  obtain ⟨fside,id,key,b,rk,sibling⟩ := f
  obtain ⟨zside,zid,zkey,zb,zrk,zsib⟩ := z
  cases same
  cases fside <;> exact turned

theorem singled_balanced (fs : Balanced f.sibling) (zs : Balanced z.sibling) (xs : Balanced X) {bf bz : Int}
    (flevel : bf = -f.side.sign*((f.sibling.height : Int)-z.sibling.height)) (fbound : -1 ≤ bf ∧ bf ≤ 1)
    (same : z.side = f.side) (zlevel :
    bz = -f.side.sign*((1+max f.sibling.height z.sibling.height : Nat)-(X.height : Int)))
    (zbound : -1 ≤ bz ∧ bz ≤ 1) : Balanced (singled f z X bf bz) := by
  unfold singled
  refine balanced_fill.mpr ⟨balanced_fill.mpr ⟨fs,zs,?_,fbound.1,fbound.2⟩,xs,?_,zbound.1,zbound.2⟩
  · rw [Frame.flip,Side.sign_other]
    exact flevel
  · rw [Frame.fill_height,Frame.flip,Side.sign_other,same]
    exact zlevel

theorem singled_height (bf bz : Int) :
    (singled f z X bf bz).height = 1+max (1+max f.sibling.height z.sibling.height) X.height := by
  simp [singled,Frame.flip]

theorem doubled_withBalance (bf bz bm u v w : Int)
    (nodup : (f.id::z.id::m.id::(f.sibling.ids++(z.sibling.ids++(Y.ids++m.sibling.ids)))).Nodup) :
    (((doubled f z m Y bf bz bm).withBalance f.id u).withBalance z.id v).withBalance m.id w = doubled f z m Y u v w := by
  obtain ⟨fout,rest⟩ := List.nodup_cons.mp nodup
  obtain ⟨zout,rest⟩ := List.nodup_cons.mp rest
  have mout := (List.nodup_cons.mp rest).1
  simp only [List.mem_cons,List.mem_append,not_or] at fout zout mout
  obtain ⟨fz,fm,f1,f2,f3,f4⟩ := fout
  obtain ⟨zm,z1,z2,z3,z4⟩ := zout
  obtain ⟨m1,m2,m3,m4⟩ := mout
  unfold doubled lowered
  simp only [withBalance_fill,Frame.flip,withBalance_else f1,withBalance_else f2,
    withBalance_else f3,withBalance_else f4,
    withBalance_else z1,withBalance_else z2,withBalance_else z3,withBalance_else z4,
      withBalance_else m1,withBalance_else m2,
    withBalance_else m3,withBalance_else m4,if_neg fz,if_neg fm,if_neg zm,if_neg (Ne.symm fz),if_neg (Ne.symm fm),
      if_neg (Ne.symm zm),if_true]

theorem rep_doubled {u v w : Int} (zside : z.side = f.side.other) (mside : m.side = f.side)
    (top : h f.id = f.node (some z.id) x)
    (middle : h z.id = z.node (some m.id) x') (low : h m.id = m.node Y.ptr y)
    (fs : Rep h (some f.id) f.sibling) (zs : Rep h (some z.id) z.sibling) (ms : Rep h (some m.id) m.sibling)
    (ys : Rep h (some m.id) Y)
    (nodup : (f.id::z.id::m.id::(f.sibling.ids++(z.sibling.ids++(Y.ids++m.sibling.ids)))).Nodup) :
    Rep (modify (modify (modify (rotate f.side.other (rotate f.side h z.id m.id) f.id m.id) f.id (·.setBalance u))
      z.id (·.setBalance v)) m.id (·.setBalance w)) y (doubled f z m Y u v w) ∧
    ∀ j ∉ f.id::z.id::m.id::(Y.ids++m.sibling.ids),
    modify (modify (modify (rotate f.side.other (rotate f.side h z.id m.id) f.id m.id)
      f.id (·.setBalance u)) z.id (·.setBalance v)) m.id (·.setBalance w) j = h j := by
  obtain ⟨fout,rest⟩ := List.nodup_cons.mp nodup
  obtain ⟨zout,inner⟩ := List.nodup_cons.mp rest
  obtain ⟨mout,parts⟩ := List.nodup_cons.mp inner
  obtain ⟨_,behind,apart⟩ := List.nodup_append.mp parts
  obtain ⟨_,lower,apart'⟩ := List.nodup_append.mp behind
  obtain ⟨_,_,apart''⟩ := List.nodup_append.mp lower
  have zflip : h (z.flip (m.fill Y)).id = (z.flip (m.fill Y)).node z.sibling.ptr x' := by
    rw [Frame.node_flip,Frame.fill_ptr]
    exact middle
  have side : (z.flip (m.fill Y)).side = f.side := by
    rw [Frame.flip,zside,Side.other_other]
  have first := rotate_rep side mside zflip low zs ys ms
    ((List.nodup_cons.mpr ⟨fun member => zout (by simp only [List.mem_cons,List.mem_append] at member ⊢; tauto),
      List.nodup_cons.mpr ⟨fun member => mout (by simp only [List.mem_append] at member ⊢; tauto),behind⟩⟩))
  change Rep (rotate f.side h z.id m.id) y
    ({m with rank := upRank f.side z.rank m.rank}.fill (lowered f z m Y z.balance)) ∧
    ∀ j ∉ z.id::m.id::Y.ids, rotate f.side h z.id m.id j = h j at first
  obtain ⟨rep,kept⟩ := first
  obtain ⟨here,lowRep,farRep⟩ := rep_fill.mp rep
  have ftop : rotate f.side h z.id m.id f.id = (f.flip (z.fill (m.fill Y))).node f.sibling.ptr x := by
    rw [kept f.id,Frame.node_flip,Frame.fill_ptr,top]
    intro member
    refine fout ?_
    simp only [List.mem_cons,List.mem_append] at member ⊢
    tauto
  have fsKept : Rep (rotate f.side h z.id m.id) (some f.id) f.sibling := by
    refine fs.congr fun j member => kept j fun inside => ?_
    simp only [List.mem_cons] at inside
    rcases inside with rfl | rfl | inside
    · exact zout (List.mem_cons_of_mem _ (List.mem_append_left _ member))
    · exact mout (List.mem_append_left _ member)
    · exact apart j member j (List.mem_append_right _ (List.mem_append_left _ inside)) rfl
  have up : rotate f.side h z.id m.id m.id =
      (({m with rank := upRank f.side z.rank m.rank} : Frame κ).flip
        (lowered f z m Y z.balance)).node m.sibling.ptr y := by
    have turned := Frame.node_flip {m with rank := upRank f.side z.rank m.rank} (lowered f z m Y z.balance) y
    rw [here]
    exact turned.symm
  have ids : (lowered f z m Y z.balance).ids.Perm (z.id::(Y.ids++z.sibling.ids)) := Frame.fill_ids _ _
  have nodup' : (f.id::m.id::(f.sibling.ids++(m.sibling.ids++(lowered f z m Y z.balance).ids))).Nodup := by
    have perm : (f.id::m.id::(f.sibling.ids++(m.sibling.ids++(lowered f z m Y z.balance).ids))).Perm
        (f.id::z.id::m.id::(f.sibling.ids++(z.sibling.ids++(Y.ids++m.sibling.ids)))) := by
      apply List.Perm.cons _
      apply (((ids.append_left _).append_left _).cons _).trans
      apply List.Perm.trans (List.Perm.cons _ ((List.perm_middle.append_left _).trans List.perm_middle))
      refine (List.Perm.swap _ _ _).trans (((List.Perm.append_left _ ?_).cons _).cons _)
      apply List.perm_append_comm.trans
      rw [List.append_assoc]
      apply List.perm_append_comm.trans
      rw [List.append_assoc]
      exact List.Perm.append_left _ List.perm_append_comm
    exact perm.nodup_iff.mpr nodup
  have second := rotate_rep (f := f.flip (z.fill (m.fill Y)))
    (g := ({m with rank := upRank f.side z.rank m.rank} : Frame κ).flip (lowered f z m Y z.balance)) (d := f.side.other)
    rfl (congrArg Side.other mside) ftop up fsKept farRep lowRep nodup'
  refine ⟨?_,?_⟩
  · rw [←doubled_withBalance f.balance z.balance m.balance u v w nodup]
    exact ((second.1.withBalance f.id u).withBalance z.id v).withBalance m.id w
  · intro j out
    simp only [List.mem_cons,List.mem_append,not_or] at out
    rw [modify_other _ _ out.2.2.1,modify_other _ _ out.2.1,modify_other _ _ out.1]
    refine (second.2 j ?_).trans (kept j ?_)
    · change j ∉ f.id::m.id::m.sibling.ids
      simp only [List.mem_cons,not_or]
      exact ⟨out.1,out.2.2.1,out.2.2.2.2⟩
    · simp only [List.mem_cons,not_or]
      exact ⟨out.2.1,out.2.2.1,out.2.2.2.1⟩

theorem doubled_entries (zside : z.side = f.side.other) (mside : m.side = f.side) (bf bz bm : Int) :
    (doubled f z m Y bf bz bm).entries = (f.fill (z.fill (m.fill Y))).entries := by
  obtain ⟨side,id,key,b,rk,sibling⟩ := f
  obtain ⟨zside',zid,zkey,zb,zrk,zsib⟩ := z
  obtain ⟨mside',mid,mkey,mb,mrk,msib⟩ := m
  cases zside
  cases mside
  cases side <;> simp [doubled,lowered,Frame.fill,Frame.flip,Side.other,NodeTree.entries]

theorem size_entries {t t' : NodeTree κ} (same : t.entries = t'.entries) : t.size = t'.size := by
  rw [←NodeTree.length_ids,←NodeTree.length_ids,←NodeTree.ids_entries,←NodeTree.ids_entries,same]

theorem doubled_ranked (zside : z.side = f.side.other) (mside : m.side = f.side) (bf bz bm : Int)
    (ranked : Ranked (f.fill (z.fill (m.fill Y)))) : Ranked (doubled f z m Y bf bz bm) := by
  obtain ⟨inner,outer⟩ := ranked_fill.mp ranked
  have side : (z.flip (m.fill Y)).side = f.side := by
    rw [Frame.flip,zside,Side.other_other]
  have whole : (z.flip (m.fill Y)).fill z.sibling = z.fill (m.fill Y) := z.fill_flip _
  have first := rotated_ranked (A := z.sibling) (B := Y) side mside rfl (whole ▸ inner)
  have size := size_entries
    (rotated_entries (A := z.sibling) (B := Y) side mside (show (z.flip (m.fill Y)).sibling = m.fill Y from rfl))
  rw [whole] at size
  have both := ranked_fill.mpr ⟨first,size ▸ outer⟩
  rw [←Frame.fill_flip] at both
  have second := rotated_ranked
    (g := ({m with rank := upRank f.side z.rank m.rank} : Frame κ).flip (lowered f z m Y z.balance))
    (B := m.sibling) (d := f.side.other) rfl (congrArg Side.other mside) (Frame.fill_flip _ _).symm both
  obtain ⟨side',id,key,b,rk,sibling⟩ := f
  obtain ⟨zside',zid,zkey,zb,zrk,zsib⟩ := z
  obtain ⟨mside',mid,mkey,mb,mrk,msib⟩ := m
  cases zside
  cases mside
  cases side' <;> exact second

theorem doubled_balanced (fs : Balanced f.sibling) (zs : Balanced z.sibling) (ms : Balanced m.sibling) (ys : Balanced Y)
    (zside : z.side = f.side.other) (mside : m.side = f.side) {bf bz bm : Int}
    (flevel : bf = -f.side.sign*((f.sibling.height : Int)-m.sibling.height)) (fbound : -1 ≤ bf ∧ bf ≤ 1)
    (zlevel : bz = f.side.sign*((z.sibling.height : Int)-Y.height)) (zbound : -1 ≤ bz ∧ bz ≤ 1)
    (mlevel : bm = -f.side.sign*((max f.sibling.height m.sibling.height :
    Nat)-(max z.sibling.height Y.height : Nat) : Int))
    (mbound : -1 ≤ bm ∧ bm ≤ 1) : Balanced (doubled f z m Y bf bz bm) := by
  unfold doubled
  refine balanced_fill.mpr ⟨balanced_fill.mpr ⟨fs,ms,?_,fbound.1,fbound.2⟩,?_,?_,mbound.1,mbound.2⟩
  · rw [Frame.flip,Side.sign_other]
    exact flevel
  · refine balanced_fill.mpr ⟨zs,ys,?_,zbound.1,zbound.2⟩
    rw [Frame.flip,zside,Side.other_other]
    exact zlevel
  · unfold lowered
    rw [Frame.fill_height,Frame.flip,Side.sign_other,mside,mlevel]
    simp only [Frame.fill_height,Frame.flip]
    congr 1
    omega

theorem doubled_height (bf bz bm : Int) : (doubled f z m Y bf bz bm).height =
    1+max (1+max f.sibling.height m.sibling.height) (1+max z.sibling.height Y.height) := by
  simp [doubled,lowered,Frame.flip]

theorem rotate_balance (d : Side) (h : Heap κ) (p q j : Nat) : (rotate d h p q j).balance = (h j).balance := by
  have kept : ∀ (g : Heap κ) (i : Nat) (n : Node κ → Node κ),
    (∀ x, (n x).balance = x.balance) → (modify g i n j).balance = (g j).balance := by
    intro g i n same
    unfold modify
    split
    · exact same _
    · rfl
  have child : ∀ (e : Side) (g : Heap κ) (i : Nat) (x : Option Nat),
    (modify g i (·.setChild e x) j).balance = (g j).balance :=
    fun e g i x => kept g i _ fun n => by cases e <;> rfl
  have moved : ∀ (g : Heap κ) (x y : Option Nat), (reparent g x y j).balance = (g j).balance := by
    intro g x y
    cases x with
    | none => rfl
    | some i => exact kept g i _ fun n => rfl
  have before : (modify (modify (reparent (modify h p (·.setChild d.other ((h q).child d))) ((h q).child d) (some p)) q
      (·.setChild d (some p))) p (·.setParent (some q)) j).balance = (h j).balance :=
    (kept _ _ (·.setParent (some q)) fun _ => rfl).trans ((child _ _ _ _).trans ((moved _ _ _).trans (child _ _ _ _)))
  cases d with
  | left =>
    refine Eq.trans ?_ before
    exact kept _ q (fun n => n.setRank (n.rank+_)) fun _ => rfl
  | right =>
    refine Eq.trans ?_ before
    exact kept _ p (fun n => n.setRank (n.rank-_)) fun _ => rfl

theorem single_ids (f z : Frame κ) (X : NodeTree κ) :
    (f.id::(f.sibling.ids++(z.fill X).ids)).Perm (f.id::z.id::(f.sibling.ids++(z.sibling.ids++X.ids))) :=
  (((z.fill_ids X).append_left _).trans List.perm_middle).cons _

theorem double_ids (f z m : Frame κ) (Y : NodeTree κ) : (f.id::(f.sibling.ids++(z.fill (m.fill Y)).ids)).Perm
    (f.id::z.id::m.id::(f.sibling.ids++(z.sibling.ids++(Y.ids++m.sibling.ids)))) := by
  refine (single_ids f z _).trans (((List.Perm.append_left _ ?_).trans List.perm_middle |>.cons _).cons _)
  apply ((m.fill_ids Y).append_left _).trans
  exact List.perm_middle.trans ((List.perm_append_comm.append_left _).cons _)

-- A tree in place of another: the same nodes in order, balanced, with its ranks right if they were.
structure Rebalanced (old new : NodeTree κ) : Prop where
  entries : new.entries = old.entries
  balanced : Balanced new
  ranked : Ranked old → Ranked new

theorem Rebalanced.plug {c : Ctx κ} {t t' : NodeTree κ} (done : Rebalanced t t') (level : LevelCtx c t'.height) :
    Rebalanced (plug c t) (plug c t') := by
  refine ⟨?_,balanced_plug.mpr ⟨done.balanced,level⟩,fun ranked => ?_⟩
  · rw [plug_entries,plug_entries,done.entries]
  · obtain ⟨inner,outer⟩ := ranked_plug.mp ranked
    rw [←size_entries done.entries] at outer
    exact ranked_plug.mpr ⟨done.ranked inner,outer⟩

theorem leaned {t : NodeTree κ} {b : Int} (ts : Balanced t) (fs : Balanced f.sibling)
    (level : b = f.side.sign*((t.height : Int)-f.sibling.height))
    (bounds : -1 ≤ b ∧ b ≤ 1) : Rebalanced (f.fill t) ({f with balance := b}.fill t) := by
  refine ⟨?_,balanced_fill.mpr ⟨ts,fs,level,bounds.1,bounds.2⟩,?_⟩
  · rw [Frame.fill_entries,Frame.fill_entries]
    rfl
  · intro ranked
    obtain ⟨inner,outer⟩ := ranked_fill.mp ranked
    exact ranked_fill.mpr ⟨inner,outer⟩

theorem singled_even (fs : Balanced f.sibling) (same : z.side = f.side) (balanced : Balanced (z.fill X))
    (leaning : z.balance = f.side.sign)
    (taller : (z.fill X).height = f.sibling.height+2) :
    Rebalanced (f.fill (z.fill X)) (singled f z X 0 0) ∧ (singled f z X 0 0).height = f.sibling.height+2 := by
  obtain ⟨xs,level⟩ := balanced_fill.mp balanced
  have lean := level.balance
  rw [leaning,same] at lean
  have inner : (X.height : Int)-z.sibling.height = 1 := Int.eq_one_of_mul_eq_self_right f.side.sign_ne lean.symm
  rw [Frame.fill_height] at taller
  refine ⟨⟨singled_entries same 0 0,singled_balanced fs level.sibling xs ?_ (by decide) same ?_ (by decide),
    singled_ranked same 0 0⟩,?_⟩
  · have equal : (f.sibling.height : Int)-z.sibling.height = 0 := by omega
    rw [equal,Int.mul_zero]
  · have equal : ((1+max f.sibling.height z.sibling.height : Nat) : Int)-X.height = 0 := by omega
    rw [equal,Int.mul_zero]
  · rw [singled_height]
    omega

theorem singled_uneven (fs : Balanced f.sibling) (same : z.side = f.side) (balanced : Balanced (z.fill X))
    (leaning : z.balance = 0)
    (taller : (z.fill X).height = f.sibling.height+2) :
    Rebalanced (f.fill (z.fill X)) (singled f z X f.side.sign (-f.side.sign)) ∧
      (singled f z X f.side.sign (-f.side.sign)).height = f.sibling.height+3 := by
  obtain ⟨xs,level⟩ := balanced_fill.mp balanced
  have lean := level.balance
  rw [leaning,same] at lean
  have inner : (X.height : Int)-z.sibling.height = 0 := (Int.mul_eq_zero.mp lean.symm).resolve_left f.side.sign_ne
  rw [Frame.fill_height] at taller
  have bounds := f.side.sign_bounds
  refine ⟨⟨singled_entries same _ _,singled_balanced fs level.sibling xs ?_ bounds same ?_ (by omega),
    singled_ranked same _ _⟩,?_⟩
  · have equal : (f.sibling.height : Int)-z.sibling.height = -1 := by omega
    rw [equal]
    omega
  · have equal : ((1+max f.sibling.height z.sibling.height : Nat) : Int)-X.height = 1 := by omega
    rw [equal]
    omega
  · rw [singled_height]
    omega

-- The balances a double rotation leaves on the two nodes that end below, by that of the one between.
def outerBalance (a : Side) (b : Int) : Int := if b = a.sign then -a.sign else 0

def innerBalance (a : Side) (b : Int) : Int := if b = -a.sign then a.sign else 0

theorem doubled_even (fs : Balanced f.sibling) (zside : z.side = f.side.other) (mside : m.side = f.side)
    (balanced : Balanced (z.fill (m.fill Y))) (leaning : z.balance = -f.side.sign)
    (taller : (z.fill (m.fill Y)).height = f.sibling.height+2) :
    let t := doubled f z m Y (outerBalance f.side m.balance) (innerBalance f.side m.balance) 0
    Rebalanced (f.fill (z.fill (m.fill Y))) t ∧ t.height = f.sibling.height+2 := by
  intro t
  obtain ⟨ms,level⟩ := balanced_fill.mp balanced
  obtain ⟨ys,mlevel⟩ := balanced_fill.mp ms
  have lean := level.balance
  rw [leaning,zside,Side.sign_other] at lean
  have inner : ((m.fill Y).height : Int)-z.sibling.height = 1 :=
    Int.eq_one_of_mul_eq_self_right (by have sign := f.side.sign_ne; omega) lean.symm
  have mid := mlevel.balance
  rw [mside] at mid
  rw [Frame.fill_height] at taller
  rw [Frame.fill_height] at inner taller
  have low := mlevel.low
  have high := mlevel.high
  have bal : Balanced t := by
    apply doubled_balanced fs level.sibling mlevel.sibling ys zside mside
    all_goals
      cases side : f.side <;> rw [side] at mid <;> simp only [Side.sign,outerBalance,innerBalance] at mid ⊢ <;>
        (try split_ifs) <;> omega
  refine ⟨⟨doubled_entries zside mside _ _ _,bal,doubled_ranked zside mside _ _ _⟩,?_⟩
  rw [doubled_height]
  cases side : f.side <;> rw [side] at mid <;> simp only [Side.sign] at mid <;> omega

end NodeHeap
