import Icecast.AvlDeletion

namespace Icecast.AvlNodes
open NodeHeap Transition

section Search

variable {κ : Type u} {compare : κ → κ → Int} {h : Heap κ} {t : NodeTree κ}

def Present (compare : κ → κ → Int) (key : κ) (t : NodeTree κ) : Prop := ∃ k ∈ t.keys, compare key k = 0

theorem getByKey_spec (order : Preordered compare) (key : κ) (fuel : Nat) (rep : Rep h p t)
    (sorted : Sorted compare t.keys)
    (enough : t.height ≤ fuel) :
    ∃ found, getByKey compare key fuel h t.ptr = some found ∧ (found.isSome ↔ Present compare key t) ∧
      ∀ k ∈ found, k ∈ t.keys ∧ compare key k = 0 := by
  induction t generalizing p fuel with
  | nil => exact ⟨none,by cases fuel <;> rfl,by simp [Present,NodeTree.keys],by simp⟩
  | node x l k b rk r ihl ihr =>
    cases fuel with
    | zero =>
      unfold NodeTree.height at enough
      omega
    | succ fuel =>
      obtain ⟨here,left,right⟩ := rep
      obtain ⟨lsorted,rest,across⟩ := List.pairwise_append.mp sorted
      obtain ⟨above,rsorted⟩ := List.pairwise_cons.mp rest
      have below : ∀ y ∈ l.keys, compare y k ≤ 0 := fun y member => across y member k List.mem_cons_self
      unfold NodeTree.height at enough
      unfold getByKey
      dsimp only [NodeTree.ptr]
      rw [here]
      by_cases less : compare key k < 0
      · obtain ⟨found,run,sure,good⟩ := ihl fuel left lsorted (by omega)
        refine ⟨found,(if_pos less).trans run,sure.trans ⟨?_,?_⟩,fun y member => ?_⟩
        · rintro ⟨y,member,equal⟩
          exact ⟨y,List.mem_append_left _ member,equal⟩
        · rintro ⟨y,member,equal⟩
          rcases List.mem_append.mp member with member | member
          · exact ⟨y,member,equal⟩
          · have greater : compare k y ≤ 0 := by
              rcases List.mem_cons.mp member with rfl | member
              · exact Int.le_of_eq (order.refl y)
              · exact above y member
            have flipped := order.flip y key
            have same := order.flip key y
            have flipped' := order.flip key k
            have back := order.trans k y key greater (by omega)
            omega
        · exact ⟨List.mem_append_left _ (good y member).1,(good y member).2⟩
      · by_cases more : 0 < compare key k
        · obtain ⟨found,run,sure,good⟩ := ihr fuel right rsorted (by omega)
          refine ⟨found,(if_neg less).trans ((if_pos more).trans run),sure.trans ⟨?_,?_⟩,fun y member => ?_⟩
          · rintro ⟨y,member,equal⟩
            exact ⟨y,List.mem_append_right _ (List.mem_cons_of_mem _ member),equal⟩
          · rintro ⟨y,member,equal⟩
            have tooLow : y ∈ l.keys ∨ y = k → False := by
              intro low
              have lesser : compare y k ≤ 0 := by
                rcases low with low | rfl
                · exact below y low
                · exact Int.le_of_eq (order.refl y)
              have back := order.trans key y k (by omega) lesser
              omega
            rcases List.mem_append.mp member with member | member
            · exact absurd (.inl member) tooLow
            · rcases List.mem_cons.mp member with same | member
              · exact absurd (.inr same) tooLow
              · exact ⟨y,member,equal⟩
          · exact ⟨List.mem_append_right _ (List.mem_cons_of_mem _ (good y member).1),(good y member).2⟩
        · have equal : compare key k = 0 := by omega
          have inside : k ∈ (NodeTree.node x l k b rk r).keys := List.mem_append_right _ List.mem_cons_self
          refine ⟨some k,(if_neg less).trans (if_neg more),iff_of_true rfl ⟨k,inside,equal⟩,?_⟩
          intro y member
          cases member
          exact ⟨inside,equal⟩

theorem getByIndex_spec (fuel : Nat) (rep : Rep h p t) (numbered : Numbered t) (enough : t.height ≤ fuel) (m : Nat) :
    getByIndex fuel h t.ptr (m+1) = some t.keys[m]? := by
  induction t generalizing p fuel m with
  | nil => cases fuel <;> rfl
  | node x l k b rk r ihl ihr =>
    cases fuel with
    | zero =>
      unfold NodeTree.height at enough
      omega
    | succ fuel =>
      obtain ⟨here,left,right⟩ := rep
      obtain ⟨rank,lnumbered,rnumbered⟩ := numbered
      have llength := l.length_keys
      unfold NodeTree.height at enough
      unfold getByIndex
      dsimp only [NodeTree.ptr,NodeTree.keys]
      rw [here]
      dsimp only
      rw [rank]
      by_cases less : m+1 < l.size+1
      · rw [if_pos less,ihl fuel left lnumbered (by omega),List.getElem?_append_left (by omega)]
      · rw [if_neg less,List.getElem?_append_right (by omega),llength]
        by_cases more : l.size+1 < m+1
        · have index : m+1-(l.size+1) = (m-l.size-1)+1 := by omega
          have after : m-l.size = (m-l.size-1)+1 := by omega
          rw [if_pos more,index,ihr fuel right rnumbered (by omega),after,List.getElem?_cons_succ]
          rfl
        · have same : m-l.size = 0 := by omega
          rw [if_neg more,same]
          rfl

end Search

theorem Inserted.keys {κ : Type u} {tree tree' : AvlTree κ} {T T' : NodeTree κ} {key : κ} {new : Nat}
    {a b : List (Nat × κ)}
    (inserted : Inserted tree T key new tree' T' a b) : T'.keys.Perm (key::T.keys) := by
  rw [←NodeTree.keys_entries,←NodeTree.keys_entries,inserted.entries,inserted.old,List.map_append,List.map_append]
  exact List.perm_middle

section Calls

variable {κ : Type u} {compare : κ → κ → Int}

-- A tree with the keys put into it and the keys passed to the free function, newest first.
structure State (κ : Type u) where
  tree : AvlTree κ
  inserted : List κ
  freed : List κ

inductive Call (κ : Type u) where
  | insert (key : κ) (new : Nat)
  | delete (key : κ)

-- malloc gives a node that is not in use.
inductive Step (compare : κ → κ → Int) : State κ → Call κ → State κ → Prop where
  | insert : new ∉ s.tree.nodes → avlInsert compare s.tree key new = some tree →
    Step compare s (.insert key new) {s with tree := tree,inserted := key::s.inserted}
  | delete : avlDelete compare s.tree key = some done →
    Step compare s (.delete key) {s with tree := done.tree,freed := done.freed.toList++s.freed}

def next (compare : κ → κ → Int) (s : State κ) : Call κ → Option (State κ)
  | .insert key new =>
    if new ∈ s.tree.nodes then none
    else (avlInsert compare s.tree key new).map fun tree => {s with tree := tree,inserted := key::s.inserted}
  | .delete key => (avlDelete compare s.tree key).map fun done =>
    {s with tree := done.tree,freed := done.freed.toList++s.freed}

theorem next_sound {s t : State κ} {call : Call κ} (step : next compare s call = some t) : Step compare s call t := by
  cases call with
  | insert key new =>
    simp only [next] at step
    split at step
    · cases step
    · rename_i fresh
      obtain ⟨tree,run,rfl⟩ := Option.map_eq_some_iff.mp step
      exact .insert fresh run
  | delete key =>
    obtain ⟨done,run,rfl⟩ := Option.map_eq_some_iff.mp step
    exact .delete run

-- The way of a search, looked through for a node below the key with nothing on its right.
def clear (compare : κ → κ → Int) (key : κ) : Nat → Heap κ → Option Nat → Bool
  | _,_,none => true
  | 0,_,some _ => false
  | fuel+1,h,some x =>
    if compare key (h x).key < 0 then clear compare key fuel h (h x).left
    else if 0 < compare key (h x).key then (h x).right ≠ none && clear compare key fuel h (h x).right
    else true

theorem clear_right (looked : clear compare key fuel h p = true) (passes : Passes compare key h p y)
    (above : 0 < compare key (h y).key) : (h y).right ≠ none := by
  induction passes generalizing fuel with
  | here =>
    cases fuel with
    | zero => cases looked
    | succ fuel =>
      rw [clear,if_neg (by omega),if_pos above,Bool.and_eq_true] at looked
      exact of_decide_eq_true looked.1
  | left less _ ih =>
    cases fuel with
    | zero => cases looked
    | succ fuel =>
      rw [clear,if_pos less] at looked
      exact ih looked above
  | right more _ ih =>
    cases fuel with
    | zero => cases looked
    | succ fuel =>
      rw [clear,if_neg (by omega),if_pos more,Bool.and_eq_true] at looked
      exact ih looked.2 above

end Calls

section Runs

variable {κ : Type u} [Inhabited κ] {compare : κ → κ → Int}

def start (root : Nat) : State κ := ⟨avlTreeNew root,[],[]⟩

-- The tree the nodes make up, and where its keys come from.
structure Sound (compare : κ → κ → Int) (s : State κ) (T : NodeTree κ) : Prop where
  holds : Holds compare s.tree T
  keys : (s.freed++T.keys).Perm s.inserted

def Intact (compare : κ → κ → Int) (s : State κ) : Prop := ∃ T, Sound compare s T

theorem Taken.keys {tree : AvlTree κ} {T T' : NodeTree κ} {key : κ} {done : Deleted κ} {x : Nat} {k : κ}
    (taken : Taken compare tree T key done T' x k) : T.keys.Perm (k::T'.keys) := by
  obtain ⟨a,b,old,new⟩ := taken.dropped.keys
  rw [←NodeTree.keys_entries,←NodeTree.keys_entries,old,new]
  exact List.perm_middle

theorem Sound.step {s t : State κ} {call : Call κ} (order : Preordered compare) (sound : Sound compare s T)
    (step : Step compare s call t) :
    ∃ T', Sound compare t T' := by
  cases step with
  | insert fresh run =>
    obtain ⟨tree',T',a,b,run',inserted,holds⟩ := avlInsert_spec order sound.holds _ fresh
    cases Option.some.inj (run.symm.trans run')
    refine ⟨T',holds,?_⟩
    exact ((inserted.keys.append_left _).trans List.perm_middle).trans (sound.keys.cons _)
  | delete run =>
    rename_i key done
    obtain ⟨done',T',run',holds,taken | missed⟩ := avlDelete_spec order sound.holds key
    · cases Option.some.inj (run.symm.trans run')
      obtain ⟨x,k,taken⟩ := taken
      refine ⟨T',holds,?_⟩
      change ((done.freed.toList++s.freed)++T'.keys).Perm s.inserted
      rw [taken.freed]
      exact List.perm_middle.symm.trans ((taken.keys.symm.append_left _).trans sound.keys)
    · cases Option.some.inj (run.symm.trans run')
      refine ⟨T',holds,?_⟩
      change ((done.freed.toList++s.freed)++T'.keys).Perm s.inserted
      rw [missed.freed,←NodeTree.keys_entries,missed.entries,NodeTree.keys_entries]
      exact sound.keys

theorem start_sound (root : Nat) : Sound compare (start root) (.nil : NodeTree κ) := by
  have focus : Focus (avlTreeNew root : AvlTree κ).heap [sentinel root] .nil :=
    ⟨⟨rfl,trivial,trivial⟩,trivial,by simp [Ctx.ids,sentinel,NodeTree.ids]⟩
  exact ⟨⟨focus,List.Perm.refl _,trivial,List.Pairwise.nil,rfl⟩,List.Perm.refl _⟩

-- What avl_delete does at a state: one key that compares equal out of the tree and freed, or nothing.
structure Deletes (compare : κ → κ → Int) (T : NodeTree κ) (key : κ) (done : Deleted κ) (T' : NodeTree κ) : Prop where
  holds : Holds compare done.tree T'
  result : done.result = if done.freed.isSome then 0 else -1
  present : done.result = 0 ↔ Present compare key T
  equal : ∀ k ∈ done.freed, compare key k = 0
  keys : T.keys.Perm (done.freed.toList++T'.keys)

theorem deletes (order : Preordered compare) {tree : AvlTree κ} {T : NodeTree κ}
    (holds : Holds compare tree T) (key : κ) :
    ∃ done T', avlDelete compare tree key = some done ∧ Deletes compare T key done T' := by
  obtain ⟨done,T',run,holds',taken | missed⟩ := avlDelete_spec order holds key
  · obtain ⟨x,k,taken⟩ := taken
    have inside : k ∈ T.keys := taken.keys.mem_iff.mpr List.mem_cons_self
    refine ⟨done,T',run,holds',?_,?_,?_,?_⟩
    · rw [taken.result,taken.freed]
      rfl
    · exact iff_of_true taken.result ⟨k,inside,taken.equal⟩
    · intro y member
      rw [taken.freed] at member
      cases member
      exact taken.equal
    · rw [taken.freed]
      exact taken.keys
  · refine ⟨done,T',run,holds',?_,?_,?_,?_⟩
    · rw [missed.result,missed.freed]
      rfl
    · apply iff_of_false (by rw [missed.result]; decide)
      rintro ⟨k,member,equal⟩
      exact missed.absent k member equal
    · intro y member
      rw [missed.freed] at member
      cases member
    · rw [missed.freed,←NodeTree.keys_entries,←NodeTree.keys_entries,missed.entries]
      exact List.Perm.refl _

theorem Holds.linked {tree : AvlTree κ} {T : NodeTree κ} (holds : Holds compare tree T) (iin : i ∈ tree.nodes)
    (jin : j ∈ tree.nodes) :
    (∃ d, (tree.heap i).child d = some j) ↔ (tree.heap j).parent = some i := by
  have node : tree.heap tree.root = (sentinel tree.root).node T.ptr none := focus_node holds.focus
  have rep : Rep tree.heap (some tree.root) T := holds.focus.rep
  have out : tree.root ∉ T.ids := (List.nodup_cons.mp holds.focus.nodup).1
  constructor
  · rintro ⟨d,child⟩
    rcases List.mem_cons.mp (holds.nodes.mem_iff.mpr iin) with rfl | inside
    · rw [node] at child
      cases d with
      | left => cases child
      | right =>
        obtain ⟨z,X,_,rfl,rfl⟩ := exists_frame .left (show T.ptr = some j from child)
        rw [(rep_fill.mp rep).1,Frame.node_parent]
    · exact (rep.child_parent inside child).2
  · intro linked
    rcases List.mem_cons.mp (holds.nodes.mem_iff.mpr jin) with rfl | inside
    · rw [node,Frame.node_parent] at linked
      cases linked
    · rcases rep.parent_child inside with ⟨top,parent⟩ | ⟨i',_,d,child,parent⟩
      · cases Option.some.inj (linked.symm.trans parent)
        refine ⟨.right,?_⟩
        rw [node]
        exact top
      · cases Option.some.inj (linked.symm.trans parent)
        exact ⟨d,child⟩

theorem Holds.get (order : Preordered compare) {tree : AvlTree κ} {T : NodeTree κ} (holds : Holds compare tree T)
    (key : κ) :
    ∃ found, avlGetByKey compare tree key = some found ∧ (found.isSome ↔ Present compare key T) ∧
      ∀ k ∈ found, k ∈ T.keys ∧ compare key k = 0 := by
  have count := holds.nodes.length_eq
  rw [List.length_cons,NodeTree.length_ids] at count
  have small := height_size T
  obtain ⟨found,search,sure,good⟩ :=
    getByKey_spec order key tree.nodes.length holds.focus.rep holds.sorted (by omega)
  refine ⟨found,?_,sure,good⟩
  unfold avlGetByKey
  rw [holds.top]
  exact search

theorem run_sound (order : Preordered compare) (run : Runs (Step compare) (start root) calls s) : Intact compare s :=
  run.preserves (fun ⟨_,sound⟩ step => sound.step order step) ⟨.nil,start_sound root⟩

-- At every moment of every sequence of calls the nodes make up a sorted and balanced tree, linked both
-- ways and counted right, of the keys inserted less those freed, and every call finds what is there.
theorem avl_sound (order : Preordered compare) (run : Runs (Step compare) (start root) calls s) :
    ∃ T, Holds compare s.tree T ∧ (s.freed++T.keys).Perm s.inserted ∧
      (∀ i ∈ s.tree.nodes, ∀ j ∈ s.tree.nodes,
      (∃ d, (s.tree.heap i).child d = some j) ↔ (s.tree.heap j).parent = some i) ∧
      (∀ key new, new ∉ s.tree.nodes → ∃ tree, avlInsert compare s.tree key new = some tree) ∧
      (∀ key, ∃ done T', avlDelete compare s.tree key = some done ∧ Deletes compare T key done T') ∧
      ∀ key, ∃ found, avlGetByKey compare s.tree key = some found ∧ (found.isSome ↔ Present compare key T) ∧
        ∀ k ∈ found, k ∈ T.keys ∧ compare key k = 0 := by
  obtain ⟨T,sound⟩ := run_sound order run
  have holds := sound.holds
  refine ⟨T,holds,sound.keys,fun i iin j jin => holds.linked iin jin,fun key new fresh => ?_,
    fun key => deletes order holds key,holds.get order⟩
  obtain ⟨tree,_,_,_,done,_⟩ := avlInsert_spec order holds key fresh
  exact ⟨tree,done⟩

-- Seven nodes at the addresses from 1 on, rotated each way, and keys that are not there or are there twice.
def evening : List (Call Int) :=
  [.insert 30 1,.insert 10 2,.insert 20 3,.insert 40 4,.insert 50 5,.insert 20 6,.delete 60,.delete 10,.delete 20,
    .insert 45 7,.delete 15,.delete 30]

def byDifference (a b : Int) : Int := a-b

theorem byDifference_order : Preordered byDifference := by
  unfold byDifference
  exact ⟨fun a b => by omega,fun a b c => by omega⟩

def settled : State Int := (runFrom (next byDifference) (start 0) evening).get (by decide +kernel)

theorem settled_run : Runs (Step byDifference) (start 0) evening settled :=
  runFrom_sound next_sound (Option.some_get _).symm

theorem avl_sound_evening : settled.freed = [30,20,10] ∧
    ∃ T, Holds byDifference settled.tree T ∧ (settled.freed++T.keys).Perm settled.inserted := by
  obtain ⟨T,holds,keys,_⟩ := avl_sound byDifference_order settled_run
  exact ⟨by decide +kernel,T,holds,keys⟩

-- No more keys than there are ranks, and no delete that comes to a node below its key with nothing on
-- the right of it.
def Fair (compare : κ → κ → Int) (s : State κ) : Call κ → Prop
  | .insert _ _ => s.tree.length+1 < 2^30
  | .delete key => ∀ y, Passes compare key s.tree.heap (s.tree.heap s.tree.root).right y →
    0 < compare key (s.tree.heap y).key →
    (s.tree.heap y).right ≠ none

-- A tree whose ranks are right, in the bits there are for them.
structure Counted (compare : κ → κ → Int) (s : State κ) (T : NodeTree κ) : Prop where
  holds : Holds compare s.tree T
  ranked : Ranked T
  few : T.size < 2^30

def Exact (compare : κ → κ → Int) (s : State κ) : Prop := ∃ T, Counted compare s T

theorem Counted.step {s t : State κ} {call : Call κ} (order : Preordered compare) (counted : Counted compare s T)
    (fair : Fair compare s call)
    (step : Step compare s call t) : ∃ T', Counted compare t T' := by
  have length := counted.holds.length
  cases step with
  | insert fresh run =>
    obtain ⟨tree',T',a,b,run',inserted,holds⟩ := avlInsert_spec order counted.holds _ fresh
    cases Option.some.inj (run.symm.trans run')
    refine ⟨T',holds,inserted.ranked counted.ranked,?_⟩
    have longer := inserted.length
    rw [holds.length] at longer
    change s.tree.length+1 < 2^30 at fair
    omega
  | delete run =>
    rename_i key done
    obtain ⟨done',T',run',holds,taken | missed⟩ := avlDelete_spec order counted.holds key
    · cases Option.some.inj (run.symm.trans run')
      obtain ⟨x,k,taken⟩ := taken
      have shorter := taken.length
      rw [holds.length] at shorter
      have few := counted.few
      exact ⟨T',holds,taken.ranked counted.ranked,by omega⟩
    · cases Option.some.inj (run.symm.trans run')
      have same := missed.exact fair
      subst same
      exact ⟨_,holds,counted.ranked,counted.few⟩

-- A delete that returns -1 and does not come to such a node: every node is as it was.
structure Untouched (tree tree' : AvlTree κ) : Prop where
  root : tree'.root = tree.root
  nodes : tree'.nodes = tree.nodes
  height : tree'.height = tree.height
  length : tree'.length = tree.length
  heap : ∀ i ∈ tree.nodes, tree'.heap i = tree.heap i

theorem Holds.untouched {s : State κ} {done : Deleted κ} (order : Preordered compare) (holds : Holds compare s.tree T)
    (fair : Fair compare s (.delete key)) (run : avlDelete compare s.tree key = some done) (failed : done.result = -1) :
    Untouched s.tree done.tree := by
  obtain ⟨done',T',run',_,taken | missed⟩ := avlDelete_spec order holds key
  · obtain ⟨x,k,taken⟩ := taken
    cases Option.some.inj (run.symm.trans run')
    rw [taken.result] at failed
    cases failed
  · cases Option.some.inj (run.symm.trans run')
    have same := missed.exact fair
    subst same
    refine ⟨missed.root,missed.nodes,missed.height,missed.length,fun i member => ?_⟩
    rcases List.mem_cons.mp (holds.nodes.mem_iff.mpr member) with rfl | inside
    · exact (focus_node missed.focus).trans (focus_node holds.focus).symm
    · exact Rep.same holds.focus.rep missed.focus.rep inside

-- In a run whose calls all meet the condition every rank is one more than the size of the left subtree,
-- so that the keys are found by their index, and a delete that fails changes nothing.
theorem avl_ranks (order : Preordered compare)
    (run : Runs (fun s call t => Step compare s call t ∧ Fair compare s call) (start root) calls s) :
    ∃ T, Holds compare s.tree T ∧ Numbered T ∧
      (∀ i < s.tree.length, ∃ k, T.keys[i]? = some k ∧ avlGetByIndex s.tree i = some (some k)) ∧
      ∀ key done, Fair compare s (.delete key) → avlDelete compare s.tree key = some done → done.result = -1 →
      Untouched s.tree done.tree := by
  have first : Exact compare (start root) := ⟨.nil,(start_sound root).holds,trivial,Nat.two_pow_pos 30⟩
  have exact : Exact compare s := run.preserves (fun ⟨_,counted⟩ step => counted.step order step.2 step.1) first
  obtain ⟨T,counted⟩ := exact
  have holds := counted.holds
  have numbered := counted.ranked.numbered counted.few
  refine ⟨T,holds,numbered,fun i below => ?_,fun key done fair deleted failed =>
    holds.untouched order fair deleted failed⟩
  have count := holds.nodes.length_eq
  rw [List.length_cons,NodeTree.length_ids] at count
  have small := height_size T
  have search := getByIndex_spec s.tree.nodes.length holds.focus.rep numbered (by omega) i
  rw [holds.length,←NodeTree.length_keys] at below
  refine ⟨T.keys[i],List.getElem?_eq_getElem below,?_⟩
  unfold avlGetByIndex
  rw [holds.top,search,List.getElem?_eq_getElem below]

def Spared (compare : κ → κ → Int) (s : State κ) : Call κ → Prop
  | .insert _ _ => s.tree.length+1 < 2^30
  | .delete key => clear compare key s.tree.nodes.length s.tree.heap (s.tree.heap s.tree.root).right = true

instance (s : State κ) : (call : Call κ) → Decidable (Spared compare s call)
  | .insert _ _ => inferInstanceAs (Decidable (_ < _))
  | .delete _ => inferInstanceAs (Decidable (_ = true))

omit [Inhabited κ] in
theorem Spared.fair (spared : Spared compare s call) : Fair compare s call := by
  cases call with
  | insert key new => exact spared
  | delete key => exact fun y => clear_right spared

-- The same seven nodes; what is not there is asked for below the first key.
def lateEvening : List (Call Int) :=
  [.insert 30 1,.insert 10 2,.insert 20 3,.insert 40 4,.insert 50 5,.insert 20 6,.delete 10,.delete 20,
    .insert 45 7,.delete 5,.delete 30]

def ordered : State Int := (runFrom (guarded (Spared byDifference) (next byDifference)) (start 0) lateEvening).get (by decide +kernel)

theorem ordered_run : Runs (fun s call t => Step byDifference s call t ∧ Fair byDifference s call) (start 0) lateEvening
    ordered :=
  runFrom_sound (fun step => ⟨next_sound (guarded_sound step).1,(guarded_sound step).2.fair⟩) (Option.some_get _).symm

theorem avl_ranks_evening : ordered.freed = [30,20,10] ∧ ordered.tree.length = 4 ∧
    ∀ i < 4, ∃ k, avlGetByIndex ordered.tree i = some (some k) := by
  obtain ⟨T,_,_,index,_⟩ := avl_ranks byDifference_order ordered_run
  have four : ordered.tree.length = 4 := by decide +kernel
  refine ⟨by decide +kernel,four,fun i below => ?_⟩
  obtain ⟨k,_,found⟩ := index i (by rw [four]; exact below)
  exact ⟨k,found⟩

-- A tree of one key. The search for a key above all others raises the rank of the last node: its key has no
-- index any more.
def alone : State Int := (runFrom (next byDifference) (start 0) [.insert 1 7]).get (by decide +kernel)

def askedAbove : State Int := (next byDifference alone (.delete 2)).get (by decide +kernel)

theorem alone_run : Runs (Step byDifference) (start 0) [.insert 1 7] alone :=
  runFrom_sound next_sound (Option.some_get _).symm

theorem absent_above : ¬∀ (calls : List (Call Int)) (s : State Int), Runs (Step byDifference) (start 0) calls s →
    ∀ i < s.tree.length, ∃ k, avlGetByIndex s.tree i = some (some k) := by
  intro all
  have second : Step byDifference alone (.delete 2) askedAbove := next_sound (Option.some_get _).symm
  have lost : avlGetByIndex askedAbove.tree 0 = some none := by decide +kernel
  obtain ⟨k,found⟩ := all _ _ (.snoc alone_run second) 0 (by decide +kernel)
  rw [lost] at found
  cases found

end Runs

end Icecast.AvlNodes
