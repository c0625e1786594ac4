import Mathlib.Data.List.Sort
import Icecast.Lib.Keyed
import Icecast.Lib.Lists
import Icecast.Lib.Transition

namespace Icecast.ListenerStat
open Lists Transition

-- A listener's client_t; `counted` is set where format_check_http_buffer increments the
-- listeners stat for it, and nothing looks at it.
structure Listener where
  id : Nat
  respcode : Nat
  error : Bool
  counted : Bool
deriving DecidableEq

inductive Phase where
  | idle | running | ended
deriving DecidableEq

-- source_t; max_listeners is none for -1.
structure Source where
  clientTree : List Listener
  pendingTree : List Listener
  listeners : Nat
  maxListeners : Option Nat
  onDemand : Bool
  phase : Phase
deriving DecidableEq

-- `stat` is the sum of the events posted for the global listeners stat.
structure Server where
  sources : List Source
  stat : Int
deriving DecidableEq

def start : Server := ⟨[],0⟩

-- source_reserve
def reserved (onDemand : Bool) : Source := ⟨[],[],0,none,onDemand,.idle⟩

-- What happens at one source. `headers` is format_check_http_buffer on a client that had no
-- response yet; it fails when create_client_data does (`noData`) or through client_send_500.
-- `failed` is an error on a connection, `removed` and `pending` are the parts of source_main,
-- `ended` the end of its loop.
inductive Act where
  | connect (id : Nat)
  | settings (max : Option Nat)
  | init
  | headers (k : Nat)
  | headersFailed (k : Nat) (noData : Bool)
  | failed (k : Nat)
  | removed (k : Nat)
  | pending
  | ended
  | cleared
deriving DecidableEq

def full (max : Option Nat) (listeners : Nat) : Bool := max.any (· ≤ listeners)

-- avl_insert in the order of _compare_clients, for one client and for a tree of them.
def insertClient (c : Listener) (tree : List Listener) : List Listener := tree.orderedInsert (fun a b => a.id ≤ b.id) c

def insertAll (clients tree : List Listener) : List Listener := clients.foldl (fun tree c => insertClient c tree) tree

-- The loop over the pending tree: the clients that are added and those that are deleted.
def addPending (max : Option Nat) : Nat → List Listener → List Listener × List Listener
  | _,[] => ([],[])
  | listeners,c::pending =>
    if full max listeners then ((addPending max listeners pending).1,c::(addPending max listeners pending).2)
    else (c::(addPending max (listeners+1) pending).1,(addPending max (listeners+1) pending).2)

def processed (c : Listener) : Bool := c.respcode = 200

-- The source afterwards and what is posted for the stat.
def act (s : Source) : Act → Option (Source × Int)
  | .connect id => some ({s with pendingTree := insertClient ⟨id,0,false,false⟩ s.pendingTree},0)
  | .settings max => some ({s with maxListeners := max},0)
  | .init => if s.phase = .idle then some ({s with listeners := 0,phase := .running},0) else none
  | .headers k =>
    (s.clientTree[k]?).bind fun c =>
      if s.phase = .running ∧ c.respcode = 0 ∧ c.error = false then
        some ({s with clientTree := s.clientTree.set k {c with respcode := 200,counted := true}},1)
      else none
  -- format_prepare_headers sets respcode to 200 before anything can fail. client_send_500 also
  -- frees the client, what source_main reads of it later is taken to be what was left there.
  | .headersFailed k noData =>
    (s.clientTree[k]?).bind fun c =>
      if s.phase = .running ∧ c.respcode = 0 ∧ c.error = false then
        some ({s with clientTree :=
          s.clientTree.set k {c with respcode := if noData then 500 else 200,error := true}},0)
      else none
  | .failed k => (s.clientTree[k]?).map fun c => ({s with clientTree := s.clientTree.set k {c with error := true}},0)
  | .removed k =>
    (s.clientTree[k]?).bind fun c =>
      if s.phase = .running ∧ c.error then
        some ({s with clientTree := s.clientTree.eraseIdx k,listeners := s.listeners-1},if processed c then -1 else 0)
      else none
  | .pending =>
    if s.phase = .running then
      let accepted := (addPending s.maxListeners s.listeners s.pendingTree).1
      some ({s with clientTree := insertAll accepted s.clientTree,pendingTree := [],listeners :=
        s.listeners+accepted.length},0)
    else none
  | .ended => if s.phase = .running then some ({s with phase := .ended},0) else none
  -- source_clear_source
  | .cleared =>
    if s.phase = .running then none else
    let c := s.clientTree.countP processed
    some ({s with clientTree := [],pendingTree := [],listeners := 0,maxListeners := none,phase := .idle},
      if c = 0 then 0 else -(s.listeners : Int))

-- source_move_clients, when its checks let it move them: the source afterwards and the destination.
def moved (source dest : Source) : Option (Source × Source) :=
  if dest.phase = .running ∨ dest.onDemand then
    some ({source with clientTree := [],pendingTree := [],listeners := 0},
      {dest with pendingTree := insertAll (source.pendingTree++source.clientTree) dest.pendingTree})
  else none

-- `free` is source_free_source, by the source's own thread or relay_free.
inductive Event where
  | reserve (onDemand : Bool)
  | act (i : Nat) (a : Act)
  | move (i j : Nat)
  | free (i : Nat)
deriving DecidableEq

def next (s : Server) : Event → Option Server
  | .reserve onDemand => some {s with sources := s.sources++[reserved onDemand]}
  | .act i a => (s.sources[i]?).bind fun source => (act source a).map fun r => ⟨s.sources.set i r.1,s.stat+r.2⟩
  | .move i j =>
    if i = j then none else
    (s.sources[i]?).bind fun source => (s.sources[j]?).bind fun dest =>
      (moved source dest).map fun r => {s with sources := (s.sources.set i r.1).set j r.2}
  -- both trees go with the source, and nothing is posted
  | .free i => (s.sources[i]?).bind fun source =>
    if source.phase = .idle then some {s with sources := s.sources.eraseIdx i} else none

def Step (s : Server) (event : Event) (t : Server) : Prop := next s event = some t

def countedOf (s : Source) : Nat := (s.clientTree++s.pendingTree).countP (·.counted)

-- The live clients that were counted with an increment.
def counted (s : Server) : Nat := (s.sources.map countedOf).sum

def live (s : Server) : Nat := (s.sources.map fun s => (s.clientTree++s.pendingTree).length).sum

-- When what is posted for the stat fits what happens: headers fail in create_client_data only,
-- no processed client waits beyond the room that a mount has left, a source that is cleared
-- has no processed client at all, or as many unprocessed ones in its client tree as processed
-- ones in its pending tree, and a source that is freed has no processed client.
def FairAct (s : Source) : Act → Prop
  | .headersFailed _ noData => noData
  | .pending => ∀ max ∈ s.maxListeners, ∀ c ∈ s.pendingTree.drop (max-s.listeners), ¬processed c
  | .cleared =>
    if s.clientTree.countP processed = 0 then s.pendingTree.countP processed = 0
    else s.clientTree.countP (fun c => !processed c) = s.pendingTree.countP processed
  | _ => True

instance decideFairAct (s : Source) : (a : Act) → Decidable (FairAct s a)
  | .headersFailed _ noData => inferInstanceAs (Decidable (noData = true))
  | .pending => inferInstanceAs
    (Decidable (∀ max ∈ s.maxListeners, ∀ c ∈ s.pendingTree.drop (max-s.listeners), ¬processed c))
  | .cleared => inferInstanceAs (Decidable (if s.clientTree.countP processed = 0 then s.pendingTree.countP processed = 0
    else s.clientTree.countP (fun c => !processed c) = s.pendingTree.countP processed))
  | .connect _ | .settings _ | .init | .headers _ | .failed _ | .removed _ | .ended => isTrue trivial

def Fair (s : Server) : Event → Prop
  | .act i a => ∀ source ∈ s.sources[i]?, FairAct source a
  | .free i => ∀ source ∈ s.sources[i]?, ∀ c ∈ source.clientTree++source.pendingTree, ¬processed c
  | _ => True

instance decideFair (s : Server) : (event : Event) → Decidable (Fair s event)
  | .act i a => inferInstanceAs (Decidable (∀ source ∈ s.sources[i]?, FairAct source a))
  | .free i => inferInstanceAs
    (Decidable (∀ source ∈ s.sources[i]?, ∀ c ∈ source.clientTree++source.pendingTree, ¬processed c))
  | .reserve _ | .move _ _ => isTrue trivial

structure Kept (s : Source) : Prop where
  listeners : s.listeners = s.clientTree.length
  codes : ∀ c ∈ s.clientTree++s.pendingTree, c.counted = processed c
  idle : s.phase = .idle → s.clientTree = []

theorem countP_counted {xs : List Listener} (codes : ∀ c ∈ xs, c.counted = processed c) :
    xs.countP (·.counted) = xs.countP processed :=
  List.countP_congr fun c member => by rw [codes c member]

theorem countedOf_eq (s : Source) : countedOf s = s.clientTree.countP (·.counted)+s.pendingTree.countP (·.counted) :=
  List.countP_append

theorem insertClient_perm (c : Listener) (tree : List Listener) : (insertClient c tree).Perm (c::tree) :=
  List.perm_orderedInsert _ c tree

theorem insertAll_perm (clients tree : List Listener) : (insertAll clients tree).Perm (clients++tree) :=
  Keyed.insertAll_perm insertClient_perm clients tree

theorem addPending_perm (max : Option Nat) (listeners : Nat) (pending : List Listener) :
    ((addPending max listeners pending).1++(addPending max listeners pending).2).Perm pending := by
  induction pending generalizing listeners with
  | nil => exact List.Perm.nil
  | cons c pending ih =>
    rw [addPending]
    split
    · exact List.perm_middle.trans ((ih listeners).cons c)
    · exact (ih (listeners+1)).cons c

theorem addPending_count (max : Option Nat) (listeners : Nat) (pending : List Listener) (p : Listener → Bool) :
    (addPending max listeners pending).1.countP p+(addPending max listeners pending).2.countP p = pending.countP p := by
  rw [←List.countP_append]
  exact (addPending_perm max listeners pending).countP_eq p

theorem addPending_mem {max : Option Nat} {pending : List Listener}
    (member : c ∈ (addPending max listeners pending).1) : c ∈ pending :=
  (addPending_perm max listeners pending).subset (List.mem_append_left _ member)

theorem addPending_refused (max listeners : Nat) (pending : List Listener) :
    (addPending (some max) listeners pending).2 = pending.drop (max-listeners) := by
  induction pending generalizing listeners with
  | nil => simp [addPending]
  | cons c pending ih =>
    by_cases room : max ≤ listeners
    · have none : max-listeners = 0 := by omega
      simp [addPending,full,room,ih,none]
    · have one : max-listeners = max-(listeners+1)+1 := by omega
      simp [addPending,full,room,ih,one]

theorem addPending_unlimited (listeners : Nat) (pending : List Listener) :
    (addPending none listeners pending).2 = [] := by
  induction pending generalizing listeners with
  | nil => rfl
  | cons c pending ih => simp [addPending,full,ih]

theorem fair_pending (s : Source) : FairAct s .pending ↔
    ∀ c ∈ (addPending s.maxListeners s.listeners s.pendingTree).2, ¬processed c := by
  rw [FairAct]
  cases s.maxListeners with
  | none => simp [addPending_unlimited]
  | some max => simp [addPending_refused]

theorem Kept.change {s : Source} {c : Listener} (kept : Kept s) (here : s.clientTree[k]? = some c) (d : Listener)
    (same : d.counted = processed d) :
    Kept {s with clientTree := s.clientTree.set k d} ∧
      countedOf {s with clientTree := s.clientTree.set k d}+(if c.counted then 1 else 0) =
        countedOf s+(if d.counted then 1 else 0) := by
  obtain ⟨front,back,split,put,_⟩ := split_at here
  refine ⟨⟨?_,?_,fun idle => ?_⟩,?_⟩
  · simpa using kept.listeners
  · intro e member
    rw [put] at member
    simp only [List.mem_append,List.mem_cons] at member
    rcases member with ((front | rfl | back) | pending)
    · exact kept.codes e (by rw [split]; simp [front])
    · exact same
    · exact kept.codes e (by rw [split]; simp [back])
    · exact kept.codes e (by simp [pending])
  · have empty := kept.idle idle
    rw [empty] at here
    cases here
  · rw [countedOf_eq,countedOf_eq]
    dsimp only
    rw [put,split]
    simp only [List.countP_append,List.countP_cons]
    omega

theorem Kept.unchanged {s : Source} {c d : Listener} (kept : Kept s) (here : s.clientTree[k]? = some c)
    (same : d.counted = processed d)
    (still : d.counted = c.counted) :
    Kept {s with clientTree := s.clientTree.set k d} ∧
    countedOf {s with clientTree := s.clientTree.set k d} = countedOf s := by
  have change := kept.change here d same
  rw [still] at change
  exact ⟨change.1,Nat.add_right_cancel change.2⟩

theorem Kept.same {s : Source} {c : Listener} {k : Nat} (kept : Kept s) (here : s.clientTree[k]? = some c) :
    c.counted = processed c :=
  kept.codes c (List.mem_append_left _ (List.mem_of_getElem? here))

theorem removed_kept (kept : Kept s) (acted : act s (.removed k) = some (t,d)) :
    Kept t ∧ (d = (countedOf t : Int)-countedOf s ↔ FairAct s (.removed k)) := by
  obtain ⟨c,here,acted⟩ := Option.bind_eq_some_iff.mp acted
  split at acted
  · rename_i enabled
    cases acted
    obtain ⟨front,back,split,_,gone⟩ := split_at here
    have old := kept.same here
    refine ⟨⟨?_,?_,fun idle => ?_⟩,?_⟩
    · dsimp only
      rw [kept.listeners,gone,split]
      simp
    · intro e member
      apply kept.codes e
      dsimp only at member
      rw [gone] at member
      rw [split]
      simp only [List.mem_append,List.mem_cons] at member ⊢
      tauto
    · exact absurd (enabled.1.symm.trans idle) (by decide)
    · simp only [FairAct,iff_true,countedOf_eq]
      rw [gone,split]
      simp only [List.countP_append,List.countP_cons,old]
      cases processed c with
      | true =>
        simp only [if_true]
        omega
      | false =>
        simp only [Bool.false_eq_true,if_false]
        omega
  · cases acted

theorem pending_kept (kept : Kept s) (acted : act s .pending = some (t,d)) :
    Kept t ∧ (d = (countedOf t : Int)-countedOf s ↔ FairAct s .pending) := by
  simp only [act] at acted
  split at acted
  · rename_i running
    cases acted
    have inserted := insertAll_perm (addPending s.maxListeners s.listeners s.pendingTree).1 s.clientTree
    have count := addPending_count s.maxListeners s.listeners s.pendingTree (·.counted)
    have total := inserted.countP_eq (·.counted)
    rw [List.countP_append] at total
    refine ⟨⟨?_,?_,fun idle => ?_⟩,?_⟩
    · have length := inserted.length_eq
      rw [List.length_append] at length
      have before := kept.listeners
      dsimp only
      omega
    · intro c member
      rw [List.append_nil] at member
      rcases List.mem_append.mp (inserted.subset member) with accepted | tree
      · exact kept.codes c (List.mem_append_right _ (addPending_mem accepted))
      · exact kept.codes c (List.mem_append_left _ tree)
    · exact absurd (running.symm.trans idle) (by decide)
    · have refused : (addPending s.maxListeners s.listeners s.pendingTree).2.countP (·.counted) = 0 ↔
          ∀ c ∈ (addPending s.maxListeners s.listeners s.pendingTree).2, ¬processed c := by
        rw [List.countP_eq_zero]
        refine forall₂_congr fun c member => ?_
        rw [kept.codes c (List.mem_append_right _ ((addPending_perm _ _ _).subset (List.mem_append_right _ member)))]
      rw [fair_pending,←refused]
      simp only [countedOf_eq,total,List.countP_nil]
      omega
  · cases acted

theorem cleared_kept (kept : Kept s) (acted : act s .cleared = some (t,d)) :
    Kept t ∧ (d = (countedOf t : Int)-countedOf s ↔ FairAct s .cleared) := by
  simp only [act] at acted
  split at acted
  · cases acted
  · cases acted
    refine ⟨⟨rfl,by simp,fun _ => rfl⟩,?_⟩
    have tree := countP_counted fun c member => kept.codes c (List.mem_append_left s.pendingTree member)
    have pending := countP_counted fun c member => kept.codes c (List.mem_append_right s.clientTree member)
    have parts := List.length_eq_countP_add_countP (p := processed) (l := s.clientTree)
    have length := kept.listeners
    simp only [countedOf_eq,tree,pending,FairAct,List.countP_nil]
    simp only [decide_not,Bool.decide_eq_true] at parts
    split
    · omega
    · omega

-- What one act does to a source and to the balance of the stat, but for the headers that fail
-- through client_send_500: these leave a client that looks as if it were counted.
theorem act_kept (kept : Kept s) (acted : act s a = some (t,d)) (codes : ∀ k, a ≠ .headersFailed k false) :
    Kept t ∧ (d = (countedOf t : Int)-countedOf s ↔ FairAct s a) := by
  cases a with
  | connect id =>
    cases acted
    have inserted := insertClient_perm ⟨id,0,false,false⟩ s.pendingTree
    have count := inserted.countP_eq (·.counted)
    refine ⟨⟨kept.listeners,?_,kept.idle⟩,?_⟩
    · intro c member
      rcases List.mem_append.mp member with tree | pending
      · exact kept.codes c (List.mem_append_left _ tree)
      · rcases List.mem_cons.mp (inserted.subset pending) with rfl | pending
        · rfl
        · exact kept.codes c (List.mem_append_right _ pending)
    · simp only [countedOf_eq,FairAct,iff_true]
      rw [count]
      simp
  | settings max =>
    cases acted
    exact ⟨⟨kept.listeners,kept.codes,kept.idle⟩,by simp [countedOf,FairAct]⟩
  | init =>
    simp only [act] at acted
    split at acted
    · rename_i idle
      cases acted
      have empty := kept.idle idle
      exact ⟨⟨by simp [empty],kept.codes,nofun⟩,by simp [countedOf,FairAct]⟩
    · cases acted
  | headers k =>
    obtain ⟨c,here,acted⟩ := Option.bind_eq_some_iff.mp acted
    split at acted
    · rename_i fresh
      cases acted
      have old := kept.same here
      have count := kept.change here {c with respcode := 200,counted := true} rfl
      refine ⟨count.1,?_⟩
      have uncounted : c.counted = false := by simp [old,processed,fresh.2.1]
      have changed := count.2
      simp only [uncounted] at changed
      simp only [FairAct,iff_true]
      simp at changed
      omega
    · cases acted
  | headersFailed k noData =>
    cases noData with
    | false => exact absurd rfl (codes k)
    | true =>
      obtain ⟨c,here,acted⟩ := Option.bind_eq_some_iff.mp acted
      split at acted
      · rename_i fresh
        cases acted
        have uncounted : c.counted = false := by simp [kept.same here,processed,fresh.2.1]
        have still := kept.unchanged here (d := {c with respcode := 500,error := true})
          (by simp [uncounted,processed]) rfl
        refine ⟨still.1,?_⟩
        simp only [FairAct,if_true,still.2,iff_true]
        omega
      · cases acted
  | failed k =>
    obtain ⟨c,here,same⟩ := Option.map_eq_some_iff.mp acted
    cases same
    have old := kept.same here
    have still := kept.unchanged here (d := {c with error := true}) old rfl
    refine ⟨still.1,?_⟩
    simp only [FairAct,iff_true,still.2]
    omega
  | removed k => exact removed_kept kept acted
  | pending => exact pending_kept kept acted
  | ended =>
    simp only [act] at acted
    split at acted
    · cases acted
      exact ⟨⟨kept.listeners,kept.codes,nofun⟩,by simp [countedOf,FairAct]⟩
    · cases acted
  | cleared => exact cleared_kept kept acted

theorem failed_unkept (kept : Kept s) (acted : act s (.headersFailed k false) = some (t,d)) : ¬Kept t := by
  obtain ⟨c,here,acted⟩ := Option.bind_eq_some_iff.mp acted
  split at acted
  · rename_i fresh
    cases acted
    intro after
    have uncounted : c.counted = false := by simp [kept.same here,processed,fresh.2.1]
    have inside := (List.getElem?_eq_some_iff.mp here).1
    have code := after.codes {c with respcode := 200,error := true} (List.mem_append_left _ (List.mem_set inside _))
    simp [uncounted,processed] at code
  · cases acted

theorem act_balanced (kept : Kept s) (acted : act s a = some (t,d)) :
    (Kept t ∧ d = (countedOf t : Int)-countedOf s) ↔ FairAct s a := by
  by_cases lost : ∃ k, a = .headersFailed k false
  · obtain ⟨k,rfl⟩ := lost
    have unkept := failed_unkept kept acted
    simp [unkept,FairAct]
  · have sound := act_kept kept acted fun k same => lost ⟨k,same⟩
    exact (and_iff_right sound.1).trans sound.2

theorem moved_counted (move : moved source dest = some (a,b)) :
    countedOf a+countedOf b = countedOf source+countedOf dest := by
  simp only [moved] at move
  split at move
  · cases move
    have inserted := (insertAll_perm (source.pendingTree++source.clientTree) dest.pendingTree).countP_eq (·.counted)
    simp only [countedOf_eq,inserted,List.countP_append,List.countP_nil]
    omega
  · cases move

theorem moved_kept (source : Kept a) (dest : Kept b) (move : moved a b = some (c,d)) : Kept c ∧ Kept d := by
  simp only [moved] at move
  split at move
  · cases move
    have inserted := insertAll_perm (a.pendingTree++a.clientTree) b.pendingTree
    refine ⟨⟨rfl,by simp,fun _ => rfl⟩,⟨dest.listeners,?_,dest.idle⟩⟩
    intro e member
    rcases List.mem_append.mp member with tree | pending
    · exact dest.codes e (List.mem_append_left _ tree)
    · have origin := inserted.subset pending
      simp only [List.mem_append] at origin
      rcases origin with (pending | tree) | pending
      · exact source.codes e (List.mem_append_right _ pending)
      · exact source.codes e (List.mem_append_left _ tree)
      · exact dest.codes e (List.mem_append_right _ pending)
  · cases move

def AllKept (s : Server) : Prop := ∀ source ∈ s.sources, Kept source

theorem freed_balanced (kept : AllKept s) (here : s.sources[i]? = some source) :
    (AllKept {s with sources := s.sources.eraseIdx i} ∧
      s.stat-s.stat = (counted {s with sources := s.sources.eraseIdx i} : Int)-counted s) ↔ Fair s (.free i) := by
  obtain ⟨front,back,split,_,gone⟩ := split_at here
  have others : AllKept {s with sources := s.sources.eraseIdx i} := fun other member =>
    kept other (List.mem_of_mem_eraseIdx member)
  have codes := countP_counted (kept source (List.mem_of_getElem? here)).codes
  have fair : Fair s (.free i) ↔ countedOf source = 0 := by
    rw [countedOf,codes,List.countP_eq_zero]
    simp [Fair,here]
  have sums : counted {s with sources := s.sources.eraseIdx i}+countedOf source = counted s := by
    simp only [counted,gone]
    rw [split]
    simp only [List.map_append,List.map_cons,List.sum_append,List.sum_cons]
    omega
  rw [fair,and_iff_right others]
  omega

theorem next_balanced (kept : AllKept s) (step : next s event = some t) :
    (AllKept t ∧ t.stat-s.stat = (counted t : Int)-counted s) ↔ Fair s event := by
  cases event with
  | reserve onDemand =>
    cases step
    refine iff_of_true ⟨?_,?_⟩ trivial
    · intro source member
      rcases List.mem_append.mp member with old | new
      · exact kept source old
      · cases List.mem_singleton.mp new
        exact ⟨rfl,nofun,fun _ => rfl⟩
    · simp [counted,reserved,countedOf]
  | act i a =>
    obtain ⟨source,here,step⟩ := Option.bind_eq_some_iff.mp step
    obtain ⟨⟨after,d⟩,acted,same⟩ := Option.map_eq_some_iff.mp step
    cases same
    have balance := act_balanced (kept source (List.mem_of_getElem? here)) acted
    have total := sum_set countedOf here after
    have inside := (List.getElem?_eq_some_iff.mp here).1
    have others : AllKept ⟨s.sources.set i after,s.stat+d⟩ ↔ Kept after := by
      constructor
      · intro all
        exact all after (List.mem_set inside _)
      · intro sound other member
        rcases List.mem_or_eq_of_mem_set member with old | rfl
        · exact kept other old
        · exact sound
    have fair : Fair s (.act i a) ↔ FairAct source a := by simp [Fair,here]
    rw [fair,←balance,others]
    refine and_congr_right fun _ => ?_
    simp only [counted]
    omega
  | move i j =>
    simp only [next] at step
    split at step
    · cases step
    · rename_i apart
      obtain ⟨source,here,step⟩ := Option.bind_eq_some_iff.mp step
      obtain ⟨dest,there,step⟩ := Option.bind_eq_some_iff.mp step
      obtain ⟨⟨a,b⟩,move,same⟩ := Option.map_eq_some_iff.mp step
      cases same
      have sound := moved_kept (kept source (List.mem_of_getElem? here)) (kept dest (List.mem_of_getElem? there)) move
      have first := sum_set countedOf here a
      have still : (s.sources.set i a)[j]? = some dest := by rw [List.getElem?_set_ne apart,there]
      have second := sum_set countedOf still b
      have same := moved_counted move
      refine iff_of_true ⟨?_,?_⟩ trivial
      · intro other member
        rcases List.mem_or_eq_of_mem_set member with member | rfl
        · rcases List.mem_or_eq_of_mem_set member with old | rfl
          · exact kept other old
          · exact sound.1
        · exact sound.2
      · simp only [counted]
        omega
  | free i =>
    obtain ⟨source,here,step⟩ := Option.bind_eq_some_iff.mp step
    split at step
    · cases step
      exact freed_balanced kept here
    · cases step

theorem counted_le_live (s : Server) : counted s ≤ live s := by
  rw [counted,live]
  induction s.sources with
  | nil => exact Nat.le_refl 0
  | cons source sources ih =>
    simp only [List.map_cons,List.sum_cons]
    exact Nat.add_le_add List.countP_le_length ih

structure Balanced (s : Server) : Prop where
  kept : AllKept s
  stat : s.stat = counted s

theorem Balanced.next (balanced : Balanced s) (step : Step s event t) : Balanced t ↔ Fair s event := by
  have old := balanced.stat
  rw [←next_balanced balanced.kept step]
  constructor
  · intro after
    have new := after.stat
    exact ⟨after.kept,by omega⟩
  · intro ⟨kept,moved⟩
    exact ⟨kept,by omega⟩

theorem start_balanced : Balanced start := ⟨nofun,rfl⟩

-- In a run of fair events the stat is the number of live clients that were counted, and the
-- next event keeps that, with the codes that tell them, exactly when it is fair as well.
theorem runs_stat (run : Runs (fun s event t => Step s event t ∧ Fair s event) start events s) :
    s.stat = counted s ∧ 0 ≤ s.stat ∧ (live s = 0 → s.stat = 0) ∧
      ∀ event t, Step s event t → (Balanced t ↔ Fair s event) := by
  have balanced : Balanced s := run.preserves (fun balanced step => (balanced.next step.1).mpr step.2) start_balanced
  have stat := balanced.stat
  have bound := counted_le_live s
  exact ⟨stat,by omega,fun empty => by omega,fun event t step => balanced.next step⟩

-- A listener that is counted at one mount, moved to another, and leaves it; both sources go.
def movedEvents : List Event :=
  [.reserve false,.reserve false,.act 0 .init,.act 1 .init,.act 0 (.connect 1),.act 0 .pending,
    .act 0 (.headers 0),.act 1 (.settings (some 1))
  ,.move 0 1,.act 1 .pending,.act 0 .ended,.act 0 .cleared,.free 0,.act 0 (.failed 0),.act 0 (.removed 0),.act 0 .ended
  ,.act 0 .cleared,.free 0]

theorem runs_stat_moved : ∃ s, Runs Step start movedEvents s ∧ live s = 0 ∧ s.stat = 0 := by
  have ran : (runFrom (guarded Fair next) start movedEvents).map live = some 0 := by decide +kernel
  obtain ⟨s,ran,empty⟩ := Option.map_eq_some_iff.mp ran
  have fair := runFrom_sound guarded_sound ran
  exact ⟨s,fair.imp fun step => step.1,empty,(runs_stat fair).2.2.1 empty⟩

-- Counted listeners that are moved to a full mount, and a source that ends before its second
-- listener has its headers.
def refusedEvents : List Event :=
  [.reserve false,.reserve false,.act 0 .init,.act 1 .init,.act 0 (.connect 1),.act 0 .pending,
    .act 0 (.headers 0),.act 1 (.settings (some 1))
  ,.act 1 (.connect 2),.act 1 .pending,.act 1 (.headers 0),.move 0 1,.act 1 .pending,
    .act 1 (.failed 0),.act 1 (.removed 0)]

def clearedEvents : List Event :=
  [.reserve false,.act 0 .init,.act 0 (.connect 1),.act 0 (.connect 2),.act 0 .pending,.act 0 (.headers 0),
    .act 0 .ended,.act 0 .cleared]

-- A listener that no headers can be built for.
def failedEvents : List Event :=
  [.reserve false,.act 0 .init,.act 0 (.connect 1),.act 0 .pending,.act 0 (.headersFailed 0 false),.act 0 (.removed 0)]

-- A relay that is freed with a listener moved to it.
def freedEvents : List Event :=
  [.reserve true,.reserve false,.act 1 .init,.act 1 (.connect 1),.act 1 .pending,.act 1 (.headers 0),.move 1 0,.free 0]

theorem stat_drifts : ∃ a b c d, Runs Step start refusedEvents a ∧ live a = 0 ∧ a.stat = 1 ∧
    Runs Step start clearedEvents b ∧ live b = 0 ∧ b.stat = -1 ∧
    Runs Step start failedEvents c ∧ live c = 0 ∧ c.stat = -1 ∧
    Runs Step start freedEvents d ∧ live d = 0 ∧ d.stat = 1 := by
  have refused : (runFrom next start refusedEvents).map (fun s => (live s,s.stat)) = some (0,1) := by decide +kernel
  have cleared : (runFrom next start clearedEvents).map (fun s => (live s,s.stat)) = some (0,-1) := by decide +kernel
  have failed : (runFrom next start failedEvents).map (fun s => (live s,s.stat)) = some (0,-1) := by decide +kernel
  have freed : (runFrom next start freedEvents).map (fun s => (live s,s.stat)) = some (0,1) := by decide +kernel
  obtain ⟨a,ranA,valuesA⟩ := Option.map_eq_some_iff.mp refused
  obtain ⟨b,ranB,valuesB⟩ := Option.map_eq_some_iff.mp cleared
  obtain ⟨c,ranC,valuesC⟩ := Option.map_eq_some_iff.mp failed
  obtain ⟨d,ranD,valuesD⟩ := Option.map_eq_some_iff.mp freed
  exact ⟨a,b,c,d,runFrom_sound (fun step => step) ranA,congrArg (·.1) valuesA,congrArg (·.2) valuesA,
    runFrom_sound (fun step => step) ranB,congrArg (·.1) valuesB,congrArg (·.2) valuesB,
    runFrom_sound (fun step => step) ranC,congrArg (·.1) valuesC,congrArg (·.2) valuesC,
    runFrom_sound (fun step => step) ranD,congrArg (·.1) valuesD,congrArg (·.2) valuesD⟩

end Icecast.ListenerStat
