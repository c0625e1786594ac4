import Icecast.Stats

namespace Icecast.StatsFeed
open Bytes Stats Transition

-- _copy_event
def copyEvent (e : Stats.Event) : Stats.Event := {e with action := .set}

-- _make_event_from_node
def makeEventFromNode (source : Option Text) (node : Node) :
    Stats.Event := ⟨source,some node.name,some node.value,node.hidden,.set⟩

-- What _register_listener puts into the queue of a new listener.
def dump (tree : Trees) : List Stats.Event :=
  tree.globals.map (makeEventFromNode none)++tree.sources.flatMap fun snode =>
    snode.stats.map (makeEventFromNode (some snode.source))

-- The stats thread, with all that was ever queued to each listener, oldest first.
structure Feed where
  tree : Trees
  listeners : List (List Stats.Event)
deriving DecidableEq

def start : Feed := ⟨empty,[]⟩

inductive Input where
  | post (c : Call)
  | register
deriving DecidableEq

def next (s : Feed) : Input → Option Feed
  | .post c =>
    match processEvent s.tree c.build with
    | .ok (tree,e) => some ⟨tree,s.listeners.map (·++[copyEvent e])⟩
    | .error _ => none
  | .register => some {s with listeners := s.listeners++[dump s.tree]}

def Step (s : Feed) (input : Input) (t : Feed) : Prop := next s input = some t

-- What a listener knows after an event: an event without a value is the end of its stat, or of
-- its source where it has no name.
def learn (view : Option Text → Text → Option Text) (e : Stats.Event) (source : Option Text)
    (name : Text) : Option Text :=
  if source ≠ e.source then view source name
  else match e.name with
    | some n => if name = n then e.value else view source name
    | none => if e.value = none then none else view source name

def seen (queue : List Stats.Event) : Option Text → Text → Option Text := queue.foldl learn fun _ _ => none

def Replicated (s : Feed) : Prop :=
  ∀ queue ∈ s.listeners, ∀ source name, seen queue source name = lookup s.tree source name

-- Nothing is held for a source, or for no source.
def bare (tree : Trees) : Option Text → Bool
  | none => tree.globals.isEmpty
  | some source => (Keyed.find SourceNode.source tree.sources source).all (·.stats.isEmpty)

-- The value that the event carries is the value that it leaves.
def Plain (tree : Trees) (e : Stats.Event) : Prop :=
  match e.name with
  | some name =>
    match lookup tree e.source name,e.action with
    | some old,.add => some (shown (Decimal.toInt old+Decimal.toInt (e.value.getD []))) = e.value
    | some old,.sub => some (shown (Decimal.toInt old-Decimal.toInt (e.value.getD []))) = e.value
    | some old,.hidden => e.value = some old
    | _,_ => True
  | none => e.action = .remove ∨ e.value ≠ none ∨ bare tree e.source = true

instance decidePlain (tree : Trees) (e : Stats.Event) : Decidable (Plain tree e) := by
  unfold Plain
  split
  · split <;> infer_instance
  · infer_instance

-- With a listener there, ADD and SUB on a stat leave their own operand, a stat that is there is
-- hidden only when it is empty, and no event without name and value but a removal is for a source
-- that has stats.
def Fair (s : Feed) : Input → Prop
  | .post c => s.listeners = [] ∨ Plain s.tree c.build
  | .register => True

instance decideFair (s : Feed) : (input : Input) → Decidable (Fair s input)
  | .post c => inferInstanceAs (Decidable (s.listeners = [] ∨ Plain s.tree c.build))
  | .register => isTrue trivial

-- No two nodes of a tree have one name.
structure Unique (tree : Trees) : Prop where
  globals : Keyed.Unique Node.name tree.globals
  sources : Keyed.Unique SourceNode.source tree.sources
  stats : ∀ snode ∈ tree.sources, Keyed.Unique Node.name snode.stats

theorem stat_unique (done : processStat snode e name = .ok (snode',e')) (unique : Keyed.Unique Node.name snode.stats) :
    Keyed.Unique Node.name snode'.stats := by
  unfold processStat at done
  split at done
  · rename_i absent
    split at done
    · cases done
      exact unique
    · split at done
      · cases done
        exact unique.insert absent
      · cases done
        exact unique
  · split at done
    · cases done
      exact unique.delete name
    · obtain ⟨r,_,same⟩ := bind_ok done
      cases same
      exact unique.put r.1

theorem findSource_unique (unique : Unique tree) (e : Stats.Event) (source : Text) :
    Unique (findSource tree e source).1 ∧ Keyed.Unique Node.name (findSource tree e source).2.stats := by
  unfold findSource
  split
  · rename_i snode found
    exact ⟨unique,unique.stats snode (Keyed.find_mem found)⟩
  · rename_i absent
    refine ⟨⟨unique.globals,unique.sources.insert absent,fun snode within => ?_⟩,List.nodup_nil⟩
    rcases List.mem_append.mp within with old | new
    · exact unique.stats snode old
    · rw [List.mem_singleton.mp new]
      exact List.nodup_nil

theorem Unique.replace (unique : Unique tree) (snode : SourceNode) (stats : Keyed.Unique Node.name snode.stats) :
    Unique {tree with sources := Keyed.put SourceNode.source tree.sources snode} where
  globals := unique.globals
  sources := unique.sources.put snode
  stats := fun other within => by
    rcases Keyed.mem_put within with same | old
    · rw [same]
      exact stats
    · exact unique.stats other old

theorem findNode_none {nodes : List Node} (absent : findNode nodes name' = .ok none)
    (named : pointer name' = .ok name) :
    Keyed.find Node.name nodes name = none := by
  cases name' with
  | none => cases named
  | some text =>
    cases named
    rw [findNode_named] at absent
    exact Except.ok.inj absent

theorem process_unique (done : processEvent tree e = .ok (tree',e')) (unique : Unique tree) : Unique tree' := by
  unfold processEvent at done
  split at done
  · obtain ⟨found,place,rest⟩ := bind_ok done
    split at rest
    · split at rest
      · cases rest
        exact ⟨unique.globals.delete _,unique.sources,unique.stats⟩
      · obtain ⟨r,_,same⟩ := bind_ok rest
        cases same
        exact ⟨unique.globals.put _,unique.sources,unique.stats⟩
    · rename_i node_ absent
      split at rest
      · cases rest
        exact unique
      · obtain ⟨name,named,rest'⟩ := bind_ok rest
        obtain ⟨value,_,same⟩ := bind_ok rest'
        cases same
        exact ⟨unique.globals.insert (findNode_none place named),unique.sources,unique.stats⟩
  · unfold processSourceEvent at done
    split at done
    · cases done
      exact unique
    · rename_i source _ _
      obtain ⟨made,stats⟩ := findSource_unique unique e source
      generalize findSource tree e source = pair at done made stats
      obtain ⟨tree1,snode⟩ := pair
      dsimp only at done made stats
      split at done
      · obtain ⟨r,processed,same⟩ := bind_ok done
        cases same
        exact made.replace r.1 (stat_unique processed stats)
      · split at done
        · cases done
          apply made.replace _
          rw [Keyed.Unique,List.map_map]
          exact stats
        · split at done
          · cases done
            exact ⟨made.globals,made.sources.delete _,fun other within =>
              made.stats other (List.mem_of_mem_filter within)⟩
          · cases done
            exact made

theorem learn_nodes {nodes : List Node} (unique : Keyed.Unique Node.name nodes) (place : Option Text)
    (view : Option Text → Text → Option Text)
    (source : Option Text) (name : Text) :
    (nodes.map (makeEventFromNode place)).foldl learn view source name =
      if source = place then (valueIn nodes name).or (view source name) else view source name := by
  induction nodes generalizing view with
  | nil =>
    split <;> rfl
  | cons node nodes ih =>
    obtain ⟨fresh,rest⟩ := List.nodup_cons.mp unique
    rw [List.map_cons,List.foldl_cons,ih rest]
    by_cases here : source = place
    · rw [if_pos here,if_pos here,learn,if_neg (by simpa [makeEventFromNode] using here)]
      dsimp only [makeEventFromNode]
      by_cases same : name = node.name
      · have absent : valueIn nodes name = none := by
          rw [valueIn,Keyed.find,List.find?_eq_none.mpr fun other within => ?_]
          · rfl
          · have different : ¬other.name = name := fun equal => fresh ((equal.trans same) ▸ List.mem_map_of_mem within)
            simpa using different
        have first : valueIn (node::nodes) name = some node.value := by
          rw [valueIn,Keyed.find,List.find?_cons_of_pos (by simp [same])]
          rfl
        rw [if_pos same,absent,first]
        rfl
      · have later : valueIn (node::nodes) name = valueIn nodes name := by
          rw [valueIn,Keyed.find,List.find?_cons_of_neg
            (by simpa using fun equal : node.name = name => same equal.symm)]
          rfl
        rw [if_neg same,later]
    · rw [if_neg here,if_neg here,learn,if_pos (by simpa [makeEventFromNode] using here)]

theorem learn_sources {snodes : List SourceNode} (unique : Keyed.Unique SourceNode.source snodes)
    (stats : ∀ snode ∈ snodes, Keyed.Unique Node.name snode.stats) (view : Option Text → Text → Option Text)
    (source : Option Text) (name : Text) :
    (snodes.flatMap fun snode => snode.stats.map (makeEventFromNode (some snode.source))).foldl learn view source name =
      match source with
      | none => view none name
      | some text => ((Keyed.find SourceNode.source snodes text).bind fun snode => valueIn snode.stats name).or
        (view (some text) name) := by
  induction snodes generalizing view with
  | nil => cases source <;> rfl
  | cons snode snodes ih =>
    obtain ⟨fresh,rest⟩ := List.nodup_cons.mp unique
    rw [List.flatMap_cons,List.foldl_append,ih rest fun other within => stats other (List.mem_cons_of_mem snode within)]
    cases source with
    | none =>
      dsimp only
      rw [learn_nodes (stats snode List.mem_cons_self),if_neg nofun]
    | some text =>
      dsimp only
      rw [learn_nodes (stats snode List.mem_cons_self)]
      by_cases same : text = snode.source
      · have absent : Keyed.find SourceNode.source snodes text = none := List.find?_eq_none.mpr fun other within => by
          have different : ¬other.source = text := fun equal => fresh ((equal.trans same) ▸ List.mem_map_of_mem within)
          simpa using different
        have first : Keyed.find SourceNode.source (snode::snodes) text = some snode :=
          List.find?_cons_of_pos (by simp [same])
        rw [if_pos (congrArg some same),absent,first]
        rfl
      · have later : Keyed.find SourceNode.source (snode::snodes) text = Keyed.find SourceNode.source snodes text :=
          List.find?_cons_of_neg (by simpa using fun equal : snode.source = text => same equal.symm)
        rw [if_neg fun equal => same (Option.some.inj equal),later]

theorem seen_dump (unique : Unique tree) (source : Option Text) (name : Text) :
    seen (dump tree) source name = lookup tree source name := by
  rw [seen,dump,List.foldl_append,learn_sources unique.sources unique.stats]
  cases source with
  | none =>
    dsimp only
    rw [learn_nodes unique.globals,if_pos rfl,Option.or_none]
    rfl
  | some text =>
    dsimp only
    rw [learn_nodes unique.globals,if_neg nofun,Option.or_none]
    rfl

theorem seen_snoc (queue : List Stats.Event) (e : Stats.Event) : seen (queue++[e]) = learn (seen queue) e := by
  rw [seen,List.foldl_append]
  rfl

theorem build_count (c : Call) (counts : c.build.action = .inc ∨ c.build.action = .dec) : c.build.value = none := by
  cases c with
  | event source name value => cases value <;> simp [Call.build,buildEvent] at counts
  | inc source name | dec source name => rfl
  | hidden source name flag | add source name v | sub source name v => simp [Call.build] at counts

theorem int_ok (done : int z = .ok z') : z' = z := by
  unfold int at done
  split at done <;> cases done
  rfl

theorem int64_ok (done : int64 z = .ok z') : z' = z := by
  unfold int64 at done
  split at done <;> cases done
  rfl

theorem newValue_add (done : newValue old e = .ok z) (adds : e.action = .add) (operand : e.value = some text) :
    z = Decimal.toInt old+Decimal.toInt text := by
  unfold newValue at done
  rw [adds,operand] at done
  obtain ⟨left,read,rest⟩ := bind_ok done
  obtain ⟨_,pointed,rest'⟩ := bind_ok rest
  cases pointed
  obtain ⟨right,read',sum⟩ := bind_ok rest'
  rw [int_ok sum,int_ok read,int_ok read']

theorem newValue_sub (done : newValue old e = .ok z) (subs : e.action = .sub) (operand : e.value = some text) :
    z = Decimal.toInt old-Decimal.toInt text := by
  unfold newValue at done
  rw [subs,operand] at done
  obtain ⟨left,read,rest⟩ := bind_ok done
  obtain ⟨_,pointed,rest'⟩ := bind_ok rest
  cases pointed
  obtain ⟨right,read',difference⟩ := bind_ok rest'
  rw [int64_ok difference,int64_ok read,int64_ok read']

theorem change_plain (c : Call) (named : c.build.name = some name)
    (changed : change (lookup tree c.build.source name) c.build = .ok (new,sent)) :
    sent = new ↔ Plain tree c.build := by
  have removes := (build_value c).1
  have operand := (build_value c).2
  have counts := build_count c
  generalize c.build = e at *
  unfold Plain
  rw [named]
  dsimp only
  generalize lookup tree e.source name = old at changed ⊢
  cases old with
  | none =>
    refine ⟨fun _ => trivial,fun _ => ?_⟩
    cases action : e.action with
    | remove =>
      unfold change at changed
      rw [action] at changed
      cases changed
      exact removes action
    | set | hidden | inc | dec | add | sub =>
      unfold change at changed
      rw [action] at changed
      cases changed
      rfl
  | some old =>
    cases action : e.action with
    | remove =>
      unfold change at changed
      rw [action] at changed
      cases changed
      exact ⟨fun _ => trivial,fun _ => removes action⟩
    | set =>
      unfold change at changed
      rw [action] at changed
      cases changed
      exact ⟨fun _ => trivial,fun _ => rfl⟩
    | hidden =>
      unfold change at changed
      rw [action] at changed
      cases changed
      rfl
    | inc | dec =>
      have vacant : e.value = none := counts (by simp [action])
      unfold change at changed
      rw [action] at changed
      obtain ⟨z,_,same⟩ := bind_ok changed
      cases same
      rw [vacant]
      exact ⟨fun _ => trivial,fun _ => rfl⟩
    | add =>
      obtain ⟨text,filled⟩ := Option.isSome_iff_exists.mp (operand (.inr (.inl action)))
      unfold change at changed
      rw [action] at changed
      obtain ⟨z,counted,same⟩ := bind_ok changed
      cases same
      rw [filled,newValue_add counted action filled]
      exact eq_comm
    | sub =>
      obtain ⟨text,filled⟩ := Option.isSome_iff_exists.mp (operand (.inr (.inr action)))
      unfold change at changed
      rw [action] at changed
      obtain ⟨z,counted,same⟩ := bind_ok changed
      cases same
      rw [filled,newValue_sub counted action filled]
      exact eq_comm

theorem valueIn_empty {nodes : List Node} : nodes.isEmpty = true ↔ ∀ name, valueIn nodes name = none := by
  cases nodes with
  | nil => exact ⟨fun _ _ => rfl,fun _ => rfl⟩
  | cons node nodes =>
    refine ⟨nofun,fun absent => ?_⟩
    have first := absent node.name
    rw [valueIn,Keyed.find,List.find?_cons_of_pos (by simp)] at first
    cases first

theorem bare_iff (tree : Trees) (source : Option Text) : bare tree source = true ↔
    ∀ name, lookup tree source name = none := by
  cases source with
  | none => exact valueIn_empty
  | some text =>
    unfold bare lookup
    dsimp only
    cases Keyed.find SourceNode.source tree.sources text with
    | none => exact ⟨fun _ _ => rfl,fun _ => rfl⟩
    | some snode =>
      rw [Option.all_some]
      exact valueIn_empty

theorem learn_named {e : Stats.Event} (named : e.name = some name) (view : Option Text → Text → Option Text)
    (src : Option Text) (other : Text) :
    learn view e src other = if src = e.source ∧ other = name then e.value else view src other := by
  unfold learn
  rw [named]
  by_cases here : src = e.source
  · rw [if_neg (not_not.mpr here)]
    dsimp only
    by_cases same : other = name
    · rw [if_pos same,if_pos ⟨here,same⟩]
    · rw [if_neg same,if_neg fun both => same both.2]
  · rw [if_pos here,if_neg fun both => here both.1]

theorem learn_unnamed {e : Stats.Event} (unnamed : e.name = none) (view : Option Text → Text → Option Text)
    (src : Option Text) (other : Text) :
    learn view e src other = if src = e.source ∧ e.value = none then none else view src other := by
  unfold learn
  rw [unnamed]
  by_cases here : src = e.source
  · rw [if_neg (not_not.mpr here)]
    dsimp only
    by_cases vacant : e.value = none
    · rw [if_pos vacant,if_pos ⟨here,vacant⟩]
    · rw [if_neg vacant,if_neg fun both => vacant both.2]
  · rw [if_pos here,if_neg fun both => here both.1]

theorem learn_plain (c : Call) (done : processEvent tree c.build = .ok (tree',e')) :
    (∀ source name, learn (lookup tree) (copyEvent e') source name = lookup tree' source name) ↔
    Plain tree c.build := by
  cases named : c.build.name with
  | some name =>
    obtain ⟨source,name',new,changed,looked⟩ := process_change done named
    rw [←change_plain c named changed]
    have learned : ∀ src other, learn (lookup tree) (copyEvent e') src other =
        if src = c.build.source ∧ other = name then e'.value else lookup tree src other := fun src other => by
      rw [←source]
      exact learn_named (name'.trans named) (lookup tree) src other
    refine ⟨fun agree => ?_,fun same src other => ?_⟩
    · have place := agree c.build.source name
      rwa [learned,looked,if_pos ⟨rfl,rfl⟩,if_pos ⟨rfl,rfl⟩] at place
    · rw [learned,looked,same]
  | none =>
    obtain ⟨rfl,looked⟩ := process_unnamed done named
    have removes := (build_value c).1
    unfold Plain
    rw [named]
    dsimp only
    have learned : ∀ src other, learn (lookup tree) (copyEvent c.build) src other =
        if src = c.build.source ∧ c.build.value = none then none else lookup tree src other :=
          learn_unnamed named (lookup tree)
    by_cases action : c.build.action = .remove
    · refine ⟨fun _ => .inl action,fun _ src other => ?_⟩
      rw [learned,looked]
      by_cases here : src = c.build.source
      · rw [if_pos ⟨here,removes action⟩,if_pos ⟨action,here⟩]
      · rw [if_neg fun both => here both.1,if_neg fun both => here both.2]
    · have kept : ∀ src other, lookup tree' src other = lookup tree src other := fun src other => by
        rw [looked,if_neg fun both => action both.1]
      by_cases vacant : c.build.value = none
      · rw [bare_iff]
        refine ⟨fun agree => .inr (.inr fun other => ?_),fun plain src other => ?_⟩
        · have place := agree c.build.source other
          rw [learned,kept,if_pos ⟨rfl,vacant⟩] at place
          exact place.symm
        · have nothing : ∀ other, lookup tree c.build.source other = none := by
            rcases plain with removed | value | nothing
            · exact absurd removed action
            · exact absurd vacant value
            · exact nothing
          rw [learned,kept]
          split
          · rename_i both
            rw [both.1,nothing]
          · rfl
      · refine ⟨fun _ => .inr (.inl vacant),fun _ src other => ?_⟩
        rw [learned,kept,if_neg fun both => vacant both.2]

theorem post_replicated (agree : Replicated s) (step : Step s (.post c) t) : Replicated t ↔ Fair s (.post c) := by
  unfold Step next at step
  dsimp only at step
  split at step
  · rename_i tree e done
    cases step
    have told : ∀ queue ∈ s.listeners, ∀ source name,
        seen (queue++[copyEvent e]) source name = learn (lookup s.tree) (copyEvent e) source name := by
      intro queue within source name
      rw [seen_snoc,show seen queue = lookup s.tree from funext fun src => funext fun other =>
        agree queue within src other]
    refine ⟨fun replicated => ?_,fun fair queue within source name => ?_⟩
    · cases listeners : s.listeners with
      | nil => exact .inl listeners
      | cons queue queues =>
        refine .inr ((learn_plain c done).mp fun source name => ?_)
        have member : queue ∈ s.listeners := listeners ▸ List.mem_cons_self
        rw [←told queue member]
        exact replicated _ (List.mem_map_of_mem member) source name
    · obtain ⟨queue,member,rfl⟩ := List.mem_map.mp within
      rcases fair with nobody | plain
      · rw [nobody] at member
        cases member
      · rw [told queue member]
        exact (learn_plain c done).mpr plain source name
  · cases step

-- What holds of the stats and of all that was sent.
structure Invariant (s : Feed) : Prop where
  unique : Unique s.tree
  replicated : Replicated s

theorem step_unique (unique : Unique s.tree) (step : Step s input t) : Unique t.tree := by
  unfold Step next at step
  split at step
  · split at step
    · rename_i done
      cases step
      exact process_unique done unique
    · cases step
  · cases step
    exact unique

theorem step_replicated (invariant : Invariant s) (step : Step s input t) : Replicated t ↔ Fair s input := by
  cases input with
  | post c => exact post_replicated invariant.replicated step
  | register =>
    cases step
    refine ⟨fun _ => trivial,fun _ queue within => ?_⟩
    rcases List.mem_append.mp within with old | new
    · exact invariant.replicated queue old
    · rw [List.mem_singleton.mp new]
      exact seen_dump invariant.unique

theorem start_invariant : Invariant start := ⟨⟨List.nodup_nil,List.nodup_nil,nofun⟩,nofun⟩

-- Each listener was last told what the tree holds, after every run whose events are fair, and
-- after the first that is not, some listener was told something else.
theorem runs_replicated (run : Runs (fun s input t => Step s input t ∧ Fair s input) start inputs s) :
    Replicated s ∧ ∀ input t, Step s input t → (Replicated t ↔ Fair s input) := by
  have invariant : Invariant s := run.preserves
    (fun invariant step => ⟨step_unique invariant.unique step.1,
      (step_replicated invariant step.1).mpr step.2⟩) start_invariant
  exact ⟨invariant.replicated,fun input t step => step_replicated invariant step⟩

-- A source at /a with listeners 5 and a title, and a listener that comes between.
def served : List Input :=
  [.post (.event none (some [99]) (some [48])),.post (.inc none (some [99])),
    .post (.event (some [47,97]) (some [108]) (some [53])),
   .register,.post (.inc (some [47,97]) (some [108])),.post (.event (some [47,97]) (some [116]) (some [120])),
   .post (.hidden (some [47,97]) none true),.register,.post (.event (some [47,97]) (some [116]) none)]

theorem runs_replicated_served : ∃ s, Runs (fun s input t => Step s input t ∧ Fair s input) start served s ∧
    s.listeners.map (fun queue => (seen queue none [99],seen queue (some [47,97]) [108],
    seen queue (some [47,97]) [116])) =
      [(some [49],some [54],none),(some [49],some [54],none)] ∧ Replicated s := by
  have ran : (runFrom (guarded Fair next) start served).map
      (fun s => s.listeners.map fun queue => (seen queue none [99],seen queue (some [47,97]) [108],
        seen queue (some [47,97]) [116])) =
      some [(some [49],some [54],none),(some [49],some [54],none)] := by decide +kernel
  obtain ⟨s,ran,values⟩ := Option.map_eq_some_iff.mp ran
  have fair := runFrom_sound guarded_sound ran
  exact ⟨s,fair,values,(runs_replicated fair).1⟩

-- A sum of 5 and 3 is told as 3, and a stat that is hidden as an empty one.
theorem operand_sent :
    (∃ s, Runs Step start [.post (.event none (some [98]) (some [53])),.register,.post (.add none (some [98]) 3)] s ∧
      lookup s.tree none [98] = some [56] ∧ s.listeners.map (seen · none [98]) = [some [51]] ∧ ¬Replicated s) ∧
    ∃ s, Runs Step start [.post (.event none (some [98]) (some [53])),.register,
    .post (.hidden none (some [98]) true)] s ∧
      lookup s.tree none [98] = some [53] ∧ s.listeners.map (seen · none [98]) = [some []] ∧ ¬Replicated s := by
  have differs : ∀ {s : Feed} {held told : Text}, lookup s.tree none [98] = some held →
    s.listeners.map (seen · none [98]) = [some told] →
      told ≠ held → ¬Replicated s := by
    intro s held told tree listeners other replicated
    have within : some told ∈ s.listeners.map (seen · none [98]) := by rw [listeners]; exact List.mem_singleton_self _
    obtain ⟨queue,member,same⟩ := List.mem_map.mp within
    rw [replicated queue member none [98],tree] at same
    exact other (Option.some.inj same).symm
  refine ⟨?_,?_⟩
  · have ran : (runFrom next start [.post (.event none (some [98]) (some [53])),.register,
      .post (.add none (some [98]) 3)]).map
        (fun s => (lookup s.tree none [98],s.listeners.map (seen · none [98]))) =
          some (some [56],[some [51]]) := by decide +kernel
    obtain ⟨s,ran,values⟩ := Option.map_eq_some_iff.mp ran
    have held : lookup s.tree none [98] = some [56] := congrArg (·.1) values
    have told : s.listeners.map (seen · none [98]) = [some [51]] := congrArg (·.2) values
    exact ⟨s,runFrom_sound (fun step => step) ran,held,told,differs held told (by decide)⟩
  · have ran : (runFrom next start [.post (.event none (some [98]) (some [53])),.register,
      .post (.hidden none (some [98]) true)]).map
        (fun s => (lookup s.tree none [98],s.listeners.map (seen · none [98]))) =
          some (some [53],[some []]) := by decide +kernel
    obtain ⟨s,ran,values⟩ := Option.map_eq_some_iff.mp ran
    have held : lookup s.tree none [98] = some [53] := congrArg (·.1) values
    have told : s.listeners.map (seen · none [98]) = [some []] := congrArg (·.2) values
    exact ⟨s,runFrom_sound (fun step => step) ran,held,told,differs held told (by decide)⟩

end Icecast.StatsFeed
