import Icecast.Lib.Bytes
import Icecast.Lib.Decimal
import Icecast.Lib.Keyed
import Icecast.Lib.Transition

namespace Icecast.Stats
open Bytes Transition

-- A NULL pointer where a string is needed, or a number that its C type does not hold.
inductive Fault where
  | null
  | range
deriving DecidableEq

inductive Action where
  | set
  | inc
  | dec
  | add
  | sub
  | remove
  | hidden
deriving DecidableEq

structure Event where
  source : Option Text
  name : Option Text
  value : Option Text
  hidden : Bool
  action : Action
deriving DecidableEq

structure Node where
  name : Text
  value : Text
  hidden : Bool
deriving DecidableEq

structure SourceNode where
  source : Text
  hidden : Bool
  stats : List Node
deriving DecidableEq

-- stats_t
structure Trees where
  globals : List Node
  sources : List SourceNode
deriving DecidableEq

def buildEvent (source name value : Option Text) : Event :=
  ⟨source,name,value,false,if value.isNone then .remove else .set⟩

-- An unsigned long as %ld writes it into the 16 bytes of an event's value.
def signedLong (v : UInt64) : Int := if v.toNat < 2^63 then v.toNat else (v.toNat : Int)-2^64

def shown (z : Int) : Text := (Decimal.ofInt z).take 15

-- The calls that queue an event, with texts that are UTF-8.
inductive Call where
  | event (source name value : Option Text)
  | hidden (source name : Option Text) (flag : Bool)
  | inc (source name : Option Text)
  | dec (source name : Option Text)
  | add (source name : Option Text) (v : UInt64)
  | sub (source name : Option Text) (v : UInt64)
deriving DecidableEq

-- stats_event, stats_event_hidden, stats_event_inc, stats_event_dec, stats_event_add and
-- stats_event_sub
def Call.build : Call → Event
  | .event source name value => buildEvent source name value
  | .hidden source name flag => {buildEvent source name (if flag then some [] else none) with action := .hidden}
  | .inc source name => {buildEvent source name none with action := .inc}
  | .dec source name => {buildEvent source name none with action := .dec}
  | .add source name v => {buildEvent source name none with value := some (shown (signedLong v)),action := .add}
  | .sub source name v => {buildEvent source name none with value := some (shown (signedLong v)),action := .sub}

def pointer (text : Option Text) : Except Fault Text := text.elim (.error .null) .ok

def int (z : Int) : Except Fault Int := if -2^31 ≤ z ∧ z < 2^31 then .ok z else .error .range
def int64 (z : Int) : Except Fault Int := if -2^63 ≤ z ∧ z < 2^63 then .ok z else .error .range

def atoi (text : Text) : Except Fault Int := int (Decimal.toInt text)
def atoll (text : Text) : Except Fault Int := int64 (Decimal.toInt text)

-- The switch of modify_node_event.
def newValue (value : Text) (e : Event) : Except Fault Int :=
  match e.action with
  | .inc => do int ((← atoi value)+1)
  | .dec => do int ((← atoi value)-1)
  | .add => do int ((← atoi value)+(← atoi (← pointer e.value)))
  | .sub => do int64 ((← atoll value)-(← atoll (← pointer e.value)))
  | _ => .ok 0

def modifyNodeEvent (node : Node) (e : Event) : Except Fault (Node × Event) :=
  match e.action with
  | .hidden => .ok ({node with hidden := e.value.isSome},e)
  | .set => do .ok ({node with value := (← pointer e.value)},e)
  | _ => do
    let str := shown (← newValue node.value e)
    .ok ({node with value := str},{e with value := some (e.value.getD str)})

-- _find_node; strcmp gets the name only where there are nodes.
def findNode (nodes : List Node) (name : Option Text) : Except Fault (Option Node) :=
  if nodes = [] then .ok none else do .ok (Keyed.find Node.name nodes (← pointer name))

def processGlobalEvent (tree : Trees) (e : Event) : Except Fault (Trees × Event) := do
  match ← findNode tree.globals e.name with
  | some node =>
    if e.action = .remove then .ok ({tree with globals := Keyed.delete Node.name tree.globals node.name},e)
    else do
      let (node,e) ← modifyNodeEvent node e
      .ok ({tree with globals := Keyed.put Node.name tree.globals node},e)
  | none =>
    if e.action = .remove then .ok (tree,e)
    else do .ok ({tree with globals := tree.globals++[⟨← pointer e.name,← pointer e.value,false⟩]},e)

-- The source's own tree, for an event on it.
def processStat (snode : SourceNode) (e : Event) (name : Text) : Except Fault (SourceNode × Event) :=
  match Keyed.find Node.name snode.stats name with
  | none =>
    if e.action = .remove then .ok (snode,e)
    else match e.value with
      | some value => .ok ({snode with stats := snode.stats++[⟨name,value,snode.hidden⟩]},e)
      | none => .ok (snode,e)
  | some node =>
    if e.action = .remove then .ok ({snode with stats := Keyed.delete Node.name snode.stats name},e)
    else do
      let (node,e) ← modifyNodeEvent node e
      .ok ({snode with stats := Keyed.put Node.name snode.stats node},e)

-- The source of an event, made where it is not there.
def findSource (tree : Trees) (e : Event) (source : Text) : Trees × SourceNode :=
  match Keyed.find SourceNode.source tree.sources source with
  | some snode => (tree,snode)
  | none =>
    let snode : SourceNode := ⟨source,e.action = .hidden,[]⟩
    ({tree with sources := tree.sources++[snode]},snode)

def processSourceEvent (tree : Trees) (e : Event) (source : Text) : Except Fault (Trees × Event) :=
  if Keyed.find SourceNode.source tree.sources source = none ∧ e.action = .remove then .ok (tree,e)
  else
    let (tree,snode) := findSource tree e source
    match e.name with
    | some name => do
      let (snode,e) ← processStat snode e name
      .ok ({tree with sources := Keyed.put SourceNode.source tree.sources snode},e)
    | none =>
      if e.action = .hidden then
        let snode := {snode with hidden := e.value.isSome,stats := snode.stats.map fun node => {node with hidden := e.value.isSome}}
        .ok ({tree with sources := Keyed.put SourceNode.source tree.sources snode},e)
      else if e.action = .remove then .ok ({tree with sources := Keyed.delete SourceNode.source tree.sources source},e)
      else .ok (tree,e)

-- One event of _stats_thread, with what it copies to the listeners.
def processEvent (tree : Trees) (e : Event) : Except Fault (Trees × Event) :=
  match e.source with
  | none => processGlobalEvent tree e
  | some source => processSourceEvent tree e source

-- The value that the tree holds for a name of a source, or a global name.
def lookup (tree : Trees) (source : Option Text) (name : Text) : Option Text :=
  match source with
  | none => (Keyed.find Node.name tree.globals name).map (·.value)
  | some source => (Keyed.find SourceNode.source tree.sources source).bind fun snode =>
    (Keyed.find Node.name snode.stats name).map (·.value)

def empty : Trees := ⟨[],[]⟩

theorem build_value (c : Call) : (c.build.action = .remove → c.build.value = none) ∧
    (c.build.action = .set ∨ c.build.action = .add ∨ c.build.action = .sub → c.build.value.isSome = true) := by
  cases c with
  | event source name value => cases value <;> simp [Call.build,buildEvent]
  | hidden source name flag => simp [Call.build]
  | inc source name | dec source name | add source name v | sub source name v => simp [Call.build,buildEvent]

theorem bind_error {x : Except Fault α} {f : α → Except Fault β} (failed : x.bind f = .error fault) :
    x = .error fault ∨ ∃ a, x = .ok a ∧ f a = .error fault := by
  cases x with
  | error other =>
    cases failed
    exact .inl rfl
  | ok a => exact .inr ⟨a,rfl,failed⟩

theorem bind_ok {x : Except Fault α} {f : α → Except Fault β} (done : x.bind f = .ok b) :
    ∃ a, x = .ok a ∧ f a = .ok b := by
  cases x with
  | error other => cases done
  | ok a => exact ⟨a,rfl,done⟩

theorem int_null : int z ≠ .error .null := by
  unfold int
  split <;> exact nofun

theorem int64_null : int64 z ≠ .error .null := by
  unfold int64
  split <;> exact nofun

theorem newValue_null (operand : e.action = .add ∨ e.action = .sub → e.value.isSome = true) :
    newValue value e ≠ .error .null := by
  intro failed
  unfold newValue at failed
  cases action : e.action with
  | inc | dec =>
    rw [action] at failed
    rcases bind_error failed with first | ⟨_,_,second⟩
    · exact int_null first
    · exact int_null second
  | add =>
    rw [action] at failed
    obtain ⟨text,filled⟩ := Option.isSome_iff_exists.mp (operand (.inl action))
    rw [filled] at failed
    rcases bind_error failed with first | ⟨_,_,second⟩
    · exact int_null first
    · rcases bind_error second with third | ⟨_,_,rest⟩
      · cases third
      · rcases bind_error rest with fourth | ⟨_,_,last⟩
        · exact int_null fourth
        · exact int_null last
  | sub =>
    rw [action] at failed
    obtain ⟨text,filled⟩ := Option.isSome_iff_exists.mp (operand (.inr action))
    rw [filled] at failed
    rcases bind_error failed with first | ⟨_,_,second⟩
    · exact int64_null first
    · rcases bind_error second with third | ⟨_,_,rest⟩
      · cases third
      · rcases bind_error rest with fourth | ⟨_,_,last⟩
        · exact int64_null fourth
        · exact int64_null last
  | set | remove | hidden =>
    rw [action] at failed
    cases failed

theorem modifyNode_null (c : Call) : modifyNodeEvent node c.build ≠ .error .null := by
  intro failed
  unfold modifyNodeEvent at failed
  have operand := (build_value c).2
  split at failed
  · cases failed
  · rename_i action
    obtain ⟨text,filled⟩ := Option.isSome_iff_exists.mp (operand (.inl action))
    rw [filled] at failed
    cases failed
  · rcases bind_error failed with first | ⟨_,_,second⟩
    · exact newValue_null (fun adds => operand (.inr adds)) first
    · cases second

theorem source_null (c : Call) : processSourceEvent tree c.build source ≠ .error .null := by
  intro failed
  unfold processSourceEvent at failed
  dsimp only at failed
  split at failed
  · cases failed
  · split at failed
    · rcases bind_error failed with first | ⟨_,_,second⟩
      · unfold processStat at first
        split at first
        · split at first
          · cases first
          · split at first <;> cases first
        · split at first
          · cases first
          · rcases bind_error first with modified | ⟨_,_,last⟩
            · exact modifyNode_null c modified
            · cases last
      · cases second
    · split at failed
      · cases failed
      · split at failed <;> cases failed

-- A global event has a name, and a value or a stat to change, unless it removes.
def Sound (tree : Trees) (e : Event) : Prop :=
  match e.source with
  | some _ => True
  | none =>
    match e.name with
    | none => e.action = .remove ∧ tree.globals = []
    | some name => e.action = .remove ∨ e.value.isSome = true ∨ (lookup tree none name).isSome = true

instance decideSound (tree : Trees) : (e : Event) → Decidable (Sound tree e)
  | ⟨some _,_,_,_,_⟩ => isTrue trivial
  | ⟨none,none,_,_,action⟩ => inferInstanceAs (Decidable (action = .remove ∧ tree.globals = []))
  | ⟨none,some name,value,_,action⟩ =>
    inferInstanceAs (Decidable (action = .remove ∨ value.isSome = true ∨ (lookup tree none name).isSome = true))

theorem findNode_named (nodes : List Node) (name : Text) :
    findNode nodes (some name) = .ok (Keyed.find Node.name nodes name) := by
  unfold findNode
  split
  · rename_i nothing
    rw [nothing]
    rfl
  · rfl

theorem global_null (c : Call) : processGlobalEvent tree c.build = .error .null ↔
    ¬(match c.build.name with
      | none => c.build.action = .remove ∧ tree.globals = []
      | some name => c.build.action = .remove ∨
        c.build.value.isSome = true ∨ (lookup tree none name).isSome = true) := by
  unfold processGlobalEvent lookup
  cases named : c.build.name with
  | none =>
    unfold findNode
    dsimp only
    by_cases nodes : tree.globals = []
    · by_cases action : c.build.action = .remove
      · simp [nodes,action,bind,Except.bind]
      · simp [nodes,action,bind,Except.bind,pointer]
    · simp [nodes,bind,Except.bind,pointer]
  | some name =>
    dsimp only
    rw [findNode_named]
    cases spot : Keyed.find Node.name tree.globals name with
    | some node =>
      refine ⟨fun failed => ?_,fun unsound => absurd (.inr (.inr rfl)) unsound⟩
      simp only [bind,Except.bind] at failed
      split at failed
      · cases failed
      · rcases bind_error failed with modified | ⟨_,_,last⟩
        · exact absurd modified (modifyNode_null c)
        · cases last
    | none =>
      by_cases action : c.build.action = .remove
      · simp [action,bind,Except.bind]
      · cases value : c.build.value <;> simp [action,bind,Except.bind,pointer]

theorem process_null (tree : Trees) (c : Call) : processEvent tree c.build ≠ .error .null ↔ Sound tree c.build := by
  unfold processEvent Sound
  cases source : c.build.source with
  | none =>
    dsimp only
    rw [Ne,global_null,not_not]
  | some source =>
    dsimp only
    exact ⟨fun _ => trivial,fun _ => source_null c⟩

-- What a tree of stats holds for a name.
def valueIn (nodes : List Node) (name : Text) : Option Text := (Keyed.find Node.name nodes name).map (·.value)

-- What becomes of the value of a stat, and of the event's value.
def change (old : Option Text) (e : Event) : Except Fault (Option Text × Option Text) :=
  match e.action,old with
  | .remove,_ => .ok (none,e.value)
  | .hidden,some text => .ok (some text,e.value)
  | .set,some _ => .ok (e.value,e.value)
  | _,some text => do
    let str := shown (← newValue text e)
    .ok (some str,some (e.value.getD str))
  | _,none => .ok (e.value,e.value)

theorem modify_change {node : Node} (done : modifyNodeEvent node e = .ok (node',e')) (keeps : e.action ≠ .remove) :
    node'.name = node.name ∧ e'.source = e.source ∧ e'.name = e.name ∧
    change (some node.value) e = .ok (some node'.value,e'.value) := by
  unfold modifyNodeEvent at done
  cases action : e.action with
  | remove => exact absurd action keeps
  | hidden =>
    rw [action] at done
    cases done
    exact ⟨rfl,rfl,rfl,by simp [change,action]⟩
  | set =>
    rw [action] at done
    obtain ⟨text,value,same⟩ := bind_ok done
    cases same
    cases found : e.value with
    | none =>
      rw [found] at value
      cases value
    | some text' =>
      rw [found] at value
      cases value
      exact ⟨rfl,rfl,rfl,by simp [change,action,found]⟩
  | inc | dec | add | sub =>
    rw [action] at done
    obtain ⟨z,value,same⟩ := bind_ok done
    cases same
    refine ⟨rfl,rfl,rfl,?_⟩
    simp [change,action,value,bind,Except.bind]

theorem valueIn_put {nodes : List Node} (found : Keyed.find Node.name nodes node.name = some old) (name : Text) :
    valueIn (Keyed.put Node.name nodes node) name =
    if name = node.name then some node.value else valueIn nodes name := by
  rw [valueIn,Keyed.find_put found]
  split <;> rfl

theorem valueIn_delete (nodes : List Node) (gone name : Text) :
    valueIn (Keyed.delete Node.name nodes gone) name = if name = gone then none else valueIn nodes name := by
  rw [valueIn,Keyed.find_delete]
  split <;> rfl

theorem valueIn_insert {nodes : List Node} (absent : Keyed.find Node.name nodes node.name = none) (name : Text) :
    valueIn (nodes++[node]) name = if name = node.name then some node.value else valueIn nodes name := by
  rw [valueIn,Keyed.find_insert absent]
  split <;> rfl

theorem stat_change (done : processStat snode e name = .ok (snode',e')) : snode'.source = snode.source ∧
    e'.source = e.source ∧ e'.name = e.name ∧
    ∃ new, change (valueIn snode.stats name) e = .ok (new,e'.value) ∧
      ∀ other, valueIn snode'.stats other = if other = name then new else valueIn snode.stats other := by
  unfold processStat at done
  cases found : Keyed.find Node.name snode.stats name with
  | none =>
    have vacant : valueIn snode.stats name = none := by rw [valueIn,found]; rfl
    rw [found] at done
    dsimp only at done
    rw [vacant]
    by_cases action : e.action = .remove
    · rw [if_pos action] at done
      cases done
      refine ⟨rfl,rfl,rfl,none,by simp [change,action],fun other => ?_⟩
      split
      · rename_i same
        rw [same,vacant]
      · rfl
    · rw [if_neg action] at done
      cases value : e.value with
      | none =>
        rw [value] at done
        cases done
        refine ⟨rfl,rfl,rfl,none,?_,fun other => ?_⟩
        · cases action' : e.action <;> simp_all [change]
        · split
          · rename_i same
            rw [same,vacant]
          · rfl
      | some text =>
        rw [value] at done
        cases done
        refine ⟨rfl,rfl,rfl,some text,?_,fun other => valueIn_insert found other⟩
        cases action' : e.action <;> simp_all [change]
  | some node =>
    have filled : valueIn snode.stats name = some node.value := by rw [valueIn,found]; rfl
    have named := Keyed.find_key found
    rw [found] at done
    dsimp only at done
    rw [filled]
    by_cases action : e.action = .remove
    · rw [if_pos action] at done
      cases done
      exact ⟨rfl,rfl,rfl,none,by simp [change,action],fun other => valueIn_delete _ _ other⟩
    · rw [if_neg action] at done
      obtain ⟨r,modified,same⟩ := bind_ok done
      cases same
      obtain ⟨name',source,name'',changed⟩ := modify_change modified action
      refine ⟨rfl,source,name'',_,changed,fun other => ?_⟩
      have here : Keyed.find Node.name snode.stats r.1.name = some node := by rw [name',named]; exact found
      rw [valueIn_put here,name',named]

theorem findSource_spec (tree : Trees) (e : Event) (source : Text) :
    (findSource tree e source).2.source = source ∧
    Keyed.find SourceNode.source (findSource tree e source).1.sources source = some (findSource tree e source).2 ∧
    (findSource tree e source).1.globals = tree.globals ∧
    (∀ other, other ≠ source →
    Keyed.find SourceNode.source (findSource tree e source).1.sources other =
    Keyed.find SourceNode.source tree.sources other) ∧
    ∀ name, valueIn (findSource tree e source).2.stats name = lookup tree (some source) name := by
  unfold findSource
  cases found : Keyed.find SourceNode.source tree.sources source with
  | some snode =>
    refine ⟨Keyed.find_key found,found,rfl,fun _ _ => rfl,fun name => ?_⟩
    rw [lookup,found]
    rfl
  | none =>
    refine ⟨rfl,?_,rfl,fun other different => ?_,fun name => ?_⟩
    · dsimp only
      rw [Keyed.find_insert found,if_pos rfl]
    · dsimp only
      rw [Keyed.find_insert found,if_neg different]
    · rw [lookup,found]
      rfl

theorem lookup_globals {tree tree' : Trees} (same : tree'.globals = tree.globals) (name : Text) :
    lookup tree' none name = lookup tree none name := by
  rw [lookup,lookup,same]

theorem lookup_source {tree tree' : Trees} {source : Text}
    (same : Keyed.find SourceNode.source tree'.sources source = Keyed.find SourceNode.source tree.sources source)
    (name : Text) : lookup tree' (some source) name = lookup tree (some source) name := by
  rw [lookup,lookup,same]

theorem lookup_put {tree tree' : Trees} {source : Text} {snode snode' : SourceNode}
    (found : Keyed.find SourceNode.source tree'.sources source = some snode)
    (named : snode'.source = source) (globals : tree'.globals = tree.globals)
    (others : ∀ other, other ≠ source →
    Keyed.find SourceNode.source tree'.sources other = Keyed.find SourceNode.source tree.sources other)
    (src : Option Text) (name : Text) :
    lookup {tree' with sources := Keyed.put SourceNode.source tree'.sources snode'} src name =
      if src = some source then valueIn snode'.stats name else lookup tree src name := by
  have put : ∀ k, Keyed.find SourceNode.source (Keyed.put SourceNode.source tree'.sources snode') k =
      if k = snode'.source then some snode' else Keyed.find SourceNode.source tree'.sources k :=
        Keyed.find_put (by rw [named]; exact found)
  cases src with
  | none => exact lookup_globals globals name
  | some src =>
    by_cases same : src = source
    · rw [if_pos (congrArg some same),lookup]
      dsimp only
      rw [put src,if_pos (same.trans named.symm)]
      rfl
    · rw [if_neg fun equal => same (Option.some.inj equal),lookup,lookup]
      dsimp only
      rw [put src,if_neg (by rw [named]; exact same),others src same]

theorem global_change (done : processGlobalEvent tree e = .ok (tree',e')) (named : e.name = some name) :
    e'.source = e.source ∧ e'.name = e.name ∧
    ∃ new, change (lookup tree none name) e = .ok (new,e'.value) ∧
      ∀ src other, lookup tree' src other = if src = none ∧ other = name then new else lookup tree src other := by
  unfold processGlobalEvent at done
  rw [named,findNode_named] at done
  have place : ∀ globals new,
    (∀ other, valueIn globals other = if other = name then new else valueIn tree.globals other) →
      ∀ src other, lookup {tree with globals := globals} src other = if src = none ∧
        other = name then new else lookup tree src other := by
    intro globals new values src other
    cases src with
    | none => simpa [lookup,valueIn] using values other
    | some src => simp [lookup]
  cases found : Keyed.find Node.name tree.globals name with
  | some node =>
    rw [found] at done
    have key := Keyed.find_key found
    have old : lookup tree none name = some node.value := by rw [lookup,found]; rfl
    rw [old]
    simp only [bind,Except.bind] at done
    split at done
    · rename_i action
      cases done
      refine ⟨rfl,rfl,none,by simp [change,action],place _ _ fun other => ?_⟩
      rw [valueIn_delete,key]
    · rename_i action
      obtain ⟨r,modified,same⟩ := bind_ok done
      cases same
      obtain ⟨name',source,name'',changed⟩ := modify_change modified action
      refine ⟨source,name'',_,changed,place _ _ fun other => ?_⟩
      have here : Keyed.find Node.name tree.globals r.1.name = some node := by rw [name',key]; exact found
      rw [valueIn_put here,name',key]
  | none =>
    rw [found] at done
    have old : lookup tree none name = none := by rw [lookup,found]; rfl
    rw [old]
    simp only [bind,Except.bind] at done
    split at done
    · rename_i action
      cases done
      refine ⟨rfl,rfl,none,by simp [change,action],place tree.globals _ fun other => ?_⟩
      split
      · rename_i same
        rw [same,valueIn,found]
        rfl
      · rfl
    · rename_i action
      obtain ⟨value,pointed,same⟩ := bind_ok done
      cases same
      cases filled : e.value with
      | none =>
        rw [filled] at pointed
        cases pointed
      | some text =>
        rw [filled] at pointed
        cases pointed
        refine ⟨rfl,rfl,_,?_,place _ _ fun other => valueIn_insert found other⟩
        cases action' : e.action <;> simp_all [change]

theorem process_change (done : processEvent tree e = .ok (tree',e')) (named : e.name = some name) :
    e'.source = e.source ∧ e'.name = e.name ∧
    ∃ new, change (lookup tree e.source name) e = .ok (new,e'.value) ∧
      ∀ src other, lookup tree' src other = if src = e.source ∧ other = name then new else lookup tree src other := by
  unfold processEvent at done
  cases source : e.source with
  | none =>
    rw [source] at done
    have changed := global_change done named
    rwa [source] at changed
  | some source' =>
    rw [source] at done
    dsimp only at done
    unfold processSourceEvent at done
    obtain ⟨key,found,globals,others,values⟩ := findSource_spec tree e source'
    generalize findSource tree e source' = made at done key found globals others values
    obtain ⟨made,snode⟩ := made
    dsimp only at done key found globals others values
    split at done
    · rename_i absent
      cases done
      refine ⟨source,rfl,none,by simp [change,absent.2],fun src other => ?_⟩
      split
      · rename_i same
        rw [same.1,lookup,absent.1]
        rfl
      · rfl
    · rw [named] at done
      obtain ⟨r,processed,same⟩ := bind_ok done
      cases same
      obtain ⟨kept,source'',name'',new,changed,stats⟩ := stat_change processed
      rw [values] at changed
      refine ⟨source''.trans source,name'',new,changed,fun src other => ?_⟩
      rw [lookup_put found (kept.trans key) globals others]
      by_cases same : src = some source'
      · rw [if_pos same,stats,values,same]
        simp
      · rw [if_neg same,if_neg fun both => same both.1]

theorem findSource_lookup (tree : Trees) (e : Event) (source : Text) (src : Option Text) (name : Text) :
    lookup (findSource tree e source).1 src name = lookup tree src name := by
  obtain ⟨_,found,globals,others,values⟩ := findSource_spec tree e source
  cases src with
  | none => exact lookup_globals globals name
  | some src =>
    by_cases same : src = source
    · rw [same,←values,lookup,found]
      rfl
    · exact lookup_source (others src same) name

theorem global_unnamed (done : processGlobalEvent tree e = .ok (tree',e')) (unnamed : e.name = none) : e' = e ∧
    ∀ src other, lookup tree' src other = if e.action = .remove ∧ src = none then none else lookup tree src other := by
  unfold processGlobalEvent at done
  by_cases nodes : tree.globals = []
  · simp only [findNode,nodes,if_true,bind,Except.bind] at done
    split at done
    · cases done
      refine ⟨rfl,fun src other => ?_⟩
      split
      · rename_i same
        rw [same.2,lookup,nodes]
        rfl
      · rfl
    · rw [unnamed] at done
      cases done
  · simp only [findNode,nodes,if_false,unnamed,bind,Except.bind,pointer,Option.elim] at done
    cases done

theorem source_unnamed (done : processSourceEvent tree e source' = .ok (tree',e')) (unnamed : e.name = none) : e' = e ∧
    ∀ src other, lookup tree' src other = if e.action = .remove ∧
    src = some source' then none else lookup tree src other := by
  unfold processSourceEvent at done
  have kept := findSource_lookup tree e source'
  obtain ⟨key,found,globals,others,values⟩ := findSource_spec tree e source'
  generalize findSource tree e source' = made at done key found globals others values kept
  obtain ⟨made,snode⟩ := made
  dsimp only at done key found globals others values kept
  split at done
  · rename_i absent
    cases done
    refine ⟨rfl,fun src other => ?_⟩
    split
    · rename_i same
      rw [same.2,lookup,absent.1]
      rfl
    · rfl
  · rw [unnamed] at done
    dsimp only at done
    split at done
    · rename_i action
      cases done
      refine ⟨rfl,fun src other => ?_⟩
      let hidden : SourceNode := {snode with hidden := e.value.isSome,stats := snode.stats.map fun node => {node with hidden := e.value.isSome}}
      have key' : hidden.source = source' := key
      rw [if_neg (by simp [action]),lookup_put found key' globals others]
      split
      · rename_i same
        rw [same,←values,valueIn,valueIn,Keyed.find,Keyed.find,List.find?_map,Option.map_map]
        rfl
      · rfl
    · split at done
      · rename_i action
        cases done
        refine ⟨rfl,fun src other => ?_⟩
        cases src with
        | none =>
          rw [if_neg (by simp)]
          exact lookup_globals globals other
        | some src =>
          by_cases same : src = source'
          · rw [if_pos ⟨action,congrArg some same⟩,lookup]
            dsimp only
            rw [Keyed.find_delete,if_pos same]
            rfl
          · rw [if_neg fun both => same (Option.some.inj both.2),lookup]
            dsimp only
            rw [Keyed.find_delete,if_neg same]
            exact lookup_source (others src same) other
      · rename_i action
        cases done
        refine ⟨rfl,fun src other => ?_⟩
        rw [if_neg fun both => action both.1]
        exact kept src other

theorem process_unnamed (done : processEvent tree e = .ok (tree',e')) (unnamed : e.name = none) : e' = e ∧
    ∀ src other, lookup tree' src other = if e.action = .remove ∧
    src = e.source then none else lookup tree src other := by
  unfold processEvent at done
  cases source : e.source with
  | none =>
    rw [source] at done
    exact global_unnamed done unnamed
  | some source' =>
    rw [source] at done
    exact source_unnamed done unnamed

end Icecast.Stats
