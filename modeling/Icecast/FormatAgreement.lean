import Icecast.Format
import Icecast.Lib.Transition

namespace Icecast.FormatAgreement
open Transition

-- A listener's client_t: `made` is the kind of the plugin that made its headers and its
-- format_data, `writer` the kind whose write_buf_to_client is its write_to_client, none for
-- format_generic_write_to_client.
structure Listener where
  check : CheckBuffer
  made : Option FormatType
  writer : Option FormatType
  error : Bool
deriving DecidableEq

-- The trees are in the order their clients came; nothing here depends on it.
structure Source where
  clientTree : List Listener
  pendingTree : List Listener
  format : Option FormatType
  running : Bool
  onDemand : Bool
deriving DecidableEq

def Source.clients (s : Source) : List Listener := s.clientTree++s.pendingTree

-- What a turn of a listener meets: headers that cannot be made, data to write, a buffer that
-- is sent, a starting point in the queue, or nothing for now.
inductive Met where
  | failed | data | sent | found | nothing
deriving DecidableEq

-- The listener afterwards, and whether its write_to_client is called.
def formatCheckHttpBuffer (f : FormatType) (c : Listener) (met : Met) : Listener × Bool :=
  if c.made = none ∧ met = .failed then ({c with error := true},false) else
  let c := if c.made = none then {c with made := some f} else c
  if met = .sent then ({c with writer := some f,check := .file},false) else (c,true)

-- With find_client_start.
def formatCheckFileBuffer (f : FormatType) (c : Listener) (met : Met) : Listener × Bool :=
  if met = .found then ({c with writer := some f,check := .advance},false) else (c,met = .data)

def formatAdvanceQueue (c : Listener) (met : Met) : Listener × Bool := (c,met = .data)

def checkBuffer (f : FormatType) (c : Listener) (met : Met) : Listener × Bool :=
  match c.check with
  | .http => formatCheckHttpBuffer f c met
  | .file => formatCheckFileBuffer f c met
  | .advance => formatAdvanceQueue c met

-- One round of the loop of send_to_listener.
def turn (s : Source) (k : Nat) (met : Met) : Option (Source × Option Listener) :=
  s.format.bind fun f => (s.clientTree[k]?).bind fun c =>
    if c.error then none else
    let (c,written) := checkBuffer f c met
    some ({s with clientTree := s.clientTree.set k c},if written then some c else none)

-- `accepted` says of the pending clients whether max_listeners leaves room for them.
inductive Act where
  | connect
  | onDemand (value : Bool)
  | format (f : FormatType)
  | running (value : Bool)
  | turn (k : Nat) (met : Met)
  | failed (k : Nat)
  | removed (k : Nat)
  | pending (accepted : List Bool)
  | cleared
deriving DecidableEq

def chosen (accepted : List Bool) (tree : List Listener) : List Listener := ((tree.zip accepted).filter (·.2)).map (·.1)

-- connection_complete_source calls format_get_plugin on a source that was just reserved or
-- cleared.
def act (s : Source) : Act → Option Source
  | .connect => some {s with pendingTree := s.pendingTree++[⟨.http,none,none,false⟩]}
  | .onDemand value => some {s with onDemand := value}
  | .format f => if s.format = none ∧ s.running = false then some {s with format := some f} else none
  | .running value => if value then s.format.map fun _ => {s with running := true} else some {s with running := false}
  | .turn k met => (turn s k met).map (·.1)
  | .failed k => (s.clientTree[k]?).map fun c => {s with clientTree := s.clientTree.set k {c with error := true}}
  | .removed k =>
    (s.clientTree[k]?).bind fun c => if c.error then some {s with clientTree := s.clientTree.eraseIdx k} else none
  | .pending accepted =>
    s.format.map fun _ => {s with clientTree := s.clientTree++chosen accepted s.pendingTree,pendingTree := []}
  | .cleared => some {s with clientTree := [],pendingTree := [],format := none}

-- The checks of source_move_clients.
def Movable (source dest : Source) : Prop :=
  (dest.running ∨ dest.onDemand) ∧ (source.onDemand ∨ source.format ≠ none) ∧
    ∀ f ∈ source.format, ∀ g ∈ dest.format, f = g

instance (source dest : Source) : Decidable (Movable source dest) := by unfold Movable; infer_instance

def detach (c : Listener) : Listener := if c.check = .http then c else {c with check := .file}

def moved (source dest : Source) : Source × Source :=
  ({source with clientTree := [],pendingTree := []},
    {dest with pendingTree := dest.pendingTree++(source.pendingTree++source.clientTree).map detach})

abbrev Server := List Source

inductive Event where
  | reserve
  | act (i : Nat) (a : Act)
  | move (i j : Nat)
  | freed (i : Nat)
deriving DecidableEq

def next (s : Server) : Event → Option Server
  | .reserve => some (s++[⟨[],[],none,false,false⟩])
  | .act i a => (s[i]?).bind fun source => (act source a).map (s.set i ·)
  | .move i j =>
    if i = j then none else
    (s[i]?).bind fun source => (s[j]?).map fun dest =>
      if Movable source dest then (s.set i (moved source dest).1).set j (moved source dest).2 else s
  | .freed i => if i < s.length then some (s.eraseIdx i) else none

def Step (s : Server) (event : Event) (t : Server) : Prop := next s event = some t

-- The listener that an event writes to, as it is then.
def written (s : Server) : Event → Option Listener
  | .act i (.turn k met) => (s[i]?).bind fun source => (turn source k met).bind (·.2)
  | _ => none

-- A listener is at a source whose format is of the kind that made its headers.
def Agrees (source : Source) : Prop := ∀ f ∈ source.format, ∀ c ∈ source.clients, ∀ k ∈ c.made, k = f

-- Where source_move_clients does not compare formats: listeners that have their headers leave a
-- source without a format only for a source of their kind, and such a source gets the format
-- of the listeners that wait at it.
def FairAct (s : Source) : Act → Prop
  | .format f => ∀ c ∈ s.clients, ∀ k ∈ c.made, k = f
  | _ => True

def Fair (s : Server) : Event → Prop
  | .act i a => ∀ source ∈ s[i]?, FairAct source a
  | .move i j => ∀ source ∈ s[i]?, ∀ dest ∈ s[j]?, i ≠ j → Movable source dest → source.format = none →
    ∀ f ∈ dest.format, ∀ c ∈ source.clients, ∀ k ∈ c.made, k = f
  | _ => True

-- What holds of a listener wherever it is.
structure Fit (c : Listener) : Prop where
  fresh : c.made = none → c.check = .http
  writer : ∀ k ∈ c.writer, c.made = some k

structure Kept (s : Source) : Prop where
  fit : ∀ c ∈ s.clients, Fit c
  agrees : Agrees s

theorem checkBuffer_fit (fit : Fit c) (agrees : ∀ k ∈ c.made, k = f) (met : Met) :
    Fit (checkBuffer f c met).1 ∧ ∀ k ∈ (checkBuffer f c met).1.made, k = f := by
  have fresh := fit.fresh
  have writer := fit.writer
  obtain ⟨check,made,old,error⟩ := c
  cases made with
  | none =>
    cases fresh rfl
    unfold checkBuffer formatCheckHttpBuffer
    have unset : old = none := by
      cases old with
      | none => rfl
      | some k => cases writer k rfl
    subst unset
    cases met <;> refine ⟨⟨?_,?_⟩,?_⟩ <;> simp
  | some k =>
    cases agrees k rfl
    cases check with
    | http =>
      unfold checkBuffer formatCheckHttpBuffer
      cases met <;> refine ⟨⟨nofun,?_⟩,?_⟩ <;> simp_all
    | file =>
      unfold checkBuffer formatCheckFileBuffer
      cases met <;> refine ⟨⟨nofun,?_⟩,?_⟩ <;> simp_all
    | advance => exact ⟨⟨nofun,writer⟩,agrees⟩

theorem Kept.same (kept : Kept s) (format : t.format = s.format)
    (clients : ∀ c ∈ t.clients, c ∈ s.clients ∨ (Fit c ∧ ∀ f ∈ s.format, ∀ k ∈ c.made, k = f)) : Kept t := by
  refine ⟨fun c member => ?_,fun f here c member => ?_⟩
  · rcases clients c member with old | new
    · exact kept.fit c old
    · exact new.1
  · rw [format] at here
    rcases clients c member with old | new
    · exact kept.agrees f here c old
    · exact new.2 f here

theorem Kept.change {s : Source} {d : Listener} {k : Nat} (kept : Kept s) (fit : Fit d)
    (agrees : ∀ f ∈ s.format, ∀ k ∈ d.made, k = f) : Kept {s with clientTree := s.clientTree.set k d} := by
  refine kept.same rfl fun e member => ?_
  rcases List.mem_append.mp member with tree | pending
  · rcases List.mem_or_eq_of_mem_set tree with old | rfl
    · exact .inl (List.mem_append_left _ old)
    · exact .inr ⟨fit,agrees⟩
  · exact .inl (List.mem_append_right _ pending)

theorem Kept.here {s : Source} {k : Nat} {c : Listener} (kept : Kept s) (here : s.clientTree[k]? = some c) :
    Fit c ∧ ∀ f ∈ s.format, ∀ k ∈ c.made, k = f := by
  have member : c ∈ s.clients := List.mem_append_left _ (List.mem_of_getElem? here)
  exact ⟨kept.fit c member,fun f format => kept.agrees f format c member⟩

theorem turn_kept (kept : Kept s) (turned : turn s k met = some (t,w)) : Kept t ∧ ∀ c ∈ w, Fit c := by
  obtain ⟨f,format,turned⟩ := Option.bind_eq_some_iff.mp turned
  obtain ⟨c,here,turned⟩ := Option.bind_eq_some_iff.mp turned
  split at turned
  · cases turned
  · obtain ⟨fit,agrees⟩ := kept.here here
    obtain ⟨fit,agrees⟩ := checkBuffer_fit fit (agrees f format) met
    generalize checkBuffer f c met = result at turned fit agrees
    cases turned
    refine ⟨kept.change fit fun g same => ?_,fun d wrote => ?_⟩
    · rw [format] at same
      cases same
      exact agrees
    · split at wrote
      · cases wrote
        exact fit
      · cases wrote

theorem chosen_mem (member : c ∈ chosen accepted tree) : c ∈ tree := by
  obtain ⟨⟨d,taken⟩,inside,rfl⟩ := List.mem_map.mp member
  exact (List.of_mem_zip (List.mem_filter.mp inside).1).1

theorem act_kept (kept : Kept s) (acted : act s a = some t) : (∀ c ∈ t.clients, Fit c) ∧ (Agrees t ↔ FairAct s a) := by
  have keeps (after : Kept t) (fair : FairAct s a) : (∀ c ∈ t.clients, Fit c) ∧ (Agrees t ↔ FairAct s a) :=
    ⟨after.fit,iff_of_true after.agrees fair⟩
  cases a with
  | connect =>
    cases acted
    refine keeps (kept.same rfl fun c member => ?_) trivial
    simp only [Source.clients,List.mem_append,List.mem_singleton] at member
    rcases member with tree | pending | rfl
    · exact .inl (List.mem_append_left _ tree)
    · exact .inl (List.mem_append_right _ pending)
    · exact .inr ⟨⟨fun _ => rfl,nofun⟩,nofun⟩
  | onDemand value =>
    cases acted
    exact keeps (kept.same rfl fun c member => .inl member) trivial
  | format f =>
    simp only [act] at acted
    split at acted
    · cases acted
      refine ⟨kept.fit,⟨fun agrees => agrees f rfl,fun fair g same => ?_⟩⟩
      cases same
      exact fair
    · cases acted
  | running value =>
    cases value with
    | false =>
      cases acted
      exact keeps (kept.same rfl fun c member => .inl member) trivial
    | true =>
      obtain ⟨f,_,same⟩ := Option.map_eq_some_iff.mp acted
      cases same
      exact keeps (kept.same rfl fun c member => .inl member) trivial
  | turn k met =>
    obtain ⟨⟨after,w⟩,turned,same⟩ := Option.map_eq_some_iff.mp acted
    cases same
    exact keeps (turn_kept kept turned).1 trivial
  | failed k =>
    obtain ⟨c,here,same⟩ := Option.map_eq_some_iff.mp acted
    cases same
    obtain ⟨fit,agrees⟩ := kept.here here
    exact keeps (kept.change ⟨fit.fresh,fit.writer⟩ agrees) trivial
  | removed k =>
    obtain ⟨c,here,acted⟩ := Option.bind_eq_some_iff.mp acted
    split at acted
    · cases acted
      refine keeps (kept.same rfl fun e member => .inl ?_) trivial
      rcases List.mem_append.mp member with tree | pending
      · exact List.mem_append_left _ (List.mem_of_mem_eraseIdx tree)
      · exact List.mem_append_right _ pending
    · cases acted
  | pending accepted =>
    obtain ⟨f,_,same⟩ := Option.map_eq_some_iff.mp acted
    cases same
    refine keeps (kept.same rfl fun e member => .inl ?_) trivial
    simp only [Source.clients,List.append_nil,List.mem_append] at member ⊢
    exact member.imp_right chosen_mem
  | cleared =>
    cases acted
    exact ⟨nofun,iff_of_true nofun trivial⟩

theorem detach_fit (fit : Fit c) : Fit (detach c) := by
  unfold detach
  split
  · exact fit
  · rename_i headed
    exact ⟨fun none => absurd (fit.fresh none) headed,fit.writer⟩

theorem detach_made (c : Listener) : (detach c).made = c.made := by
  unfold detach
  split <;> rfl

theorem moved_clients (member : c ∈ (moved source dest).2.clients) : c ∈ dest.clients ∨
    ∃ d ∈ source.clients, c = detach d := by
  simp only [Source.clients,moved,List.mem_append,List.mem_map] at member ⊢
  rcases member with tree | pending | ⟨d,origin,rfl⟩
  · exact .inl (.inl tree)
  · exact .inl (.inr pending)
  · exact .inr ⟨d,origin.symm,rfl⟩

theorem moved_agrees (source : Kept a) (dest : Kept b) (movable : Movable a b) : Agrees (moved a b).2 ↔
    (a.format = none → ∀ f ∈ b.format, ∀ c ∈ a.clients, ∀ k ∈ c.made, k = f) := by
  constructor
  · intro agrees _ f here c member k made
    refine agrees f here (detach c) ?_ k (by rw [detach_made]; exact made)
    simp only [Source.clients,moved,List.mem_append,List.mem_map] at member ⊢
    exact .inr (.inr ⟨c,member.symm,rfl⟩)
  · intro fair f here c member k made
    rcases moved_clients member with old | ⟨d,before,rfl⟩
    · exact dest.agrees f here c old k made
    · rw [detach_made] at made
      cases format : a.format with
      | none => exact fair format f here d before k made
      | some g =>
        cases movable.2.2 g format f here
        exact source.agrees _ format d before k made

theorem moved_fit (source : Kept a) (dest : Kept b) : ∀ c ∈ (moved a b).2.clients, Fit c := by
  intro c member
  rcases moved_clients member with old | ⟨d,before,rfl⟩
  · exact dest.fit c old
  · exact detach_fit (source.fit d before)

def AllKept (s : Server) : Prop := ∀ source ∈ s, Kept source

-- What an event does: no listener is written to by a plugin of another kind, and the kinds
-- still agree exactly when the event is fair.
theorem next_kept (kept : AllKept s) (step : next s event = some t) :
    (∀ source ∈ t, ∀ c ∈ source.clients, Fit c) ∧ ((∀ source ∈ t, Agrees source) ↔ Fair s event) := by
  cases event with
  | reserve =>
    cases step
    have empty : Kept ⟨[],[],none,false,false⟩ := ⟨nofun,nofun⟩
    have all : AllKept (s++[⟨[],[],none,false,false⟩]) := by
      intro source member
      rcases List.mem_append.mp member with old | new
      · exact kept source old
      · cases List.mem_singleton.mp new
        exact empty
    exact ⟨fun source member => (all source member).fit,
      iff_of_true (fun source member => (all source member).agrees) trivial⟩
  | act i a =>
    obtain ⟨source,here,step⟩ := Option.bind_eq_some_iff.mp step
    obtain ⟨after,acted,same⟩ := Option.map_eq_some_iff.mp step
    cases same
    have old := kept source (List.mem_of_getElem? here)
    have inside : i < s.length := (List.getElem?_eq_some_iff.mp here).1
    have sound := act_kept old acted
    have fair : Fair s (.act i a) ↔ FairAct source a := by simp [Fair,here]
    rw [fair,←sound.2]
    refine ⟨fun other member => ?_,fun agrees => agrees after (List.mem_set inside after),fun agrees other member => ?_⟩
    · rcases List.mem_or_eq_of_mem_set member with old | rfl
      · exact (kept other old).fit
      · exact sound.1
    · rcases List.mem_or_eq_of_mem_set member with old | rfl
      · exact (kept other old).agrees
      · exact agrees
  | move i j =>
    simp only [next] at step
    split at step
    · cases step
    · rename_i apart
      obtain ⟨source,here,step⟩ := Option.bind_eq_some_iff.mp step
      obtain ⟨dest,there,same⟩ := Option.map_eq_some_iff.mp step
      have origin := kept source (List.mem_of_getElem? here)
      have to_ := kept dest (List.mem_of_getElem? there)
      have fair : Fair s (.move i j) ↔ (Movable source dest → source.format = none →
          ∀ f ∈ dest.format, ∀ c ∈ source.clients, ∀ k ∈ c.made, k = f) := by simp [Fair,here,there,apart]
      rw [fair]
      by_cases movable : Movable source dest
      · rw [if_pos movable] at same
        subst same
        have inside : j < (s.set i (moved source dest).1).length := by
          rw [List.length_set]
          exact (List.getElem?_eq_some_iff.mp there).1
        have agrees := moved_agrees origin to_ movable
        refine ⟨?_,fun all _ => agrees.mp (all _ (List.mem_set inside _)),fun fair other member => ?_⟩
        · intro other member
          rcases List.mem_or_eq_of_mem_set member with member | rfl
          · rcases List.mem_or_eq_of_mem_set member with old | rfl
            · exact (kept other old).fit
            · exact nofun
          · exact moved_fit origin to_
        · rcases List.mem_or_eq_of_mem_set member with member | rfl
          · rcases List.mem_or_eq_of_mem_set member with old | rfl
            · exact (kept other old).agrees
            · exact nofun
          · exact agrees.mpr (fair movable)
      · rw [if_neg movable] at same
        subst same
        exact ⟨fun other member => (kept other member).fit,
          iff_of_true (fun other member => (kept other member).agrees) fun allowed => absurd allowed movable⟩
  | freed i =>
    simp only [next] at step
    split at step
    · cases step
      exact ⟨fun other member => (kept other (List.mem_of_mem_eraseIdx member)).fit,
        iff_of_true (fun other member => (kept other (List.mem_of_mem_eraseIdx member)).agrees) trivial⟩
    · cases step

theorem AllKept.next (kept : AllKept s) (step : Step s event t) (fair : Fair s event) : AllKept t := by
  have sound := next_kept kept step
  exact fun source member => ⟨sound.1 source member,sound.2.mpr fair source member⟩

theorem written_fit (kept : AllKept s) (wrote : written s event = some c) : Fit c := by
  cases event with
  | act i a =>
    cases a with
    | turn k met =>
      obtain ⟨source,here,wrote⟩ := Option.bind_eq_some_iff.mp wrote
      obtain ⟨⟨after,w⟩,turned,wrote⟩ := Option.bind_eq_some_iff.mp wrote
      exact (turn_kept (kept source (List.mem_of_getElem? here)) turned).2 c wrote
    | _ => cases wrote
  | _ => cases wrote

-- In a run of fair events every listener is at a source of the kind that made its headers and
-- is written to by a plugin of that kind only; the next event keeps this so exactly when it
-- is fair as well.
theorem runs_agree (path : Runs (fun s event t => Step s event t ∧ Fair s event) [] events s) :
    (∀ source ∈ s, Agrees source) ∧ (∀ event c k, written s event = some c → c.writer = some k → c.made = some k) ∧
      ∀ event t, Step s event t → ((∀ source ∈ t, Agrees source) ↔ Fair s event) := by
  have kept : AllKept s := path.preserves (fun kept step => kept.next step.1 step.2) nofun
  refine ⟨fun source member => (kept source member).agrees,?_,?_⟩
  · intro event c k wrote writer
    exact (written_fit kept wrote).writer k writer
  · intro event t step
    exact (next_kept kept step).2

instance decideFairAct (s : Source) : (a : Act) → Decidable (FairAct s a)
  | .format f => inferInstanceAs (Decidable (∀ c ∈ s.clients, ∀ k ∈ c.made, k = f))
  | .connect | .onDemand _ | .running _ | .turn _ _ | .failed _ | .removed _ | .pending _ | .cleared => isTrue trivial

instance decideFair (s : Server) : (event : Event) → Decidable (Fair s event)
  | .act i a => inferInstanceAs (Decidable (∀ source ∈ s[i]?, FairAct source a))
  | .move i j => inferInstanceAs
    (Decidable (∀ source ∈ s[i]?, ∀ dest ∈ s[j]?, i ≠ j → Movable source dest → source.format = none →
      ∀ f ∈ dest.format, ∀ c ∈ source.clients, ∀ k ∈ c.made, k = f))
  | .reserve | .freed _ => isTrue trivial

-- A listener of an mp3 stream, and an on-demand relay without a format that takes it over.
def takenOver (f : FormatType) : List Event :=
  [.reserve,.act 0 (.format .generic),.act 0 (.running true),.act 0 .connect,.act 0 (.pending [true]),
    .act 0 (.turn 0 .data),
    .act 0 (.turn 0 .sent)
  ,.act 0 (.turn 0 .found),.reserve,.act 1 (.onDemand true),.move 0 1,.act 1 (.format f),.act 1 (.running true),
    .act 1 (.pending [true])
  ,.act 1 (.turn 0 .found)]

theorem runs_agree_relay : ∃ s c, Runs Step [] (takenOver .generic) s ∧ written s (.act 1 (.turn 0 .data)) = some c ∧
    c.writer = some .generic ∧ c.made = some .generic := by
  have ran : (runFrom (guarded Fair next) [] (takenOver .generic)).map
    (fun s => (written s (.act 1 (.turn 0 .data))).map (·.writer)) =
      some (some (some .generic)) := by decide +kernel
  obtain ⟨s,ran,wrote⟩ := Option.map_eq_some_iff.mp ran
  obtain ⟨c,wrote,writer⟩ := Option.map_eq_some_iff.mp wrote
  have fair := runFrom_sound guarded_sound ran
  exact ⟨s,c,fair.imp fun step => step.1,wrote,writer,(runs_agree fair).2.1 _ c _ wrote writer⟩

-- The relay turns out to be an ogg stream.
theorem relay_reinterprets : ∃ s c, Runs Step [] (takenOver .ogg) s ∧ written s (.act 1 (.turn 0 .data)) = some c ∧
    c.writer = some .ogg ∧ c.made = some .generic := by
  have ran : (runFrom next [] (takenOver .ogg)).map
    (fun s => (written s (.act 1 (.turn 0 .data))).map (fun c => (c.writer,c.made))) =
      some (some (some .ogg,some .generic)) := by decide +kernel
  obtain ⟨s,ran,wrote⟩ := Option.map_eq_some_iff.mp ran
  obtain ⟨c,wrote,values⟩ := Option.map_eq_some_iff.mp wrote
  exact ⟨s,c,runFrom_sound (fun step => step) ran,wrote,congrArg (·.1) values,congrArg (·.2) values⟩

end Icecast.FormatAgreement
