import Icecast.Lib.Lists
import Icecast.Lib.RefHeap
import Icecast.Lib.Transition

namespace Icecast.EbmlHeader
open Lists RefHeap Transition

-- A pointer, by what it points to.
inductive Ptr where
  | null
  | client (i : Nat)
  | data (d : Nat)
deriving DecidableEq

structure Client where
  formatData : Ptr
  freeClientData : Bool
  generic : Bool
  onSource : Bool
deriving DecidableEq

structure ClientData where
  header : Option Nat
  headerPos : Nat
deriving DecidableEq

-- The memory: clients and client data by address, none when freed, and the refbufs. `plugin` is
-- none when freed, else the header of ebml_source_state.
structure Memory where
  clients : List (Option Client)
  datas : List (Option ClientData)
  refbufs : Heap (List UInt8)
  plugin : Option (Option Nat)

def start : Memory := ⟨[],[],empty,some none⟩

def slice : Nat := 4096

-- The object at an address, none where it is freed.
def clientAt (m : Memory) (i : Nat) : Option Client := (m.clients[i]?).join
def dataAt (m : Memory) (d : Nat) : Option ClientData := (m.datas[d]?).join

-- The field of a client_t; no object of another type reaches as far as it.
def clientGetFormat (m : Memory) : Ptr → Option Ptr
  | .client i => (clientAt m i).map (·.formatData)
  | _ => none

def headerOf (m : Memory) : Ptr → Option (Option Nat)
  | .data d => (dataAt m d).map (·.header)
  | _ => none

def clientFreeFormat (m : Memory) (i : Nat) : Option Memory :=
  (clientAt m i).bind fun client =>
    match client.formatData with
    | .null => some m
    | .client _ => none
    | .data d => (dataAt m d).map fun _ =>
      {m with datas := m.datas.set d none,clients := m.clients.set i (some {client with formatData := .null})}

def refbufRelease (m : Memory) : Option Nat → Option Memory
  | none => some m
  | some h => (release m.refbufs h).map fun refbufs => {m with refbufs := refbufs}

def ebmlFreeClientData (m : Memory) (i : Nat) : Option Memory := do
  let client ← clientAt m i
  let data ← clientGetFormat m client.formatData
  let header ← headerOf m data
  let m ← refbufRelease m header
  clientFreeFormat m i

-- The end of client_destroy.
def clientDestroy (m : Memory) (i : Nat) : Option Memory := do
  let client ← clientAt m i
  let m ← if client.freeClientData then ebmlFreeClientData m i else some m
  some {m with clients := m.clients.set i none}

-- ebml_create_client_data for a header that is or is not there.
def ebmlCreateClientData (m : Memory) (i : Nat) (client : Client) : Option Nat → Option Memory
  | none => some {m with datas := m.datas++[some ⟨none,0⟩]}
  | some h => (addref m.refbufs h).map fun refbufs =>
    {m with datas := m.datas++[some ⟨some h,0⟩],refbufs := refbufs,
            clients := m.clients.set i (some {client with formatData := .data m.datas.length,freeClientData := true})}

-- ebml_write_buf_to_client where the connection takes up to `room` bytes.
def ebmlWriteBufToClient (m : Memory) (i room : Nat) (client : Client) : Option Memory :=
  match client.formatData with
  | .data d => do
    let data ← dataAt m d
    let h ← data.header
    let bytes ← read m.refbufs h
    if data.headerPos ≠ bytes.length then
      some {m with datas := m.datas.set d (some {data with headerPos := data.headerPos+min room (min slice (bytes.length-data.headerPos))})}
    else some {m with clients := m.clients.set i (some {client with generic := true})}
  | _ => none

def ebmlFreePlugin (m : Memory) (header : Option Nat) : Option Memory :=
  (refbufRelease m header).map fun m => {m with plugin := none}

-- A listener arrives, ebml_get_buffer takes the stream header into a new refbuf, and the
-- listener's and the plugin's callbacks.
inductive Event where
  | connect
  | header (a : Nat) (bytes : List UInt8)
  | create (i : Nat)
  | write (i room : Nat)
  | move (i : Nat)
  | destroy (i : Nat)
  | freePlugin
deriving DecidableEq

def next (m : Memory) : Event → Option Memory
  | .connect => some {m with clients := m.clients++[some ⟨.null,false,false,true⟩]}
  | .header a bytes => some {m with refbufs := alloc m.refbufs a bytes,plugin := some (some a)}
  | .create i => (clientAt m i).bind fun client => m.plugin.bind fun header => ebmlCreateClientData m i client header
  | .write i room => (clientAt m i).bind fun client => ebmlWriteBufToClient m i room client
  | .move i => (clientAt m i).map fun client =>
    {m with clients := m.clients.set i (some {client with onSource := false})}
  | .destroy i => clientDestroy m i
  | .freePlugin => m.plugin.bind fun header => ebmlFreePlugin m header

-- When the callers make the call: the header is taken once, format_prepare_headers creates the
-- data once for a listener of the source, and ebml_write_buf_to_client runs until it replaces
-- itself.
def Enabled (m : Memory) : Event → Prop
  | .connect => True
  | .header a _ => m.plugin = some none ∧ (m.refbufs a).isNone = true
  | .create i => m.plugin.isSome = true ∧ ∃ client ∈ clientAt m i, client.formatData = .null ∧ client.onSource = true
  | .write i _ => ∃ client ∈ clientAt m i, client.freeClientData = true ∧ client.generic = false
  | .move i => ∃ client ∈ clientAt m i, client.onSource = true
  | .destroy i => (clientAt m i).isSome = true
  | .freePlugin => m.plugin.isSome = true

instance decideEnabled (m : Memory) : (event : Event) → Decidable (Enabled m event)
  | .connect => isTrue trivial
  | .header a _ => inferInstanceAs (Decidable (m.plugin = some none ∧ (m.refbufs a).isNone = true))
  | .create i => inferInstanceAs
    (Decidable (m.plugin.isSome = true ∧ ∃ client ∈ clientAt m i, client.formatData = .null ∧ client.onSource = true))
  | .write i _ => inferInstanceAs
    (Decidable (∃ client ∈ clientAt m i, client.freeClientData = true ∧ client.generic = false))
  | .move i => inferInstanceAs (Decidable (∃ client ∈ clientAt m i, client.onSource = true))
  | .destroy i => inferInstanceAs (Decidable ((clientAt m i).isSome = true))
  | .freePlugin => inferInstanceAs (Decidable (m.plugin.isSome = true))

def Step (m : Memory) (event : Event) (n : Memory) : Prop := Enabled m event ∧ next m event = some n

def headerAt (datas : List (Option ClientData)) (d : Nat) : Option Nat := ((datas[d]?).join).bind (·.header)

def refers (datas : List (Option ClientData)) (h : Nat) : Ptr → Bool
  | .data d => headerAt datas d = some h
  | _ => false

-- A live listener whose data, made by ebml_create_client_data, refers to the header.
def holds (datas : List (Option ClientData)) (h : Nat) : Option Client → Bool
  | some client => refers datas h client.formatData
  | none => false

def owed (m : Memory) (h : Nat) : Nat := (if m.plugin = some (some h) then 1 else 0)+m.clients.countP (holds m.datas h)

-- Destroying a listener gives back its own reference once and frees its own data.
def GivesBack (m : Memory) : Event → Memory → Prop
  | .destroy i,n => ∀ client d h pos, clientAt m i = some client → client.formatData = .data d →
    dataAt m d = some ⟨some h,pos⟩ →
    release m.refbufs h = some n.refbufs ∧ n.datas = m.datas.set d none ∧ n.clients = m.clients.set i none
  | _,_ => True

-- No listener with EBML client data is destroyed.
def Fair (m : Memory) : Event → Prop
  | .destroy i => ∀ client ∈ clientAt m i, client.freeClientData = false
  | _ => True

instance decideFair (m : Memory) : (event : Event) → Decidable (Fair m event)
  | .destroy i => inferInstanceAs (Decidable (∀ client ∈ clientAt m i, client.freeClientData = false))
  | .connect | .header .. | .create _ | .write .. | .move _ | .freePlugin => isTrue trivial

-- The counts are exact, and a listener has its own data or none.
structure Inv (m : Memory) : Prop where
  counted : Counted m.refbufs (owed m)
  data : ∀ i client, clientAt m i = some client →
    (client.formatData = .null ∧ client.freeClientData = false) ∨
    ∃ d h, client.formatData = .data d ∧ headerAt m.datas d = some h ∧ client.freeClientData = true

theorem clientAt_some (here : clientAt m i = some client) : m.clients[i]? = some (some client) :=
  Option.join_eq_some_iff.mp here

theorem clientAt_set {i j : Nat} {m : Memory} (here : clientAt m i = some client) (value : Option Client) :
    clientAt {m with clients := m.clients.set i value} j = if i = j then value else clientAt m j := by
  have inside := (List.getElem?_eq_some_iff.mp (clientAt_some here)).1
  unfold clientAt
  rw [List.getElem?_set]
  by_cases same : i = j
  · rw [if_pos same,if_pos same,if_pos (same ▸ inside)]
    rfl
  · rw [if_neg same,if_neg same]

theorem headerAt_append (found : headerAt datas d = some h) : headerAt (datas++[x]) d = some h := by
  obtain ⟨data,spot,_⟩ := Option.bind_eq_some_iff.mp found
  have inside := (List.getElem?_eq_some_iff.mp (Option.join_eq_some_iff.mp spot)).1
  unfold headerAt at found ⊢
  rw [List.getElem?_append_left inside]
  exact found

theorem headerAt_set {d e : Nat} {datas : List (Option ClientData)} (here : (datas[d]?).join = some data)
    (same : data'.header = data.header) :
    headerAt (datas.set d (some data')) e = headerAt datas e := by
  unfold headerAt
  by_cases spot : d = e
  · subst spot
    have inside := (List.getElem?_eq_some_iff.mp (Option.join_eq_some_iff.mp here)).1
    rw [List.getElem?_set_self inside,here]
    exact same
  · rw [List.getElem?_set_ne spot]

theorem Inv.holds_append (inv : Inv m) (x : Option ClientData) :
    m.clients.countP (holds (m.datas++[x]) h) = m.clients.countP (holds m.datas h) := by
  refine List.countP_congr fun client within => ?_
  cases client with
  | none => rfl
  | some client =>
    obtain ⟨i,found⟩ := List.getElem?_of_mem within
    have here : clientAt m i = some client := Option.join_eq_some_iff.mpr found
    rcases inv.data i client here with ⟨null,_⟩ | ⟨d,h,points,header,_⟩
    · simp [holds,refers,null]
    · simp [holds,refers,points,header,headerAt_append header]

theorem holds_set {d : Nat} {datas : List (Option ClientData)} (here : (datas[d]?).join = some data)
    (same : data'.header = data.header) :
    holds (datas.set d (some data')) h client = holds datas h client := by
  cases client with
  | none => rfl
  | some client => cases points : client.formatData <;> simp [holds,refers,points,headerAt_set here same]

theorem owed_client {i : Nat} (here : clientAt m i = some client)
    (same : ∀ h, holds m.datas h value = holds m.datas h (some client)) (h : Nat) :
    owed {m with clients := m.clients.set i value} h = owed m h := by
  have count := countP_set (holds m.datas h) (clientAt_some here) value
  rw [same h] at count
  unfold owed
  dsimp only
  omega

theorem Inv.replace {i : Nat} (inv : Inv m) (here : clientAt m i = some client) {value : Client}
    (points : value.formatData = client.formatData)
    (free : value.freeClientData = client.freeClientData) : Inv {m with clients := m.clients.set i (some value)} where
  counted := inv.counted.congr fun h => (owed_client here (fun h => by simp only [holds,points]) h).symm
  data := by
    intro j other found
    rw [clientAt_set here] at found
    split at found
    · cases found
      rw [points,free]
      exact inv.data i client here
    · exact inv.data j other found

theorem connect_inv (inv : Inv m) : Inv {m with clients := m.clients++[some ⟨.null,false,false,true⟩]} where
  counted := inv.counted.congr fun h => by
    unfold owed
    dsimp only
    rw [List.countP_append]
    rfl
  data := by
    intro j other found
    rw [clientAt,List.getElem?_append] at found
    split at found
    · exact inv.data j other found
    · cases k : j-m.clients.length with
      | zero =>
        rw [k] at found
        cases found
        exact .inl ⟨rfl,rfl⟩
      | succ k' =>
        rw [k] at found
        cases found

theorem header_inv (inv : Inv m) (plugin : m.plugin = some none) (free : m.refbufs a = none) :
    Inv {m with refbufs := alloc m.refbufs a bytes,plugin := some (some a)} where
  counted := (inv.counted.alloc bytes free).1.congr fun h => by
    unfold owed
    dsimp only
    rw [plugin]
    by_cases same : h = a
    · subst same
      simp
      omega
    · have other : a ≠ h := Ne.symm same
      simp [other]
  data := inv.data

theorem create_inv {i : Nat} (inv : Inv m) (here : clientAt m i = some client) (null : client.formatData = .null)
    (plugin : m.plugin = some header) :
    ∃ n, ebmlCreateClientData m i client header = some n ∧ Inv n := by
  cases header with
  | none =>
    refine ⟨_,rfl,inv.counted.congr fun h => ?_,fun j other found => ?_⟩
    · unfold owed
      dsimp only
      rw [inv.holds_append]
    · rcases inv.data j other found with absent | ⟨d,h,points,header,free⟩
      · exact .inl absent
      · exact .inr ⟨d,h,points,headerAt_append header,free⟩
  | some a =>
    have owes : 0 < owed m a := by
      unfold owed
      rw [if_pos plugin]
      omega
    obtain ⟨refbufs,added,counted,_⟩ := inv.counted.addref owes
    refine ⟨_,by rw [ebmlCreateClientData,added]; rfl,counted.congr fun h => ?_,fun j other found => ?_⟩
    · have count := countP_set (holds (m.datas++[some ⟨some a,0⟩]) h) (clientAt_some here)
        (some {client with formatData := .data m.datas.length,freeClientData := true})
      have before : holds (m.datas++[some ⟨some a,0⟩]) h (some client) = false := by simp [holds,refers,null]
      have after : holds (m.datas++[some ⟨some a,0⟩]) h
        (some {client with formatData := .data m.datas.length,freeClientData := true}) =
          decide (a = h) := by simp [holds,refers,headerAt]
      rw [before,after,inv.holds_append] at count
      unfold owed
      dsimp only
      by_cases same : a = h
      · subst same
        simp at count ⊢
        omega
      · have other : h ≠ a := Ne.symm same
        simp [same] at count ⊢
        omega
    · rw [clientAt_set (m := {m with datas := m.datas++[some ⟨some a,0⟩],refbufs := refbufs}) here] at found
      split at found
      · cases found
        exact .inr ⟨_,a,rfl,by simp [headerAt],rfl⟩
      · rcases inv.data j other found with absent | ⟨d,h,points,header,free⟩
        · exact .inl absent
        · exact .inr ⟨d,h,points,headerAt_append header,free⟩

theorem write_inv {i : Nat} (inv : Inv m) (here : clientAt m i = some client) (free : client.freeClientData = true) :
    ∃ n, ebmlWriteBufToClient m i room client = some n ∧ Inv n := by
  rcases inv.data i client here with ⟨_,unset⟩ | ⟨d,h,points,header,_⟩
  · rw [unset] at free
    cases free
  · obtain ⟨data,spot,headed⟩ := Option.bind_eq_some_iff.mp header
    have held : holds m.datas h (some client) = true := by simp [holds,refers,points,header]
    have filled : 0 < m.clients.countP (holds m.datas h) :=
      List.countP_pos_iff.mpr ⟨_,List.mem_of_getElem? (clientAt_some here),held⟩
    have owes : 0 < owed m h := by
      unfold owed
      omega
    obtain ⟨bytes,found⟩ := inv.counted.readable owes
    have ran : ebmlWriteBufToClient m i room client = if data.headerPos ≠ bytes.length then
        some {m with datas := m.datas.set d (some {data with headerPos := data.headerPos+min room (min slice (bytes.length-data.headerPos))})}
      else some {m with clients := m.clients.set i (some {client with generic := true})} := by
      simp only [ebmlWriteBufToClient,points,dataAt,spot,headed,found,Option.bind_eq_bind,Option.bind_some]
    rw [ran]
    split
    · refine ⟨_,rfl,inv.counted.congr fun h' => ?_,fun j other found => ?_⟩
      · unfold owed
        dsimp only
        exact congrArg _ (List.countP_congr fun client _ => by rw [holds_set spot]; rfl)
      · rcases inv.data j other found with absent | ⟨d',h',points,header,free⟩
        · exact .inl absent
        · refine .inr ⟨d',h',points,?_,free⟩
          rw [←header]
          exact headerAt_set spot rfl
    · exact ⟨_,rfl,inv.replace here rfl rfl⟩

theorem destroy_inv {i : Nat} (inv : Inv m) (here : clientAt m i = some client)
    (unset : client.freeClientData = false) :
    clientDestroy m i = some {m with clients := m.clients.set i none} ∧ client.formatData = .null ∧
      Inv {m with clients := m.clients.set i none} := by
  rcases inv.data i client here with ⟨null,_⟩ | ⟨_,_,_,_,free⟩
  · refine ⟨?_,null,inv.counted.congr fun h => (owed_client here (fun h => ?_) h).symm,fun j other found => ?_⟩
    · simp [clientDestroy,here,unset]
    · simp [holds,refers,null]
    · rw [clientAt_set here] at found
      split at found
      · cases found
      · exact inv.data j other found
  · rw [unset] at free
    cases free

-- client_get_format is called on the client data, which is no client.
theorem destroy_undefined {i : Nat} (inv : Inv m) (here : clientAt m i = some client)
    (free : client.freeClientData = true) :
    clientDestroy m i = none := by
  rcases inv.data i client here with ⟨_,unset⟩ | ⟨d,h,points,_,_⟩
  · rw [unset] at free
    cases free
  · simp [clientDestroy,here,free,ebmlFreeClientData,points,clientGetFormat]

theorem free_inv (inv : Inv m) (plugin : m.plugin = some header) : ∃ n, ebmlFreePlugin m header = some n ∧ Inv n := by
  cases header with
  | none =>
    refine ⟨_,rfl,inv.counted.congr fun h => ?_,inv.data⟩
    unfold owed
    dsimp only
    rw [plugin]
    simp
  | some a =>
    have owes : 0 < owed m a := by
      unfold owed
      rw [if_pos plugin]
      omega
    obtain ⟨refbufs,freed,counted,_⟩ := inv.counted.release owes
    refine ⟨{m with refbufs := refbufs,plugin := none},
      by rw [ebmlFreePlugin,refbufRelease,freed]; rfl,counted.congr fun h => ?_,inv.data⟩
    unfold owed
    dsimp only
    rw [plugin]
    by_cases same : h = a
    · subst same
      simp
    · have other : a ≠ h := Ne.symm same
      simp [other]

theorem start_inv : Inv start := ⟨counted_empty.congr fun _ => rfl,nofun⟩

theorem next_fair (inv : Inv m) (enabled : Enabled m event) (fair : Fair m event) :
    ∃ n, next m event = some n ∧ GivesBack m event n ∧ Inv n := by
  cases event with
  | connect => exact ⟨_,rfl,trivial,connect_inv inv⟩
  | header a bytes =>
    obtain ⟨plugin,free⟩ := enabled
    exact ⟨_,rfl,trivial,header_inv inv plugin (Option.isNone_iff_eq_none.mp free)⟩
  | create i =>
    obtain ⟨alive,client,here,null,_⟩ := enabled
    obtain ⟨header,plugin⟩ := Option.isSome_iff_exists.mp alive
    obtain ⟨n,ran,kept⟩ := create_inv inv here null plugin
    exact ⟨n,by rw [next,here,plugin]; exact ran,trivial,kept⟩
  | write i room =>
    obtain ⟨client,here,free,_⟩ := enabled
    obtain ⟨n,ran,kept⟩ := write_inv inv here free
    exact ⟨n,by rw [next,here]; exact ran,trivial,kept⟩
  | move i =>
    obtain ⟨client,here,_⟩ := enabled
    have kept : Inv {m with clients := m.clients.set i (some {client with onSource := false})} :=
      inv.replace here rfl rfl
    exact ⟨_,by rw [next,here]; rfl,trivial,kept⟩
  | destroy i =>
    obtain ⟨client,here⟩ := Option.isSome_iff_exists.mp enabled
    obtain ⟨ran,null,kept⟩ := destroy_inv inv here (fair client here)
    refine ⟨_,ran,fun other d h pos found points _ => ?_,kept⟩
    rw [here] at found
    cases found
    rw [null] at points
    cases points
  | freePlugin =>
    obtain ⟨header,plugin⟩ := Option.isSome_iff_exists.mp enabled
    obtain ⟨n,ran,kept⟩ := free_inv inv plugin
    exact ⟨n,by rw [next,plugin]; exact ran,trivial,kept⟩

theorem next_iff (inv : Inv m) (enabled : Enabled m event) :
    (∃ n, next m event = some n ∧ GivesBack m event n ∧ ∀ h, count n.refbufs h = owed n h) ↔ Fair m event := by
  constructor
  · rintro ⟨n,ran,_⟩
    cases event with
    | destroy i =>
      intro client here
      by_contra set_
      rw [next,destroy_undefined inv here (by simpa using set_)] at ran
      cases ran
    | _ => trivial
  · intro fair
    obtain ⟨n,ran,gives,kept⟩ := next_fair inv enabled fair
    exact ⟨n,ran,gives,kept.counted.counts⟩

theorem step_inv (inv : Inv m) (step : Step m event n) (fair : Fair m event) : Inv n := by
  obtain ⟨n',ran,_,kept⟩ := next_fair inv step.1 fair
  rw [step.2] at ran
  cases ran
  exact kept

-- The references of the header are exact, and no call reads what was freed, up to the first
-- listener with EBML client data that is destroyed.
theorem runs_header (run : Runs (fun m event n => Step m event n ∧ Fair m event) start events m) :
    (∀ h, count m.refbufs h = owed m h) ∧ ∀ event, Enabled m event →
      ((∃ n, next m event = some n ∧ GivesBack m event n ∧ ∀ h, count n.refbufs h = owed n h) ↔ Fair m event) := by
  have inv : Inv m := run.preserves (fun inv last => step_inv inv last.1 last.2) start_inv
  exact ⟨inv.counted.counts,fun _ enabled => next_iff inv enabled⟩

-- Two listeners of a stream, one of which moves to another source and reads on after the plugin is freed.
def listened : List Event :=
  [.connect,.header 7 [26,69,223,163],.create 0,.connect,.create 1,.write 0 3,.move 0,.freePlugin,
    .write 0 5,.connect,.destroy 2]

theorem runs_header_moved : ∃ m, Runs Step start listened m ∧ m.plugin = none ∧ count m.refbufs 7 = 2 ∧
    (∀ h, count m.refbufs h = owed m h) ∧ ∃ n, next m (.write 0 1) = some n := by
  have ran : (runFrom (guarded Fair (guarded Enabled next)) start listened).map
      (fun m => (m.plugin,count m.refbufs 7,decide (Enabled m (.write 0 1)))) = some (none,2,true) := by decide +kernel
  obtain ⟨m,ran,values⟩ := Option.map_eq_some_iff.mp ran
  have fair : Runs (fun m event n => Step m event n ∧ Fair m event) start listened m :=
    runFrom_sound (fun step => ⟨(guarded_sound (guarded_sound step).1).symm,(guarded_sound step).2⟩) ran
  have header := runs_header fair
  obtain ⟨n,wrote,_⟩ := (header.2 (.write 0 1) (of_decide_eq_true (congrArg (·.2.2) values))).mpr trivial
  exact ⟨m,fair.imp fun step => step.1,congrArg (·.1) values,congrArg (·.2.1) values,header.1,n,wrote⟩

-- The only listener leaves.
theorem destroy_confused : ∃ m, Runs Step start [.connect,.header 7 [26,69,223,163],.create 0] m ∧
    count m.refbufs 7 = 2 ∧
    Enabled m (.destroy 0) ∧ next m (.destroy 0) = none := by
  have ran : (runFrom (guarded Enabled next) start [.connect,.header 7 [26,69,223,163],.create 0]).map
      (fun m => (count m.refbufs 7,decide (Enabled m (.destroy 0)),(next m (.destroy 0)).isNone)) =
        some (2,true,true) := by
    decide +kernel
  obtain ⟨m,ran,values⟩ := Option.map_eq_some_iff.mp ran
  exact ⟨m,runFrom_sound (fun step => (guarded_sound step).symm) ran,congrArg (·.1) values,
    of_decide_eq_true (congrArg (·.2.1) values),Option.isNone_iff_eq_none.mp (congrArg (·.2.2) values)⟩

end Icecast.EbmlHeader
