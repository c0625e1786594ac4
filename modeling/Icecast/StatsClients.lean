import Icecast.Client
import Icecast.Httpp
import Icecast.ResponseHeader
import Icecast.StatsFeed

namespace Icecast.StatsClients
open Bytes Stats StatsFeed Transition
open Httpp (lf space)
open ResponseHeader (printResult)

def global : Text := ascii "global"
def null : Text := ascii "null"

-- "EVENT %s %s %s\n"
def eventLine (e : Stats.Event) : Text :=
  ascii "EVENT "++e.source.getD global++[space]++e.name.getD null++[space]++e.value.getD null++[lf]

-- sizeof (buf)
def bufSize : Nat := 200

-- _send_event_to_client: what went out, and whether it returns -1; none writes outside of buf.
def sendEventToClient (buf : Text) (e : Stats.Event) (send : Send) : Option (Text × Bool) :=
  (snprintf buf 0 bufSize (eventLine e)).map fun buf =>
    let len := printResult (eventLine e)
    if 0 < len ∧ len < bufSize then
      let sent := clientSendBytes (buf.take len.toNat) send
      (sent.bytes,sent.error)
    else ([],false)

-- A thread of stats_connection with its client: how many events it took out of its queue.
structure Client where
  taken : Nat
  received : Text
  gone : Bool
deriving DecidableEq

-- The clients in the order of the listeners' queues.
structure State where
  feed : Feed
  clients : List Client
deriving DecidableEq

def start : State := ⟨StatsFeed.start,[]⟩

inductive Event where
  | input (input : Input)
  | turn (client : Nat) (buf : Text) (send : Send)
deriving DecidableEq

def joined (clients : List Client) : Input → List Client
  | .register => clients++[⟨0,[],false⟩]
  | .post _ => clients

-- One turn of the loop of stats_connection with an event in the queue.
def takeEvent (buf : Text) (send : Send) (c : Client) (e : Stats.Event) : Option Client :=
  if c.gone then none else (sendEventToClient buf e send).map fun sent => ⟨c.taken+1,c.received++sent.1,sent.2⟩

def next (s : State) : Event → Option State
  | .input input => (StatsFeed.next s.feed input).map fun feed => ⟨feed,joined s.clients input⟩
  | .turn i buf send =>
    (s.clients[i]?).bind fun c => (s.feed.listeners[i]?).bind fun queue => (queue[c.taken]?).bind fun e =>
      (takeEvent buf send c e).map fun c => {s with clients := s.clients.set i c}

-- A socket that takes a line whole.
def Whole : Send → Prop
  | .sent k => bufSize ≤ k
  | _ => False

-- The stats are fair as in StatsFeed, and so are the sockets.
def Fair (s : State) : Event → Prop
  | .input input => StatsFeed.Fair s.feed input
  | .turn _ buf send => buf.length = bufSize ∧ Whole send

instance decideWhole : (send : Send) → Decidable (Whole send)
  | .sent k => inferInstanceAs (Decidable (bufSize ≤ k))
  | .blocked => isFalse id
  | .failed => isFalse id

instance decideFair (s : State) : (event : Event) → Decidable (Fair s event)
  | .input input => inferInstanceAs (Decidable (StatsFeed.Fair s.feed input))
  | .turn _ buf send => inferInstanceAs (Decidable (buf.length = bufSize ∧ Whole send))

def Step (s : State) (event : Event) (t : State) : Prop := next s event = some t ∧ Fair s event

def fitting (e : Stats.Event) : Bool := (eventLine e).length < bufSize

-- The lines of a text that have arrived whole.
def splitLines (line : Text) : Text → List Text
  | [] => []
  | c::rest => if c = lf then line::splitLines [] rest else splitLines (line++[c]) rest

def field (text other : Text) : Option Text := if text = other then none else some text

def word (text : Text) : Text := text.takeWhile (· ≠ space)
def behind (text : Text) : Text := (text.dropWhile (· ≠ space)).drop 1

-- A client that reads the lines.
def readEvent (line : Text) : Option Stats.Event :=
  if line.take 6 = ascii "EVENT " then
    let rest := line.drop 6
    some ⟨field (word rest) global,field (word (behind rest)) null,field (behind (behind rest)) null,false,.set⟩
  else none

def hear (view : Option Text → Text → Option Text) (line : Text) : Option Text → Text → Option Text :=
  (readEvent line).elim view (learn view)

def heard (received : Text) : Option Text → Text → Option Text := (splitLines [] received).foldl hear fun _ _ => none

-- The texts of an event that the line shows as they are.
structure Readable (e : Stats.Event) : Prop where
  source : ∀ text,e.source = some text → space ∉ text ∧ lf ∉ text ∧ text ≠ global
  name : ∀ text,e.name = some text → space ∉ text ∧ lf ∉ text ∧ text ≠ null
  value : ∀ text,e.value = some text → lf ∉ text ∧ text ≠ null

theorem split_line (clean : lf ∉ text) (line rest : Text) :
    splitLines line (text++lf::rest) = (line++text)::splitLines [] rest := by
  induction text generalizing line with
  | nil =>
    rw [List.nil_append,splitLines,if_pos rfl,List.append_nil]
  | cons c text ih =>
    obtain ⟨other,clean⟩ := not_or.mp (List.mem_cons.not.mp clean)
    rw [List.cons_append,splitLines,if_neg (Ne.symm other),ih clean,List.append_assoc,List.singleton_append]

theorem word_behind (clean : space ∉ text) (rest : Text) : word (text++space::rest) = text ∧
    behind (text++space::rest) = rest := by
  have front : ∀ c ∈ text,decide (c ≠ space) = true := fun c member => decide_eq_true fun same :
    c = space => clean (same ▸ member)
  unfold word behind
  rw [List.takeWhile_append_of_pos front,List.dropWhile_append_of_pos front]
  exact ⟨List.append_nil text,rfl⟩

theorem field_getD (value : Option Text) (other : ∀ text,value = some text → text ≠ null') :
    field (value.getD null') null' = value := by
  cases value with
  | none => exact if_pos rfl
  | some text => exact if_neg (other text rfl)

theorem getD_clean {P : Text → Prop} (value : Option Text) (clean : ∀ text,value = some text → P text)
    (default : P other) : P (value.getD other) := by
  cases value with
  | none => exact default
  | some text => exact clean text rfl

def shownLine (e : Stats.Event) : Text :=
  ascii "EVENT "++(e.source.getD global++space::(e.name.getD null++space::e.value.getD null))

theorem event_line (e : Stats.Event) (rest : Text) : eventLine e++rest = shownLine e++lf::rest := by
  simp only [eventLine,shownLine,List.append_assoc,List.cons_append]
  rfl

theorem read_line (readable : Readable e) : readEvent (shownLine e) = some ⟨e.source,e.name,e.value,false,.set⟩ := by
  have source : space ∉ e.source.getD global :=
    getD_clean e.source (fun text given => (readable.source text given).1) (by decide)
  have name : space ∉ e.name.getD null := getD_clean e.name (fun text given => (readable.name text given).1) (by decide)
  have first := word_behind source (e.name.getD null++space::e.value.getD null)
  have second := word_behind name (e.value.getD null)
  have front : (shownLine e).take 6 = ascii "EVENT " := List.take_left' (by rfl)
  have rest : (shownLine e).drop 6 = e.source.getD global++space::(e.name.getD null++space::e.value.getD null) :=
    List.drop_left' (by rfl)
  rw [readEvent,if_pos front]
  dsimp only
  rw [rest,first.1,first.2,second.1,second.2,field_getD e.source fun text given => (readable.source text given).2.2,
    field_getD e.name fun text given => (readable.name text given).2.2,
      field_getD e.value fun text given => (readable.value text given).2]

theorem line_clean (readable : Readable e) : lf ∉ shownLine e := by
  have source : lf ∉ e.source.getD global :=
    getD_clean e.source (fun text given => (readable.source text given).2.1) (by decide)
  have name : lf ∉ e.name.getD null := getD_clean e.name (fun text given => (readable.name text given).2.1) (by decide)
  have value : lf ∉ e.value.getD null :=
    getD_clean e.value (fun text given => (readable.value text given).1) (by decide)
  have fixed : lf ∉ ascii "EVENT " ∧ lf ≠ space := by decide
  simp only [shownLine,List.mem_append,List.mem_cons,not_or]
  exact ⟨fixed.1,source,fixed.2,name,fixed.2,value⟩

theorem learn_texts (view : Option Text → Text → Option Text) (e : Stats.Event) :
    learn view ⟨e.source,e.name,e.value,false,.set⟩ = learn view e := rfl

theorem heard_lines (events : List Stats.Event) (readable : ∀ e ∈ events,Readable e)
    (view : Option Text → Text → Option Text) :
    (splitLines [] (events.flatMap eventLine)).foldl hear view = events.foldl learn view := by
  induction events generalizing view with
  | nil => rfl
  | cons e events ih =>
    have here := readable e List.mem_cons_self
    rw [List.flatMap_cons,event_line,split_line (line_clean here),List.nil_append,List.foldl_cons,
      List.foldl_cons,hear,read_line here,
      Option.elim_some,learn_texts]
    exact ih (fun e member => readable e (List.mem_cons_of_mem _ member)) _

theorem whole_sent (whole : Whole send) : ∃ k,send = .sent k ∧ bufSize ≤ k := by
  cases send with
  | sent k => exact ⟨k,rfl,whole⟩
  | blocked => exact whole.elim
  | failed => exact whole.elim

theorem send_whole (e : Stats.Event) (size : buf.length = bufSize) (whole : Whole send) :
    sendEventToClient buf e send = some (if fitting e then eventLine e else [],false) := by
  obtain ⟨k,rfl,wide⟩ := whole_sent whole
  have room : bufSize = 200 := rfl
  have printed : snprintf buf 0 bufSize (eventLine e) =
    some ((eventLine e).take 199++0::buf.drop (((eventLine e).take 199++[0]).length)) := by
    have width : ((eventLine e).take 199++[0]).length ≤ buf.length := by
      rw [List.length_append,List.length_take,List.length_singleton,size]
      omega
    unfold snprintf memcpy
    rw [if_neg (by decide),show bufSize-1 =
      199 by rfl,Nat.zero_add,if_pos width,List.take_zero,List.nil_append,List.append_assoc]
    rfl
  have filled : 0 < (eventLine e).length := by
    rw [eventLine,List.length_append,List.length_singleton]
    exact Nat.succ_pos _
  rw [sendEventToClient,printed,Option.map_some]
  dsimp only
  by_cases fits : (eventLine e).length < bufSize
  · have ret : printResult (eventLine e) = ((eventLine e).length : Int) := by
      unfold printResult
      rw [if_pos (by omega)]
    have uncut : (eventLine e).take 199 = eventLine e := List.take_of_length_le (by omega)
    have most : (eventLine e).length ≤ min k intMax := by
      have wide_ : bufSize ≤ intMax := by decide
      exact Nat.le_min.mpr ⟨by omega,by omega⟩
    have sent : clientSendBytes (eventLine e) (.sent k) = ⟨(eventLine e).length,false,eventLine e⟩ := by
      unfold clientSendBytes
      dsimp only
      rw [if_neg (List.ne_nil_of_length_pos filled),List.take_of_length_le most]
    have fitting_ : fitting e = true := decide_eq_true fits
    rw [ret,uncut,if_pos ⟨by omega,by omega⟩,Int.toNat_natCast,List.take_left' rfl,sent,fitting_]
    rfl
  · have ret : ¬(0 < printResult (eventLine e) ∧ printResult (eventLine e) < bufSize) := by
      unfold printResult
      split <;> omega
    have long : fitting e = false := decide_eq_false fits
    rw [if_neg ret,long]
    rfl

-- A client was sent the lines of what it took out of its queue.
structure Told (queue : List Stats.Event) (c : Client) : Prop where
  inside : c.taken ≤ queue.length
  received : c.received = ((queue.take c.taken).filter fitting).flatMap eventLine
  there : c.gone = false

theorem Told.more (told : Told queue c) (e : Stats.Event) : Told (queue++[e]) c := by
  refine ⟨?_,?_,told.there⟩
  · rw [List.length_append]
    exact Nat.le_add_right_of_le told.inside
  · rw [List.take_append_of_le_length told.inside]
    exact told.received

theorem Told.turn (told : Told queue c) (waits : queue[c.taken]? = some e) (size : buf.length = bufSize)
    (whole : Whole send) :
    ∃ d,takeEvent buf send c e = some d ∧ Told queue d := by
  have taken : queue.take (c.taken+1) = queue.take c.taken++[e] := by
    rw [List.take_add_one,waits]
    rfl
  refine ⟨⟨c.taken+1,c.received++(if fitting e then eventLine e else []),false⟩,?_,?_,?_,rfl⟩
  · rw [takeEvent,told.there,send_whole e size whole]
    rfl
  · exact (List.getElem?_eq_some_iff.mp waits).1
  · rw [taken,List.filter_append,List.flatMap_append,told.received]
    cases fits : fitting e with
    | true =>
      rw [List.filter_cons_of_pos fits,List.filter_nil,List.flatMap_singleton]
      rfl
    | false =>
      rw [List.filter_cons_of_neg (by rw [fits]; exact Bool.false_ne_true),List.filter_nil]
      rfl

structure Inv (s : State) : Prop where
  feed : StatsFeed.Invariant s.feed
  sizes : s.clients.length = s.feed.listeners.length
  told : ∀ (i : Nat) (c : Client) (queue : List Stats.Event),s.clients[i]? = some c →
    s.feed.listeners[i]? = some queue → Told queue c

theorem start_inv : Inv start := ⟨start_invariant,rfl,fun _ _ _ none _ => by cases none⟩

theorem input_inv (inv : Inv s) (fair : StatsFeed.Fair s.feed input) (ran : StatsFeed.next s.feed input = some feed) :
    Inv ⟨feed,joined s.clients input⟩ := by
  have invariant : StatsFeed.Invariant feed := ⟨step_unique inv.feed.unique ran,(step_replicated inv.feed ran).mpr fair⟩
  cases input with
  | post c =>
    unfold StatsFeed.next at ran
    dsimp only at ran
    split at ran
    · cases Option.some.inj ran
      refine ⟨invariant,?_,fun i c queue there listens => ?_⟩
      · rw [List.length_map]
        exact inv.sizes
      · rw [List.getElem?_map] at listens
        obtain ⟨before,listened,rfl⟩ := Option.map_eq_some_iff.mp listens
        exact (inv.told i c before there listened).more _
    · cases ran
  | register =>
    cases Option.some.inj ran
    refine ⟨invariant,?_,fun i c queue there listens => ?_⟩
    · rw [joined,List.length_append,List.length_append,inv.sizes]
      rfl
    · dsimp only [joined] at there listens
      by_cases old : i < s.clients.length
      · rw [List.getElem?_append_left old] at there
        rw [List.getElem?_append_left (inv.sizes ▸ old)] at listens
        exact inv.told i c queue there listens
      · rw [List.getElem?_append_right (Nat.le_of_not_lt old)] at there
        obtain ⟨_,member⟩ := List.getElem?_eq_some_iff.mp there
        have new : c ∈ [(⟨0,[],false⟩ : Client)] := List.mem_of_getElem? there
        cases List.mem_singleton.mp new
        exact ⟨Nat.zero_le _,rfl,rfl⟩

theorem step_inv (inv : Inv s) (step : Step s event t) : Inv t := by
  obtain ⟨ran,fair⟩ := step
  cases event with
  | input input =>
    obtain ⟨feed,fed,rfl⟩ := Option.map_eq_some_iff.mp ran
    exact input_inv inv fair fed
  | turn i buf send =>
    obtain ⟨size,whole⟩ := fair
    obtain ⟨c,there,ran⟩ := Option.bind_eq_some_iff.mp ran
    obtain ⟨queue,listens,ran⟩ := Option.bind_eq_some_iff.mp ran
    obtain ⟨e,waits,ran⟩ := Option.bind_eq_some_iff.mp ran
    obtain ⟨d,took,rfl⟩ := Option.map_eq_some_iff.mp ran
    obtain ⟨after,took',told⟩ := (inv.told i c queue there listens).turn waits size whole
    cases took.symm.trans took'
    refine ⟨inv.feed,?_,fun j other queue' found listens' => ?_⟩
    · rw [List.length_set]
      exact inv.sizes
    · rw [List.getElem?_set] at found
      split at found
      · rename_i same
        split at found
        · cases Option.some.inj found
          subst same
          cases listens.symm.trans listens'
          exact told
        · cases found
      · exact inv.told j other queue' found listens'

-- Over every run of the stats thread and of the threads of its clients, in any order, where each
-- socket takes a line whole: a client that reads its lines knows what the events it took tell it,
-- those left out that do not fit into the line's buffer, and with its queue empty and all of them
-- sent it knows what the trees hold; and while its queue is not empty its thread goes on.
theorem stats_clients (path : Runs Step start events s) (there : s.clients[i]? = some c)
    (readable : ∀ queue,s.feed.listeners[i]? = some queue → ∀ e ∈ queue,Readable e) :
    ∃ queue,s.feed.listeners[i]? = some queue ∧ heard c.received = seen ((queue.take c.taken).filter fitting) ∧
      (c.taken = queue.length → (∀ e ∈ queue,fitting e = true) →
      ∀ source name,heard c.received source name = lookup s.feed.tree source name) ∧
      (c.taken < queue.length → ∀ buf send,buf.length = bufSize → Whole send → ∃ t,Step s (.turn i buf send) t) := by
  have inv : Inv s := path.preserves (fun inv step => step_inv inv step) start_inv
  have bound : i < s.feed.listeners.length := inv.sizes ▸ (List.getElem?_eq_some_iff.mp there).1
  have listens : s.feed.listeners[i]? = some (s.feed.listeners[i]) := List.getElem?_eq_getElem bound
  generalize s.feed.listeners[i] = queue at listens
  have told := inv.told i c queue there listens
  have hears : heard c.received = seen ((queue.take c.taken).filter fitting) := by
    rw [heard,told.received]
    exact heard_lines _ (fun e member =>
      readable queue listens e (List.mem_of_mem_take (List.mem_filter.mp member).1)) _
  refine ⟨queue,listens,hears,fun drained short source name => ?_,fun waits buf send size whole => ?_⟩
  · rw [hears,drained,List.take_length,List.filter_eq_self.mpr short]
    exact inv.feed.replicated queue (List.mem_of_getElem? listens) source name
  · obtain ⟨d,took,_⟩ := told.turn (List.getElem?_eq_getElem waits) size whole
    refine ⟨{s with clients := s.clients.set i d},?_,size,whole⟩
    rw [next,there,Option.bind_some,listens,Option.bind_some,List.getElem?_eq_getElem waits,Option.bind_some,took]
    rfl

-- A title comes while a client listens.
def titled : List Event :=
  [.input .register,.input (.post (.event (some (ascii "/a")) (some (ascii "title")) (some (ascii "A B")))),
    .turn 0 (List.replicate bufSize 0) (.sent bufSize)]

theorem stats_clients_titled : ∃ s c,Runs Step start titled s ∧ s.clients[0]? = some c ∧
    heard c.received (some (ascii "/a")) (ascii "title") = some (ascii "A B") := by
  have ran : (runFrom (guarded Fair next) start titled).map
    (fun s => (s.clients,s.feed.listeners,lookup s.feed.tree (some (ascii "/a")) (ascii "title"))) =
      some ([⟨1,ascii "EVENT /a title A B\n",false⟩],
        [[⟨some (ascii "/a"),some (ascii "title"),some (ascii "A B"),false,.set⟩]],some (ascii "A B")) := by
    decide +kernel
  obtain ⟨s,path,same⟩ := Option.map_eq_some_iff.mp ran
  obtain ⟨clients,rest⟩ := Prod.mk.inj same
  obtain ⟨listeners,held⟩ := Prod.mk.inj rest
  have runs : Runs Step start titled s := runFrom_sound (fun stepped => guarded_sound stepped) path
  have there : s.clients[0]? = some ⟨1,ascii "EVENT /a title A B\n",false⟩ := by rw [clients]; rfl
  have readable : ∀ queue,s.feed.listeners[0]? = some queue → ∀ e ∈ queue,Readable e := by
    intro queue listens e member
    rw [listeners] at listens
    cases Option.some.inj listens
    cases List.mem_singleton.mp member
    refine ⟨fun text given => ?_,fun text given => ?_,fun text given => ?_⟩
    all_goals
      cases Option.some.inj given
      decide
  obtain ⟨queue,listens,_,all,_⟩ := stats_clients runs there readable
  rw [listeners] at listens
  cases Option.some.inj listens
  exact ⟨s,_,runs,there,(all rfl (by decide) _ _).trans held⟩

end Icecast.StatsClients
