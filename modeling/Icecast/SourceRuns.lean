import Icecast.Lib.Transition
import Icecast.SourceInvariant

namespace Icecast
open RefHeap Linked

variable {α : Type u} {δ : Type v} {plugins : Nat → Plugin α δ} {before window : List Nat}

theorem Source.Inv.congr {s t : Source α δ} (inv : s.Inv plugins before window)
    (queue : t.queue = {s.queue with burstSize := size,queueSizeLimit := limit}) (clients : t.clientTree = s.clientTree)
    (waiting : t.pendingTree = s.pendingTree) (left : t.departed = s.departed)
    (format : t.phase ≠ .idle → ∃ f, t.mount.format = some f) : t.Inv plugins before window where
  queue := by
    rw [queue,clients,waiting]
    exact {
      toShape := inv.queue.toShape.reheap (fun _ _ => rfl) (fun _ _ => rfl) rfl rfl rfl rfl rfl
      counted := inv.queue.counted
      inside := inv.queue.inside
      fresh := inv.queue.fresh }
  contents := by
    obtain ⟨start,contents⟩ := inv.contents
    exact ⟨start,contents.congr (fun a _ => by rw [queue]; rfl) (by rw [queue])⟩
  order := fun c member => by
    rw [clients,waiting] at member
    exact (inv.order c member).same (by rw [queue]) (show t.queue.produced = s.queue.produced++[] by rw [queue,
      List.append_nil]) fun a _ => by rw [queue]; rfl
  pending := fun c member => inv.pending c (waiting ▸ member)
  departed := fun c member => (inv.departed c (left ▸ member)).grow
    (show t.queue.produced = s.queue.produced++[] by rw [queue,List.append_nil])
  format := format

theorem start_inv {s : Source α δ} (inv : s.Inv plugins before window) (with_ : Start) :
    (s.start with_).Inv plugins before window :=
  inv.congr rfl rfl rfl rfl fun _ => ⟨_,rfl⟩

theorem settings_inv {s : Source α δ} (inv : s.Inv plugins before window) (burstSize queueSizeLimit : UInt32)
    (maxListeners : Int) :
    (s.settings burstSize queueSizeLimit maxListeners).Inv plugins before window :=
  inv.congr rfl rfl rfl rfl inv.format

theorem join_inv {s : Source α δ} (inv : s.Inv plugins before window) (id : Nat) (formatData : δ) :
    (s.join id formatData).Inv plugins before window := by
  refine inv.receive (show List.Perm _ ([_]++s.pendingTree) from insertClient_perm _ _) (fun c member => ?_) _
  rw [List.mem_singleton.mp member]
  exact ⟨nofun,rfl,rfl,fun _ => ⟨rfl,_,rfl⟩⟩

theorem InOrder.error {q : Queue α} {c : Listener δ} (order : InOrder plugins q c) (failed : Bool) :
    InOrder plugins q {c with error := failed} :=
  ⟨order.1.error failed,order.2⟩

theorem kick_inv {s : Source α δ} (inv : s.Inv plugins before window) (id : Nat) :
    (s.kick id).Inv plugins before window where
  queue := by
    have same : queueRefs (s.clientTree.map fun c => if c.id = id then {c with error := true} else c) =
      queueRefs s.clientTree := by
      rw [queueRefs,List.flatMap_map]
      refine congrArg (List.flatMap · s.clientTree) (funext fun c => ?_)
      split <;> rfl
    rw [Source.kick,queueRefs_append,same,←queueRefs_append]
    exact inv.queue
  contents := inv.contents
  order := fun c member => by
    rcases List.mem_append.mp member with served | waiting
    · obtain ⟨d,listed,same⟩ := List.mem_map.mp served
      have order := inv.order d (List.mem_append_left _ listed)
      split at same
      · exact same ▸ order.error true
      · exact same ▸ order
    · exact inv.order c (List.mem_append_right _ waiting)
  pending := inv.pending
  departed := inv.departed
  format := inv.format

-- Every source of a server, under its mount.
def Server.Inv (plugins : Nat → Plugin α δ) (s : Server α δ) : Prop :=
  ∀ i, (s i).queue.mount = i ∧ ∃ before window, (s i).Inv plugins before window

theorem initial_inv (plugins : Nat → Plugin α δ) : (Server.initial : Server α δ).Inv plugins :=
  fun i => ⟨rfl,[],[],reserve_inv i⟩

-- The bytes a step puts on the queue of mount `i`.
def Event.bytes (i : Nat) : Event α δ → Nat
  | .produce j _ page => if i = j then pageBytes page else 0
  | _ => 0

-- What a step does to the source of mount `i`, which gets `added` bytes.
def Source.Goes (plugins : Nat → Plugin α δ) (i added : Nat) (s t : Source α δ) : Prop :=
  t.queue.mount = i ∧ ∃ before window, t.Inv plugins before window ∧
    t.queue.total (before++window) ≤ s.queue.bytes+added

theorem Source.Inv.goes {s t : Source α δ} (inv : s.Inv plugins before window) (next : t.Inv plugins moved rest)
    (mount : t.queue.mount = i) (less : t.queue.total (moved++rest) ≤ s.queue.total (before++window)+added) :
    s.Goes plugins i added t :=
  ⟨mount,moved,rest,next,inv.queue.bytes ▸ less⟩

theorem Server.Inv.stays {s : Server α δ} (inv : s.Inv plugins) (i added : Nat) : (s i).Goes plugins i added (s i) := by
  obtain ⟨mount,_,_,own⟩ := inv i
  exact own.goes own mount (Nat.le_add_right _ _)

theorem Server.Inv.goes {s : Server α δ} (inv : s.Inv plugins) {t : Source α δ}
    (goes : (s j).Goes plugins j (Event.bytes j event) t)
    (i : Nat) : (s i).Goes plugins i (Event.bytes i event) (s.set j t i) := by
  unfold Server.set
  split
  · rename_i same
    exact same ▸ goes
  · exact inv.stays i _

theorem step_goes {s t : Server α δ} (inv : s.Inv plugins) (step : s.step plugins event t) (i : Nat) :
    (s i).Goes plugins i (event.bytes i) (t i) := by
  unfold Server.step Server.next at step
  split at step
  · rename_i enabled
    cases event with
    | start j with_ =>
      cases Option.some.inj step
      obtain ⟨mount,_,_,own⟩ := inv j
      exact inv.goes (own.goes (start_inv own with_) mount
        (Nat.le_add_right_of_le (Nat.le_of_eq (total_congr fun _ _ => rfl)))) i
    | produce j zap page =>
      obtain ⟨mount,_,_,own⟩ := inv j
      obtain ⟨u,_,_,ran,next,same,total⟩ :=
        produce_inv own (by rintro idle; simp [Event.enabled,idle] at enabled) zap page
      dsimp only at step
      rw [ran] at step
      cases Option.some.inj step
      refine inv.goes (own.goes next (same.trans mount) (Nat.le_of_eq ?_)) i
      rw [total,Event.bytes,if_pos rfl]
    | pass j env =>
      obtain ⟨u,ran,same⟩ := Option.map_eq_some_iff.mp step
      obtain ⟨mount,_,_,own⟩ := inv j
      obtain ⟨_,_,_,next,kept,less,_⟩ := pass_inv own (by simpa [Event.enabled] using enabled) ran
      have goes : (s j).Goes plugins j (Event.bytes j (.pass j env : Event α δ)) u :=
        own.goes next (kept.trans mount) less
      exact same ▸ inv.goes goes i
    | stop j =>
      cases Option.some.inj step
      obtain ⟨mount,_,_,own⟩ := inv j
      exact inv.goes (own.goes (own.congr (t := {s j with running := false}) rfl rfl rfl rfl own.format) mount
        (Nat.le_refl _)) i
    | clear j =>
      obtain ⟨mount,_,_,own⟩ := inv j
      obtain ⟨u,ran,next,same⟩ := clear_inv own
      dsimp only at step
      rw [ran] at step
      cases Option.some.inj step
      exact inv.goes (own.goes next (same.trans mount) (Nat.zero_le _)) i
    | join j id formatData =>
      cases Option.some.inj step
      obtain ⟨mount,_,_,own⟩ := inv j
      exact inv.goes (own.goes (join_inv own id formatData) mount (Nat.le_refl _)) i
    | kick j id =>
      cases Option.some.inj step
      obtain ⟨mount,_,_,own⟩ := inv j
      exact inv.goes (own.goes (kick_inv own id) mount (Nat.le_refl _)) i
    | settings j burstSize queueSizeLimit maxListeners =>
      cases Option.some.inj step
      obtain ⟨mount,_,_,own⟩ := inv j
      exact inv.goes (own.goes (settings_inv own burstSize queueSizeLimit maxListeners) mount
        (Nat.le_add_right_of_le (Nat.le_of_eq (total_congr fun _ _ => rfl)))) i
    | onDemand j value =>
      cases Option.some.inj step
      obtain ⟨mount,_,_,own⟩ := inv j
      exact inv.goes (own.goes (own.congr (t := {s j with onDemand := value}) rfl rfl rfl rfl own.format) mount
        (Nat.le_refl _)) i
    | move j k =>
      obtain ⟨mount,_,_,own⟩ := inv j
      obtain ⟨mount_k,_,_,other⟩ := inv k
      obtain ⟨a,b,ran,next,next_k,same,same_k,total,queue,_⟩ := move_inv own other
      dsimp only at step
      rw [ran] at step
      cases Option.some.inj step
      have goes : (s j).Goes plugins j (Event.bytes j (.move j k : Event α δ)) a :=
        own.goes next (same.trans mount) (Nat.le_of_eq total)
      have kept : (s k).Goes plugins k (Event.bytes k (.move j k : Event α δ)) b :=
        other.goes next_k (same_k.trans mount_k) (by rw [queue]; exact Nat.le_add_right _ _)
      by_cases here : i = k
      · subst here
        simpa [Server.set] using kept
      · have other : ((s.set j a).set k b) i = s.set j a i := if_neg here
        exact (congrArg _ other).mpr (inv.goes goes i)
  · cases step

theorem preserves_inv {s t : Server α δ} (inv : s.Inv plugins) (step : s.step plugins event t) : t.Inv plugins :=
  fun i => by
  obtain ⟨mount,before,window,next,_⟩ := step_goes inv step i
  exact ⟨mount,before,window,next⟩

theorem runs_inv {s t : Server α δ} (path : Transition.Runs (Server.step plugins) s events t)
    (inv : s.Inv plugins) : t.Inv plugins :=
  path.preserves preserves_inv inv

theorem step_total {s : Server α δ} (total : Total plugins) (inv : s.Inv plugins) (event : Event α δ)
    (enabled : event.enabled s = true) : ∃ t, s.step plugins event t := by
  unfold Server.step Server.next
  rw [if_pos enabled]
  cases event with
  | produce i zap page =>
    obtain ⟨_,_,_,own⟩ := inv i
    obtain ⟨u,_,_,ran,_⟩ := produce_inv own (by rintro idle; simp [Event.enabled,idle] at enabled) zap page
    exact ⟨_,by dsimp only; rw [ran,Option.map_some]⟩
  | pass i env =>
    obtain ⟨_,_,_,own⟩ := inv i
    obtain ⟨u,ran⟩ := pass_total total own (by simpa [Event.enabled] using enabled) env
    exact ⟨_,by dsimp only; rw [ran,Option.map_some]⟩
  | clear i =>
    obtain ⟨_,_,_,own⟩ := inv i
    obtain ⟨u,ran,_⟩ := clear_inv own
    exact ⟨_,by dsimp only; rw [ran,Option.map_some]⟩
  | move i j =>
    obtain ⟨_,_,_,own⟩ := inv i
    obtain ⟨_,_,_,other⟩ := inv j
    obtain ⟨a,b,ran,_⟩ := move_inv own other
    exact ⟨_,by dsimp only; rw [ran,Option.map_some]⟩
  | _ => exact ⟨_,rfl⟩

-- The listeners that hold a refbuf.
def holders (mount : Nat) (clients : List (Listener δ)) (a : Nat) : Nat :=
  clients.countP fun c => c.refbuf = .queue mount a

theorem queueRefs_count {clients : List (Listener δ)} (home : ∀ c ∈ clients, c.refbuf.Home mount) (a : Nat) :
    (queueRefs clients).count a = holders mount clients a := by
  induction clients with
  | nil => rfl
  | cons c rest ih =>
    have here := home c List.mem_cons_self
    rw [queueRefs_cons,List.count_append,ih fun d member => home d (List.mem_cons_of_mem _ member),holders,holders,
      List.countP_cons,Nat.add_comm]
    congr 1
    cases buf : c.refbuf with
    | null => rfl
    | own _ => rfl
    | queue m b =>
      rw [here m b buf]
      by_cases same : b = a <;> simp [ClientBuf.refs,same]

-- The stream queue of a source at a loop boundary: the refbufs up to the burst point and
-- those from it on, with the references to each.
structure StreamQueue (q : Queue α) (clients : List (Listener δ)) (before window : List Nat) : Prop where
  chain : Chain q.next q.streamData (before++window)
  acyclic : (before++window).Nodup
  tail : q.streamDataTail = (before++window).getLast?
  burst : q.burstPoint = window.head?
  listed : ∀ c ∈ clients, ∀ m a, c.refbuf = .queue m a → m = q.mount ∧ a ∈ before++window
  counted : ∀ a ∈ before++window, ∃ buf, q.heap a =
    some ⟨1+(if a ∈ window then 1 else 0)+holders q.mount clients a+q.possibleStart.countP
      (fun start => start.2 = a),buf⟩
  freed : ∀ a, a ∉ before++window → q.heap a = none

-- What the two counters of the queue are there to say.
structure Measured (q : Queue α) (before window : List Nat) : Prop where
  size : q.queueSize.toNat = q.total (before++window)
  offset : q.burstOffset.toNat = q.total window

theorem Source.Inv.streamQueue {s : Source α δ} (inv : s.Inv plugins before window) :
    StreamQueue s.queue (s.clientTree++s.pendingTree) before window where
  chain := inv.queue.chain
  acyclic := inv.queue.nodup
  tail := inv.queue.tail
  burst := inv.queue.burst
  listed := fun c member m a queued => by
    refine ⟨(inv.order c member).1.home m a queued,
      inv.queue.inside a (List.mem_append_left _ (mem_queueRefs member ?_))⟩
    rw [queued]
    exact List.mem_singleton_self a
  counted := fun a member => by
    obtain ⟨cell,found,count⟩ := inv.queue.counted.alive (inv.queue.owed_pos member)
    refine ⟨cell.item,?_⟩
    have listeners := queueRefs_count (fun c listed => (inv.order c listed).1.home) a
    have codecs : (s.queue.possibleStart.map (·.2)).count a = s.queue.possibleStart.countP
      (fun start => start.2 = a) := by
      rw [List.count_eq_countP,List.countP_map]
      exact List.countP_congr fun start _ => by simp
    have burst : window.count a = if a ∈ window then 1 else 0 :=
      (inv.queue.nodup.sublist (List.sublist_append_right _ _)).count
    rw [Queue.owed,inv.queue.nodup.count,if_pos member,burst,listeners,codecs] at count
    rw [found,←count]
  freed := fun a outside => inv.queue.counted.gone (inv.queue.owed_zero outside)

-- The stream queue of a source with both counters right.
def Source.Exact (s : Source α δ) : Prop :=
  ∃ before window, StreamQueue s.queue (s.clientTree++s.pendingTree) before window ∧ Measured s.queue before window

theorem Source.Inv.exact_iff {s : Source α δ} (inv : s.Inv plugins before window) : s.Exact ↔ s.queue.bytes < 2^32 := by
  constructor
  · rintro ⟨front,back,queue,measured⟩
    have same : front++back = before++window := queue.chain.unique inv.queue.chain
    rw [inv.queue.bytes,←same,←measured.size]
    exact s.queue.queueSize.toNat_lt
  · intro small
    rw [inv.queue.bytes] at small
    have part : s.queue.total window ≤ s.queue.total (before++window) := by
      rw [total_append]
      exact Nat.le_add_left _ _
    refine ⟨before,window,inv.streamQueue,?_,?_⟩
    · rw [inv.queue.size,UInt32.toNat_ofNat',Nat.mod_eq_of_lt small]
    · rw [inv.queue.offset,UInt32.toNat_ofNat',Nat.mod_eq_of_lt (Nat.lt_of_le_of_lt part small)]

-- The queue has room in its counters for what the plugin returns.
def Event.fits (s : Server α δ) : Event α δ → Bool
  | .produce i _ page => decide ((s i).queue.bytes+pageBytes page < 2^32)
  | _ => true

def Server.fitted (plugins : Nat → Plugin α δ) (s : Server α δ) (event : Event α δ) (t : Server α δ) : Prop :=
  s.step plugins event t ∧ event.fits s = true

theorem produce_bytes {s t : Server α δ} (inv : s.Inv plugins) (step : s.step plugins (.produce i zap page) t) :
    (t i).queue.bytes = (s i).queue.bytes+pageBytes page := by
  unfold Server.step Server.next at step
  split at step
  · rename_i enabled
    obtain ⟨_,_,_,own⟩ := inv i
    obtain ⟨u,_,_,ran,next,_,total⟩ := produce_inv own (by rintro idle; simp [Event.enabled,idle] at enabled) zap page
    dsimp only at step
    rw [ran] at step
    cases Option.some.inj step
    have here : (s.set i u) i = u := if_pos rfl
    rw [here,next.queue.bytes,total,own.queue.bytes]
  · cases step

theorem step_exact {s t : Server α δ} (inv : s.Inv plugins) (small : ∀ i, (s i).queue.bytes < 2^32)
    (step : s.step plugins event t) :
    (∀ i, (t i).queue.bytes < 2^32) ↔ event.fits s = true := by
  have goes : ∀ i, (t i).queue.bytes ≤ (s i).queue.bytes+event.bytes i := fun i => by
    obtain ⟨_,_,_,next,less⟩ := step_goes inv step i
    exact next.queue.bytes ▸ less
  cases event with
  | produce j zap page =>
    have grown := produce_bytes inv step
    constructor
    · intro all
      exact decide_eq_true (grown ▸ all j)
    · intro fits i
      by_cases here : i = j
      · subst here
        exact grown ▸ of_decide_eq_true fits
      · have kept := goes i
        rw [Event.bytes,if_neg here] at kept
        exact Nat.lt_of_le_of_lt kept (small i)
  | _ => exact ⟨fun _ => rfl,fun _ i => Nat.lt_of_le_of_lt (goes i) (small i)⟩

-- The invariant of the runs whose pages fit.
def Server.Small (plugins : Nat → Plugin α δ) (s : Server α δ) : Prop := s.Inv plugins ∧ ∀ i, (s i).queue.bytes < 2^32

theorem step_small {s t : Server α δ} (inv : s.Small plugins) (step : s.fitted plugins event t) : t.Small plugins :=
  ⟨preserves_inv inv.1 step.1,(step_exact inv.1 inv.2 step.1).mpr step.2⟩

theorem fitted_small {s : Server α δ} (path : Transition.Runs (Server.fitted plugins) Server.initial events s) :
    s.Small plugins :=
  path.preserves step_small ⟨initial_inv plugins,fun _ => Nat.zero_lt_succ _⟩

theorem exact_all {s : Server α δ} (inv : s.Inv plugins) : (∀ i, (s i).Exact) ↔ ∀ i, (s i).queue.bytes < 2^32 :=
  forall_congr' fun i => by
    obtain ⟨_,_,_,own⟩ := inv i
    exact own.exact_iff

-- The stream queue of every source in every run, and no step that stops on a freed refbuf.
-- The counters are exact as long as every page fits them.
theorem runs_stream_queue (path : Transition.Runs (Server.step plugins) Server.initial events s) :
    (∀ i, (s i).queue.mount = i ∧
      ∃ before window, StreamQueue (s i).queue ((s i).clientTree++(s i).pendingTree) before window) ∧
    (Total plugins → ∀ event, event.enabled s = true → ∃ t, s.step plugins event t) ∧
    (Transition.Runs (Server.fitted plugins) Server.initial events s → (∀ i, (s i).Exact) ∧
      ∀ event t, s.step plugins event t → ((∀ i, (t i).Exact) ↔ event.fits s = true)) := by
  have inv := runs_inv path (initial_inv plugins)
  refine ⟨fun i => ?_,fun total event enabled => step_total total inv event enabled,fun fitted => ?_⟩
  · obtain ⟨mount,before,window,own⟩ := inv i
    exact ⟨mount,before,window,own.streamQueue⟩
  · obtain ⟨_,small⟩ := fitted_small fitted
    refine ⟨(exact_all inv).mpr small,fun event t step => ?_⟩
    rw [exact_all (preserves_inv inv step)]
    exact step_exact inv small step

def copyPlugin : Plugin α δ :=
  { type := .generic, writeBufToClient := formatGenericWriteToClient, handsOver := fun _ => false
    opens := fun _ given => absurd given Bool.false_ne_true }

-- One listener of a source that goes through three pages; its head has been trimmed.
def oneListener : List (Event Unit Unit) :=
  let turn := fun _ _ => ⟨false,some ([72,10],()),fun _ => .sent 2⟩
  let page := fun byte => some ⟨[byte,byte,byte],none,true,none⟩
  [.start 0 ⟨0,true,true,none,false,4,100,-1⟩,.join 0 7 (),.produce 0 false (page 1),.pass 0 turn
  ,.produce 0 false (page 2),.pass 0 turn,.produce 0 false (page 3),.pass 0 turn]

theorem runs_stream_queue_one_listener : ∃ s : Server Unit Unit,
    ((s 0).queue.streamData,(s 0).clientTree.map (·.refbuf)) = (some 2,[.queue 0 2]) ∧
    (s 0).Exact ∧ ∃ t, s.step (fun _ => copyPlugin) (.produce 0 false none) t := by
  have ran : (Transition.runFrom (Transition.guarded (fun s event => Event.fits s event = true)
      (Server.next fun _ => copyPlugin)) Server.initial oneListener).map (fun s =>
      ((s 0).queue.streamData,(s 0).clientTree.map (·.refbuf),Event.enabled s (.produce 0 false none))) =
      some (some 2,[.queue 0 2],true) := by decide +kernel
  obtain ⟨s,ran,same⟩ := Option.map_eq_some_iff.mp ran
  have path : Transition.Runs (Server.fitted fun _ => copyPlugin) Server.initial oneListener s :=
    Transition.runFrom_sound Transition.guarded_sound ran
  obtain ⟨_,steps,counters⟩ := runs_stream_queue (path.imp And.left)
  simp only [Prod.mk.injEq] at same
  exact ⟨s,by simp only [same],(counters path).1 0,steps (fun _ _ _ _ _ => ⟨_,rfl⟩) _ same.2.2⟩

-- A source without listeners whose queue has `n` refbufs of 4096 bytes in its burst.
structure Filling (s : Server Unit Unit) (n : Nat) : Prop where
  inv : s.Inv fun _ => copyPlugin
  wide : (s 0).queue.burstSize = 4294967295
  window : ∃ cells, (s 0).queue.Inv [] [] cells
  bytes : (s 0).queue.bytes = n*4096
  alone : (s 0).clientTree = [] ∧ (s 0).pendingTree = []
  state : (s 0).phase = .top ∧ (s 0).running = true ∧ (s 0).onDemand = false

def fullPage : Page Unit := ⟨List.replicate 4096 0,none,true,none⟩

theorem pass_quiet (plugins : Nat → Plugin α δ) {s : Source α δ} (alone : s.clientTree = [] ∧ s.pendingTree = [])
    (inv : s.queue.Inv refs [] (a::window))
    (env : Nat → Nat → Turn δ) :
    ∃ t, s.pass plugins env = some t ∧ t.queue = s.queue ∧ t.clientTree = [] ∧ t.pendingTree = [] ∧ t.phase = .top ∧
      t.onDemand = s.onDemand ∧ (s.running = true → s.onDemand = false → t.running = true) := by
  have head : s.queue.streamData.isSome = true := by
    rw [show s.queue.streamData = some a from inv.chain.head]
    rfl
  rw [Source.pass,alone.1,sendAll,Option.bind_some,alone.2,acceptPending,Option.bind_some,settle]
  dsimp only
  rw [if_pos head,inv.trim_wide,Option.map_some]
  refine ⟨_,rfl,rfl,rfl,rfl,rfl,rfl,fun running steady => ?_⟩
  simp [running,steady]

theorem Filling.more {s : Server Unit Unit} (filling : Filling s n) :
    ∃ events t, Transition.Runs (Server.step fun _ => copyPlugin) s events t ∧ Filling t (n+1) := by
  obtain ⟨top,running,steady⟩ := filling.state
  obtain ⟨cells,own⟩ := filling.window
  obtain ⟨q,new,made,queue,wide⟩ := own.produce_wide filling.wide fullPage.data
  have done : (s 0).produce false (some fullPage) =
      some {s 0 with queue := q,removeFromQ := decide (q.queueSize > q.queueSizeLimit),phase := .mid} := by
    rw [Source.produce,show fullPage = ⟨fullPage.data,none,true,none⟩ from rfl,made,Option.map_some]
  obtain ⟨middle,first⟩ : ∃ middle, middle = s.set 0 {s 0 with
    queue := q,removeFromQ := decide (q.queueSize > q.queueSizeLimit),phase := .mid} := ⟨_,rfl⟩
  have one : s.step (fun _ => copyPlugin) (.produce 0 false (some fullPage)) middle := by
    rw [Server.step,Server.next,if_pos (by simp [Event.enabled,top,running]),done,Option.map_some,first]
  have inv := preserves_inv filling.inv one
  have bytes := produce_bytes filling.inv one
  have here : middle 0 = {s 0 with
    queue := q,removeFromQ := decide (q.queueSize > q.queueSizeLimit),phase := .mid} := first ▸ if_pos rfl
  obtain ⟨b,window,split⟩ : ∃ b window, cells++[new] = b::window := by
    cases cells with
    | nil => exact ⟨_,_,rfl⟩
    | cons b cells => exact ⟨_,_,rfl⟩
  have queued : (middle 0).queue.Inv [] [] (b::window) := by
    rw [here,←split]
    exact queue
  obtain ⟨u,passed,same,clients,waiting,phase,onDemand,goes⟩ := pass_quiet (fun _ => copyPlugin)
    (by rw [here]; exact filling.alone) queued fun _ _ => ⟨false,none,fun _ => .sent 0⟩
  have two : middle.step (fun _ => copyPlugin) (.pass 0 fun _ _ => ⟨false,none,fun _ => .sent 0⟩) (middle.set 0 u) := by
    rw [Server.step,Server.next,if_pos (by simp [Event.enabled,here]),passed,Option.map_some]
  have last : (middle.set 0 u) 0 = u := if_pos rfl
  refine ⟨_,_,.snoc (.snoc .nil one) two,preserves_inv inv two,?_,?_,?_,?_,?_⟩
  · rw [last,same,here]
    exact wide
  · rw [last,same]
    exact ⟨_,queued⟩
  · rw [last,same,bytes,filling.bytes,pageBytes,show fullPage.data.length = 4096 from List.length_replicate]
    exact (Nat.succ_mul n 4096).symm
  · rw [last]
    exact ⟨clients,waiting⟩
  · rw [last]
    refine ⟨phase,goes ?_ ?_,onDemand.trans ?_⟩ <;> simp [here,running,steady]

theorem filled (n : Nat) :
    ∃ events s, Transition.Runs (Server.step fun _ => copyPlugin) Server.initial events s ∧ Filling s n := by
  induction n with
  | zero =>
    let widest : Start := ⟨0,true,true,none,false,4294967295,524288,-1⟩
    have started : (Server.initial : Server Unit Unit).step (fun _ => copyPlugin) (.start 0 widest)
        (Server.initial.set 0 ((Source.reserve 0).start widest)) := rfl
    have empty := empty_inv (α := Unit) 0
    exact ⟨_,_,.snoc .nil started,preserves_inv (initial_inv _) started,rfl,⟨[],⟨empty.toShape.reheap (fun _ _ => rfl)
      (fun _ _ => rfl) rfl rfl rfl rfl rfl,empty.counted,empty.inside,empty.fresh⟩⟩,rfl,⟨rfl,rfl⟩,rfl,rfl,rfl⟩
  | succ n ih =>
    obtain ⟨earlier,s,path,filling⟩ := ih
    obtain ⟨later,t,more,filled⟩ := filling.more
    exact ⟨_,t,path.append more,filled⟩

-- 4 GiB in the burst, and both counters are back at 0.
theorem stream_queue_wraps : ∃ events, ∃ s : Server Unit Unit,
    Transition.Runs (Server.step fun _ => copyPlugin) Server.initial events s ∧
    (s 0).queue.bytes = 2^32 ∧ (s 0).queue.queueSize = 0 ∧ (s 0).queue.burstOffset = 0 ∧ ¬(s 0).Exact := by
  obtain ⟨events,s,path,filling⟩ := filled (2^20)
  have bytes : (s 0).queue.bytes = 2^32 := filling.bytes
  obtain ⟨_,_,_,own⟩ := filling.inv 0
  obtain ⟨cells,queue⟩ := filling.window
  have total : (s 0).queue.total cells = 2^32 := queue.bytes.symm.trans bytes
  refine ⟨events,s,path,bytes,?_,?_,fun exact => ?_⟩
  · rw [queue.size,List.nil_append,total]
    rfl
  · rw [queue.offset,total]
    rfl
  · have small := own.exact_iff.mp exact
    rw [bytes] at small
    exact Nat.lt_irrefl _ small

end Icecast
