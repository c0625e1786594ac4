import Mathlib.Data.List.Count
import Icecast.Lib.Transition

namespace Icecast.YpEntries
open Transition

-- The function yp->process points to.
inductive Process where
  | doYpAdd
  | doYpTouch
  | doYpRemove
deriving DecidableEq

-- ypdata_t.
structure YpData where
  mount : String
  remove : Bool
  release : Bool
  sid : Option String
  next_update : Nat
  touch_interval : Nat
  process : Process
deriving DecidableEq

structure YpServer where
  touch_interval : Nat
  mounts : List YpData
  pending_mounts : List YpData
deriving DecidableEq

-- What comes of curl_easy_perform: the headers YPResponse, SID and TouchFreq, or those of them that came
-- before a curl error.
inductive Answer where
  | unreachable (sid : Option String) (touch : Option Nat)
  | response (cmd_ok : Bool) (sid : Option String) (touch : Option Nat)
deriving DecidableEq

def findYpMount (mounts : List YpData) (mount : String) : Option YpData := mounts.find? fun yp => yp.mount = mount

-- handle_returned_header.
def handleReturnedHeader (sid : Option String) (touch : Option Nat) (yp : YpData) : YpData :=
  let yp := if yp.process = .doYpAdd then {yp with sid := sid.orElse fun _ => yp.sid} else yp
  match touch with
  | some secs => {yp with touch_interval := max secs 30}
  | none => yp

def sendToYp (now : Nat) (answer : Answer) (yp : YpData) : Int × YpData :=
  match answer with
  | .unreachable sid touch => (-2,{handleReturnedHeader sid touch yp with process := .doYpAdd,next_update := now+1200})
  | .response cmd_ok sid touch =>
    let yp := handleReturnedHeader sid touch yp
    if cmd_ok then (0,yp)
    else
      let next_update := match yp.process with
        | .doYpAdd => now+7200
        | .doYpTouch => if yp.touch_interval < 1200 then now+1200 else now+yp.touch_interval
        | .doYpRemove => yp.next_update
      (-1,{yp with process := .doYpAdd,sid := none,next_update := next_update})

def doYpRemove (now : Nat) (answer : Answer) (yp : YpData) : Int × YpData :=
  let sent := if yp.sid.isSome then sendToYp now answer yp else (0,yp)
  (sent.1,{sent.2 with sid := none,remove := true,process := .doYpAdd})

def doYpAdd (now : Nat) (answer : Answer) (yp : YpData) : Int × YpData :=
  let sent := sendToYp now answer yp
  (sent.1,if sent.1 = 0 then {sent.2 with process := .doYpTouch,next_update := now+5} else sent.2)

def doYpTouch (now : Nat) (answer : Answer) (yp : YpData) : Int × YpData :=
  let sent := sendToYp now answer yp
  if sent.1 = 0 then (0,{sent.2 with next_update := now+sent.2.touch_interval}) else (-1,sent.2)

def runProcess (now : Nat) (answer : Answer) (yp : YpData) : Int × YpData :=
  match yp.process with
  | .doYpAdd => doYpAdd now answer yp
  | .doYpTouch => doYpTouch now answer yp
  | .doYpRemove => doYpRemove now answer yp

-- The first half of process_ypdata, up to the call through yp->process.
def prepare (yp : YpData) : YpData := if yp.release then {yp with process := .doYpRemove,next_update := 0} else yp

def skip (yp : YpData) : YpData := {yp with process := .doYpAdd,next_update := yp.next_update+900}

def createYpEntry (mount : String) (now touch_interval : Nat) :
    YpData := ⟨mount,false,false,none,now+60,touch_interval,.doYpAdd⟩

-- yp_add at one server, and whether it set yp_update.
def ypAddServer (mount : String) (now : Nat) (server : YpServer) : YpServer :=
  match findYpMount server.mounts mount with
  | none => {server with pending_mounts := createYpEntry mount now server.touch_interval::server.pending_mounts}
  | some _ => server

-- yp_remove at one server: every entry of the mount that is neither released nor marked is released.
def ypRemoveServer (mount : String) (server : YpServer) : YpServer :=
  {server with mounts := server.mounts.map fun yp =>
    if yp.mount = mount ∧ ¬(yp.release || yp.remove) then {yp with release := true,next_update := 0} else yp}

def addPendingYp (server : YpServer) : YpServer :=
  {server with mounts := server.pending_mounts++server.mounts,pending_mounts := []}

def deleteMarkedYp (server : YpServer) : YpServer := {server with mounts := server.mounts.filter fun yp => !yp.remove}

-- Where the update thread is: asleep, at an entry of a server with the state of yp_process_server,
-- waiting for the answer to a request, at its test of yp_update, or about to take the write lock.
inductive Pc where
  | sleeping
  | processing (server entry : Nat) (state : Int)
  | asked (server entry : Nat)
  | testing
  | updating
deriving DecidableEq

-- `wanted` records the mounts whose last call was yp_add.
structure State where
  servers : List YpServer
  yp_update : Bool
  pc : Pc
  wanted : List String
deriving DecidableEq

def start (touch : List Nat) : State := ⟨touch.map fun t => ⟨t,[],[]⟩,false,.sleeping,[]⟩

inductive Event where
  | ypAdd (mount : String) (now : Nat)
  | ypRemove (mount : String)
  | wake
  | visit (now : Nat)
  | answered (now : Nat) (answer : Answer)
  | test
  | update
deriving DecidableEq

def modifyEntry (servers : List YpServer) (j k : Nat) (f : YpData → YpData) : List YpServer :=
  servers.modify j fun server => {server with mounts := server.mounts.modify k f}

def entryAt (servers : List YpServer) (j k : Nat) : Option YpData := (servers[j]?).bind fun server => server.mounts[k]?

def next (s : State) : Event → Option State
  | .ypAdd mount now => some {s with
      servers := s.servers.map (ypAddServer mount now)
      yp_update := s.yp_update || s.servers.any fun server => (findYpMount server.mounts mount).isNone
      wanted := mount::s.wanted}
  | .ypRemove mount => some {s with servers := s.servers.map (ypRemoveServer mount),wanted := s.wanted.filter (· ≠ mount)}
  | .wake => if s.pc = .sleeping then some {s with pc := .processing 0 0 0} else none
  | .visit now =>
    match s.pc with
    | .processing j k state =>
      if j < s.servers.length then
        match entryAt s.servers j k with
        | none => some {s with pc := .processing (j+1) 0 0}
        | some yp =>
          if state = -2 then some {s with servers := modifyEntry s.servers j k skip,pc := .processing j (k+1) state}
          else if now < yp.next_update then some {s with pc := .processing j (k+1) 0}
          else some {s with servers := modifyEntry s.servers j k prepare,pc := .asked j k}
      else some {s with pc := .testing}
    | _ => none
  | .answered now answer =>
    match s.pc with
    | .asked j k => (entryAt s.servers j k).map fun yp => {s with
        servers := modifyEntry s.servers j k fun yp => (runProcess now answer yp).2
        yp_update := s.yp_update || decide (yp.process = .doYpRemove)
        pc := .processing j (k+1) (runProcess now answer yp).1}
    | _ => none
  | .test => if s.pc = .testing then some {s with pc := if s.yp_update then .updating else .sleeping} else none
  | .update =>
    if s.pc = .updating then
      some {s with servers := s.servers.map fun server => deleteMarkedYp (addPendingYp server),yp_update := false,pc := .sleeping}
    else none

def Step (s : State) (event : Event) (t : State) : Prop := next s event = some t

-- An entry of the mount that is neither released nor marked for removal.
def live (mount : String) (yp : YpData) : Bool := decide (yp.mount = mount) && !yp.release && !yp.remove

def entries (server : YpServer) : List YpData := server.mounts++server.pending_mounts

-- yp_add meets no entry of its mount among the pending ones alone, and among the active ones not only
-- old ones; yp_remove meets none among the pending ones.
def Fair (s : State) : Event → Prop
  | .ypAdd mount _ => ∀ server ∈ s.servers,
      ((∀ yp ∈ server.mounts, yp.mount ≠ mount) → ∀ yp ∈ server.pending_mounts, yp.mount ≠ mount) ∧
      ((∃ yp ∈ server.mounts, yp.mount = mount) → ∃ yp ∈ entries server, live mount yp = true)
  | .ypRemove mount => ∀ server ∈ s.servers, ∀ yp ∈ server.pending_mounts, yp.mount ≠ mount
  | _ => True

instance decideFair (s : State) : (event : Event) → Decidable (Fair s event)
  | .ypAdd mount _ => inferInstanceAs (Decidable (∀ server ∈ s.servers,
      ((∀ yp ∈ server.mounts, yp.mount ≠ mount) → ∀ yp ∈ server.pending_mounts, yp.mount ≠ mount) ∧
      ((∃ yp ∈ server.mounts, yp.mount = mount) → ∃ yp ∈ entries server, live mount yp = true)))
  | .ypRemove mount => inferInstanceAs
    (Decidable (∀ server ∈ s.servers, ∀ yp ∈ server.pending_mounts, yp.mount ≠ mount))
  | .wake | .visit _ | .answered _ _ | .test | .update => isTrue trivial

-- Only a released entry is on its way out.
def Sound (yp : YpData) : Prop := yp.remove = true ∨ yp.process = .doYpRemove → yp.release = true

-- What the update thread does to an entry leaves it the mount and the release mark it has.
structure Kept (f : YpData → YpData) : Prop where
  mount : ∀ yp, (f yp).mount = yp.mount
  release : ∀ yp, (f yp).release = yp.release
  sound : ∀ yp, Sound yp → Sound (f yp)

theorem Kept.live (kept : Kept f) (sound : Sound yp) (mount : String) : live mount (f yp) = live mount yp := by
  have after := kept.sound yp sound
  unfold YpEntries.live
  rw [kept.mount,kept.release]
  cases released : yp.release with
  | true => simp
  | false =>
    have stays : yp.remove = false := by
      by_contra marked
      have wrong := sound (.inl (eq_true_of_ne_false marked))
      exact absurd (wrong.symm.trans released) (by decide)
    have stays' : (f yp).remove = false := by
      by_contra marked
      have wrong := after (.inl (eq_true_of_ne_false marked))
      rw [kept.release,released] at wrong
      cases wrong
    rw [stays,stays']

theorem skip_kept : Kept skip := by
  refine ⟨fun _ => rfl,fun _ => rfl,?_⟩
  rintro yp sound (marked | bad)
  · exact sound (.inl marked)
  · cases bad

theorem prepare_kept : Kept prepare := by
  refine ⟨?_,?_,?_⟩
  · intro yp
    unfold prepare
    split <;> rfl
  · intro yp
    unfold prepare
    split <;> rfl
  · intro yp sound
    unfold prepare
    split
    · rename_i released
      exact fun _ => released
    · exact sound

theorem handleReturnedHeader_kept (sid : Option String) (touch : Option Nat) (yp : YpData) :
    (handleReturnedHeader sid touch yp).mount = yp.mount ∧ (handleReturnedHeader sid touch yp).release = yp.release ∧
    (handleReturnedHeader sid touch yp).remove = yp.remove ∧
    (handleReturnedHeader sid touch yp).process = yp.process := by
  unfold handleReturnedHeader
  cases touch <;> (dsimp only; split <;> exact ⟨rfl,rfl,rfl,rfl⟩)

theorem sendToYp_kept (now : Nat) (answer : Answer) (yp : YpData) : (sendToYp now answer yp).2.mount = yp.mount ∧
    (sendToYp now answer yp).2.release = yp.release ∧ (sendToYp now answer yp).2.remove = yp.remove ∧
    ((sendToYp now answer yp).2.process = .doYpRemove → yp.process = .doYpRemove) := by
  cases answer with
  | unreachable sid touch =>
    obtain ⟨mount,release,remove,_⟩ := handleReturnedHeader_kept sid touch yp
    exact ⟨mount,release,remove,nofun⟩
  | response cmd_ok sid touch =>
    obtain ⟨mount,release,remove,process⟩ := handleReturnedHeader_kept sid touch yp
    unfold sendToYp
    cases cmd_ok with
    | true => exact ⟨mount,release,remove,fun same => process.symm.trans same⟩
    | false => exact ⟨mount,release,remove,nofun⟩

theorem runProcess_kept (now : Nat) (answer : Answer) : Kept fun yp => (runProcess now answer yp).2 := by
  have sent := sendToYp_kept now answer
  refine ⟨?_,?_,?_⟩
  · intro yp
    unfold runProcess doYpAdd doYpTouch doYpRemove
    split
    · dsimp only
      split <;> exact (sent yp).1
    · dsimp only
      split <;> exact (sent yp).1
    · dsimp only
      split
      · exact (sent yp).1
      · rfl
  · intro yp
    unfold runProcess doYpAdd doYpTouch doYpRemove
    split
    · dsimp only
      split <;> exact (sent yp).2.1
    · dsimp only
      split <;> exact (sent yp).2.1
    · dsimp only
      split
      · exact (sent yp).2.1
      · rfl
  · intro yp sound
    obtain ⟨_,release,remove,process⟩ := sent yp
    have through : Sound (sendToYp now answer yp).2 := by
      rintro (marked | bad)
      · exact release.trans (sound (.inl (remove.symm.trans marked)))
      · exact release.trans (sound (.inr (process bad)))
    unfold runProcess doYpAdd doYpTouch doYpRemove
    split
    · dsimp only
      split
      · rintro (marked | bad)
        · exact through (.inl marked)
        · cases bad
      · exact through
    · dsimp only
      split
      · exact through
      · exact through
    · rename_i removing
      have released := sound (.inr removing)
      dsimp only
      split
      · exact fun _ => release.trans released
      · exact fun _ => released

structure Good (wanted : List String) (server : YpServer) : Prop where
  count : ∀ mount, (entries server).countP (live mount) = if mount ∈ wanted then 1 else 0
  pending : ∀ yp ∈ server.pending_mounts, yp.release = false ∧ Sound yp
  sound : ∀ yp ∈ server.mounts, Sound yp

def Inv (s : State) : Prop := ∀ server ∈ s.servers, Good s.wanted server

theorem countP_modify {xs : List α} (p : α → Bool) (f : α → α) (same : ∀ x ∈ xs, p (f x) = p x) (k : Nat) :
    (xs.modify k f).countP p = xs.countP p := by
  induction xs generalizing k with
  | nil => simp
  | cons x xs ih =>
    cases k with
    | zero => simp [List.countP_cons,same x List.mem_cons_self]
    | succ k =>
      rw [List.modify_succ_cons,List.countP_cons,List.countP_cons,ih fun y member =>
        same y (List.mem_cons_of_mem _ member)]

theorem mem_modify {xs : List α} {f : α → α} {k : Nat} (member : y ∈ xs.modify k f) : y ∈ xs ∨ ∃ x ∈ xs, y = f x := by
  induction xs generalizing k with
  | nil => simp at member
  | cons x xs ih =>
    cases k with
    | zero =>
      rw [List.modify_zero_cons] at member
      rcases List.mem_cons.mp member with same | later
      · exact .inr ⟨x,List.mem_cons_self,same⟩
      · exact .inl (List.mem_cons_of_mem _ later)
    | succ k =>
      rw [List.modify_succ_cons] at member
      rcases List.mem_cons.mp member with rfl | later
      · exact .inl List.mem_cons_self
      · rcases ih later with old | ⟨z,zmem,same⟩
        · exact .inl (List.mem_cons_of_mem _ old)
        · exact .inr ⟨z,List.mem_cons_of_mem _ zmem,same⟩

theorem Good.modify (good : Good wanted server) (kept : Kept f) (k : Nat) :
    Good wanted {server with mounts := server.mounts.modify k f} := by
  refine ⟨?_,good.pending,?_⟩
  · intro mount
    have before := good.count mount
    unfold entries at before ⊢
    rw [List.countP_append] at before ⊢
    rw [countP_modify (live mount) f fun yp member => kept.live (good.sound yp member) mount]
    exact before
  · intro yp member
    rcases mem_modify member with old | ⟨x,xmem,rfl⟩
    · exact good.sound yp old
    · exact kept.sound x (good.sound x xmem)

theorem Inv.modifyEntry (inv : Inv s) (kept : Kept f) (j k : Nat) :
    ∀ server ∈ modifyEntry s.servers j k f, Good s.wanted server := by
  intro server member
  rcases mem_modify member with old | ⟨x,xmem,rfl⟩
  · exact inv server old
  · exact (inv x xmem).modify kept k

theorem live_mount (h : live mount yp = true) : yp.mount = mount := by
  simp only [live,Bool.and_eq_true,decide_eq_true_eq] at h
  exact h.1.1

theorem wanted_other {wanted : List String} (other : mount' ≠ mount) :
    (if mount' ∈ mount::wanted then 1 else 0) = if mount' ∈ wanted then 1 else 0 := by simp [other]

theorem Good.add (good : Good wanted server) (now : Nat)
    (alone : (∀ yp ∈ server.mounts, yp.mount ≠ mount) → ∀ yp ∈ server.pending_mounts, yp.mount ≠ mount)
    (fresh : (∃ yp ∈ server.mounts, yp.mount = mount) → ∃ yp ∈ entries server, live mount yp = true) :
    Good (mount::wanted) (ypAddServer mount now server) := by
  unfold ypAddServer
  cases found : findYpMount server.mounts mount with
  | some yp =>
    obtain ⟨x,xmem,alive⟩ := fresh ⟨yp,List.mem_of_find?_eq_some found,by simpa using List.find?_some found⟩
    refine ⟨?_,good.pending,good.sound⟩
    intro mount'
    have count := good.count mount'
    by_cases same : mount' = mount
    · subst same
      have filled : 0 < (entries server).countP (live mount') := List.countP_pos_iff.mpr ⟨x,xmem,alive⟩
      rw [count] at filled ⊢
      split at filled
      · simp [*]
      · cases filled
    · rw [count,wanted_other same]
  | none =>
    have absent : ∀ yp ∈ server.mounts, yp.mount ≠ mount := by simpa using List.find?_eq_none.mp found
    have nowhere : ∀ yp ∈ entries server, ¬live mount yp = true := by
      intro yp member alive
      rcases List.mem_append.mp member with active | pending
      · exact absent yp active (live_mount alive)
      · exact alone absent yp pending (live_mount alive)
    refine ⟨?_,?_,good.sound⟩
    · intro mount'
      have moved : (entries {server with pending_mounts := createYpEntry mount now server.touch_interval::server.pending_mounts}).Perm
          (createYpEntry mount now server.touch_interval::entries server) := List.perm_middle
      rw [moved.countP_eq,List.countP_cons]
      by_cases same : mount' = mount
      · subst same
        rw [List.countP_eq_zero.mpr nowhere]
        simp [live,createYpEntry]
      · have other : live mount' (createYpEntry mount now server.touch_interval) = false := by
          simp [live,createYpEntry,Ne.symm same]
        rw [other,good.count mount',wanted_other same,if_neg Bool.false_ne_true,Nat.add_zero]
    · intro yp member
      rcases List.mem_cons.mp member with rfl | old
      · exact ⟨rfl,nofun⟩
      · exact good.pending yp old

theorem Good.remove (good : Good wanted server) (settled : ∀ yp ∈ server.pending_mounts, yp.mount ≠ mount) :
    Good (wanted.filter (· ≠ mount)) (ypRemoveServer mount server) := by
  unfold ypRemoveServer
  refine ⟨?_,good.pending,?_⟩
  · intro mount'
    have count := good.count mount'
    unfold entries at count ⊢
    rw [List.countP_append] at count ⊢
    rw [List.countP_map]
    by_cases same : mount' = mount
    · subst same
      have vacant : server.pending_mounts.countP (live mount') = 0 :=
        List.countP_eq_zero.mpr fun yp member alive => settled yp member (live_mount alive)
      have released : server.mounts.countP (live mount' ∘ fun yp =>
          if yp.mount = mount' ∧ ¬(yp.release || yp.remove) then
            {yp with release := true,next_update := 0} else yp) = 0 := by
        rw [List.countP_eq_zero]
        intro yp _
        dsimp only [Function.comp]
        split
        · simp [live]
        · rename_i old
          intro alive
          simp only [live,Bool.and_eq_true,decide_eq_true_eq,Bool.not_eq_true'] at alive
          exact old ⟨alive.1.1,by simp [alive.1.2,alive.2]⟩
      rw [vacant,released]
      simp
    · have untouched : server.mounts.countP (live mount' ∘ fun yp =>
          if yp.mount = mount ∧ ¬(yp.release || yp.remove) then {yp with release := true,next_update := 0} else yp) =
          server.mounts.countP (live mount') := by
        refine List.countP_congr fun yp _ => ?_
        dsimp only [Function.comp]
        split
        · rename_i here
          simp [live,here.1,Ne.symm same]
        · rfl
      rw [untouched,count]
      simp [same]
  · intro yp member
    obtain ⟨x,xmem,rfl⟩ := List.mem_map.mp member
    split
    · exact fun _ => rfl
    · exact good.sound x xmem

theorem Good.update (good : Good wanted server) : Good wanted (deleteMarkedYp (addPendingYp server)) := by
  refine ⟨?_,by simp [deleteMarkedYp,addPendingYp],?_⟩
  · intro mount
    rw [←good.count mount]
    have stays : ∀ yp : YpData, (live mount yp && !yp.remove) = live mount yp := by
      intro yp
      unfold live
      cases yp.remove <;> simp
    simp only [entries,deleteMarkedYp,addPendingYp,List.append_nil,List.countP_filter]
    rw [List.countP_congr (fun yp _ => by rw [stays yp] : ∀ yp ∈ server.pending_mounts++server.mounts,
      (live mount yp && !yp.remove) = true ↔ live mount yp = true)]
    exact (List.perm_append_comm).countP_eq _
  · intro yp member
    rcases List.mem_append.mp (List.mem_of_mem_filter member) with pending | active
    · exact (good.pending yp pending).2
    · exact good.sound yp active

theorem Inv.step (inv : Inv s) (fair : Fair s event) (step : Step s event t) : Inv t := by
  unfold Step next at step
  cases event with
  | ypAdd mount now =>
    cases step
    intro server member
    obtain ⟨x,xmem,rfl⟩ := List.mem_map.mp member
    exact (inv x xmem).add now (fair x xmem).1 (fair x xmem).2
  | ypRemove mount =>
    cases step
    intro server member
    obtain ⟨x,xmem,rfl⟩ := List.mem_map.mp member
    exact (inv x xmem).remove (fair x xmem)
  | wake =>
    simp only at step
    split at step
    · cases step
      exact inv
    · cases step
  | visit now =>
    simp only at step
    split at step
    · split at step
      · split at step
        · cases step
          exact inv
        · split at step
          · cases step
            exact inv.modifyEntry skip_kept _ _
          · split at step
            · cases step
              exact inv
            · cases step
              exact inv.modifyEntry prepare_kept _ _
      · cases step
        exact inv
    · cases step
  | answered now answer =>
    simp only at step
    split at step
    · obtain ⟨yp,_,same⟩ := Option.map_eq_some_iff.mp step
      rw [←same]
      exact inv.modifyEntry (runProcess_kept now answer) _ _
    · cases step
  | test =>
    simp only at step
    split at step
    · cases step
      exact inv
    · cases step
  | update =>
    simp only at step
    split at step
    · cases step
      intro server member
      obtain ⟨x,xmem,rfl⟩ := List.mem_map.mp member
      exact (inv x xmem).update
    · cases step

theorem start_inv (touch : List Nat) : Inv (start touch) := by
  intro server member
  obtain ⟨t,_,rfl⟩ := List.mem_map.mp member
  exact ⟨by simp [entries,start],by simp,by simp⟩

-- In a run whose calls all meet the condition, at every moment each server has one entry of a mount that
-- is neither released nor marked where the last call was yp_add, and none where it was yp_remove.
theorem yp_entries (run : Runs (fun s event t => Step s event t ∧ Fair s event) (start touch) labels s) :
    ∀ server ∈ s.servers, ∀ mount, (entries server).countP (live mount) = if mount ∈ s.wanted then 1 else 0 := by
  have inv : Inv s := run.preserves (fun inv step => inv.step step.2 step.1) (start_inv touch)
  intro server member
  exact (inv server member).count

def pass (now : Nat) (answer : Answer) : List Event :=
  [.wake,.visit now,.answered now answer,.visit now,.visit now,.test,.update]

-- A stream that is listed, taken off the list, and listed again.
def evening : List Event := [.ypAdd "/jazz" 0,.wake,.visit 1,.visit 1,.test,.update]++
  [.wake,.visit 60,.answered 60 (.response true (some "7") (some 300)),.visit 60,.visit 60,.test,.ypRemove "/jazz"]++
  pass 70 (.response true none none)++[.ypAdd "/jazz" 80]

def listed : State := ⟨[⟨200,[],[createYpEntry "/jazz" 80 200]⟩],true,.sleeping,["/jazz"]⟩

theorem evening_listed : Runs (fun s event t => Step s event t ∧ Fair s event) (start [200]) evening listed :=
  runFrom_sound guarded_sound (by decide +kernel : runFrom (guarded Fair next) (start [200]) evening = some listed)

theorem yp_entries_evening : (entries ⟨200,[],[createYpEntry "/jazz" 80 200]⟩).countP (live "/jazz") = 1 :=
  yp_entries evening_listed ⟨200,[],[createYpEntry "/jazz" 80 200]⟩ (by decide) "/jazz"

-- Two calls before the update thread has passed list the stream twice.
theorem added_twice : ¬∀ (touch : List Nat) (labels : List Event) (s : State), Runs Step (start touch) labels s →
    ∀ server ∈ s.servers, ∀ mount, (entries server).countP (live mount) ≤ 1 := by
  intro all
  have run : Runs Step (start [200]) [.ypAdd "/jazz" 0,.ypAdd "/jazz" 0]
      ⟨[⟨200,[],[createYpEntry "/jazz" 0 200,createYpEntry "/jazz" 0 200]⟩],true,.sleeping,["/jazz","/jazz"]⟩ :=
    runFrom_sound id (by decide +kernel : runFrom next _ _ = some _)
  have single := all _ _ _ run _ List.mem_cons_self "/jazz"
  revert single
  decide +kernel

end Icecast.YpEntries
