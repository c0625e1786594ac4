import Mathlib.Data.List.Forall2
import Mathlib.Data.List.Nodup
import Mathlib.Data.List.Perm.Basic

namespace Icecast.RelayUpdate

-- What a configuration says of a relay.
structure Settings where
  server : String
  port : Int
  mount : String
  username : Option String
  password : Option String
  localmount : String
  bind : Option String
  mp3metadata : Int
  on_demand : Int
deriving DecidableEq

-- relay_server without `next`: what the slave thread keeps of a relay besides its settings.
structure RelayServer extends Settings where
  source : Option Nat
  running : Bool
  cleanup : Bool
  start : Nat
  thread : Option Nat
deriving DecidableEq

-- A relay in memory: the object is the address, a list is what its `next` pointers run through.
structure Relay where
  address : Nat
  server : RelayServer
deriving DecidableEq

-- calloc, then field by field.
def relayCopy (r : RelayServer) : RelayServer where
  server := r.server
  mount := r.mount
  localmount := r.localmount
  username := r.username
  password := r.password
  port := r.port
  mp3metadata := r.mp3metadata
  on_demand := r.on_demand
  bind := none
  source := none
  running := false
  cleanup := false
  start := 0
  thread := none

-- What relay_has_changed answers, and the old relay as it leaves it.
def relayHasChanged (new old : RelayServer) : Bool × RelayServer :=
  if new.mount ≠ old.mount then (true,old)
  else if new.server ≠ old.server then (true,old)
  else if new.port ≠ old.port then (true,old)
  else if new.mp3metadata ≠ old.mp3metadata then (true,old)
  else (false,if new.on_demand ≠ old.on_demand then {old with on_demand := new.on_demand} else old)

-- The inner loop and the unlinking: the relay to keep, and what is left of the current list.
def takeKept (relay : RelayServer) : List Relay → Option (Relay × List Relay)
  | [] => none
  | existing::rest =>
    let compared := relayHasChanged relay existing.server
    if relay.localmount = existing.server.localmount ∧ compared.1 = false then
      some (⟨existing.address,compared.2⟩,rest)
    else (takeKept relay rest).map fun found => (found.1,existing::found.2)

-- The loop of update_relay_set: new_list and what is left in *current. `fresh` is where the next
-- copy is allocated.
def updateRelaySet (fresh : Nat) (current new_list : List Relay) : List RelayServer → List Relay × List Relay
  | [] => (new_list,current)
  | relay::updated =>
    match takeKept relay current with
    | some (existing,rest) => updateRelaySet fresh rest (existing::new_list) updated
    | none => updateRelaySet (fresh+1) current (⟨fresh,relayCopy relay⟩::new_list) updated

-- The active list and the clean-up list.
def updateRelays (fresh : Nat) (relay_list : List Relay) (new_relay_list : List RelayServer) :
    List Relay × List Relay :=
  updateRelaySet fresh relay_list [] new_relay_list

-- What relay_has_changed compares, with the local mount the search compares first.
def Same (new : RelayServer) (old : Relay) : Prop :=
  new.localmount = old.server.localmount ∧ new.mount = old.server.mount ∧ new.server = old.server.server ∧
    new.port = old.server.port ∧ new.mp3metadata = old.server.mp3metadata

instance (new : RelayServer) (old : Relay) : Decidable (Same new old) := by
  unfold Same
  infer_instance

def keep (new : RelayServer) (old : Relay) : Relay := ⟨old.address,{old.server with on_demand := new.on_demand}⟩

theorem relayHasChanged_same (new : RelayServer) (old : Relay) :
    (new.localmount = old.server.localmount ∧ (relayHasChanged new old.server).1 = false) ↔ Same new old := by
  unfold relayHasChanged Same
  split_ifs <;> simp_all

theorem relayHasChanged_keep {new : RelayServer} {old : Relay} (same : Same new old) :
    (relayHasChanged new old.server).2 = {old.server with on_demand := new.on_demand} := by
  obtain ⟨_,mount,server,port,mp3⟩ := same
  unfold relayHasChanged
  simp only [mount,server,port,mp3,ne_eq,not_true_eq_false,if_false]
  split
  · rfl
  · rename_i equal
    rw [not_not.mp equal]

theorem takeKept_spec (relay : RelayServer) (current : List Relay) :
    match takeKept relay current with
    | none => ∀ old ∈ current, ¬Same relay old
    | some (kept,rest) => ∃ before old after, current = before++old::after ∧ rest = before++after ∧
        Same relay old ∧ (∀ x ∈ before, ¬Same relay x) ∧ kept = keep relay old := by
  induction current with
  | nil =>
    intro old member
    cases member
  | cons existing current ih =>
    unfold takeKept
    simp only [relayHasChanged_same]
    by_cases same : Same relay existing
    · rw [if_pos same]
      refine ⟨[],existing,current,rfl,rfl,same,by simp,?_⟩
      rw [relayHasChanged_keep same,keep]
    · rw [if_neg same]
      cases found : takeKept relay current with
      | none =>
        rw [found] at ih
        exact List.forall_mem_cons.mpr ⟨same,ih⟩
      | some pair =>
        obtain ⟨kept,rest⟩ := pair
        rw [found] at ih
        obtain ⟨before,old,after,rfl,rfl,here,absent,eq⟩ := ih
        refine ⟨existing::before,old,after,rfl,rfl,here,?_,eq⟩
        exact List.forall_mem_cons.mpr ⟨same,absent⟩

-- The relay a new entry is matched with.
def matched (current : List Relay) (new : RelayServer) : Option Relay := current.find? fun old => Same new old

-- What update_relay_set makes of one new entry.
def Made (fresh : Nat) (current : List Relay) (new : RelayServer) (entry : Relay) : Prop :=
  match matched current new with
  | some old => entry = keep new old
  | none => entry.server = relayCopy new ∧ fresh ≤ entry.address

theorem matched_split {before after : List Relay} (same : Same new old) (absent : ∀ x ∈ before, ¬Same new x) :
    matched (before++old::after) new = some old := by
  unfold matched
  rw [List.find?_append,List.find?_eq_none.mpr (by simpa using absent),List.find?_cons_of_pos (by simpa using same)]
  rfl

theorem matched_unlink {before after : List Relay} (same : Same new old) (other : new.localmount ≠ later.localmount) :
    matched (before++after) later = matched (before++old::after) later := by
  unfold matched
  have apart : ¬Same later old := fun equal => other (same.1.trans equal.1.symm)
  rw [List.find?_append,List.find?_append,List.find?_cons_of_neg (by simpa using apart)]

theorem made_unlink {before after : List Relay} {later : List RelayServer} {entries : List Relay} (same : Same new old)
    (made : List.Forall₂ (Made fresh (before++after)) later entries)
    (other : ∀ x ∈ later, new.localmount ≠ x.localmount) :
    List.Forall₂ (Made fresh (before++old::after)) later entries := by
  induction made with
  | nil => exact .nil
  | cons made _ ih =>
    rename_i x entry xs entries _
    refine .cons ?_ (ih fun y member => other y (List.mem_cons_of_mem _ member))
    unfold Made at made ⊢
    rwa [←matched_unlink same (other x List.mem_cons_self)]

theorem made_mono (made : Made (fresh+1) current new entry) : Made fresh current new entry := by
  unfold Made at made ⊢
  split at made
  · exact made
  · exact ⟨made.1,by omega⟩

-- What the two lists hold together: the relays taken out of the current list, and the copies.
structure Taken (fresh : Nat) (current entries rest : List Relay) : Prop where
  intro ::
  parts : ∃ taken copies, current.Perm (taken++rest) ∧ (entries.map Relay.address).Perm
    (taken.map Relay.address++copies) ∧
    copies.Nodup ∧ ∀ address ∈ copies, fresh ≤ address

theorem Taken.kept {before after : List Relay} (taken : Taken fresh (before++after) entries rest)
    (new : RelayServer) (old : Relay) :
    Taken fresh (before++old::after) (keep new old::entries) rest := by
  obtain ⟨taken,copies,whole,addresses,nodup,above⟩ := taken.parts
  refine ⟨old::taken,copies,?_,?_,nodup,above⟩
  · exact List.perm_middle.trans (whole.cons old)
  · exact addresses.cons old.address

theorem Taken.copied (taken : Taken (fresh+1) current entries rest) (server : RelayServer) :
    Taken fresh current (⟨fresh,server⟩::entries) rest := by
  obtain ⟨taken,copies,whole,addresses,nodup,above⟩ := taken.parts
  refine ⟨taken,fresh::copies,whole,?_,List.nodup_cons.mpr ⟨?_,nodup⟩,?_⟩
  · exact (addresses.cons fresh).trans List.perm_middle.symm
  · intro member
    have := above fresh member
    omega
  · intro address member
    rcases List.mem_cons.mp member with rfl | member
    · exact Nat.le_refl _
    · have := above address member
      omega

theorem updateRelaySet_spec (fresh : Nat) (current new_list : List Relay) (updated : List RelayServer)
    (distinct : (updated.map fun new => new.localmount).Nodup) :
    ∃ entries rest, updateRelaySet fresh current new_list updated = (entries.reverse++new_list,rest) ∧
      List.Forall₂ (Made fresh current) updated entries ∧ Taken fresh current entries rest := by
  induction updated generalizing fresh current new_list with
  | nil => exact ⟨[],current,rfl,.nil,⟨[],[],.refl _,.refl _,List.nodup_nil,by simp⟩⟩
  | cons new updated ih =>
    obtain ⟨here,distinct⟩ := List.nodup_cons.mp distinct
    have other : ∀ x ∈ updated, new.localmount ≠ x.localmount := by
      intro x member equal
      exact here (List.mem_map.mpr ⟨x,member,equal.symm⟩)
    have spec := takeKept_spec new current
    unfold updateRelaySet
    cases found : takeKept new current with
    | none =>
      rw [found] at spec
      obtain ⟨entries,rest,eq,made,taken⟩ := ih (fresh+1) current (⟨fresh,relayCopy new⟩::new_list) distinct
      refine ⟨⟨fresh,relayCopy new⟩::entries,rest,?_,.cons ?_ (made.imp fun _ _ => made_mono),taken.copied _⟩
      · simp [eq]
      · have unmatched : matched current new = none := List.find?_eq_none.mpr (by simpa using spec)
        simp [Made,unmatched]
    | some pair =>
      obtain ⟨kept,left⟩ := pair
      rw [found] at spec
      obtain ⟨before,old,after,rfl,rfl,same,absent,rfl⟩ := spec
      obtain ⟨entries,rest,eq,made,taken⟩ := ih fresh (before++after) (keep new old::new_list) distinct
      refine ⟨keep new old::entries,rest,?_,.cons ?_ (made_unlink same made other),taken.kept _ _⟩
      · simp [eq]
      · simp [Made,matched_split same absent]

-- The reconfiguration as the slave thread needs it.
structure Reconciled (current : List Relay) (updated : List RelayServer) (active cleanup : List Relay) : Prop where
  agree : List.Forall₂ (fun new entry => entry.server.toSettings = new.toSettings) updated active.reverse
  object : ∀ new ∈ updated, (∃ old ∈ current, old.server.toSettings = new.toSettings) →
    ∃ old ∈ current, old.server.toSettings = new.toSettings ∧ old ∈ active
  others : ∀ old ∈ current, (∀ entry ∈ active, entry.address ≠ old.address) → old ∈ cleanup
  mine : ∀ old ∈ cleanup, old ∈ current
  once : ((active++cleanup).map Relay.address).Nodup

-- Where the code gets a new entry right: the relay it keeps agrees in what relay_has_changed does
-- not compare, and a copy has no bind address to lose.
def Handled (current : List Relay) (new : RelayServer) : Prop :=
  match matched current new with
  | some old => new.username = old.server.username ∧ new.password = old.server.password ∧ new.bind = old.server.bind ∧
      (new.on_demand = old.server.on_demand ∨ ∀ x ∈ current, x.server.toSettings ≠ new.toSettings)
  | none => new.bind = none

instance (current : List Relay) (new : RelayServer) : Decidable (Handled current new) := by
  unfold Handled
  split <;> infer_instance

theorem settings_same (equal : old.server.toSettings = new.toSettings) : Same new old := by
  unfold Same
  rw [equal]
  exact ⟨rfl,rfl,rfl,rfl,rfl⟩

theorem matched_mem (found : matched current new = some old) : old ∈ current ∧ Same new old :=
  ⟨List.mem_of_find?_eq_some found,by simpa using List.find?_some found⟩

theorem keep_settings (same : Same new old) : (keep new old).server.toSettings = new.toSettings ↔
    new.username = old.server.username ∧ new.password = old.server.password ∧ new.bind = old.server.bind := by
  obtain ⟨local_,mount,server,port,mp3⟩ := same
  cases new with | mk new =>
  cases new
  simp only [keep,Settings.mk.injEq] at *
  constructor
  · rintro ⟨_,_,_,user,pass,_,bind,_⟩
    exact ⟨user.symm,pass.symm,bind.symm⟩
  · rintro ⟨user,pass,bind⟩
    exact ⟨server.symm,port.symm,mount.symm,user.symm,pass.symm,local_.symm,bind.symm,mp3.symm,trivial⟩

theorem copy_settings (new : RelayServer) : (relayCopy new).toSettings = new.toSettings ↔ new.bind = none := by
  cases new with | mk new =>
  cases new
  simp [relayCopy,eq_comm]

theorem made_agrees (made : Made fresh current new entry) : entry.server.toSettings = new.toSettings ↔
    match matched current new with
    | some old => new.username = old.server.username ∧ new.password = old.server.password ∧ new.bind = old.server.bind
    | none => new.bind = none := by
  unfold Made at made
  cases found : matched current new with
  | none =>
    rw [found] at made
    rw [made.1]
    exact copy_settings new
  | some old =>
    rw [found] at made
    rw [made]
    exact keep_settings (matched_mem found).2

theorem forall₂_right {R : α → β → Prop} {xs : List α} {ys : List β} (all : List.Forall₂ R xs ys) :
    ∀ y ∈ ys, ∃ x ∈ xs, R x y := by
  induction all with
  | nil => simp
  | cons one _ ih =>
    intro y member
    rcases List.mem_cons.mp member with rfl | member
    · exact ⟨_,List.mem_cons_self,one⟩
    · obtain ⟨x,xmem,holds⟩ := ih y member
      exact ⟨x,List.mem_cons_of_mem _ xmem,holds⟩

theorem forall₂_left {R : α → β → Prop} {xs : List α} {ys : List β} (all : List.Forall₂ R xs ys) :
    ∀ x ∈ xs, ∃ y ∈ ys, R x y :=
  forall₂_right all.flip

theorem forall₂_both {R S : α → β → Prop} {xs : List α} {ys : List β} (one : List.Forall₂ R xs ys)
    (two : List.Forall₂ S xs ys) :
    List.Forall₂ (fun x y => R x y ∧ S x y) xs ys := by
  induction one with
  | nil => exact .nil
  | cons here _ ih =>
    cases two with
    | cons there two => exact .cons ⟨here,there⟩ (ih two)

-- Where relays sit in memory: no two at one address, and calloc gives none of their addresses.
structure Placed (fresh : Nat) (current : List Relay) : Prop where
  nodup : (current.map Relay.address).Nodup
  below : ∀ old ∈ current, old.address < fresh

theorem taken_once (placed : Placed fresh current) (taken : Taken fresh current entries rest) :
    ((entries++rest).map Relay.address).Nodup := by
  obtain ⟨taken,copies,whole,addresses,nodup,above⟩ := taken.parts
  have split : ((taken++rest).map Relay.address).Nodup := (whole.map _).nodup_iff.mp placed.nodup
  have moved : ((entries++rest).map Relay.address).Perm (copies++(taken++rest).map Relay.address) := by
    rw [List.map_append,List.map_append]
    apply (addresses.append_right _).trans
    rw [←List.append_assoc]
    exact List.perm_append_comm.append_right _
  rw [moved.nodup_iff,List.nodup_append]
  refine ⟨nodup,split,?_⟩
  intro address copy other member equal
  subst equal
  obtain ⟨old,oldMem,rfl⟩ := List.mem_map.mp member
  have low := placed.below old (whole.mem_iff.mpr oldMem)
  have high := above _ copy
  omega

theorem taken_others (taken : Taken fresh current entries rest) :
    (∀ old ∈ current, (∀ entry ∈ entries, entry.address ≠ old.address) → old ∈ rest) ∧ ∀ old ∈ rest, old ∈ current := by
  obtain ⟨taken,copies,whole,addresses,_,_⟩ := taken.parts
  constructor
  · intro old member free
    rcases List.mem_append.mp (whole.mem_iff.mp member) with out | stays
    · have listed := addresses.mem_iff.mpr (List.mem_append_left copies (List.mem_map.mpr ⟨old,out,rfl⟩))
      obtain ⟨entry,entryMem,equal⟩ := List.mem_map.mp listed
      exact absurd equal (free entry entryMem)
    · exact stays
  · intro old member
    exact whole.mem_iff.mpr (List.mem_append_right _ member)

section Reconfiguration

variable {current : List Relay} {updated : List RelayServer} {entries : List Relay} {fresh : Nat}

theorem handled_agree (made : List.Forall₂ (Made fresh current) updated entries)
    (handled : ∀ new ∈ updated, Handled current new) :
    List.Forall₂ (fun new entry => entry.server.toSettings = new.toSettings) updated entries := by
  induction made with
  | nil => exact .nil
  | cons here _ ih =>
    rename_i new entry updated entries _
    refine .cons ((made_agrees here).mpr ?_) (ih fun x member => handled x (List.mem_cons_of_mem _ member))
    have good := handled new List.mem_cons_self
    unfold Handled at good
    split at good
    · exact ⟨good.1,good.2.1,good.2.2.1⟩
    · exact good

theorem handled_object (made : List.Forall₂ (Made fresh current) updated entries)
    (handled : ∀ new ∈ updated, Handled current new)
    (member : new ∈ updated) (accounted : ∃ old ∈ current, old.server.toSettings = new.toSettings) :
    ∃ old ∈ current, old.server.toSettings = new.toSettings ∧ old ∈ entries := by
  obtain ⟨x,xmem,equal⟩ := accounted
  obtain ⟨entry,entryMem,made⟩ := forall₂_left made new member
  have good := handled new member
  unfold Handled at good
  unfold Made at made
  cases found : matched current new with
  | none =>
    have apart := List.find?_eq_none.mp found x xmem
    exact absurd (settings_same equal) (by simpa using apart)
  | some old =>
    rw [found] at good made
    obtain ⟨user,pass,bind,demand⟩ := good
    have demand : new.on_demand = old.server.on_demand := demand.resolve_right fun absent => absent x xmem equal
    have itself : keep new old = old := by rw [keep,demand]
    obtain ⟨oldMem,same⟩ := matched_mem found
    have settings := (keep_settings same).mpr ⟨user,pass,bind⟩
    have entry_ : entry = old := Eq.trans made itself
    rw [itself] at settings
    exact ⟨old,oldMem,settings,entry_ ▸ entryMem⟩

theorem reconciled_handled (placed : Placed fresh current) (distinct : (updated.map fun new => new.localmount).Nodup)
    (made : List.Forall₂ (Made fresh current) updated entries)
    (agree : List.Forall₂ (fun new entry => entry.server.toSettings = new.toSettings) updated entries)
    (object : ∀ new ∈ updated, (∃ old ∈ current, old.server.toSettings = new.toSettings) →
      ∃ old ∈ current, old.server.toSettings = new.toSettings ∧ old ∈ entries) (member : new ∈ updated) :
      Handled current new := by
  have both := forall₂_both made agree
  obtain ⟨entry,_,here,settings⟩ := forall₂_left both new member
  have parts := (made_agrees here).mp settings
  unfold Handled
  cases found : matched current new with
  | none =>
    rw [found] at parts
    exact parts
  | some old =>
    rw [found] at parts
    refine ⟨parts.1,parts.2.1,parts.2.2,?_⟩
    by_cases filled : ∃ x ∈ current, x.server.toSettings = new.toSettings
    · left
      obtain ⟨x,xmem,xset,xentry⟩ := object new member filled
      obtain ⟨new',member',made',settings'⟩ := forall₂_right both x xentry
      have names : new'.localmount = new.localmount := by rw [←settings',xset]
      have one : new' = new := List.inj_on_of_nodup_map distinct member' member names
      subst one
      -- the entry that is the current relay x was made from the match, so the match is x
      unfold Made at made'
      rw [found] at made'
      have place : x.address = old.address := by rw [made',keep]
      have it : x = old := List.inj_on_of_nodup_map placed.nodup xmem (matched_mem found).1 place
      rw [←it,xset]
    · right
      intro x xmem equal
      exact filled ⟨x,xmem,equal⟩

end Reconfiguration

theorem updateRelays_reconciled (fresh : Nat) (current : List Relay) (updated : List RelayServer)
    (placed : Placed fresh current) (distinct : (updated.map fun new => new.localmount).Nodup) :
    Reconciled current updated (updateRelays fresh current updated).1 (updateRelays fresh current updated).2 ↔
      ∀ new ∈ updated, Handled current new := by
  obtain ⟨entries,rest,eq,made,taken⟩ := updateRelaySet_spec fresh current [] updated distinct
  rw [updateRelays,eq,List.append_nil]
  obtain ⟨others,mine⟩ := taken_others taken
  constructor
  · intro reconciled new member
    have agree := reconciled.agree
    rw [List.reverse_reverse] at agree
    refine reconciled_handled placed distinct made agree ?_ member
    simpa only [List.mem_reverse] using reconciled.object
  · intro handled
    refine ⟨?_,?_,?_,mine,?_⟩
    · rw [List.reverse_reverse]
      exact handled_agree made handled
    · intro new member accounted
      simpa only [List.mem_reverse] using handled_object made handled member accounted
    · intro old member free
      exact others old member fun entry entryMem => free entry (List.mem_reverse.mpr entryMem)
    · have once := taken_once placed taken
      have moved : ((entries.reverse++rest).map Relay.address).Perm ((entries++rest).map Relay.address) :=
        ((List.reverse_perm entries).append_right rest).map _
      exact moved.nodup_iff.mpr once

-- A relay whose master takes a new password, and one bound to an address of its own.
def jazz : RelayServer :=
  ⟨⟨"master",8000,"/jazz",some "relay",some "old","/jazz",none,1,0⟩,some 1,true,false,0,some 2⟩

def blues : RelayServer :=
  ⟨⟨"master",8000,"/blues",none,none,"/blues",none,1,0⟩,some 3,true,false,0,some 4⟩

def swing : RelayServer := relayCopy ⟨⟨"other",80,"/swing",none,none,"/swing",none,1,1⟩,none,false,false,0,none⟩

-- One relay stays, one goes and one is new.
theorem updateRelays_reconciled_jazz : Reconciled [⟨0,blues⟩,⟨1,jazz⟩] [swing,jazz]
    (updateRelays 2 [⟨0,blues⟩,⟨1,jazz⟩] [swing,jazz]).1 (updateRelays 2 [⟨0,blues⟩,⟨1,jazz⟩] [swing,jazz]).2 :=
  (updateRelays_reconciled 2 [⟨0,blues⟩,⟨1,jazz⟩] [swing,jazz] ⟨by simp,by simp⟩ (by decide)).mpr (by decide)

theorem new_password_ignored : ¬∀ (fresh : Nat) (current : List Relay) (updated : List RelayServer),
    Placed fresh current →
    (updated.map fun new => new.localmount).Nodup →
    Reconciled current updated (updateRelays fresh current updated).1 (updateRelays fresh current updated).2 := by
  intro all
  have reconciled := all 1 [⟨0,jazz⟩] [{jazz with password := some "new"}] ⟨by simp,by simp⟩ (by simp)
  have agree := reconciled.agree
  revert agree
  decide

end Icecast.RelayUpdate
