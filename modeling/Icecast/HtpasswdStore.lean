import Icecast.Htpasswd

namespace Icecast.Htpasswd
open Bytes Avl Transition

variable {md5 : Text → Digest}

-- The file is the lines of the users of the view, and the cache holds them once their mtimes agree.
structure Inv (md5 : Text → Digest) (view : Text → Option Text) (s : Store) (users : List User) : Prop where
  written : ∀ u ∈ users, Written md5 u
  unique : Keyed.Unique User.name users
  viewed : ∀ name, (Keyed.find User.name users name).map (·.pass) = (view name).map (getHash md5)
  absent : s.file = none → users = []
  file : ∀ file ∈ s.file, file.1 = users.flatMap fun u => lineOf u++[AccessList.lf]
  cache : ∃ tree, s.users = some tree ∧ ((∀ file ∈ s.file, file.2 = s.mtime) → Holds tree users)

theorem Inv.listed (inv : Inv md5 view s users) (name : Text) :
    listed s name = (Keyed.find User.name users name).isSome := by
  rw [Bool.eq_iff_iff,Keyed.find,List.find?_isSome,Htpasswd.listed]
  cases there : s.file with
  | none =>
    rw [inv.absent there]
    simp
  | some file =>
    rw [Option.any_some,inv.file file there,entries_lines inv.written,List.any_map,List.any_eq_true]
    refine exists_congr fun u => and_congr_right fun within => ?_
    have inside : colon ∈ lineOf u := List.mem_append_right _ List.mem_cons_self
    simp [inside,lineName_line (inv.written u within)]

-- A store whose cache is that of its file.
structure Fresh (users : List User) (s t : Store) : Prop where
  file : t.file = s.file
  cache : ∃ tree, t.users = some tree ∧ Holds tree users
  mtime : t.mtime = s.file.elim s.mtime (·.2)

theorem recheck_reads {users : List User} (written : ∀ u ∈ users, Written md5 u)
    (there : s.file = some (text,mtime)) (changed : mtime ≠ s.mtime)
    (lines : text = users.flatMap fun u => lineOf u++[AccessList.lf]) :
    ∃ t, recheckfile s = some t ∧ Fresh users s t := by
  obtain ⟨tree,read,holds⟩ := read_holds written
  refine ⟨{s with users := some tree,mtime := mtime},?_,rfl,⟨tree,rfl,holds⟩,by rw [there]; rfl⟩
  rw [recheckfile,there]
  dsimp only
  rw [if_neg changed,lines,entries_lines written,read]
  rfl

theorem Inv.recheck (inv : Inv md5 view s users) : ∃ t, recheckfile s = some t ∧ Fresh users s t := by
  obtain ⟨tree,cached,holds⟩ := inv.cache
  cases there : s.file with
  | none =>
    refine ⟨{s with users := some tree},?_,rfl,⟨tree,rfl,holds (by rw [there]; nofun)⟩,by rw [there]; rfl⟩
    rw [recheckfile,there,cached]
    rfl
  | some file =>
    obtain ⟨text,mtime⟩ := file
    by_cases same : mtime = s.mtime
    · have current : ∀ file ∈ s.file, file.2 = s.mtime := by
        intro file here
        cases there.symm.trans here
        exact same
      refine ⟨s,?_,rfl,⟨tree,cached,holds current⟩,by rw [there]; exact same.symm⟩
      rw [recheckfile,there]
      exact if_pos same
    · exact recheck_reads inv.written there same (inv.file _ there)

theorem Inv.fresh (inv : Inv md5 view s users) (fresh : Fresh users r t) (same : r.file = s.file) :
    Inv md5 view t users where
  written := inv.written
  unique := inv.unique
  viewed := inv.viewed
  absent := by
    rw [fresh.file,same]
    exact inv.absent
  file := by
    rw [fresh.file,same]
    exact inv.file
  cache := by
    obtain ⟨tree,cached,holds⟩ := fresh.cache
    exact ⟨tree,cached,fun _ => holds⟩

theorem Fresh.find {t : Store} (fresh : Fresh users s t) (unique : Keyed.Unique User.name users) (name : Text) :
    t.users.bind (findUser · name) = Keyed.find User.name users name := by
  obtain ⟨tree,cached,holds⟩ := fresh.cache
  rw [cached]
  exact holds.find unique name

theorem auth_spec (inv : Inv md5 view s users) (name password : Text) :
    ∃ t r, htpasswdAuth md5 s name password = some (t,r) ∧ Inv md5 view t users ∧
    (r = .ok ↔ ∃ added, view name = some added ∧ getHash md5 added = getHash md5 password) := by
  obtain ⟨t,ran,fresh⟩ := inv.recheck
  have viewed := inv.viewed name
  rw [htpasswdAuth,ran]
  refine ⟨t,_,rfl,inv.fresh fresh rfl,?_⟩
  rw [fresh.find inv.unique]
  cases found : Keyed.find User.name users name with
  | none =>
    rw [found] at viewed
    cases seen : view name with
    | none => simp
    | some added =>
      rw [seen] at viewed
      cases viewed
  | some u =>
    rw [found] at viewed
    cases seen : view name with
    | none =>
      rw [seen] at viewed
      cases viewed
    | some added =>
      rw [seen] at viewed
      have hashed : u.pass = getHash md5 added := Option.some.inj viewed
      rw [Option.any_some,hashed]
      simp

theorem add_spec (inv : Inv md5 view s users) (name password : Text) (now : Int) :
    ∃ t r, htpasswdAdduser md5 s name password now = some (t,r) ∧
    (r = .userExists ↔ (view name).isSome = true) ∧
    (Fair s (.add name password now) → ∃ users', Inv md5 (account view (.add name password now,r)) t users') := by
  obtain ⟨t,ran,fresh⟩ := inv.recheck
  obtain ⟨tree,cached,holds⟩ := fresh.cache
  have viewed := inv.viewed name
  have found := holds.find inv.unique name
  have known : (findUser tree name).isSome = (view name).isSome := by
    rw [found,←Option.isSome_map (f := User.pass),viewed,Option.isSome_map]
  rw [htpasswdAdduser,ran,Option.bind_some,cached,Option.map_some]
  by_cases there : (findUser tree name).isSome = true
  · rw [if_pos there]
    exact ⟨t,.userExists,rfl,⟨fun _ => known ▸ there,fun _ => rfl⟩,fun _ => ⟨users,inv.fresh fresh rfl⟩⟩
  · rw [if_neg there]
    refine ⟨_,.userAdded,rfl,⟨nofun,fun seen => absurd (known ▸ seen) there⟩,fun fair => ?_⟩
    obtain ⟨plain,later⟩ := fair.resolve_left (by rw [inv.listed,←found]; exact there)
    rw [←fresh.mtime] at later
    have missing : Keyed.find User.name users name = none := by
      rw [←found]
      simpa using there
    have text : (t.file.map (·.1)).getD [] = users.flatMap fun u => lineOf u++[AccessList.lf] := by
      cases file : t.file with
      | none =>
        rw [inv.absent (fresh.file.symm.trans file)]
        rfl
      | some file' => exact inv.file file' (fresh.file.symm.trans file)
    refine ⟨users++[⟨name,getHash md5 password⟩],fun u within => ?_,inv.unique.insert missing,
      fun other => ?_,nofun,?_,?_⟩
    · rcases List.mem_append.mp within with old | new
      · exact inv.written u old
      · rw [List.mem_singleton.mp new]
        exact ⟨plain,password,rfl⟩
    · rw [Keyed.find_insert missing]
      change _ = Option.map (getHash md5) (if other = name then some password else view other)
      by_cases here : other = name
      · rw [if_pos here,if_pos here]
        rfl
      · rw [if_neg here,if_neg here]
        exact inv.viewed other
    · intro file here
      cases here
      rw [text,List.flatMap_append]
      simp [lineOf]
    · exact ⟨tree,rfl,fun current => absurd (current _ rfl).symm later⟩

theorem delete_spec (inv : Inv md5 view s users) (fair : Fair s (.delete name now))
    (ran : htpasswdDeleteuser s name now = some (t,r)) :
    ∃ users', Inv md5 (account view (.delete name now,r)) t users' := by
  obtain ⟨tree,cached,holds⟩ := inv.cache
  unfold htpasswdDeleteuser at ran
  rw [cached] at ran
  cases there : s.file with
  | none =>
    rw [there] at ran
    cases ran
    exact ⟨users,inv⟩
  | some file =>
    obtain ⟨text,mtime⟩ := file
    rw [there] at ran
    obtain ⟨t',ran',same⟩ := Option.map_eq_some_iff.mp ran
    cases same
    have kept : ∀ u ∈ Keyed.delete User.name users name, u ∈ users := fun u within => List.mem_of_mem_filter within
    have lines : (keptLines text name).flatMap (·++[AccessList.lf]) =
      (Keyed.delete User.name users name).flatMap fun u => lineOf u++[AccessList.lf] := by
      have whole : text = users.flatMap fun u => lineOf u++[AccessList.lf] := inv.file _ there
      rw [whole,keptLines_lines inv.written,List.flatMap_map]
    -- Where the mtime stays that of the cache, there was no such user.
    have current : now = s.mtime → Holds tree (Keyed.delete User.name users name) := by
      intro same
      have absent := (fair.resolve_left (by rw [there]; nofun)).resolve_left fun other => other same.symm
      have before := holds (by
        intro file here
        rw [here] at absent
        exact Option.some.inj absent.1)
      have missing : Keyed.find User.name users name = none := by
        have unlisted := absent.2
        rw [inv.listed] at unlisted
        simpa using unlisted
      have all : Keyed.delete User.name users name = users := by
        refine List.filter_eq_self.mpr fun u within => ?_
        simpa using List.find?_eq_none.mp missing u within
      rw [all]
      exact before
    let written : Store := ⟨some ((keptLines text name).flatMap (·++[AccessList.lf]),now),some tree,s.mtime⟩
    have next : Inv md5 (account view (.delete name now,.userDeleted)) written (Keyed.delete User.name users name) := by
      refine ⟨fun u within => inv.written u (kept u within),inv.unique.delete name,fun other => ?_,nofun,?_,tree,rfl,?_⟩
      · rw [Keyed.find_delete]
        change _ = Option.map (getHash md5) (if other = name then none else view other)
        split
        · rfl
        · exact inv.viewed other
      · intro file here
        cases here
        exact lines
      · exact fun same => current (same _ rfl)
    obtain ⟨t'',ran'',fresh⟩ := next.recheck
    cases ran''.symm.trans ran'
    exact ⟨_,next.fresh fresh rfl⟩

theorem restart_spec (inv : Inv md5 view s users) (fair : Fair s .restart)
    (ran : recheckfile ⟨s.file,none,0⟩ = some t) :
    Inv md5 view t users := by
  cases there : s.file with
  | none =>
    rw [there] at ran
    cases ran
    refine ⟨inv.written,inv.unique,inv.viewed,fun _ => inv.absent there,nofun,.leaf,rfl,fun _ => ?_⟩
    rw [inv.absent there]
    exact leaf_holds
  | some file =>
    obtain ⟨text,mtime⟩ := file
    have started : (⟨s.file,none,0⟩ : Store).file = some (text,mtime) := there
    obtain ⟨t',ran',fresh⟩ := recheck_reads inv.written started (fair _ there) (inv.file _ there)
    cases ran'.symm.trans ran
    exact inv.fresh fresh rfl

theorem step_inv (inv : Inv md5 view s users) (step : Step md5 s label t) (fair : Fair s label.1) :
    ∃ users', Inv md5 (account view label) t users' := by
  obtain ⟨event,result⟩ := label
  unfold Step next at step
  cases event with
  | auth name password =>
    obtain ⟨t',r,ran,kept,_⟩ := auth_spec inv name password
    cases ran.symm.trans step
    exact ⟨users,kept⟩
  | add name password now =>
    obtain ⟨t',r,ran,_,next⟩ := add_spec inv name password now
    cases ran.symm.trans step
    exact next fair
  | delete name now => exact delete_spec inv fair step
  | restart =>
    obtain ⟨t',ran,same⟩ := Option.map_eq_some_iff.mp step
    cases same
    exact ⟨users,restart_spec inv fair ran⟩

theorem start_inv (md5 : Text → Digest) : Inv md5 (accounts []) start [] :=
  ⟨nofun,List.nodup_nil,fun _ => rfl,fun _ => rfl,nofun,.leaf,rfl,fun _ => leaf_holds⟩

theorem runs_inv (run : Runs (fun s label t => Step md5 s label t ∧ Fair s label.1) start labels s) :
    ∃ users, Inv md5 (accounts labels) s users := by
  induction run with
  | nil => exact ⟨[],start_inv md5⟩
  | snoc _ last ih =>
    obtain ⟨users,inv⟩ := ih
    rw [accounts,List.foldl_append]
    exact step_inv inv last.1 last.2

-- The name whose line an event writes or drops.
def Event.changes : Event → Option Text
  | .add name _ _ | .delete name _ => some name
  | _ => none

theorem account_other {event : Event} (other : event.changes ≠ some name) (view : Text → Option Text) (r : Result) :
    account view (event,r) name = view name := by
  cases event with
  | auth _ _ | restart => rfl
  | add changed _ _ =>
    have different : name ≠ changed := fun same => other (congrArg some same.symm)
    cases r with
    | userAdded => exact if_neg different
    | ok | failed | userExists | userDeleted => rfl
  | delete changed _ =>
    have different : name ≠ changed := fun same => other (congrArg some same.symm)
    cases r with
    | userDeleted => exact if_neg different
    | ok | failed | userExists | userAdded => rfl

def Authenticates (md5 : Text → Digest) (s : Store) (name password : Text) : Prop :=
  ∃ t, Step md5 s (.auth name password,.ok) t

theorem Inv.authenticates (inv : Inv md5 view s users) (name password : Text) :
    Authenticates md5 s name password ↔ ∃ added, view name = some added ∧ getHash md5 added = getHash md5 password := by
  obtain ⟨t,r,ran,_,accepts⟩ := auth_spec inv name password
  rw [←accepts]
  refine ⟨fun ⟨t',ok⟩ => ?_,fun ok => ⟨t,?_⟩⟩
  · cases ran.symm.trans ok
    rfl
  · rw [←ok]
    exact ran

theorem add_exact (inv : Inv md5 view s users) (ran : htpasswdAdduser md5 s name password now = some (t,.userAdded)) :
    Authenticates md5 t name password ↔ Plain name ∧ s.file.elim s.mtime (·.2) ≠ now := by
  constructor
  · rintro ⟨last,login⟩
    obtain ⟨s',checked,fresh⟩ := inv.recheck
    obtain ⟨tree,cached,_⟩ := fresh.cache
    rw [htpasswdAdduser,checked,Option.bind_some,cached,Option.map_some] at ran
    split at ran
    · cases ran
    · rename_i missing
      cases ran
      obtain ⟨t',checked',same⟩ := Option.map_eq_some_iff.mp login
      have accepted : (t'.users.bind (findUser · name)).any (·.pass = getHash md5 password) = true := by
        by_contra refused
        rw [if_neg refused] at same
        cases same
      unfold recheckfile at checked'
      dsimp only at checked'
      split at checked'
      -- The cache is that from before the addition.
      · cases checked'
        rw [Option.bind_some,Option.not_isSome_iff_eq_none.mp missing] at accepted
        cases accepted
      · rename_i later
        obtain ⟨tree',read,same'⟩ := Option.map_eq_some_iff.mp checked'
        cases same'
        obtain ⟨u,found,hashed⟩ := (Option.any_eq_true ..).mp accepted
        obtain ⟨member,named⟩ := get_mem (show getByKey compareUsers ⟨name,[]⟩ tree' = some u from found)
        have hash : u.pass.length = 32 := by rw [of_decide_eq_true hashed,getHash_length]
        have plain := read_plain (fun line within => entries_mem within) read u member hash
        have same_name : name = u.name := compareUsers_eq.mp named
        rw [←same_name] at plain
        exact ⟨plain,fun equal => later (equal.symm.trans fresh.mtime.symm)⟩
  · intro fair
    obtain ⟨t',r,ran',_,next⟩ := add_spec inv name password now
    cases ran'.symm.trans ran
    obtain ⟨users',added⟩ := next (.inr fair)
    exact (added.authenticates name password).mpr ⟨password,if_pos rfl,rfl⟩

theorem delete_exact (inv : Inv md5 view s users) (ran : htpasswdDeleteuser s name now = some (t,.userDeleted))
    (timely : s.file.map (·.2) = some s.mtime ∨ s.mtime ≠ now) :
    (∀ password, ¬Authenticates md5 t name password) ↔ s.mtime ≠ now ∨ listed s name = false := by
  constructor
  · intro refused
    by_contra unfair
    rw [not_or,not_not,Bool.not_eq_false] at unfair
    obtain ⟨second,there⟩ := unfair
    have current := timely.resolve_right fun other => other second
    obtain ⟨tree,cached,holds⟩ := inv.cache
    have fresh := holds (by
      intro file here
      rw [here] at current
      exact Option.some.inj current)
    rw [inv.listed,Option.isSome_iff_exists] at there
    obtain ⟨u,found⟩ := there
    obtain ⟨password,hashed⟩ := (inv.written u (Keyed.find_mem found)).hashed
    unfold htpasswdDeleteuser at ran
    rw [cached] at ran
    cases file : s.file with
    | none =>
      rw [file] at current
      cases current
    | some before =>
      rw [file] at ran
      obtain ⟨t',checked,same⟩ := Option.map_eq_some_iff.mp ran
      cases same
      -- The file's new mtime is the one in the cache.
      rw [recheckfile] at checked
      dsimp only at checked
      rw [if_pos second.symm] at checked
      cases checked
      refine refused password ⟨⟨some ((keptLines before.1 name).flatMap (·++[AccessList.lf]),now),some tree,s.mtime⟩,?_⟩
      rw [Step,next,htpasswdAuth,recheckfile]
      dsimp only
      rw [if_pos second.symm,Option.map_some,Option.bind_some,fresh.find inv.unique,found,Option.any_some,hashed]
      simp
  · intro fair password login
    have allowed : Fair s (.delete name now) := by
      refine .inr (fair.elim .inl fun unlisted => ?_)
      exact timely.elim (fun current => .inr ⟨current,unlisted⟩) .inl
    obtain ⟨users',deleted⟩ := delete_spec inv allowed ran
    obtain ⟨added,seen,_⟩ := (deleted.authenticates name password).mp login
    have gone : account view (.delete name now,.userDeleted) name = none := if_pos rfl
    rw [gone] at seen
    cases seen

-- After every fair run the users that were added and not deleted since log in with their password,
-- and no others; an add finds exactly these; no event but one of its name changes a login; and the
-- next add or deletion does what it reports exactly when it is fair.
theorem runs_htpasswd {md5 : Text → Digest}
    (run : Runs (fun s label t => Step md5 s label t ∧ Fair s label.1) start labels s) :
    (∀ name password, ∃ t r, Step md5 s (.auth name password,r) t ∧
      (r = .ok ↔ ∃ added, accounts labels name = some added ∧ getHash md5 added = getHash md5 password)) ∧
    (∀ name password now, ∃ t r,
    Step md5 s (.add name password now,r) t ∧ (r = .userExists ↔ (accounts labels name).isSome = true)) ∧
    (∀ event r t, Step md5 s (event,r) t → Fair s event → ∀ name password, event.changes ≠ some name →
      (Authenticates md5 t name password ↔ Authenticates md5 s name password)) ∧
    (∀ name password now t, Step md5 s (.add name password now,.userAdded) t →
      (Authenticates md5 t name password ↔ Plain name ∧ s.file.elim s.mtime (·.2) ≠ now)) ∧
    ∀ name now t, Step md5 s (.delete name now,.userDeleted) t → s.file.map (·.2) = some s.mtime ∨ s.mtime ≠ now →
      ((∀ password, ¬Authenticates md5 t name password) ↔ s.mtime ≠ now ∨ listed s name = false) := by
  obtain ⟨users,inv⟩ := runs_inv run
  refine ⟨fun name password => ?_,fun name password now => ?_,fun event r t step fair name password other => ?_,
    fun name password now t step => add_exact inv step,fun name now t step timely => delete_exact inv step timely⟩
  · obtain ⟨t,r,ran,_,accepts⟩ := auth_spec inv name password
    exact ⟨t,r,ran,accepts⟩
  · obtain ⟨t,r,ran,known,_⟩ := add_spec inv name password now
    exact ⟨t,r,ran,known⟩
  · obtain ⟨users',next⟩ := step_inv inv step fair
    rw [next.authenticates,inv.authenticates,account_other other]

-- Two digests of md5.c; the digest of another text is not used.
def digests (data : Text) : Digest :=
  if data = [97] then ⟨[12,193,117,185,192,241,182,168,49,195,153,226,105,119,38,97],rfl⟩
  else ⟨[146,235,95,254,230,174,47,236,58,215,28,119,117,49,87,143],rfl⟩

-- Users u and v are added and u is deleted, in seconds of their own, with a restart between.
def kept : List (Event × Result) :=
  [(.add [117] [97] 5,.userAdded),(.add [118] [98] 6,.userAdded),(.add [117] [98] 6,.userExists),(.auth [117] [97],.ok),
    (.restart,.ok),(.delete [117] 7,.userDeleted),(.auth [118] [98],.ok)]

def nextOf (s : Store) (label : Event × Result) : Option Store :=
  (next digests s label.1).bind fun (t,result) => if result = label.2 then some t else none

theorem nextOf_step (ran : nextOf s label = some t) : Step digests s label t := by
  obtain ⟨⟨t',result⟩,ran,same⟩ := Option.bind_eq_some_iff.mp ran
  dsimp only at same
  split at same
  · rename_i here
    cases same
    rw [Step,ran,here]
  · cases same

theorem runs_htpasswd_kept : ∃ s, Runs (fun s label t => Step digests s label t ∧ Fair s label.1) start kept s ∧
    Authenticates digests s [118] [98] ∧ ¬Authenticates digests s [117] [97] := by
  have ran : (runFrom (guarded (fun s label => Fair s label.1) nextOf) start kept).isSome = true := by decide +kernel
  obtain ⟨s,ran⟩ := Option.isSome_iff_exists.mp ran
  have fair : Runs (fun s label t => Step digests s label t ∧ Fair s label.1) start kept s :=
    runFrom_sound (fun step => ⟨nextOf_step (guarded_sound step).1,(guarded_sound step).2⟩) ran
  obtain ⟨logins,_⟩ := runs_htpasswd fair
  obtain ⟨t,r,step,accepts⟩ := logins [118] [98]
  obtain ⟨t',r',step',accepts'⟩ := logins [117] [97]
  refine ⟨s,fair,⟨t,?_⟩,fun ⟨t'',ok⟩ => ?_⟩
  · rw [←accepts.mpr ⟨[98],rfl,rfl⟩]
    exact step
  · obtain ⟨added,vacant,_⟩ := accepts'.mp (congrArg Prod.snd (Option.some.inj (step'.symm.trans ok)))
    cases vacant

-- A second user in one second cannot log in, nor one with a ':' in the name, and a user who is
-- deleted in the second of the cache still can.
theorem users_missed :
    (∃ s, Runs (Step digests) start [(.add [117] [97] 5,.userAdded),(.add [118] [98] 5,.userAdded)] s ∧
    ¬Authenticates digests s [118] [98]) ∧
    (∃ s, Runs (Step digests) start [(.add [117,58,118] [97] 5,.userAdded)] s ∧
    ¬Authenticates digests s [117,58,118] [97]) ∧
    ∃ s, Runs (Step digests) start [(.add [117] [97] 5,.userAdded),(.auth [117] [97],.ok),
    (.delete [117] 5,.userDeleted)] s ∧
      Authenticates digests s [117] [97] := by
  have logs : ∀ labels name password r,
    (runFrom nextOf start labels).bind (fun s => (next digests s (.auth name password)).map (·.2)) = some r →
      ∃ s t, Runs (Step digests) start labels s ∧ next digests s (.auth name password) = some (t,r) := by
    intro labels name password r logged
    obtain ⟨s,ran,answer⟩ := Option.bind_eq_some_iff.mp logged
    obtain ⟨⟨t,r'⟩,login,same⟩ := Option.map_eq_some_iff.mp answer
    cases same
    exact ⟨s,t,runFrom_sound nextOf_step ran,login⟩
  have fails : ∀ {s t : Store} {name password}, next digests s (.auth name password) = some (t,.failed) →
    ¬Authenticates digests s name password :=
    fun failed ⟨t',ok⟩ => by cases failed.symm.trans ok
  refine ⟨?_,?_,?_⟩
  · obtain ⟨s,t,run,login⟩ := logs [(.add [117] [97] 5,.userAdded),(.add [118] [98] 5,.userAdded)] [118]
      [98] .failed (by decide +kernel)
    exact ⟨s,run,fails login⟩
  · obtain ⟨s,t,run,login⟩ := logs [(.add [117,58,118] [97] 5,.userAdded)] [117,58,118] [97] .failed (by decide +kernel)
    exact ⟨s,run,fails login⟩
  · obtain ⟨s,t,run,login⟩ :=
      logs [(.add [117] [97] 5,.userAdded),(.auth [117] [97],.ok),(.delete [117] 5,.userDeleted)] [117]
      [97] .ok (by decide +kernel)
    exact ⟨s,run,t,login⟩

end Icecast.Htpasswd
