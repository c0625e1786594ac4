import Icecast.AccessList
import Icecast.Lib.Keyed
import Icecast.Lib.Transition
import Mathlib.Data.List.TakeWhile

namespace Icecast.Htpasswd
open Bytes Avl Transition

def colon : UInt8 := 58

-- What MD5Final fills.
structure Digest where
  bytes : List UInt8
  sixteen : bytes.length = 16

-- htpasswd_user
structure User where
  name : Text
  pass : Text
deriving DecidableEq

def compareUsers : User → User → Ordering := compareOn User.name

-- The password file with its st_mtime, and the users and mtime of htpasswd_auth_state.
structure Store where
  file : Option (Text × Int)
  users : Option (AvlTree User)
  mtime : Int
deriving DecidableEq

-- auth_result
inductive Result where
  | ok
  | failed
  | userAdded
  | userExists
  | userDeleted
deriving DecidableEq

def hexchars : List UInt8 := ascii "0123456789abcdef"

-- util_bin_to_hex
def binToHex (data : List UInt8) : Text :=
  data.flatMap fun b => [hexchars.getD (b.toNat/16) 0,hexchars.getD (b.toNat%16) 0]

def lineName (line : Text) : Text := line.takeWhile (· ≠ colon)

-- A line in the loop of htpasswd_recheckfile; none where it has no room in the bounds of its cast.
def readLine (users : AvlTree User) (line : Text) : Option (AvlTree User) :=
  if colon ∈ line then
    if line.length+1 ≤ AccessList.maxLineLen-1 then
      some (insert compareUsers ⟨lineName line,line.drop ((lineName line).length+1)⟩ users)
    else none
  else some users

-- htpasswd_recheckfile
def recheckfile (s : Store) : Option Store :=
  match s.file with
  | none => some {s with users := some (s.users.getD .leaf)}
  | some (text,mtime) =>
    if mtime = s.mtime then some s
    else ((AccessList.entries text).foldlM readLine .leaf).map fun users => {s with users := some users,mtime := mtime}

def findUser (users : AvlTree User) (name : Text) : Option User := getByKey compareUsers ⟨name,[]⟩ users

section
variable (md5 : Text → Digest)

-- get_hash
def getHash (data : Text) : Text := binToHex (md5 data).bytes

def htpasswdAuth (s : Store) (name password : Text) : Option (Store × Result) :=
  (recheckfile s).map fun s =>
    (s,if (s.users.bind (findUser · name)).any (·.pass = getHash md5 password) then .ok else .failed)

def htpasswdAdduser (s : Store) (name password : Text) (now : Int) : Option (Store × Result) :=
  (recheckfile s).bind fun s => s.users.map fun users =>
    if (findUser users name).isSome then (s,.userExists)
    else ({s with file := some ((s.file.map (·.1)).getD []++name++colon::getHash md5 password++[AccessList.lf],now)},.userAdded)

-- The loop of htpasswd_deleteuser over the lines of the file.
def keptLines (text name : Text) : List Text :=
  (AccessList.entries text).filter fun line => colon ∈ line && lineName line ≠ name

def htpasswdDeleteuser (s : Store) (name : Text) (now : Int) : Option (Store × Result) :=
  match s.users,s.file with
  | some _,some (text,_) =>
    (recheckfile {s with file := some ((keptLines text name).flatMap (·++[AccessList.lf]),now)}).map (·,.userDeleted)
  | _,_ => some (s,.failed)

-- The calls, with the second in which a changed file is closed; a restart has only the file.
inductive Event where
  | auth (name password : Text)
  | add (name password : Text) (now : Int)
  | delete (name : Text) (now : Int)
  | restart
deriving DecidableEq

def next (s : Store) : Event → Option (Store × Result)
  | .auth name password => htpasswdAuth md5 s name password
  | .add name password now => htpasswdAdduser md5 s name password now
  | .delete name now => htpasswdDeleteuser s name now
  | .restart => (recheckfile ⟨s.file,none,0⟩).map (·,.ok)

def Step (s : Store) (label : Event × Result) (t : Store) : Prop := next md5 s label.1 = some (t,label.2)

def start : Store := ⟨none,some .leaf,0⟩

-- The passwords of the users that were last reported as added, and not as deleted since.
def account (view : Text → Option Text) : Event × Result → Text → Option Text
  | (.add name password _,.userAdded) => fun other => if other = name then some password else view other
  | (.delete name _,.userDeleted) => fun other => if other = name then none else view other
  | _ => view

def accounts (labels : List (Event × Result)) : Text → Option Text := labels.foldl account fun _ => none

-- A name that a line of the file holds whole.
def Plain (name : Text) : Prop :=
  colon ∉ name ∧ AccessList.lf ∉ name ∧ 0 ∉ name ∧ name.head? ≠ some 35 ∧ name.length ≤ 477

instance decidePlain (name : Text) : Decidable (Plain name) := inferInstanceAs (Decidable (_ ∧ _ ∧ _ ∧ _ ∧ _))

-- The file has a line of this name.
def listed (s : Store) (name : Text) : Bool :=
  s.file.any fun file => (AccessList.entries file.1).any fun line => colon ∈ line && lineName line = name

-- A new user has a plain name and is not added in the second of the file's last change; a user is
-- not deleted in the second that is in the cache.
def Fair (s : Store) : Event → Prop
  | .auth .. => True
  | .add name _ now => listed s name = true ∨ Plain name ∧ s.file.elim s.mtime (·.2) ≠ now
  | .delete name now => s.file = none ∨ s.mtime ≠ now ∨ s.file.map (·.2) = some s.mtime ∧ listed s name = false
  | .restart => ∀ file ∈ s.file, file.2 ≠ 0

instance decideFair (s : Store) : (event : Event) → Decidable (Fair s event)
  | .auth .. => isTrue trivial
  | .add name _ now => inferInstanceAs (Decidable (listed s name = true ∨ Plain name ∧ s.file.elim s.mtime (·.2) ≠ now))
  | .delete name now => inferInstanceAs
    (Decidable (s.file = none ∨ s.mtime ≠ now ∨ s.file.map (·.2) = some s.mtime ∧ listed s name = false))
  | .restart => inferInstanceAs (Decidable (∀ file ∈ s.file, file.2 ≠ 0))

variable {md5}

theorem hexchars_mem {i : Nat} (small : i < 16) : hexchars.getD i 0 ∈ hexchars := by
  have long : hexchars.length = 16 := by decide
  rw [List.getD_eq_getElem?_getD,List.getElem?_eq_getElem (long ▸ small)]
  exact List.getElem_mem _

theorem getHash_mem (within : c ∈ getHash md5 data) : c ∈ hexchars := by
  obtain ⟨b,_,pair⟩ := List.mem_flatMap.mp within
  have small : b.toNat < 256 := b.toNat_lt
  rcases List.mem_cons.mp pair with same | rest
  · exact same ▸ hexchars_mem (by omega)
  · rw [List.mem_singleton.mp rest]
    exact hexchars_mem (by omega)

theorem getHash_avoids {c : UInt8} (other : c ∉ hexchars) : c ∉ getHash md5 data :=
  fun within => other (getHash_mem within)

theorem getHash_length (data : Text) : (getHash md5 data).length = 32 := by
  rw [getHash,binToHex,List.length_flatMap]
  simp [(md5 data).sixteen]

-- The line that htpasswd_adduser writes for a user.
def lineOf (u : User) : Text := u.name++colon::u.pass

-- A user with a plain name, as htpasswd_adduser makes it.
structure Written (md5 : Text → Digest) (u : User) : Prop where
  plain : Plain u.name
  hashed : ∃ password, u.pass = getHash md5 password

theorem Written.length {u : User} (written : Written md5 u) : (lineOf u).length ≤ 510 := by
  obtain ⟨_,_,_,_,short⟩ := written.plain
  obtain ⟨password,hashed⟩ := written.hashed
  rw [lineOf,List.length_append,List.length_cons,hashed,getHash_length]
  omega

theorem Written.avoids {u : User} {c : UInt8} (written : Written md5 u) (name : c ∉ u.name)
    (separator : c ≠ colon) (digit : c ∉ hexchars) :
    c ∉ lineOf u := by
  obtain ⟨password,hashed⟩ := written.hashed
  intro within
  rcases List.mem_append.mp within with front | back
  · exact name front
  · rcases List.mem_cons.mp back with same | pass
    · exact separator same
    · rw [hashed] at pass
      exact getHash_avoids digit pass

theorem Written.last {u : User} (written : Written md5 u) : (lineOf u).getLast? ≠ some AccessList.cr := by
  obtain ⟨password,hashed⟩ := written.hashed
  have long : (getHash md5 password).length = 32 := getHash_length password
  rw [lineOf,hashed,List.getLast?_append,List.getLast?_cons]
  cases pass : (getHash md5 password).getLast? with
  | none =>
    rw [List.getLast?_eq_none_iff.mp pass] at long
    cases long
  | some c =>
    have digit := getHash_mem (List.mem_of_getLast? pass)
    intro same
    have cr : c = AccessList.cr := by simpa using same
    rw [cr] at digit
    exact absurd digit (by decide)

theorem Written.head {u : User} (written : Written md5 u) : lineOf u ≠ [] ∧ (lineOf u).head? ≠ some 35 := by
  obtain ⟨_,_,_,head,_⟩ := written.plain
  unfold lineOf
  cases name : u.name with
  | nil => exact ⟨nofun,nofun⟩
  | cons c rest =>
    rw [name] at head
    exact ⟨nofun,head⟩

theorem getLine_line {u : User} (written : Written md5 u) (rest : Text) :
    AccessList.getLine (lineOf u++AccessList.lf::rest) = some (lineOf u,rest) := by
  obtain ⟨_,newline,nul,_,_⟩ := written.plain
  have short := written.length
  have whole := written.avoids newline (by decide) (by decide)
  have full : 0 ∉ lineOf u := written.avoids nul (by decide) (by decide)
  have string : cstr (lineOf u++[AccessList.lf]) = lineOf u++[AccessList.lf] :=
    cstr_whole fun zero => (List.mem_append.mp zero).elim full (by decide)
  rw [AccessList.getLine,if_neg (by simp),AccessList.fgets_line whole rest (by rw [AccessList.maxLineLen]; omega)]
  dsimp only
  rw [string,List.getLast?_concat,if_pos rfl,List.dropLast_concat,AccessList.stripEnd,if_neg written.last]

theorem entries_lines {users : List User} (written : ∀ u ∈ users, Written md5 u) :
    AccessList.entries (users.flatMap fun u => lineOf u++[AccessList.lf]) = users.map lineOf := by
  have reads : ∀ fuel, users.length < fuel →
      AccessList.entriesFrom fuel (users.flatMap fun u => lineOf u++[AccessList.lf]) = users.map lineOf := by
    induction users with
    | nil =>
      intro fuel enough
      cases fuel with
      | zero => cases enough
      | succ fuel => rfl
    | cons u users ih =>
      intro fuel enough
      have first := written u List.mem_cons_self
      cases fuel with
      | zero => cases enough
      | succ fuel =>
        rw [List.flatMap_cons,List.append_assoc,List.singleton_append,AccessList.entriesFrom,getLine_line first]
        dsimp only
        rw [if_neg (not_or.mpr first.head),List.map_cons,
          ih (fun v within => written v (List.mem_cons_of_mem u within)) fuel (Nat.lt_of_succ_lt_succ enough)]
  have enough : users.length ≤ (users.flatMap fun u => lineOf u++[AccessList.lf]).length := by
    clear reads written
    induction users with
    | nil => exact Nat.le_refl 0
    | cons u users ih =>
      rw [List.flatMap_cons,List.length_append,List.length_append,List.length_cons,List.length_singleton]
      omega
  exact reads _ (Nat.lt_succ_of_le enough)

theorem lineName_line {u : User} (written : Written md5 u) : lineName (lineOf u) = u.name := by
  obtain ⟨separator,_⟩ := written.plain
  have all : ∀ c ∈ u.name, decide (c ≠ colon) = true := fun c within => decide_eq_true fun same =>
    separator (same ▸ within)
  rw [lineName,lineOf,List.takeWhile_append_of_pos all,List.takeWhile_cons_of_neg (by simp),List.append_nil]

theorem readLine_line {u : User} (written : Written md5 u) (users : AvlTree User) :
    readLine users (lineOf u) = some (insert compareUsers u users) := by
  have short := written.length
  have inside : colon ∈ lineOf u := List.mem_append_right _ List.mem_cons_self
  have pass : (lineOf u).drop (u.name.length+1) = u.pass := by
    rw [lineOf,←List.drop_drop,List.drop_left]
    rfl
  rw [readLine,if_pos inside,if_pos (by rw [AccessList.maxLineLen]; omega),lineName_line written,pass]

instance : Std.TransCmp compareUsers := inferInstanceAs (Std.TransCmp (compareOn User.name))

theorem compareUsers_eq : compareUsers u v = .eq ↔ u.name = v.name := by
  rw [compareUsers,compareOn]
  exact Std.LawfulEqCmp.compare_eq_iff_eq

-- A tree holds these users.
structure Holds (tree : AvlTree User) (users : List User) : Prop where
  sorted : Sorted compareUsers tree
  mem : ∀ u, u ∈ tree.toList ↔ u ∈ users

theorem leaf_holds : Holds .leaf [] := ⟨.nil,fun _ => Iff.rfl⟩

theorem read_holds {users : List User} (written : ∀ u ∈ users, Written md5 u) :
    ∃ tree, (users.map lineOf).foldlM readLine .leaf = some tree ∧ Holds tree users := by
  have grows : ∀ (more : List User) (tree : AvlTree User) (seen : List User),
    (∀ u ∈ more, Written md5 u) → Holds tree seen →
      ∃ tree', (more.map lineOf).foldlM readLine tree = some tree' ∧ Holds tree' (seen++more) := by
    intro more
    induction more with
    | nil =>
      intro tree seen _ holds
      exact ⟨tree,rfl,by rwa [List.append_nil]⟩
    | cons u more ih =>
      intro tree seen all holds
      have next : Holds (insert compareUsers u tree) (seen++[u]) := by
        refine ⟨sorted_insert holds.sorted u,fun v => ?_⟩
        rw [mem_insert holds.sorted,holds.mem,List.mem_append,List.mem_singleton]
        exact or_comm
      obtain ⟨tree',ran,holds'⟩ := ih _ _ (fun v within => all v (List.mem_cons_of_mem u within)) next
      refine ⟨tree',?_,by rwa [List.append_assoc] at holds'⟩
      rw [List.map_cons,List.foldlM_cons,readLine_line (all u List.mem_cons_self)]
      exact ran
  exact grows users .leaf [] written leaf_holds

theorem Holds.find {users : List User} (holds : Holds tree users)
    (unique : Keyed.Unique User.name users) (name : Text) :
    findUser tree name = Keyed.find User.name users name := by
  unfold findUser
  cases found : getByKey compareUsers ⟨name,[]⟩ tree with
  | none =>
    refine (List.find?_eq_none.mpr fun u within => ?_).symm
    have apart := get_none holds.sorted found u ((holds.mem u).mpr within)
    rw [Ne,compareUsers_eq] at apart
    exact fun same => apart (of_decide_eq_true same).symm
  | some u =>
    obtain ⟨member,same⟩ := get_mem found
    have named : name = u.name := compareUsers_eq.mp same
    rw [named]
    exact (unique.find_of_mem ((holds.mem u).mp member)).symm

theorem keptLines_lines {users : List User} (written : ∀ u ∈ users, Written md5 u) (name : Text) :
    keptLines (users.flatMap fun u => lineOf u++[AccessList.lf]) name =
    (Keyed.delete User.name users name).map lineOf := by
  rw [keptLines,entries_lines written,Keyed.delete,List.filter_map]
  refine congrArg (List.map lineOf) (List.filter_congr fun u within => ?_)
  have inside : colon ∈ lineOf u := List.mem_append_right _ List.mem_cons_self
  simp [inside,lineName_line (written u within)]

end

-- A line that get_line gives is a C string without a newline.
theorem getLine_mem (got : AccessList.getLine file = some (line,rest)) : AccessList.lf ∉ line ∧ 0 ∉ line := by
  unfold AccessList.getLine at got
  split at got
  · cases got
  · obtain ⟨front,whole,read⟩ := AccessList.fgets_read (AccessList.maxLineLen-1) file
    generalize AccessList.fgets (AccessList.maxLineLen-1) file = pair at got read
    obtain ⟨buf,rest'⟩ := pair
    dsimp only at got read
    have full : 0 ∉ cstr buf := fun zero => by simpa using List.mem_takeWhile_imp zero
    -- Only the last byte of the buffer can be a newline.
    have early : AccessList.lf ∉ (cstr buf).dropLast := by
      intro within
      have front_ : cstr buf <+: buf := List.takeWhile_prefix _
      rcases read with same | same
      · rw [same] at front_ within
        exact whole (front_.subset (List.dropLast_subset _ within))
      · rcases List.prefix_concat_iff.mp (same ▸ front_) with all | cut
        · rw [same] at within
          rw [all,List.dropLast_concat] at within
          exact whole within
        · rw [same] at within
          exact whole (cut.subset (List.dropLast_subset _ within))
    obtain ⟨same,_⟩ := Prod.mk.inj (Option.some.inj got)
    rw [←same]
    split
    · unfold AccessList.stripEnd
      split
      · exact ⟨fun within => early (List.dropLast_subset _ within),fun zero =>
          full (List.dropLast_subset _ (List.dropLast_subset _ zero))⟩
      · exact ⟨early,fun zero => full (List.dropLast_subset _ zero)⟩
    · rename_i other
      refine ⟨fun within => ?_,full⟩
      have nonempty : cstr buf ≠ [] := List.ne_nil_of_mem within
      rw [←List.dropLast_concat_getLast nonempty] at within
      rcases List.mem_append.mp within with before | last
      · exact early before
      · exact other (by rw [List.getLast?_eq_some_getLast nonempty,List.mem_singleton.mp last])

theorem entries_mem (within : line ∈ AccessList.entries text) : AccessList.lf ∉ line ∧ 0 ∉ line ∧
    line.head? ≠ some 35 := by
  unfold AccessList.entries at within
  generalize text.length+1 = fuel at within
  induction fuel generalizing text with
  | zero => cases within
  | succ fuel ih =>
    rw [AccessList.entriesFrom] at within
    split at within
    · cases within
    · rename_i got
      split at within
      · exact ih within
      · rename_i plain
        rcases List.mem_cons.mp within with same | later
        · obtain ⟨newline,nul⟩ := getLine_mem got
          rw [same]
          exact ⟨newline,nul,fun comment => plain (.inr comment)⟩
        · exact ih later

theorem readLine_plain {line : Text} (strict : AccessList.lf ∉ line ∧ 0 ∉ line ∧ line.head? ≠ some 35)
    (sorted : Sorted compareUsers users)
    (read : readLine users line = some users') : Sorted compareUsers users' ∧
    ∀ u ∈ users'.toList, u ∈ users.toList ∨ (u.pass.length = 32 → Plain u.name) := by
  unfold readLine at read
  split at read
  · rename_i separator
    split at read
    · rename_i short
      cases read
      refine ⟨sorted_insert sorted _,fun u within => ?_⟩
      rcases (mem_insert sorted _).mp within with same | old
      · refine .inr fun hash => ?_
        rw [same] at hash ⊢
        dsimp only at hash ⊢
        have front : (lineName line) <+: line := List.takeWhile_prefix _
        have bound : (lineName line).length ≤ line.length := front.length_le
        rw [List.length_drop] at hash
        rw [AccessList.maxLineLen] at short
        refine ⟨fun colon_ => by simpa using List.mem_takeWhile_imp colon_,fun newline => strict.1 (front.subset newline),
          fun nul => strict.2.1 (front.subset nul),fun comment => strict.2.2 ?_,by omega⟩
        obtain ⟨back,whole⟩ := front
        rw [←whole,List.head?_append,comment]
        rfl
      · exact .inl old
    · cases read
  · cases read
    exact ⟨sorted,fun u within => .inl within⟩

theorem read_plain {lines : List Text} (strict : ∀ line ∈ lines, AccessList.lf ∉ line ∧ 0 ∉ line ∧ line.head? ≠ some 35)
    (read : lines.foldlM readLine .leaf = some users) : ∀ u ∈ users.toList, u.pass.length = 32 → Plain u.name := by
  have grows : ∀ (lines : List Text) (tree : AvlTree User),
    (∀ line ∈ lines, AccessList.lf ∉ line ∧ 0 ∉ line ∧ line.head? ≠ some 35) →
      Sorted compareUsers tree → (∀ u ∈ tree.toList, u.pass.length = 32 → Plain u.name) →
        lines.foldlM readLine tree = some users →
      ∀ u ∈ users.toList, u.pass.length = 32 → Plain u.name := by
    intro lines
    induction lines with
    | nil =>
      intro tree _ _ plain read
      cases read
      exact plain
    | cons line lines ih =>
      intro tree strict sorted plain read
      rw [List.foldlM_cons] at read
      obtain ⟨tree',first,later⟩ := Option.bind_eq_some_iff.mp read
      obtain ⟨sorted',added⟩ := readLine_plain (strict line List.mem_cons_self) sorted first
      refine ih tree' (fun other within => strict other (List.mem_cons_of_mem line within)) sorted'
        (fun u within hash => ?_) later
      rcases added u within with old | new
      · exact plain u old hash
      · exact new hash
  exact grows lines .leaf strict .nil nofun read

end Icecast.Htpasswd
