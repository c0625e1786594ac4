import Icecast.Lib.Avl
import Icecast.Lib.Bytes

namespace Icecast.AccessList
open Bytes Avl

def lf : UInt8 := 10
def cr : UInt8 := 13
def maxLineLen : Nat := 512

-- fgets of up to n characters, and the rest of the file.
def fgets : Nat → List UInt8 → List UInt8 × List UInt8
  | 0,file => ([],file)
  | _,[] => ([],[])
  | n+1,c::file => if c = lf then ([c],file) else let (buf,rest) := fgets n file; (c::buf,rest)

theorem fgets_length (n : Nat) (file : List UInt8) : (fgets n file).1.length+(fgets n file).2.length = file.length := by
  induction file generalizing n with
  | nil => cases n <;> rfl
  | cons c file ih =>
    cases n with
    | zero => exact Nat.zero_add _
    | succ n =>
      unfold fgets
      split
      · exact Nat.add_comm 1 _
      · simp only [List.length_cons]
        have rest := ih n
        omega

theorem fgets_some (n : Nat) (c : UInt8) (file : List UInt8) : 0 < (fgets (n+1) (c::file)).1.length := by
  unfold fgets
  split
  · exact Nat.one_pos
  · exact Nat.succ_pos _

theorem fgets_line {line : List UInt8} (clean : lf ∉ line) (rest : List UInt8) {n : Nat} (short : line.length < n) :
    fgets n (line++lf::rest) = (line++[lf],rest) := by
  induction line generalizing n with
  | nil =>
    cases n with
    | zero => cases short
    | succ n => exact if_pos rfl
  | cons c line ih =>
    cases n with
    | zero => cases short
    | succ n =>
      have other : c ≠ lf := fun same => clean (same ▸ List.mem_cons_self)
      have later := ih (fun inside => clean (List.mem_cons_of_mem c inside)) (Nat.lt_of_succ_lt_succ short)
      rw [List.cons_append,fgets,if_neg other,later]
      rfl

theorem fgets_last {line : List UInt8} (clean : lf ∉ line) {n : Nat} (short : line.length ≤ n) :
    fgets n line = (line,[]) := by
  induction line generalizing n with
  | nil => cases n <;> rfl
  | cons c line ih =>
    cases n with
    | zero => cases short
    | succ n =>
      have other : c ≠ lf := fun same => clean (same ▸ List.mem_cons_self)
      have later := ih (fun inside => clean (List.mem_cons_of_mem c inside)) (Nat.le_of_succ_le_succ short)
      rw [fgets,if_neg other,later]

theorem fgets_read (n : Nat) (file : List UInt8) :
    ∃ front, lf ∉ front ∧ ((fgets n file).1 = front ∨ (fgets n file).1 = front++[lf]) := by
  induction n generalizing file with
  | zero => exact ⟨[],nofun,.inl rfl⟩
  | succ n ih =>
    cases file with
    | nil => exact ⟨[],nofun,.inl rfl⟩
    | cons c file =>
      rw [fgets]
      by_cases same : c = lf
      · rw [if_pos same]
        exact ⟨[],nofun,.inr (congrArg (fun c => [c]) same)⟩
      · rw [if_neg same]
        obtain ⟨front,whole,read⟩ := ih file
        refine ⟨c::front,List.not_mem_cons_of_ne_of_not_mem (fun equal => same equal.symm) whole,?_⟩
        exact read.imp (congrArg (c::·)) (congrArg (c::·))

def stripEnd (c : UInt8) (buf : List UInt8) : List UInt8 := if buf.getLast? = some c then buf.dropLast else buf

-- get_line; none at the end of the file.
def getLine (file : List UInt8) : Option (List UInt8 × List UInt8) :=
  if file = [] then none else
  let (read,rest) := fgets (maxLineLen-1) file
  let buf := cstr read
  some (if buf.getLast? = some lf then stripEnd cr buf.dropLast else buf,rest)

-- The loop of recheck_ip_file over the file; every call of get_line takes something.
def entriesFrom : Nat → List UInt8 → List (List UInt8)
  | 0,_ => []
  | fuel+1,file =>
    match getLine file with
    | none => []
    | some (line,rest) =>
      if line = [] ∨ line.head? = some 35 then entriesFrom fuel rest else line::entriesFrom fuel rest

def entries (file : List UInt8) : List (List UInt8) := entriesFrom (file.length+1) file

-- cache_file_contents; `contents` is the tree of lines, or in the abstract model the lines.
structure CacheFile (β : Type u) where
  filename : Option (List UInt8)
  fileRecheck : Int
  fileMtime : Int
  contents : Option β
deriving DecidableEq,Repr

-- What time, stat and fopen answer.
structure Env where
  now : Int
  mtime : List UInt8 → Option Int
  file : List UInt8 → Option (List UInt8)

def recheckIpFile (build : List (List UInt8) → β) (env : Env) (cache : CacheFile β) : CacheFile β :=
  if env.now ≥ cache.fileRecheck then
    let cache := {cache with fileRecheck := env.now+10}
    match cache.filename with
    | none => {cache with contents := none}
    | some filename =>
      match env.mtime filename with
      | none => cache
      | some mtime =>
        if mtime = cache.fileMtime then cache else
        let cache := {cache with fileMtime := mtime}
        match env.file filename with
        | none => cache
        | some file => {cache with contents := some (build (entries file))}
  else cache

-- compare_ip is called with the wanted address first.
def compareIp (ip pattern : List UInt8) : Ordering := compare pattern ip

def ipTree (lines : List (List UInt8)) : AvlTree (List UInt8) :=
  lines.foldl (fun t line => insert compareIp line t) .leaf

-- avl_box_get_by_key; none where it reads through the result it did not get.
def avlBoxGetByKey (t : AvlTree (List UInt8)) (key : List UInt8) : Option (List UInt8) := getByKey compareIp key t

-- The two caches.
structure Filter (β : Type u) where
  banned : CacheFile β
  allowed : CacheFile β
deriving DecidableEq,Repr

def Filter.initial : Filter β := ⟨⟨none,0,0,none⟩,⟨none,0,0,none⟩⟩

def Filter.recheck (build : List (List UInt8) → β) (ban allow : Env) (f : Filter β) : Filter β :=
  ⟨recheckIpFile build ban f.banned,recheckIpFile build allow f.allowed⟩

-- accept_ip_address once the files are checked: false for a return value of 0, none on
-- a NULL dereference.
def verdict (f : Filter (AvlTree (List UInt8))) (ip : List UInt8) : Option Bool :=
  (match f.banned.contents with
    | some contents => (avlBoxGetByKey contents ip).map fun _ => true
    | none => some false).bind fun isBanned =>
  if isBanned then some false else
  match f.allowed.contents with
  | some contents => (avlBoxGetByKey contents ip).map fun _ => true
  | none => some true

def acceptIpAddress (ban allow : Env) (f : Filter (AvlTree (List UInt8))) (ip : List UInt8) : Option Bool :=
  verdict (f.recheck ipTree ban allow) ip

-- A new configuration sets the names of the files; a check may load them.
inductive Event where
  | configure (banfile allowfile : Option (List UInt8))
  | check (ban allow : Env) (ip : List UInt8)

def Filter.after (build : List (List UInt8) → β) (f : Filter β) : Event → Filter β
  | .configure banfile allowfile =>
    ⟨{f.banned with filename := banfile},{f.allowed with filename := allowfile}⟩
  | .check ban allow _ => f.recheck build ban allow

-- The caches after a sequence of events, and with lines in place of trees: what is loaded.
def cachesAfter (events : List Event) : Filter (AvlTree (List UInt8)) := events.foldl (Filter.after ipTree) .initial

def loadedAfter (events : List Event) : Filter (List (List UInt8)) := events.foldl (Filter.after id) .initial

def Refused (loaded : Filter (List (List UInt8))) (ip : List UInt8) : Prop :=
  (∃ lines, loaded.banned.contents = some lines ∧ ip ∈ lines) ∨
    ∃ lines, loaded.allowed.contents = some lines ∧ ip ∉ lines

-- No lookup that is made misses.
def Hits (loaded : Filter (List (List UInt8))) (ip : List UInt8) : Prop :=
  match loaded.banned.contents,loaded.allowed.contents with
  | some lines,_ => ip ∈ lines
  | none,some lines => ip ∈ lines
  | none,none => True

instance : Std.TransCmp compareIp := inferInstanceAs (Std.TransCmp fun a b : List UInt8 => compare b a)

theorem compareIp_eq : compareIp ip line = .eq ↔ ip = line := by
  rw [compareIp,Std.LawfulEqCmp.compare_eq_iff_eq]
  exact eq_comm

-- A tree of lines holds exactly them.
structure Holds (t : AvlTree (List UInt8)) (lines : List (List UInt8)) : Prop where
  sorted : Sorted compareIp t
  mem : ∀ line, line ∈ t.toList ↔ line ∈ lines

theorem ipTree_holds (lines : List (List UInt8)) : Holds (ipTree lines) lines := by
  have grows : ∀ more t seen, Holds t seen →
    Holds (more.foldl (fun t line => insert compareIp line t) t) (seen++more) := by
    intro more
    induction more with
    | nil =>
      intro t seen holds
      simpa using holds
    | cons line more ih =>
      intro t seen holds
      have next := ih (insert compareIp line t) (seen++[line]) ⟨sorted_insert holds.sorted line,fun other => by
        rw [mem_insert holds.sorted,holds.mem]
        simp
        tauto⟩
      simpa using next
  exact grows lines .leaf [] ⟨List.Pairwise.nil,by simp⟩

theorem Holds.lookup (holds : Holds t lines) : (ip ∈ lines → avlBoxGetByKey t ip = some ip) ∧
    (ip ∉ lines → avlBoxGetByKey t ip = none) := by
  unfold avlBoxGetByKey
  cases found : getByKey compareIp ip t with
  | none =>
    have missing := get_none holds.sorted found
    refine ⟨fun member => ?_,fun _ => rfl⟩
    exact absurd (compareIp_eq.mpr rfl) (missing ip ((holds.mem ip).mpr member))
  | some x =>
    obtain ⟨member,same⟩ := get_mem found
    cases compareIp_eq.mp same
    exact ⟨fun _ => rfl,fun outside => absurd ((holds.mem ip).mp member) outside⟩

-- The caches hold what is loaded.
structure Caches (cache : CacheFile (AvlTree (List UInt8))) (loaded : CacheFile (List (List UInt8))) : Prop where
  filename : cache.filename = loaded.filename
  recheck : cache.fileRecheck = loaded.fileRecheck
  mtime : cache.fileMtime = loaded.fileMtime
  contents : match cache.contents,loaded.contents with
    | some t,some lines => Holds t lines
    | none,none => True
    | _,_ => False

theorem recheck_caches (caches : Caches cache loaded) (env : Env) :
    Caches (recheckIpFile ipTree env cache) (recheckIpFile id env loaded) := by
  obtain ⟨name,due,mtime,t⟩ := cache
  obtain ⟨name',due',mtime',lines⟩ := loaded
  obtain ⟨rfl,rfl,rfl,contents⟩ := caches
  unfold recheckIpFile
  dsimp only
  split
  · cases name with
    | none => exact ⟨rfl,rfl,rfl,trivial⟩
    | some name =>
      dsimp only
      cases env.mtime name with
      | none => exact ⟨rfl,rfl,rfl,contents⟩
      | some mtime =>
        dsimp only
        split
        · exact ⟨rfl,rfl,rfl,contents⟩
        · cases env.file name with
          | none => exact ⟨rfl,rfl,rfl,contents⟩
          | some file => exact ⟨rfl,rfl,rfl,ipTree_holds (entries file)⟩
  · exact ⟨rfl,rfl,rfl,contents⟩

structure Filters (f : Filter (AvlTree (List UInt8))) (loaded : Filter (List (List UInt8))) : Prop where
  banned : Caches f.banned loaded.banned
  allowed : Caches f.allowed loaded.allowed

theorem after_filters (filters : Filters f loaded) (event : Event) :
    Filters (f.after ipTree event) (loaded.after id event) := by
  cases event with
  | configure banfile allowfile =>
    exact ⟨{filters.banned with filename := rfl},{filters.allowed with filename := rfl}⟩
  | check ban allow ip => exact ⟨recheck_caches filters.banned ban,recheck_caches filters.allowed allow⟩

theorem cachesAfter_filters (events : List Event) : Filters (cachesAfter events) (loadedAfter events) := by
  have run : ∀ (events : List Event) f loaded, Filters f loaded →
      Filters (events.foldl (Filter.after ipTree) f) (events.foldl (Filter.after id) loaded) := by
    intro events
    induction events with
    | nil => exact fun _ _ filters => filters
    | cons event events ih => exact fun _ _ filters => ih _ _ (after_filters filters event)
  exact run events .initial .initial ⟨⟨rfl,rfl,rfl,trivial⟩,⟨rfl,rfl,rfl,trivial⟩⟩

theorem verdict_iff (filters : Filters f loaded) (ip : List UInt8) :
    (∃ accepted, verdict f ip = some accepted ∧ (accepted = false ↔ Refused loaded ip)) ↔ Hits loaded ip := by
  have banned := filters.banned.contents
  have allowed := filters.allowed.contents
  unfold verdict Hits Refused
  cases ban : loaded.banned.contents with
  | some lines =>
    cases tree : f.banned.contents with
    | none => simp [ban,tree] at banned
    | some t =>
      simp only [ban,tree] at banned
      by_cases member : ip ∈ lines
      · simp [banned.lookup.1 member,member]
      · simp [banned.lookup.2 member,member]
  | none =>
    cases tree : f.banned.contents with
    | some t => simp [ban,tree] at banned
    | none =>
      cases allow : loaded.allowed.contents with
      | some lines =>
        cases tree : f.allowed.contents with
        | none => simp [allow,tree] at allowed
        | some t =>
          simp only [allow,tree] at allowed
          by_cases member : ip ∈ lines
          · simp [allowed.lookup.1 member,member]
          · simp [allowed.lookup.2 member,member]
      | none =>
        cases tree : f.allowed.contents with
        | some t => simp [allow,tree] at allowed
        | none => simp

theorem acceptIpAddress_iff (events : List Event) (ban allow : Env) (ip : List UInt8) :
    (∃ accepted, acceptIpAddress ban allow (cachesAfter events) ip = some accepted ∧
      (accepted = false ↔ Refused ((loadedAfter events).recheck id ban allow) ip)) ↔
    Hits ((loadedAfter events).recheck id ban allow) ip :=
  verdict_iff (after_filters (cachesAfter_filters events) (.check ban allow ip)) ip

-- A ban list of one address, and a peer with another one.
def oneBan : Env := ⟨0,fun _ => some 1,fun _ => some (ascii "10.0.0.1\n")⟩

theorem unlisted_crashes :
    ¬∃ accepted, acceptIpAddress oneBan oneBan (cachesAfter [.configure (some (ascii "ban")) none])
    (ascii "10.0.0.2") =
    some accepted := by
  have crash : acceptIpAddress oneBan oneBan (cachesAfter [.configure (some (ascii "ban")) none])
    (ascii "10.0.0.2") = none := by
    decide +kernel
  simp [crash]

end Icecast.AccessList
