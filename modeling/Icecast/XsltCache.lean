import Mathlib.Algebra.Group.Nat.Defs
import Mathlib.Algebra.Group.Int.Defs
import Icecast.Lib.Resources
import Icecast.Lib.Transition
import Icecast.Lib.Bytes
import Mathlib.Data.List.FinRange
import Mathlib.Logic.Function.Basic

namespace Icecast.XsltCache
open Bytes Resources Transition

-- CACHESIZE
def cacheSize : Nat := 3

abbrev Slot := Fin cacheSize

-- stylesheet_cache_t. A stylesheet is what parsing gave and its number in the order of creation;
-- none is NULL.
structure Entry (ρ : Type) where
  filename : Option (List UInt8)
  lastModified : Int
  cacheAge : Int
  stylesheet : Option (ρ × Nat)
deriving DecidableEq

structure Cache (ρ : Type) where
  entries : Slot → Entry ρ
  sheets : Ledger ρ

-- xslt_initialize
def initialized : Cache ρ := ⟨fun _ => ⟨none,0,0,none⟩,blank⟩

-- What stat and the parser see of a name: when it changed last, and what it contains if it is there.
structure File (κ : Type) where
  mtime : Int
  content : Option κ

-- A stylesheet file that does not parse gives NULL.
def xsltParseStylesheetFile (parse : κ → Option ρ) (content : κ) (l : Ledger ρ) : Option (ρ × Nat) × Ledger ρ :=
  match parse content with
  | none => (none,l)
  | some sheet => (some (l.fresh sheet),l.add sheet)

def xsltFreeStylesheet (l : Ledger ρ) : Option (ρ × Nat) → Ledger ρ
  | none => l
  | some sheet => l.release sheet

-- The loop of evict_cache_entry; `age` is an int and takes the lower 32 bits of a time.
def choose (entries : Slot → Entry ρ) (age : Int) (oldest : Slot) : List Slot → Slot
  | [] => oldest
  | i::rest =>
    if (entries i).cacheAge > age then choose entries
      ((entries i).cacheAge.bmod (2^32)) i rest else choose entries age oldest rest

def evictCacheEntry (entries : Slot → Entry ρ) : Slot := choose entries 0 ⟨0,by decide⟩ (List.finRange cacheSize)

-- The loop of xslt_get_stylesheet: the slot of the name, or the last empty one.
def search (entries : Slot → Entry ρ) (fn : List UInt8) (empty : Option Slot) : List Slot → Slot ⊕ Option Slot
  | [] => .inr empty
  | i::rest =>
    match (entries i).filename with
    | some name => if fn = name then .inl i else search entries fn empty rest
    | none => search entries fn (some i) rest

def xsltGetStylesheet (parse : κ → Option ρ) (now : Int) (file : File κ) (fn : List UInt8) (c : Cache ρ) :
    Option (ρ × Nat) × Cache ρ :=
  match file.content with
  | none => (none,c)
  | some content =>
    match search c.entries fn none (List.finRange cacheSize) with
    | .inl i =>
      if file.mtime > (c.entries i).lastModified then
        let freed := xsltFreeStylesheet c.sheets (c.entries i).stylesheet
        let (stylesheet,sheets) := xsltParseStylesheetFile parse content freed
        (stylesheet,⟨Function.update c.entries i ⟨(c.entries i).filename,file.mtime,now,stylesheet⟩,sheets⟩)
      else ((c.entries i).stylesheet,c)
    | .inr empty =>
      let (i,freed) := match empty with
        | some i => (i,c.sheets)
        | none =>
          let oldest := evictCacheEntry c.entries
          (oldest,xsltFreeStylesheet c.sheets (c.entries oldest).stylesheet)
      let (stylesheet,sheets) := xsltParseStylesheetFile parse content freed
      (stylesheet,⟨Function.update c.entries i ⟨some fn,file.mtime,now,stylesheet⟩,sheets⟩)

-- The server with its files and clock.
structure Site (κ ρ : Type) where
  files : List UInt8 → File κ
  clock : Int
  cache : Cache ρ

inductive Event (κ : Type) where
  | request (fn : List UInt8)
  | change (fn : List UInt8) (mtime : Int) (content : κ)
  | remove (fn : List UInt8)
  | tick (now : Int)

-- A change brings a later mtime and the clock does not go back.
def next (parse : κ → Option ρ) (s : Site κ ρ) : Event κ → Option (Site κ ρ)
  | .request fn => some {s with cache := (xsltGetStylesheet parse s.clock (s.files fn) fn s.cache).2}
  | .change fn mtime content =>
    if mtime > (s.files fn).mtime then some {s with files := Function.update s.files fn ⟨mtime,some content⟩} else none
  | .remove fn => some {s with files := Function.update s.files fn ⟨(s.files fn).mtime,none⟩}
  | .tick now => if s.clock ≤ now then some {s with clock := now} else none

def Step (parse : κ → Option ρ) (s : Site κ ρ) (event : Event κ) (t : Site κ ρ) : Prop := next parse s event = some t

def held (entries : Slot → Entry ρ) : List (ρ × Nat) := (List.finRange cacheSize).filterMap fun i =>
    (entries i).stylesheet

def OneEach (entries : Slot → Entry ρ) : Prop :=
  ∀ i j name, (entries i).filename = some name → (entries j).filename = some name → i = j

-- The name needs the slot of another.
def Evicts (s : Site κ ρ) (fn : List UInt8) : Prop :=
  (s.files fn).content.isSome ∧ (∀ i, (s.cache.entries i).filename.isSome) ∧ ∀ i, (s.cache.entries i).filename ≠ some fn

-- The cache without regard to which entry is replaced: one entry a name, and each stylesheet
-- that was made is either in one entry or was freed once.
def Sound (c : Cache ρ) : Prop := OneEach c.entries ∧ Owns c.sheets (held c.entries)

-- What the request is to do from a state.
def Serves (parse : κ → Option ρ) (s : Site κ ρ) (fn : List UInt8) : Prop :=
  let out := xsltGetStylesheet parse s.clock (s.files fn) fn s.cache
  out.1.map Prod.fst = (s.files fn).content.bind parse ∧ Sound out.2 ∧
    (Evicts s fn → ∃ v, (∀ j, j ≠ v → out.2.entries j = s.cache.entries j) ∧ (out.2.entries v).filename = some fn ∧
      ∀ j, (s.cache.entries v).cacheAge ≤ (s.cache.entries j).cacheAge)

-- A new file finds a full cache only when all of its entries were loaded at one time.
def SameAge (s : Site κ ρ) : Event κ → Prop
  | .request fn => Evicts s fn → ∀ i j, (s.cache.entries i).cacheAge = (s.cache.entries j).cacheAge
  | _ => True

-- The slot is loaded anew: what it held is freed, and the file is parsed into it.
def refill (parse : κ → Option ρ) (now mtime : Int) (content : κ) (fn : List UInt8) (v : Slot) (c : Cache ρ) :
    Option (ρ × Nat) × Cache ρ :=
  let loaded := xsltParseStylesheetFile parse content (xsltFreeStylesheet c.sheets (c.entries v).stylesheet)
  (loaded.1,⟨Function.update c.entries v ⟨some fn,mtime,now,loaded.1⟩,loaded.2⟩)

theorem search_cases (entries : Slot → Entry ρ) (fn : List UInt8) (empty : Option Slot) (slots : List Slot) :
    (∃ i, search entries fn empty slots = .inl i ∧ (entries i).filename = some fn) ∨
    ∃ e, search entries fn empty slots = .inr e ∧ (∀ i ∈ slots, (entries i).filename ≠ some fn) ∧
      (∀ i, e = some i → empty = some i ∨ (entries i).filename = none) ∧
      (e = none → empty = none ∧ ∀ i ∈ slots, (entries i).filename.isSome) := by
  induction slots generalizing empty with
  | nil =>
    refine .inr ⟨empty,rfl,?_,?_,?_⟩
    · intro i member
      cases member
    · intro i same
      exact .inl same
    · intro none_left
      exact ⟨none_left,fun i member => nomatch member⟩
  | cons i rest ih =>
    unfold search
    cases named : (entries i).filename with
    | some name =>
      by_cases same : fn = name
      · rw [same] at ⊢
        exact .inl ⟨i,if_pos rfl,named⟩
      · simp only [if_neg same]
        rcases ih empty with ⟨j,found,here⟩ | ⟨e,found,others,some_case,none_case⟩
        · exact .inl ⟨j,found,here⟩
        · refine .inr ⟨e,found,?_,some_case,?_⟩
          · intro j member
            cases List.mem_cons.mp member with
            | inl first =>
              rw [first,named]
              exact fun equal => same (Option.some.inj equal).symm
            | inr later => exact others j later
          · intro none_left
            obtain ⟨before,all⟩ := none_case none_left
            refine ⟨before,fun j member => ?_⟩
            cases List.mem_cons.mp member with
            | inl first => rw [first,named]; rfl
            | inr later => exact all j later
    | none =>
      rcases ih (some i) with ⟨j,found,here⟩ | ⟨e,found,others,some_case,none_case⟩
      · exact .inl ⟨j,found,here⟩
      · refine .inr ⟨e,found,?_,?_,?_⟩
        · intro j member
          cases List.mem_cons.mp member with
          | inl first =>
            rw [first,named]
            exact fun equal => nomatch equal
          | inr later => exact others j later
        · intro j same
          cases some_case j same with
          | inl last => exact .inr (Option.some.inj last ▸ named)
          | inr blank => exact .inr blank
        · intro none_left
          exact nomatch (none_case none_left).1

theorem get_cases {file : File κ} (parse : κ → Option ρ) (now : Int) (there : file.content = some content)
    (fn : List UInt8) (c : Cache ρ)
    (vacant : ∀ i, (c.entries i).filename = none → (c.entries i).stylesheet = none) :
    (∃ i, (c.entries i).filename = some fn ∧ file.mtime ≤ (c.entries i).lastModified ∧
      xsltGetStylesheet parse now file fn c = ((c.entries i).stylesheet,c)) ∨
    (∃ i, (c.entries i).filename = some fn ∧
    xsltGetStylesheet parse now file fn c = refill parse now file.mtime content fn i c) ∨
    ((∀ i, (c.entries i).filename ≠ some fn) ∧
      ((∃ i, (c.entries i).filename = none ∧
      xsltGetStylesheet parse now file fn c = refill parse now file.mtime content fn i c) ∨
      (∀ i, (c.entries i).filename.isSome) ∧
        xsltGetStylesheet parse now file fn c = refill parse now file.mtime content fn
        (evictCacheEntry c.entries) c)) := by
  unfold xsltGetStylesheet
  simp only [there]
  rcases search_cases c.entries fn none (List.finRange cacheSize) with ⟨i,found,named⟩ |
    ⟨e,found,others,some_case,none_case⟩
  · simp only [found]
    by_cases newer : file.mtime > (c.entries i).lastModified
    · rw [if_pos newer,named]
      exact .inr (.inl ⟨i,named,rfl⟩)
    · rw [if_neg newer]
      exact .inl ⟨i,named,Int.not_lt.mp newer,rfl⟩
  · simp only [found]
    refine .inr (.inr ⟨fun i => others i (List.mem_finRange i),?_⟩)
    cases e with
    | some i =>
      have blank := (some_case i rfl).resolve_left fun same => nomatch same
      refine .inl ⟨i,blank,?_⟩
      rw [refill,vacant i blank,xsltFreeStylesheet]
    | none => exact .inr ⟨fun i => (none_case rfl).2 i (List.mem_finRange i),rfl⟩

def others (entries : Slot → Entry ρ) (v : Slot) : List (ρ × Nat) :=
  ((List.finRange cacheSize).erase v).filterMap fun i => (entries i).stylesheet

theorem held_split (entries : Slot → Entry ρ) (v : Slot) : (held entries).Perm
    ((entries v).stylesheet.toList++others entries v) := by
  have whole := (List.perm_cons_erase (List.mem_finRange v)).filterMap fun i => (entries i).stylesheet
  rw [List.filterMap_cons] at whole
  cases sheet : (entries v).stylesheet with
  | none =>
    rw [sheet] at whole
    exact whole
  | some r =>
    rw [sheet] at whole
    exact whole

theorem others_update (entries : Slot → Entry ρ) (v : Slot) (e : Entry ρ) :
    others (Function.update entries v e) v = others entries v := by
  apply List.filterMap_congr
  intro i member
  have apart : i ≠ v := fun same => (List.nodup_finRange cacheSize).not_mem_erase (same ▸ member)
  rw [Function.update_of_ne apart]

theorem free_owns {l : Ledger ρ} (sheet : Option (ρ × Nat)) (owns : Owns l (sheet.toList++rest)) :
    Owns (xsltFreeStylesheet l sheet) rest := by
  cases sheet with
  | none => exact owns
  | some r => exact owns.release

theorem parse_owns {l : Ledger ρ} (parse : κ → Option ρ) (content : κ) (owns : Owns l rest) :
    Owns (xsltParseStylesheetFile parse content l).2 ((xsltParseStylesheetFile parse content l).1.toList++rest) := by
  unfold xsltParseStylesheetFile
  cases parse content with
  | none => exact owns
  | some sheet => exact owns.add sheet

theorem parse_result (parse : κ → Option ρ) (content : κ) (l : Ledger ρ) :
    (xsltParseStylesheetFile parse content l).1.map Prod.fst = parse content := by
  unfold xsltParseStylesheetFile
  cases parse content with
  | none => rfl
  | some sheet => rfl

theorem refill_owns {c : Cache ρ} (parse : κ → Option ρ) (now mtime : Int) (content : κ) (fn : List UInt8)
    (v : Slot) (owns : Owns c.sheets (held c.entries)) :
    Owns (refill parse now mtime content fn v c).2.sheets (held (refill parse now mtime content fn v c).2.entries) := by
  have freed := free_owns _ (owns.perm (held_split c.entries v))
  have made := parse_owns parse content freed
  apply made.perm
  have split := held_split (refill parse now mtime content fn v c).2.entries v
  simp only [refill] at split ⊢
  rw [others_update,Function.update_self] at split
  exact split.symm

-- What every run keeps. An entry is as old as its file or older, and then the file changed since.
structure Kept (parse : κ → Option ρ) (start : Int) (s : Site κ ρ) : Prop where
  one : OneEach s.cache.entries
  vacant : ∀ i, (s.cache.entries i).filename = none → (s.cache.entries i).stylesheet = none
  known : ∀ i fn, (s.cache.entries i).filename = some fn → (s.cache.entries i).lastModified ≤ (s.files fn).mtime
  current : ∀ i fn content,
    (s.cache.entries i).filename = some fn → (s.cache.entries i).lastModified = (s.files fn).mtime →
    (s.files fn).content = some content → (s.cache.entries i).stylesheet.map Prod.fst = parse content
  owns : Owns s.cache.sheets (held s.cache.entries)
  aged : ∀ i, (s.cache.entries i).filename.isSome →
    start ≤ (s.cache.entries i).cacheAge ∧ (s.cache.entries i).cacheAge ≤ s.clock
  started : start ≤ s.clock

theorem start_kept (parse : κ → Option ρ) (files : List UInt8 → File κ) (clock : Int) :
    Kept parse clock ⟨files,clock,initialized⟩ where
  one _ _ _ named := nomatch named
  vacant _ _ := rfl
  known _ _ named := nomatch named
  current _ _ _ named := nomatch named
  owns := blank_owns
  aged _ named := nomatch named
  started := Int.le_refl clock

theorem refill_kept {s : Site κ ρ} {parse : κ → Option ρ} (kept : Kept parse start s)
    (there : (s.files fn).content = some content)
    (only : ∀ i, (s.cache.entries i).filename = some fn → i = v) :
    Kept parse start {s with cache := (refill parse s.clock (s.files fn).mtime content fn v s.cache).2} where
  one i j name left right := by
    simp only [refill] at left right
    by_cases iv : i = v
    · by_cases jv : j = v
      · rw [iv,jv]
      · rw [iv,Function.update_self] at left
        rw [Function.update_of_ne jv] at right
        exact absurd (only j (right.trans left.symm)) jv
    · rw [Function.update_of_ne iv] at left
      by_cases jv : j = v
      · rw [jv,Function.update_self] at right
        exact absurd (only i (left.trans right.symm)) iv
      · rw [Function.update_of_ne jv] at right
        exact kept.one i j name left right
  vacant i blank := by
    simp only [refill] at blank ⊢
    by_cases iv : i = v
    · rw [iv,Function.update_self] at blank
      cases blank
    · rw [Function.update_of_ne iv] at blank ⊢
      exact kept.vacant i blank
  known i name named := by
    simp only [refill] at named ⊢
    by_cases iv : i = v
    · rw [iv,Function.update_self] at named ⊢
      cases named
      exact Int.le_refl _
    · rw [Function.update_of_ne iv] at named ⊢
      exact kept.known i name named
  current i name text named same read := by
    simp only [refill] at named same read ⊢
    by_cases iv : i = v
    · rw [iv,Function.update_self] at named ⊢
      cases named
      cases Option.some.inj (there.symm.trans read)
      exact parse_result parse content _
    · rw [Function.update_of_ne iv] at named same ⊢
      exact kept.current i name text named same read
  owns := refill_owns parse s.clock _ content fn v kept.owns
  aged i named := by
    simp only [refill] at named ⊢
    by_cases iv : i = v
    · rw [iv,Function.update_self]
      exact ⟨kept.started,Int.le_refl _⟩
    · rw [Function.update_of_ne iv] at named ⊢
      exact kept.aged i named
  started := kept.started

theorem request_kept {s : Site κ ρ} {parse : κ → Option ρ} (kept : Kept parse start s) (fn : List UInt8) :
    (xsltGetStylesheet parse s.clock (s.files fn) fn s.cache).1.map Prod.fst = (s.files fn).content.bind parse ∧
      Kept parse start {s with cache := (xsltGetStylesheet parse s.clock (s.files fn) fn s.cache).2} := by
  cases there : (s.files fn).content with
  | none =>
    unfold xsltGetStylesheet
    simp only [there]
    exact ⟨rfl,kept⟩
  | some content =>
    rcases get_cases parse s.clock there fn s.cache kept.vacant with ⟨i,named,fresh,got⟩ |
      ⟨i,named,got⟩ | ⟨absent,other⟩
    · rw [got]
      exact ⟨kept.current i fn content named (Int.le_antisymm (kept.known i fn named) fresh) there,kept⟩
    · rw [got]
      exact ⟨parse_result parse content _,refill_kept kept there fun j also => kept.one j i fn also named⟩
    · have only (v : Slot) : ∀ i, (s.cache.entries i).filename = some fn → i = v := fun i named =>
        absurd named (absent i)
      rcases other with ⟨i,_,got⟩ | ⟨_,got⟩
      · rw [got]
        exact ⟨parse_result parse content _,refill_kept kept there (only i)⟩
      · rw [got]
        exact ⟨parse_result parse content _,refill_kept kept there (only _)⟩

theorem file_kept {s : Site κ ρ} {parse : κ → Option ρ} {f : File κ} (kept : Kept parse start s)
    (later : (s.files fn).mtime ≤ f.mtime)
    (outdated : ∀ content, f.content = some content → (s.files fn).mtime < f.mtime) :
    Kept parse start {s with files := Function.update s.files fn f} where
  one := kept.one
  vacant := kept.vacant
  known i name named := by
    have before := kept.known i name named
    by_cases own : name = fn
    · subst own
      simp only [Function.update_self]
      exact Int.le_trans before later
    · simp only [Function.update_of_ne own]
      exact before
  current i name content named same read := by
    have before := kept.known i name named
    by_cases own : name = fn
    · subst own
      simp only [Function.update_self] at same read
      exact absurd same (Int.ne_of_lt (Int.lt_of_le_of_lt before (outdated content read)))
    · simp only [Function.update_of_ne own] at same read
      exact kept.current i name content named same read
  owns := kept.owns
  aged := kept.aged
  started := kept.started

theorem step_kept {s : Site κ ρ} {parse : κ → Option ρ} (kept : Kept parse start s)
    (step : Step parse s event t) : Kept parse start t := by
  cases event with
  | request fn =>
    cases Option.some.inj step
    exact (request_kept kept fn).2
  | change fn mtime content =>
    simp only [Step,next] at step
    split at step
    · rename_i newer
      cases Option.some.inj step
      exact file_kept kept (Int.le_of_lt newer) fun _ _ => newer
    · cases step
  | remove fn =>
    cases Option.some.inj step
    exact file_kept kept (Int.le_refl _) fun content there => nomatch there
  | tick now =>
    simp only [Step,next] at step
    split at step
    · rename_i later
      cases Option.some.inj step
      exact {kept with
        aged := fun i named => ⟨(kept.aged i named).1,Int.le_trans (kept.aged i named).2 later⟩
        started := Int.le_trans kept.started later}
    · cases step

theorem choose_newest {entries : Slot → Entry ρ} {oldest : Slot}
    (times : ∀ i, 0 < (entries i).cacheAge ∧ (entries i).cacheAge < 2^31)
    (bound : age ≤ (entries oldest).cacheAge) (slots : List Slot) :
    age ≤ (entries (choose entries age oldest slots)).cacheAge ∧
      ∀ i ∈ slots, (entries i).cacheAge ≤ (entries (choose entries age oldest slots)).cacheAge := by
  induction slots generalizing age oldest with
  | nil => exact ⟨bound,fun i member => nomatch member⟩
  | cons i rest ih =>
    unfold choose
    by_cases later : (entries i).cacheAge > age
    · have same : (entries i).cacheAge.bmod (2^32) = (entries i).cacheAge := by
        obtain ⟨low,high⟩ := times i
        apply Int.bmod_eq_of_le
        · omega
        · omega
      rw [if_pos later,same]
      have own : (entries i).cacheAge ≤ (entries i).cacheAge := Int.le_refl _
      obtain ⟨here,all⟩ := ih own
      exact ⟨Int.le_trans (Int.le_of_lt later) here,List.forall_mem_cons.mpr ⟨here,all⟩⟩
    · rw [if_neg later]
      obtain ⟨here,all⟩ := ih bound
      exact ⟨here,List.forall_mem_cons.mpr ⟨Int.le_trans (Int.not_lt.mp later) here,all⟩⟩

theorem evicts_refill {s : Site κ ρ} {parse : κ → Option ρ} (kept : Kept parse start s) (evicts : Evicts s fn) :
    ∃ content, xsltGetStylesheet parse s.clock (s.files fn) fn s.cache =
      refill parse s.clock (s.files fn).mtime content fn (evictCacheEntry s.cache.entries) s.cache := by
  obtain ⟨there,full,absent⟩ := evicts
  obtain ⟨content,there⟩ := Option.isSome_iff_exists.mp there
  refine ⟨content,?_⟩
  rcases get_cases parse s.clock there fn s.cache kept.vacant with ⟨i,named,_⟩ | ⟨i,named,_⟩ | ⟨_,⟨i,blank,_⟩ | ⟨_,got⟩⟩
  · exact absurd named (absent i)
  · exact absurd named (absent i)
  · have named := full i
    rw [blank] at named
    cases named
  · exact got

theorem evicts_slot {s : Site κ ρ} {parse : κ → Option ρ} (kept : Kept parse start s)
    (evicts : Evicts s fn) (v : Slot) :
    ((∀ j, j ≠ v → (xsltGetStylesheet parse s.clock (s.files fn) fn s.cache).2.entries j = s.cache.entries j) ∧
      ((xsltGetStylesheet parse s.clock (s.files fn) fn s.cache).2.entries v).filename = some fn) ↔
      v = evictCacheEntry s.cache.entries := by
  obtain ⟨content,got⟩ := evicts_refill kept evicts
  rw [got]
  simp only [refill]
  constructor
  · intro ⟨_,named⟩
    by_contra other
    rw [Function.update_of_ne other] at named
    exact evicts.2.2 v named
  · intro same
    rw [same,Function.update_self]
    exact ⟨fun j other => Function.update_of_ne other _ _,rfl⟩

theorem start_runs_kept {parse : κ → Option ρ} (path : Runs (Step parse) ⟨files,clock,initialized⟩ events s) :
    Kept parse clock s :=
  path.preserves step_kept (start_kept parse files clock)

-- In every run a request returns the parse of the current file and keeps the cache in order, and
-- it replaces an eldest entry if the entries of a full cache have one age; while times fit an int,
-- only then.
theorem cache_serves {parse : κ → Option ρ} (path : Runs (Step parse) ⟨files,clock,initialized⟩ events s) :
    Sound s.cache ∧ ∀ fn, (SameAge s (.request fn) → Serves parse s fn) ∧
      (0 < clock → s.clock < 2^31 → Serves parse s fn → SameAge s (.request fn)) := by
  have kept := start_runs_kept path
  refine ⟨⟨kept.one,kept.owns⟩,fun fn => ⟨fun same => ?_,fun positive fits serves evicts => ?_⟩⟩
  · obtain ⟨returned,after⟩ := request_kept kept fn
    refine ⟨returned,⟨after.one,after.owns⟩,fun evicts => ?_⟩
    obtain ⟨frame,named⟩ := (evicts_slot kept evicts _).mpr rfl
    exact ⟨_,frame,named,fun j => Int.le_of_eq (same evicts _ j)⟩
  · obtain ⟨v,frame,named,eldest⟩ := serves.2.2 evicts
    have chosen := (evicts_slot kept evicts v).mp ⟨frame,named⟩
    have times (i : Slot) : 0 < (s.cache.entries i).cacheAge ∧ (s.cache.entries i).cacheAge < 2^31 :=
      ⟨Int.lt_of_lt_of_le positive (kept.aged i (evicts.2.1 i)).1,
        Int.lt_of_le_of_lt (kept.aged i (evicts.2.1 i)).2 fits⟩
    have newest (i : Slot) : (s.cache.entries i).cacheAge ≤ (s.cache.entries v).cacheAge :=
      chosen ▸ (choose_newest times (Int.le_of_lt (times _).1) (List.finRange cacheSize)).2 i (List.mem_finRange i)
    intro i j
    have equal (i : Slot) : (s.cache.entries i).cacheAge = (s.cache.entries v).cacheAge :=
      Int.le_antisymm (newest i) (eldest i)
    exact (equal i).trans (equal j).symm

-- Three files loaded one second after another.
def threeLoads : Option (Site (List UInt8) (List UInt8)) :=
  runFrom (next some) ⟨fun name => ⟨0,some name⟩,1,initialized⟩
    [.request (ascii "a"),.tick 2,.request (ascii "b"),.tick 3,.request (ascii "c")]

def crowded : Site (List UInt8) (List UInt8) := threeLoads.get (by decide)

theorem cache_serves_crowded : threeLoads = some crowded ∧ Sound crowded.cache ∧
    ∀ fn, (SameAge crowded (.request fn) → Serves some crowded fn) ∧
    ((0 : Int) < 1 → crowded.clock < 2^31 → Serves some crowded fn → SameAge crowded (.request fn)) := by
  have ran : threeLoads = some crowded := (Option.some_get _).symm
  exact ⟨ran,cache_serves (runFrom_sound (fun step => step) ran)⟩

-- A fourth file takes the slot of the third, which was loaded last.
theorem newest_evicted : ∃ events s, Runs (Step some) ⟨fun name => ⟨0,some name⟩,1,initialized⟩ events s ∧
    ¬Serves some s (ascii "d") := by
  have ran : threeLoads = some crowded := (Option.some_get _).symm
  refine ⟨_,crowded,runFrom_sound (fun step => step) ran,fun serves => ?_⟩
  have full : Evicts crowded (ascii "d") := ⟨by decide +kernel,by decide +kernel,by decide +kernel⟩
  obtain ⟨v,_,named,eldest⟩ := serves.2.2 full
  have later : ∀ v, ((xsltGetStylesheet some crowded.clock (crowded.files (ascii "d"))
    (ascii "d") crowded.cache).2.entries v).filename = some (ascii "d") →
      ¬∀ j, (crowded.cache.entries v).cacheAge ≤ (crowded.cache.entries j).cacheAge := by decide +kernel
  exact later v named eldest

end Icecast.XsltCache
