import Mathlib.Data.List.Nodup
import Icecast.ConfigMounts
import Icecast.Lib.Avl

namespace Icecast.SourceFallback
open Avl Bytes ConfigMounts

-- What source_find_mount reads of source_t.
structure Source where
  mount : Text
  running : Bool
  onDemand : Bool
deriving DecidableEq

-- source_compare_sources
def compareSources (a b : Source) : Ordering := compare a.mount b.mount

instance : Std.TransCmp compareSources := inferInstanceAs (Std.TransCmp (compareOn fun s : Source => s.mount))

-- global.source_tree
structure SourceTree where
  tree : AvlTree Source
  sorted : Sorted compareSources tree
  unique : (tree.toList.map (·.mount)).Nodup

-- The walk of source_find_mount_raw.
def walk (mount : Text) : AvlTree Source → Option Source
  | .leaf => none
  | .node left source _ right =>
    match compare mount source.mount with
    | .lt => walk mount left
    | .gt => walk mount right
    | .eq => some source

def sourceFindMountRaw (sources : SourceTree) (mount : Option Text) : Option Source :=
  mount.bind fun mount => walk mount sources.tree

def maxFallbackDepth : Nat := 10

def active (source : Source) : Bool := source.running || source.onDemand

section Loop

variable (fnmatch : Text → Text → Bool) (mounts : List MountProxy) (sources : SourceTree)

-- The loop of source_find_mount, with the number of rounds it has left.
def findMount : Nat → Option Text → Option Source
  | 0,_ => none
  | _+1,none => none
  | left+1,some mount =>
    match (sourceFindMountRaw sources (some mount)).filter active with
    | some source => some source
    | none =>
      match configFindMount fnmatch mounts (some mount) .normal with
      | none => none
      | some mountinfo => findMount left mountinfo.fallbackMount

def sourceFindMount (mount : Option Text) : Option Source := findMount fnmatch mounts sources maxFallbackDepth mount

-- The mounts that are one fallback after another: each has to be configured for there to be a next.
def fallbackOf (mount : Text) : Option Text :=
  (configFindMount fnmatch mounts (some mount) .normal).bind (·.fallbackMount)

def chain (mount : Option Text) : Nat → Option Text
  | 0 => mount
  | k+1 => (chain mount k).bind (fallbackOf fnmatch mounts)

end Loop

section Spec

variable {fnmatch : Text → Text → Bool} {mounts : List MountProxy} {sources : SourceTree}

theorem walk_mem (found : walk mount t = some source) : source ∈ t.toList ∧ source.mount = mount := by
  induction t with
  | leaf => cases found
  | node left here balance right ihl ihr =>
    unfold walk at found
    cases order : compare mount here.mount with
    | lt =>
      rw [order] at found
      exact ⟨by simp [(ihl found).1],(ihl found).2⟩
    | gt =>
      rw [order] at found
      exact ⟨by simp [(ihr found).1],(ihr found).2⟩
    | eq =>
      rw [order] at found
      cases Option.some.inj found
      exact ⟨by simp,(Std.LawfulEqCmp.compare_eq_iff_eq.mp order).symm⟩

theorem walk_get (t : AvlTree Source) (source : Source) : walk source.mount t = getByKey compareSources source t := by
  induction t with
  | leaf => rfl
  | node left here balance right ihl ihr =>
    unfold walk getByKey
    rw [ihl,ihr]
    rfl

theorem raw_iff {mount : Text} : sourceFindMountRaw sources (some mount) = some source ↔
    source ∈ sources.tree.toList ∧ source.mount = mount := by
  constructor
  · exact walk_mem
  · rintro ⟨member,rfl⟩
    change walk source.mount sources.tree = some source
    cases found : walk source.mount sources.tree with
    | none =>
      rw [walk_get] at found
      exact absurd Std.ReflCmp.compare_self (get_none sources.sorted found source member)
    | some other =>
      obtain ⟨there,same⟩ := walk_mem found
      rw [List.inj_on_of_nodup_map sources.unique there member same]

-- The source of a mount, where it can be listened to.
structure Answers (sources : SourceTree) (mount : Text) (source : Source) : Prop where
  listed : source ∈ sources.tree.toList
  mount : source.mount = mount
  active : source.running = true ∨ source.onDemand = true

theorem filter_iff {mount : Text} : (sourceFindMountRaw sources (some mount)).filter active = some source ↔
    Answers sources mount source := by
  rw [Option.filter_eq_some_iff,raw_iff]
  constructor
  · rintro ⟨⟨listed,same⟩,active_⟩
    exact ⟨listed,same,(Bool.or_eq_true _ _).mp active_⟩
  · intro answers
    exact ⟨⟨answers.listed,answers.mount⟩,(Bool.or_eq_true _ _).mpr answers.active⟩

-- The answer of the k-th mount of the chain, the mounts before it having none.
def FirstAt (fnmatch : Text → Text → Bool) (mounts : List MountProxy) (sources : SourceTree)
    (mount : Option Text) (k : Nat) (source : Source) : Prop :=
  (∃ here, chain fnmatch mounts mount k = some here ∧ Answers sources here source) ∧
    ∀ j < k, ∀ before, chain fnmatch mounts mount j = some before → ∀ other, ¬Answers sources before other

theorem chain_next {mount : Text} {next : Option Text} (fallback : fallbackOf fnmatch mounts mount = next) (k : Nat) :
    chain fnmatch mounts (some mount) (k+1) = chain fnmatch mounts next k := by
  induction k with
  | zero => exact fallback
  | succ k ih =>
    rw [chain,ih]
    rfl

theorem chain_none (k : Nat) : chain fnmatch mounts none k = none := by
  induction k with
  | zero => rfl
  | succ k ih => rw [chain,ih,Option.bind_none]

theorem firstAt_next {mount : Text} (silent : ∀ other, ¬Answers sources mount other) (k : Nat) (source : Source) :
    FirstAt fnmatch mounts sources (some mount) (k+1) source ↔
    FirstAt fnmatch mounts sources (fallbackOf fnmatch mounts mount) k source := by
  unfold FirstAt
  rw [chain_next rfl]
  refine and_congr_right fun _ => ?_
  constructor
  · intro earlier j below before there
    exact earlier (j+1) (Nat.succ_lt_succ below) before ((chain_next rfl j).trans there)
  · intro earlier j below before there
    cases j with
    | zero =>
      cases Option.some.inj there
      exact silent
    | succ j => exact earlier j (Nat.lt_of_succ_lt_succ below) before ((chain_next rfl j).symm.trans there)

theorem findMount_next {mount : Text}
    (silent : (sourceFindMountRaw sources (some mount)).filter active = none) (left : Nat) :
    findMount fnmatch mounts sources (left+1) (some mount) = findMount fnmatch mounts sources left
    (fallbackOf fnmatch mounts mount) := by
  rw [findMount,silent]
  unfold fallbackOf
  cases configFindMount fnmatch mounts (some mount) .normal with
  | none => cases left <;> rfl
  | some mountinfo => rfl

theorem findMount_iff (left : Nat) (mount : Option Text) (source : Source) :
    findMount fnmatch mounts sources left mount = some source ↔
    ∃ k < left, FirstAt fnmatch mounts sources mount k source := by
  induction left generalizing mount with
  | zero =>
    constructor
    · intro found
      cases found
    · rintro ⟨_,below,_⟩
      cases below
  | succ left ih =>
    cases mount with
    | none =>
      constructor
      · intro found
        cases found
      · rintro ⟨k,_,⟨here,there,_⟩,_⟩
        rw [chain_none] at there
        cases there
    | some mount =>
      cases answer : (sourceFindMountRaw sources (some mount)).filter active with
      | some first =>
        have answers := filter_iff.mp answer
        rw [findMount,answer]
        constructor
        · intro same
          cases Option.some.inj same
          exact ⟨0,Nat.succ_pos _,⟨mount,rfl,answers⟩,fun j below => absurd below (Nat.not_lt_zero j)⟩
        · rintro ⟨k,_,⟨here,there,found⟩,earlier⟩
          cases k with
          | zero =>
            cases Option.some.inj there
            exact answer.symm.trans (filter_iff.mpr found)
          | succ k => exact absurd answers (earlier 0 (Nat.succ_pos k) mount rfl first)
      | none =>
        have silent : ∀ other, ¬Answers sources mount other := fun other answers =>
          nomatch answer.symm.trans (filter_iff.mpr answers)
        rw [findMount_next answer,ih]
        constructor
        · rintro ⟨k,below,found⟩
          exact ⟨k+1,Nat.succ_lt_succ below,(firstAt_next silent k source).mpr found⟩
        · rintro ⟨k,below,found⟩
          cases k with
          | zero =>
            obtain ⟨⟨here,there,answers⟩,_⟩ := found
            cases Option.some.inj there
            exact absurd answers (silent source)
          | succ k => exact ⟨k,Nat.lt_of_succ_lt_succ below,(firstAt_next silent k source).mp found⟩

theorem exists_firstAt (k : Nat) {here : Text} (there : chain fnmatch mounts mount k = some here)
    (answers : Answers sources here source) :
    ∃ j ≤ k, ∃ first, FirstAt fnmatch mounts sources mount j first := by
  induction k using Nat.strongRecOn generalizing here source with
  | ind k ih =>
    by_cases earlier : ∃ j < k, ∃ before, chain fnmatch mounts mount j = some before ∧
      ∃ other, Answers sources before other
    · obtain ⟨j,below,before,place,other,answers'⟩ := earlier
      obtain ⟨i,under,first,found⟩ := ih j below place answers'
      exact ⟨i,Nat.le_trans under (Nat.le_of_lt below),first,found⟩
    · exact ⟨k,Nat.le_refl k,source,⟨here,there,answers⟩,fun j below before place other answers' =>
        earlier ⟨j,below,before,place,other,answers'⟩⟩

-- Whatever the fallbacks are, the search ends with the first source on the chain that can be listened to.
theorem source_find_mount (fnmatch : Text → Text → Bool) (mounts : List MountProxy) (sources : SourceTree)
    (mount : Option Text) :
    (∀ source, sourceFindMount fnmatch mounts sources mount = some source ↔
      ∃ k < maxFallbackDepth, FirstAt fnmatch mounts sources mount k source) ∧
    (sourceFindMount fnmatch mounts sources mount = none ↔ ∀ k < maxFallbackDepth, ∀ here,
    chain fnmatch mounts mount k = some here →
      ∀ source, ¬Answers sources here source) ∧
    ∀ source, sourceFindMount fnmatch mounts sources mount = some source → source.running = true ∨
    source.onDemand = true := by
  have found : ∀ source, sourceFindMount fnmatch mounts sources mount = some source ↔
      ∃ k < maxFallbackDepth, FirstAt fnmatch mounts sources mount k source := findMount_iff maxFallbackDepth mount
  refine ⟨found,?_,?_⟩
  · constructor
    · intro missing k below here there source answers
      obtain ⟨j,under,first,place⟩ := exists_firstAt k there answers
      have filled := (found first).mpr ⟨j,Nat.lt_of_le_of_lt under below,place⟩
      exact nomatch missing.symm.trans filled
    · intro silent
      cases answer : sourceFindMount fnmatch mounts sources mount with
      | none => rfl
      | some source =>
        obtain ⟨k,below,⟨here,there,answers⟩,_⟩ := (found source).mp answer
        exact absurd answers (silent k below here there source)
  · intro source answer
    obtain ⟨_,_,⟨_,_,answers⟩,_⟩ := (found source).mp answer
    exact answers.active

end Spec

-- A source that has not started, and the one its listeners fall back to.
def jazz : Source := ⟨ascii "/jazz",false,false⟩
def live : Source := ⟨ascii "/live",true,false⟩

def jazzSources : SourceTree where
  tree := insert compareSources live (insert compareSources jazz .leaf)
  sorted := sorted_insert (sorted_insert (show Sorted compareSources .leaf from .nil) jazz) live
  unique := by decide +kernel

def jazzMounts : List MountProxy := [⟨some (ascii "/jazz"),.normal,some (ascii "/live"),[],none⟩]

def noFnmatch : Text → Text → Bool := fun _ _ => false

theorem source_find_mount_jazz :
    sourceFindMount noFnmatch jazzMounts jazzSources (some (ascii "/jazz")) = some live ∧
    ∃ k < maxFallbackDepth, FirstAt noFnmatch jazzMounts jazzSources (some (ascii "/jazz")) k live := by
  have found : sourceFindMount noFnmatch jazzMounts jazzSources (some (ascii "/jazz")) = some live := by decide +kernel
  exact ⟨found,((source_find_mount noFnmatch jazzMounts jazzSources (some (ascii "/jazz"))).1 live).mp found⟩

end Icecast.SourceFallback
