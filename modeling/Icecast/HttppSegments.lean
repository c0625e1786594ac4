import Icecast.HttppStore

namespace Icecast.Httpp
open Bytes Avl

def ampersand : UInt8 := 38
def equalsSign : UInt8 := 61

def segments (query : List UInt8) : List (List UInt8) := query.splitOnP (· == ampersand)

def nameOf (segment : List UInt8) : List UInt8 := segment.takeWhile (· ≠ equalsSign)

-- A segment of the form key=value, split at its first '='.
def keyValue (segment : List UInt8) : Option (List UInt8 × List UInt8) :=
  if equalsSign ∈ segment then some (nameOf segment,(segment.dropWhile (· ≠ equalsSign)).drop 1) else none

-- The last of the values for a name that can be decoded.
def lastDecoded (name : List UInt8) (pairs : List (List UInt8 × List UInt8)) : Option (List UInt8) :=
  (pairs.filterMap fun kv => if kv.1 = name then (urlEscape kv.2).map cstr else none).getLast?

-- What a query says about a name.
def expected (query name : List UInt8) : Option (List UInt8) := lastDecoded name ((segments query).filterMap keyValue)

-- A store that holds a value for each name that has one and nothing for the others.
def Holds (value : List UInt8 → Option (List UInt8)) (t : AvlTree Var) : Prop :=
  ∀ name, entries t name = (value name).toList.map fun v => (name,some v)

-- What follows the last '=' of a segment.
def lastValue : List UInt8 → Option (List UInt8)
  | [] => none
  | c::segment => (lastValue segment).or (if c = equalsSign then some segment else none)

-- The pairs the loop hands on: a segment without '=' comes with the value of the segments before it.
def handed (stale : Option (List UInt8)) : List (List UInt8) → List (List UInt8 × List UInt8)
  | [] => []
  | segment::rest =>
    let val := (lastValue segment).or stale
    val.toList.map (nameOf segment,·)++handed val rest

theorem Filled.holds (filled : Filled t) : Holds (find t) t := by
  intro name
  rcases filled.once.entries_few name with empty | ⟨v,one⟩
  · rw [empty,find_empty empty]
    rfl
  · have member : v ∈ entries t name := one ▸ List.mem_singleton_self v
    obtain ⟨inside,same⟩ := List.mem_filter.mp member
    have same : v.1 = name := by simpa using same
    obtain ⟨value,stored⟩ := Option.ne_none_iff_exists'.mp (filled.values v inside)
    rw [find_one filled.sorted one,one,stored,←same]
    exact congrArg (fun w => [(v.1,w)]) stored

-- A name with a node without a value, or with more than one node.
def Spoiled (t : AvlTree Var) (name : List UInt8) : Prop := (name,none) ∈ entries t name ∨ 2 ≤ (entries t name).length

theorem two_of_mem {xs : List α} (a b : α) (apart : a ≠ b) (ain : a ∈ xs) (bin : b ∈ xs) : 2 ≤ xs.length := by
  match xs with
  | [] => cases ain
  | [x] =>
    rw [List.mem_singleton] at ain bin
    exact absurd (ain.trans bin.symm) apart
  | _::_::_ => simp

theorem Spoiled.store (spoiled : Spoiled t name) (sorted : Sorted compareVars t) (key : List UInt8)
    (value : Option (List UInt8)) :
    Spoiled (store t key value) name := by
  by_cases same : key = name
  · subst same
    have put : ∀ s, Sorted compareVars s → 1 ≤ (entries s key).length →
      2 ≤ (entries (insert compareVars (key,value) s) key).length := by
      intro s sorted positive
      have more := (entries_insert sorted (key,value) key).length_eq
      rw [if_pos rfl,List.length_cons] at more
      omega
    unfold Httpp.store
    split
    case isTrue =>
      refine .inr (put t sorted ?_)
      rcases spoiled with hidden | many
      · exact List.length_pos_of_mem hidden
      · omega
    case isFalse there =>
      obtain ⟨old,found⟩ := Option.ne_none_iff_exists'.mp there
      have member := find_entry found
      have many : 2 ≤ (entries t key).length := by
        rcases spoiled with hidden | many
        · exact two_of_mem _ _ (by simp) hidden member
        · exact many
      have fewer := entries_delete sorted member value
      exact .inr (put _ (sorted_delete sorted _) (by omega))
  · have kept := entries_store_other sorted same value
    rcases spoiled with hidden | many
    · exact .inl (kept.mem_iff.mpr hidden)
    · exact .inr (kept.length_eq ▸ many)

end Icecast.Httpp
