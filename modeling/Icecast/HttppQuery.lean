import Icecast.HttppHeaders

namespace Icecast.Httpp
open Bytes Avl

-- The entries of one name.
def entries (t : AvlTree Var) (name : List UInt8) : List Var := t.toList.filter (·.1 = name)

-- At most one entry has the name, and its value is not NULL.
structure Single (t : AvlTree Var) (name : List UInt8) : Prop where
  sorted : Sorted compareVars t
  few : (entries t name).length ≤ 1
  values : ∀ v ∈ entries t name, v.2 ≠ none

theorem entries_insert (sorted : Sorted compareVars t) (v : Var) (name : List UInt8) :
    (entries (insert compareVars v t) name).Perm (if v.1 = name then v::entries t name else entries t name) := by
  obtain ⟨front,back,split,inserted,_,_⟩ := toList_insert sorted v
  unfold entries
  rw [split,inserted,List.filter_append,List.filter_append,List.filter_cons]
  by_cases same : v.1 = name
  · simp [same]
  · simp [same]

theorem entries_delete_other (t : AvlTree Var) (v : Var) (other : v.1 ≠ name) :
    entries (delete compareVars v t) name = entries t name := by
  unfold entries
  rcases toList_delete compareVars v t with ⟨_,same⟩ | ⟨front,x,back,found,split,deleted⟩
  · rw [same]
  · have here : v.1 = x.1 := (compareVars_eq _ _).mp (get_mem found).2
    rw [deleted,split,List.filter_append,List.filter_append,List.filter_cons_of_neg (by simpa [←here] using other)]

theorem find_entry (found : find t name = some value) : (name,some value) ∈ entries t name := by
  obtain ⟨v,got,stored⟩ := Option.bind_eq_some_iff.mp found
  obtain ⟨member,same⟩ := get_mem got
  have same : name = v.1 := (compareVars_eq _ _).mp same
  refine List.mem_filter.mpr ⟨?_,by simp⟩
  rw [same,←stored]
  exact member

theorem find_one (sorted : Sorted compareVars t) (one : entries t name = [v]) : find t name = v.2 := by
  have member : v ∈ entries t name := by rw [one]; exact List.mem_singleton_self v
  obtain ⟨there,same⟩ := List.mem_filter.mp member
  have same : v.1 = name := by simpa using same
  unfold find
  cases found : getByKey compareVars (name,none) t with
  | none => exact absurd ((compareVars_eq _ _).mpr same.symm) (get_none sorted found v there)
  | some w =>
    obtain ⟨inside,equal⟩ := get_mem found
    have equal : name = w.1 := (compareVars_eq _ _).mp equal
    have here : w ∈ entries t name := List.mem_filter.mpr ⟨inside,by simp [equal]⟩
    rw [one,List.mem_singleton] at here
    rw [here]
    rfl

theorem find_empty (empty : entries t name = []) : find t name = none := by
  cases found : find t name with
  | none => rfl
  | some value =>
    have there := find_entry found
    rw [empty] at there
    cases there

theorem sorted_store (sorted : Sorted compareVars t) (name : List UInt8) (value : Option (List UInt8)) :
    Sorted compareVars (store t name value) := by
  unfold store
  split
  · exact sorted_insert sorted _
  · exact sorted_insert (sorted_delete sorted _) _

theorem entries_delete (sorted : Sorted compareVars t) (found : (name,some old) ∈ entries t name)
    (value : Option (List UInt8)) :
    (entries (delete compareVars (name,value) t) name).length+1 = (entries t name).length := by
  rcases toList_delete compareVars (name,value) t with ⟨missing,_⟩ | ⟨front,x,back,got,split,deleted⟩
  · have same : compareVars (name,value) (name,some old) = .eq := (compareVars_eq _ _).mpr rfl
    exact absurd same (get_none sorted missing _ (List.mem_filter.mp found).1)
  · have here : name = x.1 := (compareVars_eq _ _).mp (get_mem got).2
    unfold entries
    rw [split,deleted,List.filter_append,List.filter_append,List.filter_cons_of_pos (by simp [here])]
    simp only [List.length_append,List.length_cons]
    omega

theorem entries_store_other (sorted : Sorted compareVars t) (other : key ≠ name) (value : Option (List UInt8)) :
    (entries (store t key value) name).Perm (entries t name) := by
  have put : ∀ s, Sorted compareVars s → (entries (insert compareVars (key,value) s) name).Perm (entries s name) := by
    intro s sorted
    have same := entries_insert sorted (key,value) name
    rw [if_neg other] at same
    exact same
  unfold store
  split
  · exact put t sorted
  · rw [←entries_delete_other t (key,value) other]
    exact put _ (sorted_delete sorted (key,value))

theorem Single.find_none (single : Single t name) (missing : find t name = none) : entries t name = [] := by
  unfold find at missing
  cases got : getByKey compareVars (name,none) t with
  | none =>
    have absent := get_none single.sorted got
    refine List.filter_eq_nil_iff.mpr fun v member same => absent v member ((compareVars_eq _ _).mpr ?_)
    simpa using (of_decide_eq_true same).symm
  | some v =>
    obtain ⟨member,same⟩ := get_mem got
    have same : name = v.1 := (compareVars_eq _ _).mp same
    rw [got] at missing
    exact absurd missing (single.values v (List.mem_filter.mpr ⟨member,by simp [same]⟩))

theorem Single.find_some (single : Single t name) (member : v ∈ entries t name) : find t name = v.2 := by
  have few := single.few
  match here : entries t name with
  | [] =>
    rw [here] at member
    cases member
  | [w] =>
    rw [here] at member
    rw [List.mem_singleton.mp member]
    exact find_one single.sorted here
  | _::_::_ =>
    rw [here] at few
    simp at few

theorem Single.store (single : Single t name) (value : List UInt8) :
    Single (store t name (some value)) name ∧ find (Httpp.store t name (some value)) name = some value := by
  have put : ∀ s, Sorted compareVars s → entries s name = [] → Single (insert compareVars (name,some value) s) name ∧
      find (insert compareVars (name,some value) s) name = some value := by
    intro s sorted empty
    have same := entries_insert sorted (name,some value) name
    rw [if_pos rfl,empty] at same
    have only := List.perm_singleton.mp same
    have now : Single (insert compareVars (name,some value) s) name :=
      ⟨sorted_insert sorted _,by simp [only],by simp [only]⟩
    exact ⟨now,now.find_some (v := (name,some value)) (by simp [only])⟩
  unfold Httpp.store
  split
  · exact put t single.sorted (single.find_none ‹_›)
  · rename_i there
    apply put _ (sorted_delete single.sorted _)
    obtain ⟨old,found⟩ := Option.ne_none_iff_exists'.mp there
    have member := find_entry found
    have fewer := entries_delete single.sorted member (some value)
    have few := single.few
    exact List.length_eq_zero_iff.mp (by omega)

-- The parameters of a query, as parse_query sets them.
def piecePair (key : List UInt8) (val : Option (List UInt8)) : List (List UInt8 × List UInt8) :=
  match val with
  | some val => [(pieceOf key,pieceOf val)]
  | none => []

def queryPairs (key : List UInt8) (val : Option (List UInt8)) : List UInt8 → List (List UInt8 × List UInt8)
  | [] => piecePair key val
  | c::query =>
    if c = 38 then piecePair key val++queryPairs query val query
    else if c = 61 then queryPairs key (some query) query
    else queryPairs key val query

def setPairs (p : Parser) (pairs : List (List UInt8 × List UInt8)) : Parser :=
  pairs.foldl (fun p kv => p.setQueryParam kv.1 kv.2) p

theorem setPairs_piece (p : Parser) (key : List UInt8) (val : Option (List UInt8)) : setPairs p
    (piecePair key val) = setPiece p key val := by
  cases val <;> rfl

theorem parseQuery_pairs (p : Parser) (key : List UInt8) (val : Option (List UInt8)) (query : List UInt8) :
    parseQuery p key val query = setPairs p (queryPairs key val query) := by
  induction query generalizing p key val with
  | nil => exact (setPairs_piece p key val).symm
  | cons c query ih =>
    unfold parseQuery queryPairs
    split
    · rw [ih,setPairs,setPairs,List.foldl_append,←setPairs_piece]
      rfl
    · split
      · exact ih ..
      · exact ih ..

-- The parameters on a request line.
def paramsOf (line : List UInt8) : List (List UInt8 × List UInt8) :=
  match (scanWords false 0 none none line).1 with
  | none => []
  | some uri => let query := (uri.dropWhile (· ≠ 63)).drop 1; queryPairs query none query

-- No parameter of the name has an escape url_escape cannot read.
def Readable (name line : List UInt8) : Prop := ∀ kv ∈ paramsOf line, kv.1 = name → urlEscape kv.2 ≠ none

theorem setHeaders_queryvars (p : Parser) (lines : List (List UInt8)) :
    (lines.foldl setHeader p).queryvars = p.queryvars := by
  induction lines generalizing p with
  | nil => rfl
  | cons line lines ih =>
    rw [List.foldl_cons,ih]
    unfold setHeader
    split <;> rfl

end Icecast.Httpp
