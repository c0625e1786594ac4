import Icecast.HttppQuery
import Icecast.Lib.Transition

namespace Icecast.Httpp
open Bytes Avl Transition

-- httpp_deletevar
def Parser.deletevar (p : Parser) (name : List UInt8) : Parser :=
  {p with vars := ⟨delete compareVars (name,none) p.vars.tree,p.vars.filled.drop name none⟩}

-- The calls on the variables of a parser; their arguments may be NULL.
inductive Call where
  | setvar (name value : Option (List UInt8))
  | deletevar (name : Option (List UInt8))
  | setQueryParam (name value : Option (List UInt8))
deriving DecidableEq

def Parser.call (p : Parser) : Call → Parser
  | .setvar (some name) (some value) => p.setvar name value
  | .deletevar (some name) => p.deletevar name
  | .setQueryParam (some name) (some value) => p.setQueryParam name value
  | _ => p

-- What a call makes of the value of a variable, and of that of a query parameter.
def varAfter (name : List UInt8) (value : Option (List UInt8)) : Call → Option (List UInt8)
  | .setvar (some other) (some new) => if name = other then some new else value
  | .deletevar (some other) => if name = other then none else value
  | _ => value

def paramAfter (name : List UInt8) (value : Option (List UInt8)) : Call → Option (List UInt8)
  | .setQueryParam (some other) (some new) => if name = other then (urlEscape new).map cstr else value
  | _ => value

-- The name a call is about.
def Call.names : Call → Option (List UInt8)
  | .setvar name _ => name
  | .deletevar name => name
  | .setQueryParam name _ => name

-- A query parameter is not set while its value is one that could not be decoded.
def Fair (p : Parser) : Call → Prop
  | .setQueryParam (some name) (some _) => (name,none) ∉ p.queryvars.toList
  | _ => True

instance decideFair (p : Parser) (call : Call) : Decidable (Fair p call) := by
  unfold Fair
  split <;> infer_instance

-- One node a name, the values last set, and no call that reaches another name.
structure Stored (calls : List Call) (p : Parser) : Prop where
  vars : (p.vars.tree.toList.map (·.1)).Nodup
  queryvars : (p.queryvars.toList.map (·.1)).Nodup
  getvar : ∀ name, p.getvar name = calls.foldl (varAfter name) none
  getQueryParam : ∀ name, p.getQueryParam name = calls.foldl (paramAfter name) none
  others : ∀ call name, call.names ≠ some name → (p.call call).getvar name = p.getvar name ∧
    (p.call call).getQueryParam name = p.getQueryParam name

theorem Once.entries_few (once : Once t) (name : List UInt8) : entries t name = [] ∨ ∃ v, entries t name = [v] := by
  match here : entries t name with
  | [] => exact .inl rfl
  | [v] => exact .inr ⟨v,rfl⟩
  | v::w::rest =>
    have sub : (v::w::rest).Sublist t.toList := here ▸ List.filter_sublist
    have names : ∀ x ∈ v::w::rest, x.1 = name := fun x member => by
      rw [←here] at member
      simpa using (List.mem_filter.mp member).2
    have unique := once.unique.sublist (sub.map _)
    rw [List.map_cons,List.map_cons,names v (by simp),names w (by simp)] at unique
    exact absurd List.mem_cons_self (List.nodup_cons.mp unique).1

theorem Once.find_other (once : Once t) (other : key ≠ name) (value : Option (List UInt8)) :
    find (Httpp.store t key value) name = find t name := by
  have same := entries_store_other once.sorted other value
  have sorted := sorted_store once.sorted key value
  rcases once.entries_few name with empty | ⟨v,one⟩
  · rw [empty,List.perm_nil] at same
    rw [find_empty same,find_empty empty]
  · rw [one,List.perm_singleton] at same
    rw [find_one sorted same,find_one once.sorted one]

theorem call_getvar (p : Parser) (call : Call) (name : List UInt8) : (p.call call).getvar name = varAfter name
    (p.getvar name) call := by
  cases call with
  | setvar other value =>
    cases other with
    | none => rfl
    | some other =>
      cases value with
      | none => rfl
      | some value => exact getvar_setvar _ _ _ _
  | deletevar other =>
    cases other with
    | none => rfl
    | some other => exact p.vars.filled.once.find_drop _ _ _
  | setQueryParam other value => cases other <;> cases value <;> rfl

theorem call_queryvars {p : Parser} (once : Once p.queryvars) (fair : Fair p call) : Once (p.call call).queryvars ∧
    ∀ name, (p.call call).getQueryParam name = paramAfter name (p.getQueryParam name) call := by
  cases call with
  | setvar other value => cases other <;> cases value <;> exact ⟨once,fun _ => rfl⟩
  | deletevar other => cases other <;> exact ⟨once,fun _ => rfl⟩
  | setQueryParam other value =>
    cases other with
    | none => exact ⟨once,fun _ => rfl⟩
    | some other =>
      cases value with
      | none => exact ⟨once,fun _ => rfl⟩
      | some value => exact ⟨(once.store fair _).1,once.find_store fair _⟩

theorem call_others {p : Parser} (once : Once p.queryvars) (call : Call) (name : List UInt8)
    (other : call.names ≠ some name) :
    (p.call call).getvar name = p.getvar name ∧ (p.call call).getQueryParam name = p.getQueryParam name := by
  cases call with
  | setvar key value =>
    cases key with
    | none => exact ⟨rfl,rfl⟩
    | some key =>
      cases value with
      | none => exact ⟨rfl,rfl⟩
      | some value => exact ⟨(getvar_setvar _ _ _ _).trans (if_neg fun same => other (congrArg some same.symm)),rfl⟩
  | deletevar key =>
    cases key with
    | none => exact ⟨rfl,rfl⟩
    | some key => exact ⟨(p.vars.filled.once.find_drop _ _ _).trans
      (if_neg fun same => other (congrArg some same.symm)),rfl⟩
  | setQueryParam key value =>
    cases key with
    | none => exact ⟨rfl,rfl⟩
    | some key =>
      cases value with
      | none => exact ⟨rfl,rfl⟩
      | some value => exact ⟨rfl,once.find_other (fun same => other (congrArg some same)) _⟩

-- In every run that sets no parameter again whose value could not be decoded, the two trees hold what was set last.
theorem variables_stored (run : Runs (fun p call q => q = p.call call ∧ Fair p call) httppInitialize calls p) :
    Stored calls p := by
  have kept : Once p.queryvars ∧ (∀ name, p.getvar name = calls.foldl (varAfter name) none) ∧
      ∀ name, p.getQueryParam name = calls.foldl (paramAfter name) none := by
    induction run with
    | nil => exact ⟨⟨List.Pairwise.nil,List.nodup_nil⟩,fun _ => rfl,fun _ => rfl⟩
    | snoc _ last ih =>
      obtain ⟨once,vars,params⟩ := ih
      obtain ⟨rfl,fair⟩ := last
      obtain ⟨once',params'⟩ := call_queryvars once fair
      refine ⟨once',fun name => ?_,fun name => ?_⟩
      · rw [call_getvar,vars,List.foldl_append]
        rfl
      · rw [params',params,List.foldl_append]
        rfl
  obtain ⟨once,vars,params⟩ := kept
  exact ⟨p.vars.filled.unique,once.unique,vars,params,call_others once⟩

def nextCall (p : Parser) (call : Call) : Option Parser := guarded Fair (fun p call => some (p.call call)) p call

theorem nextCall_sound {p q : Parser} (step : nextCall p call = some q) : q = p.call call ∧ Fair p call := by
  obtain ⟨same,fair⟩ := guarded_sound step
  exact ⟨(Option.some.inj same).symm,fair⟩

-- A header that is set, set again and deleted, and a parameter that is set twice.
def pageCalls : List Call :=
  [.setvar (some (ascii "host")) (some (ascii "a")),.setQueryParam (some (ascii "pos")) (some (ascii "1")),
    .setvar (some (ascii "host")) (some (ascii "b")),.setQueryParam (some (ascii "pos")) (some (ascii "%32")),
      .deletevar (some (ascii "host")),
    .setvar none (some (ascii "c"))]

def page : Parser := (runFrom nextCall httppInitialize pageCalls).get (by decide +kernel)

theorem variables_stored_page : page.getvar (ascii "host") = none ∧
    page.getQueryParam (ascii "pos") = some (ascii "2") := by
  have run : Runs (fun p call q => q = p.call call ∧ Fair p call) httppInitialize pageCalls page :=
    runFrom_sound nextCall_sound (Option.some_get _).symm
  have stored := variables_stored run
  rw [stored.getvar,stored.getQueryParam]
  decide +kernel

-- A parameter that could not be decoded is there without a value, and hides the one that is set next.
def hiddenCalls : List Call :=
  [.setQueryParam (some (ascii "a")) (some (ascii "%")),.setQueryParam (some (ascii "a")) (some (ascii "1"))]

theorem hidden_parameter : ¬∀ (calls : List Call) (p : Parser),
    Runs (fun p call q => q = p.call call) httppInitialize calls p → Stored calls p := by
  intro always
  have run : Runs (fun p call q => q = p.call call) httppInitialize hiddenCalls
    (hiddenCalls.foldl Parser.call httppInitialize) :=
    .cons rfl (.cons rfl .nil)
  have stored := always _ _ run
  have read := stored.getQueryParam (ascii "a")
  revert read
  decide +kernel

end Icecast.Httpp
