import Mathlib.Data.List.Basic

namespace Linked

-- Cells by their addresses.
def Cells (α : Type u) := Nat → Option α

def assign (h : Cells α) (a : Nat) (cell : Option α) : Cells α := fun b => if b = a then cell else h b

@[simp] theorem assign_same : assign h a cell a = cell := if_pos rfl
@[simp] theorem assign_other (other : b ≠ a) : assign h a cell b = h b := if_neg other

-- The cells reached from a pointer by following the next pointers up to the null one.
-- `next` is none on an address that holds no cell.
inductive Chain (next : Nat → Option (Option Nat)) : Option Nat → List Nat → Prop where
  | nil : Chain next none []
  | cons : next a = some p → Chain next p rest → Chain next (some a) (a::rest)

theorem Chain.head (chain : Chain next p cells) : p = cells.head? := by
  cases chain with
  | nil => rfl
  | cons here rest => rfl

theorem Chain.mem (chain : Chain next p cells) (member : a ∈ cells) : ∃ q, next a = some q := by
  induction chain with
  | nil => cases member
  | cons here rest ih =>
    rcases List.mem_cons.mp member with rfl | later
    · exact ⟨_,here⟩
    · exact ih later

theorem Chain.congr (chain : Chain next p cells) (same : ∀ a ∈ cells, other a = next a) : Chain other p cells := by
  induction chain with
  | nil => exact .nil
  | cons here rest ih =>
    exact .cons ((same _ List.mem_cons_self).trans here) (ih fun a member => same a (List.mem_cons_of_mem _ member))

theorem Chain.unique (left : Chain next p xs) (right : Chain next p ys) : xs = ys := by
  induction left generalizing ys with
  | nil => cases right; rfl
  | cons here rest ih =>
    cases right with
    | cons there more =>
      cases Option.some.inj (here.symm.trans there)
      rw [ih more]

theorem Chain.suffix (chain : Chain next p (front++back)) : Chain next back.head? back := by
  induction front generalizing p with
  | nil => exact chain.head ▸ chain
  | cons a front ih =>
    cases chain with
    | cons here rest => exact ih rest

-- The cells of a chain as far as the fuel goes.
def walk (next : Nat → Option (Option Nat)) : Nat → Option Nat → List Nat
  | fuel+1,some a => a::walk next fuel (next a).join
  | _,_ => []

theorem Chain.walk (chain : Chain next p cells) (fuelled : cells.length ≤ fuel) : walk next fuel p = cells := by
  induction chain generalizing fuel with
  | nil => cases fuel <;> rfl
  | cons here rest ih =>
    cases fuel with
    | zero => exact absurd fuelled (Nat.not_succ_le_zero _)
    | succ fuel =>
      rw [Linked.walk,here,Option.join_some,ih (Nat.le_of_succ_le_succ fuelled)]

theorem Chain.next_eq (chain : Chain next p (front++a::back)) : next a = some back.head? := by
  have tail := chain.suffix
  cases tail with
  | cons here rest => rw [here,rest.head]

theorem Chain.last_next (chain : Chain next p (front++[a])) : next a = some none := chain.next_eq

theorem Chain.nodup (chain : Chain next p cells) : cells.Nodup := by
  induction chain with
  | nil => exact .nil
  | cons here rest ih =>
    refine List.nodup_cons.mpr ⟨fun again => ?_,ih⟩
    obtain ⟨front,back,split⟩ := List.append_of_mem again
    subst split
    -- the chain from the second visit is that from the first
    have same := (Chain.cons here rest).unique rest.suffix
    have shorter := congrArg List.length same
    simp at shorter
    omega

theorem Chain.insert (chain : Chain next p (front++b::back)) (linked : other b = some (some new))
    (behind : other new = next b) (same : ∀ a ∈ front++back, other a = next a) :
    Chain other p (front++b::new::back) := by
  have after := chain.next_eq
  induction front generalizing p with
  | nil =>
    cases chain with
    | cons here rest =>
      have rest := rest.congr same
      exact .cons linked (.cons (behind.trans after) (rest.head ▸ rest))
  | cons a front ih =>
    cases chain with
    | cons here rest =>
      exact .cons ((same a List.mem_cons_self).trans here)
        (ih rest fun a member => same a (List.mem_cons_of_mem _ member))

theorem Chain.remove (chain : Chain next p (front++b::old::back)) (linked : other b = next old)
    (same : ∀ a ∈ front++back, other a = next a) : Chain other p (front++b::back) := by
  have whole : Chain next p ((front++[b])++old::back) := by simpa using chain
  have behind : next old = some back.head? := whole.next_eq
  induction front generalizing p with
  | nil =>
    cases chain with
    | cons here rest =>
      cases rest with
      | cons there rest =>
        have later := rest.congr same
        exact .cons (linked.trans behind) (rest.head ▸ later)
  | cons a front ih =>
    cases chain with
    | cons here rest =>
      exact .cons ((same a List.mem_cons_self).trans here)
        (ih rest (fun a member => same a (List.mem_cons_of_mem _ member)) (by simpa using rest))

theorem Chain.snoc (chain : Chain next p (front++[last])) (linked : other last = some (some new))
    (ends : other new = some none) (same : ∀ a ∈ front, other a = next a) : Chain other p (front++[last]++[new]) := by
  have added : Chain other p (front++last::[new]) :=
    chain.insert linked (ends.trans chain.last_next.symm) (by simpa using same)
  simpa using added

end Linked
