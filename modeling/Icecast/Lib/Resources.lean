import Mathlib.Data.List.Nodup
import Mathlib.Data.List.Perm.Basic

namespace Resources

-- What code created, by kind and numbered in order, and what it released.
structure Ledger (κ : Type u) where
  kinds : List κ
  released : List (κ × Nat)
deriving DecidableEq

def blank : Ledger κ := ⟨[],[]⟩

def Ledger.created (l : Ledger κ) : List (κ × Nat) := l.kinds.zipIdx

-- The next resource of a kind.
def Ledger.fresh (l : Ledger κ) (kind : κ) : κ × Nat := (kind,l.kinds.length)

def Ledger.add (l : Ledger κ) (kind : κ) : Ledger κ := {l with kinds := l.kinds++[kind]}

def Ledger.release (l : Ledger κ) (r : κ × Nat) : Ledger κ := {l with released := l.released++[r]}

-- Each resource was released once or is held.
def Owns (l : Ledger κ) (held : List (κ × Nat)) : Prop := (l.released++held).Perm l.created

theorem blank_owns : Owns (blank : Ledger κ) [] := .refl _

theorem created_add (l : Ledger κ) (kind : κ) : (l.add kind).created = l.created++[l.fresh kind] := by
  simp [Ledger.created,Ledger.add,Ledger.fresh,List.zipIdx_append]

theorem created_nodup (l : Ledger κ) : l.created.Nodup := by
  apply List.Nodup.of_map Prod.snd
  rw [Ledger.created,List.zipIdx_map_snd]
  exact List.nodup_range'

theorem Owns.perm (owns : Owns l held) (same : held.Perm other) : Owns l other := (same.symm.append_left _).trans owns

theorem Owns.swap {l : Ledger κ} (front back : List (κ × Nat)) (owns : Owns l (front++back)) : Owns l (back++front) :=
  owns.perm List.perm_append_comm

theorem Owns.add {l : Ledger κ} (owns : Owns l held) (kind : κ) : Owns (l.add kind) (l.fresh kind::held) := by
  unfold Owns
  rw [created_add]
  exact List.perm_middle.trans ((List.Perm.cons _ owns).trans (List.perm_append_singleton _ _).symm)

theorem Owns.release {l : Ledger κ} (owns : Owns l (r::held)) : Owns (l.release r) held := by
  unfold Owns Ledger.release
  rw [List.append_assoc]
  exact owns

theorem Owns.once [DecidableEq κ] {l : Ledger κ} (owns : Owns l held) :
    (∀ r ∈ l.created, l.released.count r+held.count r = 1) ∧ ∀ r, r ∈ l.released ∨ r ∈ held → r ∈ l.created := by
  refine ⟨fun r member => ?_,fun r either => owns.subset (List.mem_append.mpr either)⟩
  rw [←List.count_append,owns.count_eq]
  exact List.count_eq_one_of_mem (created_nodup l) member

end Resources
