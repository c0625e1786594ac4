import Mathlib.Data.List.Basic

namespace Transition

-- Finite runs of a labelled step relation, oldest label first.
inductive Runs (step : σ → α → σ → Prop) : σ → List α → σ → Prop where
  | nil : Runs step s [] s
  | snoc : Runs step s labels middle → step middle label next → Runs step s (labels++[label]) next

variable {step : σ → α → σ → Prop}

theorem Runs.append (left : Runs step s earlier middle) (right : Runs step middle later next) :
    Runs step s (earlier++later) next := by
  induction right with
  | nil =>
    rw [List.append_nil]
    exact left
  | snoc _ last ih =>
    rw [←List.append_assoc]
    exact .snoc ih last

theorem Runs.cons (one : step s label middle) (rest : Runs step middle labels next) :
    Runs step s (label::labels) next := by
  have first : Runs step s ([]++[label]) middle := .snoc .nil one
  exact first.append rest

theorem Runs.preserves {inv : σ → Prop} (keeps : ∀ {s label next}, inv s → step s label next → inv next)
    (path : Runs step s labels next) (start : inv s) : inv next := by
  induction path with
  | nil => exact start
  | snoc _ last ih => exact keeps ih last

theorem Runs.imp {other : σ → α → σ → Prop} (weaker : ∀ {s label next}, step s label next → other s label next)
    (path : Runs step s labels next) : Runs other s labels next := by
  induction path with
  | nil => exact .nil
  | snoc _ last ih => exact .snoc ih (weaker last)

-- A function that computes the steps, run along a list of labels.
def runFrom (next : σ → α → Option σ) : σ → List α → Option σ
  | s,[] => some s
  | s,label::labels => (next s label).bind (runFrom next · labels)

theorem runFrom_sound {next : σ → α → Option σ} (sound : ∀ {s label t}, next s label = some t → step s label t)
    (ran : runFrom next s labels = some t) : Runs step s labels t := by
  induction labels generalizing s with
  | nil =>
    cases Option.some.inj ran
    exact .nil
  | cons label labels ih =>
    obtain ⟨middle,one,rest⟩ := Option.bind_eq_some_iff.mp ran
    exact .cons (sound one) (ih rest)

-- The steps whose label is allowed.
def guarded (fair : σ → α → Prop) [∀ s label, Decidable (fair s label)] (next : σ → α → Option σ) (s : σ)
    (label : α) : Option σ :=
  if fair s label then next s label else none

theorem guarded_sound {fair : σ → α → Prop} [∀ s label, Decidable (fair s label)] {next : σ → α → Option σ}
    (step : guarded fair next s label = some t) : next s label = some t ∧ fair s label := by
  rw [guarded] at step
  split at step
  · rename_i allowed
    exact ⟨step,allowed⟩
  · cases step

end Transition
