import Mathlib.Data.List.Basic

namespace BlockHash

-- A hash that takes its input in blocks of `n`: the state after the last full block, and what has
-- arrived of the next.
def feed (n : Nat) (compress : σ → List α → σ) (state : σ × List α) (x : α) : σ × List α :=
  if state.2.length+1 = n then (compress state.1 (state.2++[x]),[]) else (state.1,state.2++[x])

def absorb (n : Nat) (compress : σ → List α → σ) (state : σ × List α) (input : List α) : σ × List α :=
  input.foldl (feed n compress) state

-- The first `count` blocks of an input.
def blocks (n : Nat) : Nat → List α → List (List α)
  | 0,_ => []
  | count+1,input => input.take n::blocks n count (input.drop n)

variable {n : Nat} {compress : σ → List α → σ}

theorem absorb_append : absorb n compress state (left++right) = absorb n compress
    (absorb n compress state left) right :=
  List.foldl_append

theorem absorb_short (short : state.2.length+input.length < n) :
    absorb n compress state input = (state.1,state.2++input) := by
  induction input generalizing state with
  | nil =>
    rw [List.append_nil]
    rfl
  | cons x rest ih =>
    rw [List.length_cons] at short
    have kept : feed n compress state x = (state.1,state.2++[x]) := if_neg (by omega)
    rw [absorb,List.foldl_cons,kept]
    refine (ih ?_).trans ?_
    · rw [List.length_append,List.length_singleton]
      omega
    · rw [List.append_assoc,List.singleton_append]

theorem absorb_fills (nonempty : input ≠ []) (fills : state.2.length+input.length = n) :
    absorb n compress state input = (compress state.1 (state.2++input),[]) := by
  obtain ⟨before,x,rfl⟩ := (List.eq_nil_or_concat input).resolve_left nonempty
  rw [List.concat_eq_append,List.length_append,List.length_singleton] at fills
  have kept : absorb n compress state before = (state.1,state.2++before) := absorb_short (by omega)
  have last : (state.2++before).length+1 = n := by
    rw [List.length_append]
    omega
  calc absorb n compress state (before.concat x)
      = absorb n compress (state.1,state.2++before) [x] := by rw [List.concat_eq_append,absorb_append,kept]
    _ = (compress state.1 (state.2++before++[x]),[]) := if_pos last
    _ = (compress state.1 (state.2++before.concat x),[]) := by rw [List.concat_eq_append,List.append_assoc]

theorem absorb_block (pos : 0 < n) (full : input.length = n) :
    absorb n compress (s,[]) input = (compress s input,[]) := by
  refine (absorb_fills ?_ ?_).trans rfl
  · rintro rfl
    rw [List.length_nil] at full
    omega
  · rw [List.length_nil]
    omega

theorem absorb_blocks (pos : 0 < n) (whole : input.length = count*n) :
    absorb n compress (s,[]) input = ((blocks n count input).foldl compress s,[]) := by
  induction count generalizing s input with
  | zero =>
    rw [Nat.zero_mul] at whole
    cases List.length_eq_zero_iff.mp whole
    rfl
  | succ count ih =>
    rw [Nat.succ_mul] at whole
    have first : (input.take n).length = n := by
      rw [List.length_take]
      omega
    have rest : (input.drop n).length = count*n := by
      rw [List.length_drop]
      omega
    calc absorb n compress (s,[]) input = absorb n compress (s,[]) (input.take n++input.drop n) := by rw [List.take_append_drop]
      _ = absorb n compress (compress s (input.take n),[]) (input.drop n) := by rw [absorb_append,absorb_block pos first]
      _ = ((blocks n (count+1) input).foldl compress s,[]) := ih rest

end BlockHash
