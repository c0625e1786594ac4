import Mathlib.Data.List.Induction
import Icecast.Lib.Linked

namespace TailQueue
open Linked

-- Cells with a next pointer; a queue is a head pointer and a tail that points at the
-- pointer the next cell goes into. Queues may share a heap.
structure Cell (α : Type u) where
  item : α
  next : Option Nat
deriving DecidableEq

abbrev Heap (α : Type u) := Cells (Cell α)

-- The address of a pointer: the queue's head or the next field of a cell.
inductive Ref where
  | head | next (a : Nat)
deriving DecidableEq

structure Queue where
  head : Option Nat
  tail : Ref
deriving DecidableEq

def Queue.empty : Queue := ⟨none,.head⟩

def nexts (h : Heap α) (a : Nat) : Option (Option Nat) := (h a).map (·.next)

-- The operations are none on the next field of a cell that is gone.
def setNext (h : Heap α) (a : Nat) (p : Option Nat) : Option (Heap α) := (h a).map fun c =>
    assign h a (some {c with next := p})

def load (h : Heap α) (q : Queue) : Ref → Option (Option Nat)
  | .head => some q.head
  | .next a => nexts h a

def store (h : Heap α) (q : Queue) (ref : Ref) (p : Option Nat) : Option (Heap α × Queue) :=
  match ref with
  | .head => some (h,{q with head := p})
  | .next a => (setNext h a p).map (·,q)

-- *tail = a; tail = &a->next
def push (h : Heap α) (q : Queue) (a : Nat) : Option (Heap α × Queue) :=
  (store h q q.tail (some a)).map fun s => (s.1,{s.2 with tail := .next a})

def pop (h : Heap α) (q : Queue) : Option (Heap α × Queue × Option Nat) :=
  match q.head with
  | none => some (h,q,none)
  | some a =>
    (nexts h a).bind fun p =>
      (setNext h a none).map fun h => (h,⟨p,if p = none then .head else q.tail⟩,some a)

-- if (tail == &a->next) tail = ref; *ref = a->next
def unlink (h : Heap α) (q : Queue) (ref : Ref) (a : Nat) : Option (Heap α × Queue) :=
  (nexts h a).bind fun p => store h (if q.tail = .next a then {q with tail := ref} else q) ref p

def endOf (cells : List Nat) : Ref := cells.getLast?.elim .head .next

@[simp] theorem endOf_nil : endOf [] = .head := rfl
@[simp] theorem endOf_snoc (cells : List Nat) (a : Nat) : endOf (cells++[a]) = .next a := by simp [endOf]

-- The queue is the cells, in order, and its tail points into the last one.
structure Holds (h : Heap α) (q : Queue) (cells : List Nat) : Prop where
  chain : Chain (nexts h) q.head cells
  tail : q.tail = endOf cells

theorem holds_empty (h : Heap α) : Holds h .empty [] := ⟨.nil,rfl⟩

theorem Holds.frame {h k : Heap α} (holds : Holds h q cells) (same : ∀ a ∈ cells, k a = h a) : Holds k q cells :=
  ⟨holds.chain.congr fun a member => by rw [nexts,nexts,same a member],holds.tail⟩

theorem Holds.live (holds : Holds h q cells) (member : a ∈ cells) : ∃ c, h a = some c := by
  obtain ⟨p,found⟩ := holds.chain.mem member
  obtain ⟨c,cell,_⟩ := Option.map_eq_some_iff.mp found
  exact ⟨c,cell⟩

theorem Holds.load {h : Heap α} (holds : Holds h q (front++back)) : load h q (endOf front) = some back.head? := by
  cases front using List.reverseRecOn with
  | nil => exact congrArg some holds.chain.head
  | append_singleton front b =>
    have chain := holds.chain
    rw [List.append_assoc,List.singleton_append] at chain
    rw [endOf_snoc]
    exact chain.next_eq

theorem setNext_eq (cell : h a = some c) (p : Option Nat) :
    setNext h a p = some (assign h a (some {c with next := p})) := by
  rw [setNext,cell]
  rfl

theorem nexts_set (h : Heap α) (a b : Nat) (c : Cell α) :
    nexts (assign h a (some c)) b = if b = a then some c.next else nexts h b := by
  unfold nexts assign
  split <;> simp

theorem item_setNext {h : Heap α} (cell : h a = some c) (p : Option Nat) (b : Nat) :
    (assign h a (some {c with next := p}) b).map (·.item) = (h b).map (·.item) := by
  by_cases here : b = a
  · subst b
    rw [assign_same,cell]
    rfl
  · rw [assign_other here]

theorem Holds.push {h : Heap α} (holds : Holds h q cells) (ends : nexts h a = some none) (fresh : a ∉ cells) :
    ∃ k r, push h q a = some (k,r) ∧ Holds k r (cells++[a]) ∧ (∀ b, b ∉ cells → k b = h b) ∧
      ∀ b, (k b).map (·.item) = (h b).map (·.item) := by
  unfold TailQueue.push
  rw [holds.tail]
  cases cells using List.reverseRecOn with
  | nil => exact ⟨h,⟨some a,.next a⟩,rfl,⟨.cons ends .nil,rfl⟩,fun _ _ => rfl,fun _ => rfl⟩
  | append_singleton front last =>
    obtain ⟨c,cell⟩ := holds.live (show last ∈ front++[last] by simp)
    rw [endOf_snoc,store,setNext_eq cell]
    have once := holds.chain.nodup
    refine ⟨assign h last (some {c with next := some a}),{q with tail := .next a},rfl,⟨?_,(endOf_snoc _ _).symm⟩,
      fun b other => assign_other fun here => other (by simp [here]),item_setNext cell _⟩
    · refine holds.chain.snoc ?_ ?_ fun b member => ?_
      · rw [nexts_set,if_pos rfl]
      · rw [nexts_set,if_neg fun here => fresh (by simp [here]),ends]
      · rw [nexts_set,if_neg]
        rintro rfl
        exact (List.nodup_append.mp once).2.2 _ member _ List.mem_cons_self rfl

theorem Holds.pop_nil {h : Heap α} (holds : Holds h q []) : pop h q = some (h,q,none) := by
  rw [pop,holds.chain.head]
  rfl

theorem Holds.pop {h : Heap α} (holds : Holds h q (a::rest)) : ∃ k r c, pop h q = some (k,r,some a) ∧ Holds k r rest ∧
    h a = some c ∧ k a = some {c with next := none} ∧ ∀ b, b ≠ a → k b = h b := by
  obtain ⟨c,cell⟩ := holds.live List.mem_cons_self
  have behind : nexts h a = some rest.head? := @Chain.next_eq _ _ [] _ _ holds.chain
  have once := List.nodup_cons.mp holds.chain.nodup
  have tail : Chain (nexts h) rest.head? rest := @Chain.suffix _ _ [a] _ holds.chain
  rw [TailQueue.pop,holds.chain.head]
  dsimp only [List.head?_cons]
  rw [behind,Option.bind_some,setNext_eq cell]
  refine ⟨_,_,c,rfl,⟨tail.congr fun b member => ?_,?_⟩,cell,assign_same,fun b other => assign_other other⟩
  · rw [nexts_set,if_neg]
    rintro rfl
    exact once.1 member
  · rw [holds.tail]
    cases rest with
    | nil => rfl
    | cons d rest =>
      rw [if_neg (by simp)]
      simp [endOf,List.getLast?_cons_cons]

theorem Holds.unlink {h : Heap α} (holds : Holds h q (front++a::back)) :
    ∃ k r, unlink h q (endOf front) a = some (k,r) ∧ Holds k r (front++back) ∧ (∀ b, b ∉ front → k b = h b) ∧
      ∀ b, (k b).map (·.item) = (h b).map (·.item) := by
  have behind : nexts h a = some back.head? := holds.chain.next_eq
  have once := holds.chain.nodup
  obtain ⟨head,tail⟩ := q
  obtain rfl : tail = endOf (front++a::back) := holds.tail
  have tail : (if endOf (front++a::back) = .next a then (⟨head,endOf front⟩ : Queue) else
    ⟨head,endOf (front++a::back)⟩) =
      ⟨head,endOf (front++back)⟩ := by
    cases back using List.reverseRecOn with
    | nil => rw [endOf_snoc,if_pos rfl,List.append_nil]
    | append_singleton back last =>
      have other : last ≠ a := by
        rintro rfl
        have inner := (List.nodup_append.mp once).2.1
        simp at inner
      have shape : front++a::(back++[last]) = (front++a::back)++[last] := by simp
      rw [shape,endOf_snoc,if_neg (by simpa using other),←List.append_assoc,endOf_snoc]
  rw [TailQueue.unlink,behind,Option.bind_some,tail]
  cases front using List.reverseRecOn with
  | nil =>
    have rest : Chain (nexts h) back.head? back := @Chain.suffix _ _ [a] _ holds.chain
    exact ⟨h,_,rfl,⟨rest,rfl⟩,fun _ _ => rfl,fun _ => rfl⟩
  | append_singleton front b =>
    obtain ⟨c,cell⟩ := holds.live (show b ∈ front++[b]++a::back by simp)
    rw [endOf_snoc,store,setNext_eq cell]
    have chain := holds.chain
    rw [List.append_assoc,List.singleton_append] at chain once
    have apart := List.nodup_append.mp once
    refine ⟨assign h b (some {c with next := back.head?}),_,rfl,⟨?_,rfl⟩,
      fun d other => assign_other fun here => other (by simp [here]),item_setNext cell _⟩
    · rw [List.append_assoc,List.singleton_append]
      refine chain.remove ?_ fun d member => ?_
      · rw [nexts_set,if_pos rfl,behind]
      · rw [nexts_set,if_neg]
        rintro rfl
        rcases List.mem_append.mp member with earlier | later
        · exact apart.2.2 _ earlier _ List.mem_cons_self rfl
        · exact (List.nodup_cons.mp apart.2.1).1 (List.mem_cons_of_mem _ later)

end TailQueue
