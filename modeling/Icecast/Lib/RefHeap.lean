import Mathlib.Data.List.Nodup
import Icecast.Lib.Linked

namespace RefHeap
open Linked

-- A heap of cells that live as long as their reference count is not zero.
structure Cell (α : Type u) where
  count : Nat
  item : α
deriving DecidableEq,Repr

abbrev Heap (α : Type u) := Cells (Cell α)

def empty : Heap α := fun _ => none

def read (h : Heap α) (a : Nat) : Option α := (h a).map (·.item)

def count (h : Heap α) (a : Nat) : Nat := (h a).elim 0 (·.count)

-- A new cell with one reference.
def alloc (h : Heap α) (a : Nat) (item : α) : Heap α := assign h a (some ⟨1,item⟩)

-- The operations below are none on an address whose cell is gone.
def addref (h : Heap α) (a : Nat) : Option (Heap α) :=
  (h a).map fun c => assign h a (some {c with count := c.count+1})

-- The cell goes with its last reference.
def release (h : Heap α) (a : Nat) : Option (Heap α) :=
  (h a).map fun c => assign h a (if c.count ≤ 1 then none else some {c with count := c.count-1})

def modify (h : Heap α) (a : Nat) (f : α → α) : Option (Heap α) :=
  (h a).map fun c => assign h a (some {c with item := f c.item})

@[simp] theorem empty_apply : (empty : Heap α) a = none := rfl

@[simp] theorem read_alloc {h : Heap α} : read (alloc h a item) a = some item := by simp [read,alloc]

theorem read_congr {h k : Heap α} (same : k a = h a) : read k a = read h a := by rw [read,read,same]

theorem read_none {h : Heap α} : read h a = none ↔ h a = none := Option.map_eq_none_iff

theorem modify_total {h : Heap α} (found : read h a = some item) (f : α → α) :
    ∃ k, modify h a f = some k ∧ read k a = some (f item) ∧ ∀ b, b ≠ a → k b = h b := by
  obtain ⟨c,cell,rfl⟩ := Option.map_eq_some_iff.mp found
  exact ⟨_,by rw [modify,cell]; rfl,by simp [read],fun b other => assign_other other⟩

-- Every cell's count is the number of references owed to it, so a cell that is gone
-- is owed none and a cell that is owed none is gone.
structure Counted (h : Heap α) (owed : Nat → Nat) : Prop where
  counts : ∀ a, count h a = owed a
  live : ∀ a c, h a = some c → 0 < c.count

theorem counted_empty : Counted (empty : Heap α) fun _ => 0 where
  counts := fun _ => rfl
  live := nofun

theorem Counted.congr (counted : Counted h owed) (same : ∀ a, owed a = other a) : Counted h other where
  counts := fun a => (counted.counts a).trans (same a)
  live := counted.live

theorem Counted.alive (counted : Counted h owed) (owes : 0 < owed a) : ∃ c, h a = some c ∧ c.count = owed a := by
  have counts := counted.counts a
  cases cell : h a with
  | none =>
    rw [count,cell] at counts
    exact absurd counts (Nat.ne_of_lt owes)
  | some c =>
    rw [count,cell] at counts
    exact ⟨c,rfl,counts⟩

theorem Counted.gone (counted : Counted h owed) (none_owed : owed a = 0) : h a = none := by
  have counts := counted.counts a
  cases cell : h a with
  | none => rfl
  | some c =>
    have positive := counted.live a c cell
    rw [count,cell] at counts
    exact absurd (counts.trans none_owed) (Nat.ne_of_gt positive)

theorem Counted.owed_zero (counted : Counted h owed) (freed : h a = none) : owed a = 0 := by
  rw [←counted.counts a,count,freed]
  rfl

theorem Counted.put {h : Heap α} {cell : Option (Cell α)} (counted : Counted h owed)
    (now : cell.elim 0 (·.count) = other a)
    (positive : ∀ c, cell = some c → 0 < c.count) (same : ∀ b, b ≠ a → other b = owed b) :
    Counted (assign h a cell) other where
  counts := fun b => by
    by_cases here : b = a
    · subst b
      rw [count,assign_same]
      exact now
    · rw [count,assign_other here,same b here]
      exact counted.counts b
  live := fun b c found => by
    by_cases here : b = a
    · subst b
      rw [assign_same] at found
      exact positive c found
    · rw [assign_other here] at found
      exact counted.live b c found

theorem count_single {a b : Nat} (other : b ≠ a) : List.count b [a] = 0 := by
  rw [List.count_eq_zero]
  simpa using other

theorem Counted.alloc {h : Heap α} (counted : Counted h owed) (item : α) (free : h a = none) :
    Counted (alloc h a item) (fun b => owed b+[a].count b) ∧ read (RefHeap.alloc h a item) a = some item ∧
    ∀ b, b ≠ a → read (RefHeap.alloc h a item) b = read h b := by
  refine ⟨counted.put ?_ ?_ ?_,?_,fun b other => ?_⟩
  · rw [counted.owed_zero free]
    simp
  · rintro c ⟨⟩
    exact Nat.one_pos
  · intro b other
    rw [count_single other,Nat.add_zero]
  · simp [read,RefHeap.alloc]
  · simp [read,RefHeap.alloc,other]

theorem Counted.addref (counted : Counted h owed) (owes : 0 < owed a) :
    ∃ next, addref h a = some next ∧ Counted next (fun b => owed b+[a].count b) ∧ ∀ b, read next b = read h b := by
  obtain ⟨c,cell,counts⟩ := counted.alive owes
  refine ⟨_,by rw [RefHeap.addref,cell,Option.map_some],counted.put ?_ ?_ ?_,fun b => ?_⟩
  · simp [counts]
  · rintro d ⟨⟩
    exact Nat.succ_pos _
  · intro b other
    rw [count_single other,Nat.add_zero]
  · by_cases here : b = a
    · subst b
      simp [read,cell]
    · simp [read,here]

theorem Counted.release (counted : Counted h owed) (owes : 0 < owed a) :
    ∃ next, release h a = some next ∧ Counted next (fun b => owed b-[a].count b) ∧
      ∀ b, [a].count b < owed b → read next b = read h b := by
  obtain ⟨c,cell,counts⟩ := counted.alive owes
  refine ⟨_,by rw [RefHeap.release,cell,Option.map_some],counted.put ?_ ?_ ?_,fun b more => ?_⟩
  · split
    · simp
      omega
    · simp [counts]
  · intro d kept
    split at kept
    · cases kept
    · cases kept
      simp
      omega
  · intro b other
    rw [count_single other,Nat.sub_zero]
  · by_cases here : b = a
    · subst b
      have many : ¬c.count ≤ 1 := by
        simp at more
        omega
      simp [read,cell,many]
    · simp [read,here]

theorem release_reads (released : release h a = some next) (found : read next x = some item) :
    read h x = some item := by
  obtain ⟨c,cell,rfl⟩ := Option.map_eq_some_iff.mp released
  by_cases here : x = a
  · subst here
    rw [read,assign_same] at found
    split at found
    · cases found
    · rw [read,cell]
      exact found
  · rwa [read,assign_other here] at found

theorem Counted.modify (counted : Counted h owed) (owes : 0 < owed a) :
    ∃ next, modify h a f = some next ∧ Counted next owed ∧ read next a = (read h a).map f ∧
      ∀ b, b ≠ a → read next b = read h b := by
  obtain ⟨c,cell,counts⟩ := counted.alive owes
  refine ⟨_,by rw [RefHeap.modify,cell,Option.map_some],counted.put ?_ ?_ ?_,?_,fun b other => ?_⟩
  · simpa using counts
  · rintro d ⟨⟩
    exact counted.live a c cell
  · intro b _
    rfl
  · simp [read,cell]
  · simp [read,other]

theorem Counted.readable (counted : Counted h owed) (owes : 0 < owed a) : ∃ item, read h a = some item := by
  obtain ⟨c,cell,_⟩ := counted.alive owes
  exact ⟨c.item,by rw [read,cell]; rfl⟩

theorem Counted.unread (counted : Counted h owed) (found : read h a = some item) : 0 < owed a := by
  obtain ⟨c,cell,_⟩ := Option.map_eq_some_iff.mp found
  have positive := counted.live a c cell
  have counts := counted.counts a
  rw [count,cell] at counts
  exact counts ▸ positive

theorem Counted.freed_iff (counted : Counted h owed) : h a = none ↔ owed a = 0 := ⟨counted.owed_zero,counted.gone⟩

-- There are at most n cells.
def Within (h : Heap α) (n : Nat) : Prop :=
  ∀ cells : List Nat, cells.Nodup → (∀ a ∈ cells, h a ≠ none) → cells.length ≤ n

theorem within_empty : Within (empty : Heap α) 0 := by
  intro cells _ live
  cases cells with
  | nil => simp
  | cons a rest => exact absurd rfl (live a List.mem_cons_self)

theorem Within.alloc {h : Heap α} (within : Within h n) (item : α) : Within (alloc h a item) (n+1) := by
  intro cells nodup live
  have fewer := within (cells.erase a) (nodup.erase a) fun b member => by
    obtain ⟨other,member⟩ := nodup.mem_erase_iff.mp member
    simpa [RefHeap.alloc,other] using live b member
  have shorter := List.length_erase_add_one (a := a) (l := cells)
  by_cases member : a ∈ cells
  · have := shorter member
    omega
  · rw [List.erase_of_not_mem member] at fewer
    omega

theorem Within.counted {h k : Heap α} (within : Within h n) (before : Counted h owed) (after : Counted k other)
    (less : ∀ a, 0 < other a → 0 < owed a) : Within k n := by
  intro cells nodup live
  refine within cells nodup fun a member gone => live a member ?_
  have none_owed := before.owed_zero gone
  have := less a
  exact after.gone (by omega)

theorem Within.chain_length {h : Heap α} {cells : List Nat} (within : Within h n)
    (counted : Counted h owed) (nodup : cells.Nodup)
    (owes : ∀ a ∈ cells, 0 < owed a) : cells.length ≤ n := by
  refine within cells nodup fun a member gone => ?_
  have := owes a member
  have := counted.owed_zero gone
  omega

end RefHeap
