import Mathlib.Algebra.GroupWithZero.Nat
import Mathlib.Algebra.Group.Nat.Defs
import Mathlib.Algebra.Group.Int.Defs
import Icecast.Lib.TailQueue
import Icecast.Lib.Transition
import Icecast.Lib.Bytes
import Icecast.Httpp
import Mathlib.Data.List.Forall2

namespace Icecast.LogRing
open Bytes Linked TailQueue Transition

-- log_entry_t without its next pointer
structure LogEntry where
  line : List UInt8
  len : Nat
deriving DecidableEq

-- What log_t keeps of the lines. Addresses are not used again after a free.
structure Log where
  heap : Heap LogEntry
  queue : TailQueue.Queue
  total : Nat
  entries : Nat
  keepEntries : UInt32
  made : Nat

-- log_open of a log whose keep_entries is set already; log_initialize makes it 0.
def opened (keep : UInt32) : Log := ⟨fun _ => none,.empty,0,0,keep,0⟩

-- The oldest entry is unlinked and freed. none is a NULL or freed head.
def dropHead (s : Log) : Option Log := s.queue.head.bind fun toGo =>
  (s.heap toGo).map fun cell => {s with
    queue := {s.queue with head := cell.next}
    total := s.total-cell.item.len
    heap := Linked.assign s.heap toGo none}

-- n turns of the loop in log_set_lines_kept
def dropLines : Nat → Log → Option Log
  | 0,s => some s
  | n+1,s => (dropHead s).bind fun s => dropLines n {s with entries := s.entries-1}

-- while (entries > count)
def logSetLinesKept (count : UInt32) (s : Log) : Option Log :=
  dropLines (s.entries-count.toNat) {s with keepEntries := count}

-- What is written to the file is left out. none is a write through a dangling log_tail.
def createLogEntry (pre line : List UInt8) (s : Log) : Option Log :=
  if s.keepEntries = 0 then some s else
  let entry : LogEntry := ⟨pre++line++[Httpp.lf],pre.length+line.length+2⟩
  (push (Linked.assign s.heap s.made (some ⟨entry,none⟩)) s.queue s.made).bind fun (heap,queue) =>
    let s := {s with heap,queue,total := s.total+entry.len,made := s.made+1}
    if s.entries ≥ s.keepEntries.toNat then dropHead s else some {s with entries := s.entries+1}

-- The entries from a pointer on; none is one that is gone, or too little fuel.
def walk (h : Heap LogEntry) : Nat → Option Nat → Option (List (List UInt8))
  | _,none => some []
  | 0,some _ => none
  | fuel+1,some a => (h a).bind fun cell => (walk h fuel cell.next).map (cell.item.line::·)

-- snprintf (ptr, remain, "%s", line); remain becomes a size_t.
def printLines (buf : List UInt8) (ptr : Nat) (remain : Int) : List (List UInt8) → Option (List UInt8)
  | [] => some buf
  | line::rest => (snprintf buf ptr (remain % 2^64).toNat line).bind fun buf =>
    printLines buf (ptr+line.length) (remain-line.length) rest

-- *_contents and *_len; `remain` is an int and *_len an unsigned int. The block is not cleared:
-- `junk` is what malloc left in it. none: no block of that size, or a write outside of it.
def logContents (junk : UInt8) (fuel : Nat) (s : Log) : Option (List UInt8 × Nat) :=
  let remain : Int := Int.bmod (s.total+1) (2^32)
  if remain ≤ 0 then none else
  (walk s.heap fuel s.queue.head).bind fun lines =>
    (printLines (0::List.replicate (remain.toNat-1) junk) 0 remain lines).map (·,s.total % 2^32)

inductive Event where
  | write (pre line : List UInt8)
  | setLinesKept (count : UInt32)
deriving DecidableEq

def next (s : Log) : Event → Option Log
  | .write pre line => createLogEntry pre line s
  | .setLinesKept count => logSetLinesKept count s

-- What the log is for: the last lines, at most `limit` of them.
structure Retained where
  limit : UInt32
  lines : List (List UInt8)
deriving DecidableEq

-- Drop the oldest lines down to the limit.
def trim (limit : UInt32) (lines : List (List UInt8)) : List (List UInt8) := lines.drop (lines.length-limit.toNat)

def Retained.next (r : Retained) : Event → Retained
  | .write pre line => {r with lines := trim r.limit (r.lines++[pre++line++[Httpp.lf]])}
  | .setLinesKept count => ⟨count,trim count r.lines⟩

def Retained.run (r : Retained) (events : List Event) : Retained := events.foldl Retained.next r

-- log_contents returns the text of the lines, NUL-terminated, and log_tail points where the next
-- entry belongs.
def ReturnsText (s : Log) (text : List UInt8) (len : Nat) : Prop :=
  ∀ junk, ∃ fuel buf, logContents junk fuel s = some (buf,len) ∧ buf.take text.length = text ∧
    buf[text.length]? = some 0

def Tailed (s : Log) : Prop := ∃ cells, Holds s.heap s.queue cells

-- The calls reach a state with the tail in place and the text of the lines that are kept.
def Exact (keep : UInt32) (events : List Event) : Prop :=
  ∃ s, runFrom next (opened keep) events = some s ∧ Tailed s ∧
    ReturnsText s (Retained.run ⟨keep,[]⟩ events).lines.flatten (Retained.run ⟨keep,[]⟩ events).lines.flatten.length

-- No line is written while the limit is above 0.
def NeverKept : UInt32 → List Event → Prop
  | _,[] => True
  | limit,.write _ _::rest => limit = 0 ∧ NeverKept limit rest
  | _,.setLinesKept count::rest => NeverKept count rest

-- The limit is not set to 0 while there are lines.
def NeverEmptied : Retained → List Event → Prop
  | _,[] => True
  | r,event::rest => (event = .setLinesKept 0 → r.lines = []) ∧ NeverEmptied (r.next event) rest

def sizes (lines : List (List UInt8)) : Nat := (lines.map fun line => line.length+1).sum

def Items (h : Heap LogEntry) (cells : List Nat) (lines : List (List UInt8)) : Prop :=
  List.Forall₂ (fun a line => (h a).map (·.item) = some ⟨line,line.length+1⟩) cells lines

theorem Items.frame {h k : Heap LogEntry} (items : Items h cells lines)
    (same : ∀ a ∈ cells, (k a).map (·.item) = (h a).map (·.item)) :
    Items k cells lines := by
  induction items with
  | nil => exact .nil
  | cons here rest ih =>
    refine .cons ((same _ List.mem_cons_self).trans here) (ih fun a member => same a (List.mem_cons_of_mem _ member))

-- The entries from the head on, without regard to the tail.
structure Ring (s : Log) (cells : List Nat) (lines : List (List UInt8)) : Prop where
  chain : Chain (nexts s.heap) s.queue.head cells
  items : Items s.heap cells lines
  total : s.total = sizes lines
  unborn : ∀ a, s.made ≤ a → s.heap a = none

-- log_tail points into an entry that was freed.
def Dangles (s : Log) : Prop := ∃ a, s.queue.tail = .next a ∧ s.heap a = none ∧ a < s.made

theorem Ring.born (ring : Ring s cells lines) (member : a ∈ cells) : a < s.made := by
  obtain ⟨p,found⟩ := ring.chain.mem member
  by_contra unborn
  rw [nexts,ring.unborn a (Nat.not_lt.mp unborn)] at found
  cases found

theorem Ring.length (ring : Ring s cells lines) : lines.length = cells.length := ring.items.length_eq.symm

theorem Ring.dropHead (ring : Ring s (a::cells) (line::lines)) :
    ∃ t, dropHead s = some t ∧ Ring t cells lines ∧ t.queue.tail = s.queue.tail ∧ t.entries = s.entries ∧
      t.keepEntries = s.keepEntries ∧ t.made = s.made ∧ t.heap a = none := by
  obtain ⟨here,items⟩ := List.forall₂_cons.mp ring.items
  obtain ⟨cell,found,entry⟩ := Option.map_eq_some_iff.mp here
  have head : s.queue.head = some a := ring.chain.head
  have behind : cell.next = cells.head? := by
    have next : nexts s.heap a = some cells.head? := @Chain.next_eq _ _ [] _ _ ring.chain
    rw [nexts,found] at next
    exact Option.some.inj next
  have once := List.nodup_cons.mp ring.chain.nodup
  have apart (b : Nat) (member : b ∈ cells) : Linked.assign s.heap a none b = s.heap b :=
    assign_other fun same => once.1 (same ▸ member)
  unfold LogRing.dropHead
  rw [head,Option.bind_some,found,Option.map_some]
  refine ⟨_,rfl,⟨?_,?_,?_,?_⟩,rfl,rfl,rfl,rfl,assign_same⟩
  · have rest : Chain (nexts s.heap) cells.head? cells := @Chain.suffix _ _ [a] _ ring.chain
    simp only [behind]
    apply rest.congr
    intro b member
    rw [nexts,nexts,apart b member]
  · apply Items.frame items
    intro b member
    exact congrArg (Option.map (·.item)) (apart b member)
  · have parts : sizes (line::lines) = line.length+1+sizes lines := List.sum_cons
    simp only [ring.total,parts,entry]
    exact Nat.add_sub_cancel_left ..
  · intro b late
    by_cases same : b = a
    · rw [same]
      exact assign_same
    · exact (assign_other same).trans (ring.unborn b late)

theorem Ring.dropHead_tail (ring : Ring s (a::cells) (line::lines)) (tail : s.queue.tail = endOf (a::cells)) :
    ∃ t, LogRing.dropHead s = some t ∧ Ring t cells lines ∧ t.entries = s.entries ∧ t.keepEntries = s.keepEntries ∧
      if cells = [] then Dangles t else t.queue.tail = endOf cells := by
  obtain ⟨t,dropped,rest,same,entries,keep,made,gone⟩ := ring.dropHead
  refine ⟨t,dropped,rest,entries,keep,?_⟩
  cases cells with
  | nil =>
    rw [if_pos rfl]
    refine ⟨a,same.trans tail,gone,?_⟩
    rw [made]
    exact ring.born List.mem_cons_self
  | cons b cells =>
    rw [if_neg (List.cons_ne_nil b cells),same,tail]
    simp only [endOf,List.getLast?_cons_cons]

theorem Ring.dropLines {s : Log} (ring : Ring s cells lines) (tail : s.queue.tail = endOf cells)
    (count : s.entries = cells.length) (few : n ≤ cells.length) :
    ∃ t, LogRing.dropLines n s = some t ∧ Ring t (cells.drop n) (lines.drop n) ∧ t.entries = cells.length-n ∧
    t.keepEntries = s.keepEntries ∧
      if n = cells.length ∧ 0 < n then Dangles t else t.queue.tail = endOf (cells.drop n) := by
  induction n generalizing s cells lines with
  | zero =>
    have idle : ¬(0 = cells.length ∧ 0 < 0) := fun both => Nat.lt_irrefl 0 both.2
    refine ⟨s,rfl,ring,count,rfl,?_⟩
    rw [if_neg idle]
    exact tail
  | succ n ih =>
    cases ring.items with
    | nil => cases few
    | @cons a line cells lines here rest =>
      obtain ⟨t,dropped,ring,entries,keep,tail⟩ := ring.dropHead_tail tail
      have less : t.entries-1 = cells.length := by
        rw [entries,count]
        rfl
      have ring' : Ring {t with entries := t.entries-1} cells lines := ⟨ring.chain,ring.items,ring.total,ring.unborn⟩
      rw [LogRing.dropLines,dropped,Option.bind_some]
      cases cells with
      | nil =>
        have none_left : n = 0 := Nat.le_zero.mp (Nat.le_of_succ_le_succ few)
        subst none_left
        exact ⟨_,rfl,ring',less,keep,tail⟩
      | cons b cells =>
        rw [if_neg (List.cons_ne_nil b cells)] at tail
        obtain ⟨u,run,left,entries',keep',tail'⟩ := ih ring' tail less (Nat.le_of_succ_le_succ few)
        refine ⟨u,run,left,?_,keep'.trans keep,?_⟩
        · rw [entries',List.length_cons]
          exact (Nat.add_sub_add_right ..).symm
        · by_cases all : n = (b::cells).length
          · have positive : 0 < n := all ▸ Nat.succ_pos _
            rw [if_pos ⟨all,positive⟩] at tail'
            rw [if_pos ⟨congrArg (·+1) all,Nat.succ_pos n⟩]
            exact tail'
          · rw [if_neg fun both => all both.1] at tail'
            rw [if_neg fun both => all (Nat.succ.inj both.1)]
            exact tail'

-- The log holds the lines it is for, and its tail is right.
def Healthy (s : Log) (r : Retained) : Prop :=
  ∃ cells, Ring s cells r.lines ∧ s.queue.tail = endOf cells ∧ s.entries = cells.length ∧
    s.keepEntries = r.limit ∧ cells.length ≤ r.limit.toNat

-- The log was emptied under its tail.
def Lost (s : Log) (r : Retained) : Prop := Ring s [] r.lines ∧ Dangles s ∧ s.entries = 0 ∧ s.keepEntries = r.limit

theorem opened_healthy (keep : UInt32) : Healthy (opened keep) ⟨keep,[]⟩ :=
  ⟨[],⟨.nil,.nil,rfl,fun _ _ => rfl⟩,rfl,rfl,rfl,Nat.zero_le _⟩

theorem Ring.push (ring : Ring s cells lines) (tail : s.queue.tail = endOf cells) (line : List UInt8) :
    ∃ k q, TailQueue.push (Linked.assign s.heap s.made (some ⟨⟨line,line.length+1⟩,none⟩)) s.queue s.made = some (k,q) ∧
      q.tail = endOf (cells++[s.made]) ∧ ∀ entries keep,
        Ring ⟨k,q,s.total+(line.length+1),entries,keep,s.made+1⟩ (cells++[s.made]) (lines++[line]) := by
  have older (a : Nat) (member : a ∈ cells) : a ≠ s.made := Nat.ne_of_lt (ring.born member)
  have same (a : Nat) (member : a ∈ cells) :
    Linked.assign s.heap s.made (some ⟨⟨line,line.length+1⟩,none⟩) a = s.heap a :=
    assign_other (older a member)
  have holds : Holds (Linked.assign s.heap s.made (some ⟨⟨line,line.length+1⟩,none⟩)) s.queue cells := by
    refine ⟨ring.chain.congr fun a member => ?_,tail⟩
    rw [nexts,nexts,same a member]
  have ends : nexts (Linked.assign s.heap s.made (some ⟨⟨line,line.length+1⟩,none⟩)) s.made = some none := by
    rw [nexts,assign_same]
    rfl
  obtain ⟨k,q,pushed,holds',frame,items⟩ := holds.push ends fun member => older _ member rfl
  refine ⟨k,q,pushed,holds'.tail,fun entries keep => ⟨holds'.chain,?_,?_,?_⟩⟩
  · apply List.rel_append
    · apply Items.frame ring.items
      intro a member
      rw [items a,same a member]
    · refine .cons ?_ .nil
      rw [items,assign_same]
      rfl
  · have parts : sizes (lines++[line]) = sizes lines+(line.length+1) := by
      rw [sizes,List.map_append,List.sum_append]
      rfl
    exact (congrArg (·+(line.length+1)) ring.total).trans parts.symm
  · intro a late
    have unborn : s.made ≤ a := Nat.le_of_succ_le late
    have outside : a ∉ cells := fun member => absurd (ring.born member) (Nat.not_lt.mpr unborn)
    exact (frame a outside).trans ((assign_other (Nat.ne_of_gt late)).trans (ring.unborn a unborn))

theorem trim_fits {limit : UInt32} (fits : lines.length ≤ limit.toNat) : trim limit lines = lines := by
  rw [trim,Nat.sub_eq_zero_of_le fits,List.drop_zero]

theorem write_idle {s : Log} {r : Retained} (keep : s.keepEntries = r.limit) (zero : r.limit = 0)
    (none_left : r.lines = []) (pre line : List UInt8) :
    createLogEntry pre line s = some s ∧ r.next (.write pre line) = r := by
  refine ⟨if_pos (keep.trans zero),?_⟩
  obtain ⟨limit,lines⟩ := r
  cases zero
  cases none_left
  rfl

theorem write_healthy {r : Retained} (healthy : Healthy s r) (pre line : List UInt8) :
    ∃ t, createLogEntry pre line s = some t ∧
    Healthy t (r.next (.write pre line)) ∧ (r.limit ≠ 0 → (r.next (.write pre line)).lines ≠ []) := by
  obtain ⟨cells,ring,tail,entries,keep,fits⟩ := healthy
  have length := ring.length
  by_cases zero : r.limit = 0
  · have none_kept : r.limit.toNat = 0 := congrArg UInt32.toNat zero
    have empty : cells = [] := List.eq_nil_of_length_eq_zero (Nat.le_zero.mp (none_kept ▸ fits))
    subst empty
    have none_left : r.lines = [] := List.eq_nil_of_length_eq_zero length
    obtain ⟨kept,same⟩ := write_idle keep zero none_left pre line
    rw [same]
    exact ⟨s,kept,⟨[],ring,tail,entries,keep,fits⟩,fun positive => absurd zero positive⟩
  · obtain ⟨limit,lines⟩ := r
    obtain ⟨k,q,pushed,tail',ring'⟩ := ring.push tail (pre++line++[Httpp.lf])
    have size : pre.length+line.length+2 = (pre++line++[Httpp.lf]).length+1 := by
      rw [List.length_append,List.length_append,List.length_singleton]
    have longer : (lines++[pre++line++[Httpp.lf]]).length = cells.length+1 := by
      rw [List.length_append,length,List.length_singleton]
    have width (cells : List Nat) :
      (cells++[s.made]).length = cells.length+1 := by rw [List.length_append,List.length_singleton]
    unfold createLogEntry
    rw [if_neg fun none_kept => zero (keep.symm.trans none_kept)]
    simp only [size,pushed,Option.bind_some,Retained.next]
    by_cases full : s.entries ≥ s.keepEntries.toNat
    · rw [if_pos full]
      rw [entries,keep] at full
      have whole : cells.length = limit.toNat := Nat.le_antisymm fits full
      cases ring.items with
      | nil => exact absurd (UInt32.toNat_inj.mp whole.symm) zero
      | @cons a first cells rest here items =>
        have one : trim limit (first::rest++[pre++line++[Httpp.lf]]) = rest++[pre++line++[Httpp.lf]] := by
          rw [trim,longer,whole,Nat.add_sub_cancel_left]
          rfl
        obtain ⟨t,dropped,left,entries',keep',ends⟩ := (ring' s.entries s.keepEntries).dropHead_tail tail'
        have more : cells++[s.made] ≠ [] := List.append_ne_nil_of_right_ne_nil _ (List.cons_ne_nil _ _)
        have ends : if cells++[s.made] = [] then Dangles t else t.queue.tail = endOf (cells++[s.made]) := ends
        rw [if_neg more] at ends
        rw [one]
        refine ⟨t,dropped,⟨cells++[s.made],left,ends,?_,keep'.trans keep,?_⟩,fun _ => ?_⟩
        · exact entries'.trans (entries.trans (width cells).symm)
        · rw [width]
          exact Nat.le_of_eq whole
        · exact List.append_ne_nil_of_right_ne_nil _ (List.cons_ne_nil _ _)
    · rw [if_neg full]
      rw [entries,keep] at full
      have room : cells.length+1 ≤ limit.toNat := Nat.lt_of_not_le full
      have all : trim limit (lines++[pre++line++[Httpp.lf]]) = lines++[pre++line++[Httpp.lf]] :=
        trim_fits (longer.trans_le room)
      rw [all]
      refine ⟨_,rfl,⟨cells++[s.made],ring' _ _,tail',?_,keep,?_⟩,fun _ => ?_⟩
      · exact (congrArg (·+1) entries).trans (width cells).symm
      · rw [width]
        exact room
      · exact List.append_ne_nil_of_right_ne_nil _ (List.cons_ne_nil _ _)

theorem keep_healthy {r : Retained} (healthy : Healthy s r) (count : UInt32) :
    ∃ t, logSetLinesKept count s = some t ∧
      if count = 0 ∧ r.lines ≠ [] then Lost t (r.next (.setLinesKept count)) else Healthy t
      (r.next (.setLinesKept count)) := by
  obtain ⟨cells,ring,tail,entries,keep,fits⟩ := healthy
  have ring' : Ring {s with keepEntries := count} cells r.lines := ⟨ring.chain,ring.items,ring.total,ring.unborn⟩
  have few : s.entries-count.toNat ≤ cells.length := by omega
  obtain ⟨t,dropped,left,entries',keep',ends⟩ := ring'.dropLines tail entries few
  refine ⟨t,dropped,?_⟩
  have length := ring.length
  have lines : trim count r.lines = r.lines.drop (s.entries-count.toNat) := by rw [trim,entries,length]
  have zero : count = 0 ↔ count.toNat = 0 := UInt32.toNat_inj.symm
  have some_left : r.lines ≠ [] ↔ 0 < cells.length := by rw [←length,List.length_pos_iff]
  by_cases emptied : count = 0 ∧ r.lines ≠ []
  · have all : s.entries-count.toNat = cells.length ∧ 0 < s.entries-count.toNat := by
      have now := zero.mp emptied.1
      have before := some_left.mp emptied.2
      omega
    rw [if_pos all] at ends
    rw [all.1,List.drop_length] at left
    rw [if_pos emptied]
    refine ⟨?_,ends,?_,keep'⟩
    · rw [Retained.next,lines,all.1]
      exact left
    · rw [entries',all.1,Nat.sub_self]
  · have some_kept : ¬(s.entries-count.toNat = cells.length ∧ 0 < s.entries-count.toNat) := by
      intro both
      refine emptied ⟨zero.mpr ?_,some_left.mpr ?_⟩
      · omega
      · omega
    rw [if_neg some_kept] at ends
    rw [if_neg emptied]
    refine ⟨cells.drop (s.entries-count.toNat),?_,ends,?_,keep',?_⟩
    · rw [Retained.next,lines]
      exact left
    · rw [entries',List.length_drop]
    · have same : (r.next (.setLinesKept count)).limit = count := rfl
      rw [List.length_drop,same]
      omega

theorem lost_step {r : Retained} (lost : Lost s r) (event : Event) :
    next s event = none ∨ ∃ t, next s event = some t ∧ Lost t (r.next event) := by
  obtain ⟨ring,⟨a,tail,gone,born⟩,entries,keep⟩ := lost
  have none_left : r.lines = [] := List.eq_nil_of_length_eq_zero ring.length
  cases event with
  | write pre line =>
    by_cases zero : r.limit = 0
    · obtain ⟨kept,same⟩ := write_idle keep zero none_left pre line
      rw [same]
      exact .inr ⟨s,kept,ring,⟨a,tail,gone,born⟩,entries,keep⟩
    · refine .inl ?_
      simp only [next,createLogEntry]
      rw [if_neg fun none_kept => zero (keep.symm.trans none_kept),push,tail,store,setNext,
        assign_other (Nat.ne_of_lt born),gone]
      rfl
  | setLinesKept count =>
    refine .inr ⟨{s with keepEntries := count},?_,?_,⟨a,tail,gone,born⟩,entries,rfl⟩
    · simp only [next,logSetLinesKept,entries,Nat.zero_sub,LogRing.dropLines]
    · rw [Retained.next,none_left,trim,List.drop_nil]
      rw [none_left] at ring
      exact ⟨ring.chain,ring.items,ring.total,ring.unborn⟩

theorem walk_ring {h : Heap LogEntry} (chain : Chain (nexts h) p cells) (items : Items h cells lines) :
    walk h cells.length p = some lines := by
  induction chain generalizing lines with
  | nil =>
    cases items
    rfl
  | @cons a p rest here chain ih =>
    cases items with
    | cons item items =>
      obtain ⟨cell,found,entry⟩ := Option.map_eq_some_iff.mp item
      obtain ⟨same,at_a,next⟩ := Option.map_eq_some_iff.mp here
      cases Option.some.inj (found.symm.trans at_a)
      rw [List.length_cons,walk,found,Option.bind_some,next,ih items,Option.map_some,entry]

theorem length_flatten_sizes (lines : List (List UInt8)) : sizes lines = lines.flatten.length+lines.length := by
  induction lines with
  | nil => rfl
  | cons line lines ih =>
    have parts : sizes (line::lines) = line.length+1+sizes lines := List.sum_cons
    rw [parts,ih,List.flatten_cons,List.length_append,List.length_cons]
    omega

theorem printLines_fits {buf : List UInt8} {room : Nat} (size : buf.length = ptr+room)
    (front : buf.take ptr = text) (nul : buf[ptr]? = some 0)
    (fits : lines.flatten.length < room) (small : room < 2^64) :
    ∃ out, printLines buf ptr room lines = some out ∧ out.take (ptr+lines.flatten.length) = text++lines.flatten ∧
      out[ptr+lines.flatten.length]? = some 0 := by
  induction lines generalizing buf ptr room text with
  | nil => exact ⟨buf,rfl,by rwa [List.flatten_nil,List.append_nil],nul⟩
  | cons line lines ih =>
    rw [List.flatten_cons,List.length_append] at fits ⊢
    have here : line.length < room := by omega
    have count : ((room : Int) % 2^64).toNat = room := by omega
    have whole_block : ptr+room ≤ buf.length := Nat.le_of_eq size.symm
    obtain ⟨next,printed⟩ := snprintf_total line whole_block
    have width := length_snprintf printed
    have begins := take_snprintf printed here
    have copied := printed
    rw [snprintf,if_neg (by omega),List.take_of_length_le (by omega)] at copied
    have block := take_memcpy copied
    have nul' : next[ptr+line.length]? = some 0 := by
      have inside : ptr+line.length < ptr+(line++[(0 : UInt8)]).length := by
        rw [List.length_append,List.length_singleton]
        omega
      have front_size : (buf.take ptr).length = ptr := by
        rw [List.length_take]
        omega
      rw [←List.getElem?_take_of_lt inside,block,List.getElem?_append_right (by omega),front_size,
        Nat.add_sub_cancel_left,
        List.getElem?_append_right (Nat.le_refl _),Nat.sub_self,List.getElem?_cons_zero]
    have left : (room : Int)-line.length = ((room-line.length : Nat) : Int) := by omega
    have size' : next.length = ptr+line.length+(room-line.length) := by omega
    obtain ⟨out,ran,whole,ends⟩ := ih size' begins nul' (by omega) (by omega)
    refine ⟨out,?_,?_,?_⟩
    · rw [printLines,count,printed,Option.bind_some,left]
      exact ran
    · rw [←Nat.add_assoc,whole,front,List.append_assoc]
    · rw [←Nat.add_assoc]
      exact ends

theorem healthy_text {r : Retained} (healthy : Healthy s r) (small : r.lines.flatten.length+r.lines.length+1 < 2^31) :
    ReturnsText s r.lines.flatten (r.lines.flatten.length+r.lines.length) := by
  obtain ⟨cells,ring,_⟩ := healthy
  intro junk
  have total : s.total = r.lines.flatten.length+r.lines.length := ring.total.trans (length_flatten_sizes r.lines)
  have remain : Int.bmod (s.total+1) (2^32) = ((s.total+1 : Nat) : Int) := by
    rw [Int.bmod_eq_of_le (by omega) (by omega)]
    rfl
  have size : (0::List.replicate (s.total+1-1) junk).length = 0+(s.total+1) := by
    rw [List.length_cons,List.length_replicate]
    omega
  obtain ⟨out,printed,whole,ends⟩ :=
    printLines_fits size rfl rfl (by omega : r.lines.flatten.length < s.total+1) (by omega)
  refine ⟨cells.length,out,?_,?_,?_⟩
  · unfold logContents
    rw [remain,if_neg (by omega),walk_ring ring.chain ring.items,Option.bind_some]
    simp only [Int.toNat_natCast,printed,Option.map_some]
    rw [total,Nat.mod_eq_of_lt (by omega)]
  · rw [Nat.zero_add] at whole
    exact whole
  · rw [Nat.zero_add] at ends
    exact ends

theorem contents_len (read : logContents junk fuel s = some (buf,len)) : len = s.total % 2^32 := by
  unfold logContents at read
  dsimp only at read
  split at read
  · cases read
  · obtain ⟨lines,_,rest⟩ := Option.bind_eq_some_iff.mp read
    obtain ⟨out,_,same⟩ := Option.map_eq_some_iff.mp rest
    exact (congrArg Prod.snd same).symm

theorem healthy_len {r : Retained} (healthy : Healthy s r) (kept : r.lines ≠ []) (text : List UInt8) :
    ¬ReturnsText s text r.lines.flatten.length := by
  intro returns
  obtain ⟨cells,ring,_,_,_,fits⟩ := healthy
  obtain ⟨fuel,buf,read,_⟩ := returns 0
  have len := contents_len read
  have total : s.total = r.lines.flatten.length+r.lines.length := ring.total.trans (length_flatten_sizes r.lines)
  have some_left : 0 < r.lines.length := List.length_pos_iff.mpr kept
  have bound : r.limit.toNat < 2^32 := r.limit.toNat_lt
  rw [total] at len
  have few : r.lines.length < 2^32 := by
    rw [ring.length]
    exact Nat.lt_of_le_of_lt fits bound
  omega

theorem lost_tail {r : Retained} (lost : Lost s r) : ¬Tailed s := by
  intro ⟨cells,holds⟩
  obtain ⟨ring,⟨a,tail,_⟩,_⟩ := lost
  have empty : cells = [] := holds.chain.unique ring.chain
  have head := holds.tail
  rw [empty,tail] at head
  cases head

-- Something was kept once.
def Used (s : Log) (r : Retained) : Prop := Healthy s r ∧ r.lines ≠ [] ∨ Lost s r

theorem limit_pos {r : Retained} (healthy : Healthy s r) (kept : r.lines ≠ []) : r.limit ≠ 0 := by
  intro zero
  obtain ⟨cells,ring,_,_,_,fits⟩ := healthy
  rw [zero,←ring.length] at fits
  exact kept (List.eq_nil_of_length_eq_zero (Nat.le_zero.mp fits))

theorem used_step {r : Retained} (used : Used s r) (step : next s event = some t) : Used t (r.next event) := by
  rcases used with ⟨healthy,kept⟩ | lost
  · cases event with
    | write pre line =>
      obtain ⟨u,wrote,healthy',nonempty⟩ := write_healthy healthy pre line
      cases Option.some.inj (wrote.symm.trans step)
      exact .inl ⟨healthy',nonempty (limit_pos healthy kept)⟩
    | setLinesKept count =>
      obtain ⟨u,changed,after⟩ := keep_healthy healthy count
      cases Option.some.inj (changed.symm.trans step)
      by_cases zero : count = 0
      · rw [if_pos ⟨zero,kept⟩] at after
        exact .inr after
      · rw [if_neg fun both => zero both.1] at after
        refine .inl ⟨after,fun emptied => ?_⟩
        have positive : count.toNat ≠ 0 := fun none_kept => zero (UInt32.toNat_inj.mp none_kept)
        have some_left : 0 < r.lines.length := List.length_pos_iff.mpr kept
        have gone := List.drop_eq_nil_iff.mp emptied
        omega
  · rcases lost_step lost event with stuck | ⟨u,went,lost'⟩
    · rw [stuck] at step
      cases step
    · cases Option.some.inj (went.symm.trans step)
      exact .inr lost'

theorem used_run {r : Retained} (used : Used s r) (ran : runFrom next s events = some t) : Used t (r.run events) := by
  induction events generalizing s r with
  | nil =>
    cases Option.some.inj ran
    exact used
  | cons event events ih =>
    obtain ⟨u,step,rest⟩ := Option.bind_eq_some_iff.mp ran
    exact ih (used_step used step) rest

theorem used_inexact {r : Retained} (used : Used s r) :
    ¬(Tailed s ∧ ReturnsText s r.lines.flatten r.lines.flatten.length) := by
  intro ⟨tailed,returns⟩
  rcases used with ⟨healthy,kept⟩ | lost
  · exact healthy_len healthy kept _ returns
  · exact lost_tail lost tailed

theorem healthy_tailed {r : Retained} (healthy : Healthy s r) : Tailed s := by
  obtain ⟨cells,ring,tail,_⟩ := healthy
  exact ⟨cells,ring.chain,tail⟩

theorem empty_step {r : Retained} (healthy : Healthy s r) (none_left : r.lines = []) (event : Event) :
    ∃ t, next s event = some t ∧ Healthy t (r.next event) := by
  cases event with
  | write pre line =>
    obtain ⟨t,wrote,healthy',_⟩ := write_healthy healthy pre line
    exact ⟨t,wrote,healthy'⟩
  | setLinesKept count =>
    obtain ⟨t,changed,after⟩ := keep_healthy healthy count
    rw [if_neg fun both => both.2 none_left] at after
    exact ⟨t,changed,after⟩

theorem write_zero {r : Retained} (none_left : r.lines = []) (zero : r.limit = 0) (pre line : List UInt8) :
    r.next (.write pre line) = r := by
  obtain ⟨limit,lines⟩ := r
  cases zero
  cases none_left
  rfl

theorem set_lines {r : Retained} (none_left : r.lines = []) (count : UInt32) :
    (r.next (.setLinesKept count)).lines = [] := by
  rw [Retained.next,none_left,trim,List.drop_nil]

theorem never_kept_run {r : Retained} (healthy : Healthy s r) (none_left : r.lines = [])
    (never : NeverKept r.limit events) :
    ∃ t, runFrom next s events = some t ∧ Healthy t (r.run events) ∧ (r.run events).lines = [] := by
  induction events generalizing s r with
  | nil => exact ⟨s,rfl,healthy,none_left⟩
  | cons event events ih =>
    obtain ⟨t,step,healthy'⟩ := empty_step healthy none_left event
    have go : ∃ u, runFrom next t events = some u ∧
      Healthy u ((r.next event).run events) ∧ ((r.next event).run events).lines = [] := by
      cases event with
      | write pre line =>
        have same := write_zero none_left never.1 pre line
        exact ih healthy' (same.symm ▸ none_left) (same.symm ▸ never.2)
      | setLinesKept count => exact ih healthy' (set_lines none_left count) never
    obtain ⟨u,ran,rest⟩ := go
    refine ⟨u,?_,rest⟩
    rw [runFrom,step,Option.bind_some]
    exact ran

theorem kept_run {r : Retained} (healthy : Healthy s r) (none_left : r.lines = []) (kept : ¬NeverKept r.limit events)
    (ran : runFrom next s events = some t) : Used t (r.run events) := by
  induction events generalizing s r with
  | nil => exact absurd trivial kept
  | cons event events ih =>
    obtain ⟨u,step,rest⟩ := Option.bind_eq_some_iff.mp ran
    cases event with
    | write pre line =>
      obtain ⟨u',wrote,healthy',nonempty⟩ := write_healthy healthy pre line
      cases Option.some.inj (wrote.symm.trans step)
      by_cases zero : r.limit = 0
      · have same := write_zero none_left zero pre line
        exact ih healthy' (same.symm ▸ none_left) (fun never => kept ⟨zero,same ▸ never⟩) rest
      · have used : Used u (r.next (.write pre line)) := .inl ⟨healthy',nonempty zero⟩
        have after := used_run used rest
        exact after
    | setLinesKept count =>
      obtain ⟨u',changed,healthy'⟩ := empty_step healthy none_left (.setLinesKept count)
      cases Option.some.inj (changed.symm.trans step)
      exact ih healthy' (set_lines none_left count) kept rest

-- The text, its reported length and the tail are all right exactly when no line was ever kept:
-- a line that is kept counts its NUL, and dropping the last one leaves the tail in it.
theorem ring_exact (keep : UInt32) (events : List Event) : Exact keep events ↔ NeverKept keep events := by
  constructor
  · intro ⟨s,ran,exact⟩
    by_contra kept
    exact used_inexact (kept_run (opened_healthy keep) rfl kept ran) exact
  · intro never
    obtain ⟨s,ran,healthy,none_left⟩ := never_kept_run (opened_healthy keep) rfl never
    have text := healthy_text healthy (by rw [none_left]; decide)
    rw [none_left] at text
    refine ⟨s,ran,healthy_tailed healthy,?_⟩
    rw [none_left]
    exact text

theorem unemptied_run {r : Retained} (healthy : Healthy s r) (never : NeverEmptied r events) :
    ∃ t, runFrom next s events = some t ∧ Healthy t (r.run events) := by
  induction events generalizing s r with
  | nil => exact ⟨s,rfl,healthy⟩
  | cons event events ih =>
    have stepped : ∃ t, next s event = some t ∧ Healthy t (r.next event) := by
      cases event with
      | write pre line =>
        obtain ⟨t,wrote,healthy',_⟩ := write_healthy healthy pre line
        exact ⟨t,wrote,healthy'⟩
      | setLinesKept count =>
        obtain ⟨t,changed,after⟩ := keep_healthy healthy count
        rw [if_neg fun both => both.2 (never.1 (congrArg Event.setLinesKept both.1))] at after
        exact ⟨t,changed,after⟩
    obtain ⟨t,step,healthy'⟩ := stepped
    obtain ⟨u,ran,rest⟩ := ih healthy' never.2
    refine ⟨u,?_,rest⟩
    rw [runFrom,step,Option.bind_some]
    exact ran

-- A log whose limit is not set to 0 while it has lines keeps its tail and returns the lines; the
-- reported length is too great by their number.
theorem unemptied_text (keep : UInt32) (events : List Event) (never : NeverEmptied ⟨keep,[]⟩ events)
    (small : (Retained.run ⟨keep,[]⟩ events).lines.flatten.length+(Retained.run
    ⟨keep,[]⟩ events).lines.length+1 < 2^31) :
    ∃ s, runFrom next (opened keep) events = some s ∧ Tailed s ∧
      ReturnsText s (Retained.run ⟨keep,[]⟩ events).lines.flatten
        ((Retained.run ⟨keep,[]⟩ events).lines.flatten.length+(Retained.run ⟨keep,[]⟩ events).lines.length) := by
  obtain ⟨s,ran,healthy⟩ := unemptied_run (opened_healthy keep) never
  exact ⟨s,ran,healthy_tailed healthy,healthy_text healthy small⟩

-- One line is kept: its text has two bytes, three are reported.
theorem one_line_inexact : ¬Exact 0 [.setLinesKept 2,.write [] (ascii "a")] := by
  intro ⟨s,ran,_,returns⟩
  obtain ⟨fuel,buf,read,_⟩ := returns 0
  have len := contents_len read
  have total : (runFrom next (opened 0) [.setLinesKept 2,.write [] (ascii "a")]).map
    (·.total) = some 3 := by decide +kernel
  rw [ran] at total
  have three : s.total = 3 := Option.some.inj total
  rw [three] at len
  exact absurd len (by decide)

end Icecast.LogRing
