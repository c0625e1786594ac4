import Mathlib.Data.List.Basic

namespace IcyFormat

-- Bytes of a metadata block whose length byte is given, the length byte included.
def blockLen (k : UInt8) : Nat := 1+16*k.toNat

-- A block is whole once it has all the bytes its length byte announces.
def whole : List UInt8 → Bool
  | [] => false
  | k::rest => rest.length+1 = blockLen k

-- Where a reader of the interleaved stream stands: audio bytes since the last
-- block, and the part of a block in progress already seen.
structure Scan where
  seen : Nat
  block : List UInt8
deriving DecidableEq,Repr

inductive Item where
  | audio (byte : UInt8)
  | block (bytes : List UInt8)
deriving DecidableEq,Repr

def start : Scan := ⟨0,[]⟩

def step (n : Nat) (s : Scan) (byte : UInt8) : Scan × List Item :=
  if s.block = [] ∧ s.seen < n then (⟨s.seen+1,[]⟩,[.audio byte])
  else if whole (s.block++[byte]) then (⟨0,[]⟩,[.block (s.block++[byte])])
  else (⟨s.seen,s.block++[byte]⟩,[])

def scan (n : Nat) : Scan → List UInt8 → Scan × List Item
  | s,[] => (s,[])
  | s,byte::rest =>
    let one := step n s byte
    let more := scan n one.1 rest
    (more.1,one.2++more.2)

def audioOf (items : List Item) : List UInt8 :=
  items.flatMap fun | .audio byte => [byte] | .block _ => []

def blocksOf (items : List Item) : List (List UInt8) :=
  items.flatMap fun | .audio _ => [] | .block bytes => [bytes]

@[simp] theorem audioOf_append : audioOf (xs++ys) = audioOf xs++audioOf ys := by simp [audioOf]
@[simp] theorem blocksOf_append : blocksOf (xs++ys) = blocksOf xs++blocksOf ys := by simp [blocksOf]
@[simp] theorem audioOf_audio (xs : List UInt8) : audioOf (xs.map .audio) = xs := by
  induction xs with
  | nil => rfl
  | cons x xs ih => simpa [audioOf] using ih
@[simp] theorem blocksOf_audio (xs : List UInt8) : blocksOf (xs.map .audio) = [] := by
  induction xs with
  | nil => rfl
  | cons x xs ih => exact ih
@[simp] theorem audioOf_block : audioOf (.block bytes::items) = audioOf items := rfl
@[simp] theorem blocksOf_block : blocksOf (.block bytes::items) = bytes::blocksOf items := rfl
@[simp] theorem audioOf_nil : audioOf [] = [] := rfl
@[simp] theorem blocksOf_nil : blocksOf [] = [] := rfl

theorem scan_append : scan n s (xs++ys) =
    ((scan n (scan n s xs).1 ys).1,(scan n s xs).2++(scan n (scan n s xs).1 ys).2) := by
  induction xs generalizing s with
  | nil => simp [scan]
  | cons x xs ih => simp [scan,ih,List.append_assoc]

theorem scan_audio (room : seen+xs.length ≤ n) :
    scan n ⟨seen,[]⟩ xs = (⟨seen+xs.length,[]⟩,xs.map .audio) := by
  induction xs generalizing seen with
  | nil => rfl
  | cons x xs ih =>
    simp only [List.length_cons] at room
    have below : seen < n := by omega
    have tail := ih (show seen+1+xs.length ≤ n by omega)
    simp only [scan,step,below,and_self,if_true,tail,List.length_cons,List.map_cons]
    simp only [List.singleton_append,Nat.add_assoc,Nat.add_comm 1]

theorem scan_block (due : n ≤ seen) (short : ∀ front back, xs = front++back → front ≠ [] →
    whole (part++front) = false) :
    scan n ⟨seen,part⟩ xs = (⟨seen,part++xs⟩,[]) := by
  induction xs generalizing part with
  | nil => simp [scan]
  | cons x xs ih =>
    have first : whole (part++[x]) = false := short [x] xs rfl (by simp)
    have tail : scan n ⟨seen,part++[x]⟩ xs = (⟨seen,part++[x]++xs⟩,[]) := ih fun front back same _ => by
      have := short (x::front) back (by rw [same]; rfl) (by simp)
      simpa using this
    have notAudio : ¬(part = [] ∧ seen < n) := by omega
    simp [scan,step,notAudio,first,tail]

theorem whole_iff (first : part.head? = some k) : whole part = true ↔ part.length = blockLen k := by
  cases part with
  | nil => cases first
  | cons b rest =>
    cases Option.some.inj first
    simp [whole]

theorem scan_block_part (due : n ≤ seen) (first : (part++xs).head? = some k)
    (short : (part++xs).length < blockLen k) : scan n ⟨seen,part⟩ xs = (⟨seen,part++xs⟩,[]) := by
  refine scan_block due fun front back same nonempty => ?_
  have head : (part++front).head? = some k := by
    rw [same,←List.append_assoc] at first
    cases whole : part++front with
    | nil => simp_all
    | cons b rest => rw [whole] at first; simpa using first
  have size : (part++front).length < blockLen k := by
    rw [same] at short
    simp only [List.length_append] at short ⊢
    omega
  have := whole_iff head
  cases done : whole (part++front) with
  | false => rfl
  | true => exact absurd (this.mp done) (by omega)

theorem scan_block_end (due : n ≤ seen) (first : (part++xs).head? = some k) (missing : part.length < blockLen k)
    (full : (part++xs).length = blockLen k) : scan n ⟨seen,part⟩ xs = (⟨0,[]⟩,[.block (part++xs)]) := by
  have nonempty : xs ≠ [] := by
    rintro rfl
    simp only [List.append_nil] at full
    omega
  obtain ⟨front,last,rfl⟩ : ∃ front last, xs = front++[last] :=
    ⟨xs.dropLast,xs.getLast nonempty,(List.dropLast_append_getLast nonempty).symm⟩
  have done : whole (part++(front++[last])) = true := (whole_iff first).mpr full
  have lead : scan n ⟨seen,part⟩ front = (⟨seen,part++front⟩,[]) := by
    by_cases empty : part++front = []
    · obtain ⟨rfl,rfl⟩ : part = [] ∧ front = [] := by simpa using empty
      rfl
    · refine scan_block_part due ?_ ?_ (k := k)
      · cases whole : part++front with
        | nil => exact absurd whole empty
        | cons b rest =>
          rw [←List.append_assoc,whole] at first
          simpa using first
      · rw [←full]; simp
  have notAudio : ¬(part++front = [] ∧ seen < n) := by omega
  rw [scan_append,lead]
  simp only [scan,step,notAudio,done,if_true,if_false,List.nil_append,List.append_nil,List.append_assoc]

-- The same format read whole: after every n audio bytes one block is taken out.
def strip (n : Nat) (xs : List UInt8) : List UInt8 :=
  if long : n < xs.length then xs.take n++strip n (xs.drop (n+blockLen xs[n])) else xs
termination_by xs.length
decreasing_by
  simp only [blockLen,List.length_drop]
  omega

-- The blocks that lie whole in the stream, in order.
def blocks (n : Nat) (xs : List UInt8) : List (List UInt8) :=
  if long : n < xs.length then
    if n+blockLen xs[n] ≤ xs.length then
      (xs.drop n).take (blockLen xs[n])::blocks n (xs.drop (n+blockLen xs[n]))
    else []
  else []
termination_by xs.length
decreasing_by
  simp only [blockLen,List.length_drop]
  omega

theorem scan_round (long : n < xs.length) :
    audioOf (scan n start xs).2 = xs.take n++audioOf (scan n start (xs.drop (n+blockLen xs[n]))).2 ∧
    blocksOf (scan n start xs).2 = (if n+blockLen xs[n] ≤ xs.length then
      (xs.drop n).take (blockLen xs[n])::blocksOf (scan n start (xs.drop (n+blockLen xs[n]))).2 else []) := by
  have lead : scan n start (xs.take n) = (⟨n,[]⟩,(xs.take n).map .audio) := by
    have all := scan_audio (show 0+(xs.take n).length ≤ n by rw [List.length_take]; omega)
    simpa [start,Nat.min_eq_left (Nat.le_of_lt long)] using all
  have cut : xs = xs.take n++xs.drop n := (List.take_append_drop n xs).symm
  have head : (xs.drop n).head? = some xs[n] := by simp [List.head?_drop]
  by_cases fits : n+blockLen xs[n] ≤ xs.length
  · have split : xs.drop n = (xs.drop n).take (blockLen xs[n])++xs.drop (n+blockLen xs[n]) := by
      rw [←List.drop_drop,List.take_append_drop]
    have width : ((xs.drop n).take (blockLen xs[n])).length = blockLen xs[n] := by
      simp only [List.length_take,List.length_drop]
      omega
    have block : scan n ⟨n,[]⟩ ((xs.drop n).take (blockLen xs[n])) =
        (start,[.block ((xs.drop n).take (blockLen xs[n]))]) := by
      refine scan_block_end (k := xs[n]) (Nat.le_refl n) ?_ ?_ width
      · rw [List.nil_append,List.head?_take,if_neg (by simp [blockLen]),head]
      · simp only [List.length_nil,blockLen]
        omega
    have whole : scan n start xs = ((scan n start (xs.drop (n+blockLen xs[n]))).1,
        (xs.take n).map .audio++([.block ((xs.drop n).take (blockLen xs[n]))]++
          (scan n start (xs.drop (n+blockLen xs[n]))).2)) := by
      conv_lhs => rw [cut,scan_append,lead]
      dsimp only
      conv_lhs => rw [split,scan_append,block]
    rw [whole]
    simp only [audioOf_append,blocksOf_append,audioOf_audio,blocksOf_audio,audioOf_block,blocksOf_block,
      List.singleton_append,List.nil_append,if_pos fits,and_self]
  · have part : scan n ⟨n,[]⟩ (xs.drop n) = (⟨n,xs.drop n⟩,[]) := by
      refine scan_block_part (k := xs[n]) (Nat.le_refl n) head ?_
      simp only [List.nil_append,List.length_drop]
      omega
    have whole : scan n start xs = (⟨n,xs.drop n⟩,(xs.take n).map .audio) := by
      conv_lhs => rw [cut,scan_append,lead]
      dsimp only
      rw [part,List.append_nil]
    have none_left : xs.drop (n+blockLen xs[n]) = [] := List.drop_eq_nil_of_le (by omega)
    rw [whole,none_left]
    simp only [audioOf_audio,blocksOf_audio,scan,audioOf_nil,List.append_nil,if_neg fits,and_self]

theorem scan_short (short : xs.length ≤ n) : scan n start xs = (⟨xs.length,[]⟩,xs.map .audio) := by
  simpa [start] using scan_audio (show 0+xs.length ≤ n by omega)

theorem scan_strip (n : Nat) (xs : List UInt8) : audioOf (scan n start xs).2 = strip n xs := by
  induction xs using strip.induct n with
  | case1 xs long ih => rw [strip,dif_pos long,(scan_round long).1,ih]
  | case2 xs short => rw [strip,dif_neg short,scan_short (by omega),audioOf_audio]

theorem scan_blocks (n : Nat) (xs : List UInt8) : blocksOf (scan n start xs).2 = blocks n xs := by
  induction xs using blocks.induct n with
  | case1 xs long fits ih => rw [blocks,dif_pos long,if_pos fits,(scan_round long).2,if_pos fits,ih]
  | case2 xs long short => rw [blocks,dif_pos long,if_neg short,(scan_round long).2,if_neg short]
  | case3 xs short => rw [blocks,dif_neg short,scan_short (by omega),blocksOf_audio]

theorem blocks_append (n : Nat) (xs ys : List UInt8) :
    blocks n (xs++ys) = blocks n xs++blocksOf (scan n (scan n start xs).1 ys).2 := by
  rw [←scan_blocks,←scan_blocks,scan_append,blocksOf_append]

theorem blocks_front (front : xs <+: ys) : ∀ block ∈ blocks n xs,block ∈ blocks n ys := by
  obtain ⟨rest,rfl⟩ := front
  intro block member
  rw [blocks_append]
  exact List.mem_append_left _ member

theorem strip_front (front : xs <+: ys) : strip n xs <+: strip n ys := by
  obtain ⟨rest,rfl⟩ := front
  rw [←scan_strip,←scan_strip,scan_append,audioOf_append]
  exact List.prefix_append _ _

theorem step_whole (n : Nat) (s : Scan) (byte : UInt8) (member : block ∈ blocksOf (step n s byte).2) :
    whole block = true := by
  unfold step at member
  split at member
  · cases member
  · split at member
    · rename_i ended
      rw [List.mem_singleton.mp member]
      exact ended
    · cases member

theorem scan_whole (xs : List UInt8) (member : block ∈ blocksOf (scan n s xs).2) : whole block = true := by
  induction xs generalizing s with
  | nil => cases member
  | cons x xs ih =>
    simp only [scan,blocksOf_append] at member
    rcases List.mem_append.mp member with first | rest
    · exact step_whole n s x first
    · exact ih rest

end IcyFormat
