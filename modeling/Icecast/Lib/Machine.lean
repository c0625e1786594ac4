import Mathlib.Algebra.Group.Nat.Defs
import Mathlib.Algebra.Group.Int.Defs
import Mathlib.Data.List.Basic

namespace Machine

-- Conversion to a 32-bit int.
def toInt32 (n : Int) : Int := n.bmod (2^32)

-- The value of an operation on ints; none is an overflow, which is undefined.
def checked (x : Int) : Option Int := if -2^31 ≤ x ∧ x < 2^31 then some x else none

-- The room of a block whose size is given as an int: converted to a size_t, a negative one is
-- larger than any block.
def allocate (size : Int) : Option Nat := if 0 ≤ size then some size.toNat else none

-- *out++ for each of some bytes, `out` being what the block holds so far; none is a write behind
-- its end.
def emit (room : Nat) (out text : List UInt8) : Option (List UInt8) :=
  if out.length+text.length ≤ room then some (out++text) else none

theorem toInt32_range (n : Int) : -2^31 ≤ toInt32 n ∧ toInt32 n < 2^31 := by
  have low := Int.le_bmod (x := n) (m := 2^32) (by decide)
  have high := Int.bmod_lt (x := n) (m := 2^32) (by decide)
  unfold toInt32
  omega

theorem toInt32_small {n : Int} (low : -2^31 ≤ n) (high : n < 2^31) : toInt32 n = n := by
  apply Int.bmod_eq_of_le
  · omega
  · omega

theorem toInt32_large {n : Int} (large : 2^31 ≤ n) : toInt32 n ≤ n-2^32 := by
  have same : (n.bmod (2^32)-n) % ((2^32 : Nat) : Int) = 0 := by
    rw [Int.sub_emod,Int.bmod_emod,Int.sub_self,Int.zero_emod]
  have high := (toInt32_range n).2
  unfold toInt32 at high ⊢
  omega

theorem toInt32_le {n : Nat} : toInt32 n ≤ n := by
  by_cases large : (2^31 : Int) ≤ n
  · have less := toInt32_large large
    omega
  · exact Int.le_of_eq (toInt32_small (by omega) (by omega))

theorem checked_bind {f : Int → Option α} (fits : -2^31 ≤ x ∧ x < 2^31) : (checked x).bind f = f x := by
  rw [checked,if_pos fits,Option.bind_some]

theorem allocate_bind {f : Nat → Option α} (fits : 0 ≤ size) : (allocate size).bind f = f size.toNat := by
  rw [allocate,if_pos fits,Option.bind_some]

theorem emit_eq {text : List UInt8} (fits : out.length+text.length ≤ room) : emit room out text = some (out++text) :=
  if_pos fits

theorem emit_append (room : Nat) (out left right : List UInt8) :
    (emit room out left).bind (emit room · right) = emit room out (left++right) := by
  unfold emit
  rw [List.length_append]
  split
  · rw [Option.bind_some,List.length_append,Nat.add_assoc,List.append_assoc]
  · rw [if_neg (by omega),Option.bind_none]

theorem tdiv_negative {x : Int} (negative : x ≤ 0) (d : Int) : x.tdiv d = -(-x/d) := by
  have flipped : (-x).tdiv d = -x/d := Int.tdiv_eq_ediv_of_nonneg (by omega)
  rw [←flipped,Int.neg_tdiv,Int.neg_neg]

end Machine
