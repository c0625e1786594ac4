import Icecast.Htpasswd
import Icecast.Lib.BlockHash
import Mathlib.Algebra.Group.Nat.Defs
import Mathlib.Data.List.TakeDrop

namespace Icecast.Md5
open Bytes BlockHash

-- uint32_t
abbrev Word := BitVec 32

-- The order in which the machine keeps the bytes of a word.
inductive ByteOrder where
  | little
  | big
deriving DecidableEq

-- The word of four bytes, the low one first.
def word (b0 b1 b2 b3 : UInt8) : Word :=
  (b3.toBitVec.setWidth 32 <<< 8 ||| b2.toBitVec.setWidth 32) <<< 16 |||
    (b1.toBitVec.setWidth 32 <<< 8 ||| b0.toBitVec.setWidth 32)

def bytesOf (w : Word) : List UInt8 :=
  [.ofBitVec (w.setWidth 8),.ofBitVec ((w >>> 8).setWidth 8),.ofBitVec ((w >>> 16).setWidth 8),
    .ofBitVec ((w >>> 24).setWidth 8)]

-- A word as it lies in memory, and the words that lie there.
def store : ByteOrder → Word → List UInt8
  | .little,w => bytesOf w
  | .big,w => (bytesOf w).reverse

def load : ByteOrder → UInt8 → UInt8 → UInt8 → UInt8 → Word
  | .little,b0,b1,b2,b3 => word b0 b1 b2 b3
  | .big,b0,b1,b2,b3 => word b3 b2 b1 b0

def loads (order : ByteOrder) : List UInt8 → List Word
  | b0::b1::b2::b3::rest => load order b0 b1 b2 b3::loads order rest
  | _ => []

def byteReverse (order : ByteOrder) : Nat → List UInt8 → List UInt8
  | longs+1,b0::b1::b2::b3::rest => store order (word b0 b1 b2 b3)++byteReverse order longs rest
  | _,buf => buf

inductive Register where
  | a
  | b
  | c
  | d
deriving DecidableEq

structure Registers where
  a : Word
  b : Word
  c : Word
  d : Word
deriving DecidableEq

def Registers.get (r : Registers) : Register → Word
  | .a => r.a
  | .b => r.b
  | .c => r.c
  | .d => r.d

def Registers.set (r : Registers) : Register → Word → Registers
  | .a,w => {r with a := w}
  | .b,w => {r with b := w}
  | .c,w => {r with c := w}
  | .d,w => {r with d := w}

-- The four core functions.
def F1 (x y z : Word) : Word := z ^^^ (x &&& (y ^^^ z))
def F2 (x y z : Word) : Word := F1 z x y
def F3 (x y z : Word) : Word := x ^^^ y ^^^ z
def F4 (x y z : Word) : Word := y ^^^ (x ||| ~~~z)

inductive Core where
  | f1
  | f2
  | f3
  | f4
deriving DecidableEq

def Core.apply : Core → Word → Word → Word → Word
  | .f1 => F1
  | .f2 => F2
  | .f3 => F3
  | .f4 => F4

-- The arguments of an MD5STEP, whose data is in[index] + constant.
structure Statement where
  f : Core
  w : Register
  x : Register
  y : Register
  z : Register
  index : Nat
  constant : Word
  s : Nat
deriving DecidableEq

def md5step (input : List Word) (r : Registers) (row : Statement) : Registers :=
  let r := r.set row.w (r.get row.w+(row.f.apply (r.get row.x) (r.get row.y)
    (r.get row.z)+input.getD row.index 0+row.constant))
  let r := r.set row.w (r.get row.w <<< row.s ||| r.get row.w >>> (32-row.s))
  r.set row.w (r.get row.w+r.get row.x)

-- The body of MD5Transform.
def statements : List Statement := [
  ⟨.f1,.a,.b,.c,.d,0,0xd76aa478,7⟩,
  ⟨.f1,.d,.a,.b,.c,1,0xe8c7b756,12⟩,
  ⟨.f1,.c,.d,.a,.b,2,0x242070db,17⟩,
  ⟨.f1,.b,.c,.d,.a,3,0xc1bdceee,22⟩,
  ⟨.f1,.a,.b,.c,.d,4,0xf57c0faf,7⟩,
  ⟨.f1,.d,.a,.b,.c,5,0x4787c62a,12⟩,
  ⟨.f1,.c,.d,.a,.b,6,0xa8304613,17⟩,
  ⟨.f1,.b,.c,.d,.a,7,0xfd469501,22⟩,
  ⟨.f1,.a,.b,.c,.d,8,0x698098d8,7⟩,
  ⟨.f1,.d,.a,.b,.c,9,0x8b44f7af,12⟩,
  ⟨.f1,.c,.d,.a,.b,10,0xffff5bb1,17⟩,
  ⟨.f1,.b,.c,.d,.a,11,0x895cd7be,22⟩,
  ⟨.f1,.a,.b,.c,.d,12,0x6b901122,7⟩,
  ⟨.f1,.d,.a,.b,.c,13,0xfd987193,12⟩,
  ⟨.f1,.c,.d,.a,.b,14,0xa679438e,17⟩,
  ⟨.f1,.b,.c,.d,.a,15,0x49b40821,22⟩,
  ⟨.f2,.a,.b,.c,.d,1,0xf61e2562,5⟩,
  ⟨.f2,.d,.a,.b,.c,6,0xc040b340,9⟩,
  ⟨.f2,.c,.d,.a,.b,11,0x265e5a51,14⟩,
  ⟨.f2,.b,.c,.d,.a,0,0xe9b6c7aa,20⟩,
  ⟨.f2,.a,.b,.c,.d,5,0xd62f105d,5⟩,
  ⟨.f2,.d,.a,.b,.c,10,0x02441453,9⟩,
  ⟨.f2,.c,.d,.a,.b,15,0xd8a1e681,14⟩,
  ⟨.f2,.b,.c,.d,.a,4,0xe7d3fbc8,20⟩,
  ⟨.f2,.a,.b,.c,.d,9,0x21e1cde6,5⟩,
  ⟨.f2,.d,.a,.b,.c,14,0xc33707d6,9⟩,
  ⟨.f2,.c,.d,.a,.b,3,0xf4d50d87,14⟩,
  ⟨.f2,.b,.c,.d,.a,8,0x455a14ed,20⟩,
  ⟨.f2,.a,.b,.c,.d,13,0xa9e3e905,5⟩,
  ⟨.f2,.d,.a,.b,.c,2,0xfcefa3f8,9⟩,
  ⟨.f2,.c,.d,.a,.b,7,0x676f02d9,14⟩,
  ⟨.f2,.b,.c,.d,.a,12,0x8d2a4c8a,20⟩,
  ⟨.f3,.a,.b,.c,.d,5,0xfffa3942,4⟩,
  ⟨.f3,.d,.a,.b,.c,8,0x8771f681,11⟩,
  ⟨.f3,.c,.d,.a,.b,11,0x6d9d6122,16⟩,
  ⟨.f3,.b,.c,.d,.a,14,0xfde5380c,23⟩,
  ⟨.f3,.a,.b,.c,.d,1,0xa4beea44,4⟩,
  ⟨.f3,.d,.a,.b,.c,4,0x4bdecfa9,11⟩,
  ⟨.f3,.c,.d,.a,.b,7,0xf6bb4b60,16⟩,
  ⟨.f3,.b,.c,.d,.a,10,0xbebfbc70,23⟩,
  ⟨.f3,.a,.b,.c,.d,13,0x289b7ec6,4⟩,
  ⟨.f3,.d,.a,.b,.c,0,0xeaa127fa,11⟩,
  ⟨.f3,.c,.d,.a,.b,3,0xd4ef3085,16⟩,
  ⟨.f3,.b,.c,.d,.a,6,0x04881d05,23⟩,
  ⟨.f3,.a,.b,.c,.d,9,0xd9d4d039,4⟩,
  ⟨.f3,.d,.a,.b,.c,12,0xe6db99e5,11⟩,
  ⟨.f3,.c,.d,.a,.b,15,0x1fa27cf8,16⟩,
  ⟨.f3,.b,.c,.d,.a,2,0xc4ac5665,23⟩,
  ⟨.f4,.a,.b,.c,.d,0,0xf4292244,6⟩,
  ⟨.f4,.d,.a,.b,.c,7,0x432aff97,10⟩,
  ⟨.f4,.c,.d,.a,.b,14,0xab9423a7,15⟩,
  ⟨.f4,.b,.c,.d,.a,5,0xfc93a039,21⟩,
  ⟨.f4,.a,.b,.c,.d,12,0x655b59c3,6⟩,
  ⟨.f4,.d,.a,.b,.c,3,0x8f0ccc92,10⟩,
  ⟨.f4,.c,.d,.a,.b,10,0xffeff47d,15⟩,
  ⟨.f4,.b,.c,.d,.a,1,0x85845dd1,21⟩,
  ⟨.f4,.a,.b,.c,.d,8,0x6fa87e4f,6⟩,
  ⟨.f4,.d,.a,.b,.c,15,0xfe2ce6e0,10⟩,
  ⟨.f4,.c,.d,.a,.b,6,0xa3014314,15⟩,
  ⟨.f4,.b,.c,.d,.a,13,0x4e0811a1,21⟩,
  ⟨.f4,.a,.b,.c,.d,4,0xf7537e82,6⟩,
  ⟨.f4,.d,.a,.b,.c,11,0xbd3af235,10⟩,
  ⟨.f4,.c,.d,.a,.b,2,0x2ad7d2bb,15⟩,
  ⟨.f4,.b,.c,.d,.a,9,0xeb86d391,21⟩
]

def md5Transform (buf : Registers) (input : List Word) : Registers :=
  let r := statements.foldl (md5step input) buf
  ⟨buf.a+r.a,buf.b+r.b,buf.c+r.c,buf.d+r.d⟩

-- MD5Context, with `input` for its in.
structure Context where
  buf : Registers
  bits0 : Word
  bits1 : Word
  input : List UInt8
deriving DecidableEq

def md5Init (ctx : Context) :
    Context := {ctx with buf := ⟨0x67452301,0xefcdab89,0x98badcfe,0x10325476⟩,bits0 := 0,bits1 := 0}

-- byteReverse and MD5Transform on the whole of in.
def transformInput (order : ByteOrder) (ctx : Context) : Context :=
  {ctx with input := byteReverse order 16 ctx.input,buf :=
    md5Transform ctx.buf (loads order (byteReverse order 16 ctx.input))}

-- Process data in 64-byte chunks, and keep any remaining bytes.
def chunks (order : ByteOrder) (ctx : Context) (buf : List UInt8) : Option Context :=
  if 64 ≤ buf.length then
    (memcpy ctx.input 0 (buf.take 64)).bind fun input =>
      chunks order (transformInput order {ctx with input := input}) (buf.drop 64)
  else (memcpy ctx.input 0 buf).map fun input => {ctx with input := input}
termination_by buf.length
decreasing_by
  rw [List.length_drop]
  omega

-- The bit count of a context after another `len` bytes.
def addLength (ctx : Context) (len : Nat) : Context :=
  let t := ctx.bits0
  let ctx := {ctx with bits0 := t+BitVec.ofNat 32 len <<< 3}
  let ctx := if ctx.bits0 < t then {ctx with bits1 := ctx.bits1+1} else ctx
  {ctx with bits1 := ctx.bits1+BitVec.ofNat 32 len >>> 29}

-- Bytes already in a context's block.
def inBlock (ctx : Context) : Nat := ((ctx.bits0 >>> 3) &&& 0x3f).toNat

-- MD5Update; none is a write outside of in.
def md5Update (order : ByteOrder) (ctx : Context) (buf : List UInt8) : Option Context :=
  let t := inBlock ctx
  let ctx := addLength ctx buf.length
  if t ≠ 0 then
    if buf.length < 64-t then (memcpy ctx.input t buf).map fun input => {ctx with input := input}
    else (memcpy ctx.input t (buf.take (64-t))).bind fun input =>
      chunks order (transformInput order {ctx with input := input}) (buf.drop (64-t))
  else chunks order ctx buf

def Registers.words (r : Registers) : List Word := [r.a,r.b,r.c,r.d]

-- The two words of the length at the end of in, and the last MD5Transform.
def lastBlock (order : ByteOrder) (ctx : Context) : Option Registers :=
  (memcpy (byteReverse order 14 ctx.input) 56 (store order ctx.bits0)).bind fun input =>
    (memcpy input 60 (store order ctx.bits1)).map fun input => md5Transform ctx.buf (loads order input)

-- Pad out to 56 mod 64, where `count` bytes of in are used.
def padBlock (order : ByteOrder) (ctx : Context) (count : Nat) : Option Context :=
  if 64-count < 8 then
    ((memcpy ctx.input count (List.replicate (64-count) 0)).map fun input =>
      transformInput order {ctx with input := input}).bind
      fun ctx => (memcpy ctx.input 0 (List.replicate 56 0)).map fun input => {ctx with input := input}
  else (memcpy ctx.input count (List.replicate (64-count-8) 0)).map fun input => {ctx with input := input}

-- MD5Final: the digest it fills.
def md5Final (order : ByteOrder) (ctx : Context) : Option (List UInt8) :=
  (memcpy ctx.input (inBlock ctx) [0x80]).bind fun input =>
    ((padBlock order {ctx with input := input} (inBlock ctx+1)).bind (lastBlock order)).map fun buf =>
      byteReverse order 4 (buf.words.flatMap (store order))

-- The digest of a message, from the message's text alone.
namespace Digest

def sines : List Word := [
  0xd76aa478,0xe8c7b756,0x242070db,0xc1bdceee,0xf57c0faf,0x4787c62a,0xa8304613,0xfd469501,
  0x698098d8,0x8b44f7af,0xffff5bb1,0x895cd7be,0x6b901122,0xfd987193,0xa679438e,0x49b40821,
  0xf61e2562,0xc040b340,0x265e5a51,0xe9b6c7aa,0xd62f105d,0x02441453,0xd8a1e681,0xe7d3fbc8,
  0x21e1cde6,0xc33707d6,0xf4d50d87,0x455a14ed,0xa9e3e905,0xfcefa3f8,0x676f02d9,0x8d2a4c8a,
  0xfffa3942,0x8771f681,0x6d9d6122,0xfde5380c,0xa4beea44,0x4bdecfa9,0xf6bb4b60,0xbebfbc70,
  0x289b7ec6,0xeaa127fa,0xd4ef3085,0x04881d05,0xd9d4d039,0xe6db99e5,0x1fa27cf8,0xc4ac5665,
  0xf4292244,0x432aff97,0xab9423a7,0xfc93a039,0x655b59c3,0x8f0ccc92,0xffeff47d,0x85845dd1,
  0x6fa87e4f,0xfe2ce6e0,0xa3014314,0x4e0811a1,0xf7537e82,0xbd3af235,0x2ad7d2bb,0xeb86d391
]

def core (i : Nat) (x y z : Word) : Word :=
  if i < 16 then x &&& y ||| ~~~x &&& z
  else if i < 32 then x &&& z ||| y &&& ~~~z
  else if i < 48 then x ^^^ y ^^^ z
  else y ^^^ (x ||| ~~~z)

def index (i : Nat) : Nat :=
  if i < 16 then i else if i < 32 then (5*i+1)%16 else if i < 48 then (3*i+5)%16 else 7*i%16

def shift (i : Nat) : Nat := [7,12,17,22,5,9,14,20,4,11,16,23,6,10,15,21].getD (i/16*4+i%4) 0

-- One operation on the registers in turn.
def operation (input : List Word) (r : Registers) (i : Nat) : Registers :=
  ⟨r.d,r.b+(r.a+core i r.b r.c r.d+input.getD (index i) 0+sines.getD i 0).rotateLeft (shift i),r.b,r.c⟩

def words (block : List UInt8) : List Word := loads .little block

def compress (buf : Registers) (block : List UInt8) : Registers :=
  let r := (List.range 64).foldl (operation (words block)) buf
  ⟨buf.a+r.a,buf.b+r.b,buf.c+r.c,buf.d+r.d⟩

def initial : Registers := ⟨0x67452301,0xefcdab89,0x98badcfe,0x10325476⟩

-- The length in bits, its low word first.
def lengthBytes (length : Nat) : List UInt8 := bytesOf (.ofNat 32 (8*length))++bytesOf (.ofNat 32 (8*length/2^32))

def padding (length : Nat) : List UInt8 := 0x80::List.replicate ((119-length%64)%64) 0++lengthBytes length

def padded (message : List UInt8) : List UInt8 := message++padding message.length

def md5 (message : List UInt8) : List UInt8 :=
  ((blocks 64 ((padded message).length/64) (padded message)).foldl compress initial).words.flatMap bytesOf

end Digest

theorem word_bytes (w : Word) :
    word (.ofBitVec (w.setWidth 8)) (.ofBitVec ((w >>> 8).setWidth 8)) (.ofBitVec ((w >>> 16).setWidth 8))
      (.ofBitVec ((w >>> 24).setWidth 8)) = w := by
  apply BitVec.eq_of_getLsbD_eq
  intro i bound
  simp only [word,BitVec.getLsbD_or,BitVec.getLsbD_shiftLeft,BitVec.getLsbD_setWidth,BitVec.getLsbD_ushiftRight]
  have byte : i < 8 ∨ 8 ≤ i ∧ i < 16 ∨ 16 ≤ i ∧ i < 24 ∨ 24 ≤ i := by omega
  rcases byte with byte | byte | byte | byte <;> grind

theorem bytes_word (b0 b1 b2 b3 : UInt8) : bytesOf (word b0 b1 b2 b3) = [b0,b1,b2,b3] := by
  have same {w : BitVec 8} {b : UInt8} (bits : w = b.toBitVec) : UInt8.ofBitVec w = b := by rw [bits]
  unfold bytesOf
  rw [same (b := b0),same (b := b1),same (b := b2),same (b := b3)]
  all_goals
    apply BitVec.eq_of_getLsbD_eq
    intro i bound
    simp only [word,BitVec.getLsbD_or,BitVec.getLsbD_shiftLeft,BitVec.getLsbD_setWidth,BitVec.getLsbD_ushiftRight]
    grind

theorem loads_stored (order : ByteOrder) (words : List Word) : loads order (words.flatMap (store order)) = words := by
  induction words with
  | nil => rfl
  | cons w rest ih =>
    rw [List.flatMap_cons]
    cases order with
    | little => exact congrArg₂ List.cons (word_bytes w) ih
    | big => exact congrArg₂ List.cons (word_bytes w) ih

theorem byteReverse_words (order : ByteOrder) (words : List Word) (rest : List UInt8) :
    byteReverse order words.length (words.flatMap bytesOf++rest) = words.flatMap (store order)++rest := by
  induction words with
  | nil =>
    rw [List.length_nil,List.flatMap_nil,List.flatMap_nil]
    rfl
  | cons w words ih =>
    rw [List.flatMap_cons,List.append_assoc,List.flatMap_cons,List.append_assoc,←ih]
    exact congrArg (store order · ++ _) (word_bytes w)

theorem length_bytesOf (w : Word) : (bytesOf w).length = 4 := rfl

theorem length_stored (order : ByteOrder) (words : List Word) :
    (words.flatMap (store order)).length = 4*words.length := by
  induction words with
  | nil => rfl
  | cons w rest ih =>
    rw [List.flatMap_cons,List.length_append,ih,List.length_cons,show (store order w).length = 4 by cases order <;> rfl]
    omega

theorem whole_words (whole : buf.length = 4*count) : ∃ words : List Word, words.length = count ∧
    buf = words.flatMap bytesOf := by
  induction count generalizing buf with
  | zero => exact ⟨[],rfl,List.length_eq_zero_iff.mp whole⟩
  | succ count ih =>
    rcases buf with _ | ⟨b0,_ | ⟨b1,_ | ⟨b2,_ | ⟨b3,rest⟩⟩⟩⟩
    · rw [List.length_nil] at whole
      omega
    all_goals simp only [List.length_cons,List.length_nil] at whole
    all_goals try omega
    have less : rest.length = 4*count := by omega
    obtain ⟨words,counted,rfl⟩ := ih less
    refine ⟨word b0 b1 b2 b3::words,congrArg (·+1) counted,?_⟩
    rw [List.flatMap_cons,bytes_word]
    rfl

theorem loads_byteReverse (order : ByteOrder) (whole : buf.length = 4*count) :
    loads order (byteReverse order count buf) = loads .little buf := by
  obtain ⟨words,rfl,rfl⟩ := whole_words whole
  have reversed := byteReverse_words order words []
  rw [List.append_nil,List.append_nil] at reversed
  rw [reversed,loads_stored,show words.flatMap bytesOf = words.flatMap (store .little) by rfl,loads_stored]

theorem length_byteReverse (order : ByteOrder) (whole : buf.length = 4*count) :
    (byteReverse order count buf).length = 4*count := by
  obtain ⟨words,rfl,rfl⟩ := whole_words whole
  have reversed := byteReverse_words order words []
  rw [List.append_nil,List.append_nil] at reversed
  rw [reversed,length_stored]

theorem byteReverse_stored (order : ByteOrder) (words : List Word) :
    byteReverse order words.length (words.flatMap (store order)) = words.flatMap bytesOf := by
  induction words with
  | nil => rfl
  | cons w rest ih =>
    rw [List.flatMap_cons,List.flatMap_cons,←ih]
    cases order with
    | little => exact congrArg (bytesOf · ++ _) (word_bytes w)
    | big => exact congrArg (List.reverse · ++ _) (bytes_word _ _ _ _)

theorem core_f1 (x y z : Word) : F1 x y z = x &&& y ||| ~~~x &&& z := by
  apply BitVec.eq_of_getLsbD_eq
  intro i bound
  simp only [F1,BitVec.getLsbD_or,BitVec.getLsbD_and,BitVec.getLsbD_xor,BitVec.getLsbD_not,bound,
    decide_true,Bool.true_and]
  cases x.getLsbD i <;> cases y.getLsbD i <;> cases z.getLsbD i <;> rfl

theorem core_f2 (x y z : Word) : F2 x y z = x &&& z ||| y &&& ~~~z := by
  rw [F2,core_f1,BitVec.and_comm z x,BitVec.and_comm (~~~z) y]

theorem rotates (small : s < 32) (w : Word) : w <<< s ||| w >>> (32-s) = w.rotateLeft s := by
  rw [BitVec.rotateLeft_def,Nat.mod_eq_of_lt small]

@[simp] theorem get_set_self (r : Registers) (w : Register) (v : Word) : (r.set w v).get w = v := by
  cases w <;> rfl

@[simp] theorem set_set (r : Registers) (w : Register) (u v : Word) : (r.set w u).set w v = r.set w v := by
  cases w <;> rfl

theorem get_set_other (r : Registers) (v : Word) (other : x ≠ w) : (r.set w v).get x = r.get x := by
  cases x <;> cases w <;> first | rfl | exact absurd rfl other

theorem md5step_eq (input : List Word) (r : Registers) {row : Statement} (other : row.x ≠ row.w) (small : row.s < 32) :
    md5step input r row = r.set row.w
      ((r.get row.w+(row.f.apply (r.get row.x) (r.get row.y)
      (r.get row.z)+input.getD row.index 0+row.constant)).rotateLeft row.s+
        r.get row.x) := by
  simp only [md5step,get_set_self,set_set,rotates small,get_set_other r _ other]

-- The registers that stand for a, b, c and d in the operation of number i.
def turn (i : Nat) : Register × Register × Register × Register :=
  if i%4 = 0 then (.a,.b,.c,.d) else if i%4 = 1 then (.d,.a,.b,.c) else if i%4 = 2 then (.c,.d,.a,.b) else (.b,.c,.d,.a)

def coreOf (i : Nat) : Core := if i < 16 then .f1 else if i < 32 then .f2 else if i < 48 then .f3 else .f4

def row (i : Nat) : Statement :=
  ⟨coreOf i,(turn i).1,(turn i).2.1,(turn i).2.2.1,(turn i).2.2.2,Digest.index i,Digest.sines.getD i 0,Digest.shift i⟩

theorem statements_rows : statements = (List.range 64).map row := by decide +kernel

def turned (i : Nat) (r : Registers) : Registers :=
  ⟨r.get (turn i).1,r.get (turn i).2.1,r.get (turn i).2.2.1,r.get (turn i).2.2.2⟩

theorem core_eq (i : Nat) (x y z : Word) : (coreOf i).apply x y z = Digest.core i x y z := by
  unfold coreOf Digest.core
  split
  · exact core_f1 x y z
  split
  · exact core_f2 x y z
  split <;> rfl

theorem shift_small (i : Nat) : Digest.shift i < 32 := by
  have all : ∀ s ∈ [7,12,17,22,5,9,14,20,4,11,16,23,6,10,15,21],s < 32 := by decide
  unfold Digest.shift
  rw [List.getD_eq_getElem?_getD]
  cases found : [7,12,17,22,5,9,14,20,4,11,16,23,6,10,15,21][i/16*4+i%4]? with
  | none => decide
  | some s => exact all s (List.mem_of_getElem? found)

theorem turned_step (input : List Word) (r : Registers) (i : Nat) :
    turned (i+1) (md5step input r (row i)) = Digest.operation input (turned i r) i := by
  have distinct : (row i).x ≠ (row i).w := by
    simp only [row,turn]
    split_ifs <;> decide
  rw [md5step_eq input r distinct (shift_small i)]
  simp only [row,core_eq,Digest.operation,turned]
  have quarter : i%4 = 0 ∨ i%4 = 1 ∨ i%4 = 2 ∨ i%4 = 3 := by omega
  rcases quarter with q | q | q | q
  · have next : (i+1)%4 = 1 := by omega
    simp [turn,q,next,Registers.get,Registers.set,BitVec.add_comm,BitVec.add_assoc]
  · have next : (i+1)%4 = 2 := by omega
    simp [turn,q,next,Registers.get,Registers.set,BitVec.add_comm,BitVec.add_assoc]
  · have next : (i+1)%4 = 3 := by omega
    simp [turn,q,next,Registers.get,Registers.set,BitVec.add_comm,BitVec.add_assoc]
  · have next : (i+1)%4 = 0 := by omega
    simp [turn,q,next,Registers.get,Registers.set,BitVec.add_comm,BitVec.add_assoc]

theorem turned_run (input : List Word) (r : Registers) (count : Nat) :
    turned count (((List.range count).map row).foldl (md5step input) r) = (List.range count).foldl
    (Digest.operation input) r := by
  induction count with
  | zero => rfl
  | succ count ih =>
    rw [List.range_succ,List.map_append,List.foldl_append,List.foldl_append,List.map_singleton,
      List.foldl_cons,List.foldl_nil,
      turned_step,ih]
    rfl

theorem md5Transform_eq (buf : Registers) (block : List UInt8) :
    md5Transform buf (loads .little block) = Digest.compress buf block := by
  have run := turned_run (loads .little block) buf 64
  have full (r : Registers) : turned 64 r = r := rfl
  rw [←statements_rows,full] at run
  rw [md5Transform,run]
  rfl

theorem transformInput_buf (order : ByteOrder) {ctx : Context} (full : ctx.input.length = 64) :
    (transformInput order ctx).buf = Digest.compress ctx.buf ctx.input := by
  have whole : ctx.input.length = 4*16 := by omega
  simp only [transformInput]
  rw [loads_byteReverse order whole,md5Transform_eq]

theorem transformInput_input (order : ByteOrder) (ctx : Context) (full : ctx.input.length = 64) :
    (transformInput order ctx).input.length = 64 := by
  have whole : ctx.input.length = 4*16 := by omega
  simp only [transformInput]
  rw [length_byteReverse order whole]

@[simp] theorem transformInput_bits0 (order : ByteOrder) (ctx : Context) :
    (transformInput order ctx).bits0 = ctx.bits0 := by
  unfold transformInput
  generalize md5Transform ctx.buf (loads order (byteReverse order 16 ctx.input)) = buf
  rfl

@[simp] theorem transformInput_bits1 (order : ByteOrder) (ctx : Context) :
    (transformInput order ctx).bits1 = ctx.bits1 := by
  unfold transformInput
  generalize md5Transform ctx.buf (loads order (byteReverse order 16 ctx.input)) = buf
  rfl

theorem memcpy_end (ends : offset+block.length = dst.length) :
    memcpy dst offset block = some (dst.take offset++block) := by
  rw [memcpy_eq (by omega),ends,List.drop_length,List.append_nil]

def hash (buf : Registers) (message : List UInt8) : Registers × List UInt8 := absorb 64 Digest.compress (buf,[]) message

-- A context holds the state after the full blocks of a message, and the bytes behind them.
structure Holds (ctx : Context) (message : List UInt8) : Prop where
  full : ctx.input.length = 64
  bits0 : ctx.bits0 = .ofNat 32 (8*message.length)
  bits1 : ctx.bits1 = .ofNat 32 (8*message.length/2^32)
  state : hash Digest.initial message = (ctx.buf,ctx.input.take (message.length%64))

theorem chunks_eq (order : ByteOrder) (buf : List UInt8) {ctx : Context} (full : ctx.input.length = 64) :
    ∃ after, chunks order ctx buf = some after ∧ after.input.length = 64 ∧ after.bits0 = ctx.bits0 ∧
    after.bits1 = ctx.bits1 ∧
      hash ctx.buf buf = (after.buf,after.input.take (buf.length%64)) := by
  by_cases more : 64 ≤ buf.length
  · have head : (buf.take 64).length = 64 := by
      rw [List.length_take]
      omega
    have copied : memcpy ctx.input 0 (buf.take 64) = some (buf.take 64) := memcpy_end (by omega)
    obtain ⟨after,ran,full,low,high,state⟩ :=
      chunks_eq order (buf.drop 64) (transformInput_input order {ctx with input := buf.take 64} head)
    rw [transformInput_bits0] at low
    rw [transformInput_bits1] at high
    refine ⟨after,?_,full,low,high,?_⟩
    · rw [chunks,if_pos more,copied,Option.bind_some,ran]
    · rw [transformInput_buf order head,List.length_drop,←Nat.mod_eq_sub_mod more] at state
      have first : absorb 64 Digest.compress (ctx.buf,[]) (buf.take 64) = (Digest.compress ctx.buf (buf.take 64),[]) :=
        absorb_block (by decide) head
      calc hash ctx.buf buf = absorb 64 Digest.compress (ctx.buf,[]) (buf.take 64++buf.drop 64) := by rw [List.take_append_drop,hash]
        _ = hash (Digest.compress ctx.buf (buf.take 64)) (buf.drop 64) := by rw [absorb_append,first,hash]
        _ = _ := state
  · have copied : memcpy ctx.input 0 buf = some (buf++ctx.input.drop buf.length) := by
      rw [memcpy_eq (by omega),Nat.zero_add]
      rfl
    refine ⟨{ctx with input := buf++ctx.input.drop buf.length},?_,?_,rfl,rfl,?_⟩
    · rw [chunks,if_neg more,copied,Option.map_some]
    · rw [List.length_append,List.length_drop]
      omega
    · rw [hash,absorb_short (by rw [List.length_nil]; omega),Nat.mod_eq_of_lt (by omega),List.take_left,List.nil_append]
termination_by buf.length
decreasing_by
  rw [List.length_drop]
  omega

theorem addLength_bits (few : len < 2^32) (low : ctx.bits0 = .ofNat 32 (8*n))
    (high : ctx.bits1 = .ofNat 32 (8*n/2^32)) :
    (addLength ctx len).bits0 = .ofNat 32 (8*(n+len)) ∧ (addLength ctx len).bits1 = .ofNat 32 (8*(n+len)/2^32) := by
  have sum : ctx.bits0+BitVec.ofNat 32 len <<< 3 = .ofNat 32 (8*(n+len)) := by
    apply BitVec.eq_of_toNat_eq
    simp only [low,BitVec.toNat_add,BitVec.toNat_shiftLeft,BitVec.toNat_ofNat,Nat.shiftLeft_eq]
    omega
  refine ⟨?_,?_⟩
  · simp only [addLength]
    split_ifs <;> exact sum
  · simp only [addLength]
    apply BitVec.eq_of_toNat_eq
    split_ifs with carry
    all_goals
      rw [BitVec.lt_def,sum,low] at carry
      simp only [BitVec.toNat_ofNat] at carry
      simp only [high,BitVec.toNat_add,BitVec.toNat_ushiftRight,BitVec.toNat_ofNat,Nat.shiftRight_eq_div_pow,
        show (1 : Word).toNat = 1 by rfl]
      omega

theorem addLength_rest (ctx : Context) (len : Nat) : (addLength ctx len).input = ctx.input ∧
    (addLength ctx len).buf = ctx.buf := by
  simp only [addLength]
  split_ifs <;> exact ⟨rfl,rfl⟩

theorem inBlock_eq (low : ctx.bits0 = .ofNat 32 (8*n)) : inBlock ctx = n%64 := by
  rw [inBlock,low,BitVec.toNat_and,BitVec.toNat_ushiftRight,BitVec.toNat_ofNat]
  refine (Nat.and_two_pow_sub_one_eq_mod _ 6).trans ?_
  rw [Nat.shiftRight_eq_div_pow]
  omega

theorem hash_append (buf : Registers) (left right : List UInt8) :
    hash buf (left++right) = absorb 64 Digest.compress (hash buf left) right := absorb_append

theorem holds_init {ctx : Context} (full : ctx.input.length = 64) : Holds (md5Init ctx) [] := ⟨full,rfl,rfl,rfl⟩

theorem holds_chunks (order : ByteOrder) {ctx : Context} (full : ctx.input.length = 64)
    (low : ctx.bits0 = .ofNat 32 (8*message.length))
    (high : ctx.bits1 = .ofNat 32 (8*message.length/2^32)) (rest : List UInt8)
    (same : rest.length%64 = message.length%64)
    (state : hash Digest.initial message = hash ctx.buf rest) :
    ∃ after, chunks order ctx rest = some after ∧ Holds after message := by
  obtain ⟨after,ran,full,low',high',absorbed⟩ := chunks_eq order rest full
  refine ⟨after,ran,full,?_,?_,?_⟩
  · rw [low',low]
  · rw [high',high]
  · rw [state,absorbed,same]

theorem Holds.update (order : ByteOrder) (holds : Holds ctx message) (few : buf.length < 2^32) :
    ∃ after, md5Update order ctx buf = some after ∧ Holds after (message++buf) := by
  obtain ⟨low,high⟩ := addLength_bits few holds.bits0 holds.bits1
  rw [←List.length_append] at low high
  obtain ⟨input,blocks⟩ := addLength_rest ctx buf.length
  have full : (addLength ctx buf.length).input.length = 64 := by rw [input,holds.full]
  have pending : (ctx.input.take (message.length%64)).length = message.length%64 := by
    rw [List.length_take,holds.full]
    omega
  have state : hash Digest.initial (message++buf) =
      absorb 64 Digest.compress (ctx.buf,ctx.input.take (message.length%64)) buf := by rw [hash_append,holds.state]
  simp only [md5Update,inBlock_eq holds.bits0]
  by_cases part : message.length%64 ≠ 0
  · rw [if_pos part]
    by_cases short : buf.length < 64-message.length%64
    · rw [if_pos short,input,memcpy_eq (by rw [holds.full]; omega),Option.map_some]
      refine ⟨_,rfl,?_,?_,?_,?_⟩
      · simp only [List.length_append,List.length_drop,pending,holds.full]
        omega
      · exact low
      · exact high
      · have filled : (message++buf).length%64 = (ctx.input.take (message.length%64)++buf).length := by
          rw [List.length_append,List.length_append,pending]
          omega
        rw [state,absorb_short (by rw [pending]; omega),blocks,filled,List.take_left]
    · have head : (buf.take (64-message.length%64)).length = 64-message.length%64 := by
        rw [List.length_take]
        omega
      have fills : (ctx.input.take (message.length%64)++buf.take (64-message.length%64)).length = 64 := by
        rw [List.length_append,pending,head]
        omega
      rw [if_neg short,input,memcpy_end (by rw [holds.full,head]; omega),Option.bind_some]
      refine holds_chunks order (transformInput_input order _ fills) ?_ ?_ _ ?_ ?_
      · rw [transformInput_bits0]
        exact low
      · rw [transformInput_bits1]
        exact high
      · rw [List.length_drop,List.length_append]
        omega
      · have absorbed : absorb 64 Digest.compress (ctx.buf,ctx.input.take (message.length%64))
          (buf.take (64-message.length%64)) =
            (Digest.compress ctx.buf (ctx.input.take (message.length%64)++buf.take (64-message.length%64)),[]) := by
          refine absorb_fills ?_ (by rw [pending,head]; omega)
          intro none
          rw [none,List.length_nil] at head
          omega
        rw [transformInput_buf order fills,blocks,state]
        calc _ = absorb 64 Digest.compress (ctx.buf,ctx.input.take (message.length%64))
              (buf.take (64-message.length%64)++buf.drop (64-message.length%64)) := by rw [List.take_append_drop]
          _ = _ := by rw [absorb_append,absorbed,hash]
  · have whole : message.length%64 = 0 := by omega
    rw [if_neg part]
    refine holds_chunks order full low high buf ?_ ?_
    · rw [List.length_append]
      omega
    · rw [state,whole,List.take_zero,blocks,hash]

theorem updates_hold (order : ByteOrder) {pieces : List (List UInt8)} (few : ∀ buf ∈ pieces,buf.length < 2^32)
    (holds : Holds ctx message) :
    ∃ after, pieces.foldlM (md5Update order) ctx = some after ∧ Holds after (message++pieces.flatten) := by
  induction pieces generalizing ctx message with
  | nil =>
    rw [List.flatten_nil,List.append_nil]
    exact ⟨ctx,rfl,holds⟩
  | cons buf rest ih =>
    obtain ⟨middle,one,kept⟩ := holds.update order (few buf List.mem_cons_self)
    obtain ⟨after,ran,last⟩ := ih (fun buf listed => few buf (List.mem_cons_of_mem _ listed)) kept
    refine ⟨after,?_,?_⟩
    · rw [List.foldlM_cons,one]
      exact ran
    · rw [List.flatten_cons,←List.append_assoc]
      exact last

theorem padBlock_eq (order : ByteOrder) (ctx : Context) (pending : List UInt8)
    (less : pending.length < 64) (rest : List UInt8)
    (full : ctx.input = pending++0x80::rest) (width : ctx.input.length = 64) :
    ∃ after, padBlock order ctx (pending.length+1) = some after ∧ after.input.length = 64 ∧ after.bits0 = ctx.bits0 ∧
      after.bits1 = ctx.bits1 ∧
      absorb 64 Digest.compress (ctx.buf,pending) (0x80::List.replicate ((119-pending.length)%64) 0) =
        (after.buf,after.input.take 56) := by
  have used : ctx.input.take (pending.length+1) = pending++[0x80] := by
    rw [full,List.append_cons]
    refine List.take_left' ?_
    rw [List.length_append,List.length_singleton]
  unfold padBlock
  by_cases two : 64-(pending.length+1) < 8
  · have filled : (pending++0x80::List.replicate (63-pending.length) 0).length = 64 := by
      rw [List.length_append,List.length_cons,List.length_replicate]
      omega
    have zeros : (119-pending.length)%64 = 63-pending.length+56 := by omega
    have first : memcpy ctx.input (pending.length+1) (List.replicate (64-(pending.length+1)) 0) =
        some (pending++0x80::List.replicate (63-pending.length) 0) := by
      rw [memcpy_end (by rw [List.length_replicate]; omega),used,
        show 64-(pending.length+1) = 63-pending.length by omega,
        List.append_assoc,List.singleton_append]
    have absorbed : absorb 64 Digest.compress (ctx.buf,pending) (0x80::List.replicate (63-pending.length) 0) =
        (Digest.compress ctx.buf (pending++0x80::List.replicate (63-pending.length) 0),[]) := by
      rw [List.length_append] at filled
      exact absorb_fills (List.cons_ne_nil _ _) filled
    obtain ⟨block,same⟩ : ∃ block,
      block = {ctx with input := pending++0x80::List.replicate (63-pending.length) 0} := ⟨_,rfl⟩
    have width' : block.input.length = 64 := by rw [same,filled]
    obtain ⟨next,transformed⟩ : ∃ next,transformInput order block = next := ⟨_,rfl⟩
    have reversed := transformInput_input order _ width'
    have compressed := transformInput_buf order width'
    have low := transformInput_bits0 order block
    have high := transformInput_bits1 order block
    rw [transformed] at reversed compressed low high
    rw [if_pos two,first,Option.map_some,Option.bind_some,←same,transformed,
      memcpy_eq (by rw [List.length_replicate]; omega),
      Option.map_some]
    refine ⟨_,rfl,?_,?_,?_,?_⟩
    · simp only [List.length_append,List.length_replicate,List.length_drop,List.take_zero,List.length_nil]
      omega
    · rw [low,same]
    · rw [high,same]
    · rw [zeros,←List.replicate_append_replicate,←List.cons_append,absorb_append,absorbed,
        absorb_short (by rw [List.length_nil,List.length_replicate]; decide),compressed,same,
          List.take_zero,List.nil_append,
        List.take_left' (List.length_replicate)]
  · have zeros : (119-pending.length)%64 = 55-pending.length := by omega
    rw [if_neg two,memcpy_eq (by rw [List.length_replicate]; omega),Option.map_some]
    refine ⟨_,rfl,?_,rfl,rfl,?_⟩
    · simp only [List.length_append,List.length_replicate,List.length_drop,List.length_take]
      omega
    · have padded : (pending++0x80::List.replicate (55-pending.length) 0).length = 56 := by
        rw [List.length_append,List.length_cons,List.length_replicate]
        omega
      have short : pending.length+(0x80::List.replicate (55-pending.length) (0 : UInt8)).length < 64 := by
        rw [List.length_cons,List.length_replicate]
        omega
      rw [zeros,used,absorb_short short,
        show 64-(pending.length+1)-8 = 55-pending.length by omega,List.append_assoc pending,List.singleton_append,
        List.take_left' padded]

theorem lastBlock_eq (order : ByteOrder) {ctx : Context} (full : ctx.input.length = 64) :
    lastBlock order ctx =
    some (Digest.compress ctx.buf (ctx.input.take 56++(bytesOf ctx.bits0++bytesOf ctx.bits1))) := by
  have front : (ctx.input.take 56).length = 4*14 := by
    rw [List.length_take]
    omega
  obtain ⟨words,count,same⟩ := whole_words front
  have stored : (words.flatMap (store order)).length = 56 := by rw [length_stored,count]
  have long (w : Word) : (store order w).length = 4 := by cases order <;> rfl
  have reversed : byteReverse order 14 ctx.input = words.flatMap (store order)++ctx.input.drop 56 := by
    rw [←count,←byteReverse_words,←same,List.take_append_drop]
  have low : memcpy (words.flatMap (store order)++ctx.input.drop 56) 56 (store order ctx.bits0) =
      some (words.flatMap (store order)++store order ctx.bits0++(ctx.input.drop 56).drop 4) := by
    have copied : memcpy (words.flatMap (store order)++ctx.input.drop 56) _ (store order ctx.bits0) = some _ :=
      memcpy_append (by rw [long,List.length_drop]; omega)
    rw [stored,long] at copied
    exact copied
  have high : memcpy (words.flatMap (store order)++store order ctx.bits0++(ctx.input.drop 56).drop 4) 60
    (store order ctx.bits1) =
      some (words.flatMap (store order)++store order ctx.bits0++store order ctx.bits1) := by
    have ends : 60+(store order ctx.bits1).length =
        (words.flatMap (store order)++store order ctx.bits0++(ctx.input.drop 56).drop 4).length := by
      simp only [List.length_append,List.length_drop,stored,long]
      omega
    rw [memcpy_end ends,List.take_left' (by rw [List.length_append,stored,long])]
  have all (f : Word → List UInt8) :
    words.flatMap f++f ctx.bits0++f ctx.bits1 = (words++[ctx.bits0,ctx.bits1]).flatMap f := by
    rw [List.flatMap_append,List.flatMap_cons,List.flatMap_singleton,List.append_assoc]
  unfold lastBlock
  rw [reversed,low,Option.bind_some,high,Option.map_some,all,loads_stored,←md5Transform_eq,same,←List.append_assoc,all,
    show (words++[ctx.bits0,ctx.bits1]).flatMap bytesOf = (words++[ctx.bits0,ctx.bits1]).flatMap
      (store .little) by rfl,loads_stored]

theorem length_padded (message : List UInt8) : (Digest.padded message).length%64 = 0 := by
  simp only [Digest.padded,Digest.padding,Digest.lengthBytes,List.length_append,List.length_cons,List.length_replicate,
    length_bytesOf]
  omega

theorem Holds.final (order : ByteOrder) (holds : Holds ctx message) :
    md5Final order ctx = some (Digest.md5 message) := by
  have pending : (ctx.input.take (message.length%64)).length = message.length%64 := by
    rw [List.length_take,holds.full]
    omega
  have marked : memcpy ctx.input (inBlock ctx) [0x80] =
      some (ctx.input.take (message.length%64)++0x80::ctx.input.drop (message.length%64+1)) := by
    rw [inBlock_eq holds.bits0,memcpy_eq (by rw [holds.full,List.length_singleton]; omega),List.append_assoc,
      List.singleton_append]
    rfl
  obtain ⟨padded,ran,full,low,high,absorbed⟩ := padBlock_eq order
    {ctx with input := ctx.input.take (message.length%64)++0x80::ctx.input.drop (message.length%64+1)}
    (ctx.input.take (message.length%64)) (by omega) _ rfl
    (by rw [List.length_append,List.length_cons,List.length_drop,pending,holds.full]; omega)
  rw [pending] at ran absorbed
  have whole : (Digest.padded message).length = (Digest.padded message).length/64*64 := by
    have even := length_padded message
    omega
  have lengths : bytesOf padded.bits0++bytesOf padded.bits1 = Digest.lengthBytes message.length := by
    rw [low,high,holds.bits0,holds.bits1]
    rfl
  have digest : hash Digest.initial (Digest.padded message) =
      (Digest.compress padded.buf (padded.input.take 56++Digest.lengthBytes message.length),[]) := by
    have last : (padded.input.take 56).length+(Digest.lengthBytes message.length).length = 64 := by
      rw [←lengths,List.length_take,full]
      rfl
    rw [Digest.padded,hash_append,holds.state,Digest.padding,absorb_append,absorbed]
    exact absorb_fills (List.cons_ne_nil _ _) last
  rw [hash,absorb_blocks (by decide) whole] at digest
  unfold md5Final
  rw [marked,Option.bind_some,inBlock_eq holds.bits0,ran,Option.bind_some,lastBlock_eq order full,
    Option.map_some,lengths,
    ←(Prod.mk.inj digest).1]
  exact congrArg some (byteReverse_stored order (Registers.words _))

-- MD5Init, any number of MD5Updates and MD5Final give the digest of the bytes in order, however
-- they were cut into updates, on a machine of either byte order.
theorem updates_digest (order : ByteOrder) (ctx : Context) (full : ctx.input.length = 64) {pieces : List (List UInt8)}
    (few : ∀ buf ∈ pieces,buf.length < 2^32) :
    (pieces.foldlM (md5Update order) (md5Init ctx)).bind (md5Final order) = some (Digest.md5 pieces.flatten) := by
  obtain ⟨after,ran,holds⟩ := updates_hold order few (holds_init full)
  rw [ran,Option.bind_some,holds.final,List.nil_append]

-- A message in two updates: the digest of "abc".
theorem updates_digest_abc :
    ([ascii "a",ascii "bc"].foldlM (md5Update .big) (md5Init ⟨⟨0,0,0,0⟩,0,0,List.replicate 64 7⟩)).bind
    (md5Final .big) =
      some [0x90,0x01,0x50,0x98,0x3c,0xd2,0x4f,0xb0,0xd6,0x96,0x3f,0x7d,0x28,0xe1,0x7f,0x72] :=
  (updates_digest .big _ rfl (by decide)).trans (by decide +kernel)

theorem length_words (r : Registers) : (r.words.flatMap bytesOf).length = 16 := rfl

-- The digest of auth_htpasswd, and its get_hash on a context of zeros.
def digest (message : List UInt8) : Htpasswd.Digest := ⟨Digest.md5 message,length_words _⟩

def getHash (order : ByteOrder) (data : Bytes.Text) : Option Bytes.Text :=
  ((md5Update order (md5Init ⟨⟨0,0,0,0⟩,0,0,List.replicate 64 0⟩) data).bind (md5Final order)).map Htpasswd.binToHex

theorem getHash_eq (order : ByteOrder) (few : data.length < 2^32) :
    getHash order data = some (Htpasswd.getHash digest data) := by
  have start : Holds (md5Init ⟨⟨0,0,0,0⟩,0,0,List.replicate 64 0⟩) [] := holds_init List.length_replicate
  obtain ⟨after,ran,holds⟩ := start.update order few
  rw [getHash,ran,Option.bind_some,holds.final,Option.map_some]
  rfl

end Icecast.Md5
