import Icecast.Lib.Bytes

namespace Icecast.Base64
open Bytes

-- base64table
def base64table : List UInt8 := ascii "ABCDEFGHIJKLMNOPQRSTUVWXYZabcdefghijklmnopqrstuvwxyz0123456789+/"

def pad : UInt8 := 61

-- base64decode: -1 is the padding, -2 any other character.
def base64decode (c : UInt8) : Int :=
  if c = pad then -1 else
  match base64table.idxOf? c with
  | some n => n
  | none => -2

def digit (n : Nat) : UInt8 := base64table.getD n 0

-- util_base64_encode; the masks and shifts as remainders and quotients.
def utilBase64Encode : List UInt8 → List UInt8
  | [] => []
  | [a] => [digit (a.toNat/4),digit (a.toNat%4*16),pad,pad]
  | [a,b] => [digit (a.toNat/4),digit (a.toNat%4*16+b.toNat/16),digit (b.toNat%16*4),pad]
  | a::b::c::data =>
    digit (a.toNat/4)::digit (a.toNat%4*16+b.toNat/16)::digit (b.toNat%16*4+c.toNat/64)::digit
      (c.toNat%64)::utilBase64Encode data

def toChar (n : Int) : UInt8 := UInt8.ofNat n.toNat

-- The three characters of a group; a padding gives a NUL.
def group (v0 v1 v2 v3 : Int) : List UInt8 :=
  [toChar (v0*4+v1/16),if v2 ≥ 0 then toChar (v1%16*16+v2/4) else 0,if v3 ≥ 0 then toChar (v2%4*64+v3) else 0]

-- util_base64_decode: a group with a character that is no digit is passed over, an
-- incomplete one at the end is an error.
def utilBase64Decode : List UInt8 → Option (List UInt8)
  | [] => some []
  | a::b::c::d::data =>
    if base64decode a < 0 ∨ base64decode b < 0 ∨ base64decode c < -1 ∨ base64decode d < -1 then utilBase64Decode data
    else (utilBase64Decode data).map (group (base64decode a) (base64decode b) (base64decode c) (base64decode d)++·)
  | _ => none

theorem decode_digit : ∀ n < 64, base64decode (digit n) = n := by decide +kernel

theorem decode_pad : base64decode pad = -1 := rfl

theorem toChar_eq {n : Int} (a : UInt8) (same : n = a.toNat) : toChar n = a := by
  subst same
  simp [toChar]

theorem group_three (a b c : UInt8) :
    group (a.toNat/4 : Nat) (a.toNat%4*16+b.toNat/16 : Nat) (b.toNat%16*4+c.toNat/64 : Nat)
    (c.toNat%64 : Nat) = [a,b,c] := by
  have ha := a.toNat_lt
  have hb := b.toNat_lt
  have hc := c.toNat_lt
  unfold group
  rw [if_pos (by omega),if_pos (by omega),toChar_eq a (by omega),toChar_eq b (by omega),toChar_eq c (by omega)]

theorem group_two (a b : UInt8) :
    group (a.toNat/4 : Nat) (a.toNat%4*16+b.toNat/16 : Nat) (b.toNat%16*4 : Nat) (-1) = [a,b,0] := by
  have ha := a.toNat_lt
  have hb := b.toNat_lt
  unfold group
  rw [if_pos (by omega),if_neg (by omega),toChar_eq a (by omega),toChar_eq b (by omega)]

theorem group_one (a : UInt8) : group (a.toNat/4 : Nat) (a.toNat%4*16 : Nat) (-1) (-1) = [a,0,0] := by
  have ha := a.toNat_lt
  unfold group
  rw [if_neg (by omega),if_neg (by omega),toChar_eq a (by omega)]

theorem decode_encode (data : List UInt8) : ∃ nuls, (∀ c ∈ nuls, c = 0) ∧
    utilBase64Decode (utilBase64Encode data) = some (data++nuls) := by
  induction data using utilBase64Encode.induct with
  | case1 => exact ⟨[],by simp,rfl⟩
  | case2 a =>
    have ha := a.toNat_lt
    refine ⟨[0,0],by simp,?_⟩
    rw [utilBase64Encode,utilBase64Decode,decode_digit _ (by omega),decode_digit _ (by omega),decode_pad,
      if_neg (by omega),group_one]
    rfl
  | case3 a b =>
    have ha := a.toNat_lt
    have hb := b.toNat_lt
    refine ⟨[0],by simp,?_⟩
    rw [utilBase64Encode,utilBase64Decode,decode_digit _ (by omega),decode_digit _ (by omega),
      decode_digit _ (by omega),decode_pad,
      if_neg (by omega),group_two]
    rfl
  | case4 a b c data ih =>
    have ha := a.toNat_lt
    have hb := b.toNat_lt
    have hc := c.toNat_lt
    obtain ⟨nuls,zero,read⟩ := ih
    refine ⟨nuls,zero,?_⟩
    rw [utilBase64Encode,utilBase64Decode,decode_digit _ (by omega),decode_digit _ (by omega),decode_digit _ (by omega),
      decode_digit _ (by omega),if_neg (by omega),group_three,read]
    rfl

theorem decode_encode_cstr (plain : (0 : UInt8) ∉ data) :
    (utilBase64Decode (utilBase64Encode data)).map cstr = some data := by
  obtain ⟨nuls,zero,read⟩ := decode_encode data
  rw [read,Option.map_some,cstr_nuls zero,cstr_whole plain]

-- The place of a character in the alphabet, 64 for any other.
def value (c : UInt8) : Nat := base64table.idxOf c

-- Four digits without a zero byte in the bits they stand for.
def fullGroup (a b c d : UInt8) : Bool :=
  value a < 64 && value b < 64 && value c < 64 && value d < 64 &&
    value a*4+value b/16 ≠ 0 && value b%16*16+value c/4 ≠ 0 && value c%4*64+value d ≠ 0

-- Two or three digits and padding, with the spare bits zero.
def lastGroup (a b c d : UInt8) : Bool :=
  d = pad && value a < 64 && value b < 64 && value a*4+value b/16 ≠ 0 &&
    (c = pad && value b%16 = 0 || value c < 64 && value c%4 = 0 && value b%16*16+value c/4 ≠ 0)

-- Groups of digits, of which only the last may be padded.
def canonical : List UInt8 → Bool
  | [] => true
  | a::b::c::d::data => fullGroup a b c d && canonical data || data = [] && lastGroup a b c d
  | _ => false

theorem digit_value (inside : value c < 64) : digit (value c) = c := by
  have less : base64table.idxOf c < base64table.length := inside
  rw [digit,value,List.getD_eq_getElem?_getD,List.getElem?_eq_getElem less,Option.getD_some,List.getElem_idxOf]

theorem toNat_byte {n : Nat} (small : n < 256) : (UInt8.ofNat n).toNat = n := by
  rw [UInt8.toNat_ofNat',Nat.mod_eq_of_lt small]

theorem byte_ne_zero {n : Nat} (small : n < 256) (some_bit : n ≠ 0) : UInt8.ofNat n ≠ 0 := fun zero => by
  have same := toNat_byte small
  rw [zero] at same
  exact some_bit same.symm

-- Canonical text is what util_base64_encode writes for a string.
theorem canonical_encoded (text : List UInt8) (clean : canonical text = true) :
    ∃ bytes, (0 : UInt8) ∉ bytes ∧ text = utilBase64Encode bytes := by
  induction text using canonical.induct with
  | case1 => exact ⟨[],List.not_mem_nil,rfl⟩
  | case2 a b c d data ih =>
    rw [canonical,Bool.or_eq_true] at clean
    rcases clean with full | last
    · rw [Bool.and_eq_true] at full
      obtain ⟨bytes,plain,rfl⟩ := ih full.2
      have digits := full.1
      simp only [fullGroup,Bool.and_eq_true,decide_eq_true_eq] at digits
      obtain ⟨⟨⟨⟨⟨⟨ha,hb⟩,hc⟩,hd⟩,one⟩,two⟩,three⟩ := digits
      refine ⟨UInt8.ofNat (value a*4+value b/16)::UInt8.ofNat (value b%16*16+value c/4)::UInt8.ofNat
        (value c%4*64+value d)::bytes,?_,?_⟩
      · simp only [List.mem_cons,not_or]
        exact ⟨(byte_ne_zero (by omega) one).symm,(byte_ne_zero (by omega) two).symm,
          (byte_ne_zero (by omega) three).symm,plain⟩
      · have same : ∀ n c, value c < 64 → n = value c → digit n = c := fun n c inside eq => eq ▸ digit_value inside
        rw [utilBase64Encode,toNat_byte (by omega),toNat_byte (by omega),toNat_byte (by omega),
          same _ a ha (by omega),same _ b hb (by omega),
          same _ c hc (by omega),same _ d hd (by omega)]
    · simp only [lastGroup,Bool.and_eq_true,Bool.or_eq_true,decide_eq_true_eq] at last
      obtain ⟨rfl,⟨⟨⟨rfl,ha⟩,hb⟩,one⟩,ends⟩ := last
      have same : ∀ n c, value c < 64 → n = value c → digit n = c := fun n c inside eq => eq ▸ digit_value inside
      rcases ends with ⟨rfl,spare⟩ | ⟨⟨hc,spare⟩,two⟩
      · refine ⟨[UInt8.ofNat (value a*4+value b/16)],?_,?_⟩
        · exact fun zero => byte_ne_zero (by omega) one (List.mem_singleton.mp zero).symm
        · rw [utilBase64Encode,toNat_byte (by omega),same _ a ha (by omega),same _ b hb (by omega)]
      · refine ⟨[UInt8.ofNat (value a*4+value b/16),UInt8.ofNat (value b%16*16+value c/4)],?_,?_⟩
        · simp only [List.mem_cons,List.not_mem_nil,or_false,not_or]
          exact ⟨(byte_ne_zero (by omega) one).symm,(byte_ne_zero (by omega) two).symm⟩
        · rw [utilBase64Encode,toNat_byte (by omega),toNat_byte (by omega),same _ a ha (by omega),
            same _ b hb (by omega),
            same _ c hc (by omega)]
  | case3 text => simp [canonical] at clean

theorem value_digit : ∀ n < 64, value (digit n) = n := by decide +kernel

theorem toNat_some {a : UInt8} (plain : (0 : UInt8) ≠ a) : a.toNat ≠ 0 :=
  fun zero => plain (UInt8.toNat_inj.mp zero.symm)

theorem encode_canonical (bytes : List UInt8) (plain : (0 : UInt8) ∉ bytes) :
    canonical (utilBase64Encode bytes) = true := by
  induction bytes using utilBase64Encode.induct with
  | case1 => rfl
  | case2 a =>
    have ha := a.toNat_lt
    have one := toNat_some (List.ne_of_not_mem_cons plain)
    simp only [utilBase64Encode,canonical,lastGroup,value_digit _ (show a.toNat/4 < 64 by omega),
      value_digit _ (show a.toNat%4*16 < 64 by omega)]
    simp
    omega
  | case3 a b =>
    have ha := a.toNat_lt
    have hb := b.toNat_lt
    have one := toNat_some (List.ne_of_not_mem_cons plain)
    have two := toNat_some (List.ne_of_not_mem_cons (List.not_mem_of_not_mem_cons plain))
    simp only [utilBase64Encode,canonical,lastGroup,value_digit _ (show a.toNat/4 < 64 by omega),
      value_digit _ (show a.toNat%4*16+b.toNat/16 < 64 by omega),value_digit _ (show b.toNat%16*4 < 64 by omega)]
    simp
    omega
  | case4 a b c data ih =>
    have ha := a.toNat_lt
    have hb := b.toNat_lt
    have hc := c.toNat_lt
    have rest := List.not_mem_of_not_mem_cons plain
    have last := List.not_mem_of_not_mem_cons rest
    have one := toNat_some (List.ne_of_not_mem_cons plain)
    have two := toNat_some (List.ne_of_not_mem_cons rest)
    have three := toNat_some (List.ne_of_not_mem_cons last)
    simp only [utilBase64Encode,canonical,fullGroup,ih (List.not_mem_of_not_mem_cons last),
      value_digit _ (show a.toNat/4 < 64 by omega),
      value_digit _ (show a.toNat%4*16+b.toNat/16 < 64 by omega),
        value_digit _ (show b.toNat%16*4+c.toNat/64 < 64 by omega),
      value_digit _ (show c.toNat%64 < 64 by omega)]
    simp
    omega

-- Credentials, and the same ones behind a group that is none.
example : canonical (ascii "c291cmNlOmhhY2ttZQ==") = true ∧
    canonical (ascii "!!!!c291cmNlOmhhY2ttZQ==") = false := by decide +kernel

theorem decode_uneven (text : List UInt8) (uneven : text.length%4 ≠ 0) : utilBase64Decode text = none := by
  induction text using utilBase64Decode.induct with
  | case1 => exact absurd rfl uneven
  | case2 a b c d data skipped ih =>
    rw [utilBase64Decode,if_pos skipped,ih (by simp only [List.length_cons] at uneven; omega)]
  | case3 a b c d data kept ih =>
    rw [utilBase64Decode,if_neg kept,ih (by simp only [List.length_cons] at uneven; omega),Option.map_none]
  | case4 text => simp [utilBase64Decode]

end Icecast.Base64
