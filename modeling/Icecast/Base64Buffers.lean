import Icecast.Base64
import Icecast.Lib.Machine

namespace Icecast.Base64
open Bytes Machine

-- The four characters for the next `chunk` ones; behind the string is its NUL.
def codes (chunk : Nat) (data : List UInt8) : List UInt8 :=
  let a := (data.getD 0 0).toNat
  let b := (data.getD 1 0).toNat
  let c := (data.getD 2 0).toNat
  [digit (a/4),digit (a%4*16+b/16)]++match chunk with
    | 3 => [digit (b%16*4+c/64),digit (c%64)]
    | 2 => [digit (b%16*4),pad]
    | _ => [pad,pad]

-- The loop of util_base64_encode with `len` characters to go, three or the rest of them a turn.
def encodeLoop (room : Nat) : Nat → List UInt8 → List UInt8 → Option (List UInt8)
  | 0,_,out => some out
  | 1,data,out => emit room out (codes 1 data)
  | 2,data,out => emit room out (codes 2 data)
  | len+3,data,out => (emit room out (codes 3 data)).bind (encodeLoop room len (data.drop 3))

-- util_base64_encode with its block; none is a write outside, or a size that is no size.
def base64Encode (data : List UInt8) : Option (List UInt8) :=
  let len := toInt32 data.length
  (checked (len*4)).bind fun product => (allocate (product.tdiv 3+4)).bind fun room =>
    (encodeLoop room len.toNat data []).bind fun out => (emit room out [0]).map fun _ => out

-- The loop of util_base64_decode on the characters up to `len`; the inner none is NULL.
def decodeLoop (room : Nat) : List UInt8 → List UInt8 → Option (Option (List UInt8))
  | [],out => some (some out)
  | a::b::c::d::input,out =>
    let v0 := base64decode a
    let v1 := base64decode b
    let v2 := base64decode c
    let v3 := base64decode d
    if v0 < 0 ∨ v1 < 0 ∨ v2 < -1 ∨ v3 < -1 then decodeLoop room input out
    else (emit room out (group v0 v1 v2 v3)).bind (decodeLoop room input)
  | _,_ => some none

def base64Decode (data : List UInt8) : Option (Option (List UInt8)) :=
  let len := toInt32 data.length
  (checked (len*3)).bind fun product => (allocate (product.tdiv 4+5)).bind fun room =>
    (decodeLoop room (data.take len.toNat) []).bind fun
      | none => some none
      | some out => (emit room out [0]).map fun _ => some out

-- Decoding the encoded string gives it back, and no write is outside on the way.
def RoundTrip (s : List UInt8) : Prop :=
  ∃ text out, base64Encode s = some text ∧ base64Decode text = some (some out) ∧ cstr out = s

-- The lengths for which the sizes that are computed are large enough, as the ints they become.
def EncodeFits (n : Nat) : Prop := -2 ≤ toInt32 n ∧ toInt32 n < 2^29
def DecodeFits (n : Nat) : Prop := -6 ≤ toInt32 n ∧ toInt32 n*3 < 2^31

-- What the encoding loop writes.
def encoded : Nat → List UInt8 → List UInt8
  | 0,_ => []
  | 1,data => codes 1 data
  | 2,data => codes 2 data
  | len+3,data => codes 3 data++encoded len (data.drop 3)

theorem length_codes (chunk : Nat) (data : List UInt8) : (codes chunk data).length = 4 := by
  unfold codes
  dsimp only
  split <;> rfl

theorem length_encoded (len : Nat) (data : List UInt8) : (encoded len data).length = 4*((len+2)/3) := by
  induction len,data using encoded.induct with
  | case1 => rfl
  | case2 data => exact length_codes 1 data
  | case3 data => exact length_codes 2 data
  | case4 len data ih =>
    rw [encoded,List.length_append,length_codes,ih]
    omega

theorem encodeLoop_eq (room len : Nat) (data out : List UInt8) (inside : out.length ≤ room) :
    encodeLoop room len data out = emit room out (encoded len data) := by
  induction len,data using encoded.induct generalizing out with
  | case1 => rw [encodeLoop,encoded,emit_eq inside,List.append_nil]
  | case2 => rfl
  | case3 => rfl
  | case4 len data ih =>
    rw [encodeLoop,encoded,←emit_append]
    unfold emit
    split
    · rename_i fits
      rw [Option.bind_some,Option.bind_some]
      apply ih
      rw [List.length_append]
      exact fits
    · rfl

theorem encoded_all (data : List UInt8) : encoded data.length data = utilBase64Encode data := by
  induction data using utilBase64Encode.induct with
  | case1 => rfl
  | case2 a =>
    simp only [List.length_singleton,encoded,codes,utilBase64Encode,List.getD_cons_zero,
      List.getD_cons_succ,List.getD_nil]
    rfl
  | case3 a b => rfl
  | case4 a b c data ih =>
    simp only [List.length_cons,encoded,List.drop_succ_cons,List.drop_zero,ih]
    rfl

theorem length_decoded {input : List UInt8} (read : utilBase64Decode input = some out) :
    out.length ≤ 3*(input.length/4) := by
  induction input using utilBase64Decode.induct generalizing out with
  | case1 =>
    cases Option.some.inj read
    exact Nat.zero_le _
  | case2 a b c d data bad ih =>
    rw [utilBase64Decode,if_pos bad] at read
    have shorter := ih read
    simp only [List.length_cons]
    omega
  | case3 a b c d data good ih =>
    rw [utilBase64Decode,if_neg good] at read
    obtain ⟨rest,later,same⟩ := Option.map_eq_some_iff.mp read
    have shorter := ih later
    rw [←same,List.length_append]
    simp only [group,List.length_cons,List.length_nil]
    omega
  | case4 input some_left short =>
    rcases input with _ | ⟨a,_ | ⟨b,_ | ⟨c,_ | ⟨d,data⟩⟩⟩⟩
    · exact absurd rfl some_left
    · cases read
    · cases read
    · cases read
    · exact absurd rfl (short a b c d data)

theorem decodeLoop_eq (room : Nat) (input out : List UInt8) (inside : out.length+3*(input.length/4) ≤ room) :
    decodeLoop room input out = some ((utilBase64Decode input).map (out++·)) := by
  induction input using utilBase64Decode.induct generalizing out with
  | case1 => rw [decodeLoop,utilBase64Decode,Option.map_some,List.append_nil]
  | case2 a b c d data bad ih =>
    simp only [List.length_cons] at inside
    rw [decodeLoop,utilBase64Decode]
    simp only [if_pos bad]
    exact ih out (by omega)
  | case3 a b c d data good ih =>
    simp only [List.length_cons] at inside
    have three : (group (base64decode a) (base64decode b) (base64decode c) (base64decode d)).length = 3 := rfl
    rw [decodeLoop,utilBase64Decode]
    simp only [if_neg good]
    rw [emit_eq (by omega),Option.bind_some,ih _ (by rw [List.length_append]; omega),Option.map_map]
    apply congrArg some
    apply congrArg (Option.map · _)
    funext rest
    exact List.append_assoc ..
  | case4 input some_left short =>
    rcases input with _ | ⟨a,_ | ⟨b,_ | ⟨c,_ | ⟨d,data⟩⟩⟩⟩
    · exact absurd rfl some_left
    · rfl
    · rfl
    · rfl
    · exact absurd rfl (short a b c d data)

theorem encode_room (room len : Nat) (data : List UInt8) :
    ((encodeLoop room len data []).bind fun out => (emit room out [0]).map fun _ => out) =
      if 4*((len+2)/3)+1 ≤ room then some (encoded len data) else none := by
  rw [encodeLoop_eq _ _ _ _ (Nat.zero_le _)]
  have width := length_encoded len data
  split
  · rename_i fits
    rw [emit_eq (by rw [List.length_nil]; omega),Option.bind_some,List.nil_append,
      emit_eq (by rw [List.length_singleton]; omega),Option.map_some]
  · rename_i outside
    unfold emit
    split
    · rw [Option.bind_some,List.nil_append,List.length_singleton,if_neg (by omega),Option.map_none]
    · rfl

theorem encode_size {len : Int} (low : -2^31 ≤ len) :
    (-2^31 ≤ len*4 ∧ len*4 < 2^31) ∧ 0 ≤ (len*4).tdiv 3+4 ∧ 4*((len.toNat+2)/3)+1 ≤ ((len*4).tdiv 3+4).toNat ↔
    -2 ≤ len ∧ len < 2^29 := by
  by_cases sign : 0 ≤ len
  · rw [Int.tdiv_eq_ediv_of_nonneg (by omega)]
    omega
  · rw [tdiv_negative (by omega)]
    omega

theorem encode_eq (data : List UInt8) : base64Encode data =
    if -2 ≤ toInt32 data.length ∧ toInt32 data.length < 2^29 then some
    (encoded (toInt32 data.length).toNat data) else none := by
  have size := encode_size (toInt32_range data.length).1
  unfold base64Encode
  dsimp only
  by_cases product : -2^31 ≤ toInt32 data.length*4 ∧ toInt32 data.length*4 < 2^31
  · rw [checked_bind product]
    by_cases positive : 0 ≤ (toInt32 data.length*4).tdiv 3+4
    · rw [allocate_bind positive,encode_room]
      exact if_congr ⟨fun room => size.mp ⟨product,positive,room⟩,fun fits => (size.mpr fits).2.2⟩ rfl rfl
    · rw [allocate,if_neg positive,Option.bind_none,if_neg fun fits => positive (size.mpr fits).2.1]
  · rw [checked,if_neg product,Option.bind_none,if_neg fun fits => product (size.mpr fits).1]

theorem decode_room {input : List UInt8} (fits : 3*(input.length/4)+1 ≤ room) :
    ((decodeLoop room input []).bind fun
      | none => some none
      | some out => (emit room out [0]).map fun _ => some out) = some (utilBase64Decode input) := by
  have inside : ([] : List UInt8).length+3*(input.length/4) ≤ room := by
    rw [List.length_nil]
    omega
  rw [decodeLoop_eq room input [] inside,Option.bind_some]
  cases read : utilBase64Decode input with
  | none => rfl
  | some out =>
    have short := length_decoded read
    have nul : out.length+[(0 : UInt8)].length ≤ room := by
      rw [List.length_singleton]
      omega
    simp only [Option.map_some,List.nil_append,emit_eq nul]

theorem decode_size {len : Int} (low : -2^31 ≤ len) :
    (-2^31 ≤ len*3 ∧ len*3 < 2^31) ∧ 0 ≤ (len*3).tdiv 4+5 ∧ 3*(len.toNat/4)+1 ≤ ((len*3).tdiv 4+5).toNat ↔
    -6 ≤ len ∧ len*3 < 2^31 := by
  by_cases sign : 0 ≤ len
  · rw [Int.tdiv_eq_ediv_of_nonneg (by omega)]
    omega
  · rw [tdiv_negative (by omega)]
    omega

theorem decode_eq (data : List UInt8) : base64Decode data =
    if -6 ≤ toInt32 data.length ∧ toInt32 data.length*3 < 2^31 then some
    (utilBase64Decode (data.take (toInt32 data.length).toNat)) else none := by
  have size := decode_size (toInt32_range data.length).1
  have shorter : (data.take (toInt32 data.length).toNat).length ≤ (toInt32 data.length).toNat := List.length_take_le ..
  unfold base64Decode
  dsimp only
  by_cases product : -2^31 ≤ toInt32 data.length*3 ∧ toInt32 data.length*3 < 2^31
  · rw [checked_bind product]
    by_cases positive : 0 ≤ (toInt32 data.length*3).tdiv 4+5
    · rw [allocate_bind positive]
      by_cases room : 3*((toInt32 data.length).toNat/4)+1 ≤ ((toInt32 data.length*3).tdiv 4+5).toNat
      · rw [if_pos (size.mp ⟨product,positive,room⟩)]
        apply decode_room
        omega
      · -- only a negative length leaves no room for the NUL
        have negative : toInt32 data.length < 0 := by
          by_contra sign
          rw [Int.tdiv_eq_ediv_of_nonneg (by omega)] at room
          omega
        have zero : ((toInt32 data.length*3).tdiv 4+5).toNat = 0 := by omega
        rw [if_neg fun fits => room (size.mpr fits).2.2,zero,Int.toNat_of_nonpos (by omega),List.take_zero]
        rfl
    · rw [allocate,if_neg positive,Option.bind_none,if_neg fun fits => positive (size.mpr fits).2.1]
  · rw [checked,if_neg product,Option.bind_none,if_neg fun fits => product (size.mpr fits).1]

theorem isSome_ite {p : Prop} [Decidable p] (a : α) : (if p then some a else none).isSome ↔ p := by
  split
  · rename_i holds
    exact ⟨fun _ => holds,fun _ => rfl⟩
  · rename_i fails
    constructor
    · intro nothing
      cases nothing
    · intro holds
      exact absurd holds fails

theorem roundTrip_iff (plain : (0 : UInt8) ∉ s) : RoundTrip s ↔ s.length < 2^29-1 := by
  constructor
  · intro ⟨text,out,sent,back,same⟩
    rw [encode_eq] at sent
    rw [decode_eq] at back
    split at sent
    · rename_i fits
      cases Option.some.inj sent
      rw [length_encoded] at back
      split at back
      · rename_i room
        have read := length_decoded (Option.some.inj back)
        have short : s.length ≤ out.length := by
          rw [←same]
          exact (List.takeWhile_prefix _).length_le
        rw [List.length_take,length_encoded] at read
        have grown : (s.length : Int) < 2^31 := by
          by_contra large
          have less := toInt32_large (Int.not_lt.mp large)
          omega
        have exact_length : toInt32 s.length = s.length := toInt32_small (by omega) grown
        rw [exact_length,Int.toNat_natCast] at room
        rw [toInt32_small (by omega) (by omega)] at room
        omega
      · cases back
    · cases sent
  · intro short
    have len : toInt32 s.length = s.length := toInt32_small (by omega) (by omega)
    have text : (encoded s.length s).length = 4*((s.length+2)/3) := length_encoded _ _
    have long : toInt32 ((encoded s.length s).length : Nat) = (encoded s.length s).length :=
      toInt32_small (by omega) (by omega)
    obtain ⟨nuls,zero,read⟩ := decode_encode s
    refine ⟨encoded s.length s,s++nuls,?_,?_,(cstr_nuls zero).trans (cstr_whole plain)⟩
    · rw [encode_eq,len,if_pos ⟨by omega,by omega⟩,Int.toNat_natCast]
    · rw [decode_eq,long,if_pos ⟨by omega,by omega⟩,Int.toNat_natCast,List.take_length,encoded_all,read]

-- The round trip holds of the strings below 2^29-1 characters, and each function keeps to its
-- block, for any string, when the int that its length becomes gives a block of the right size.
theorem base64_lengths (plain : (0 : UInt8) ∉ s) (data : List UInt8) :
    (RoundTrip s ↔ s.length < 2^29-1) ∧ ((base64Encode data).isSome ↔ EncodeFits data.length) ∧
      ((base64Decode data).isSome ↔ DecodeFits data.length) := by
  refine ⟨roundTrip_iff plain,?_,?_⟩
  · rw [encode_eq,isSome_ite]
    exact Iff.rfl
  · rw [decode_eq,isSome_ite]
    exact Iff.rfl

theorem base64_lengths_password : (0 : UInt8) ∉ ascii "hackme" ∧
    (RoundTrip (ascii "hackme") ↔ (ascii "hackme").length < 2^29-1) ∧
    ((base64Encode (ascii "a")).isSome ↔ EncodeFits (ascii "a").length) ∧ ((base64Decode (ascii "a")).isSome ↔
    DecodeFits (ascii "a").length) :=
  ⟨by decide,base64_lengths (by decide) (ascii "a")⟩

-- 2^30 characters: four times that is no int.
theorem long_password : ¬RoundTrip (List.replicate (2^30) 97) := by
  intro ⟨text,_,sent,_⟩
  rw [encode_eq,List.length_replicate,if_neg] at sent
  · cases sent
  · intro fits
    exact absurd fits.2 (by decide +kernel)

end Icecast.Base64
