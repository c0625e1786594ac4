import Mathlib.Data.List.TakeWhile
import Mathlib.Data.Nat.Digits.Lemmas

namespace Decimal

-- The text that printf writes for %d.
def ofNat (n : Nat) : List UInt8 := if n = 0 then [48] else (Nat.digits 10 n).reverse.map fun d => UInt8.ofNat (48+d)

def ofInt (z : Int) : List UInt8 := if z < 0 then 45::ofNat z.natAbs else ofNat z.natAbs

def isDigit (c : UInt8) : Bool := 48 ≤ c.toNat && c.toNat ≤ 57

def isSpace (c : UInt8) : Bool := c = 32 || 9 ≤ c.toNat && c.toNat ≤ 13

-- The digits at the head of a text, as a number.
def leading (text : List UInt8) : Nat := (text.takeWhile isDigit).foldl (fun n c => 10*n+(c.toNat-48)) 0

-- The number that strtol reads in base 10, before it is made to fit a type.
def toInt (text : List UInt8) : Int :=
  match text.dropWhile isSpace with
  | 45::rest => -(leading rest : Int)
  | 43::rest => leading rest
  | rest => leading rest

theorem digit_toNat (small : d < 10) : (UInt8.ofNat (48+d)).toNat = 48+d := by
  rw [UInt8.toNat_ofNat']
  omega

theorem ofNat_digits (n : Nat) : ∀ c ∈ ofNat n, isDigit c = true := by
  intro c within
  unfold ofNat at within
  split at within
  · rw [List.mem_singleton.mp within]
    rfl
  · obtain ⟨d,found,same⟩ := List.mem_map.mp within
    have small := Nat.digits_lt_base (by decide) (List.mem_reverse.mp found)
    simp only [isDigit,←same,digit_toNat small,Bool.and_eq_true,decide_eq_true_eq]
    omega

theorem ofNat_ne_nil (n : Nat) : ofNat n ≠ [] := by
  unfold ofNat
  split
  · exact List.cons_ne_nil _ _
  · rename_i positive
    simpa [Nat.digits_eq_nil_iff_eq_zero] using positive

theorem foldr_digits (ds : List Nat) (small : ∀ d ∈ ds, d < 10) :
    (ds.map fun d => UInt8.ofNat (48+d)).foldr (fun c n => 10*n+(c.toNat-48)) 0 = Nat.ofDigits 10 ds := by
  induction ds with
  | nil => rfl
  | cons d ds ih =>
    rw [List.map_cons,List.foldr_cons,ih fun e within => small e (List.mem_cons_of_mem _ within),
      digit_toNat (small d List.mem_cons_self),
      Nat.ofDigits_cons]
    omega

theorem leading_ofNat (n : Nat) : leading (ofNat n) = n := by
  have whole : (ofNat n).takeWhile isDigit = ofNat n := List.takeWhile_eq_self_iff.mpr (ofNat_digits n)
  rw [leading,whole,ofNat]
  split
  · rename_i zero
    rw [zero]
    rfl
  · rw [←List.map_reverse.symm,List.foldl_reverse,foldr_digits,Nat.ofDigits_digits]
    exact fun d found => Nat.digits_lt_base (by decide) found

theorem toInt_ofInt (z : Int) : toInt (ofInt z) = z := by
  unfold ofInt
  split
  · rename_i negative
    have kept : ((45 : UInt8)::ofNat z.natAbs).dropWhile isSpace = 45::ofNat z.natAbs := rfl
    have value := leading_ofNat z.natAbs
    simp only [toInt,kept,value]
    omega
  · rename_i positive
    cases text : ofNat z.natAbs with
    | nil => exact absurd text (ofNat_ne_nil _)
    | cons c rest =>
      have digit := ofNat_digits z.natAbs c (by rw [text]; exact List.mem_cons_self)
      simp only [isDigit,Bool.and_eq_true,decide_eq_true_eq] at digit
      have noSpace : isSpace c = false := by
        simp only [isSpace,Bool.or_eq_false_iff,decide_eq_false_iff_not,Bool.and_eq_false_iff]
        refine ⟨?_,.inr (by omega)⟩
        rintro rfl
        exact absurd digit.1 (by decide)
      have kept : (c::rest).dropWhile isSpace = c::rest :=
        List.dropWhile_cons_of_neg (by rw [noSpace]; exact Bool.false_ne_true)
      have value := leading_ofNat z.natAbs
      rw [text] at value
      rw [toInt,kept]
      split
      · rename_i rest' same
        cases same
        exact absurd digit.1 (by decide)
      · rename_i rest' same
        cases same
        exact absurd digit.1 (by decide)
      · rw [value]
        omega

theorem length_ofNat (positive : 0 < k) (small : n < 10^k) : (ofNat n).length ≤ k := by
  unfold ofNat
  split
  · exact positive
  · rw [List.length_map,List.length_reverse]
    exact (Nat.digits_length_le_iff (by decide) n).mpr small

theorem length_ofInt (low : -(10^k : Int) < z) (high : z < 10^(k+1)) (positive : 0 < k) : (ofInt z).length ≤ k+1 := by
  have low' : -((10^k : Nat) : Int) < z := by exact_mod_cast low
  have high' : z < ((10^(k+1) : Nat) : Int) := by exact_mod_cast high
  unfold ofInt
  split
  · rw [List.length_cons]
    have fits : (ofNat z.natAbs).length ≤ k := length_ofNat positive (by omega)
    omega
  · exact length_ofNat (Nat.succ_pos k) (by omega)

end Decimal
