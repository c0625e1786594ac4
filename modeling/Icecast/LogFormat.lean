import Icecast.Lib.Machine
import Icecast.LogRecords

namespace Icecast.LogFormat
open Bytes Decimal Machine LogRecords

-- What was written from `str` on, and `size`.
abbrev Written : Type := List UInt8 × Nat

-- The copying loop, with block_len an int; none writes behind the buffer or counts below INT_MIN.
def copy (room : Nat) : Int → List UInt8 → Written → Option Written
  | _,[],w => some w
  | block_len,c::arg,w =>
    if block_len = 0 ∨ w.2 = 0 then some w else
    (emit room w.1 [c]).bind fun out => (checked (block_len-1)).bind fun block_len =>
      copy room block_len arg (out,w.2-1)

-- if (!block_len) block_len = strlen(arg);
def blockLen (b : Block) (arg : List UInt8) : Int := if b.block_len = 0 then toInt32 arg.length else b.block_len

-- What `arg` points to at the copying loop, a number in the 80 bytes of `buf`.
def pointed (c : UInt8) (b : Block) (args : List Arg) : Option (List UInt8 × List Arg) :=
  (convert c {b with block_len := 0} args).map fun r => (if c = 115 ∨ c = 72 then r.1 else r.1.take 79,r.2)

def isConversion (c : UInt8) : Bool := c = 112 || c = 100 || c = 105 || c = 117 || c = 115 || c = 72

-- One character of the format: a literal, a conversion, or one that only changes the variables.
def character (room : Nat) (c : UInt8) (rest : List UInt8) (b : Block) (args : List Arg) (w : Written) :
    Option (Block × List Arg × Written) :=
  if b.skip = 0 ∧ b.in_block = false ∧ c ≠ 37 then (emit room w.1 [c]).map fun out => (b,args,(out,w.2-1))
  else if b.skip = 0 ∧ b.in_block = true ∧ isConversion c then
    (pointed c b args).bind fun r => (copy room (blockLen b r.1) r.1 w).map fun w => ({b with in_block := false},r.2,w)
  else (directive c rest b args).map fun r => (r.1,r.2.1,w)

def formatLoop (room : Nat) : List UInt8 → Block → List Arg → Written → Option Written
  | [],_,_,w => some w
  | c::rest,b,args,w => if w.2 = 0 then some w else (character room c rest b args w).bind fun r =>
    formatLoop room rest r.1 r.2.1 r.2.2

-- __vsnprintf into a buffer of `size` bytes: what it holds up to the NUL written last.
def vsnprintf (size : Nat) (format : List UInt8) (args : List Arg) : Option (List UInt8) :=
  (formatLoop size format ⟨false,0,0,false,0⟩ args ([],size)).bind fun w =>
    if w.2 = 0 then some (w.1.dropLast++[0]) else emit size w.1 [0]

-- The number of 'l' of a conversion, and the width of its argument.
def bits (l : Fin 3) : Nat := if l = 0 then 32 else 64

def hexDigit (d : Nat) : UInt8 := UInt8.ofNat (if d < 10 then 48+d else 87+d)

-- %p
def pointerText (p : UInt64) : List UInt8 :=
  if p = 0 then ascii "(nil)" else ascii "0x"++(Nat.digits 16 p.toNat).reverse.map hexDigit

-- The parts of a format with their arguments: a literal byte, %s, %.Ns with N in digits (it may begin
-- with zeros), %.*s, %d and %i, %u, %p.
inductive Item where
  | literal (c : UInt8) (plain : c ≠ 37 ∧ c ≠ 0)
  | str (text : Option (List UInt8))
  | limited (zeros n : Nat) (text : Option (List UInt8)) (positive : 0 < n) (fits : n < 2^31)
  | star (n : Nat) (text : Option (List UInt8)) (positive : 0 < n) (fits : n < 2^31)
  | signed (d : Bool) (l : Fin 3) (z : Int) (fits : -2^(bits l-1) ≤ z ∧ z < 2^(bits l-1))
  | unsigned (l : Fin 3) (n : Nat) (fits : n < 2^bits l)
  | ptr (p : UInt64)

def Item.format : Item → List UInt8
  | .literal c _ => [c]
  | .str _ => ascii "%s"
  | .limited zeros n _ _ _ => ascii "%."++(List.replicate zeros 48++(ofNat n++[115]))
  | .star _ _ _ _ => ascii "%.*s"
  | .signed d l _ _ => 37::(List.replicate l 108++[if d then 100 else 105])
  | .unsigned l _ _ => 37::(List.replicate l 108++[117])
  | .ptr _ => ascii "%p"

def Item.args : Item → List Arg
  | .literal _ _ => []
  | .str text => [.str text]
  | .limited _ _ text _ _ => [.str text]
  | .star n text _ _ => [.int n,.str text]
  | .signed _ _ z _ => [.int z]
  | .unsigned _ n _ => [.uint n]
  | .ptr p => [.ptr (pointerText p)]

-- What the standard says the part gives; a NULL string is "(null)".
def Item.text : Item → List UInt8
  | .literal c _ => [c]
  | .str text => text.getD (ascii "(null)")
  | .limited _ n text _ _ => (text.getD (ascii "(null)")).take n
  | .star n text _ _ => (text.getD (ascii "(null)")).take n
  | .signed _ _ z _ => ofInt z
  | .unsigned _ n _ => ofNat n
  | .ptr p => pointerText p

def formatOf (items : List Item) : List UInt8 := items.flatMap Item.format

def argsOf (items : List Item) : List Arg := items.flatMap Item.args

def textOf (items : List Item) : List UInt8 := items.flatMap Item.text

-- The text of the standard, cut behind size-1 characters, and a NUL, for every size.
def AsStandard (items : List Item) : Prop :=
  ∀ size, 0 < size → ∃ text, vsnprintf size (formatOf items) (argsOf items) = some (text++[0]) ∧
  (text++[0]).length ≤ size ∧ text = (textOf items).take (size-1)

-- A string that a %s prints whole has a length that is an int.
def Item.Short : Item → Prop
  | .str text => (text.getD (ascii "(null)")).length < 2^31
  | _ => True

-- A text that goes into what is left of the buffer.
def wrote (text : List UInt8) (w : Written) : Written := (w.1++text.take w.2,w.2-text.length)

theorem wrote_append (a b : List UInt8) (w : Written) : wrote b (wrote a w) = wrote (a++b) w := by
  unfold wrote
  rw [List.take_append,List.length_append,List.append_assoc,Nat.sub_sub]

theorem wrote_full (text : List UInt8) {w : Written} (full : w.2 = 0) : wrote text w = w := by
  unfold wrote
  rw [full,List.take_zero,List.append_nil,Nat.zero_sub]
  exact Prod.ext rfl full.symm

theorem wrote_room {w : Written} (inside : w.1.length+w.2 ≤ room) (text : List UInt8) :
    (wrote text w).1.length+(wrote text w).2 ≤ room := by
  unfold wrote
  rw [List.length_append,List.length_take]
  omega

-- A text that is not longer than block_len, or is cut there.
theorem copy_wrote (n : Nat) (small : n < 2^31) (arg : List UInt8) {w : Written} (inside : w.1.length+w.2 ≤ room) :
    copy room n arg w = some (wrote (arg.take n) w) := by
  induction arg generalizing n w with
  | nil =>
    unfold copy wrote
    rw [List.take_nil,List.take_nil,List.append_nil]
    rfl
  | cons c arg ih =>
    unfold copy
    cases n with
    | zero =>
      rw [if_pos (.inl rfl),List.take_zero]
      unfold wrote
      rw [List.take_nil,List.append_nil]
      rfl
    | succ n =>
      by_cases full : w.2 = 0
      · rw [if_pos (.inr full),wrote_full _ full]
      · have counts : ((n+1 : Nat) : Int)-1 = n := by omega
        have one : (w.1++[c]).length+(w.2-1) ≤ room := by
          rw [List.length_append,List.length_singleton]
          omega
        rw [if_neg (by omega),emit_eq (by rw [List.length_singleton]; omega),Option.bind_some,counts,
          checked_bind (by omega),
          ih n (by omega) one,List.take_succ_cons]
        have first : wrote [c] w = (w.1++[c],w.2-1) := by
          unfold wrote
          rw [List.take_of_length_le (by rw [List.length_singleton]; omega)]
          rfl
        rw [←first,wrote_append]
        rfl

-- What the loop may make of any block_len: at most the text, and the whole of it only where
-- block_len reaches so far, or is below 0 and stays an int.
theorem copy_bounds {block_len : Int} (int : -2^31 ≤ block_len) (arg : List UInt8) {w v : Written}
    (copied : copy room block_len arg w = some v) :
    v.1.length+v.2 = w.1.length+w.2 ∧ v.1.length ≤ w.1.length+arg.length ∧
      (v.1.length = w.1.length+arg.length → arg.length ≤ block_len ∨ -2^31 ≤ block_len-arg.length ∧
      block_len < 0 ∨ arg = []) := by
  induction arg generalizing block_len w with
  | nil =>
    unfold copy at copied
    cases copied
    exact ⟨rfl,Nat.le_refl _,fun _ => .inr (.inr rfl)⟩
  | cons c arg ih =>
    unfold copy at copied
    split at copied
    · cases copied
      refine ⟨rfl,Nat.le_add_right _ _,fun whole => ?_⟩
      rw [List.length_cons] at whole
      omega
    · rename_i goes
      obtain ⟨out,written,later⟩ := Option.bind_eq_some_iff.mp copied
      obtain ⟨next,counted,rest⟩ := Option.bind_eq_some_iff.mp later
      have one : out.length = w.1.length+1 := by
        unfold emit at written
        split at written
        · cases written
          exact List.length_append
        · cases written
      have less : next = block_len-1 ∧ -2^31 ≤ block_len-1 := by
        unfold checked at counted
        split at counted
        · rename_i fits
          cases counted
          exact ⟨rfl,fits.1⟩
        · cases counted
      obtain ⟨total,most,reach⟩ := ih (less.1 ▸ less.2) rest
      rw [less.1] at reach
      simp only [one,List.length_cons] at total most reach ⊢
      refine ⟨by omega,by omega,fun whole => ?_⟩
      rcases reach (by omega) with far | ⟨stays,negative⟩ | last
      · left
        omega
      · right
        left
        omega
      · rw [last,List.length_nil]
        omega

theorem copy_long {arg : List UInt8} (long : 2^31 ≤ arg.length) {w v : Written}
    (copied : copy room (toInt32 arg.length) arg w = some v) :
    v.1.length ≠ w.1.length+arg.length := by
  intro whole
  have less := toInt32_large (n := arg.length) (by omega)
  rcases (copy_bounds (toInt32_range _).1 arg copied).2.2 whole with far | ⟨stays,_⟩ | none_there
  · omega
  · omega
  · rw [none_there] at long
    cases long

def Idle (b : Block) : Prop := b.in_block = false ∧ b.skip = 0

-- A conversion is read from its second character on.
def Open (b : Block) : Prop := b.in_block = true ∧ b.skip = 0

theorem loop_full (room : Nat) (format : List UInt8) (b : Block) (args : List Arg) {w : Written}
    (full : w.2 = 0) : formatLoop room format b args w = some w := by
  cases format with
  | nil => rfl
  | cons c rest => exact if_pos full

theorem loop_character {w : Written} (more : w.2 ≠ 0) : formatLoop room (c::rest) b args w =
    (character room c rest b args w).bind fun r => formatLoop room rest r.1 r.2.1 r.2.2 := if_neg more

theorem loop_literal {w : Written} (more : w.2 ≠ 0) (idle : Idle b) (plain : c ≠ 37) :
    formatLoop room (c::rest) b args w =
    (emit room w.1 [c]).bind fun out => formatLoop room rest b args (out,w.2-1) := by
  rw [loop_character more,character,if_pos ⟨idle.2,idle.1,plain⟩,Option.bind_map]
  rfl

theorem loop_percent {w : Written} (more : w.2 ≠ 0) (idle : Idle b) :
    formatLoop room (37::rest) b args w = formatLoop room rest ⟨true,0,0,false,0⟩ args w := by
  obtain ⟨in_block,block_size,block_len,block_space,skip⟩ := b
  obtain ⟨rfl,rfl⟩ := idle
  rw [loop_character more,character,if_neg (fun both => both.2.2 rfl),if_neg (fun both => nomatch both.2.1)]
  rfl

theorem loop_flag {w : Written} (more : w.2 ≠ 0) (opened : Open b) (flag : isConversion c = false) :
    formatLoop room (c::rest) b args w =
    (directive c rest b args).bind fun r => formatLoop room rest r.1 r.2.1 w := by
  have inside : ¬(b.skip = 0 ∧ b.in_block = false ∧ c ≠ 37) := by
    rw [opened.1]
    exact fun both => nomatch both.2.1
  have none_yet : ¬(b.skip = 0 ∧ b.in_block = true ∧ isConversion c = true) := by
    rw [flag]
    exact fun both => nomatch both.2.2
  rw [loop_character more,character,if_neg inside,if_neg none_yet,Option.bind_map]
  rfl

theorem loop_conversion {w : Written} (more : w.2 ≠ 0) (opened : Open b) (conversion : isConversion c = true)
    (arg : pointed c b args = some (text,later)) :
    formatLoop room (c::rest) b args w =
      (copy room (blockLen b text) text w).bind fun w => formatLoop room rest {b with in_block := false} later w := by
  have inside : ¬(b.skip = 0 ∧ b.in_block = false ∧ c ≠ 37) := by
    rw [opened.1]
    exact fun both => nomatch both.2.1
  rw [loop_character more,character,if_neg inside,if_pos ⟨opened.2,opened.1,conversion⟩,arg,
    Option.bind_some,Option.bind_map]
  rfl

theorem loop_ls (l : Nat) {w : Written} (more : w.2 ≠ 0) (n : Nat) :
    formatLoop room (List.replicate l 108++rest) ⟨true,n,0,false,0⟩ args w = formatLoop room rest
    ⟨true,n+l,0,false,0⟩ args w := by
  induction l generalizing n with
  | zero => rfl
  | succ l ih =>
    have count : n+(l+1) = n+1+l := by omega
    rw [List.replicate_succ,List.cons_append,loop_flag more ⟨rfl,rfl⟩ rfl,count]
    exact ih (n+1)

theorem loop_zeros (zeros : Nat) {w : Written} (more : w.2 ≠ 0) :
    formatLoop room (List.replicate zeros 48++rest) ⟨true,0,0,false,0⟩ args w = formatLoop room rest
    ⟨true,0,0,false,0⟩ args w := by
  induction zeros with
  | zero => rfl
  | succ zeros ih =>
    rw [List.replicate_succ,List.cons_append,loop_flag more ⟨rfl,rfl⟩ rfl]
    exact ih

theorem loop_skip (digits : List UInt8) {w : Written} (more : w.2 ≠ 0) (n : Int) :
    formatLoop room (digits++rest) ⟨true,0,n,false,digits.length⟩ args w = formatLoop room rest
    ⟨true,0,n,false,0⟩ args w := by
  induction digits with
  | nil => rfl
  | cons c digits ih =>
    have skipping : ∀ other : Prop, ¬((⟨true,0,n,false,(c::digits).length⟩ : Block).skip = 0 ∧ other) :=
      fun other both => nomatch both.1
    rw [List.cons_append,loop_character more,character,if_neg (skipping _),if_neg (skipping _)]
    exact ih

theorem leading_followed {digits : List UInt8} (all : ∀ c ∈ digits, isDigit c = true)
    (stop : isDigit c = false) (rest : List UInt8) :
    (digits++c::rest).takeWhile isDigit = digits := by
  rw [List.takeWhile_append_of_pos all,
    List.takeWhile_cons_of_neg (by rw [stop]; exact Bool.false_ne_true),List.append_nil]

theorem ofNat_first (positive : 0 < n) : ∃ c digits, ofNat n = c::digits ∧ 49 ≤ c ∧ c ≤ 57 := by
  have some_digits : Nat.digits 10 n ≠ [] := Nat.digits_ne_nil_iff_ne_zero.mpr (Nat.pos_iff_ne_zero.mp positive)
  have most := Nat.getLast_digit_ne_zero 10 (Nat.pos_iff_ne_zero.mp positive)
  have small := Nat.digits_lt_base (b := 10) (by decide) (List.getLast_mem some_digits)
  have value := digit_toNat small
  have split := (List.dropLast_append_getLast some_digits).symm
  refine ⟨UInt8.ofNat (48+(Nat.digits 10 n).getLast some_digits),(Nat.digits 10 n).dropLast.reverse.map fun d =>
    UInt8.ofNat (48+d),?_,?_,?_⟩
  · have backwards := congrArg List.reverse split
    rw [List.reverse_append,List.reverse_singleton] at backwards
    rw [ofNat,if_neg (Nat.pos_iff_ne_zero.mp positive),backwards]
    rfl
  · rw [UInt8.le_iff_toNat_le,value]
    exact Nat.add_le_add_left (Nat.pos_iff_ne_zero.mpr most) 48
  · rw [UInt8.le_iff_toNat_le,value]
    exact Nat.add_le_add_left (Nat.le_of_lt_succ small) 48

theorem loop_digits (positive : 0 < n) {w : Written} (more : w.2 ≠ 0) :
    formatLoop room (ofNat n++115::rest) ⟨true,0,0,false,0⟩ args w = formatLoop room (115::rest)
    ⟨true,0,n,false,0⟩ args w := by
  obtain ⟨c,digits,text,low,high⟩ := ofNat_first positive
  have all := ofNat_digits n
  have value := leading_ofNat n
  rw [text] at all value
  have whole := leading_followed all (show isDigit 115 = false from rfl) rest
  have later := leading_followed (fun d member => all d (List.mem_cons_of_mem c member))
    (show isDigit 115 = false from rfl) rest
  have itself : (c::digits).takeWhile isDigit = c::digits := List.takeWhile_eq_self_iff.mpr all
  have other (d : UInt8) (above : 57 < d) : c ≠ d := fun same => UInt8.not_le.mpr above (same ▸ high)
  have below (d : UInt8) (under : d < 49) : c ≠ d := fun same => UInt8.not_le.mpr under (same ▸ low)
  have no_conversion : isConversion c = false := by
    simp only [isConversion,Bool.or_eq_false_iff,decide_eq_false_iff_not]
    exact ⟨⟨⟨⟨⟨other 112 (by decide),other 100 (by decide)⟩,other 105 (by decide)⟩,other 117 (by decide)⟩,
      other 115 (by decide)⟩,other 72 (by decide)⟩
  have read : leading (c::(digits++115::rest)) = n := by
    rw [←value]
    unfold leading
    rw [itself]
    exact congrArg (List.foldl _ 0) whole
  have step : directive c (digits++115::rest) ⟨true,0,0,false,0⟩ args =
    some (⟨true,0,n,false,digits.length⟩,args,[]) := by
    unfold directive
    rw [if_neg (Nat.lt_irrefl 0),if_neg Bool.true_eq_false.mp,if_neg (other 108 (by decide)),
      if_neg (below 42 (by decide)),if_neg (below 32 (by decide)),
      if_pos ⟨low,high⟩,read,later]
  rw [text,List.cons_append,loop_flag more ⟨rfl,rfl⟩ no_conversion,step]
  exact loop_skip digits more n

-- What the copying loop is given for a part.
def Item.pointee : Item → List UInt8
  | .limited _ _ text _ _ => text.getD (ascii "(null)")
  | .star _ text _ _ => text.getD (ascii "(null)")
  | other => other.text

def Item.limit : Item → Int
  | .limited _ n _ _ _ => n
  | .star n _ _ _ => n
  | other => toInt32 other.text.length

theorem pow_bits (l : Fin 3) : (2:Int)^(bits l-1) ≤ 2^63 ∧ 2^bits l ≤ 2^64 := by
  unfold bits
  split
  · exact ⟨by decide,by decide⟩
  · exact ⟨by decide,by decide⟩

theorem number_short (item : Item) (number : match item with | .signed _ _ _ _ => True | .unsigned _ _ _ => True | .ptr _ => True | _ => False) :
    item.text.length ≤ 79 := by
  cases item with
  | signed d l z fits =>
    have width := (pow_bits l).1
    have short := length_ofInt (k := 19) (z := z) (by omega) (by omega) (by decide)
    exact Nat.le_trans short (by decide)
  | unsigned l n fits =>
    have width := (pow_bits l).2
    have short := length_ofNat (k := 20) (n := n) (by decide) (by omega)
    exact Nat.le_trans short (by decide)
  | ptr p =>
    change (pointerText p).length ≤ 79
    unfold pointerText
    split
    · decide
    · have short : (Nat.digits 16 p.toNat).length ≤ 16 := (Nat.digits_length_le_iff (by decide) _).mpr p.toNat_lt
      rw [List.length_append,List.length_map,List.length_reverse]
      exact Nat.le_trans (Nat.add_le_add_left short 2) (by decide)
  | literal c plain => cases number
  | str text => cases number
  | limited zeros n text positive fits => cases number
  | star n text positive fits => cases number

theorem loop_whole {w : Written} (more : w.2 ≠ 0) (conversion : isConversion c = true)
    (arg : pointed c ⟨true,l,0,false,0⟩ args = some (text,later)) :
    formatLoop room (c::rest) ⟨true,l,0,false,0⟩ args w =
      (copy room (toInt32 text.length) text w).bind fun w => formatLoop room rest ⟨false,l,0,false,0⟩ later w := by
  have len : blockLen ⟨true,l,0,false,0⟩ text = toInt32 text.length := if_pos rfl
  rw [loop_conversion more ⟨rfl,rfl⟩ conversion arg,len]

theorem loop_number {w : Written} (more : w.2 ≠ 0) (idle : Idle b) (l : Nat) (conversion : isConversion c = true)
    (arg : pointed c ⟨true,l,0,false,0⟩ args = some (text,later)) :
    formatLoop room ((37::(List.replicate l 108++[c]))++rest) b args w =
      (copy room (toInt32 text.length) text w).bind fun w => formatLoop room rest ⟨false,l,0,false,0⟩ later w := by
  rw [List.cons_append,List.append_assoc,List.singleton_append,loop_percent more idle,loop_ls l more 0,Nat.zero_add]
  exact loop_whole more conversion arg

theorem loop_cut {n : Nat} {w : Written} (more : w.2 ≠ 0) (positive : 0 < n)
    (text : Option (List UInt8)) (args : List Arg) :
    formatLoop room (115::rest) ⟨true,0,n,false,0⟩ (.str text::args) w =
      (copy room n (text.getD (ascii "(null)")) w).bind fun w => formatLoop room rest ⟨false,0,n,false,0⟩ args w := by
  have arg : pointed 115 ⟨true,0,n,false,0⟩ (.str text::args) = some (text.getD (ascii "(null)"),args) := rfl
  have len : blockLen ⟨true,0,n,false,0⟩ (text.getD (ascii "(null)")) = n := if_neg fun zero : (n : Int) = 0 => by omega
  rw [loop_conversion more ⟨rfl,rfl⟩ rfl arg,len]

theorem loop_item (item : Item) {w : Written} (more : w.2 ≠ 0) (idle : Idle b) (inside : w.1.length+w.2 ≤ room)
    (rest : List UInt8) (args : List Arg) :
    ∃ after, Idle after ∧ formatLoop room (item.format++rest) b (item.args++args) w =
      (copy room item.limit item.pointee w).bind fun w => formatLoop room rest after args w := by
  cases item with
  | literal c plain =>
    have one : copy room (toInt32 1) [c] w = (emit room w.1 [c]).map fun out => (out,w.2-1) := by
      have int : toInt32 1 = ((1 : Nat) : Int) := toInt32_small (by decide) (by decide)
      rw [int,copy_wrote 1 (by decide) [c] inside,emit_eq (by rw [List.length_singleton]; omega)]
      unfold wrote
      rw [List.take_of_length_le (show [c].length ≤ 1 from Nat.le_refl 1),
        List.take_of_length_le (by rw [List.length_singleton]; omega)]
      rfl
    refine ⟨b,idle,(loop_literal more idle plain.1).trans ?_⟩
    exact (Option.bind_map ..).symm.trans (congrArg (Option.bind · _) one.symm)
  | str text =>
    have arg : pointed 115 ⟨true,0,0,false,0⟩ (.str text::args) = some (text.getD (ascii "(null)"),args) := rfl
    exact ⟨⟨false,0,0,false,0⟩,⟨rfl,rfl⟩,(loop_percent more idle).trans (loop_whole more rfl arg)⟩
  | limited zeros n text positive fits =>
    refine ⟨⟨false,0,n,false,0⟩,⟨rfl,rfl⟩,?_⟩
    have spelled : (Item.limited zeros n text positive fits).format++rest =
      37::46::(List.replicate zeros 48++(ofNat n++115::rest)) := by
      unfold Item.format
      rw [List.append_assoc,List.append_assoc,List.append_assoc]
      rfl
    have dot : directive 46 (List.replicate zeros 48++(ofNat n++115::rest)) ⟨true,0,0,false,0⟩ (.str text::args) =
        some (⟨true,0,0,false,0⟩,.str text::args,[]) := rfl
    rw [spelled,loop_percent more idle,loop_flag more ⟨rfl,rfl⟩ rfl]
    exact (congrArg (Option.bind · _) dot).trans
      ((loop_zeros zeros more).trans ((loop_digits positive more).trans (loop_cut more positive text args)))
  | star n text positive fits =>
    refine ⟨⟨false,0,n,false,0⟩,⟨rfl,rfl⟩,?_⟩
    refine (loop_percent more idle).trans ((loop_flag more ⟨rfl,rfl⟩ rfl).trans ?_)
    exact (loop_flag more ⟨rfl,rfl⟩ rfl).trans (loop_cut more positive text args)
  | signed d l z fits =>
    have whole : (ofInt z).take 79 = ofInt z := List.take_of_length_le (number_short (.signed d l z fits) trivial)
    have few : ¬2 < l.val := by omega
    have arg : pointed (if d then 100 else 105) ⟨true,l,0,false,0⟩ (.int z::args) = some (ofInt z,args) := by
      have chosen : (if d then (100 : UInt8) else 105) = 100 ∨
        (if d then (100 : UInt8) else 105) = 105 := by cases d <;> decide
      rcases chosen with same | same
      · rw [same,pointed,convert,if_neg fun both => few both.2]
        exact congrArg (fun text => some (text,args)) whole
      · rw [same,pointed,convert,if_neg fun both => few both.2]
        exact congrArg (fun text => some (text,args)) whole
    have conversion : isConversion (if d then 100 else 105) = true := by cases d <;> rfl
    exact ⟨⟨false,l,0,false,0⟩,⟨rfl,rfl⟩,loop_number more idle l conversion arg⟩
  | unsigned l n fits =>
    have whole : (ofNat n).take 79 = ofNat n := List.take_of_length_le (number_short (.unsigned l n fits) trivial)
    have few : ¬2 < l.val := by omega
    have arg : pointed 117 ⟨true,l,0,false,0⟩ (.uint n::args) = some (ofNat n,args) := by
      unfold pointed convert
      rw [if_neg fun both => few both.2]
      exact congrArg (fun text => some (text,args)) whole
    exact ⟨⟨false,l,0,false,0⟩,⟨rfl,rfl⟩,loop_number more idle l rfl arg⟩
  | ptr p =>
    have whole : (pointerText p).take 79 = pointerText p := List.take_of_length_le (number_short (.ptr p) trivial)
    have arg : pointed 112 ⟨true,0,0,false,0⟩ (.ptr (pointerText p)::args) = some (pointerText p,args) :=
      congrArg (fun text => some (text,args)) whole
    exact ⟨⟨false,0,0,false,0⟩,⟨rfl,rfl⟩,(loop_percent more idle).trans (loop_whole more rfl arg)⟩

theorem item_right (item : Item) (short : item.Short) {w : Written} (inside : w.1.length+w.2 ≤ room) :
    copy room item.limit item.pointee w = some (wrote item.text w) := by
  have whole (text : List UInt8) (fits : text.length < 2^31) :
    copy room (toInt32 text.length) text w = some (wrote text w) := by
    have int : toInt32 text.length = (text.length : Int) := toInt32_small (by omega) (by omega)
    rw [int,copy_wrote text.length fits text inside,List.take_length]
  cases item with
  | literal c plain => exact whole [c] (show 1 < 2^31 by decide)
  | str text => exact whole _ short
  | limited zeros n text positive fits => exact copy_wrote n fits _ inside
  | star n text positive fits => exact copy_wrote n fits _ inside
  | signed d l z fits => exact whole _ (Nat.lt_of_le_of_lt (number_short (.signed d l z fits) trivial) (by decide))
  | unsigned l n fits => exact whole _ (Nat.lt_of_le_of_lt (number_short (.unsigned l n fits) trivial) (by decide))
  | ptr p => exact whole _ (Nat.lt_of_le_of_lt (number_short (.ptr p) trivial) (by decide))

theorem loop_right (items : List Item) (short : ∀ item ∈ items, item.Short) {w : Written} (idle : Idle b)
    (inside : w.1.length+w.2 ≤ room) :
    formatLoop room (formatOf items) b (argsOf items) w = some (wrote (textOf items) w) := by
  induction items generalizing b w with
  | nil =>
    have nothing : wrote [] w = w := by
      unfold wrote
      rw [List.take_nil,List.append_nil]
      rfl
    exact congrArg some nothing.symm
  | cons item items ih =>
    by_cases full : w.2 = 0
    · rw [loop_full room _ b _ full,wrote_full _ full]
    · obtain ⟨after,idle,one⟩ := loop_item item full idle inside (formatOf items) (argsOf items)
      have later := ih (fun other member => short other (List.mem_cons_of_mem item member)) idle
        (wrote_room inside item.text)
      refine one.trans ?_
      rw [item_right item (short item List.mem_cons_self) inside,Option.bind_some,later,wrote_append]
      rfl

theorem wrote_bounds (text : List UInt8) (w : Written) :
    (wrote text w).1.length+(wrote text w).2 = w.1.length+w.2 ∧ (wrote text w).1.length ≤ w.1.length+text.length := by
  unfold wrote
  rw [List.length_append,List.length_take]
  omega

theorem item_bounds (item : Item) {w v : Written} (inside : w.1.length+w.2 ≤ room)
    (copied : copy room item.limit item.pointee w = some v) :
    v.1.length+v.2 = w.1.length+w.2 ∧
    v.1.length ≤ w.1.length+item.text.length ∧ (v.1.length = w.1.length+item.text.length → item.Short) := by
  by_cases short : item.Short
  · cases copied.symm.trans (item_right item short inside)
    obtain ⟨total,most⟩ := wrote_bounds item.text w
    exact ⟨total,most,fun _ => short⟩
  · cases item with
    | str text =>
      obtain ⟨total,most,_⟩ := copy_bounds (toInt32_range _).1 _ copied
      exact ⟨total,most,fun whole => absurd whole (copy_long (Nat.le_of_not_lt short) copied)⟩
    | literal c plain => exact absurd trivial short
    | limited zeros n text positive fits => exact absurd trivial short
    | star n text positive fits => exact absurd trivial short
    | signed d l z fits => exact absurd trivial short
    | unsigned l n fits => exact absurd trivial short
    | ptr p => exact absurd trivial short

theorem loop_bounds (items : List Item) {w v : Written} (idle : Idle b) (inside : w.1.length+w.2 ≤ room)
    (run : formatLoop room (formatOf items) b (argsOf items) w = some v) : v.1.length+v.2 = w.1.length+w.2 ∧
      v.1.length ≤ w.1.length+(textOf items).length ∧ (v.1.length = w.1.length+(textOf items).length →
      ∀ item ∈ items, item.Short) := by
  induction items generalizing b w with
  | nil =>
    cases run
    exact ⟨rfl,Nat.le_refl _,fun _ => nofun⟩
  | cons item items ih =>
    have split : (textOf (item::items)).length = item.text.length+(textOf items).length := List.length_append
    by_cases full : w.2 = 0
    · cases (loop_full room _ b _ full).symm.trans run
      refine ⟨rfl,Nat.le_add_right _ _,fun whole other member => ?_⟩
      have inside_text : other.text.length ≤ (textOf (item::items)).length :=
        (List.sublist_flatten_of_mem (List.mem_map_of_mem member)).length_le
      cases other with
      | str text => exact Nat.lt_of_le_of_lt inside_text (by omega)
      | literal c plain => trivial
      | limited zeros n text positive fits => trivial
      | star n text positive fits => trivial
      | signed d l z fits => trivial
      | unsigned l n fits => trivial
      | ptr p => trivial
    · obtain ⟨after,idle,one⟩ := loop_item item full idle inside (formatOf items) (argsOf items)
      obtain ⟨middle,copied,rest⟩ := Option.bind_eq_some_iff.mp (one.symm.trans run)
      obtain ⟨total,most,short⟩ := item_bounds item inside copied
      obtain ⟨total',most',short'⟩ := ih idle (by omega) rest
      refine ⟨by omega,by omega,fun whole => List.forall_mem_cons.mpr ⟨short (by omega),short' (by omega)⟩⟩

theorem start_idle : Idle ⟨false,0,0,false,0⟩ := ⟨rfl,rfl⟩

theorem vsnprintf_right (items : List Item) (short : ∀ item ∈ items, item.Short) : AsStandard items := by
  intro size positive
  have run := loop_right items short start_idle (w := ([],size)) (Nat.le_of_eq (Nat.zero_add size))
  have written : wrote (textOf items) ([],size) = ((textOf items).take size,size-(textOf items).length) := rfl
  have cut : ((textOf items).take (size-1)++[0]).length ≤ size := by
    rw [List.length_append,List.length_take,List.length_singleton]
    omega
  refine ⟨_,?_,cut,rfl⟩
  unfold vsnprintf
  rw [run,Option.bind_some,written]
  by_cases full : size-(textOf items).length = 0
  · rw [if_pos full,List.dropLast_eq_take,List.length_take,List.take_take]
    congr 3
    omega
  · have fits : (textOf items).take size = textOf items := List.take_of_length_le (by omega)
    have again : (textOf items).take (size-1) = textOf items := List.take_of_length_le (by omega)
    rw [again] at cut
    rw [if_neg full,fits,again]
    exact emit_eq (List.length_append ▸ cut)

theorem vsnprintf_long (items : List Item) (right : AsStandard items) : ∀ item ∈ items, item.Short := by
  obtain ⟨text,printed,_,whole⟩ := right ((textOf items).length+1) (Nat.succ_pos _)
  obtain ⟨v,run,ended⟩ := Option.bind_eq_some_iff.mp printed
  obtain ⟨total,most,short⟩ := loop_bounds items start_idle (Nat.le_of_eq (Nat.zero_add _)) run
  have total : v.1.length+v.2 = (textOf items).length+1 := total.trans (Nat.zero_add _)
  have most : v.1.length ≤ (textOf items).length := most.trans (Nat.le_of_eq (Nat.zero_add _))
  have left : v.2 ≠ 0 := by omega
  rw [if_neg left,emit_eq (by rw [List.length_singleton]; omega)] at ended
  have same : v.1 = text := (List.append_left_inj [0]).mp (Option.some.inj ended)
  refine short ?_
  rw [same,whole,Nat.add_sub_cancel,List.take_length]
  exact (Nat.zero_add _).symm

-- Log formatter: it agrees with the standard one for every size exactly when every string that a %s
-- without a precision prints has a length that is an int.
theorem log_format (items : List Item) : AsStandard items ↔ ∀ item ∈ items, item.Short :=
  ⟨vsnprintf_long items,vsnprintf_right items⟩

theorem copy_none (room : Nat) (arg : List UInt8) (w : Written) : copy room 0 arg w = some w := by
  cases arg with
  | nil => rfl
  | cons c arg => exact if_pos (.inl rfl)

def hugeItem : Item := .str (some (List.replicate (2^32) 97))

-- A string of 2^32 bytes has the block_len 0, and nothing of it is printed.
theorem huge_string : vsnprintf 10 (formatOf [hugeItem]) (argsOf [hugeItem]) = some [0] ∧ ¬AsStandard [hugeItem] := by
  have width : hugeItem.text.length = 2^32 := List.length_replicate
  constructor
  · obtain ⟨after,_,one⟩ := loop_item hugeItem (w := ([],10)) (by decide) start_idle (Nat.le_refl 10) [] []
    have none_left : hugeItem.limit = 0 := (congrArg (fun n : Nat => toInt32 n) width).trans (by decide)
    rw [none_left,copy_none] at one
    unfold vsnprintf
    exact congrArg (Option.bind · _) one
  · intro right
    have short : hugeItem.text.length < 2^31 := vsnprintf_long [hugeItem] right hugeItem List.mem_cons_self
    rw [width] at short
    exact absurd short (by decide)

end Icecast.LogFormat
