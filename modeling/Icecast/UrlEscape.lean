import Icecast.UriPath
import Icecast.Lib.Machine

namespace Icecast.Uri
open Bytes Machine

def hexchars : List UInt8 := ascii "0123456789abcdef"

-- safechars, its ones and zeros in runs
def safechars : List Bool :=
  List.replicate 48 false++List.replicate 10 true++List.replicate 7 false++List.replicate 26 true++List.replicate 6 false++
    List.replicate 26 true++List.replicate 133 false

def safe (c : UInt8) : Bool := safechars.getD c.toNat false

def escapeChar (c : UInt8) : List UInt8 :=
  if safe c then [c] else [percent,hexchars.getD (c.toNat/16) 0,hexchars.getD (c.toNat%16) 0]

-- The loop of util_url_escape.
def escapeLoop (room : Nat) : List UInt8 → List UInt8 → Option (List UInt8)
  | [],out => some out
  | c::source,out => (emit room out (escapeChar c)).bind (escapeLoop room source)

-- util_url_escape with its block; the length is a size_t.
def utilUrlEscape (src : List UInt8) : Option (List UInt8) :=
  let room := src.length*3+1
  (escapeLoop room src []).bind fun dst => (emit room dst [0]).map fun _ => dst

-- The loop of util_url_unescape on the characters from i up to `len`; the inner none is NULL.
def unescapeLoop (room : Nat) : List UInt8 → List UInt8 → Option (Option (List UInt8))
  | [],dst => some (some dst)
  | c::rest,dst =>
    if c = percent then
      match rest with
      | a::b::rest =>
        if hex a = -1 ∨ hex b = -1 then some none
        else (emit room dst [UInt8.ofNat (hex a*16+hex b).toNat]).bind (unescapeLoop room rest)
      | _ => some none
    else if c = hash then some (some dst)
    else if c = 0 then some none
    else (emit room dst [c]).bind (unescapeLoop room rest)

-- util_url_unescape with its block; here the length is an int.
def utilUrlUnescape (src : List UInt8) : Option (Option (List UInt8)) :=
  let len := toInt32 src.length
  (checked (len+1)).bind fun size => (allocate size).bind fun room =>
    (unescapeLoop room (src.take len.toNat) []).bind fun
      | none => some none
      | some dst => (emit room dst [0]).map fun _ => some dst

def isAlnum (c : UInt8) : Bool := (48 ≤ c ∧ c ≤ 57) || (65 ≤ c ∧ c ≤ 90) || (97 ≤ c ∧ c ≤ 122)

-- Letters, digits, and '%' with two hex digits.
inductive Escaped : List UInt8 → Prop where
  | nil : Escaped []
  | plain : isAlnum c = true → Escaped rest → Escaped (c::rest)
  | code : hex a ≠ -1 → hex b ≠ -1 → Escaped rest → Escaped (percent::a::b::rest)

def FollowedByHex (rest : List UInt8) : Prop := ∃ a b more, rest = a::b::more ∧ hex a ≠ -1 ∧ hex b ≠ -1

-- Before any '#', a '%' is not followed by two hex digits.
def Malformed (src : List UInt8) : Prop := ∃ front rest, src = front++percent::rest ∧ hash ∉ front ∧ ¬FollowedByHex rest

def RoundTrip (s : List UInt8) : Prop := ∃ text, utilUrlEscape s = some text ∧ utilUrlUnescape text = some (some s)

-- No write outside, and NULL for the malformed strings and no others.
def UnescapesRight (src : List UInt8) : Prop :=
  ∃ result, utilUrlUnescape src = some result ∧ (result = none ↔ Malformed src)

-- The length of the escaped string.
def escapedLength (s : List UInt8) : Nat := s.length+2*s.countP (!safe ·)

-- The length is a proper int, or becomes one that shows what the whole string is.
def LengthFits (src : List UInt8) : Prop :=
  0 ≤ toInt32 src.length ∧ toInt32 src.length < 2^31-1 ∧
    (Malformed (src.take (toInt32 src.length).toNat) ↔ Malformed src)

theorem every_byte {P : UInt8 → Prop} (values : ∀ n < 256, P (UInt8.ofNat n)) (c : UInt8) : P c := by
  have value := values c.toNat c.toNat_lt
  rwa [UInt8.ofNat_toNat] at value

theorem safe_eq (c : UInt8) : safe c = isAlnum c := every_byte (P := fun c => safe c = isAlnum c) (by decide +kernel) c

theorem alnum_ne (c : UInt8) : isAlnum c = true → c ≠ percent ∧ c ≠ hash ∧ c ≠ 0 :=
  every_byte (P := fun c => isAlnum c = true → c ≠ percent ∧ c ≠ hash ∧ c ≠ 0) (by decide +kernel) c

theorem hexchars_hex : ∀ n < 16, hex (hexchars.getD n 0) = n ∧ hexchars.getD n 0 ≠ 0 := by decide +kernel

theorem hex_ne (a : UInt8) : hex a ≠ -1 → a ≠ percent ∧ a ≠ hash ∧ a ≠ 0 :=
  every_byte (P := fun a => hex a ≠ -1 → a ≠ percent ∧ a ≠ hash ∧ a ≠ 0) (by decide +kernel) a

theorem digits_of (c : UInt8) : hex (hexchars.getD (c.toNat/16) 0) ≠ -1 ∧ hex (hexchars.getD (c.toNat%16) 0) ≠ -1 ∧
    UInt8.ofNat (hex (hexchars.getD (c.toNat/16) 0)*16+hex (hexchars.getD (c.toNat%16) 0)).toNat = c := by
  have small := c.toNat_lt
  rw [(hexchars_hex (c.toNat/16) (by omega)).1,(hexchars_hex (c.toNat%16) (by omega)).1]
  refine ⟨by omega,by omega,?_⟩
  have whole : ((c.toNat/16 : Nat) : Int)*16+((c.toNat%16 : Nat) : Int) = (c.toNat : Int) := by omega
  rw [whole,Int.toNat_natCast,UInt8.ofNat_toNat]

theorem length_escapeChar (c : UInt8) : (escapeChar c).length = 1+2*(if safe c then 0 else 1) := by
  unfold escapeChar
  split <;> rfl

def escaped (s : List UInt8) : List UInt8 := s.flatMap escapeChar

theorem length_escaped (s : List UInt8) : (escaped s).length = escapedLength s := by
  induction s with
  | nil => rfl
  | cons c s ih =>
    have parts : escaped (c::s) = escapeChar c++escaped s := List.flatMap_cons
    rw [parts,List.length_append,length_escapeChar,ih,escapedLength,escapedLength,List.length_cons,List.countP_cons]
    cases safe c
    · simp only [Bool.not_false,Bool.false_eq_true,if_true,if_false]
      omega
    · simp only [Bool.not_true,Bool.false_eq_true,if_true,if_false]
      omega

theorem escapedLength_le (s : List UInt8) : s.length ≤ escapedLength s ∧ escapedLength s ≤ s.length*3 := by
  have few := List.countP_le_length (p := fun c => !safe c) (l := s)
  unfold escapedLength
  omega

theorem escapeLoop_eq (room : Nat) (s dst : List UInt8) (inside : dst.length ≤ room) :
    escapeLoop room s dst = emit room dst (escaped s) := by
  induction s generalizing dst with
  | nil => exact (emit_eq inside).trans (congrArg some (List.append_nil dst)) |>.symm
  | cons c s ih =>
    have parts : escaped (c::s) = escapeChar c++escaped s := List.flatMap_cons
    rw [escapeLoop,parts,←emit_append]
    unfold emit
    split
    · rename_i fits
      rw [Option.bind_some,Option.bind_some]
      apply ih
      rw [List.length_append]
      exact fits
    · rfl

-- The block of util_url_escape is large enough for every string.
theorem escape_eq (s : List UInt8) : utilUrlEscape s = some (escaped s) := by
  have width := length_escaped s
  have bound := escapedLength_le s
  have all : ([] : List UInt8).length+(escaped s).length ≤ s.length*3+1 := by
    rw [List.length_nil]
    omega
  have nul : (escaped s).length+[(0 : UInt8)].length ≤ s.length*3+1 := by
    rw [List.length_singleton]
    omega
  unfold utilUrlEscape
  dsimp only
  rw [escapeLoop_eq _ _ _ (Nat.zero_le _),emit_eq all,Option.bind_some,List.nil_append,emit_eq nul,Option.map_some]

theorem escaped_shape (s : List UInt8) : Escaped (escaped s) := by
  induction s with
  | nil => exact .nil
  | cons c s ih =>
    have parts : escaped (c::s) = escapeChar c++escaped s := List.flatMap_cons
    rw [parts,escapeChar]
    split
    · rename_i letter
      exact .plain ((safe_eq c).symm.trans letter) ih
    · obtain ⟨first,second,_⟩ := digits_of c
      exact .code first second ih

theorem Escaped.clean (shape : Escaped text) : hash ∉ text ∧ 0 ∉ text := by
  induction shape with
  | nil => exact ⟨List.not_mem_nil,List.not_mem_nil⟩
  | plain letter rest ih =>
    obtain ⟨_,no_hash,no_nul⟩ := alnum_ne _ letter
    exact ⟨List.not_mem_cons_of_ne_of_not_mem no_hash.symm ih.1,List.not_mem_cons_of_ne_of_not_mem no_nul.symm ih.2⟩
  | code first second rest ih =>
    obtain ⟨_,hash_a,nul_a⟩ := hex_ne _ first
    obtain ⟨_,hash_b,nul_b⟩ := hex_ne _ second
    have before : hash ≠ percent ∧ (0 : UInt8) ≠ percent := by decide
    constructor
    · exact List.not_mem_cons_of_ne_of_not_mem before.1 (List.not_mem_cons_of_ne_of_not_mem hash_a.symm
        (List.not_mem_cons_of_ne_of_not_mem hash_b.symm ih.1))
    · exact List.not_mem_cons_of_ne_of_not_mem before.2 (List.not_mem_cons_of_ne_of_not_mem nul_a.symm
        (List.not_mem_cons_of_ne_of_not_mem nul_b.symm ih.2))

theorem urlUnescape_other {c : UInt8} (no_percent : c ≠ percent) (no_hash : c ≠ hash) (rest : List UInt8) :
    urlUnescape (c::rest) = (urlUnescape rest).map (c::·) := by
  conv_lhs => unfold urlUnescape
  rw [if_neg no_percent,if_neg no_hash]

theorem urlUnescape_hash (rest : List UInt8) : urlUnescape (hash::rest) = some [] := by
  unfold urlUnescape
  rw [if_neg percent_hash.symm,if_pos rfl]

theorem urlUnescape_code {a b : UInt8} (valid : ¬(hex a = -1 ∨ hex b = -1)) (rest : List UInt8) :
    urlUnescape (percent::a::b::rest) = (urlUnescape rest).map (UInt8.ofNat (hex a*16+hex b).toNat::·) := by
  rw [urlUnescape,if_pos rfl,if_neg valid]

theorem urlUnescape_bad {rest : List UInt8} (bad : ¬FollowedByHex rest) : urlUnescape (percent::rest) = none := by
  match rest with
  | [] | [_] => rfl
  | a::b::rest =>
    rw [urlUnescape,if_pos rfl,if_pos]
    by_contra valid
    exact bad ⟨a,b,rest,rfl,not_or.mp valid⟩

theorem urlUnescape_escaped (s : List UInt8) : urlUnescape (escaped s) = some s := by
  induction s with
  | nil => rfl
  | cons c s ih =>
    have parts : escaped (c::s) = escapeChar c++escaped s := List.flatMap_cons
    rw [parts,escapeChar]
    split
    · rename_i letter
      obtain ⟨no_percent,no_hash,_⟩ := alnum_ne c ((safe_eq c).symm.trans letter)
      rw [List.singleton_append,urlUnescape_other no_percent no_hash,ih,Option.map_some]
    · obtain ⟨first,second,value⟩ := digits_of c
      simp only [List.cons_append,List.nil_append]
      rw [urlUnescape_code (not_or.mpr ⟨first,second⟩),ih,Option.map_some,value]

theorem src_induction {P : List UInt8 → Prop} (nil : P []) (code : ∀ a b rest, hex a ≠ -1 → hex b ≠ -1 → P rest →
    P (percent::a::b::rest))
    (bad : ∀ rest, ¬FollowedByHex rest → P (percent::rest)) (stop : ∀ rest, P (hash::rest))
    (other : ∀ c rest, c ≠ percent → c ≠ hash → P rest → P (c::rest)) (src : List UInt8) : P src := by
  induction src using urlUnescape.induct with
  | case1 => exact nil
  | case2 a b rest invalid =>
    apply bad
    rintro ⟨a',b',more,split,digits⟩
    cases split
    exact not_or.mpr digits invalid
  | case3 a b rest valid ih =>
    obtain ⟨first,second⟩ := not_or.mp valid
    exact code a b rest first second ih
  | case4 rest short =>
    apply bad
    rintro ⟨a,b,more,split,_⟩
    exact short a b more split
  | case5 rest no_percent => exact stop rest
  | case6 c rest no_percent no_hash ih => exact other c rest no_percent no_hash ih

theorem length_unescaped {src : List UInt8} : ∀ dst, urlUnescape src = some dst → dst.length ≤ src.length := by
  induction src using src_induction with
  | nil =>
    intro dst read
    cases Option.some.inj read
    exact Nat.le_refl _
  | code a b rest first second ih =>
    intro dst read
    rw [urlUnescape_code (not_or.mpr ⟨first,second⟩)] at read
    obtain ⟨more,later,same⟩ := Option.map_eq_some_iff.mp read
    have shorter := ih more later
    rw [←same]
    simp only [List.length_cons]
    omega
  | bad rest bad =>
    intro dst read
    rw [urlUnescape_bad bad] at read
    cases read
  | stop rest =>
    intro dst read
    rw [urlUnescape_hash] at read
    cases Option.some.inj read
    exact Nat.zero_le _
  | other c rest no_percent no_hash ih =>
    intro dst read
    rw [urlUnescape_other no_percent no_hash] at read
    obtain ⟨more,later,same⟩ := Option.map_eq_some_iff.mp read
    rw [←same,List.length_cons,List.length_cons]
    exact Nat.succ_le_succ (ih more later)

theorem malformed_other {c : UInt8} (no_percent : c ≠ percent) (no_hash : c ≠ hash) (rest : List UInt8) :
    Malformed (c::rest) ↔ Malformed rest := by
  constructor
  · intro ⟨front,behind,split,clean,bad⟩
    cases front with
    | nil => exact absurd (List.cons.inj split).1 no_percent
    | cons b front => exact ⟨front,behind,(List.cons.inj split).2,fun member =>
      clean (List.mem_cons_of_mem _ member),bad⟩
  · intro ⟨front,behind,split,clean,bad⟩
    exact ⟨c::front,behind,congrArg (c::·) split,List.not_mem_cons_of_ne_of_not_mem no_hash.symm clean,bad⟩

theorem malformed_code {a b : UInt8} (first : hex a ≠ -1) (second : hex b ≠ -1) (rest : List UInt8) :
    Malformed (percent::a::b::rest) ↔ Malformed rest := by
  obtain ⟨percent_a,hash_a,_⟩ := hex_ne a first
  obtain ⟨percent_b,hash_b,_⟩ := hex_ne b second
  rw [←malformed_other percent_b hash_b rest,←malformed_other percent_a hash_a (b::rest)]
  constructor
  · intro ⟨front,behind,split,clean,bad⟩
    cases front with
    | nil => exact absurd ⟨a,b,rest,((List.cons.inj split).2).symm,first,second⟩ bad
    | cons c front => exact ⟨front,behind,(List.cons.inj split).2,fun member =>
      clean (List.mem_cons_of_mem _ member),bad⟩
  · intro ⟨front,behind,split,clean,bad⟩
    exact ⟨percent::front,behind,congrArg (percent::·) split,
      List.not_mem_cons_of_ne_of_not_mem percent_hash.symm clean,bad⟩

theorem urlUnescape_none (src : List UInt8) : urlUnescape src = none ↔ Malformed src := by
  induction src using src_induction with
  | nil =>
    constructor
    · intro nothing
      cases nothing
    · intro ⟨front,rest,split,_⟩
      simp at split
  | code a b rest first second ih =>
    rw [malformed_code first second,urlUnescape_code (not_or.mpr ⟨first,second⟩),Option.map_eq_none_iff,ih]
  | bad rest bad => exact ⟨fun _ => ⟨[],rest,rfl,List.not_mem_nil,bad⟩,fun _ => urlUnescape_bad bad⟩
  | stop rest =>
    rw [urlUnescape_hash]
    constructor
    · intro nothing
      cases nothing
    · intro ⟨front,behind,split,clean,_⟩
      cases front with
      | nil => exact absurd (List.cons.inj split).1.symm percent_hash
      | cons c front => exact absurd ((List.cons.inj split).1 ▸ List.mem_cons_self) clean
  | other c rest no_percent no_hash ih =>
    rw [malformed_other no_percent no_hash,urlUnescape_other no_percent no_hash,Option.map_eq_none_iff,ih]

theorem urlUnescape_append {src : List UInt8} (rest : List UInt8) : ∀ dst, hash ∉ src → urlUnescape src = some dst →
    urlUnescape (src++rest) = (urlUnescape rest).map (dst++·) := by
  have behind (c : UInt8) (dst : List UInt8) : (urlUnescape rest).map ((c::dst)++·) =
    ((urlUnescape rest).map (dst++·)).map (c::·) := by
    rw [Option.map_map]
    rfl
  induction src using src_induction with
  | nil =>
    intro dst clean read
    cases Option.some.inj read
    exact Option.map_id'.symm
  | code a b src first second ih =>
    intro dst clean read
    rw [urlUnescape_code (not_or.mpr ⟨first,second⟩)] at read
    obtain ⟨more,later,same⟩ := Option.map_eq_some_iff.mp read
    have clean' : hash ∉ src := fun member =>
      clean (List.mem_cons_of_mem _ (List.mem_cons_of_mem _ (List.mem_cons_of_mem _ member)))
    rw [←same,behind,←ih more clean' later]
    exact urlUnescape_code (not_or.mpr ⟨first,second⟩) (src++rest)
  | bad src bad =>
    intro dst clean read
    rw [urlUnescape_bad bad] at read
    cases read
  | stop src =>
    intro dst clean
    exact absurd List.mem_cons_self clean
  | other c src no_percent no_hash ih =>
    intro dst clean read
    rw [urlUnescape_other no_percent no_hash] at read
    obtain ⟨more,later,same⟩ := Option.map_eq_some_iff.mp read
    rw [←same,behind,←ih more (fun member => clean (List.mem_cons_of_mem _ member)) later]
    exact urlUnescape_other no_percent no_hash (src++rest)

theorem unescapeLoop_eq (room : Nat) (src : List UInt8) : ∀ dst, 0 ∉ src → dst.length+src.length ≤ room →
    unescapeLoop room src dst = some ((urlUnescape src).map (dst++·)) := by
  have behind (c : UInt8) (src dst : List UInt8) : ((urlUnescape src).map (c::·)).map (dst++·) =
    (urlUnescape src).map ((dst++[c])++·) := by
    rw [Option.map_map]
    apply congrArg (Option.map · _)
    funext rest
    have shifted : dst++(c::rest) = dst++[c]++rest := by rw [List.append_assoc,List.singleton_append]
    exact shifted
  induction src using src_induction with
  | nil =>
    intro dst clean inside
    rw [unescapeLoop,urlUnescape,Option.map_some,List.append_nil]
  | code a b src first second ih =>
    intro dst clean inside
    simp only [List.length_cons] at inside
    have clean' : 0 ∉ src := fun member =>
      clean (List.mem_cons_of_mem _ (List.mem_cons_of_mem _ (List.mem_cons_of_mem _ member)))
    have one {c : UInt8} : dst.length+[c].length ≤ room := by
      rw [List.length_singleton]
      omega
    rw [urlUnescape_code (not_or.mpr ⟨first,second⟩),behind,unescapeLoop,if_pos rfl,
      if_neg (not_or.mpr ⟨first,second⟩),emit_eq one,
      Option.bind_some]
    apply ih _ clean'
    rw [List.length_append,List.length_singleton]
    omega
  | bad src bad =>
    intro dst clean inside
    rw [urlUnescape_bad bad]
    rcases src with _ | ⟨a,_ | ⟨b,rest⟩⟩
    · rfl
    · rfl
    · rw [unescapeLoop,if_pos rfl,if_pos]
      · rfl
      · by_contra valid
        exact bad ⟨a,b,rest,rfl,not_or.mp valid⟩
  | stop src =>
    intro dst clean inside
    conv_lhs => unfold unescapeLoop
    rw [if_neg percent_hash.symm,if_pos rfl,urlUnescape_hash,Option.map_some,List.append_nil]
  | other c src no_percent no_hash ih =>
    intro dst clean inside
    simp only [List.length_cons] at inside
    have one : dst.length+[c].length ≤ room := by
      rw [List.length_singleton]
      omega
    have no_nul : c ≠ 0 := fun same => clean (same ▸ List.mem_cons_self)
    rw [urlUnescape_other no_percent no_hash,behind]
    conv_lhs => unfold unescapeLoop
    rw [if_neg no_percent,if_neg no_hash,if_neg no_nul,emit_eq one,Option.bind_some]
    apply ih _ fun member => clean (List.mem_cons_of_mem _ member)
    rw [List.length_append,List.length_singleton]
    omega

theorem unescape_eq (src : List UInt8) (clean : 0 ∉ src) : utilUrlUnescape src =
    if 0 ≤ toInt32 src.length ∧ toInt32 src.length < 2^31-1 then some
    (urlUnescape (src.take (toInt32 src.length).toNat)) else none := by
  obtain ⟨low,high⟩ := toInt32_range src.length
  unfold utilUrlUnescape
  dsimp only
  by_cases sum : -2^31 ≤ toInt32 src.length+1 ∧ toInt32 src.length+1 < 2^31
  · rw [checked_bind sum]
    by_cases size : 0 ≤ toInt32 src.length+1
    · rw [allocate_bind size]
      by_cases positive : 0 ≤ toInt32 src.length
      · have fewer : (src.take (toInt32 src.length).toNat).length ≤ (toInt32 src.length).toNat := List.length_take_le ..
        have room : ([] : List UInt8).length+(src.take (toInt32 src.length).toNat).length ≤
          (toInt32 src.length+1).toNat := by
          rw [List.length_nil]
          omega
        rw [if_pos ⟨positive,by omega⟩,
          unescapeLoop_eq _ _ _ (fun member => clean (List.mem_of_mem_take member)) room,Option.bind_some]
        cases read : urlUnescape (src.take (toInt32 src.length).toNat) with
        | none => rfl
        | some dst =>
          have shorter := length_unescaped dst read
          have nul : dst.length+[(0 : UInt8)].length ≤ (toInt32 src.length+1).toNat := by
            rw [List.length_singleton]
            omega
          simp only [Option.map_some,List.nil_append,emit_eq nul]
      · -- the length -1 leaves no room for the NUL
        have zero : (toInt32 src.length+1).toNat = 0 := by omega
        rw [if_neg fun fits => positive fits.1,zero,Int.toNat_of_nonpos (by omega),List.take_zero]
        rfl
    · rw [allocate,if_neg size,Option.bind_none,if_neg (by omega)]
  · rw [checked,if_neg sum,Option.bind_none,if_neg (by omega)]

theorem unescapes_iff (src : List UInt8) (clean : 0 ∉ src) : UnescapesRight src ↔ LengthFits src := by
  unfold UnescapesRight LengthFits
  rw [unescape_eq src clean]
  constructor
  · intro ⟨result,read,exact⟩
    split at read
    · rename_i fits
      cases Option.some.inj read
      rw [urlUnescape_none] at exact
      exact ⟨fits.1,fits.2,exact⟩
    · cases read
  · intro ⟨positive,small,same⟩
    exact ⟨_,if_pos ⟨positive,small⟩,(urlUnescape_none _).trans same⟩

-- Only a '#' ends a string with nothing decoded.
theorem urlUnescape_empty {c : UInt8} (read : urlUnescape (c::rest) = some []) : c = hash := by
  by_contra no_hash
  by_cases escape : c = percent
  · subst escape
    by_cases digits : FollowedByHex rest
    · obtain ⟨a,b,more,split,first,second⟩ := digits
      subst split
      rw [urlUnescape_code (not_or.mpr ⟨first,second⟩)] at read
      obtain ⟨_,_,same⟩ := Option.map_eq_some_iff.mp read
      cases same
    · rw [urlUnescape_bad digits] at read
      cases read
  · rw [urlUnescape_other escape no_hash] at read
    obtain ⟨_,_,same⟩ := Option.map_eq_some_iff.mp read
    cases same

theorem roundTrip_iff (s : List UInt8) : RoundTrip s ↔ escapedLength s < 2^31-1 := by
  have width := length_escaped s
  obtain ⟨no_hash,no_nul⟩ := (escaped_shape s).clean
  unfold RoundTrip
  rw [escape_eq]
  constructor
  · intro ⟨text,sent,back⟩
    cases Option.some.inj sent
    rw [unescape_eq _ no_nul] at back
    split at back
    · rename_i fits
      by_contra large
      have proper : (toInt32 (escaped s).length).toNat < (escaped s).length := by
        have below := toInt32_le (n := (escaped s).length)
        omega
      -- then only a part of the text is decoded, and the rest would have to be empty
      have whole := urlUnescape_append ((escaped s).drop (toInt32 (escaped s).length).toNat) s
        (fun member => no_hash (List.mem_of_mem_take member)) (Option.some.inj back)
      rw [List.take_append_drop,urlUnescape_escaped] at whole
      obtain ⟨more,later,same⟩ := Option.map_eq_some_iff.mp whole.symm
      have nothing : more = [] := List.append_right_eq_self.mp same
      cases tail : (escaped s).drop (toInt32 (escaped s).length).toNat with
      | nil =>
        have all := List.drop_eq_nil_iff.mp tail
        omega
      | cons c rest =>
        rw [tail,nothing] at later
        have member : c ∈ (escaped s).drop (toInt32 (escaped s).length).toNat := tail ▸ List.mem_cons_self
        exact no_hash (urlUnescape_empty later ▸ List.mem_of_mem_drop member)
    · cases back
  · intro short
    have len : toInt32 (escaped s).length = (escaped s).length := toInt32_small (by omega) (by omega)
    refine ⟨_,rfl,?_⟩
    rw [unescape_eq _ no_nul,len,if_pos ⟨by omega,by omega⟩,Int.toNat_natCast,List.take_length,urlUnescape_escaped]

-- Escaping is right for every string; unescaping it gives the string back, and any other string
-- is unescaped or refused as it should, while the length is a proper int.
theorem url_lengths (s src : List UInt8) (clean : 0 ∉ src) :
    (∃ text, utilUrlEscape s = some text ∧ Escaped text) ∧ (RoundTrip s ↔ escapedLength s < 2^31-1) ∧
    (UnescapesRight src ↔ LengthFits src) :=
  ⟨⟨_,escape_eq s,escaped_shape s⟩,roundTrip_iff s,unescapes_iff src clean⟩

theorem url_lengths_title : 0 ∉ ascii "a%2" ∧ (∃ text, utilUrlEscape (ascii "a b#") = some text ∧ Escaped text) ∧
    (RoundTrip (ascii "a b#") ↔ escapedLength (ascii "a b#") < 2^31-1) ∧ (UnescapesRight (ascii "a%2") ↔
    LengthFits (ascii "a%2")) :=
  ⟨by decide,url_lengths (ascii "a b#") (ascii "a%2") (by decide)⟩

-- 2^31 characters: the length is a negative int.
theorem long_text : ¬RoundTrip (List.replicate (2^31) 97) := by
  intro trip
  have short := (roundTrip_iff _).mp trip
  have long := (escapedLength_le (List.replicate (2^31) 97)).1
  rw [List.length_replicate] at long
  omega

end Icecast.Uri
