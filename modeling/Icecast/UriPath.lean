import Mathlib.Data.List.TakeWhile
import Icecast.Lib.Bytes

namespace Icecast.Uri
open Bytes

def slash : UInt8 := 47
def backslash : UInt8 := 92
def dot : UInt8 := 46
def percent : UInt8 := 37
def hash : UInt8 := 35

def hex (c : UInt8) : Int :=
  if 48 ≤ c ∧ c ≤ 57 then c.toNat-48
  else if 65 ≤ c ∧ c ≤ 70 then c.toNat-65+10
  else if 97 ≤ c ∧ c ≤ 102 then c.toNat-97+10
  else -1

-- util_url_unescape, on the characters of the string.
def urlUnescape : List UInt8 → Option (List UInt8)
  | [] => some []
  | c::rest =>
    if c = percent then
      match rest with
      | a::b::rest =>
        if hex a = -1 ∨ hex b = -1 then none
        else (urlUnescape rest).map (UInt8.ofNat (hex a*16+hex b).toNat::·)
      | _ => none
    else if c = hash then some []
    else (urlUnescape rest).map (c::·)

-- The loop of verify_path.
def verifyFrom (dir indotseq : Bool) : List UInt8 → Bool
  | [] => true
  | c::path =>
    if c = slash ∨ c = backslash then
      if indotseq then false else if dir then false else verifyFrom true indotseq path
    else verifyFrom false (if dir || indotseq then decide (c = dot) else indotseq) path

def verifyPath (path : List UInt8) : Bool := verifyFrom false false path

-- util_normalise_uri
def normaliseUri (uri : List UInt8) : Option (List UInt8) :=
  if uri.head? ≠ some slash then none else
  (urlUnescape uri).bind fun decoded =>
    let path := cstr decoded
    if verifyPath path then some path else none

-- What percent-decoding means; none on an escape that is incomplete or not hexadecimal.
def percentDecode : List UInt8 → Option (List UInt8)
  | [] => some []
  | c::rest =>
    if c = percent then
      match rest with
      | a::b::rest =>
        if hex a = -1 ∨ hex b = -1 then none
        else (percentDecode rest).map (UInt8.ofNat (hex a*16+hex b).toNat::·)
      | _ => none
    else (percentDecode rest).map (c::·)

-- What stands before a '#'.
def beforeHash (uri : List UInt8) : List UInt8 := uri.takeWhile (· != hash)

-- The path a URI names: its part before a '#', decoded, up to a decoded NUL.
def decodedPath (uri : List UInt8) : Option (List UInt8) := (percentDecode (beforeHash uri)).map cstr

def isSeparator (c : UInt8) : Bool := c = slash || c = backslash

def components (path : List UInt8) : List (List UInt8) := path.splitOnP isSeparator

-- How deep under the starting directory the components lead; none once they leave it.
def resolve : Nat → List (List UInt8) → Option Nat
  | depth,[] => some depth
  | depth,c::rest =>
    if c = [] ∨ c = [dot] then resolve depth rest
    else if c = [dot,dot] then
      match depth with
      | 0 => none
      | depth+1 => resolve depth rest
    else resolve (depth+1) rest

def Contained (path : List UInt8) : Prop := (resolve 0 (components path)).isSome = true

instance : Decidable (Contained path) := inferInstanceAs (Decidable (_ = true))

-- The property of util_normalise_uri at one URI.
structure Normalises (uri : List UInt8) : Prop where
  path : ∀ path, normaliseUri uri = some path → decodedPath uri = some path ∧ path.head? = some slash ∧ Contained path
  escapes : percentDecode (beforeHash uri) = none → normaliseUri uri = none
  leaving : ∀ path, decodedPath uri = some path → ¬Contained path → normaliseUri uri = none

theorem beforeHash_hash : beforeHash (hash::rest) = [] := by simp [beforeHash]

theorem beforeHash_cons (other : c ≠ hash) : beforeHash (c::rest) = c::beforeHash rest := by simp [beforeHash,other]

theorem hex_hash : hex hash = -1 := by decide

theorem percent_hash : percent ≠ hash := by decide

-- An escape that is cut off by the '#' is incomplete.
theorem percentDecode_short (short : ∀ a b rest, cs ≠ a::b::rest) : percentDecode (percent::cs) = none := by
  unfold percentDecode
  match cs with
  | [] | [_] => rfl
  | a::b::rest => exact absurd rfl (short a b rest)

theorem percentDecode_escape (invalid : hex a = -1 ∨ hex b = -1) : percentDecode (percent::a::b::rest) = none := by
  unfold percentDecode
  simp [invalid]

-- The code decodes on the fly what is before the '#'.
theorem urlUnescape_eq (uri : List UInt8) : urlUnescape uri = percentDecode (beforeHash uri) := by
  induction uri using urlUnescape.induct with
  | case1 => rfl
  | case2 a b rest invalid =>
    have code : urlUnescape (percent::a::b::rest) = none := by simp [urlUnescape,invalid]
    rw [code,beforeHash_cons percent_hash]
    by_cases first : a = hash
    · rw [first,beforeHash_hash,percentDecode_short (by simp)]
    · rw [beforeHash_cons first]
      by_cases second : b = hash
      · rw [second,beforeHash_hash,percentDecode_short (by simp)]
      · rw [beforeHash_cons second,percentDecode_escape invalid]
  | case3 a b rest valid ih =>
    have digits := not_or.mp valid
    have first : a ≠ hash := fun same => digits.1 (same ▸ hex_hash)
    have second : b ≠ hash := fun same => digits.2 (same ▸ hex_hash)
    rw [beforeHash_cons percent_hash,beforeHash_cons first,beforeHash_cons second]
    simp [urlUnescape,percentDecode,valid,ih]
  | case4 rest short =>
    have code : urlUnescape (percent::rest) = none := by
      unfold urlUnescape
      match rest with
      | [] | [_] => rfl
      | a::b::rest => exact absurd rfl (short a b rest)
    rw [code,beforeHash_cons percent_hash,percentDecode_short]
    intro a b more same
    -- the characters before the '#' are a prefix
    obtain ⟨tail,split⟩ := List.takeWhile_prefix (l := rest) (· != hash)
    rw [beforeHash] at same
    rw [same] at split
    exact short a b (more++tail) split.symm
  | case5 rest other =>
    rw [beforeHash_hash,urlUnescape.eq_def]
    simp [percentDecode,Ne.symm percent_hash]
  | case6 c rest other others ih =>
    rw [beforeHash_cons others,urlUnescape.eq_def,percentDecode.eq_def]
    simp [other,others,ih]

theorem verifyFrom_component (plain : ∀ c ∈ cs, isSeparator c = false) (indotseq : Bool) :
    verifyFrom false indotseq (cs++path) = verifyFrom false (indotseq && cs.all (· = dot)) path := by
  induction cs generalizing indotseq with
  | nil => simp
  | cons c cs ih =>
    have here := plain c List.mem_cons_self
    simp only [isSeparator,Bool.or_eq_false_iff,decide_eq_false_iff_not] at here
    rw [List.cons_append,verifyFrom,if_neg (not_or.mpr here),
      ih (fun c member => plain c (List.mem_cons_of_mem _ member))]
    cases indotseq <;> simp

theorem verifyFrom_start (plain : ∀ c ∈ cs, isSeparator c = false) (nonempty : cs ≠ []) :
    verifyFrom true false (cs++path) = verifyFrom false (cs.all (· = dot)) path := by
  cases cs with
  | nil => exact absurd rfl nonempty
  | cons c cs =>
    have here := plain c List.mem_cons_self
    simp only [isSeparator,Bool.or_eq_false_iff,decide_eq_false_iff_not] at here
    rw [List.cons_append,verifyFrom,if_neg (not_or.mpr here),verifyFrom_component fun c member =>
      plain c (List.mem_cons_of_mem _ member)]
    simp

-- A component that a separator follows goes down; the last one may be "..".
theorem resolve_verified (depth : Nat) (accepted : verifyFrom true false path = true) :
    (resolve depth (components path)).isSome = false ↔ depth = 0 ∧ path = [dot,dot] := by
  obtain ⟨n,length⟩ : ∃ n, path.length = n := ⟨_,rfl⟩
  induction n using Nat.strongRecOn generalizing path depth with
  | ind n ih =>
    have split := List.takeWhile_append_dropWhile (p := fun c => !isSeparator c) (l := path)
    have plain : ∀ c ∈ path.takeWhile (fun c => !isSeparator c), isSeparator c = false := fun c member => by
      simpa using List.mem_takeWhile_imp member
    generalize path.takeWhile (fun c => !isSeparator c) = first at split plain
    cases rest : path.dropWhile (fun c => !isSeparator c) with
    | nil =>
      rw [rest,List.append_nil] at split
      subst split
      rw [components,List.splitOnP_eq_singleton plain]
      simp only [resolve]
      by_cases up : first = [dot,dot]
      · subst up
        cases depth <;> simp
      · by_cases stay : first = [] ∨ first = [dot]
        · simp [stay,up]
        · simp [stay,up]
    | cons sep more =>
      have separates : isSeparator sep = true := by
        have := List.head?_dropWhile_not (fun c => !isSeparator c) path
        rw [rest] at this
        simpa using this
      rw [rest] at split
      subst split
      have slashes : sep = slash ∨ sep = backslash := by simpa [isSeparator] using separates
      have nonempty : first ≠ [] := by
        rintro rfl
        simp [verifyFrom,slashes] at accepted
      rw [verifyFrom_start plain nonempty,verifyFrom,if_pos slashes] at accepted
      cases dots : first.all (· = dot) with
      | true => simp [dots] at accepted
      | false =>
        simp only [dots,Bool.false_eq_true,if_false] at accepted
        have apart : ∀ cs : List UInt8, cs.all (· = dot) = true → first ≠ cs :=
          fun cs all same => by simp [same,all] at dots
        rw [components,List.splitOnP_append_cons_of_forall_mem plain sep separates]
        simp only [resolve,if_neg (not_or.mpr ⟨nonempty,apart [dot] (by decide)⟩),if_neg (apart [dot,dot] (by decide))]
        have deeper := ih more.length (by rw [←length]; simp; omega) (depth+1) accepted rfl
        rw [←components,deeper]
        constructor
        · rintro ⟨impossible,_⟩
          cases impossible
        · rintro ⟨_,same⟩
          have member : sep ∈ first++sep::more := by simp
          rw [same] at member
          rcases slashes with rfl | rfl <;> exact absurd member (by decide)

theorem normaliseUri_eq (starts : uri.head? = some slash) :
    normaliseUri uri = (decodedPath uri).bind fun path => if verifyPath path then some path else none := by
  unfold normaliseUri decodedPath
  rw [if_neg (not_not.mpr starts),urlUnescape_eq]
  cases percentDecode (beforeHash uri) <;> rfl

theorem decodedPath_starts (starts : uri.head? = some slash) (decoded : decodedPath uri = some path) :
    ∃ rest, path = slash::rest := by
  obtain ⟨rest,rfl⟩ := List.head?_eq_some_iff.mp starts
  obtain ⟨text,found,rfl⟩ := Option.map_eq_some_iff.mp decoded
  rw [beforeHash_cons (by decide),percentDecode.eq_def] at found
  obtain ⟨tail,_,rfl⟩ := Option.map_eq_some_iff.mp
    (show (percentDecode (beforeHash rest)).map (slash::·) = some text from found)
  exact ⟨cstr tail,rfl⟩

theorem verified_contained (accepted : verifyPath (slash::rest) = true) : Contained (slash::rest) ↔
    rest ≠ [dot,dot] := by
  have leaves := resolve_verified 0 (show verifyFrom true false rest = true from accepted)
  have split : components (slash::rest) = []::components rest :=
    List.splitOnP_append_cons_of_forall_mem
      (show ∀ x ∈ ([] : List UInt8), isSeparator x = false by simp) slash (by decide) rest
  rw [Contained,split]
  simp only [resolve,true_or,if_true,ne_eq]
  rw [←Bool.not_eq_false,leaves]
  simp

theorem normaliseUri_contained (uri : List UInt8) :
    Normalises uri ↔ ¬(uri.head? = some slash ∧ decodedPath uri = some [slash,dot,dot]) := by
  constructor
  · rintro sound ⟨starts,decoded⟩
    have accepted : normaliseUri uri = some [slash,dot,dot] := by
      rw [normaliseUri_eq starts,decoded]
      rfl
    exact absurd (sound.path _ accepted).2.2 (by decide)
  · intro other
    by_cases starts : uri.head? = some slash
    · have verified : ∀ path, decodedPath uri = some path → verifyPath path = true →
        path.head? = some slash ∧ Contained path := by
        intro path decoded accepted
        obtain ⟨rest,rfl⟩ := decodedPath_starts starts decoded
        refine ⟨rfl,(verified_contained accepted).mpr ?_⟩
        rintro rfl
        exact other ⟨starts,decoded⟩
      refine ⟨fun path found => ?_,fun broken => ?_,fun path decoded leaves => ?_⟩
      · rw [normaliseUri_eq starts] at found
        obtain ⟨text,decoded,found⟩ := Option.bind_eq_some_iff.mp found
        split at found
        · cases found
          exact ⟨decoded,verified path decoded ‹_›⟩
        · cases found
      · rw [normaliseUri_eq starts,decodedPath,broken]
        rfl
      · rw [normaliseUri_eq starts,decoded,Option.bind_some,if_neg]
        exact fun accepted => leaves (verified path decoded accepted).2
    · have absent : normaliseUri uri = none := if_pos starts
      exact ⟨fun path found => (nomatch absent.symm.trans found),fun _ => absent,fun _ _ _ => absent⟩

-- verify_path looks at a dot sequence only when a separator follows.
theorem normaliseUri_up : normaliseUri [slash,dot,dot] = some [slash,dot,dot] ∧ ¬Normalises [slash,dot,dot] :=
  ⟨rfl,fun sound => absurd (sound.path _ rfl).2.2 (by decide)⟩

end Icecast.Uri
