import Icecast.AccessList
import Icecast.Lib.AvlMap
import Icecast.Lib.Bytes
import Mathlib.Data.List.Induction
import Mathlib.Data.List.TakeWhile
import Mathlib.Order.Defs.LinearOrder

namespace Icecast.MimeTypes
open Bytes Avl AvlMap
open AccessList (lf fgets fgets_length fgets_some fgets_line fgets_last)

def hash : UInt8 := 35

def isBlank (c : UInt8) : Bool := c = 32 || c = 9

structure MimeType where
  ext : List UInt8
  type : List UInt8
deriving DecidableEq

-- _compare_mappings
def compareMappings (a b : MimeType) : Ordering := compare a.ext b.ext

instance : Std.TransCmp compareMappings := inferInstanceAs (Std.TransCmp (compareOn MimeType.ext))

-- while(fgets(line, 4095, mimefile))
def fileLines : List UInt8 → List (List UInt8)
  | [] => []
  | c::file => (fgets 4094 (c::file)).1::fileLines (fgets 4094 (c::file)).2
termination_by file => file.length
decreasing_by
  have whole := fgets_length 4094 (c::file)
  have some_read : 0 < (fgets 4094 (c::file)).1.length := fgets_some 4093 c file
  omega

-- The characters of an extension.
def inExt (c : UInt8) : Bool := !isBlank c && c != lf

-- The inner loop from `cur` on; none reads behind the terminating NUL.
def extensions (type : List UInt8) (cur : List UInt8) : Option (List MimeType) :=
  match _skipped : cur.dropWhile isBlank with
  | [] => some []
  | c::word =>
    let ext := (c::word).takeWhile inExt
    match _ended : (c::word).dropWhile inExt with
    | [] => none
    | _::rest => (extensions type rest).map fun more => if ext = [] then more else ⟨ext,type⟩::more
termination_by cur.length
decreasing_by
  have left := (List.dropWhile_suffix (l := cur) isBlank).length_le
  have right := (List.dropWhile_suffix (l := c::word) inExt).length_le
  rw [_skipped] at left
  rw [_ended,List.length_cons] at right
  omega

-- The body of the outer loop.
def parseLine (line : List UInt8) : Option (List MimeType) :=
  let text := cstr line
  if text = [] ∨ text.head? = some hash then some [] else
  match text.dropWhile (!isBlank ·) with
  | [] => some []
  | _::cur => extensions (text.takeWhile (!isBlank ·)) cur

def addMapping (tree : AvlTree MimeType) (mapping : MimeType) : AvlTree MimeType := put compareMappings mapping tree

def addLine (tree : AvlTree MimeType) (line : List UInt8) : Option (AvlTree MimeType) :=
  (parseLine line).map (·.foldl addMapping tree)

-- fserve_recheck_mime_types with the content of the file; the new tree.
def recheckMimeTypes (file : List UInt8) : Option (AvlTree MimeType) := (fileLines file).foldlM addLine .leaf

-- fserve_content_type's lookup
def mimeType (tree : AvlTree MimeType) (ext : List UInt8) : Option (List UInt8) :=
  (getByKey compareMappings ⟨ext,[]⟩ tree).map (·.type)

-- The words between blanks.
def words (text : List UInt8) : List (List UInt8) := (text.splitOnP isBlank).filter (· ≠ [])

def mappings (type : List UInt8) (exts : List (List UInt8)) : List MimeType := exts.map fun ext => ⟨ext,type⟩

def Comment (text : List UInt8) : Prop := text.head? = some hash

instance : DecidablePred Comment := fun text => inferInstanceAs (Decidable (text.head? = some hash))

-- What a line 'type ext ext ...' says. A comment says nothing.
def lineMappings (text : List UInt8) : List MimeType :=
  if Comment text then [] else
  match words text with
  | [] => []
  | type::exts => mappings type exts

-- The lines of a file, each up to a NUL in it.
def segments (file : List UInt8) : List (List UInt8) := file.splitOnP (· = lf)

def texts (file : List UInt8) : List (List UInt8) := (segments file).map cstr

def lastType (listed : List MimeType) (ext : List UInt8) : Option (List UInt8) :=
  (listed.reverse.find? (·.ext = ext)).map (·.type)

-- Each extension has one node, which has the type of the last line that lists it, and the
-- scanner stays inside its lines.
def MappedRight (file : List UInt8) : Prop :=
  ∃ tree, recheckMimeTypes file = some tree ∧ (tree.toList.map (·.ext)).Nodup ∧
    ∀ ext, mimeType tree ext = lastType ((texts file).flatMap lineMappings) ext

-- A text, not a comment, whose last word is an extension that goes up to its end.
def EndsInExtension (text : List UInt8) : Prop :=
  ¬Comment text ∧ (∃ c ∈ text, isBlank c = true) ∧ ∃ c, text.getLast? = some c ∧ isBlank c = false

-- No line that its newline does not terminate ends in an extension: the last one of the file, and
-- one with a NUL in it.
def Terminated (file : List UInt8) : Prop :=
  (∀ line, (segments file).getLast? = some line → ¬EndsInExtension (cstr line)) ∧
    ∀ line ∈ segments file, 0 ∈ line → ¬EndsInExtension (cstr line)

def Indented (text : List UInt8) : Prop := ∃ b, text.head? = some b ∧ isBlank b = true

-- A line that begins with a blank has the empty type, and all of its words are extensions; each
-- of them is listed again below, by a line that begins with its type.
def Relisted : List (List UInt8) → Prop
  | [] => True
  | line::below => (Indented line → ∀ word ∈ words line, ∃ other ∈ below, ¬Indented other ∧
    ∃ m ∈ lineMappings other, m.ext = word) ∧ Relisted below

theorem compareMappings_eq (a b : MimeType) : compareMappings a b = .eq ↔ a.ext = b.ext := by
  rw [compareMappings,Std.LawfulEqCmp.compare_eq_iff_eq]

theorem words_blank {b : UInt8} (blank : isBlank b = true) (text : List UInt8) : words (b::text) = words text := by
  unfold words
  rw [List.splitOnP_cons_eq_if_modifyHead,if_pos blank,List.filter_cons_of_neg (by simp)]

theorem words_word {word : List UInt8} (some_word : word ≠ []) (plain : ∀ c ∈ word, isBlank c = false) :
    words word = [word] ∧ ∀ b rest, isBlank b = true → words (word++b::rest) = word::words rest := by
  have kept (rest : List (List UInt8)) : (word::rest).filter (· ≠ []) = word::rest.filter (· ≠ []) :=
    List.filter_cons_of_pos (decide_eq_true some_word)
  unfold words
  constructor
  · rw [List.splitOnP_eq_singleton plain,kept,List.filter_nil]
  · intro b rest blank
    rw [List.splitOnP_append_cons_of_forall_mem plain b blank,kept]

theorem text_cases (text : List UInt8) : (text.dropWhile isBlank = [] ∧ words text = []) ∨
    ∃ word rear, text.dropWhile isBlank = word++rear ∧ word ≠ [] ∧ (∀ c ∈ word, isBlank c = false) ∧
      (rear = [] ∧ words text = [word] ∨ ∃ b rest, rear = b::rest ∧ isBlank b = true ∧
      words text = word::words rest) := by
  induction text with
  | nil => exact .inl ⟨rfl,rfl⟩
  | cons c text ih =>
    by_cases blank : isBlank c = true
    · rw [List.dropWhile_cons_of_pos blank,words_blank blank]
      exact ih
    · have whole : (c::text).takeWhile (!isBlank ·)++(c::text).dropWhile (!isBlank ·) = c::text :=
        List.takeWhile_append_dropWhile
      have some_word : (c::text).takeWhile (!isBlank ·) ≠ [] := by
        rw [List.takeWhile_cons_of_pos (by simp [blank])]
        exact List.cons_ne_nil _ _
      have plain (d : UInt8) (member : d ∈ (c::text).takeWhile (!isBlank ·)) : isBlank d = false := by
        have passes := List.mem_takeWhile_imp member
        simpa using passes
      obtain ⟨alone,followed⟩ := words_word some_word plain
      rw [List.dropWhile_cons_of_neg blank]
      refine .inr ⟨_,_,whole.symm,some_word,plain,?_⟩
      cases rear : (c::text).dropWhile (!isBlank ·) with
      | nil =>
        rw [rear,List.append_nil] at whole
        refine .inl ⟨rfl,?_⟩
        rw [whole] at alone ⊢
        exact alone
      | cons b rest =>
        have stop : isBlank b = true := by
          have head := List.head?_dropWhile_not (!isBlank ·) (c::text)
          rw [rear] at head
          simpa using head
        rw [rear] at whole
        refine .inr ⟨b,rest,rfl,stop,?_⟩
        rw [←followed b rest stop,whole]

theorem inExt_word {word : List UInt8} (plain : ∀ c ∈ word, isBlank c = false) (clean : lf ∉ word) :
    ∀ c ∈ word, inExt c = true := by
  intro c member
  have other : c ≠ lf := fun same => clean (same ▸ member)
  rw [inExt,plain c member]
  simpa using other

theorem inExt_stop {b : UInt8} (stop : isBlank b = true ∨ b = lf) : inExt b = false := by
  unfold inExt
  rcases stop with blank | newline
  · rw [blank]
    rfl
  · rw [newline]
    rfl

theorem extensions_word {type cur word rest : List UInt8} {b : UInt8}
    (front : cur.dropWhile isBlank = word++b::rest) (some_word : word ≠ [])
    (plain : ∀ c ∈ word, isBlank c = false) (clean : lf ∉ word) (stop : isBlank b = true ∨ b = lf) :
    extensions type cur = (extensions type rest).map (⟨word,type⟩::·) := by
  have taken : (word++b::rest).takeWhile inExt = word := by
    rw [List.takeWhile_append_of_pos (inExt_word plain clean),
      List.takeWhile_cons_of_neg (by rw [inExt_stop stop]; exact Bool.false_ne_true),List.append_nil]
  have left : (word++b::rest).dropWhile inExt = b::rest := by
    rw [List.dropWhile_append_of_pos (inExt_word plain clean),
      List.dropWhile_cons_of_neg (by rw [inExt_stop stop]; exact Bool.false_ne_true)]
  conv_lhs => unfold extensions
  split
  · rename_i none_left
    rw [front] at none_left
    simp at none_left
  · rename_i c more here
    have same : c::more = word++b::rest := here.symm.trans front
    rw [same,taken]
    split
    · rename_i ended
      rw [left] at ended
      cases ended
    · rename_i d rest' ended
      rw [left] at ended
      cases ended
      simp only [if_neg some_word]

theorem extensions_blank (type : List UInt8) {cur : List UInt8} (blank : cur.dropWhile isBlank = []) :
    extensions type cur = some [] := by
  unfold extensions
  split
  · rfl
  · rename_i c more here
    rw [blank] at here
    cases here

theorem extensions_newline (type : List UInt8) {cur : List UInt8} (newline : cur.dropWhile isBlank = [lf]) :
    extensions type cur = some [] := by
  conv_lhs => unfold extensions
  split
  · rfl
  · rename_i c more here
    rw [newline] at here
    cases here
    have none_left : extensions type [] = some [] := extensions_blank type rfl
    split
    · rename_i ended
      cases ended
    · rename_i d rest ended
      cases ended
      rw [none_left]
      rfl

theorem extensions_end (type : List UInt8) {cur word : List UInt8} (front : cur.dropWhile isBlank = word)
    (some_word : word ≠ [])
    (plain : ∀ c ∈ word, isBlank c = false) (clean : lf ∉ word) : extensions type cur = none := by
  have left : word.dropWhile inExt = [] := List.dropWhile_eq_nil_iff.mpr (inExt_word plain clean)
  unfold extensions
  split
  · rename_i none_left
    exact absurd (front.symm.trans none_left) some_word
  · rename_i c more here
    have same : c::more = word := here.symm.trans front
    split
    · rfl
    · rename_i d rest ended
      rw [same,left] at ended
      cases ended

theorem front_clean {cur word rear : List UInt8} (clean : lf ∉ cur)
    (front : cur.dropWhile isBlank = word++rear) : lf ∉ word ∧ lf ∉ rear := by
  have inside : ∀ c ∈ word++rear, c ∈ cur := fun c member => (List.dropWhile_suffix isBlank).subset (front ▸ member)
  exact ⟨fun member => clean (inside lf (List.mem_append_left _ member)),fun member =>
    clean (inside lf (List.mem_append_right _ member))⟩

theorem front_shorter {cur word rest : List UInt8} {b : UInt8} (front : cur.dropWhile isBlank = word++b::rest) :
    rest.length < cur.length := by
  have fewer := (List.dropWhile_suffix (l := cur) isBlank).length_le
  rw [front,List.length_append,List.length_cons] at fewer
  omega

theorem extensions_line (type : List UInt8) (cur : List UInt8) (clean : lf ∉ cur) :
    extensions type (cur++[lf]) = some (mappings type (words cur)) := by
  induction size : cur.length using Nat.strong_induction_on generalizing cur with
  | h n ih =>
    have line : (cur++[lf]).dropWhile isBlank = if (cur.dropWhile isBlank).isEmpty then
      [lf] else cur.dropWhile isBlank++[lf] := List.dropWhile_append
    rcases text_cases cur with ⟨blank,none_left⟩ | ⟨word,rear,front,some_word,plain,behind⟩
    · rw [blank] at line
      rw [extensions_newline type line,none_left]
      rfl
    · obtain ⟨clean_word,clean_rear⟩ := front_clean clean front
      have more : (word++rear).isEmpty = false := by
        cases word with
        | nil => exact absurd rfl some_word
        | cons c word => rfl
      rw [front,more,if_neg Bool.false_ne_true] at line
      rcases behind with ⟨alone,listed⟩ | ⟨b,rest,split,blank,listed⟩
      · rw [alone,List.append_nil] at line
        rw [extensions_word line some_word plain clean_word (.inr rfl),extensions_blank type rfl,listed]
        rfl
      · have line : (cur++[lf]).dropWhile isBlank = word++b::(rest++[lf]) := by
          rw [line,split,List.append_assoc]
          exact List.cons_append ▸ rfl
        rw [split] at front clean_rear
        have shorter := front_shorter front
        have later := ih rest.length (size ▸ shorter) rest
          (fun member => clean_rear (List.mem_cons_of_mem _ member)) rfl
        rw [extensions_word line some_word plain clean_word (.inl blank),listed,later]
        rfl

theorem extensions_text (type : List UInt8) (cur : List UInt8) (clean : lf ∉ cur) :
    ((∃ c, cur.getLast? = some c ∧ isBlank c = false) → extensions type cur = none) ∧
      ((∀ c, cur.getLast? = some c → isBlank c = true) → extensions type cur = some (mappings type (words cur))) := by
  induction size : cur.length using Nat.strong_induction_on generalizing cur with
  | h n ih =>
    have whole := List.takeWhile_append_dropWhile (p := isBlank) (l := cur)
    rcases text_cases cur with ⟨blank,none_left⟩ | ⟨word,rear,front,some_word,plain,behind⟩
    · have all : ∀ c ∈ cur, isBlank c = true := List.dropWhile_eq_nil_iff.mp blank
      refine ⟨fun ⟨c,last,letter⟩ => ?_,fun _ => ?_⟩
      · rw [all c (List.mem_of_getLast? last)] at letter
        cases letter
      · rw [extensions_blank type blank,none_left]
        rfl
    · obtain ⟨clean_word,clean_rear⟩ := front_clean clean front
      rw [front] at whole
      have last : cur.getLast? = (word++rear).getLast? := by
        conv_lhs => rw [←whole]
        exact List.getLast?_append_of_ne_nil _ (List.append_ne_nil_of_left_ne_nil some_word rear)
      rcases behind with ⟨alone,listed⟩ | ⟨b,rest,split,blank,listed⟩
      · rw [alone,List.append_nil] at front last
        have stuck := extensions_end type front some_word plain clean_word
        refine ⟨fun _ => stuck,fun blanks => ?_⟩
        obtain ⟨c,ends⟩ : ∃ c, word.getLast? = some c := ⟨_,List.getLast?_eq_some_getLast some_word⟩
        have letter := plain c (List.mem_of_getLast? ends)
        rw [blanks c (last.trans ends)] at letter
        cases letter
      · rw [split] at front clean_rear last
        have last : cur.getLast? = some (rest.getLast?.getD b) :=
          (last.trans (List.getLast?_append_cons ..)).trans List.getLast?_cons
        have shorter := front_shorter front
        obtain ⟨stuck,goes⟩ := ih rest.length (size ▸ shorter) rest
          (fun member => clean_rear (List.mem_cons_of_mem _ member)) rfl
        rw [extensions_word front some_word plain clean_word (.inl blank),listed]
        cases behind : rest.getLast? with
        | none =>
          rw [behind] at last goes
          refine ⟨fun ⟨c,ends,letter⟩ => ?_,fun _ => ?_⟩
          · cases last.symm.trans ends
            rw [Option.getD_none,blank] at letter
            cases letter
          · rw [goes fun c ends => nomatch ends]
            rfl
        | some d =>
          rw [behind] at last stuck goes
          refine ⟨fun ⟨c,ends,letter⟩ => ?_,fun blanks => ?_⟩
          · cases last.symm.trans ends
            rw [stuck ⟨_,rfl,letter⟩]
            rfl
          · rw [goes fun c ends => blanks c (last.trans (ends ▸ rfl))]
            rfl

-- The mappings that the scanner makes of a text.
def taken (text : List UInt8) : List MimeType :=
  if Comment text then [] else mappings (text.takeWhile (!isBlank ·)) (words ((text.dropWhile (!isBlank ·)).drop 1))

theorem type_cases (text : List UInt8) : text.dropWhile (!isBlank ·) = [] ∧ (∀ c ∈ text, isBlank c = false) ∨
    ∃ b cur, text.dropWhile (!isBlank ·) = b::cur ∧ isBlank b = true ∧ text = text.takeWhile (!isBlank ·)++b::cur := by
  cases behind : text.dropWhile (!isBlank ·) with
  | nil => exact .inl ⟨rfl,fun c member => by simpa using List.dropWhile_eq_nil_iff.mp behind c member⟩
  | cons b cur =>
    have stop : isBlank b = true := by
      have head := List.head?_dropWhile_not (!isBlank ·) text
      rw [behind] at head
      simpa using head
    exact .inr ⟨b,cur,rfl,stop,(behind ▸ List.takeWhile_append_dropWhile).symm⟩

theorem parseLine_comment {line : List UInt8} (comment : Comment (cstr line)) : parseLine line = some [] :=
  if_pos (.inr comment)

theorem parseLine_plain {line : List UInt8} (plain : ∀ c ∈ cstr line, isBlank c = false) :
    parseLine line = some [] := by
  have behind : (cstr line).dropWhile (!isBlank ·) = [] :=
    List.dropWhile_eq_nil_iff.mpr fun c member => by rw [plain c member]; rfl
  unfold parseLine
  simp only [behind]
  split <;> rfl

theorem parseLine_typed {line type cur : List UInt8} {b : UInt8} (whole : cstr line = type++b::cur)
    (plain : ∀ c ∈ type, isBlank c = false)
    (blank : isBlank b = true) (no_comment : ¬Comment (cstr line)) : parseLine line = extensions type cur := by
  have letters (c : UInt8) (member : c ∈ type) : (!isBlank c) = true := by rw [plain c member]; rfl
  have stop : ¬(!isBlank b) = true := by rw [blank]; exact Bool.false_ne_true
  have behind : (cstr line).dropWhile (!isBlank ·) = b::cur := by
    rw [whole,List.dropWhile_append_of_pos letters,List.dropWhile_cons_of_neg (p := (!isBlank ·)) stop]
  have before : (cstr line).takeWhile (!isBlank ·) = type := by
    rw [whole,List.takeWhile_append_of_pos letters,List.takeWhile_cons_of_neg (p := (!isBlank ·)) stop,List.append_nil]
  have some_text : cstr line ≠ [] := by
    rw [whole]
    exact List.append_ne_nil_of_right_ne_nil type (List.cons_ne_nil b cur)
  unfold parseLine
  simp only [behind,before]
  exact if_neg fun either => either.elim some_text no_comment

theorem taken_plain {text : List UInt8} (plain : ∀ c ∈ text, isBlank c = false) : taken text = [] := by
  have behind : text.dropWhile (!isBlank ·) = [] :=
    List.dropWhile_eq_nil_iff.mpr fun c member => by rw [plain c member]; rfl
  unfold taken
  rw [behind]
  split <;> rfl

theorem takeWhile_plain {text : List UInt8} : ∀ c ∈ text.takeWhile (!isBlank ·), isBlank c = false := fun c member => by
  have passes := List.mem_takeWhile_imp member
  simpa using passes

theorem parseLine_line {text : List UInt8} (clean : lf ∉ text) (no_nul : 0 ∉ text) :
    parseLine (text++[lf]) = some (taken text) := by
  have line : cstr (text++[lf]) = text++[lf] := cstr_whole fun zero => (List.mem_append.mp zero).elim no_nul (by decide)
  have same : Comment (text++[lf]) ↔ Comment text := by
    cases text with
    | nil => decide
    | cons c text => exact Iff.rfl
  by_cases comment : Comment text
  · rw [parseLine_comment (line.symm ▸ same.mpr comment),taken,if_pos comment]
  · rcases type_cases text with ⟨none_behind,plain⟩ | ⟨b,cur,behind,blank,split⟩
    · rw [taken_plain plain]
      refine parseLine_plain fun c member => ?_
      rcases List.mem_append.mp (line ▸ member) with inside | last
      · exact plain c inside
      · rw [List.mem_singleton.mp last]
        rfl
    · have clean_cur : lf ∉ cur := fun inside => clean (split ▸ List.mem_append_right _ (List.mem_cons_of_mem b inside))
      have whole : cstr (text++[lf]) = text.takeWhile (!isBlank ·)++b::(cur++[lf]) := by
        rw [line,←List.cons_append,←List.append_assoc,←split]
      rw [parseLine_typed whole takeWhile_plain blank (line.symm ▸ fun again => comment (same.mp again)),
        extensions_line _ cur clean_cur,taken,if_neg comment,behind]
      rfl

theorem parseLine_text {line text : List UInt8} (whole : cstr line = text) (clean : lf ∉ text) :
    (EndsInExtension text → parseLine line = none) ∧ (¬EndsInExtension text → parseLine line = some (taken text)) := by
  by_cases comment : Comment text
  · refine ⟨fun ends => absurd comment ends.1,fun _ => ?_⟩
    rw [parseLine_comment (whole.symm ▸ comment),taken,if_pos comment]
  · rcases type_cases text with ⟨none_behind,plain⟩ | ⟨b,cur,behind,blank,split⟩
    · refine ⟨fun ⟨_,⟨c,member,space⟩,_⟩ => ?_,fun _ => ?_⟩
      · rw [plain c member] at space
        cases space
      · rw [taken_plain plain]
        exact parseLine_plain (whole.symm ▸ plain)
    · have clean_cur : lf ∉ cur := fun inside => clean (split ▸ List.mem_append_right _ (List.mem_cons_of_mem b inside))
      have last : text.getLast? = some (cur.getLast?.getD b) :=
        ((congrArg _ split).trans (List.getLast?_append_cons ..)).trans List.getLast?_cons
      have spaced : ∃ c ∈ text, isBlank c = true := ⟨b,split ▸ List.mem_append_right _ List.mem_cons_self,blank⟩
      obtain ⟨stuck,goes⟩ := extensions_text (text.takeWhile (!isBlank ·)) cur clean_cur
      rw [parseLine_typed (whole.trans split) takeWhile_plain blank (whole.symm ▸ comment),taken,if_neg comment,behind]
      refine ⟨fun ⟨_,_,c,ends,letter⟩ => stuck ?_,fun not_ends => goes fun c ends => ?_⟩
      · cases behind_blank : cur.getLast? with
        | none =>
          rw [behind_blank] at last
          cases last.symm.trans ends
          rw [Option.getD_none,blank] at letter
          cases letter
        | some d =>
          rw [behind_blank] at last
          cases last.symm.trans ends
          exact ⟨_,rfl,letter⟩
      · rw [ends] at last
        cases letter : isBlank c with
        | true => rfl
        | false => exact absurd ⟨comment,spaced,c,last,letter⟩ not_ends

theorem words_some {text word : List UInt8} (member : word ∈ words text) : word ≠ [] :=
  of_decide_eq_true (List.mem_filter.mp member).2

theorem mem_mappings {type : List UInt8} {exts : List (List UInt8)} {m : MimeType} : m ∈ mappings type exts ↔
    m.ext ∈ exts ∧ m.type = type := by
  unfold mappings
  rw [List.mem_map]
  constructor
  · rintro ⟨ext,member,rfl⟩
    exact ⟨member,rfl⟩
  · rintro ⟨member,rfl⟩
    exact ⟨m.ext,member,rfl⟩

theorem lineMappings_typed {text : List UInt8} {m : MimeType} (member : m ∈ lineMappings text) : m.type ≠ [] ∧
    m.ext ∈ words text := by
  unfold lineMappings at member
  split at member
  · cases member
  · split at member
    · cases member
    · rename_i type exts listed
      obtain ⟨inside,typed⟩ := mem_mappings.mp member
      rw [listed]
      refine ⟨typed ▸ words_some (listed ▸ List.mem_cons_self),List.mem_cons_of_mem _ inside⟩

theorem taken_typed {text : List UInt8} (typed : ¬Indented text) : taken text = lineMappings text := by
  unfold taken lineMappings
  by_cases comment : Comment text
  · rw [if_pos comment,if_pos comment]
  · rw [if_neg comment,if_neg comment]
    cases text with
    | nil => rfl
    | cons c text =>
      have letter : isBlank c = false := eq_false_of_ne_true fun blank => typed ⟨c,rfl,blank⟩
      have some_type : (c::text).takeWhile (!isBlank ·) ≠ [] := by
        rw [List.takeWhile_cons_of_pos (by rw [letter]; rfl)]
        exact List.cons_ne_nil _ _
      rcases type_cases (c::text) with ⟨none_behind,plain⟩ | ⟨b,cur,behind,blank,split⟩
      · rw [none_behind,(words_word (List.cons_ne_nil c text) plain).1]
        rfl
      · have listed := (words_word some_type takeWhile_plain).2 b cur blank
        rw [←split] at listed
        rw [behind,listed]
        rfl

theorem taken_indented {text : List UInt8} (indented : Indented text) : taken text = mappings [] (words text) := by
  obtain ⟨b,head,blank⟩ := indented
  cases text with
  | nil => cases head
  | cons c text =>
    cases head
    have no_comment : ¬Comment (b::text) := by
      intro comment
      cases Option.some.inj comment
      cases blank
    have stop : ¬(!isBlank b) = true := by rw [blank]; exact Bool.false_ne_true
    rw [taken,if_neg no_comment,List.takeWhile_cons_of_neg (p := (!isBlank ·)) stop,
      List.dropWhile_cons_of_neg (p := (!isBlank ·)) stop,words_blank blank]
    rfl

theorem lastType_append (a b : List MimeType) (ext : List UInt8) :
    lastType (a++b) ext = (lastType b ext).or (lastType a ext) := by
  unfold lastType
  rw [List.reverse_append,List.find?_append,Option.map_or]

theorem lastType_none {listed : List MimeType} {ext : List UInt8} : lastType listed ext = none ↔
    ∀ m ∈ listed, m.ext ≠ ext := by
  unfold lastType
  rw [Option.map_eq_none_iff,List.find?_eq_none]
  simp only [List.mem_reverse,decide_eq_true_eq]

theorem lastType_some {listed : List MimeType} {ext type : List UInt8} (last : lastType listed ext = some type) :
    ∃ m ∈ listed, m.ext = ext ∧ m.type = type := by
  obtain ⟨m,found,typed⟩ := Option.map_eq_some_iff.mp last
  have here := List.find?_some found
  exact ⟨m,List.mem_reverse.mp (List.mem_of_find?_eq_some found),of_decide_eq_true here,typed⟩

theorem lastType_typed (lines : List (List UInt8)) (ext : List UInt8) :
    lastType (lines.flatMap lineMappings) ext ≠ some [] := by
  intro empty
  obtain ⟨m,member,_,typed⟩ := lastType_some empty
  obtain ⟨line,_,inside⟩ := List.mem_flatMap.mp member
  exact (lineMappings_typed inside).1 typed

theorem lastType_taken (lines : List (List UInt8)) (ext : List UInt8)
    (typed : lastType (lines.flatMap taken) ext ≠ some []) :
    lastType (lines.flatMap taken) ext = lastType (lines.flatMap lineMappings) ext := by
  induction lines with
  | nil => rfl
  | cons line below ih =>
    simp only [List.flatMap_cons,lastType_append] at typed ⊢
    cases later : lastType (below.flatMap taken) ext with
    | some type =>
      rw [later] at typed ih
      rw [←ih typed]
      rfl
    | none =>
      rw [later] at typed ih
      rw [←ih nofun]
      simp only [Option.none_or] at typed ⊢
      by_cases indented : Indented line
      · cases own : lastType (taken line) ext with
        | some type =>
          obtain ⟨m,member,_,same⟩ := lastType_some own
          rw [taken_indented indented] at member
          rw [own,←same,(mem_mappings.mp member).2] at typed
          exact absurd rfl typed
        | none =>
          refine (lastType_none.mpr fun m member here => ?_).symm
          have absent := lastType_none.mp own ⟨m.ext,[]⟩
          rw [taken_indented indented] at absent
          exact absent (mem_mappings.mpr ⟨(lineMappings_typed member).2,rfl⟩) here
      · rw [taken_typed indented]

theorem taken_lists {lines : List (List UInt8)} {ext type : List UInt8}
    (last : lastType (lines.flatMap taken) ext = some type) (typed : type ≠ []) :
    ∃ other ∈ lines, ¬Indented other ∧ ∃ m ∈ lineMappings other, m.ext = ext := by
  obtain ⟨m,member,here,same⟩ := lastType_some last
  obtain ⟨other,inside,listed⟩ := List.mem_flatMap.mp member
  have begins : ¬Indented other := by
    intro indented
    rw [taken_indented indented] at listed
    exact typed (same.symm.trans (mem_mappings.mp listed).2)
  exact ⟨other,inside,begins,m,taken_typed begins ▸ listed,here⟩

theorem relisted_iff (lines : List (List UInt8)) : Relisted lines ↔
    ∀ ext, lastType (lines.flatMap taken) ext ≠ some [] := by
  induction lines with
  | nil => exact ⟨fun _ _ => nofun,fun _ => trivial⟩
  | cons line below ih =>
    simp only [Relisted,ih,List.flatMap_cons,lastType_append]
    constructor
    · intro ⟨relisted,later⟩ ext empty
      cases last : lastType (below.flatMap taken) ext with
      | some type =>
        rw [last] at empty
        exact later ext (last.trans empty)
      | none =>
        rw [last,Option.none_or] at empty
        obtain ⟨m,member,here,same⟩ := lastType_some empty
        by_cases indented : Indented line
        · rw [taken_indented indented] at member
          obtain ⟨other,inside,begins,m',listed,again⟩ := relisted indented m.ext (mem_mappings.mp member).1
          have listed := taken_typed begins ▸ listed
          exact lastType_none.mp last m' (List.mem_flatMap.mpr ⟨other,inside,listed⟩) (again.trans here)
        · exact (lineMappings_typed (taken_typed indented ▸ member)).1 same
    · intro typed
      have later (ext : List UInt8) : lastType (below.flatMap taken) ext ≠ some [] := by
        intro empty
        have whole := typed ext
        rw [empty] at whole
        exact whole rfl
      refine ⟨fun indented word member => ?_,later⟩
      cases last : lastType (below.flatMap taken) word with
      | some type => exact taken_lists last fun empty => later word (last.trans (congrArg some empty))
      | none =>
        have whole := typed word
        rw [last,Option.none_or] at whole
        cases own : lastType (taken line) word with
        | none =>
          rw [taken_indented indented] at own
          exact absurd rfl (lastType_none.mp own ⟨word,[]⟩ (mem_mappings.mpr ⟨member,rfl⟩))
        | some type =>
          obtain ⟨m,inside,_,same⟩ := lastType_some own
          rw [taken_indented indented] at inside
          exact absurd (own.trans (congrArg some (same.symm.trans (mem_mappings.mp inside).2))) whole

abbrev Nodes (tree : AvlTree MimeType) : Prop := Once compareMappings MimeType.ext tree

theorem addMapping_right {tree : AvlTree MimeType} (once : Nodes tree) (m : MimeType) :
    Nodes (addMapping tree m) ∧ ∀ ext, mimeType (addMapping tree m) ext = (lastType [m] ext).or
    (mimeType tree ext) := by
  refine ⟨(once.put compareMappings_eq m).1,fun ext => ?_⟩
  have found := once.get_put compareMappings_eq m ⟨ext,[]⟩
  unfold mimeType addMapping lastType
  rw [found]
  by_cases here : ext = m.ext
  · simp [here]
  · simp [here,Ne.symm here]

theorem addMappings_right {tree : AvlTree MimeType} (once : Nodes tree) (listed : List MimeType) :
    Nodes (listed.foldl addMapping tree) ∧
    ∀ ext, mimeType (listed.foldl addMapping tree) ext = (lastType listed ext).or (mimeType tree ext) := by
  induction listed generalizing tree with
  | nil => exact ⟨once,fun _ => rfl⟩
  | cons m listed ih =>
    obtain ⟨kept,first⟩ := addMapping_right once m
    obtain ⟨nodes,later⟩ := ih kept
    refine ⟨nodes,fun ext => ?_⟩
    rw [List.foldl_cons,later,first,←Option.or_assoc,←lastType_append]
    rfl

theorem fileLines_some {file : List UInt8} (more : file ≠ []) :
    fileLines file = (fgets 4094 file).1::fileLines (fgets 4094 file).2 := by
  cases file with
  | nil => exact absurd rfl more
  | cons c file =>
    conv_lhs => unfold fileLines

theorem fileLines_line {line : List UInt8} (clean : lf ∉ line) (rest : List UInt8) (short : line.length < 4094) :
    fileLines (line++lf::rest) = (line++[lf])::fileLines rest := by
  rw [fileLines_some (List.append_ne_nil_of_right_ne_nil line (List.cons_ne_nil lf rest)),fgets_line clean rest short]

theorem fileLines_last {line : List UInt8} (clean : lf ∉ line) (more : line ≠ []) (short : line.length < 4094) :
    fileLines line = [line] := by
  rw [fileLines_some more,fgets_last clean (Nat.le_of_lt short),fileLines]

theorem other_bytes {line : List UInt8} (clean : lf ∉ line) : ∀ c ∈ line, decide (c = lf) = false :=
  fun _ inside => decide_eq_false fun same => clean (same ▸ inside)

theorem segments_line {line : List UInt8} (clean : lf ∉ line) (rest : List UInt8) :
    segments (line++lf::rest) = line::segments rest :=
  List.splitOnP_append_cons_of_forall_mem (other_bytes clean) lf (decide_eq_true rfl) rest

theorem segments_last {line : List UInt8} (clean : lf ∉ line) : segments line = [line] :=
  List.splitOnP_eq_singleton (other_bytes clean)

theorem segments_ne_nil (file : List UInt8) : segments file ≠ [] := List.splitOnP_ne_nil _ file

theorem terminated_last {line : List UInt8} (clean : lf ∉ line) : Terminated line ↔ ¬EndsInExtension (cstr line) := by
  unfold Terminated
  rw [segments_last clean]
  constructor
  · exact fun both => both.1 line rfl
  · intro not_ends
    refine ⟨fun other last => ?_,fun other member _ => ?_⟩
    · cases last
      exact not_ends
    · cases List.mem_singleton.mp member
      exact not_ends

theorem terminated_line {line : List UInt8} (clean : lf ∉ line) (rest : List UInt8) :
    Terminated (line++lf::rest) ↔ (0 ∈ line → ¬EndsInExtension (cstr line)) ∧ Terminated rest := by
  unfold Terminated
  rw [segments_line clean,List.forall_mem_cons]
  have last : (line::segments rest).getLast? = (segments rest).getLast? := by
    rw [List.getLast?_cons,List.getLast?_eq_some_getLast (segments_ne_nil rest)]
    rfl
  rw [last]
  exact and_left_comm

theorem cstr_clean {line : List UInt8} (clean : lf ∉ line) : lf ∉ cstr line :=
  fun inside => clean ((List.takeWhile_prefix _).subset inside)

theorem parseLine_ended {line : List UInt8} (clean : lf ∉ line) :
    ((0 ∈ line → ¬EndsInExtension (cstr line)) → parseLine (line++[lf]) = some (taken (cstr line))) ∧
      (¬(0 ∈ line → ¬EndsInExtension (cstr line)) → parseLine (line++[lf]) = none) := by
  by_cases nul : 0 ∈ line
  · have whole : cstr (line++[lf]) = cstr line := by
      obtain ⟨front,back,split,_⟩ := List.eq_append_cons_of_mem nul
      rw [split,List.append_assoc,List.cons_append,cstr_stop,cstr_stop]
    obtain ⟨stuck,goes⟩ := parseLine_text whole (cstr_clean clean)
    exact ⟨fun right => goes (right nul),fun wrong => stuck (of_not_not fun ends => wrong fun _ => ends)⟩
  · have whole : cstr line = line := cstr_whole nul
    rw [whole]
    exact ⟨fun _ => parseLine_line clean nul,fun wrong => absurd (fun here => absurd here nul) wrong⟩

theorem addLine_some {line : List UInt8} {listed : List MimeType} (parsed : parseLine line = some listed)
    (tree : AvlTree MimeType) :
    addLine tree line = some (listed.foldl addMapping tree) := by
  rw [addLine,parsed]
  rfl

theorem addLine_none {line : List UInt8} (stuck : parseLine line = none) (tree : AvlTree MimeType) :
    addLine tree line = none := by
  rw [addLine,stuck]
  rfl

theorem lines_right (file : List UInt8) (short : ∀ line ∈ segments file, line.length < 4094)
    {tree : AvlTree MimeType} (once : Nodes tree) :
    (Terminated file → ∃ after, (fileLines file).foldlM addLine tree = some after ∧ Nodes after ∧
      ∀ ext, mimeType after ext = (lastType ((texts file).flatMap taken) ext).or (mimeType tree ext)) ∧
    (¬Terminated file → (fileLines file).foldlM addLine tree = none) := by
  induction size : file.length using Nat.strong_induction_on generalizing file tree with
  | h n ih =>
    by_cases more : lf ∈ file
    · obtain ⟨line,rest,rfl,clean⟩ := List.eq_append_cons_of_mem more
      unfold texts
      rw [segments_line clean] at short
      rw [segments_line clean,terminated_line clean,fileLines_line clean rest (short line List.mem_cons_self),
        List.foldlM_cons,List.map_cons,List.flatMap_cons]
      obtain ⟨goes,stuck⟩ := parseLine_ended clean
      have shorter : rest.length < n := by
        rw [←size,List.length_append,List.length_cons]
        omega
      by_cases ended : 0 ∈ line → ¬EndsInExtension (cstr line)
      · obtain ⟨kept,first⟩ := addMappings_right once (taken (cstr line))
        obtain ⟨right,wrong⟩ := ih rest.length shorter rest
          (fun other inside => short other (List.mem_cons_of_mem line inside)) kept rfl
        rw [addLine_some (goes ended),Option.bind_eq_bind,Option.bind_some]
        refine ⟨fun ⟨_,rest_right⟩ => ?_,fun not_both => wrong fun rest_right => not_both ⟨ended,rest_right⟩⟩
        obtain ⟨after,run,nodes,found⟩ := right rest_right
        refine ⟨after,run,nodes,fun ext => ?_⟩
        rw [found,first,lastType_append,Option.or_assoc]
        rfl
      · rw [addLine_none (stuck ended)]
        exact ⟨fun both => absurd both.1 ended,fun _ => rfl⟩
    · unfold texts
      rw [segments_last more,List.forall_mem_singleton] at short
      rw [segments_last more,terminated_last more,List.map_singleton,List.flatMap_singleton]
      obtain ⟨stuck,goes⟩ := parseLine_text rfl (cstr_clean more)
      cases file with
      | nil =>
        refine ⟨fun _ => ⟨tree,?_,once,fun _ => rfl⟩,fun wrong => ?_⟩
        · rw [fileLines]
          rfl
        · exact absurd (fun ends => nomatch ends.2.1.choose_spec.1) wrong
      | cons c file =>
        rw [fileLines_last more (List.cons_ne_nil c file) short,List.foldlM_cons]
        by_cases ends : EndsInExtension (cstr (c::file))
        · rw [addLine_none (stuck ends)]
          exact ⟨fun not_ends => absurd ends not_ends,fun _ => rfl⟩
        · rw [addLine_some (goes ends),Option.bind_eq_bind,Option.bind_some]
          obtain ⟨kept,first⟩ := addMappings_right once (taken (cstr (c::file)))
          exact ⟨fun _ => ⟨_,rfl,kept,first⟩,fun wrong => absurd ends wrong⟩

-- MIME type file: every extension has the type of its last line, exactly when no line that is
-- not terminated by its newline ends in an extension, and each word of a line that begins with a
-- blank is listed again below.
theorem mime_types (file : List UInt8) (short : ∀ line ∈ segments file, line.length < 4094) :
    MappedRight file ↔ Terminated file ∧ Relisted (texts file) := by
  obtain ⟨right,wrong⟩ := lines_right file short (leaf_once compareMappings MimeType.ext)
  have none_before (ext : List UInt8) : mimeType .leaf ext = none := rfl
  constructor
  · intro ⟨tree,run,_,found⟩
    have terminated : Terminated file := by
      by_contra not_terminated
      cases run.symm.trans (wrong not_terminated)
    obtain ⟨after,same,_,made⟩ := right terminated
    cases same.symm.trans run
    refine ⟨terminated,(relisted_iff _).mpr fun ext empty => ?_⟩
    have made := made ext
    rw [empty] at made
    exact lastType_typed _ ext ((found ext).symm.trans made)
  · intro ⟨terminated,relisted⟩
    obtain ⟨after,run,nodes,made⟩ := right terminated
    refine ⟨after,run,nodes.unique,fun ext => ?_⟩
    rw [made,none_before,Option.or_none]
    exact lastType_taken _ ext ((relisted_iff _).mp relisted ext)

instance : Decidable (EndsInExtension text) :=
  inferInstanceAs (Decidable (¬Comment text ∧ (∃ c ∈ text, isBlank c = true) ∧ ∃ c ∈ text.getLast?, isBlank c = false))

instance : Decidable (Terminated file) :=
  inferInstanceAs (Decidable ((∀ line ∈ (segments file).getLast?, ¬EndsInExtension (cstr line)) ∧
    ∀ line ∈ segments file, 0 ∈ line → ¬EndsInExtension (cstr line)))

instance : Decidable (Indented text) := inferInstanceAs (Decidable (∃ b ∈ text.head?, isBlank b = true))

instance decideRelisted : (lines : List (List UInt8)) → Decidable (Relisted lines)
  | [] => isTrue trivial
  | _::below =>
    have := decideRelisted below
    inferInstanceAs (Decidable (_ ∧ _))

-- "#\nt a b\n a\nu a c\n"
def fewTypes : List UInt8 := [35,10,116,32,97,32,98,10,32,97,10,117,32,97,32,99,10]

theorem few_types : MappedRight fewTypes :=
  (mime_types fewTypes (by decide +kernel)).mpr ⟨by decide +kernel,by decide +kernel⟩

-- "t a" without the newline, and " t a\n".
theorem no_newline : ¬MappedRight [116,32,97] ∧ ¬MappedRight [32,116,32,97,10] := by
  constructor
  · intro ⟨tree,run,_⟩
    have stuck : (recheckMimeTypes [116,32,97]).isNone = true := by decide +kernel
    rw [run] at stuck
    cases stuck
  · intro ⟨tree,run,_,found⟩
    have empty : (recheckMimeTypes [32,116,32,97,10]).map (mimeType · [97]) = some (some []) := by decide +kernel
    rw [run] at empty
    have typed : lastType ((texts [32,116,32,97,10]).flatMap lineMappings) [97] = some [116] := by decide +kernel
    have wrong := (found [97]).symm.trans (Option.some.inj empty)
    rw [typed] at wrong
    cases wrong

end Icecast.MimeTypes
