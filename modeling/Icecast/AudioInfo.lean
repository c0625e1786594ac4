import Mathlib.Algebra.Group.Nat.Defs
import Mathlib.Algebra.Group.Int.Defs
import Icecast.UriPath
import Mathlib.Data.List.Nodup
import Mathlib.Data.List.Induction

namespace Icecast.AudioInfo
open Bytes Uri

def semicolon : UInt8 := 59
def equals : UInt8 := 61
def cr : UInt8 := 13
def lf : UInt8 := 10

-- util_dict: its entries in order, a NULL as none.
structure DictEntry where
  key : Option (List UInt8)
  val : Option (List UInt8)
deriving DecidableEq

def utilDictNew : List DictEntry := [⟨none,none⟩]

def utilDictSet : List DictEntry → List UInt8 → List UInt8 → List DictEntry
  | [],key,val => [⟨some key,some val⟩]
  | dict::next,key,val =>
    if dict.key = none ∨ dict.key = some key then ⟨some key,some val⟩::next else dict::utilDictSet next key val

-- sscanf (start, "%99[^=]=%199[^;\r\n]", name, value): what does not match leaves its buffer as it was.
def scanPair (start name value : List UInt8) : List UInt8 × List UInt8 :=
  let key := (start.takeWhile (· ≠ equals)).take 99
  if key = [] then (name,value) else
  match start.drop key.length with
  | [] => (key,value)
  | c::rest =>
    if c = equals then
      let text := (rest.takeWhile fun c => c ≠ semicolon ∧ c ≠ cr ∧ c ≠ lf).take 199
      (key,if text = [] then value else text)
    else (key,value)

def segmentOf (start : List UInt8) : List UInt8 := start.takeWhile (· ≠ semicolon)

-- What stands behind the first ';', nothing if there is none.
def behind (start : List UInt8) : List UInt8 := (start.dropWhile (· ≠ semicolon)).tail

theorem behind_shorter (c : UInt8) (rest : List UInt8) : (behind (c::rest)).length < (c::rest).length := by
  have fewer := (List.dropWhile_suffix (l := c::rest) (· ≠ semicolon)).length_le
  rw [List.length_cons] at fewer
  rw [behind,List.length_tail,List.length_cons]
  omega

-- _parse_audio_info: the names and values it passes to util_dict_set and stats_event. `name` and
-- `value` are what the buffers hold; `len` is an unsigned int.
def parseAudioInfo (name value : List UInt8) : List UInt8 → List (List UInt8 × List UInt8)
  | [] => []
  | c::start =>
    if (segmentOf (c::start)).length % 2^32 = 0 then parseAudioInfo name value (behind (c::start))
    else
      let scanned := scanPair (c::start) name value
      match urlUnescape scanned.2 with
      | none => parseAudioInfo scanned.1 scanned.2 (behind (c::start))
      | some esc => (scanned.1,cstr esc)::parseAudioInfo scanned.1 scanned.2 (behind (c::start))
termination_by start => start.length
decreasing_by all_goals exact behind_shorter c start

-- The dictionary that util_dict_new made, after the calls.
def audioInfo (pairs : List (List UInt8 × List UInt8)) : List DictEntry :=
  pairs.foldl (fun dict pair => utilDictSet dict pair.1 pair.2) utilDictNew

-- What a segment is to contribute.
def wanted (segment : List UInt8) : Option (List UInt8 × List UInt8) :=
  let key := segment.takeWhile (· ≠ equals)
  match segment.drop key.length with
  | [] => none
  | _::text =>
    if key ≠ [] ∧ key.length < 100 ∧ text.length < 200 then (urlUnescape text).map fun esc => (key,cstr esc) else none

def wantedPairs (s : List UInt8) : List (List UInt8 × List UInt8) := (s.splitOnP (· = semicolon)).filterMap wanted

def lookup (dict : List DictEntry) (key : List UInt8) : Option (List UInt8) :=
  (dict.find? (·.key = some key)).bind (·.val)

-- The dictionary maps exactly the keys of the pairs, each once and to its last value.
def Maps (dict : List DictEntry) (pairs : List (List UInt8 × List UInt8)) : Prop :=
  (dict.filterMap (·.key)).Nodup ∧ ∀ key, lookup dict key = (pairs.reverse.find? (·.1 = key)).map Prod.snd

-- Whatever the buffers hold at first.
def ParsedRight (s : List UInt8) : Prop :=
  ∀ name value, parseAudioInfo name value s = wantedPairs s ∧
    Maps (audioInfo (parseAudioInfo name value s)) (wantedPairs s)

-- A segment key=value of which sscanf takes all, or one that is passed over.
def Plain (segment : List UInt8) : Prop :=
  segment.length % 2^32 = 0 ∨ ∃ key text, segment = key++equals::text ∧ key ≠ [] ∧ equals ∉ key ∧ key.length < 100 ∧
    text ≠ [] ∧ text.length < 200 ∧ cr ∉ text ∧ lf ∉ text

theorem takeWhile_stop {p : UInt8 → Bool} {c : UInt8} {front : List UInt8} (all : ∀ x ∈ front, p x = true)
    (stop : p c = false) (rest : List UInt8) :
    (front++c::rest).takeWhile p = front := by
  rw [List.takeWhile_append_of_pos all,List.takeWhile_cons_of_neg (Bool.eq_false_iff.mp stop),List.append_nil]

theorem takeWhile_all {p : UInt8 → Bool} {text : List UInt8} (all : ∀ x ∈ text, p x = true) : text.takeWhile p = text :=
  List.takeWhile_eq_self_iff.mpr all

theorem segment_cases (start : List UInt8) : semicolon ∉ segmentOf start ∧
    (start = segmentOf start ∧ behind start = [] ∨ start = segmentOf start++semicolon::behind start) := by
  constructor
  · intro member
    have other := List.mem_takeWhile_imp member
    exact absurd rfl (of_decide_eq_true other)
  · have whole := List.takeWhile_append_dropWhile (p := (· ≠ semicolon)) (l := start)
    cases rest : start.dropWhile (· ≠ semicolon) with
    | nil =>
      rw [rest,List.append_nil] at whole
      refine .inl ⟨whole.symm,?_⟩
      rw [behind,rest,List.tail_nil]
    | cons c more =>
      have stop : c = semicolon := by
        have head := List.head?_dropWhile_not (· ≠ semicolon) start
        rw [rest] at head
        by_contra other
        simp [other] at head
      rw [rest,stop] at whole
      refine .inr ?_
      rw [behind,rest,List.tail_cons]
      exact whole.symm

theorem split_step (start : List UInt8) : behind start = [] ∧ start.splitOnP (· = semicolon) = [segmentOf start] ∨
    start.splitOnP (· = semicolon) = segmentOf start::(behind start).splitOnP (· = semicolon) := by
  obtain ⟨clean,split⟩ := segment_cases start
  have plain : ∀ c ∈ segmentOf start, decide (c = semicolon) = false := fun c member =>
    decide_eq_false fun same => clean (same ▸ member)
  cases split with
  | inl last =>
    refine .inl ⟨last.2,?_⟩
    conv_lhs => rw [last.1]
    exact List.splitOnP_eq_singleton plain
  | inr more =>
    refine .inr ?_
    conv_lhs => rw [more]
    exact List.splitOnP_append_cons_of_forall_mem plain semicolon (by decide) _

theorem wantedPairs_step (start : List UInt8) :
    wantedPairs start = (wanted (segmentOf start)).toList++wantedPairs (behind start) := by
  have first (segments : List (List UInt8)) : (segmentOf start::segments).filterMap wanted =
    (wanted (segmentOf start)).toList++segments.filterMap wanted := by
    cases here : wanted (segmentOf start) with
    | none => rw [List.filterMap_cons_none here,Option.toList_none,List.nil_append]
    | some pair => rw [List.filterMap_cons_some here,Option.toList_some,List.singleton_append]
  unfold wantedPairs
  rcases split_step start with ⟨last,whole⟩ | whole
  · rw [whole,first,last]
    rfl
  · rw [whole,first]

def AllPlain (s : List UInt8) : Prop := ∀ segment ∈ s.splitOnP (· = semicolon), Plain segment

theorem allPlain_step (start : List UInt8) : AllPlain start ↔ Plain (segmentOf start) ∧ AllPlain (behind start) := by
  unfold AllPlain
  rcases split_step start with ⟨last,whole⟩ | whole
  · have blank : Plain [] := .inl rfl
    rw [whole,last,List.splitOnP_nil]
    simp only [List.mem_singleton,forall_eq,blank,and_true]
  · rw [whole]
    exact List.forall_mem_cons

theorem wanted_pair {key : List UInt8} (clean : equals ∉ key) (text : List UInt8) : wanted (key++equals::text) =
    if key ≠ [] ∧ key.length < 100 ∧ text.length < 200 then (urlUnescape text).map fun esc =>
    (key,cstr esc) else none := by
  have all : ∀ c ∈ key, decide (c ≠ equals) = true := fun c member => decide_eq_true fun same => clean (same ▸ member)
  have front : (key++equals::text).takeWhile (· ≠ equals) = key := takeWhile_stop all (by decide) text
  unfold wanted
  rw [front]
  simp only [List.drop_left]

theorem wanted_some {segment : List UInt8} (here : wanted segment = some pair) : ∃ key text esc,
    segment = key++equals::text ∧ equals ∉ key ∧ key ≠ [] ∧
    key.length < 100 ∧ text.length < 200 ∧ urlUnescape text = some esc ∧ pair = (key,cstr esc) := by
  have whole := List.takeWhile_append_dropWhile (p := (· ≠ equals)) (l := segment)
  have clean : equals ∉ segment.takeWhile (· ≠ equals) := by
    intro member
    have other := List.mem_takeWhile_imp member
    exact absurd rfl (of_decide_eq_true other)
  cases rest : segment.dropWhile (· ≠ equals) with
  | nil =>
    rw [rest,List.append_nil] at whole
    unfold wanted at here
    rw [whole] at here
    simp only [List.drop_length] at here
    cases here
  | cons c text =>
    have stop : c = equals := by
      have head := List.head?_dropWhile_not (· ≠ equals) segment
      rw [rest] at head
      by_contra other
      simp [other] at head
    rw [rest,stop] at whole
    rw [←whole,wanted_pair clean] at here
    split at here
    · rename_i fits
      obtain ⟨esc,read,same⟩ := Option.map_eq_some_iff.mp here
      exact ⟨_,text,esc,whole.symm,clean,fits.1,fits.2.1,fits.2.2,read,same.symm⟩
    · cases here

theorem scan_pair {key text rear : List UInt8} (name value : List UInt8) (some_key : key ≠ [])
    (clean : equals ∉ key) (short : key.length < 100)
    (some_text : text ≠ []) (small : text.length < 200) (plain : semicolon ∉ text ∧ cr ∉ text ∧ lf ∉ text)
    (ends : rear = [] ∨ ∃ rest, rear = semicolon::rest) :
    scanPair (key++equals::text++rear) name value = (key,text) := by
  have all : ∀ c ∈ key, decide (c ≠ equals) = true := fun c member => decide_eq_true fun same => clean (same ▸ member)
  have front : (key++equals::text++rear).takeWhile (· ≠ equals) = key := by
    rw [List.append_assoc]
    exact takeWhile_stop all (by decide) (text++rear)
  have letters : ∀ c ∈ text, decide (c ≠ semicolon ∧ c ≠ cr ∧ c ≠ lf) = true := fun c member =>
    decide_eq_true ⟨fun same => plain.1 (same ▸ member),fun same => plain.2.1 (same ▸ member),fun same =>
      plain.2.2 (same ▸ member)⟩
  have taken : (text++rear).takeWhile (fun c => c ≠ semicolon ∧ c ≠ cr ∧ c ≠ lf) = text := by
    rcases ends with rfl | ⟨rest,rfl⟩
    · rw [List.append_nil]
      exact takeWhile_all letters
    · exact takeWhile_stop letters (by decide) rest
  have behind_key : (key++equals::text++rear).drop key.length = equals::(text++rear) := by
    rw [List.append_assoc,List.drop_left]
    rfl
  unfold scanPair
  rw [front,List.take_of_length_le (by omega)]
  simp only [if_neg some_key,behind_key,if_true,taken]
  rw [List.take_of_length_le (by omega),if_neg some_text]

theorem lookup_cons (dict : DictEntry) (next : List DictEntry) (key : List UInt8) :
    lookup (dict::next) key = if dict.key = some key then dict.val else lookup next key := by
  unfold lookup
  rw [List.find?_cons]
  by_cases here : dict.key = some key
  · rw [if_pos here,decide_eq_true here,Option.bind_some]
  · rw [if_neg here,decide_eq_false here]

theorem lookup_set (dict : List DictEntry) (key val key' : List UInt8) :
    lookup (utilDictSet dict key val) key' = if key' = key then some val else lookup dict key' := by
  have new (next : List DictEntry) :
    lookup (⟨some key,some val⟩::next) key' = if key' = key then some val else lookup next key' := by
    rw [lookup_cons]
    exact if_congr ⟨fun same => (Option.some.inj same).symm,fun same => congrArg some same.symm⟩ rfl rfl
  induction dict with
  | nil => exact new []
  | cons dict next ih =>
    unfold utilDictSet
    by_cases here : dict.key = none ∨ dict.key = some key
    · rw [if_pos here,new,lookup_cons]
      by_cases same : key' = key
      · rw [if_pos same,if_pos same]
      · rw [if_neg same,if_neg same,if_neg]
        intro found
        rcases here with blank | own
        · rw [blank] at found
          cases found
        · exact same (Option.some.inj (found.symm.trans own))
    · rw [if_neg here,lookup_cons,lookup_cons,ih]
      by_cases own : dict.key = some key'
      · rw [if_pos own,if_pos own,if_neg]
        intro same
        exact here (.inr (same ▸ own))
      · rw [if_neg own,if_neg own]

-- The keys of a dictionary that was filled: distinct, and none is NULL.
def Filled (dict : List DictEntry) : Prop := (∀ entry ∈ dict, entry.key ≠ none) ∧ (dict.filterMap (·.key)).Nodup

theorem keys_set {dict : List DictEntry} (key val : List UInt8) (keys : ∀ entry ∈ dict, entry.key ≠ none) :
    (∀ entry ∈ utilDictSet dict key val, entry.key ≠ none) ∧ (utilDictSet dict key val).filterMap (·.key) =
      if key ∈ dict.filterMap (·.key) then dict.filterMap (·.key) else dict.filterMap (·.key)++[key] := by
  have new (next : List DictEntry) (rest : ∀ entry ∈ next, entry.key ≠ none) :
    ∀ entry ∈ (⟨some key,some val⟩ : DictEntry)::next, entry.key ≠ none := by
    intro entry member
    cases List.mem_cons.mp member with
    | inl same =>
      subst same
      exact Option.some_ne_none key
    | inr later => exact rest entry later
  induction dict with
  | nil => exact ⟨new [] keys,rfl⟩
  | cons dict next ih =>
    have rest : ∀ entry ∈ next, entry.key ≠ none := fun entry member => keys entry (List.mem_cons_of_mem _ member)
    obtain ⟨k,named⟩ := Option.ne_none_iff_exists'.mp (keys dict List.mem_cons_self)
    have front (next : List DictEntry) : (dict::next).filterMap (·.key) = k::next.filterMap (·.key) :=
      List.filterMap_cons_some named
    unfold utilDictSet
    by_cases own : dict.key = some key
    · have same : k = key := Option.some.inj (named.symm.trans own)
      subst same
      rw [if_pos (.inr own),front,if_pos List.mem_cons_self]
      exact ⟨new next rest,rfl⟩
    · have other : key ≠ k := fun same => own (same ▸ named)
      have absent : ¬(dict.key = none ∨ dict.key = some key) := not_or.mpr ⟨keys dict List.mem_cons_self,own⟩
      obtain ⟨kept,listed⟩ := ih rest
      rw [if_neg absent,front,front,listed]
      refine ⟨?_,?_⟩
      · intro entry member
        cases List.mem_cons.mp member with
        | inl same => exact same ▸ keys dict List.mem_cons_self
        | inr later => exact kept entry later
      · by_cases there : key ∈ next.filterMap (·.key)
        · rw [if_pos there,if_pos (List.mem_cons_of_mem _ there)]
        · rw [if_neg there,if_neg (List.not_mem_cons_of_ne_of_not_mem other there)]
          rfl

theorem filled_set {dict : List DictEntry} (filled : Filled dict) (key val : List UInt8) :
    Filled (utilDictSet dict key val) := by
  obtain ⟨keys,listed⟩ := keys_set key val filled.1
  refine ⟨keys,?_⟩
  rw [listed]
  split
  · exact filled.2
  · rename_i absent
    exact List.nodup_append.mpr ⟨filled.2,List.nodup_singleton key,fun a left b right => by
      rw [List.mem_singleton.mp right]
      exact fun same => absent (same ▸ left)⟩

theorem audioInfo_snoc (pairs : List (List UInt8 × List UInt8)) (pair : List UInt8 × List UInt8) :
    audioInfo (pairs++[pair]) = utilDictSet (audioInfo pairs) pair.1 pair.2 := by
  rw [audioInfo,List.foldl_append]
  rfl

theorem audioInfo_filled (pairs : List (List UInt8 × List UInt8)) : pairs = [] ∨ Filled (audioInfo pairs) := by
  induction pairs using List.reverseRecOn with
  | nil => exact .inl rfl
  | append_singleton pairs pair ih =>
    refine .inr ?_
    rw [audioInfo_snoc]
    rcases ih with first | filled
    · subst first
      refine ⟨fun entry member => ?_,List.nodup_singleton pair.1⟩
      rw [List.mem_singleton.mp member]
      exact Option.some_ne_none pair.1
    · exact filled_set filled pair.1 pair.2

theorem audioInfo_maps (pairs : List (List UInt8 × List UInt8)) : Maps (audioInfo pairs) pairs := by
  refine ⟨?_,fun key => ?_⟩
  · rcases audioInfo_filled pairs with none_left | filled
    · subst none_left
      exact List.nodup_nil
    · exact filled.2
  · induction pairs using List.reverseRecOn with
    | nil => rfl
    | append_singleton pairs pair ih =>
      rw [audioInfo_snoc,lookup_set,ih,List.reverse_append,List.reverse_singleton,List.singleton_append,List.find?_cons]
      by_cases same : key = pair.1
      · rw [if_pos same,decide_eq_true same.symm,Option.map_some]
      · rw [if_neg same,decide_eq_false (Ne.symm same)]

theorem parse_step (name value : List UInt8) {start : List UInt8} (more : start ≠ []) :
    parseAudioInfo name value start =
    if (segmentOf start).length % 2^32 = 0 then parseAudioInfo name value (behind start)
    else ((urlUnescape (scanPair start name value).2).map fun esc => ((scanPair start name value).1,cstr esc)).toList++
      parseAudioInfo (scanPair start name value).1 (scanPair start name value).2 (behind start) := by
  cases start with
  | nil => exact absurd rfl more
  | cons c start =>
    conv_lhs => unfold parseAudioInfo
    split
    · rfl
    · cases read : urlUnescape (scanPair (c::start) name value).2 with
      | none => simp only [read,Option.map_none,Option.toList_none,List.nil_append]
      | some esc => simp only [read,Option.map_some,Option.toList_some,List.singleton_append]

theorem behind_length (more : start ≠ []) : (behind start).length < start.length := by
  cases start with
  | nil => exact absurd rfl more
  | cons c rest => exact behind_shorter c rest

theorem wanted_skipped {segment : List UInt8} (skipped : segment.length % 2^32 = 0) : wanted segment = none := by
  by_contra some_pair
  obtain ⟨pair,here⟩ := Option.ne_none_iff_exists'.mp some_pair
  obtain ⟨key,text,esc,split,_,_,short,small,_⟩ := wanted_some here
  rw [split,List.length_append,List.length_cons] at skipped
  omega

theorem round_plain {key text : List UInt8} (name value : List UInt8)
    (segment : segmentOf start = key++equals::text) (some_key : key ≠ [])
    (clean : equals ∉ key) (short : key.length < 100) (some_text : text ≠ []) (small : text.length < 200)
    (one_line : cr ∉ text ∧ lf ∉ text) :
    scanPair start name value = (key,text) := by
  obtain ⟨no_end,split⟩ := segment_cases start
  have inside : semicolon ∉ text := by
    intro member
    rw [segment] at no_end
    exact no_end (List.mem_append_right _ (List.mem_cons_of_mem _ member))
  cases split with
  | inl last =>
    rw [last.1,segment]
    have whole := scan_pair name value some_key clean short some_text small ⟨inside,one_line⟩ (.inl rfl)
    rwa [List.append_nil] at whole
  | inr more =>
    rw [more,segment]
    exact scan_pair name value some_key clean short some_text small ⟨inside,one_line⟩ (.inr ⟨_,rfl⟩)

theorem plain_parse (start name value : List UInt8) (plain : AllPlain start) :
    parseAudioInfo name value start = wantedPairs start := by
  induction size : start.length using Nat.strong_induction_on generalizing start name value with
  | h n ih =>
    cases start with
    | nil =>
      unfold parseAudioInfo
      rfl
    | cons c rest =>
      have more : c::rest ≠ [] := List.cons_ne_nil c rest
      obtain ⟨first,later⟩ := (allPlain_step (c::rest)).mp plain
      have next (name value : List UInt8) := ih _ (size ▸ behind_length more) (behind (c::rest)) name value later rfl
      rw [parse_step name value more,wantedPairs_step]
      by_cases skipped : (segmentOf (c::rest)).length % 2^32 = 0
      · rw [if_pos skipped,wanted_skipped skipped,next]
        rfl
      · obtain ⟨key,text,segment,some_key,clean,short,some_text,small,one_line⟩ := first.resolve_left skipped
        rw [if_neg skipped,round_plain name value segment some_key clean short some_text small one_line,
          segment,wanted_pair clean,
          if_pos ⟨some_key,short,small⟩,next]

theorem plain_right (s : List UInt8) (plain : AllPlain s) : ParsedRight s := by
  intro name value
  rw [plain_parse s name value plain]
  exact ⟨rfl,audioInfo_maps _⟩

-- Text that is its own unescaped form.
def Verbatim (text : List UInt8) : Prop := ∀ c ∈ text, c ≠ 0 ∧ c ≠ percent ∧ c ≠ hash

theorem verbatim_unescaped (verbatim : Verbatim text) : urlUnescape text = some text := by
  induction text with
  | nil => rfl
  | cons c text ih =>
    obtain ⟨_,no_percent,no_hash⟩ := verbatim c List.mem_cons_self
    conv_lhs => unfold urlUnescape
    rw [if_neg no_percent,if_neg no_hash,ih fun d member => verbatim d (List.mem_cons_of_mem _ member),Option.map_some]

theorem verbatim_cstr (verbatim : Verbatim text) : cstr text = text := cstr_whole fun zero => (verbatim 0 zero).1 rfl

-- What a conversion can have left in `value`.
def Taken (value : List UInt8) : Prop := Verbatim value ∧ value ≠ [] ∧ cr ∉ value ∧ lf ∉ value

theorem scan_taken {start value : List UInt8} (verbatim : Verbatim start) (taken : Taken value)
    (name : List UInt8) : Taken (scanPair start name value).2 := by
  unfold scanPair
  dsimp only
  split
  · exact taken
  · split
    · exact taken
    · rename_i c rest split_at
      by_cases here : c = equals
      · simp only [if_pos here]
        by_cases empty : (rest.takeWhile fun c => c ≠ semicolon ∧ c ≠ cr ∧ c ≠ lf).take 199 = []
        · rw [if_pos empty]
          exact taken
        · rw [if_neg empty]
          have letters (d : UInt8) (member :
            d ∈ (rest.takeWhile fun c => c ≠ semicolon ∧ c ≠ cr ∧ c ≠ lf).take 199) :
            d ≠ semicolon ∧ d ≠ cr ∧ d ≠ lf := by
            have passes := List.mem_takeWhile_imp (List.mem_of_mem_take member)
            exact of_decide_eq_true passes
          refine ⟨fun d member => ?_,empty,fun member => (letters cr member).2.1 rfl,
            fun member => (letters lf member).2.2 rfl⟩
          have in_rest : d ∈ rest := (List.takeWhile_prefix _).subset (List.mem_of_mem_take member)
          have in_start : d ∈ start := List.mem_of_mem_drop (split_at ▸ List.mem_cons_of_mem c in_rest)
          exact verbatim d in_start
      · simp only [if_neg here]
        exact taken

theorem verbatim_behind (verbatim : Verbatim start) : Verbatim (behind start) := fun c member =>
  verbatim c ((List.dropWhile_suffix _).subset (List.mem_of_mem_tail member))

theorem parse_verbatim {start value : List UInt8} (verbatim : Verbatim start) (taken : Taken value)
    (name : List UInt8) (more : start ≠ [])
    (counted : ¬(segmentOf start).length % 2^32 = 0) : parseAudioInfo name value start =
      ((scanPair start name value).1,(scanPair start name value).2)::
        parseAudioInfo (scanPair start name value).1 (scanPair start name value).2 (behind start) := by
  have left := (scan_taken verbatim taken name).1
  rw [parse_step name value more,if_neg counted,verbatim_unescaped left,Option.map_some,verbatim_cstr left]
  rfl

theorem wanted_fewer (start name value : List UInt8) (verbatim : Verbatim start) (taken : Taken value) :
    (wantedPairs start).length ≤ (parseAudioInfo name value start).length := by
  induction size : start.length using Nat.strong_induction_on generalizing start name value with
  | h n ih =>
    cases start with
    | nil => exact Nat.zero_le _
    | cons c rest =>
      have more : c::rest ≠ [] := List.cons_ne_nil c rest
      have next (name value : List UInt8) (taken : Taken value) :=
        ih _ (size ▸ behind_length more) (behind (c::rest)) name value (verbatim_behind verbatim) taken rfl
      rw [wantedPairs_step]
      by_cases skipped : (segmentOf (c::rest)).length % 2^32 = 0
      · rw [parse_step name value more,if_pos skipped,wanted_skipped skipped]
        exact next name value taken
      · rw [parse_verbatim verbatim taken name more skipped,List.length_append,List.length_cons]
        have one : (wanted (segmentOf (c::rest))).toList.length ≤ 1 := by
          cases wanted (segmentOf (c::rest)) with
          | none => exact Nat.zero_le 1
          | some pair => exact Nat.le_refl 1
        have later := next (scanPair (c::rest) name value).1 _ (scan_taken verbatim taken name)
        omega

theorem parse_plain (start name value : List UInt8) (verbatim : Verbatim start) (taken : Taken value)
    (right : parseAudioInfo name value start = wantedPairs start) : AllPlain start := by
  induction size : start.length using Nat.strong_induction_on generalizing start name value with
  | h n ih =>
    cases start with
    | nil =>
      intro segment member
      rw [List.splitOnP_nil] at member
      exact List.mem_singleton.mp member ▸ .inl rfl
    | cons c rest =>
      have more : c::rest ≠ [] := List.cons_ne_nil c rest
      have next (name value : List UInt8) (taken : Taken value)
        (right : parseAudioInfo name value (behind (c::rest)) = wantedPairs (behind (c::rest))) :=
        ih _ (size ▸ behind_length more) (behind (c::rest)) name value (verbatim_behind verbatim) taken right rfl
      rw [wantedPairs_step] at right
      apply (allPlain_step (c::rest)).mpr
      by_cases skipped : (segmentOf (c::rest)).length % 2^32 = 0
      · rw [parse_step name value more,if_pos skipped,wanted_skipped skipped] at right
        exact ⟨.inl skipped,next name value taken right⟩
      · have left := scan_taken verbatim taken name
        rw [parse_verbatim verbatim taken name more skipped] at right
        cases here : wanted (segmentOf (c::rest)) with
        | none =>
          have fewer := wanted_fewer (behind (c::rest)) (scanPair (c::rest) name value).1 _
            (verbatim_behind verbatim) left
          rw [here,Option.toList_none,List.nil_append] at right
          rw [←right,List.length_cons] at fewer
          omega
        | some pair =>
          rw [here,Option.toList_some,List.singleton_append] at right
          obtain ⟨first,later⟩ := List.cons.inj right
          obtain ⟨key,text,esc,segment,clean,some_key,short,small,read,same⟩ := wanted_some here
          -- the text that is wanted is the one that was scanned
          have inside : Verbatim text := fun d member => by
            have in_segment : d ∈ segmentOf (c::rest) :=
              segment ▸ List.mem_append_right _ (List.mem_cons_of_mem _ member)
            exact verbatim d ((List.takeWhile_prefix _).subset in_segment)
          rw [verbatim_unescaped inside] at read
          cases Option.some.inj read
          rw [same,verbatim_cstr inside] at first
          have scanned : (scanPair (c::rest) name value).2 = text := congrArg Prod.snd first
          rw [scanned] at left
          exact ⟨.inr ⟨key,text,segment,some_key,clean,short,left.2.1,small,left.2.2⟩,next _ _ (scanned ▸ left) later⟩

theorem taken_letter : Taken [120] := by
  refine ⟨?_,List.cons_ne_nil _ _,by decide,by decide⟩
  intro c member
  rw [List.mem_singleton.mp member]
  decide

theorem right_plain (s : List UInt8) (verbatim : Verbatim s) (right : ParsedRight s) : AllPlain s :=
  parse_plain s [] [120] verbatim taken_letter (right [] [120]).1

-- A string of plain segments is parsed as it should; of the strings without escapes no other is.
theorem parsed_right (s : List UInt8) : (AllPlain s → ParsedRight s) ∧ (Verbatim s → ParsedRight s → AllPlain s) :=
  ⟨plain_right s,right_plain s⟩

-- A segment without '=' takes the text of the next one.
theorem neighbour_taken : ¬ParsedRight (ascii "a;b=c") := by
  intro right
  have plain := right_plain (ascii "a;b=c") (by unfold Verbatim; decide +kernel) right
  rcases plain (ascii "a") (by decide) with empty | ⟨key,text,segment,_⟩
  · exact absurd empty (by decide)
  · have member : equals ∈ ascii "a" := segment ▸ List.mem_append_right _ List.mem_cons_self
    exact absurd member (by decide)

end Icecast.AudioInfo
