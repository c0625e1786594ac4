import Icecast.Lib.Bytes
import Icecast.Httpp

namespace Icecast.SocketReaders
open Bytes Httpp

-- What recv of one byte gives: the byte, 0 at the end of the stream, or -1.
inductive Recv where
  | byte (c : UInt8)
  | closed
  | failed
deriving DecidableEq

-- buff[pos] = c; none is a write outside the buffer.
def put (buff : List UInt8) (pos : Nat) (c : UInt8) : Option (List UInt8) := memcpy buff pos [c]

structure LineRead where
  ret : Bool
  buff : List UInt8
  rest : List Recv
deriving DecidableEq

-- The loop of sock_read_line and what follows it. The head of the list is what the last recv
-- gave; a stream that is used up is closed.
def readLoop (len pos : Nat) (buff : List UInt8) : List Recv → Option LineRead
  | .byte c::rest =>
    if c ≠ lf ∧ pos < len then
      if c ≠ cr then (put buff pos c).bind fun buff => readLoop len (pos+1) buff rest
      else readLoop len pos buff rest
    else (put buff pos 0).map (⟨true,·,rest⟩)
  | .closed::rest => some ⟨false,buff,rest⟩
  | .failed::rest => some ⟨false,buff,rest⟩
  | [] => some ⟨false,buff,[]⟩

def sockReadLine (len : Nat) (buff : List UInt8) (stream : List Recv) : Option LineRead :=
  if len = 0 then some ⟨false,buff,stream⟩ else
  match stream with
  | .failed::rest => some ⟨false,buff,rest⟩
  | _ => readLoop len 0 buff stream

-- At most n calls into one buffer, while they return 1: what the buffer held after each of
-- them, and the stream behind the last of them.
def readLines (len : Nat) : Nat → List UInt8 → List Recv → Option (List (List UInt8) × List Recv)
  | 0,_,stream => some ([],stream)
  | n+1,buff,stream => (sockReadLine len buff stream).bind fun line =>
    if line.ret then (readLines len n line.buff line.rest).map fun (lines,rest) => (line.buff::lines,rest)
    else some ([],stream)

-- The variable `entire` chooses between an empty line and any line end.
def ended (entire : Bool) (buff : List UInt8) (pos : Nat) : Bool :=
  if entire then pos > 1 ∧ buff[pos-1]? = some lf ∧ buff[pos-2]? = some lf
  else pos > 1 ∧ buff[pos-1]? = some lf

def keep (buff : List UInt8) (pos : Nat) (c : UInt8) : Option (List UInt8 × Nat) :=
  if c ≠ cr then (put buff pos c).map (·,pos+1) else some (buff,pos)

-- `pos` is the local variable at the end.
structure HeaderRead where
  ret : Bool
  buff : List UInt8
  pos : Nat
deriving DecidableEq

-- if (ret) buff[pos] = '\0'
def finish (ret : Bool) (buff : List UInt8) (pos : Nat) : Option HeaderRead :=
  if ret then (put buff pos 0).map (⟨true,·,pos⟩) else some ⟨false,buff,pos⟩

-- The loop of util_read_header. A turn is a wait that times out or what recv gives after it; c
-- keeps its value where recv does not write it.
def headerLoop (len : Nat) (entire : Bool) (c : UInt8) (pos : Nat) (buff : List UInt8) :
    List (Option Recv) → Option HeaderRead
  | [] => finish false buff pos
  | turn::turns =>
    if pos < len-1 then
      match turn with
      | none => finish false buff pos
      | some .closed => finish false buff pos
      | some (.byte c) => (keep buff pos c).bind fun (buff,pos) =>
        if ended entire buff pos then finish true buff pos else headerLoop len entire c pos buff turns
      -- -1 is not 0, and it ends the loop
      | some .failed => (keep buff pos c).bind fun (buff,pos) => finish (ended entire buff pos) buff pos
    else finish false buff pos

-- `c` is uninitialised in the source.
def utilReadHeader (len : Nat) (entire : Bool) (c : UInt8) (buff : List UInt8) (turns : List (Option Recv)) :
    Option HeaderRead :=
  headerLoop len entire c 0 buff turns

-- The bytes that arrive before anything else happens.
def received : List (Option Recv) → List UInt8
  | some (.byte c)::turns => c::received turns
  | _ => []

def stripped (bytes : List UInt8) : List UInt8 := bytes.filter (· ≠ cr)

-- A line fills the buffer and goes on: `room` characters without a newline, and a byte behind them.
def Overlong (room : Nat) (bytes : List UInt8) : Prop :=
  ∃ text c rest, bytes = text++c::rest ∧ lf ∉ text ∧ (stripped text).length = room

-- The bytes behind the first newline.
def afterLine (bytes : List UInt8) : List UInt8 := (bytes.dropWhile (· ≠ lf)).tail

-- None of the first n lines is overlong.
def LinesFit (len : Nat) : Nat → List UInt8 → Prop
  | 0,_ => True
  | n+1,bytes => ¬Overlong len bytes ∧ (lf ∈ bytes → LinesFit len n (afterLine bytes))

-- What a call made of the bytes it consumed: the line is there without CR and LF and with its NUL.
def LineOf (piece buff : List UInt8) : Prop :=
  lf ∉ piece.dropLast ∧ ∃ pos, buff[pos]? = some 0 ∧ buff.take pos = piece.filter fun c => c ≠ lf ∧ c ≠ cr

-- Nothing is written outside the buffer, and the lines account for all bytes up to the last call.
def Accounted (len n : Nat) (buff : List UInt8) (stream : List Recv) : Prop :=
  ∃ lines rest pieces, readLines len n buff stream = some (lines,rest) ∧
    stream = pieces.flatten.map .byte++rest ∧ List.Forall₂ LineOf pieces lines

-- An empty line ends here.
def Closed (text : List UInt8) : Prop := [lf,lf] <:+ text

-- The characters util_read_header is to keep.
def chars (turns : List (Option Recv)) : List UInt8 := stripped (received turns)

-- Success means an empty line among the first len-1 of the characters and leaves the shortest
-- such text with its NUL; nothing that did not arrive is stored.
def HeaderFits (len : Nat) (seen : List UInt8) (out : HeaderRead) : Prop :=
  (out.ret = true ↔ ∃ header, header <+: seen.take (len-1) ∧ Closed header) ∧
    (out.ret = true → ∃ header, header <+: seen ∧
      Closed header ∧ (∀ shorter, shorter <+: header → Closed shorter → shorter = header) ∧
      out.buff.take header.length = header ∧ out.buff[header.length]? = some 0) ∧
    out.buff.take out.pos <+: seen

def ReadsHeader (len : Nat) (c : UInt8) (buff : List UInt8) (turns : List (Option Recv)) : Prop :=
  ∃ out, utilReadHeader len true c buff turns = some out ∧ HeaderFits len (chars turns) out

-- recv fails where the loop still reads, and not right behind a carriage return.
def FailsOpen (len : Nat) (turns : List (Option Recv)) : Prop :=
  ∃ bytes rest, turns = bytes.map (fun b => some (.byte b))++some .failed::rest ∧ bytes.getLast? ≠ some cr ∧
    (stripped bytes).length < len-1 ∧ ¬∃ header, header <+: stripped bytes ∧ Closed header

theorem put_append {tail : List UInt8} (text : List UInt8) (c : UInt8) (room : 0 < tail.length) :
    put (text++tail) text.length c = some (text++[c]++tail.tail) := by
  have fits : [c].length ≤ tail.length := room
  rw [put,memcpy_append fits,List.length_singleton,List.drop_one]

theorem put_outside (buff : List UInt8) (c : UInt8) : put buff buff.length c = none := if_neg (by simp)

@[simp] theorem stripped_return (bytes : List UInt8) : stripped (cr::bytes) = stripped bytes :=
  List.filter_cons_of_neg (by decide)

theorem stripped_char {c : UInt8} (char : c ≠ cr) (bytes : List UInt8) : stripped (c::bytes) = c::stripped bytes :=
  List.filter_cons_of_pos (decide_eq_true char)

theorem overlong_nil (room : Nat) : ¬Overlong room [] := by
  intro ⟨text,c,rest,split,_⟩
  simp at split

theorem overlong_full (c : UInt8) (bytes : List UInt8) : Overlong 0 (c::bytes) := ⟨[],c,bytes,rfl,List.not_mem_nil,rfl⟩

theorem overlong_newline (room : Nat) (bytes : List UInt8) : ¬Overlong (room+1) (lf::bytes) := by
  rintro ⟨text,c,rest,split,clean,width⟩
  cases text with
  | nil => cases width
  | cons b text =>
    cases (List.cons.inj split).1
    exact clean (List.mem_cons_self ..)

theorem overlong_step {b : UInt8} {room next : Nat} (line : b ≠ lf)
    (places : room+1 = (stripped [b]).length+next) (bytes : List UInt8) :
    Overlong (room+1) (b::bytes) ↔ Overlong next bytes := by
  have parts (text : List UInt8) : stripped (b::text) = stripped [b]++stripped text := List.filter_append [b] text
  constructor
  · intro ⟨text,c,rest,split,clean,width⟩
    cases text with
    | nil => cases width
    | cons d text =>
      obtain ⟨same,behind⟩ := List.cons.inj split
      subst same
      refine ⟨text,c,rest,behind,fun member => clean (List.mem_cons_of_mem _ member),?_⟩
      rw [parts,List.length_append,places] at width
      exact Nat.add_left_cancel width
  · intro ⟨text,c,rest,split,clean,width⟩
    refine ⟨b::text,c,rest,congrArg (b::·) split,fun member => ?_,?_⟩
    · cases List.mem_cons.mp member with
      | inl same => exact line same.symm
      | inr inside => exact clean inside
    · rw [parts,List.length_append,places,width]

theorem afterLine_newline (bytes : List UInt8) : afterLine (lf::bytes) = bytes := by
  rw [afterLine,List.dropWhile_cons_of_neg (by decide),List.tail_cons]

theorem afterLine_step {c : UInt8} (line : c ≠ lf) (bytes : List UInt8) : afterLine (c::bytes) = afterLine bytes := by
  have passes : decide (c ≠ lf) = true := decide_eq_true line
  rw [afterLine,List.dropWhile_cons,if_pos passes,afterLine]

theorem readLoop_step {c : UInt8} {tail : List UInt8} (text : List UInt8) (whole : text.length+tail.length = len)
    (room : 0 < tail.length)
    (line : c ≠ lf) (rest : List Recv) :
    ∃ tail', (stripped [c]).length+tail'.length = tail.length ∧
      readLoop len text.length (text++tail) (.byte c::rest) =
        readLoop len (text++stripped [c]).length (text++stripped [c]++tail') rest := by
  have inside : c ≠ lf ∧ text.length < len := ⟨line,by omega⟩
  rw [readLoop,if_pos inside]
  by_cases char : c = cr
  · subst char
    refine ⟨tail,?_,?_⟩
    · rw [stripped_return]
      exact Nat.zero_add _
    · rw [if_neg (fun differs => differs rfl),stripped_return,stripped,List.filter_nil,List.append_nil]
  · refine ⟨tail.tail,?_,?_⟩
    · rw [stripped_char char,stripped,List.filter_nil,List.length_singleton,List.length_tail]
      omega
    · rw [if_pos char,put_append text c room,Option.bind_some,stripped_char char,stripped,List.filter_nil,
        List.length_append,List.length_singleton]

theorem readLoop_overlong {stream : List Recv} {tail : List UInt8} (text : List UInt8)
    (whole : text.length+tail.length = len)
    (long : Overlong tail.length (received (stream.map some))) :
    readLoop len text.length (text++tail) stream = none := by
  induction stream generalizing text tail with
  | nil => exact absurd long (overlong_nil _)
  | cons turn stream ih =>
    cases turn with
    | closed => exact absurd long (overlong_nil _)
    | failed => exact absurd long (overlong_nil _)
    | byte c =>
      cases tail with
      | nil =>
        have full : ¬(c ≠ lf ∧ text.length < len) := fun inside => absurd whole (Nat.ne_of_lt inside.2)
        rw [readLoop,if_neg full,List.append_nil,put_outside,Option.map_none]
      | cons b tail =>
        by_cases newline : c = lf
        · subst newline
          exact absurd long (overlong_newline _ _)
        · obtain ⟨tail',places,step⟩ := readLoop_step text whole (Nat.succ_pos _) newline stream
          have long : Overlong tail'.length (received (stream.map some)) :=
            (overlong_step newline places.symm _).mp long
          rw [step]
          apply ih _ ?_ long
          rw [List.length_append,Nat.add_assoc,places]
          exact whole

theorem readLoop_line {stream : List Recv} {tail : List UInt8} (text : List UInt8)
    (whole : text.length+tail.length = len)
    (fits : ¬Overlong tail.length (received (stream.map some))) (newline : lf ∈ received (stream.map some)) :
    ∃ line rest rear, stream = (line++[lf]).map .byte++rest ∧ lf ∉ line ∧
    received (rest.map some) = afterLine (received (stream.map some)) ∧
      (stripped line).length+(rear.length+1) = tail.length ∧
      readLoop len text.length (text++tail) stream = some ⟨true,text++stripped line++0::rear,rest⟩ := by
  induction stream generalizing text tail with
  | nil => cases newline
  | cons turn stream ih =>
    cases turn with
    | closed => cases newline
    | failed => cases newline
    | byte c =>
      cases tail with
      | nil => exact absurd (overlong_full _ _) fits
      | cons b tail =>
        by_cases found : c = lf
        · subst found
          have stops : ¬(lf ≠ lf ∧ text.length < len) := fun inside => inside.1 rfl
          have room : 0 < (b::tail).length := Nat.succ_pos _
          refine ⟨[],stream,tail,rfl,List.not_mem_nil,(afterLine_newline _).symm,Nat.zero_add _,?_⟩
          rw [readLoop,if_neg stops,put_append text 0 room,Option.map_some,stripped,List.filter_nil,List.append_nil,
            List.append_assoc]
          rfl
        · obtain ⟨tail',places,step⟩ := readLoop_step text whole (Nat.succ_pos _) found stream
          have fits' : ¬Overlong tail'.length (received (stream.map some)) :=
            fun long => fits ((overlong_step found places.symm _).mpr long)
          have newline' : lf ∈ received (stream.map some) :=
            (List.mem_cons.mp newline).resolve_left fun same => found same.symm
          have whole' : (text++stripped [c]).length+tail'.length = len := by
            rw [List.length_append,Nat.add_assoc,places]
            exact whole
          obtain ⟨line,rest,rear,split,clean,behind,room,read⟩ := ih _ whole' fits' newline'
          have parts : stripped (c::line) = stripped [c]++stripped line := List.filter_append [c] line
          refine ⟨c::line,rest,rear,congrArg (Recv.byte c::·) split,?_,?_,?_,?_⟩
          · intro member
            cases List.mem_cons.mp member with
            | inl same => exact found same.symm
            | inr inside => exact clean inside
          · exact behind.trans (afterLine_step found _).symm
          · rw [parts,List.length_append,Nat.add_assoc,room,places]
          · rw [step,read,parts,List.append_assoc text]

theorem readLoop_end {stream : List Recv} {tail : List UInt8} (text : List UInt8)
    (whole : text.length+tail.length = len)
    (fits : ¬Overlong tail.length (received (stream.map some))) (newline : lf ∉ received (stream.map some)) :
    ∃ buff rest, readLoop len text.length (text++tail) stream = some ⟨false,buff,rest⟩ := by
  induction stream generalizing text tail with
  | nil => exact ⟨_,_,rfl⟩
  | cons turn stream ih =>
    cases turn with
    | closed => exact ⟨_,_,rfl⟩
    | failed => exact ⟨_,_,rfl⟩
    | byte c =>
      cases tail with
      | nil => exact absurd (overlong_full _ _) fits
      | cons b tail =>
        have found : c ≠ lf := fun same => newline (List.mem_cons.mpr (.inl same.symm))
        obtain ⟨tail',places,step⟩ := readLoop_step text whole (Nat.succ_pos _) found stream
        have whole' : (text++stripped [c]).length+tail'.length = len := by
          rw [List.length_append,Nat.add_assoc,places]
          exact whole
        rw [step]
        exact ih _ whole' (fun long => fits ((overlong_step found places.symm _).mpr long))
          fun member => newline (List.mem_cons_of_mem _ member)

theorem sockReadLine_eq (positive : 0 < len) (buff : List UInt8) (stream : List Recv) :
    sockReadLine len buff stream = readLoop len 0 buff stream := by
  unfold sockReadLine
  rw [if_neg (Nat.ne_of_gt positive)]
  cases stream with
  | nil => rfl
  | cons turn stream => cases turn <;> rfl

theorem readLines_fit {stream : List Recv} (positive : 0 < len) (size : buff.length = len)
    (fit : LinesFit len n (received (stream.map some))) : Accounted len n buff stream := by
  induction n generalizing buff stream with
  | zero => exact ⟨[],stream,[],rfl,rfl,.nil⟩
  | succ n ih =>
    obtain ⟨short,later⟩ := fit
    have whole : ([] : List UInt8).length+buff.length = len := (Nat.zero_add _).trans size
    have fits : ¬Overlong buff.length (received (stream.map some)) := size ▸ short
    by_cases newline : lf ∈ received (stream.map some)
    · obtain ⟨line,rest,rear,split,clean,behind,room,read⟩ := readLoop_line [] whole fits newline
      have here : sockReadLine len buff stream = some ⟨true,stripped line++0::rear,rest⟩ :=
        (sockReadLine_eq positive buff stream).trans read
      have size' : (stripped line++0::rear).length = len := by
        rw [List.length_append,List.length_cons,room]
        exact size
      obtain ⟨lines,left,pieces,reads,parts,all⟩ := ih size' (behind ▸ later newline)
      refine ⟨(stripped line++0::rear)::lines,left,(line++[lf])::pieces,?_,?_,.cons ?_ all⟩
      · rw [readLines,here,Option.bind_some,if_pos rfl,reads,Option.map_some]
      · rw [split,parts,List.flatten_cons,List.map_append,List.map_append,List.map_append,List.append_assoc,
          List.append_assoc,List.append_assoc]
      · refine ⟨?_,(stripped line).length,?_,?_⟩
        · rwa [List.dropLast_concat]
        · rw [List.getElem?_append_right (Nat.le_refl _),Nat.sub_self,List.getElem?_cons_zero]
        · rw [List.take_left,List.filter_append,List.filter_cons_of_neg (by decide),List.filter_nil,
            List.append_nil,stripped]
          apply List.filter_congr
          intro c member
          have line : c ≠ lf := fun same => clean (same ▸ member)
          simp only [ne_eq,line,not_false_eq_true,true_and]
    · obtain ⟨after,rest,read⟩ := readLoop_end [] whole fits newline
      have here : sockReadLine len buff stream = some ⟨false,after,rest⟩ :=
        (sockReadLine_eq positive buff stream).trans read
      refine ⟨[],stream,[],?_,rfl,.nil⟩
      rw [readLines,here,Option.bind_some,if_neg Bool.false_ne_true]

theorem readLines_long {stream : List Recv} (positive : 0 < len) (size : buff.length = len)
    (long : ¬LinesFit len n (received (stream.map some))) : readLines len n buff stream = none := by
  induction n generalizing buff stream with
  | zero => exact absurd trivial long
  | succ n ih =>
    have whole : ([] : List UInt8).length+buff.length = len := (Nat.zero_add _).trans size
    by_cases first : Overlong buff.length (received (stream.map some))
    · have here : sockReadLine len buff stream = none :=
        (sockReadLine_eq positive buff stream).trans (readLoop_overlong [] whole first)
      rw [readLines,here,Option.bind_none]
    · have later : ¬(lf ∈ received (stream.map some) → LinesFit len n (afterLine (received (stream.map some)))) :=
        fun later => long ⟨size ▸ first,later⟩
      obtain ⟨newline,unfit⟩ := Classical.not_imp.mp later
      obtain ⟨line,rest,rear,split,clean,behind,room,read⟩ := readLoop_line [] whole first newline
      have here : sockReadLine len buff stream = some ⟨true,stripped line++0::rear,rest⟩ :=
        (sockReadLine_eq positive buff stream).trans read
      have size' : (stripped line++0::rear).length = len := by
        rw [List.length_append,List.length_cons,room]
        exact size
      rw [readLines,here,Option.bind_some,if_pos rfl,ih size' (behind ▸ unfit),Option.map_none]

-- Successive calls stay inside the buffer and account for what they consume, if and only if
-- every line is shorter than the buffer (a last one without a newline may fill it).
theorem lines_accounted (positive : 0 < len) (size : buff.length = len) (n : Nat) (stream : List Recv) :
    Accounted len n buff stream ↔ LinesFit len n (received (stream.map some)) := by
  constructor
  · intro ⟨lines,rest,pieces,reads,_⟩
    by_contra long
    rw [readLines_long positive size long] at reads
    cases reads
  · exact readLines_fit positive size

theorem lines_accounted_pair : (0 < 4 ∧ [7,7,7,7].length = 4) ∧
    (Accounted 4 2 [7,7,7,7] ((ascii "abc\r\nd\n").map .byte) ↔
    LinesFit 4 2 (received (((ascii "abc\r\nd\n").map .byte).map some))) := by
  have size : ([7,7,7,7] : List UInt8).length = 4 := rfl
  exact ⟨⟨by decide,rfl⟩,lines_accounted (by decide) size 2 _⟩

-- A line as long as the buffer: the NUL goes behind its end.
theorem line_overruns : ¬Accounted 4 1 [7,7,7,7] ((ascii "abcd\n").map .byte) := by
  intro ⟨lines,rest,pieces,reads,_⟩
  have outside : readLines 4 1 [7,7,7,7] ((ascii "abcd\n").map .byte) = none := by decide +kernel
  rw [outside] at reads
  cases reads

theorem ended_closed (text tail : List UInt8) : ended true (text++tail) text.length = true ↔ Closed text := by
  rw [ended,if_pos rfl,decide_eq_true_eq]
  constructor
  · intro ⟨long,last,before⟩
    have short : text.length-2 < text.length := by omega
    have next : text.length-2+1 = text.length-1 := by omega
    rw [List.getElem?_append_left (by omega)] at last before
    obtain ⟨inside,last⟩ := List.getElem?_eq_some_iff.mp last
    obtain ⟨_,before⟩ := List.getElem?_eq_some_iff.mp before
    have rear : text.drop (text.length-2) = [lf,lf] := by
      rw [List.drop_eq_getElem_cons short,before,next,List.drop_eq_getElem_cons inside,last,
        List.drop_eq_nil_of_le (by omega)]
    exact ⟨text.take (text.length-2),rear ▸ List.take_append_drop _ text⟩
  · rintro ⟨front,rfl⟩
    have size : (front++[lf,lf]).length = front.length+2 := List.length_append
    rw [size,List.append_assoc]
    refine ⟨by omega,?_,?_⟩
    · rw [List.getElem?_append_right (by omega),show front.length+2-1-front.length = 1 by omega]
      rfl
    · rw [List.getElem?_append_right (by omega),show front.length+2-2-front.length = 0 by omega]
      rfl

theorem keep_text {c : UInt8} {tail : List UInt8} (text : List UInt8) (room : 0 < tail.length) :
    ∃ tail', (stripped [c]).length+tail'.length = tail.length ∧
      keep (text++tail) text.length c = some (text++stripped [c]++tail',(text++stripped [c]).length) := by
  unfold keep
  by_cases char : c = cr
  · subst char
    rw [if_neg (fun differs => differs rfl),stripped_return,stripped,List.filter_nil,List.append_nil]
    exact ⟨tail,Nat.zero_add _,rfl⟩
  · rw [if_pos char,put_append text c room,stripped_char char,stripped,List.filter_nil,
      Option.map_some,List.length_append]
    refine ⟨tail.tail,?_,rfl⟩
    rw [List.length_tail,List.length_singleton]
    omega

theorem stripped_cons (b : UInt8) (bytes : List UInt8) : stripped (b::bytes) = stripped [b]++stripped bytes :=
  List.filter_append [b] bytes

theorem chars_byte (b : UInt8) (turns : List (Option Recv)) :
    chars (some (.byte b)::turns) = stripped [b]++chars turns :=
  stripped_cons b (received turns)

def Unclosed (text : List UInt8) : Prop := ∀ header, header <+: text → ¬Closed header

theorem stopped_fits {text tail seen : List UInt8} (unclosed : Unclosed text) (all : seen.take (len-1) = text) :
    HeaderFits len seen ⟨false,text++tail,text.length⟩ := by
  have fails : false ≠ true := Bool.false_ne_true
  refine ⟨⟨fun success => absurd success fails,?_⟩,fun success => absurd success fails,?_⟩
  · intro ⟨header,inside,closed⟩
    exact absurd closed (unclosed header (all ▸ inside))
  · rw [List.take_left,←all]
    exact List.take_prefix _ _

theorem closed_fits {text rear seen : List UInt8} {b : UInt8} (unclosed : Unclosed text) (closed : Closed (text++[b]))
    (begins : text++[b] <+: seen) (short : (text++[b]).length ≤ len-1) :
    HeaderFits len seen ⟨true,text++[b]++0::rear,(text++[b]).length⟩ := by
  refine ⟨⟨fun _ => ?_,fun _ => rfl⟩,fun _ => ?_,?_⟩
  · exact ⟨_,List.prefix_take_iff.mpr ⟨begins,short⟩,closed⟩
  · refine ⟨text++[b],begins,closed,?_,List.take_left,?_⟩
    · intro shorter inside ends
      cases List.prefix_concat_iff.mp inside with
      | inl same => exact same
      | inr before => exact absurd ends (unclosed shorter before)
    · rw [List.getElem?_append_right (Nat.le_refl _),Nat.sub_self,List.getElem?_cons_zero]
  · rw [List.take_left]
    exact begins

-- FailsOpen from the middle of the loop, with what is stored and the last value of c.
def FailsFrom (len : Nat) (c : UInt8) (text : List UInt8) (turns : List (Option Recv)) : Prop :=
  ∃ bytes rest, turns = bytes.map (fun b => some (.byte b))++some .failed::rest ∧ bytes.getLastD c ≠ cr ∧
    (text++stripped bytes).length < len-1 ∧ Unclosed (text++stripped bytes)

theorem fails_later {b c : UInt8} (fails : FailsFrom len b (text++stripped [b]) turns) :
    FailsFrom len c text (some (.byte b)::turns) := by
  obtain ⟨bytes,rest,split,last,short,unclosed⟩ := fails
  rw [List.append_assoc,←stripped_cons] at short unclosed
  exact ⟨b::bytes,rest,congrArg (some (Recv.byte b)::·) split,(List.getLastD_cons ..).symm ▸ last,short,unclosed⟩

theorem unclosed_keep {b : UInt8} (unclosed : Unclosed text) (goes : ¬Closed (text++stripped [b])) :
    Unclosed (text++stripped [b]) := by
  by_cases char : b = cr
  · subst char
    rw [stripped_return,stripped,List.filter_nil,List.append_nil]
    exact unclosed
  · rw [stripped_char char,stripped,List.filter_nil] at goes ⊢
    intro header inside
    cases List.prefix_concat_iff.mp inside with
    | inl same => exact same ▸ goes
    | inr before => exact unclosed header before

theorem headerLoop_fits {turns : List (Option Recv)} {text tail : List UInt8}
    (whole : text.length+tail.length = len) (room : 0 < tail.length)
    (unclosed : Unclosed text) (good : ¬FailsFrom len c text turns) :
    ∃ out, headerLoop len true c text.length (text++tail) turns = some out ∧
    HeaderFits len (text++chars turns) out := by
  have inside : text.length ≤ len-1 := by omega
  have idle (same : chars turns = []) : (text++chars turns).take (len-1) = text := by
    rw [same,List.append_nil,List.take_of_length_le inside]
  induction turns generalizing text tail c with
  | nil => exact ⟨_,rfl,stopped_fits unclosed (idle rfl)⟩
  | cons turn turns ih =>
    unfold headerLoop
    by_cases open_ : text.length < len-1
    · rw [if_pos open_]
      cases turn with
      | none => exact ⟨_,rfl,stopped_fits unclosed (idle rfl)⟩
      | some got =>
        obtain ⟨tail',places,kept⟩ := keep_text (c := c) text room
        cases got with
        | closed => exact ⟨_,rfl,stopped_fits unclosed (idle rfl)⟩
        | failed =>
          have stale : c = cr := by
            by_contra char
            refine good ⟨[],turns,rfl,char,?_,?_⟩
            · rwa [stripped,List.filter_nil,List.append_nil]
            · rwa [stripped,List.filter_nil,List.append_nil]
          subst stale
          rw [stripped_return,stripped,List.filter_nil,List.append_nil] at kept
          have goes : ended true (text++tail') text.length = false :=
            Bool.eq_false_iff.mpr fun ends => unclosed text (List.prefix_refl _) ((ended_closed _ _).mp ends)
          refine ⟨⟨false,text++tail',text.length⟩,?_,stopped_fits unclosed (idle rfl)⟩
          rw [kept,Option.bind_some]
          simp only [goes]
          rfl
        | byte b =>
          obtain ⟨tail',places,kept⟩ := keep_text (c := b) text room
          have width : (stripped [b]).length ≤ 1 := List.length_filter_le _ _
          have whole' : (text++stripped [b]).length+tail'.length = len := by
            rw [List.length_append,Nat.add_assoc,places]
            exact whole
          have room' : 0 < tail'.length := by omega
          rw [chars_byte,←List.append_assoc]
          simp only [kept,Option.bind_some]
          by_cases closes : Closed (text++stripped [b])
          · rw [if_pos ((ended_closed _ _).mpr closes),finish,if_pos rfl,put_append _ 0 room',Option.map_some]
            have char : b ≠ cr := by
              intro same
              subst same
              rw [stripped_return,stripped,List.filter_nil,List.append_nil] at closes
              exact unclosed text (List.prefix_refl _) closes
            have one : stripped [b] = [b] := stripped_char char []
            rw [one] at closes whole' ⊢
            refine ⟨_,rfl,?_⟩
            rw [List.append_assoc (text++[b])]
            exact closed_fits unclosed closes (List.prefix_append _ _) (by omega)
          · rw [if_neg fun ends => closes ((ended_closed _ _).mp ends)]
            have unclosed' := unclosed_keep unclosed closes
            refine ih whole' room' unclosed' (fun fails => good (fails_later fails)) (by omega) ?_
            intro same
            rw [same,List.append_nil,List.take_of_length_le (by omega)]
    · rw [if_neg open_]
      refine ⟨_,rfl,stopped_fits unclosed ?_⟩
      have full : len-1 = text.length := by omega
      rw [full,List.take_left]

theorem headerLoop_stale {turns : List (Option Recv)} {text tail : List UInt8}
    (whole : text.length+tail.length = len) (room : 0 < tail.length)
    (fails : FailsFrom len c text turns) :
    ∃ out, headerLoop len true c text.length (text++tail) turns = some out ∧
    ¬out.buff.take out.pos <+: text++chars turns := by
  obtain ⟨bytes,rest,rfl,last,short,unclosed⟩ := fails
  induction bytes generalizing text tail c with
  | nil =>
    rw [stripped,List.filter_nil,List.append_nil] at short
    have char : c ≠ cr := last
    have one : stripped [c] = [c] := stripped_char char []
    obtain ⟨tail',places,kept⟩ := keep_text (c := c) text room
    rw [one] at places kept
    have room' : 0 < tail'.length := by
      rw [List.length_singleton] at places
      omega
    have more (rear : List UInt8) : ¬(text++[c]++rear).take (text++[c]).length <+: text++[] := by
      rw [List.take_left,List.append_nil]
      intro begins
      have longer := begins.length_le
      rw [List.length_append,List.length_singleton] at longer
      omega
    rw [List.map_nil,List.nil_append,headerLoop,if_pos short]
    simp only [kept,Option.bind_some,finish]
    split
    · rw [put_append _ 0 room',Option.map_some]
      refine ⟨_,rfl,?_⟩
      rw [List.append_assoc (text++[c])]
      exact more _
    · exact ⟨_,rfl,more _⟩
  | cons b bytes ih =>
    rw [stripped_cons,←List.append_assoc] at short unclosed
    obtain ⟨tail',places,kept⟩ := keep_text (c := b) text room
    have whole' : (text++stripped [b]).length+tail'.length = len := by
      rw [List.length_append,Nat.add_assoc,places]
      exact whole
    have before : (text++stripped [b]).length ≤ (text++stripped [b]++stripped bytes).length :=
      (List.prefix_append _ _).length_le
    have here : text.length ≤ (text++stripped [b]).length := (List.prefix_append _ _).length_le
    rw [List.getLastD_cons] at last
    have goes : ¬Closed (text++stripped [b]) := unclosed _ (List.prefix_append _ _)
    rw [List.map_cons,List.cons_append,headerLoop,if_pos (by omega),chars_byte,←List.append_assoc]
    simp only [kept,Option.bind_some]
    rw [if_neg fun ends => goes ((ended_closed _ _).mp ends)]
    exact ih whole' (by omega) last short unclosed

-- The reader meets its purpose whatever the uninitialised character is, if and only if recv
-- does not fail while the loop reads (right behind a carriage return it may).
theorem header_read (long : 2 ≤ len) (size : buff.length = len) (turns : List (Option Recv)) :
    (∀ c, ReadsHeader len c buff turns) ↔ ¬FailsOpen len turns := by
  have whole : ([] : List UInt8).length+buff.length = len := (Nat.zero_add _).trans size
  have room : 0 < buff.length := by omega
  have start : Unclosed [] := fun header inside closed => by
    have longer := closed.length_le.trans inside.length_le
    exact absurd longer (by decide)
  constructor
  · intro reads ⟨bytes,rest,split,last,short,open_⟩
    have fails : FailsFrom len 0 [] turns := by
      refine ⟨bytes,rest,split,?_,short,fun header inside closed => open_ ⟨header,inside,closed⟩⟩
      rw [List.getLastD_eq_getLast?]
      cases ends : bytes.getLast? with
      | none => exact (by decide : (0 : UInt8) ≠ cr)
      | some b => exact fun same => last (ends.trans (congrArg some same))
    obtain ⟨out,ran,extra⟩ := headerLoop_stale whole room fails
    obtain ⟨out',ran',fits⟩ := reads 0
    cases Option.some.inj (ran.symm.trans ran')
    exact extra fits.2.2
  · intro good c
    apply headerLoop_fits whole room start
    intro ⟨bytes,rest,split,last,short,unclosed⟩
    refine good ⟨bytes,rest,split,fun ends => last ?_,short,fun ⟨header,inside,closed⟩ => unclosed header inside closed⟩
    rw [List.getLastD_eq_getLast?,ends,Option.getD_some]

theorem header_read_short : (2 ≤ 8 ∧ (List.replicate 8 (0 : UInt8)).length = 8) ∧
    ((∀ c, ReadsHeader 8 c (List.replicate 8 0) ((ascii "a\r\n\r\n").map fun b => some (.byte b))) ↔
      ¬FailsOpen 8 ((ascii "a\r\n\r\n").map fun b => some (.byte b))) :=
  ⟨⟨by decide,rfl⟩,header_read (by decide) List.length_replicate _⟩

-- recv fails behind the first newline: the newline is stored again and taken for an empty line.
theorem stale_newline : ¬ReadsHeader 8 0 (List.replicate 8 0)
    ((ascii "a\n").map (fun b => some (.byte b))++[some .failed]) := by
  intro ⟨out,ran,success,_⟩
  have false_end : utilReadHeader 8 true 0 (List.replicate 8 0)
    ((ascii "a\n").map (fun b => some (.byte b))++[some .failed]) =
      some ⟨true,[97,10,10,0,0,0,0,0],3⟩ := by decide +kernel
  rw [false_end] at ran
  cases Option.some.inj ran
  obtain ⟨header,inside,closed⟩ := success.mp rfl
  have begins : header <+: [97,10] := inside
  have ends : header.length ≤ 2 := begins.length_le
  have same : header = [97,10] := begins.eq_of_length (Nat.le_antisymm ends closed.length_le)
  subst same
  exact absurd (closed.eq_of_length rfl) (by decide)

end Icecast.SocketReaders
