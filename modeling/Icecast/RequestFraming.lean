import Icecast.Lib.Terminator
import Icecast.HttppHeaders

namespace Icecast.RequestFraming
open Bytes Httpp Terminator

-- PER_CLIENT_REFBUF_SIZE, less the byte for the NUL
def bufferRoom : Nat := 4095

-- client_queue_t with the part of its client's buffer that is filled, `node->offset` bytes.
structure QueueNode where
  data : List UInt8
  streamOffset : Nat
  shoutcast : Nat
deriving DecidableEq

-- The ends of a password line and of a header block, in the order they are looked for.
def passwordEnds : List (List UInt8) := [[cr,cr,lf],[cr,lf],[lf]]
def terminators : List (List UInt8) := [[cr,cr,lf,cr,cr,lf],[cr,lf,cr,lf],[lf,lf]]

-- One turn of process_request_queue for a client that had data to read, and pass_it.
def readNode (node : QueueNode) (chunk : List UInt8) : QueueNode × Bool :=
  let node := {node with data := node.data++chunk}
  if node.shoutcast = 1 ∧ (search passwordEnds (cstr node.data)).isSome then (node,true) else
  match search terminators (cstr node.data) with
  | some (_,headerEnd) => ({node with streamOffset := headerEnd},true)
  | none => (node,false)

-- What _handle_shoutcast_compatible takes from the configuration.
structure Port where
  shoutcastMount : List UInt8
  sourcePassword : Option (List UInt8)

inductive Handled where
  | requeued (node : QueueNode)
  | accepted (parser : Parser)
  | dropped

def sourceLine (mount : List UInt8) : List UInt8 := ascii "SOURCE "++mount++ascii " HTTP/1.0\r\n"

def handleShoutcastCompatible (port : Port) (node : QueueNode) : Handled :=
  let text := cstr node.data
  if node.shoutcast = 1 then
    match search passwordEnds text with
    | none => .dropped
    | some (ptr,headers) =>
      if port.sourcePassword = some (text.take ptr) then .requeued
        {node with data := node.data.drop headers,shoutcast := 2} else .dropped
  else
    match httppParse (sourceLine port.shoutcastMount++text) with
    | some parser => .accepted parser
    | none => .dropped

def handleConnection (port : Port) (node : QueueNode) : Handled :=
  if node.shoutcast ≠ 0 then handleShoutcastCompatible port node else
  match httppParse node.data with
  | some parser => .accepted parser
  | none => .dropped

-- A request that was framed: its header block, what it parsed to, the bytes that are left in
-- the buffer behind it, and those not read yet.
structure Framed where
  header : List UInt8
  parser : Parser
  left : List UInt8
  unread : List UInt8

-- The reads of a stream: one ends behind byte i where `cuts i`, when the buffer is full, and
-- with the stream. none is a request that is rejected, in the end by the header timeout.
def run (port : Port) (cuts : Nat → Bool) (i : Nat) (node : QueueNode) (chunk : List UInt8) : List UInt8 → Option Framed
  | [] => none
  | c::stream =>
    let chunk := chunk++[c]
    if cuts i ∨ stream = [] ∨ node.data.length+chunk.length = bufferRoom then
      let read := readNode node chunk
      if read.2 then
        match handleConnection port read.1 with
        | .requeued node => run port cuts (i+1) node [] stream
        | .accepted parser => some ⟨read.1.data.take read.1.streamOffset,parser,
          read.1.data.drop read.1.streamOffset,stream⟩
        | .dropped => none
      else if read.1.data.length = bufferRoom then none
      else run port cuts (i+1) read.1 [] stream
    else run port cuts (i+1) node chunk stream

-- What becomes of a node that is passed on.
def passed (port : Port) (cuts : Nat → Bool) (i : Nat) (node : QueueNode) (stream : List UInt8) : Option Framed :=
  match handleConnection port node with
  | .requeued node => run port cuts i node [] stream
  | .accepted parser => some ⟨node.data.take node.streamOffset,parser,node.data.drop node.streamOffset,stream⟩
  | .dropped => none

def kindsOf (node : QueueNode) : List (List UInt8) := if node.shoutcast = 1 then passwordEnds else terminators

-- The text the searches can come to see.
def window (stream : List UInt8) : List UInt8 := cstr (stream.take bufferRoom)

theorem cstr_take (text : List UInt8) (n : Nat) : cstr (text.take n) = (cstr text).take n := by
  induction text generalizing n with
  | nil => simp [cstr]
  | cons c text ih =>
    cases n with
    | zero => simp [cstr]
    | succ n =>
      unfold cstr at ih ⊢
      rw [List.take_succ_cons,List.takeWhile_cons,List.takeWhile_cons,ih]
      split
      · rw [List.take_succ_cons]
      · simp

theorem window_take (low : m ≤ bufferRoom) : cstr (stream.take m) = (window stream).take m := by
  rw [window,←cstr_take,List.take_take,Nat.min_eq_left low]

theorem window_prefix (stream : List UInt8) : window stream <+: stream :=
  (List.takeWhile_prefix _).trans (List.take_prefix _ _)

theorem window_length (stream : List UInt8) : (window stream).length ≤ bufferRoom ∧
    (window stream).length ≤ stream.length := by
  have inside := (List.takeWhile_prefix (p := (· ≠ (0 : UInt8))) (l := stream.take bufferRoom)).length_le
  rw [List.length_take] at inside
  exact ⟨Nat.le_trans inside (Nat.min_le_left ..),Nat.le_trans inside (Nat.min_le_right ..)⟩

theorem terminators_none (none_found : search passwordEnds text = none) : search terminators text = none := by
  refine search_none.mpr fun t member occurs => ?_
  have line : [lf] <:+: t := by
    simp only [terminators,List.mem_cons,List.not_mem_nil,or_false] at member
    rcases member with rfl | rfl | rfl <;> decide
  exact search_none.mp none_found [lf] (by decide) (line.trans occurs)

theorem readNode_pass (node : QueueNode) (chunk : List UInt8) : readNode node chunk =
    match search (kindsOf node) (cstr (node.data++chunk)) with
    | some split => ({node with data := node.data++chunk,streamOffset :=
    if node.shoutcast = 1 then node.streamOffset else split.2},true)
    | none => ({node with data := node.data++chunk},false) := by
  unfold readNode kindsOf
  by_cases password : node.shoutcast = 1
  · cases found : search passwordEnds (cstr (node.data++chunk)) with
    | none => simp [password,found,terminators_none found]
    | some split => simp [password,found]
  · cases found : search terminators (cstr (node.data++chunk)) with
    | none => simp [password,found]
    | some split => simp [password,found]

theorem window_all (stream : List UInt8) (whole : m = bufferRoom ∨ m = stream.length) :
    (window stream).take m = window stream := by
  have lengths := window_length stream
  exact List.take_of_length_le (by omega)

theorem run_read (port : Port) (cuts : Nat → Bool) (i : Nat) (node : QueueNode) (chunk rest : List UInt8)
    (room : node.data.length+chunk.length < bufferRoom) (more : rest ≠ []) (whole : stream = node.data++(chunk++rest)) :
    (∃ m split, node.data.length+chunk.length < m ∧ m ≤ stream.length ∧ m ≤ bufferRoom ∧
      search (kindsOf node) ((window stream).take m) = some split ∧
      (∃ k, run port cuts i node chunk rest = passed port cuts k
        {node with data := stream.take m,streamOffset :=
        if node.shoutcast = 1 then node.streamOffset else split.2} (stream.drop m)) ∧
      ((∀ k, cuts k = false) → m = min stream.length bufferRoom)) ∨
    (search (kindsOf node) (window stream) = none ∧ run port cuts i node chunk rest = none) := by
  induction rest generalizing i node chunk with
  | nil => exact absurd rfl more
  | cons c rest ih =>
    have length : stream.length = node.data.length+(chunk++[c]).length+rest.length := by
      rw [whole]
      simp
      omega
    have longer : (chunk++[c]).length = chunk.length+1 := by simp
    have data : node.data++(chunk++[c]) = stream.take (node.data.length+(chunk++[c]).length) := by
      rw [whole,show node.data++(chunk++c::rest) = (node.data++(chunk++[c]))++rest by simp,List.take_left' (by simp)]
    have left : rest = stream.drop (node.data.length+(chunk++[c]).length) := by
      rw [whole,show node.data++(chunk++c::rest) = (node.data++(chunk++[c]))++rest by simp,List.drop_left' (by simp)]
    rw [run]
    dsimp only
    by_cases cut : cuts i = true ∨ rest = [] ∨ node.data.length+(chunk++[c]).length = bufferRoom
    · rw [if_pos cut,readNode_pass,data,window_take (by omega)]
      cases found : search (kindsOf node) ((window stream).take (node.data.length+(chunk++[c]).length)) with
      | some split =>
        refine .inl ⟨_,split,by omega,by omega,by omega,found,⟨i+1,?_⟩,fun off => ?_⟩
        · dsimp only
          rw [if_pos rfl,←left]
          rfl
        · rw [off i] at cut
          rcases cut with on | last | full
          · cases on
          · rw [last,List.length_nil] at length
            omega
          · omega
      | none =>
        dsimp only
        rw [if_neg (by decide),List.length_take,Nat.min_eq_left (by omega)]
        by_cases full : node.data.length+(chunk++[c]).length = bufferRoom
        · rw [if_pos full]
          rw [window_all stream (.inl full)] at found
          exact .inr ⟨found,rfl⟩
        · rw [if_neg full]
          by_cases last : rest = []
          · subst last
            rw [window_all stream (.inr (by rw [length,List.length_nil,Nat.add_zero]))] at found
            exact .inr ⟨found,rfl⟩
          · have next := ih (i+1) {node with data := stream.take (node.data.length+(chunk++[c]).length)}
              [] (by simp; omega) last
              (by rw [List.nil_append,←data,whole]; simp)
            simp only [List.length_nil,Nat.add_zero,List.length_take] at next
            rw [Nat.min_eq_left (by omega)] at next
            rcases next with ⟨m,split,low,rest_of⟩ | stuck
            · exact .inl ⟨m,split,by omega,rest_of⟩
            · exact .inr stuck
    · rw [if_neg cut]
      simp only [not_or] at cut
      rcases ih (i+1) node (chunk++[c]) (by omega) cut.2.1 (by rw [whole]; simp) with ⟨m,split,low,rest_of⟩ | stuck
      · exact .inl ⟨m,split,by omega,rest_of⟩
      · exact .inr stuck

-- The request as one that reads byte by byte and stops at the first end frames it.
def plainly (parse : List UInt8 → Option Parser) (stream : List UInt8) : Option (List UInt8 × Parser) :=
  (firstEnd terminators (window stream)).bind fun headerEnd =>
    (parse ((window stream).take headerEnd)).map fun parser => ((window stream).take headerEnd,parser)

def parseSource (port : Port) (text : List UInt8) : Option Parser := httppParse (sourceLine port.shoutcastMount++text)

def httpFraming (stream : List UInt8) : Option (List UInt8 × Parser) := plainly httppParse stream

-- The password line, and the headers behind it.
def shoutcastFraming (port : Port) (stream : List UInt8) : Option (List UInt8 × Parser) :=
  (firstSplit passwordEnds (window stream)).bind fun split =>
    if port.sourcePassword = some ((window stream).take split.1) then plainly (parseSource port)
      (stream.drop split.2) else none

def Framed.framing (f : Framed) : List UInt8 × Parser := (f.header,f.parser)

def httpNode : QueueNode := ⟨[],0,0⟩
def shoutcastNode : QueueNode := ⟨[],0,1⟩

theorem terminator_blank (member : t ∈ terminators) : Blank t := by
  simp only [terminators,List.mem_cons,List.not_mem_nil,or_false] at member
  rcases member with rfl | rfl | rfl
  · exact ⟨[cr,cr],cr,[cr,lf],rfl,.inr rfl⟩
  · exact ⟨[cr],cr,[lf],rfl,.inr rfl⟩
  · exact ⟨[],lf,[],rfl,.inl rfl⟩

theorem firstEnd_blank (first : firstEnd terminators text = some m) : Blank (text.take m) := by
  obtain ⟨_,⟨t,member,front,whole⟩,_⟩ := firstEnd_some first
  obtain ⟨before,d,back,rfl,empty⟩ := terminator_blank member
  exact ⟨front++before,d,back,by rw [←whole]; simp,empty⟩

theorem blank_behind (blank : Blank text) (front : List UInt8) : Blank (front++text) := by
  obtain ⟨before,d,back,rfl,empty⟩ := blank
  exact ⟨front++before,d,back,by simp,empty⟩

-- A parse that does not look behind the empty line.
def Headed (parse : List UInt8 → Option Parser) : Prop := ∀ text more, Blank text → parse (text++more) = parse text

theorem httppParse_headed : Headed httppParse := fun _ more blank => httppParse_more blank more

theorem parseSource_headed (port : Port) : Headed (parseSource port) := fun text more blank => by
  rw [parseSource,←List.append_assoc,httppParse_more (blank_behind blank _)]
  rfl

theorem header_found (headed : Headed parse) (low : m ≤ bufferRoom) (inside : m ≤ stream.length)
    (text : List UInt8) (shape : text = stream.take m ∨ text = (window stream).take m)
    (found : search terminators ((window stream).take m) = some split) :
    (plainly parse stream = none → parse text = none) ∧
    (Tidy terminators (window stream) → (parse text).map (fun parser => ((stream.take m).take split.2,parser)) =
    plainly parse stream) ∧
    (plainly parse stream ≠ none → (parse text).map (fun parser => ((stream.take m).take split.2,parser)) =
    plainly parse stream →
      m = min stream.length bufferRoom → Tidy terminators (window stream)) := by
  obtain ⟨i,h⟩ := split
  cases first : firstEnd terminators (window stream) with
  | none => rw [search_never first] at found; cases found
  | some e =>
    have later := search_later first found
    obtain ⟨_,_,_,_,_,fits,below,_⟩ := search_some found
    have lengths := window_length stream
    have same : ∀ n ≤ (window stream).length, stream.take n = (window stream).take n := by
      intro n inside
      obtain ⟨rest,whole⟩ := window_prefix stream
      conv => lhs; rw [←whole]
      exact List.take_append_of_le_length inside
    -- the text holds the header block up to its first end
    have parsed : parse text = parse ((window stream).take e) := by
      have split : ∃ more, text = (window stream).take e++more := by
        rcases shape with rfl | rfl
        · refine ⟨(stream.drop e).take (m-e),?_⟩
          rw [←same e (by omega),←List.take_add,Nat.add_sub_cancel' (by omega)]
        · refine ⟨((window stream).drop e).take (m-e),?_⟩
          rw [←List.take_add,Nat.add_sub_cancel' (by omega)]
      obtain ⟨more,rfl⟩ := split
      exact headed _ more (firstEnd_blank first)
    have header : (stream.take m).take h = (window stream).take h := by
      rw [List.take_take,Nat.min_eq_left below,same h fits]
    dsimp only
    rw [plainly,first,Option.bind_some,parsed,header]
    refine ⟨fun refused => Option.map_eq_none_iff.mp refused,fun tidy => ?_,fun accepted agree last => ?_⟩
    · obtain ⟨j,there,_⟩ := tidy.search first (show e ≤ m by omega)
      cases found.symm.trans there
      rfl
    · obtain ⟨parser,ok⟩ : ∃ parser, parse ((window stream).take e) = some parser :=
        Option.ne_none_iff_exists'.mp fun refused => accepted (by rw [refused]; rfl)
      rw [ok,Option.map_some,Option.map_some] at agree
      have lengths := congrArg (fun x => x.1.length) (Option.some.inj agree)
      simp only [List.length_take] at lengths
      have eq : h = e := by omega
      subst eq
      rw [window_all stream (by omega)] at found
      exact tidy_of_search first found

def parserOf (port : Port) (node : QueueNode) : List UInt8 → Option Parser :=
  if node.shoutcast = 0 then httppParse else parseSource port

theorem parserOf_headed (port : Port) (node : QueueNode) : Headed (parserOf port node) := by
  unfold parserOf
  split
  · exact httppParse_headed
  · exact parseSource_headed port

theorem passed_header (port : Port) (cuts : Nat → Bool) (k : Nat) (node : QueueNode)
    (headers : node.shoutcast ≠ 1) (low : m ≤ bufferRoom)
    (rest : List UInt8) : ∃ text, (text = stream.take m ∨ text = (window stream).take m) ∧
      (passed port cuts k {node with data := stream.take m,streamOffset := headerEnd} rest).map Framed.framing =
        (parserOf port node text).map fun parser => ((stream.take m).take headerEnd,parser) := by
  unfold passed handleConnection parserOf
  by_cases http : node.shoutcast = 0
  · refine ⟨stream.take m,.inl rfl,?_⟩
    simp only [http,ne_eq,not_true_eq_false,if_false,if_true]
    cases httppParse (stream.take m) <;> rfl
  · refine ⟨(window stream).take m,.inr rfl,?_⟩
    simp only [http,ne_eq,not_false_eq_true,if_true,if_false,handleShoutcastCompatible,if_neg headers,
      window_take low,parseSource]
    cases httppParse (sourceLine port.shoutcastMount++(window stream).take m) <;> rfl

theorem header_reads (port : Port) (cuts : Nat → Bool) (i : Nat) (node : QueueNode) (rest : List UInt8)
    (headers : node.shoutcast ≠ 1)
    (room : node.data.length < bufferRoom) (more : rest ≠ []) (whole : stream = node.data++rest) :
    (plainly (parserOf port node) stream = none → (run port cuts i node [] rest).map Framed.framing = none) ∧
    (Tidy terminators (window stream) → (run port cuts i node [] rest).map Framed.framing = plainly
    (parserOf port node) stream) ∧
    (plainly (parserOf port node) stream ≠ none → (run port cuts i node [] rest).map Framed.framing = plainly
    (parserOf port node) stream →
      (∀ k, cuts k = false) → Tidy terminators (window stream)) := by
  have kinds : kindsOf node = terminators := if_neg headers
  rcases run_read port cuts i node [] rest (by simpa using room) more (by simpa using whole) with
    ⟨m,split,_,inside,low,found,⟨k,result⟩,last⟩ | ⟨missing,result⟩
  · rw [kinds] at found
    rw [if_neg headers] at result
    obtain ⟨text,shape,framed⟩ := @passed_header _ stream split.2 port cuts k node headers low (stream.drop m)
    obtain ⟨refused,tidy,back⟩ := header_found (parserOf_headed port node) low inside text shape found
    rw [result,framed]
    exact ⟨fun vacant => by rw [refused vacant]; rfl,tidy,fun accepted agree off => back accepted agree (last off)⟩
  · rw [kinds] at missing
    have never : plainly (parserOf port node) stream = none := by
      unfold plainly
      cases first : firstEnd terminators (window stream) with
      | none => rfl
      | some e =>
        obtain ⟨inside,⟨t,member,ends⟩,_⟩ := firstEnd_some first
        exact absurd (infix_iff.mpr ⟨e,inside,ends⟩) (search_none.mp missing t member)
    rw [result,never]
    exact ⟨fun _ => rfl,fun _ => rfl,fun accepted => absurd rfl accepted⟩

theorem passed_password (port : Port) (cuts : Nat → Bool) (k : Nat) (low : m ≤ bufferRoom) (rest : List UInt8)
    (found : search passwordEnds ((window stream).take m) = some (ptr,headers)) :
    passed port cuts k ⟨stream.take m,0,1⟩ rest = if port.sourcePassword = some ((window stream).take ptr)
      then run port cuts k ⟨(stream.take m).drop headers,0,2⟩ [] rest else none := by
  obtain ⟨_,_,_,_,length,_,below,_⟩ := search_some found
  unfold passed handleConnection
  simp only [handleShoutcastCompatible,ne_eq,Nat.one_ne_zero,not_false_eq_true,if_true,
    window_take low,found,List.take_take,
    Nat.min_eq_left (show ptr ≤ m by omega)]
  by_cases right : port.sourcePassword = some ((window stream).take ptr)
  · simp only [if_pos right]
  · simp only [if_neg right]

theorem passwordEnds_lf (member : t ∈ passwordEnds) : (∃ front, t = front++[lf]) ∧ ∀ k < t.length, lf ∉ t.take k := by
  simp only [passwordEnds,List.mem_cons,List.not_mem_nil,or_false] at member
  rcases member with rfl | rfl | rfl
  · exact ⟨⟨[cr,cr],rfl⟩,by decide⟩
  · exact ⟨⟨[cr],rfl⟩,by decide⟩
  · exact ⟨⟨[],rfl⟩,by decide⟩

theorem late_password (first : firstEnd passwordEnds text = some e)
    (found : search passwordEnds (text.take m) = some (ptr,headers))
    (late : headers ≠ e) : lf ∈ text.take ptr := by
  have later := search_later first found
  obtain ⟨_,⟨t,member,front,whole⟩,_⟩ := firstEnd_some first
  obtain ⟨before,u,after,shape,length,fits,_,⟨back,there⟩,_,_⟩ := search_some found
  have member' : u ∈ passwordEnds := by
    rw [shape]
    simp
  obtain ⟨⟨line,rfl⟩,_⟩ := passwordEnds_lf member
  have here : lf ∈ text.take e := by
    rw [←whole]
    simp
  by_contra absent
  by_cases short : e ≤ ptr
  · exact absent ((List.take_prefix_take_left short).subset here)
  · -- the first end would lie inside the later one
    have size : back.length = ptr := by
      have sizes := congrArg List.length there
      rw [List.length_append,List.length_take] at sizes
      omega
    have inner : ∀ n ≤ headers, text.take n = (back++u).take n := fun n below => by
      rw [there,List.take_take,Nat.min_eq_left below]
    have part : text.take e = back++u.take (e-ptr) := by
      rw [inner e later,List.take_append,size,List.take_of_length_le (by omega)]
    have same : text.take ptr = back := by
      rw [inner ptr (by omega),←size,List.take_left]
    rw [part,List.mem_append] at here
    rcases here with front | inner
    · exact absent (same ▸ front)
    · exact (passwordEnds_lf member').2 (e-ptr) (by omega) inner

-- When a shoutcast login is framed the same way however it is read.
def ShoutcastSteady (port : Port) (stream : List UInt8) : Prop :=
  (shoutcastFraming port stream = none ∧ (Tidy passwordEnds (window stream) ∨ ∀ password,
    port.sourcePassword = some password → lf ∉ password)) ∨
  (Tidy passwordEnds (window stream) ∧ bufferRoom < stream.length ∧
    ∀ split, firstSplit passwordEnds (window stream) = some split → Tidy terminators (window (stream.drop split.2)))

theorem shoutcastFraming_split (split : firstSplit passwordEnds (window stream) = some (ptr,headers)) :
    shoutcastFraming port stream =
    if port.sourcePassword = some ((window stream).take ptr) then plainly (parseSource port)
    (stream.drop headers) else none := by
  rw [shoutcastFraming,split,Option.bind_some]

theorem shoutcast_reads (port : Port) (cuts : Nat → Bool) (more : stream ≠ []) :
    (∃ m k ptr headers, m ≤ stream.length ∧ m ≤ bufferRoom ∧ 0 < headers ∧ headers ≤ m ∧
      search passwordEnds ((window stream).take m) = some (ptr,headers) ∧
      run port cuts 0 shoutcastNode [] stream = (if port.sourcePassword = some ((window stream).take ptr)
        then run port cuts k ⟨(stream.take m).drop headers,0,2⟩ [] (stream.drop m) else none) ∧
      ((∀ k, cuts k = false) → m = min stream.length bufferRoom)) ∨
    (firstEnd passwordEnds (window stream) = none ∧ run port cuts 0 shoutcastNode [] stream = none) := by
  rcases run_read port cuts 0 shoutcastNode [] stream (by decide) more rfl with
    ⟨m,split,_,inside,low,found,⟨k,result⟩,last⟩ | ⟨missing,result⟩
  · obtain ⟨ptr,headers⟩ := split
    have found : search passwordEnds ((window stream).take m) = some (ptr,headers) := found
    obtain ⟨before,t,after,shape,length,_,below,_⟩ := search_some found
    have filled : 0 < t.length := by
      have member : t ∈ passwordEnds := by
        rw [shape]
        simp
      obtain ⟨⟨front,rfl⟩,_⟩ := passwordEnds_lf member
      simp
    refine .inl ⟨m,k,ptr,headers,inside,low,by omega,below,found,?_,last⟩
    rw [result]
    exact passed_password port cuts k low _ found
  · refine .inr ⟨?_,result⟩
    have missing : search passwordEnds (window stream) = none := missing
    cases first : firstEnd passwordEnds (window stream) with
    | none => rfl
    | some e =>
      obtain ⟨inside,⟨t,member,ends⟩,_⟩ := firstEnd_some first
      exact absurd (infix_iff.mpr ⟨e,inside,ends⟩) (search_none.mp missing t member)

theorem rest_of_login {stream : List UInt8} (inside : m ≤ stream.length) (below : headers ≤ m) :
    stream.drop headers = (stream.take m).drop headers++stream.drop m := by
  conv => lhs; rw [←List.take_append_drop m stream]
  rw [List.drop_append_of_le_length (by rw [List.length_take]; omega)]

theorem shoutcast_steady (port : Port) (stream : List UInt8)
    (steady : ShoutcastSteady port stream) (cuts : Nat → Bool) :
    (run port cuts 0 shoutcastNode [] stream).map Framed.framing = shoutcastFraming port stream := by
  by_cases empty : stream = []
  · subst empty
    rfl
  rcases shoutcast_reads port cuts empty with ⟨m,k,ptr,headers,inside,low,positive,below,found,
    result,_⟩ | ⟨never,result⟩
  · obtain ⟨e,first⟩ : ∃ e, firstEnd passwordEnds (window stream) = some e := by
      cases first : firstEnd passwordEnds (window stream) with
      | none => rw [search_never first] at found; cases found
      | some e => exact ⟨e,rfl⟩
    rw [result]
    have room : ((stream.take m).drop headers).length < bufferRoom := by
      rw [List.length_drop,List.length_take]
      omega
    have onTime : Tidy passwordEnds (window stream) →
      firstSplit passwordEnds (window stream) = some (ptr,headers) := fun tidy => by
      have seen : e ≤ m := by
        by_contra early
        rw [search_before first (by omega)] at found
        cases found
      obtain ⟨i,there,split⟩ := tidy.search first seen
      cases found.symm.trans there
      exact split
    rcases steady with ⟨refused,clear⟩ | ⟨tidy,long,tidyHeaders⟩
    · by_cases split : firstSplit passwordEnds (window stream) = some (ptr,headers)
      · rw [refused]
        rw [shoutcastFraming_split split] at refused
        split
        · rename_i right
          rw [if_pos right] at refused
          by_cases last : stream.drop m = []
          · rw [last]
            rfl
          · exact (header_reads port cuts k ⟨(stream.take m).drop headers,0,2⟩ (stream.drop m)
              (show (2 : Nat) ≠ 1 by decide) room last
              (rest_of_login inside below)).1 refused
        · rfl
      · have late : headers ≠ e := by
          rintro rfl
          exact split (search_first first found)
        rcases clear with tidy | plain
        · exact absurd (onTime tidy) split
        · rw [refused,if_neg fun right => plain _ right (late_password first found late)]
          rfl
    · have split := onTime tidy
      rw [shoutcastFraming_split split]
      split
      · have last : stream.drop m ≠ [] := fun none => by
          have := congrArg List.length none
          rw [List.length_drop,List.length_nil] at this
          omega
        exact (header_reads port cuts k ⟨(stream.take m).drop headers,0,2⟩ (stream.drop m)
          (show (2 : Nat) ≠ 1 by decide) room last
          (rest_of_login inside below)).2.1 (tidyHeaders _ split)
      · rfl
  · rw [result,shoutcastFraming,firstSplit,never]
    rfl

theorem steady_of_one_read (plain : ∀ password, port.sourcePassword = some password → lf ∉ password)
    (agree : (run port (fun _ => false) 0 shoutcastNode [] stream).map Framed.framing = shoutcastFraming port stream) :
    ShoutcastSteady port stream := by
  by_cases refused : shoutcastFraming port stream = none
  · exact .inl ⟨refused,.inr plain⟩
  have more : stream ≠ [] := by
    rintro rfl
    exact refused rfl
  rcases shoutcast_reads port (fun _ => false) more with ⟨m,k,ptr,headers,inside,low,positive,below,found,result,
    last⟩ | ⟨never,result⟩
  · have all := last fun _ => rfl
    rw [result] at agree
    by_cases right : port.sourcePassword = some ((window stream).take ptr)
    · rw [if_pos right] at agree
      obtain ⟨e,first⟩ : ∃ e, firstEnd passwordEnds (window stream) = some e := by
        cases first : firstEnd passwordEnds (window stream) with
        | none => rw [search_never first] at found; cases found
        | some e => exact ⟨e,rfl⟩
      have same : headers = e := by
        by_contra late
        exact plain _ right (late_password first found late)
      subst same
      have split := search_first first found
      have long : stream.drop m ≠ [] := fun none => by
        rw [none] at agree
        exact refused agree.symm
      have longer : m < stream.length := by
        by_contra short
        exact long (List.drop_eq_nil_of_le (by omega))
      rw [shoutcastFraming_split split,if_pos right] at refused agree
      refine .inr ⟨?_,by omega,fun other here => ?_⟩
      · rw [window_all stream (by omega)] at found
        exact tidy_of_search first found
      · cases split.symm.trans here
        have room : ((stream.take m).drop headers).length < bufferRoom := by
          rw [List.length_drop,List.length_take]
          omega
        exact (header_reads port (fun _ => false) k ⟨(stream.take m).drop headers,0,
          2⟩ (stream.drop m) (show (2 : Nat) ≠ 1 by decide) room long
          (rest_of_login inside below)).2.2 refused agree fun _ => rfl
    · rw [if_neg right] at agree
      exact absurd agree.symm refused
  · rw [result] at agree
    exact absurd agree.symm refused

theorem http_steady (port : Port) (stream : List UInt8) :
    (∀ cuts, (run port cuts 0 httpNode [] stream).map Framed.framing = httpFraming stream) ↔
      httpFraming stream = none ∨ Tidy terminators (window stream) := by
  by_cases empty : stream = []
  · subst empty
    exact ⟨fun _ => .inl rfl,fun _ _ => rfl⟩
  have reads : ∀ cuts, _ := fun cuts =>
    header_reads port cuts 0 httpNode stream (show (0 : Nat) ≠ 1 by decide) (by decide) empty rfl
  constructor
  · intro agree
    by_cases refused : httpFraming stream = none
    · exact .inl refused
    · exact .inr ((reads fun _ => false).2.2 refused (agree _) fun _ => rfl)
  · rintro (refused | tidy) cuts
    · rw [refused]
      exact (reads cuts).1 refused
    · exact (reads cuts).2.1 tidy

-- How a request is framed does not depend on the reads, on an HTTP port and on a shoutcast port.
theorem framing_steady (port : Port) (stream : List UInt8) :
    ((∀ cuts, (run port cuts 0 httpNode [] stream).map Framed.framing = httpFraming stream) ↔
      httpFraming stream = none ∨ Tidy terminators (window stream)) ∧
    (ShoutcastSteady port stream →
    ∀ cuts, (run port cuts 0 shoutcastNode [] stream).map Framed.framing = shoutcastFraming port stream) ∧
    ((∀ password, port.sourcePassword = some password → lf ∉ password) →
      (∀ cuts, (run port cuts 0 shoutcastNode [] stream).map Framed.framing = shoutcastFraming port stream) →
      ShoutcastSteady port stream) :=
  ⟨http_steady port stream,fun steady cuts => shoutcast_steady port stream steady cuts,
    fun plain agree => steady_of_one_read plain (agree _)⟩

-- A body that holds an earlier-tried end, read with the header or not; and a login whose
-- headers come with the password or behind it.
def hackmePort : Port := ⟨ascii "/stream",some (ascii "hackme")⟩
def bodyStream : List UInt8 := ascii "SOURCE /live HTTP/1.0\n\nab\r\n\r\ncd"
def loginStream : List UInt8 := ascii "hackme\r\nicy-name:x\r\n\r\n"

theorem framing_depends_on_reads :
    ((run hackmePort (fun _ => true) 0 httpNode [] bodyStream).map fun f => f.header) =
    some (ascii "SOURCE /live HTTP/1.0\n\n") ∧
    ((run hackmePort (fun _ => false) 0 httpNode [] bodyStream).map fun f => f.header) =
      some (ascii "SOURCE /live HTTP/1.0\n\nab\r\n\r\n") ∧
    ((run hackmePort (fun _ => true) 0 shoutcastNode [] loginStream).map fun f => f.header) =
    some (ascii "icy-name:x\r\n\r\n") ∧
    (run hackmePort (fun _ => false) 0 shoutcastNode [] loginStream).isNone := by
  refine ⟨?_,?_,?_,?_⟩ <;> decide +kernel

end Icecast.RequestFraming
