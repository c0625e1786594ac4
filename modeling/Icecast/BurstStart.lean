import Mathlib.Algebra.GroupWithZero.Nat
import Icecast.ListenerInvariant

namespace Icecast
open RefHeap Linked

variable {α : Type u} {δ : Type v} {q : Queue α} {refs before window cells : List Nat} {m : Mount} {c : Listener δ}

def Queue.syncAt (q : Queue α) (a : Nat) : Bool := (read q.heap a).elim false (·.syncPoint)

-- The burst from its first refbuf before which `enough` bytes lie, its last one if
-- there is no such refbuf; `past` bytes lie before the first of them.
def Queue.fromBytes (q : Queue α) (enough : Nat → Bool) : Nat → List Nat → List Nat
  | _,[] => []
  | _,[a] => [a]
  | past,a::b::rest => if enough past then a::b::rest else q.fromBytes enough (past+(q.lenAt a).toNat) (b::rest)

def Queue.bytesBefore (q : Queue α) (cells : List Nat) (k : Nat) : Nat :=
  ((cells.take k).map fun a => (q.lenAt a).toNat).sum

-- The refbuf a new listener should start at.
def Queue.startNode (q : Queue α) (window : List Nat) (introOffset : Int) : Option Nat :=
  if introOffset = -1 ∧ tailSync q = some true then q.streamDataTail
  else (q.fromBytes (fun past => max introOffset 0 ≤ past) 0 window).find? q.syncAt

-- find_client_start starts the client at `node`, or leaves it as it is.
def Placed (m : Mount) (q : Queue α) (c : Listener δ) : Option Nat → Prop
  | none => findClientStart m q c = some (q,c)
  | some a => ∃ r d, findClientStart m q c = some (r,d) ∧ d.refbuf = .queue q.mount a ∧ d.pos = 0 ∧
      d.checkBuffer = .advance ∧ d.writeToClient = m.format ∧ d.introOffset = -1

-- A number of bytes that the size_t counter of find_client_start takes for the offset.
def hits (introOffset : Int) (past : Nat) : Bool := (past : Int) % 2^64 = introOffset % 2^64

-- Each sync point before the tail and behind enough bytes has the offset at the start
-- of its refbuf or of one before it.
def Queue.LinedUp (q : Queue α) (window : List Nat) (introOffset : Int) : Prop :=
  ∀ k,(_ : k+1 < window.length) → max introOffset 0 ≤ (q.bytesBefore window k : Int) → q.syncAt window[k] = true →
    ∃ j ≤ k, hits introOffset (q.bytesBefore window j) = true

theorem bytes_before_succ (q : Queue α) (a : Nat) (cells : List Nat) (k : Nat) :
    q.bytesBefore (a::cells) (k+1) = (q.lenAt a).toNat+q.bytesBefore cells k := by
  unfold Queue.bytesBefore
  rw [List.take_succ_cons,List.map_cons,List.sum_cons]

theorem from_bytes_suffix (q : Queue α) (enough : Nat → Bool) (past : Nat) (cells : List Nat) :
    q.fromBytes enough past cells <:+ cells := by
  fun_induction Queue.fromBytes q enough past cells with
  | case1 => exact List.suffix_refl _
  | case2 => exact List.suffix_refl _
  | case3 => exact List.suffix_refl _
  | case4 past a b rest more ih => exact ih.trans (List.suffix_cons a _)

theorem from_bytes_enough (stop : enough past = true) : q.fromBytes enough past cells = cells := by
  match cells with
  | [] => rfl
  | [_] => rfl
  | _::_::_ => exact if_pos stop

theorem counter_zero (introOffset : Int) (past : Nat) :
    UInt64.ofNat (introOffset % 2^64).toNat-UInt64.ofNat past = 0 ↔ hits introOffset past = true := by
  have range := Int.emod_nonneg introOffset (show (2^64 : Int) ≠ 0 by decide)
  have below := Int.emod_lt_of_pos introOffset (show (0 : Int) < 2^64 by decide)
  rw [UInt64.sub_eq_iff_eq_add,UInt64.zero_add,← UInt64.toNat_inj,UInt64.toNat_ofNat',UInt64.toNat_ofNat',
    hits,decide_eq_true_iff]
  omega

theorem skip_burst_eq (chain : Chain q.next p cells) (introOffset : Int) (past : Nat) (fuelled : cells.length < fuel) :
    skipBurst q fuel (UInt64.ofNat (introOffset % 2^64).toNat-UInt64.ofNat past) p =
      some (q.fromBytes (hits introOffset) past cells).head? := by
  induction fuel generalizing p cells past with
  | zero => exact absurd fuelled (Nat.not_lt_zero _)
  | succ fuel ih =>
    cases chain with
    | nil => rfl
    | @cons a link rest here tail =>
      obtain ⟨buf,found,same⟩ := Option.map_eq_some_iff.mp here
      unfold skipBurst
      by_cases stop : hits introOffset past = true
      · rw [if_pos ((counter_zero introOffset past).mpr stop),from_bytes_enough stop]
        rfl
      · rw [if_neg fun zero => stop ((counter_zero introOffset past).mp zero),found,Option.bind_some]
        cases tail with
        | nil =>
          rw [same]
          rfl
        | @cons b _ rest there tail =>
          rw [same]
          dsimp only
          have passed : (UInt64.ofNat (introOffset % 2^64).toNat-UInt64.ofNat past)-UInt64.ofNat buf.len.toNat =
              UInt64.ofNat (introOffset % 2^64).toNat-UInt64.ofNat (past+(q.lenAt a).toNat) := by
            have len : q.lenAt a = buf.len := by
              unfold Queue.lenAt
              rw [found]
              rfl
            rw [len,UInt64.ofNat_add]
            grind
          rw [passed,ih (.cons there tail) _ (Nat.lt_of_succ_lt_succ fuelled),Queue.fromBytes,if_neg stop]

theorem first_sync_eq (chain : Chain q.next p cells) (fuelled : cells.length < fuel) :
    firstSync q fuel p = some (cells.find? q.syncAt) := by
  induction fuel generalizing p cells with
  | zero => exact absurd fuelled (Nat.not_lt_zero _)
  | succ fuel ih =>
    cases chain with
    | nil => rfl
    | @cons a link rest here tail =>
      obtain ⟨buf,found,same⟩ := Option.map_eq_some_iff.mp here
      have sync : q.syncAt a = buf.syncPoint := by
        unfold Queue.syncAt
        rw [found]
        rfl
      unfold firstSync
      rw [found,Option.bind_some,List.find?_cons,sync]
      cases buf.syncPoint with
      | true => rfl
      | false =>
        rw [if_neg (by decide),same]
        exact ih tail (Nat.lt_of_succ_lt_succ fuelled)

-- Queue.LinedUp for what stands behind `past` bytes.
def Queue.LinedFrom (q : Queue α) (introOffset : Int) (past : Nat) (cells : List Nat) : Prop :=
  ∀ k,(_ : k+1 < cells.length) → max introOffset 0 ≤ ((past+q.bytesBefore cells k : Nat) : Int) →
    q.syncAt cells[k] = true →
    ∃ j ≤ k, hits introOffset (past+q.bytesBefore cells j) = true

theorem lined_from_zero (q : Queue α) (introOffset : Int) (cells : List Nat) : q.LinedFrom introOffset 0 cells ↔
    q.LinedUp cells introOffset := by
  unfold Queue.LinedFrom Queue.LinedUp
  simp only [Nat.zero_add]

theorem lined_behind (stop : ¬hits introOffset past = true)
    (unmet : max introOffset 0 ≤ (past : Int) → ¬q.syncAt a = true) :
    q.LinedFrom introOffset past (a::b::rest) ↔ q.LinedFrom introOffset (past+(q.lenAt a).toNat) (b::rest) := by
  have shift : ∀ k, past+q.bytesBefore (a::b::rest) (k+1) = past+(q.lenAt a).toNat+q.bytesBefore
    (b::rest) k := fun k => by
    rw [bytes_before_succ,Nat.add_assoc]
  constructor
  · intro holds k short enough sync
    obtain ⟨j,below,hit⟩ := holds (k+1) (Nat.succ_lt_succ short) (by rw [shift]; exact enough) sync
    cases j with
    | zero => exact absurd hit stop
    | succ j => exact ⟨j,Nat.le_of_succ_le_succ below,by rw [← shift]; exact hit⟩
  · intro holds k short enough sync
    cases k with
    | zero => exact absurd sync (unmet enough)
    | succ k =>
      obtain ⟨j,below,hit⟩ := holds k (Nat.lt_of_succ_lt_succ short) (by rw [← shift]; exact enough) sync
      exact ⟨j+1,Nat.succ_le_succ below,by rw [shift]; exact hit⟩

theorem find_agrees (q : Queue α) (introOffset : Int) (low : -2^63 ≤ introOffset) (high : introOffset < 2^63)
    (nodup : cells.Nodup) (past : Nat) :
    (q.fromBytes (fun past => max introOffset 0 ≤ past) past cells).find? q.syncAt =
        (q.fromBytes (hits introOffset) past cells).find? q.syncAt ↔ q.LinedFrom introOffset past cells := by
  induction cells generalizing past with
  | nil => exact ⟨fun _ _ short => absurd short (Nat.not_lt_zero _),fun _ => rfl⟩
  | cons a rest ih =>
    cases rest with
    | nil => exact ⟨fun _ _ short => absurd (Nat.lt_of_succ_lt_succ short) (Nat.not_lt_zero _),fun _ => rfl⟩
    | cons b rest =>
      by_cases stop : hits introOffset past = true
      · -- the counter is right here: both take the refbufs from this one on
        have enough : max introOffset 0 ≤ (past : Int) := by
          have same := of_decide_eq_true stop
          omega
        rw [from_bytes_enough stop,from_bytes_enough (decide_eq_true enough)]
        exact ⟨fun _ k _ _ _ => ⟨0,Nat.zero_le _,stop⟩,fun _ => rfl⟩
      · obtain ⟨first,nodup⟩ := List.nodup_cons.mp nodup
        have step := ih nodup (past+(q.lenAt a).toNat)
        have code : q.fromBytes (hits introOffset) past (a::b::rest) =
            q.fromBytes (hits introOffset) (past+(q.lenAt a).toNat) (b::rest) := if_neg stop
        rw [code]
        by_cases enough : max introOffset 0 ≤ (past : Int)
        · have more : max introOffset 0 ≤ ((past+(q.lenAt a).toNat : Nat) : Int) := by omega
          rw [from_bytes_enough (decide_eq_true more)] at step
          rw [from_bytes_enough (decide_eq_true enough)]
          cases sync : q.syncAt a with
          | true =>
            rw [List.find?_cons_of_pos sync]
            constructor
            · intro same
              have behind := (from_bytes_suffix q _ _ _).subset (List.mem_of_find?_eq_some same.symm)
              exact absurd behind first
            · intro holds
              have here : past+q.bytesBefore (a::b::rest) 0 = past := rfl
              obtain ⟨j,zero,hit⟩ := holds 0 (Nat.succ_lt_succ (Nat.zero_lt_succ _)) (by rw [here]; exact enough) sync
              cases Nat.le_zero.mp zero
              exact absurd hit stop
          | false =>
            have unmet : ¬q.syncAt a = true := by
              rw [sync]
              exact Bool.false_ne_true
            rw [List.find?_cons_of_neg unmet,lined_behind stop fun _ => unmet]
            exact step
        · have spec : q.fromBytes (fun past => max introOffset 0 ≤ past) past (a::b::rest) =
              q.fromBytes (fun past => max introOffset 0 ≤ past) (past+(q.lenAt a).toNat) (b::rest) :=
            if_neg fun stop => enough (of_decide_eq_true stop)
          rw [spec,lined_behind stop fun reached => absurd reached enough]
          exact step

-- Where find_client_start puts a client.
theorem Queue.Inv.start_point (inv : q.Inv refs before window) (introOffset : Int) :
    Icecast.startPoint q introOffset = some (
      if introOffset = -1 ∧ tailSync q = some true then q.streamDataTail
      else (q.fromBytes (hits introOffset) 0 window).find? q.syncAt) := by
  have burst : Chain q.next q.burstPoint window := by
    rw [inv.burst]
    exact inv.chain.suffix
  have fuelled : window.length < q.fresh+1 := by
    have length := inv.length_le
    rw [List.length_append] at length
    omega
  have walked : (skipBurst q (q.fresh+1) (UInt64.ofNat (introOffset % 2^64).toNat) q.burstPoint).bind
    (firstSync q (q.fresh+1)) =
      some ((q.fromBytes (hits introOffset) 0 window).find? q.syncAt) := by
    have skipped := skip_burst_eq burst introOffset 0 fuelled
    obtain ⟨front,shape⟩ := from_bytes_suffix q (hits introOffset) 0 window
    have chain := burst
    rw [← shape] at chain
    rw [show UInt64.ofNat 0 = 0 from rfl,UInt64.sub_zero] at skipped
    rw [skipped,Option.bind_some]
    exact first_sync_eq chain.suffix
      (Nat.lt_of_le_of_lt (from_bytes_suffix q (hits introOffset) 0 window).length_le fuelled)
  obtain ⟨atTail,tail_read⟩ := inv.tail_read
  unfold Icecast.startPoint
  by_cases special : introOffset = -1
  · rw [if_pos special,tail_read,Option.bind_some]
    cases atTail with
    | true =>
      rw [if_pos rfl,if_pos ⟨special,rfl⟩,Option.bind_some]
      unfold tailSync at tail_read
      cases tail : q.streamDataTail with
      | none =>
        rw [tail] at tail_read
        exact absurd (Option.some.inj tail_read) Bool.false_ne_true
      | some t =>
        rw [tail] at tail_read
        obtain ⟨buf,found,sync⟩ := Option.map_eq_some_iff.mp tail_read
        unfold firstSync
        rw [found,Option.bind_some,if_pos sync]
    | false =>
      rw [if_neg Bool.false_ne_true,if_neg (by rintro ⟨_,⟨⟩⟩)]
      exact walked
  · rw [if_neg special,Option.bind_some,if_neg Bool.false_ne_true,if_neg fun both => special both.1]
    exact walked

theorem Placed.unique (free : c.refbuf = .null) (left : Placed m q c x) (right : Placed m q c y) : x = y := by
  cases x with
  | none =>
    cases y with
    | none => rfl
    | some b =>
      obtain ⟨r,d,ran,held,_⟩ := right
      cases Option.some.inj (Eq.trans (Eq.symm left) ran)
      cases free.symm.trans held
  | some a =>
    obtain ⟨r,d,ran,held,_⟩ := left
    cases y with
    | none =>
      cases Option.some.inj (ran.symm.trans right)
      cases free.symm.trans held
    | some b =>
      obtain ⟨s,e,again,other,_⟩ := right
      cases ran.symm.trans again
      cases held.symm.trans other
      rfl

theorem Queue.Inv.placed (inv : q.Inv (c.refbuf.refs++refs) before window) (home : c.refbuf.Home q.mount)
    (format : m.format = some f)
    (started : Icecast.startPoint q c.introOffset = some found) : Placed m q c found := by
  obtain ⟨again,same,inside⟩ := inv.startPoint c.introOffset
  cases started.symm.trans same
  cases found with
  | none =>
    unfold Placed findClientStart
    rw [started]
    rfl
  | some a =>
    have member := inside a rfl
    obtain ⟨buf,found⟩ := inv.counted.readable (inv.owed_pos member)
    obtain ⟨r,set,_⟩ := inv.setQueue home member
    have ran : findClientStart m q c = some (r,{c with
        refbuf := .queue q.mount a,pos := 0,checkBuffer := .advance,writeToClient := some f,introOffset := -1
        placedAt := some buf.seq,delivered := []}) := by
      unfold findClientStart
      rw [started,Option.bind_some]
      dsimp only
      rw [format,Option.bind_some,found,Option.bind_some,set,Option.map_some]
    exact ⟨r,_,ran,rfl,rfl,rfl,format.symm,rfl⟩

-- The client starts at the right refbuf exactly when the counter is right in time for
-- each sync point it could start at.
theorem find_client_start (inv : q.Inv refs before window) (free : c.refbuf = .null) (format : m.format = some f)
    (low : -2^63 ≤ c.introOffset) (high : c.introOffset < 2^63) :
    Placed m q c (q.startNode window c.introOffset) ↔
      (c.introOffset = -1 ∧ tailSync q = some true) ∨ q.LinedUp window c.introOffset := by
  have started := inv.start_point c.introOffset
  have queued : q.Inv (c.refbuf.refs++refs) before window := by
    rw [free]
    exact inv
  have placed := queued.placed (by rw [free]; exact nofun) format started
  have nodup : window.Nodup := (List.nodup_append.mp inv.nodup).2.1
  have agrees := (find_agrees q c.introOffset low high nodup 0).trans (lined_from_zero q c.introOffset window)
  have right : Placed m q c (q.startNode window c.introOffset) ↔ q.startNode window c.introOffset =
      if c.introOffset = -1 ∧ tailSync q = some true then q.streamDataTail
      else (q.fromBytes (hits c.introOffset) 0 window).find? q.syncAt :=
    ⟨fun here => here.unique free placed,fun same => same ▸ placed⟩
  rw [right,Queue.startNode]
  by_cases tail : c.introOffset = -1 ∧ tailSync q = some true
  · rw [if_pos tail,if_pos tail]
    exact ⟨fun _ => .inl tail,fun _ => rfl⟩
  · rw [if_neg tail,if_neg tail,or_iff_right tail]
    exact agrees

-- Four refbufs of three bytes, each a sync point, with the burst from the first on.
def fourPages : Queue Unit :=
  { mount := 0, heap := fun a => ([some 1,some 2,some 3,none][a]?).map fun next =>
    ⟨2,[1,2,3],none,next,true,3*a⟩, fresh := 4
    streamData := some 0, streamDataTail := some 3, burstPoint := some 0
    queueSize := 12, queueSizeLimit := 0, burstOffset := 12, burstSize := 65536, possibleStart := []
    produced := [1,2,3,1,2,3,1,2,3,1,2,3] }

theorem four_pages_inv : fourPages.Inv [] [] [0,1,2,3] where
  chain := .cons rfl (.cons rfl (.cons rfl (.cons rfl .nil)))
  tail := rfl
  burst := rfl
  open_ := fun _ => rfl
  nodup := by decide
  size := rfl
  offset := rfl
  counted := {
    counts := fun | 0 => rfl | 1 => rfl | 2 => rfl | 3 => rfl | _+4 => rfl
    live := fun | 0,_,rfl => by decide | 1,_,rfl => by decide | 2,_,rfl => by decide | 3,_,rfl => by decide }
  inside := nofun
  fresh := fun | 0,h => absurd h (by decide) | 1,h => absurd h (by decide) | 2,h => absurd h (by decide) | 3,h => absurd h (by decide) | _+4,_ => rfl

-- A source that is up.
def connected : Mount := ⟨true,true,none,some 0⟩

-- A client whose intro of `introOffset` bytes is sent.
def afterIntro (introOffset : Int) : Listener Unit :=
  ⟨1,false,200,.file,some 0,.null,0,introOffset,(),none,[]⟩

theorem find_client_start_third : Placed connected fourPages (afterIntro 6) (some 2) :=
  (find_client_start four_pages_inv rfl rfl (by decide) (by decide)).mpr (.inr fun
    | 0,_,enough,_ => absurd enough (by decide)
    | 1,_,enough,_ => absurd enough (by decide)
    | 2,_,_,_ => ⟨2,Nat.le_refl _,rfl⟩
    | k+3,short,_,_ => absurd short (by simp))

-- An intro of four bytes: the counter misses zero and the client starts at the tail.
theorem missed_offset :
    fourPages.Inv [] [] [0,1,2,3] ∧ fourPages.startNode [0,1,2,3] 4 = some 2 ∧
    Placed connected fourPages (afterIntro 4) (some 3) ∧
      ¬Placed connected fourPages (afterIntro 4) (some 2) := by
  have tail : Placed connected fourPages (afterIntro 4) (some 3) := ⟨_,_,rfl,rfl,rfl,rfl,rfl,rfl⟩
  refine ⟨four_pages_inv,rfl,tail,fun third => ?_⟩
  cases third.unique rfl tail

end Icecast
