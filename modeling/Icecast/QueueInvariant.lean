import Mathlib.Data.List.Nodup
import Mathlib.Data.List.Perm.Subperm
import Icecast.Queue

namespace Icecast
open RefHeap Linked

variable {α : Type u} {q r : Queue α} {refs before window : List Nat}

def Queue.lenAt (q : Queue α) (a : Nat) : UInt32 := (read q.heap a).elim 0 Buf.len

-- The bytes in a list of refbufs.
def Queue.total (q : Queue α) : List Nat → Nat
  | [] => 0
  | a::rest => (q.lenAt a).toNat+q.total rest

-- The references to a refbuf: the queue's, the burst's, the listeners' (`refs`) and
-- the codecs'.
def Queue.owed (q : Queue α) (refs before window : List Nat) (a : Nat) : Nat :=
  (before++window).count a+window.count a+refs.count a+(q.possibleStart.map (·.2)).count a

-- The queue's pointers and counters: `before` are its refbufs up to the burst point,
-- `window` those from it to the tail. The counters are unsigned ints and wrap.
structure Queue.Shape (q : Queue α) (before window : List Nat) : Prop where
  chain : Chain q.next q.streamData (before++window)
  tail : q.streamDataTail = (before++window).getLast?
  burst : q.burstPoint = window.head?
  open_ : window = [] → before = []
  nodup : (before++window).Nodup
  size : q.queueSize = UInt32.ofNat (q.total (before++window))
  offset : q.burstOffset = UInt32.ofNat (q.total window)

-- The queue at the boundaries of source_main's loops.
structure Queue.Inv (q : Queue α) (refs before window : List Nat) : Prop extends q.Shape before window where
  counted : Counted q.heap (q.owed refs before window)
  inside : ∀ a ∈ refs++q.possibleStart.map (·.2), a ∈ before++window
  fresh : ∀ a, q.fresh ≤ a → q.heap a = none

-- What never changes in a refbuf.
def Queue.fixedAt (q : Queue α) (a : Nat) : Option (List UInt8 × Option α × Nat) :=
  (read q.heap a).map fun b => (b.data,b.associated,b.seq)

-- The refbufs of the queue and the sum of their len.
def Queue.refbufs (q : Queue α) : List Nat := walk q.next q.fresh q.streamData
def Queue.bytes (q : Queue α) : Nat := q.total q.refbufs

theorem total_append (q : Queue α) (xs ys : List Nat) : q.total (xs++ys) = q.total xs+q.total ys := by
  induction xs with
  | nil => exact (Nat.zero_add _).symm
  | cons x xs ih => rw [List.cons_append,Queue.total,Queue.total,ih,Nat.add_assoc]

theorem total_tail (q : Queue α) (a : Nat) (rest : List Nat) :
    UInt32.ofNat (q.total (a::rest))-q.lenAt a = UInt32.ofNat (q.total rest) := by
  rw [Queue.total,UInt32.ofNat_add,UInt32.ofNat_toNat,UInt32.add_comm,UInt32.add_sub_cancel]

theorem total_congr (same : ∀ a ∈ cells, r.fixedAt a = q.fixedAt a) : r.total cells = q.total cells := by
  induction cells with
  | nil => rfl
  | cons a rest ih =>
    have here := same a List.mem_cons_self
    have lens : r.lenAt a = q.lenAt a := by
      unfold Queue.fixedAt at here
      unfold Queue.lenAt
      cases left : read r.heap a <;> cases right : read q.heap a <;> simp_all [Buf.len]
    rw [Queue.total,Queue.total,lens,ih fun b member => same b (List.mem_cons_of_mem _ member)]

theorem Queue.Shape.reheap (shape : q.Shape before window) (links : ∀ a ∈ before++window, r.next a = q.next a)
    (same : ∀ a ∈ before++window, r.fixedAt a = q.fixedAt a) (head : r.streamData = q.streamData)
    (tail : r.streamDataTail = q.streamDataTail) (burst : r.burstPoint = q.burstPoint)
    (size : r.queueSize = q.queueSize) (offset : r.burstOffset = q.burstOffset) : r.Shape before window where
  chain := head ▸ shape.chain.congr links
  tail := tail.trans shape.tail
  burst := burst.trans shape.burst
  open_ := shape.open_
  nodup := shape.nodup
  size := by rw [size,shape.size,total_congr same]
  offset := by rw [offset,shape.offset,total_congr fun a member => same a (List.mem_append_right _ member)]

theorem Queue.Inv.owed_pos (_ : q.Inv refs before window) (member : a ∈ before++window) :
    0 < q.owed refs before window a := by
  have := List.count_pos_iff.mpr member
  unfold Queue.owed
  omega

theorem Queue.Inv.owed_zero (inv : q.Inv refs before window) (outside : a ∉ before++window) :
    q.owed refs before window a = 0 := by
  have window_zero : window.count a = 0 := List.count_eq_zero.mpr fun member => outside (List.mem_append_right _ member)
  have refs_zero : refs.count a = 0 :=
    List.count_eq_zero.mpr fun member => outside (inv.inside a (List.mem_append_left _ member))
  have starts_zero : (q.possibleStart.map (·.2)).count a = 0 :=
    List.count_eq_zero.mpr fun member => outside (inv.inside a (List.mem_append_right _ member))
  rw [Queue.owed,List.count_eq_zero.mpr outside,window_zero,refs_zero,starts_zero]

theorem Queue.Inv.below_fresh (inv : q.Inv refs before window) (member : a ∈ before++window) : a < q.fresh := by
  by_contra high
  have gone := inv.fresh a (Nat.le_of_not_lt high)
  have owes := inv.owed_pos member
  rw [inv.counted.owed_zero gone] at owes
  exact absurd owes (Nat.lt_irrefl 0)

theorem Queue.Inv.length_le (inv : q.Inv refs before window) : (before++window).length ≤ q.fresh := by
  have inside : before++window ⊆ List.range q.fresh := fun a member => List.mem_range.mpr (inv.below_fresh member)
  have := (List.subperm_of_subset inv.nodup inside).length_le
  rwa [List.length_range] at this

theorem Queue.Inv.refbufs (inv : q.Inv refs before window) : q.refbufs = before++window := inv.chain.walk inv.length_le

theorem Queue.Inv.bytes (inv : q.Inv refs before window) : q.bytes = q.total (before++window) := by
  rw [Queue.bytes,inv.refbufs]

-- A change of the heap alone that keeps what the queue's refbufs hold.
def Queue.Kept (q r : Queue α) (cells : List Nat) : Prop :=
  ∃ h, r = {q with heap := h} ∧ ∀ a ∈ cells, read h a = read q.heap a

theorem Queue.Kept.refl (q : Queue α) (cells : List Nat) : q.Kept q cells := ⟨q.heap,rfl,fun _ _ => rfl⟩

theorem Queue.Kept.trans {q r s : Queue α} (first : q.Kept r cells) (second : r.Kept s cells) : q.Kept s cells := by
  obtain ⟨h,rfl,same⟩ := first
  obtain ⟨k,rfl,also⟩ := second
  exact ⟨k,rfl,fun a member => (also a member).trans (same a member)⟩

theorem Queue.Inv.reheap (inv : q.Inv refs before window) (counted : Counted h (q.owed more before window))
    (same : ∀ a ∈ before++window, read h a = read q.heap a) (inside : ∀ a ∈ more, a ∈ before++window) :
    Queue.Inv {q with heap := h} more before window where
  toShape := inv.toShape.reheap (fun a member => congrArg (Option.map _) (same a member))
    (fun a member => congrArg (Option.map _) (same a member)) rfl rfl rfl rfl rfl
  counted := counted
  inside := fun a member => by
    rcases List.mem_append.mp member with listener | start
    · exact inside a listener
    · exact inv.inside a (List.mem_append_right _ start)
  fresh := fun a high => by
    have outside : a ∉ before++window := fun member => absurd (inv.below_fresh member) (Nat.not_lt.mpr high)
    apply counted.gone
    have none_more : more.count a = 0 := List.count_eq_zero.mpr fun member => outside (inside a member)
    have zero := inv.owed_zero outside
    unfold Queue.owed at zero ⊢
    omega

theorem Queue.Kept.total (kept : q.Kept r cells) : r.total cells = q.total cells := by
  obtain ⟨h,rfl,same⟩ := kept
  exact total_congr fun a member => congrArg (Option.map _) (same a member)

theorem Queue.Inv.addref (inv : q.Inv refs before window) (member : a ∈ before++window) :
    ∃ r, q.addref a = some r ∧ q.Kept r (before++window) ∧ r.Inv (a::refs) before window := by
  obtain ⟨h,done,counted,same⟩ := inv.counted.addref (inv.owed_pos member)
  refine ⟨{q with heap := h},by rw [Queue.addref,done,Option.map_some],⟨h,rfl,fun b _ => same b⟩,?_⟩
  refine inv.reheap (counted.congr fun b => ?_) (fun b _ => same b) ?_
  · simp only [Queue.owed,List.count_cons,List.count_nil]
    omega
  · intro b listed
    rcases List.mem_cons.mp listed with rfl | old
    · exact member
    · exact inv.inside b (List.mem_append_left _ old)

theorem Queue.Inv.release (inv : q.Inv (a::refs) before window) :
    ∃ r, q.release a = some r ∧ q.Kept r (before++window) ∧ r.Inv refs before window := by
  have member : a ∈ before++window := inv.inside a (List.mem_append_left _ List.mem_cons_self)
  obtain ⟨h,done,counted,same⟩ := inv.counted.release (inv.owed_pos member)
  have kept : ∀ b ∈ before++window, read h b = read q.heap b := fun b listed => by
    apply same b
    have := List.count_pos_iff.mpr listed
    simp only [Queue.owed,List.count_cons,List.count_nil]
    omega
  refine ⟨{q with heap := h},by rw [Queue.release,done,Option.map_some],⟨h,rfl,kept⟩,?_⟩
  refine inv.reheap (counted.congr fun b => ?_) kept fun b listed =>
    inv.inside b (List.mem_append_left _ (List.mem_cons_of_mem _ listed))
  simp only [Queue.owed,List.count_cons,List.count_nil]
  omega

-- A buffer that belongs to another mount's queue is no buffer of this one.
def ClientBuf.Home (mount : Nat) (buf : ClientBuf) : Prop := ∀ m a, buf = .queue m a → m = mount

theorem Queue.Inv.releaseBuf {buf : ClientBuf} (inv : q.Inv (buf.refs++refs) before window) (home : buf.Home q.mount) :
    ∃ r, q.releaseBuf buf = some r ∧ q.Kept r (before++window) ∧ r.Inv refs before window := by
  cases buf with
  | null => exact ⟨q,rfl,.refl q _,inv⟩
  | own data => exact ⟨q,rfl,.refl q _,inv⟩
  | queue mount a =>
    obtain ⟨r,done,kept,next⟩ := inv.release
    exact ⟨r,by rw [Queue.releaseBuf,if_pos (home mount a rfl)]; exact done,kept,next⟩

theorem Queue.Inv.perm (inv : q.Inv refs before window) (same : refs.Perm more) : q.Inv more before window :=
  { inv with
    counted := inv.counted.congr fun a => by rw [Queue.owed,Queue.owed,same.count_eq]
    inside := fun a member => inv.inside a <| by
      rcases List.mem_append.mp member with listed | start
      · exact List.mem_append_left _ (same.mem_iff.mpr listed)
      · exact List.mem_append_right _ start }

theorem Queue.Inv.setQueue {c : Listener δ} (inv : q.Inv (c.refbuf.refs++refs) before window)
    (home : c.refbuf.Home q.mount)
    (member : a ∈ before++window) :
    ∃ r, clientSetQueue q c (some a) = some (r,{c with refbuf := .queue q.mount a,pos := 0}) ∧
      q.Kept r (before++window) ∧ r.Inv (a::refs) before window := by
  obtain ⟨r,taken,kept,held⟩ := inv.addref member
  have mount : r.mount = q.mount := by
    obtain ⟨h,rfl,_⟩ := kept
    rfl
  obtain ⟨s,dropped,kept_too,next⟩ := Queue.Inv.releaseBuf
    (show r.Inv (c.refbuf.refs++a::refs) before window from held.perm List.perm_middle.symm) (by rwa [mount])
  have mount_too : s.mount = q.mount := by
    obtain ⟨h,rfl,_⟩ := kept_too
    exact mount
  refine ⟨s,?_,kept.trans kept_too,next⟩
  rw [clientSetQueue,taken,Option.bind_some,dropped,Option.map_some,mount_too]

theorem Queue.Inv.setNull {c : Listener δ} (inv : q.Inv (c.refbuf.refs++refs) before window)
    (home : c.refbuf.Home q.mount) :
    ∃ r, clientSetQueue q c none = some (r,{c with refbuf := .null,pos := 0}) ∧
      q.Kept r (before++window) ∧ r.Inv refs before window := by
  obtain ⟨r,dropped,kept,next⟩ := inv.releaseBuf home
  refine ⟨r,?_,kept,next⟩
  rw [clientSetQueue,Option.bind_some,dropped,Option.map_some]

-- A refbuf the plugin has made that is not on the queue yet. It has the reference
-- source_main will give to the queue.
structure Queue.Made (q : Queue α) (refs before window : List Nat) (a : Nat) (data : List UInt8) : Prop
    extends q.Shape before window where
  counted : Counted q.heap (fun b => q.owed refs before window b+[a].count b)
  listed : ∀ b ∈ refs, b ∈ before++window
  starts : ∀ b ∈ q.possibleStart.map (·.2), b ∈ before++window ∨ b = a
  apart : a ∉ before++window
  fresh : ∀ b, q.fresh ≤ b → q.heap b = none
  unlinked : q.next a = some none
  content : ∃ seq, q.fixedAt a = some (data,seq)

-- What the plugin leaves alone: the data of the queue's refbufs and the record of it.
structure Queue.SameData (q r : Queue α) (cells : List Nat) : Prop where
  mount : r.mount = q.mount
  fixed : ∀ a ∈ cells, r.fixedAt a = q.fixedAt a
  produced : r.produced = q.produced

theorem Queue.SameData.refl (q : Queue α) (cells : List Nat) : q.SameData q cells := ⟨rfl,fun _ _ => rfl,rfl⟩

theorem Queue.SameData.trans {q r s : Queue α} (first : q.SameData r cells) (second : r.SameData s cells) :
    q.SameData s cells :=
  ⟨second.mount.trans first.mount,fun a member => (second.fixed a member).trans (first.fixed a member),
    second.produced.trans first.produced⟩

theorem Queue.Inv.newRefbuf (inv : q.Inv refs before window) (page : Page α) :
    (newRefbuf q page).Made refs before window q.fresh page.data ∧
    (newRefbuf q page).fixedAt q.fresh = some (page.data,page.associated,q.produced.length) ∧
    ∀ a ∈ before++window, (newRefbuf q page).fixedAt a = q.fixedAt a := by
  have apart : q.fresh ∉ before++window := fun member => absurd (inv.below_fresh member) (Nat.lt_irrefl _)
  obtain ⟨counted,here,others⟩ := inv.counted.alloc
    ⟨page.data,page.associated,none,page.syncPoint,q.produced.length⟩ (inv.fresh q.fresh (Nat.le_refl _))
  have reads : ∀ a ∈ before++window, read (Icecast.newRefbuf q page).heap a = read q.heap a := fun a member =>
    others a fun same => apart (same ▸ member)
  have fixed : (Icecast.newRefbuf q page).fixedAt q.fresh = some (page.data,page.associated,
    q.produced.length) := congrArg (Option.map _) here
  refine ⟨?_,fixed,fun a member => congrArg (Option.map _) (reads a member)⟩
  exact {
    toShape := inv.toShape.reheap (fun a member => congrArg (Option.map _) (reads a member))
      (fun a member => congrArg (Option.map _) (reads a member)) rfl rfl rfl rfl rfl
    counted := counted
    listed := fun b member => inv.inside b (List.mem_append_left _ member)
    starts := fun b member => .inl (inv.inside b (List.mem_append_right _ member))
    apart := apart
    fresh := fun b high => by
      have above : q.fresh+1 ≤ b := high
      refine (assign_other ?_).trans (inv.fresh b (by omega))
      omega
    unlinked := congrArg (Option.map _) here
    content := ⟨_,fixed⟩ }

theorem takeStart_spec (found : takeStart codec starts = some (b,rest)) (a : Nat) :
    (starts.map (·.2)).count a = (rest.map (·.2)).count a+[b].count a := by
  induction starts generalizing rest with
  | nil => cases found
  | cons start starts ih =>
    unfold takeStart at found
    split at found
    · cases found
      simp only [List.map_cons,List.count_cons,List.count_nil]
      omega
    · obtain ⟨⟨c,more⟩,earlier,same⟩ := Option.map_eq_some_iff.mp found
      cases same
      have := ih earlier
      simp only [List.map_cons,List.count_cons,List.count_nil] at this ⊢
      omega

theorem takeStart_mem (found : takeStart codec starts = some (b,rest)) :
    b ∈ starts.map (·.2) ∧ ∀ a ∈ rest.map (·.2), a ∈ starts.map (·.2) := by
  refine ⟨List.count_pos_iff.mp ?_,fun a member => List.count_pos_iff.mp ?_⟩
  · rw [takeStart_spec found b]
    simp
  · have := List.count_pos_iff.mpr member
    rw [takeStart_spec found a]
    omega

theorem Queue.Made.owed_pos (made : q.Made refs before window a data) (member : b ∈ before++window ∨ b = a) :
    0 < q.owed refs before window b+[a].count b := by
  rcases member with member | rfl
  · have := List.count_pos_iff.mpr member
    unfold Queue.owed
    omega
  · simp

theorem Queue.Made.markStart (made : q.Made refs before window a data) (codec : Nat) :
    ∃ r, markStart q codec = some r ∧ r.Made refs before window a data ∧ r.fixedAt a = q.fixedAt a ∧
      q.SameData r (before++window) ∧ r.fresh = q.fresh := by
  unfold Icecast.markStart
  cases found : takeStart codec q.possibleStart with
  | none => exact ⟨q,rfl,made,rfl,.refl q _,rfl⟩
  | some start =>
    obtain ⟨b,rest⟩ := start
    obtain ⟨started,remain⟩ := takeStart_mem found
    obtain ⟨h,marked,counted,here,others⟩ := made.counted.modify (f := fun buf => {buf with syncPoint := true})
      (made.owed_pos (made.starts b started))
    have spare : ∀ c, c ∈ before++window ∨
      c = a → [b].count c < q.owed refs before window c+[a].count c := fun c member => by
      have less := takeStart_spec found c
      have more := made.owed_pos member
      unfold Queue.owed at more ⊢
      rcases member with member | rfl
      · have := List.count_pos_iff.mpr member
        omega
      · simp
        omega
    obtain ⟨k,released,equal,same⟩ := counted.release (a := b) (made.owed_pos (made.starts b started))
    have fixed : ∀ c, c ∈ before++window ∨
      c = a → (read k c).map (fun buf => (buf.data,buf.associated,buf.seq)) = q.fixedAt c ∧
        (read k c).map (·.next) = q.next c := fun c member => by
      rw [same c (spare c member),Queue.fixedAt,Queue.next]
      by_cases marks : c = b
      · subst c
        rw [here]
        cases read q.heap b <;> exact ⟨rfl,rfl⟩
      · rw [others c marks]
        exact ⟨rfl,rfl⟩
    refine ⟨{q with heap := k,possibleStart := rest},?_,?_,(fixed a (.inr rfl)).1,
      ⟨rfl,fun c member => (fixed c (.inl member)).1,rfl⟩,rfl⟩
    · dsimp only
      rw [marked,Option.bind_some,Queue.release]
      dsimp only
      rw [released,Option.map_some]
    · obtain ⟨seq,content⟩ := made.content
      exact {
        toShape := made.toShape.reheap (fun c member => (fixed c (.inl member)).2)
          (fun c member => (fixed c (.inl member)).1)
          rfl rfl rfl rfl rfl
        counted := equal.congr fun c => by
          have less := takeStart_spec found c
          unfold Queue.owed
          dsimp only
          omega
        listed := made.listed
        starts := fun c member => made.starts c (remain c member)
        apart := made.apart
        fresh := fun c high => by
          have none_owed : q.owed refs before window c+[a].count c = 0 := made.counted.owed_zero (made.fresh c high)
          exact equal.gone (by omega)
        unlinked := (fixed a (.inr rfl)).2.trans made.unlinked
        content := ⟨seq,(fixed a (.inr rfl)).1.trans content⟩ }

theorem Queue.Made.hold (made : q.Made refs before window a data) (codec : Nat) :
    ∃ r, (q.addref a).map (fun q => {q with possibleStart := (codec,a)::q.possibleStart}) = some r ∧
      r.Made refs before window a data ∧ r.fixedAt a = q.fixedAt a ∧ q.SameData r (before++window) ∧
        r.fresh = q.fresh := by
  obtain ⟨h,done,counted,same⟩ := made.counted.addref (made.owed_pos (.inr rfl))
  refine ⟨{q with heap := h,possibleStart := (codec,a)::q.possibleStart},?_,?_,congrArg (Option.map _) (same a),
    ⟨rfl,fun c _ => congrArg (Option.map _) (same c),rfl⟩,rfl⟩
  · rw [Queue.addref,done]
    rfl
  · obtain ⟨seq,content⟩ := made.content
    exact {
      toShape := made.toShape.reheap (fun c _ => congrArg (Option.map _) (same c))
        (fun c _ => congrArg (Option.map _) (same c)) rfl rfl rfl rfl rfl
      counted := counted.congr fun c => by
        simp only [Queue.owed,List.map_cons,List.count_cons,List.count_nil]
        omega
      listed := made.listed
      starts := fun c member => by
        rcases List.mem_cons.mp member with rfl | old
        · exact .inr rfl
        · exact made.starts c old
      apart := made.apart
      fresh := fun c high => by
        have none_owed := made.counted.owed_zero (made.fresh c high)
        have differs : c ≠ a := fun same => by simp [same] at none_owed
        apply counted.gone
        rw [none_owed,count_single differs]
      unlinked := (congrArg (Option.map _) (same a)).trans made.unlinked
      content := ⟨seq,(congrArg (Option.map _) (same a)).trans content⟩ }

theorem Queue.Inv.getPage (inv : q.Inv refs before window) (page : Page α) :
    ∃ r, getPage q page = some r ∧ r.Made refs before window q.fresh page.data ∧
      r.fixedAt q.fresh = some (page.data,page.associated,q.produced.length) ∧
      (∀ a ∈ before++window, r.fixedAt a = q.fixedAt a) ∧
      r.mount = q.mount ∧ r.produced = q.produced++page.data ∧ r.fresh = q.fresh+1 := by
  obtain ⟨made,content,fixed⟩ := inv.newRefbuf page
  unfold Icecast.getPage
  cases kate : page.kate with
  | none => exact ⟨_,rfl,made,content,fixed,rfl,rfl,rfl⟩
  | some found =>
    obtain ⟨codec,possible⟩ := found
    obtain ⟨r,marked,next,same,data,fresh⟩ := made.markStart codec
    dsimp only [processKate]
    rw [marked,Option.bind_some]
    cases possible with
    | false =>
      exact ⟨r,rfl,next,same.trans content,fun a member => (data.fixed a member).trans (fixed a member),data.mount,
        data.produced,fresh⟩
    | true =>
      obtain ⟨s,held,last,same_too,data_too,fresh_too⟩ := next.hold codec
      exact ⟨s,by rw [if_pos rfl]; exact held,last,(same_too.trans same).trans content,
        fun a member => ((data_too.fixed a member).trans (data.fixed a member)).trans (fixed a member),
        data_too.mount.trans data.mount,data_too.produced.trans data.produced,fresh_too.trans fresh⟩

theorem Queue.Made.link_tail (made : q.Made refs before window a data) :
    ∃ h,
      linkTail (if q.streamData.isNone then {q with streamData := some a,burstPoint := some a} else q) a =
        some {q with
          heap := h,streamData := (before++window++[a]).head?,burstPoint := (window++[a]).head?} ∧
      Counted h (fun b => q.owed refs before window b+[a].count b) ∧
      (∀ b, (read h b).map (fun buf => (buf.data,buf.associated,buf.seq)) = q.fixedAt b) ∧
      Chain (fun b => (read h b).map (·.next)) (before++window++[a]).head? (before++window++[a]) := by
  have head := made.chain.head
  cases last : (before++window).getLast? with
  | none =>
    have empty : before++window = [] := List.getLast?_eq_none_iff.mp last
    obtain ⟨rfl,rfl⟩ : before = [] ∧ window = [] := List.append_eq_nil_iff.mp empty
    refine ⟨q.heap,?_,made.counted,fun b => rfl,.cons made.unlinked .nil⟩
    rw [head,linkTail]
    have no_tail : q.streamDataTail = none := made.tail
    simp [no_tail]
  | some tail =>
    obtain ⟨front,shape⟩ := List.getLast?_eq_some_iff.mp last
    have some_window : window ≠ [] := fun empty => by
      rw [empty,made.open_ empty] at last
      cases last
    have member : tail ∈ before++window := by rw [shape]; simp
    have apart : tail ≠ a := fun same => made.apart (same ▸ member)
    obtain ⟨h,done,counted,here,others⟩ := made.counted.modify (f := fun buf => {buf with next := some a})
      (made.owed_pos (.inl member))
    have some_cells : before++window ≠ [] := fun empty => by
      rw [empty] at last
      cases last
    have started : q.streamData = (before++window++[a]).head? :=
      head.trans (List.head?_append_of_ne_nil _ some_cells).symm
    have burst : q.burstPoint = (window++[a]).head? := made.burst.trans (List.head?_append_of_ne_nil _ some_window).symm
    have nonnull : q.streamData.isNone = false := by
      rw [head,List.head?_eq_some_head some_cells]
      rfl
    refine ⟨h,?_,counted,fun b => ?_,?_⟩
    · rw [nonnull,if_neg (by decide),linkTail,made.tail,last]
      dsimp only
      rw [done,←started,←burst]
      rfl
    · by_cases same : b = tail
      · subst b
        rw [here,Queue.fixedAt]
        cases read q.heap tail <;> rfl
      · rw [others b same]
        rfl
    · rw [shape]
      have chain := made.chain
      rw [shape] at chain
      have nodup := made.nodup
      rw [shape] at nodup
      rw [←shape,←started,shape]
      refine chain.snoc ?_ ?_ ?_
      · rw [here]
        obtain ⟨item,found⟩ := made.counted.readable (made.owed_pos (.inl member))
        rw [found]
        rfl
      · rw [others a (Ne.symm apart)]
        exact made.unlinked
      · intro b earlier
        have other : b ≠ tail := fun same => (List.nodup_append.mp nodup).2.2 b earlier tail (by simp) same
        rw [others b other]
        rfl

theorem Queue.Made.append (made : q.Made refs before window a data) :
    ∃ r, appendBuffer q a (UInt32.ofNat data.length) = some r ∧ r.Inv refs before (window++[a]) ∧
      (∀ b, r.fixedAt b = q.fixedAt b) ∧ r.mount = q.mount ∧ r.produced = q.produced ∧ r.fresh = q.fresh ∧
      r.burstSize = q.burstSize := by
  obtain ⟨seq,content⟩ := made.content
  have len : q.lenAt a = UInt32.ofNat data.length := by
    unfold Queue.fixedAt at content
    obtain ⟨buf,found,same⟩ := Option.map_eq_some_iff.mp content
    cases same
    rw [Queue.lenAt,found]
    rfl
  obtain ⟨h,linked,counted,items,links⟩ := made.link_tail
  obtain ⟨k,done,counted_too,same⟩ := counted.addref (a := a) (by simp)
  have fixed : ∀ b, (read k b).map (fun buf => (buf.data,buf.associated,buf.seq)) = q.fixedAt b :=
    fun b => by rw [same b]; exact items b
  refine ⟨{q with
    heap := k,streamData := (before++window++[a]).head?,burstPoint := (window++[a]).head?,streamDataTail := some a
    queueSize := q.queueSize+UInt32.ofNat data.length,burstOffset := q.burstOffset+UInt32.ofNat data.length},
    ?_,?_,fixed,rfl,rfl,rfl,rfl⟩
  · rw [appendBuffer,linked,Option.bind_some,Queue.addref]
    dsimp only
    rw [done,Option.map_some]
  · have totals : ∀ r : Queue α, (∀ b, r.fixedAt b = q.fixedAt b) → ∀ cells,
        UInt32.ofNat (r.total (cells++[a])) = UInt32.ofNat (q.total cells)+UInt32.ofNat data.length :=
          fun r fixed cells => by
      rw [total_congr fun b _ => fixed b,total_append,UInt32.ofNat_add]
      simp only [Queue.total,len,Nat.add_zero,UInt32.ofNat_toNat]
    exact {
      chain := by
        rw [←List.append_assoc]
        refine links.congr fun b _ => ?_
        rw [Queue.next]
        dsimp only
        rw [same b]
      tail := by rw [←List.append_assoc,List.getLast?_concat]
      burst := rfl
      open_ := fun empty => absurd empty (by simp)
      nodup := by
        rw [←List.append_assoc]
        exact List.nodup_append.mpr ⟨made.nodup,List.nodup_singleton a,fun b member c single => by
          rw [List.mem_singleton.mp single]
          exact fun same => made.apart (same ▸ member)⟩
      size := by
        rw [←List.append_assoc]
        refine Eq.trans ?_ (totals _ ?_ _).symm
        · rw [←made.size]
        · exact fixed
      offset := by
        refine Eq.trans ?_ (totals _ ?_ _).symm
        · rw [←made.offset]
        · exact fixed
      counted := counted_too.congr fun b => by
        simp only [Queue.owed,List.count_append]
        omega
      inside := fun b member => by
        rw [←List.append_assoc]
        rcases List.mem_append.mp member with listener | start
        · exact List.mem_append_left _ (made.listed b listener)
        · rcases made.starts b start with old | rfl
          · exact List.mem_append_left _ old
          · simp
      fresh := fun b high => by
        have none_owed := made.counted.owed_zero (made.fresh b high)
        have differs : b ≠ a := fun same => by simp [same] at none_owed
        apply counted_too.gone
        rw [none_owed,count_single differs] }

theorem Queue.Inv.burstStep (inv : q.Inv refs before (b::n::window)) (found : read q.heap b = some buf) :
    ∃ r, Queue.release {q with burstPoint := some n,burstOffset := q.burstOffset-buf.len} b = some r ∧
      r.Inv refs (before++[b]) (n::window) ∧ q.SameData r (before++b::n::window) ∧ r.fresh = q.fresh := by
  have same_cells : before++[b]++n::window = before++b::n::window := by simp
  have owes : ∀ a ∈ before++b::n::window, [b].count a < q.owed refs before (b::n::window) a := fun a member => by
    have := List.count_pos_iff.mpr member
    simp only [Queue.owed,List.count_append,List.count_cons,List.count_nil] at this ⊢
    omega
  obtain ⟨h,done,counted,same⟩ := inv.counted.release (a := b) (inv.owed_pos (by simp))
  have kept : ∀ a ∈ before++b::n::window, read h a = read q.heap a := fun a member => same a (owes a member)
  have len : q.lenAt b = buf.len := by rw [Queue.lenAt,found]; rfl
  refine ⟨{q with heap := h,burstPoint := some n,burstOffset := q.burstOffset-buf.len},?_,?_,
    ⟨rfl,fun a member => congrArg (Option.map _) (kept a member),rfl⟩,rfl⟩
  · rw [Queue.release]
    dsimp only
    rw [done,Option.map_some]
  · exact {
      chain := by
        rw [same_cells]
        exact inv.chain.congr fun a member => congrArg (Option.map _) (kept a member)
      tail := by rw [same_cells]; exact inv.tail
      burst := rfl
      open_ := nofun
      nodup := by rw [same_cells]; exact inv.nodup
      size := by
        rw [same_cells,total_congr (q := q) fun a member => congrArg (Option.map _) (kept a member)]
        exact inv.size
      offset := by
        rw [total_congr (q := q) fun a member => congrArg (Option.map _) (kept a (by simp at member ⊢; tauto))]
        dsimp only
        rw [inv.offset,←len,total_tail]
      counted := counted.congr fun a => by
        simp only [Queue.owed,List.count_append,List.count_cons,List.count_nil]
        omega
      inside := fun a member => by rw [same_cells]; exact inv.inside a member
      fresh := fun a high => by
        apply counted.gone
        have := inv.counted.owed_zero (inv.fresh a high)
        omega }

theorem Queue.Inv.advanceBurst (inv : q.Inv refs before (b::window)) (fuelled : window.length < fuel) :
    ∃ r moved rest, advanceBurst fuel q = some r ∧ r.Inv refs moved rest ∧ moved++rest = before++b::window ∧ rest ≠ [] ∧
      q.SameData r (before++b::window) ∧ r.fresh = q.fresh := by
  induction fuel generalizing q before b window with
  | zero => omega
  | succ fuel ih =>
    unfold Icecast.advanceBurst
    by_cases past : q.burstOffset > q.burstSize
    · have point : q.burstPoint = some b := inv.burst
      obtain ⟨buf,found⟩ := inv.counted.readable (inv.owed_pos (a := b) (by simp))
      have next : q.next b = some window.head? := inv.chain.next_eq
      rw [Queue.next,found] at next
      have link : buf.next = window.head? := Option.some.inj next
      rw [if_pos past,point,Option.bind_some,found,Option.bind_some]
      cases window with
      | nil =>
        rw [link]
        exact ⟨q,before,[b],rfl,inv,rfl,List.cons_ne_nil _ _,.refl q _,rfl⟩
      | cons n window =>
        rw [link]
        obtain ⟨r,done,moved,data,fresh⟩ := inv.burstStep found
        have cells : before++[b]++n::window = before++b::n::window := by simp
        obtain ⟨s,front,rest,ran,final,same,some_left,last,fresh_too⟩ :=
          ih moved (by simp only [List.length_cons] at fuelled; omega)
        rw [cells] at same last
        refine ⟨s,front,rest,?_,final,same,some_left,data.trans last,fresh_too.trans fresh⟩
        dsimp only [List.head?_cons]
        rw [done,Option.bind_some]
        exact ran
    · rw [if_neg past]
      exact ⟨q,before,b::window,rfl,inv,rfl,List.cons_ne_nil _ _,.refl q _,rfl⟩

theorem Queue.Inv.releaseStarts (starts : List (Nat × Nat)) (inv : q.Inv (starts.map (·.2)++refs) before window) :
    ∃ r, starts.foldlM (fun q start => Queue.release q start.2) q = some r ∧ q.Kept r (before++window) ∧
      r.Inv refs before window := by
  induction starts generalizing q with
  | nil => exact ⟨q,rfl,.refl q _,inv⟩
  | cons start starts ih =>
    obtain ⟨r,done,kept,next⟩ := Queue.Inv.release
      (show q.Inv (start.2::(starts.map (·.2)++refs)) before window from inv)
    obtain ⟨s,ran,kept_too,last⟩ := ih next
    refine ⟨s,?_,kept.trans kept_too,last⟩
    rw [List.foldlM_cons,done]
    exact ran

theorem Queue.Inv.freeCodecs (inv : q.Inv refs before window) :
    ∃ r, freeCodecs q = some r ∧ r.Inv refs before window ∧ q.SameData r (before++window) ∧ r.fresh = q.fresh ∧
      r.possibleStart = [] := by
  have swapped : Queue.Inv {q with possibleStart := []} (q.possibleStart.map (·.2)++refs) before window :=
    { toShape := inv.toShape.reheap (fun _ _ => rfl) (fun _ _ => rfl) rfl rfl rfl rfl rfl
      counted := inv.counted.congr fun a => by
        simp only [Queue.owed,List.count_append,List.map_nil,List.count_nil]
        omega
      inside := fun a member => inv.inside a (by simp at member ⊢; tauto)
      fresh := inv.fresh }
  obtain ⟨r,ran,⟨h,rfl,same⟩,next⟩ := swapped.releaseStarts q.possibleStart
  exact ⟨_,ran,next,⟨rfl,fun a member => congrArg (Option.map _) (same a member),rfl⟩,rfl,rfl⟩

-- The refbuf a page adds to the queue, and what it holds.
def Queue.Added (q r : Queue α) : Option (Page α) → List Nat → Prop
  | none,added => added = [] ∧ r.produced = q.produced
  | some page,added => ∃ a, added = [a] ∧ r.fixedAt a = some (page.data,page.associated,q.produced.length) ∧
    r.produced = q.produced++page.data

-- What the page adds to the sum of the queue's len.
def pageBytes : Option (Page α) → Nat
  | none => 0
  | some page => (UInt32.ofNat page.data.length).toNat

theorem Queue.Added.total (adds : q.Added r page added) (fixed : ∀ a ∈ cells, r.fixedAt a = q.fixedAt a) :
    r.total (cells++added) = q.total cells+pageBytes page := by
  rw [total_append,total_congr fixed]
  cases page with
  | none =>
    rw [adds.1]
    rfl
  | some page =>
    obtain ⟨a,rfl,content,_⟩ := adds
    obtain ⟨buf,found,same⟩ := Option.map_eq_some_iff.mp content
    have data : buf.data = page.data := congrArg Prod.fst same
    rw [Queue.total,Queue.total,Queue.lenAt,found,pageBytes,←data]
    rfl

theorem Queue.Inv.produce (inv : q.Inv refs before window) (zap : Bool) (page : Option (Page α)) :
    ∃ r moved rest added, produce q zap page = some r ∧ r.Inv refs moved rest ∧ moved++rest = before++window++added ∧
      q.Added r page added ∧ r.mount = q.mount ∧ ∀ a ∈ before++window, r.fixedAt a = q.fixedAt a := by
  obtain ⟨s,zapped,cleared,same,fresh⟩ : ∃ s, (if zap then Icecast.freeCodecs q else some q) = some s ∧
      s.Inv refs before window ∧ q.SameData s (before++window) ∧ s.fresh = q.fresh := by
    cases zap with
    | false => exact ⟨q,rfl,inv,.refl q _,rfl⟩
    | true =>
      obtain ⟨s,ran,next,same,fresh,_⟩ := inv.freeCodecs
      exact ⟨s,ran,next,same,fresh⟩
  unfold Icecast.produce
  rw [zapped,Option.bind_some]
  cases page with
  | none =>
    exact ⟨s,before,window,[],rfl,cleared,by simp,⟨rfl,same.produced⟩,same.mount,same.fixed⟩
  | some page =>
    obtain ⟨t,got,made,content,fixed,mount,produced,_⟩ := cleared.getPage page
    obtain ⟨u,put,queued,fixed_too,mount_too,produced_too,_⟩ := made.append
    obtain ⟨b,window',split⟩ : ∃ b window', window++[s.fresh] = b::window' := by
      cases window with
      | nil => exact ⟨_,_,rfl⟩
      | cons b window => exact ⟨_,_,rfl⟩
    have short := queued.length_le
    rw [split] at queued short
    obtain ⟨v,moved,rest,ran,final,cells,_,data,_⟩ := queued.advanceBurst
      (show window'.length < u.fresh+1 by simp only [List.length_append,List.length_cons] at short; omega)
    dsimp only
    rw [got,Option.bind_some,put,Option.bind_some]
    rw [←split] at cells data
    refine ⟨v,moved,rest,[s.fresh],ran,final,by rw [cells,List.append_assoc],⟨s.fresh,rfl,?_,?_⟩,?_,fun a member => ?_⟩
    · rw [data.fixed _ (by simp),fixed_too,content,same.produced]
    · rw [data.produced,produced_too,produced,same.produced]
    · rw [data.mount,mount_too,mount,same.mount]
    · rw [data.fixed a (by rw [←List.append_assoc]; exact List.mem_append_left _ member),fixed_too,
        fixed a member,same.fixed a member]

theorem Queue.Inv.produce_wide (inv : q.Inv refs [] window) (wide : q.burstSize = 4294967295) (data : List UInt8) :
    ∃ r next, Icecast.produce q false (some ⟨data,none,true,none⟩) = some r ∧ r.Inv refs [] (window++[next]) ∧
      r.burstSize = 4294967295 := by
  obtain ⟨made,_⟩ := inv.newRefbuf ⟨data,none,true,none⟩
  obtain ⟨r,put,queued,_,_,_,_,burst⟩ := made.append
  refine ⟨r,q.fresh,?_,queued,burst.trans wide⟩
  have stays : ¬r.burstOffset > r.burstSize := by
    rw [burst,show (Icecast.newRefbuf q ⟨data,none,true,none⟩).burstSize = 4294967295 from wide]
    exact Nat.not_lt.mpr (Nat.le_of_lt_succ r.burstOffset.toNat_lt)
  simp only [Icecast.produce,Icecast.getPage,Bool.false_eq_true,if_false,Option.bind_some]
  rw [put,Option.bind_some,Icecast.advanceBurst,if_neg stays]

theorem Queue.Inv.trim_wide (inv : q.Inv refs [] (a::window)) : Icecast.trim (fuel+1) q = some (q,true) := by
  obtain ⟨cell,found,count⟩ := inv.counted.alive (inv.owed_pos (a := a) (by simp))
  have many : cell.count ≠ 1 := by
    rw [count]
    simp only [Queue.owed,List.nil_append,List.count_cons_self]
    omega
  have head : q.streamData = some a := inv.chain.head
  simp only [Icecast.trim,head,found,Option.bind_some,if_neg many]

theorem Queue.Inv.trimStep (inv : q.Inv refs (a::before) window) (alone : q.owed refs (a::before) window a = 1) :
    ∃ cell h r, q.heap a = some cell ∧ cell.count = 1 ∧ cell.item.next = (before++window).head? ∧
    q.burstPoint ≠ some a ∧
      modify q.heap a (fun buf => {buf with next := none}) = some h ∧
      Queue.release {q with heap := h,streamData := (before++window).head?,queueSize :=
        q.queueSize-cell.item.len} a = some r ∧
      r.Inv refs before window ∧ (∀ b ∈ before++window, read r.heap b = read q.heap b) ∧ a ∉ refs ∧
      r.mount = q.mount ∧ r.produced = q.produced ∧ r.fresh = q.fresh ∧ r.heap a = none := by
  have nodup := inv.nodup
  rw [List.cons_append,List.nodup_cons] at nodup
  obtain ⟨apart,rest_nodup⟩ := nodup
  obtain ⟨cell,found,count⟩ := inv.counted.alive (inv.owed_pos (a := a) (by simp))
  obtain ⟨h,unlinked,counted,_,others⟩ := inv.counted.modify (a := a) (f := fun buf => {buf with next := none})
    (inv.owed_pos (by simp))
  obtain ⟨k,released,counted_too,same⟩ := counted.release (a := a) (inv.owed_pos (by simp))
  have kept : ∀ b ∈ before++window, read k b = read q.heap b := fun b member => by
    have differs : b ≠ a := fun same => apart (same ▸ member)
    rw [same b (by rw [count_single differs]; exact inv.owed_pos (List.mem_cons_of_mem _ member)),others b differs]
  have not_listed : a ∉ refs ∧ a ∉ q.possibleStart.map (·.2) ∧ a ∉ window := by
    simp only [Queue.owed,List.cons_append,List.count_cons_self,List.count_eq_zero.mpr apart] at alone
    refine ⟨fun member => ?_,fun member => ?_,fun member => apart (List.mem_append_right _ member)⟩ <;>
    · have := List.count_pos_iff.mpr member
      omega
  have some_window : window ≠ [] := fun empty => absurd (inv.open_ empty) (List.cons_ne_nil _ _)
  have item : read q.heap a = some cell.item := by rw [RefHeap.read,found]; rfl
  have next : q.next a = some (before++window).head? :=
    (show Chain q.next q.streamData ([]++a::(before++window)) from inv.chain).next_eq
  rw [Queue.next,item] at next
  have len : q.lenAt a = cell.item.len := by rw [Queue.lenAt,item]; rfl
  refine ⟨cell,h,{q with heap := k,streamData := (before++window).head?,queueSize := q.queueSize-cell.item.len},found,
    count.trans alone,Option.some.inj next,?_,unlinked,?_,?_,kept,not_listed.1,rfl,rfl,rfl,?_⟩
  · rw [inv.burst]
    intro here
    exact not_listed.2.2 (List.mem_of_mem_head? here)
  · rw [Queue.release]
    dsimp only
    rw [released,Option.map_some]
  · exact {
      chain := (show Chain q.next q.streamData
        ([a]++(before++window)) from inv.chain).suffix.congr fun b member => congrArg (Option.map _) (kept b member)
      tail := by
        have more : before++window ≠ [] := by simp [some_window]
        exact inv.tail.trans (List.getLast?_cons_of_ne_nil more)
      burst := inv.burst
      open_ := fun empty => absurd empty some_window
      nodup := rest_nodup
      size := by
        rw [total_congr (q := q) fun b member => congrArg (Option.map _) (kept b member)]
        dsimp only
        rw [inv.size,List.cons_append,←len,total_tail]
      offset := by
        rw [total_congr (q := q) fun b member => congrArg (Option.map _) (kept b (List.mem_append_right _ member))]
        exact inv.offset
      counted := counted_too.congr fun b => by
        simp only [Queue.owed,List.cons_append,List.count_cons,List.count_nil]
        omega
      inside := fun b member => by
        have old := inv.inside b member
        rw [List.cons_append] at old
        rcases List.mem_cons.mp old with rfl | later
        · rcases List.mem_append.mp member with listener | start
          · exact absurd listener not_listed.1
          · exact absurd start not_listed.2.1
        · exact later
      fresh := fun b high => by
        have none_owed := inv.counted.owed_zero (inv.fresh b high)
        exact counted_too.gone (by omega) }
  · exact counted_too.gone (by rw [alone]; simp)

theorem Queue.Inv.trim (inv : q.Inv refs before window) (some_left : before++window ≠ [])
    (fuelled : before.length < fuel) :
    ∃ r dropped rest, trim fuel q = some (r,true) ∧ before = dropped++rest ∧ r.Inv refs rest window ∧
      (∀ a ∈ rest++window, r.fixedAt a = q.fixedAt a) ∧ (∀ a ∈ dropped, a ∉ refs) ∧ r.mount = q.mount ∧
      r.produced = q.produced := by
  induction fuel generalizing q before with
  | zero => omega
  | succ fuel ih =>
    unfold Icecast.trim
    cases before with
    | nil =>
      cases window with
      | nil => exact absurd rfl some_left
      | cons b window =>
        exact ⟨q,[],[],inv.trim_wide,rfl,inv,fun _ _ => rfl,nofun,rfl,rfl⟩
    | cons a before =>
      have head : q.streamData = some a := inv.chain.head
      obtain ⟨cell,found,count⟩ := inv.counted.alive (inv.owed_pos (a := a) (by simp))
      by_cases alone : q.owed refs (a::before) window a = 1
      · obtain ⟨cell,h,r,found,single,link,burst,unlinked,released,next,kept,apart,mount,produced,_,_⟩ :=
          inv.trimStep alone
        have some_window : window ≠ [] := fun empty => absurd (inv.open_ empty) (List.cons_ne_nil _ _)
        have more : before++window ≠ [] := by simp [some_window]
        obtain ⟨s,dropped,rest,ran,split,last,fixed,dropped_apart,mount_too,produced_too⟩ :=
          ih next more (by simp only [List.length_cons] at fuelled; omega)
        refine ⟨s,a::dropped,rest,?_,
          by rw [split]; rfl,last,fun b member => ?_,fun b member => ?_,mount_too.trans mount,
          produced_too.trans produced⟩
        · obtain ⟨n,first⟩ : ∃ n, (before++window).head? = some n := by
            cases whole : before++window with
            | nil => exact absurd whole more
            | cons n tail => exact ⟨n,rfl⟩
          rw [first] at link released
          simp only [head,found,Option.bind_some,if_pos single,link,if_neg burst,unlinked]
          rw [released,Option.bind_some]
          exact ran
        · have old : b ∈ before++window := by rw [split,List.append_assoc]; exact List.mem_append_right _ member
          rw [fixed b member,Queue.fixedAt,kept b old]
          rfl
        · rcases List.mem_cons.mp member with rfl | later
          · exact apart
          · exact dropped_apart b later
      · refine ⟨q,[],a::before,?_,rfl,inv,fun _ _ => rfl,nofun,rfl,rfl⟩
        have many : cell.count ≠ 1 := by rw [count]; exact alone
        simp only [head,found,Option.bind_some,if_neg many]

theorem release_times (q : Queue α) (counted : Counted q.heap owed) (enough : k ≤ owed a) :
    ∃ h, (List.replicate k a).foldlM Queue.release q = some {q with heap := h} ∧
      Counted h (fun b => owed b-(List.replicate k a).count b) ∧ ∀ b, b ≠ a → read h b = read q.heap b := by
  induction k generalizing q owed with
  | zero => exact ⟨q.heap,rfl,counted.congr fun b => by simp,fun _ _ => rfl⟩
  | succ k ih =>
    obtain ⟨h,done,next,same⟩ := counted.release (a := a) (by omega)
    obtain ⟨last,ran,final,kept⟩ := ih {q with heap := h} next (by simp; omega)
    refine ⟨last,?_,final.congr fun b => ?_,fun b other => ?_⟩
    · rw [List.replicate_succ,List.foldlM_cons,Queue.release,done]
      exact ran
    · rw [List.replicate_succ,List.count_cons,List.count_cons,List.count_nil]
      omega
    · rw [kept b other]
      by_cases owes : 0 < owed b
      · exact same b (by rw [count_single other]; exact owes)
      · have gone := counted.gone (a := b) (by omega)
        have still := next.gone (a := b) (by omega)
        dsimp only
        rw [RefHeap.read,RefHeap.read,gone,still]

theorem clear_queue (cells : List Nat) (chain : Chain q.next q.streamData cells) (counted : Counted q.heap owed)
    (nodup : cells.Nodup) (inside : ∀ a, 0 < owed a ↔ a ∈ cells) (fuelled : cells.length < fuel) :
    ∃ h, clearQueue fuel q = some {q with
      heap := h,streamData := none,streamDataTail := none,burstPoint := none,burstSize := 0,burstOffset := 0
      queueSize := 0,queueSizeLimit := 0} ∧ ∀ a, h a = none := by
  induction cells generalizing q owed fuel with
  | nil =>
    obtain ⟨fuel,rfl⟩ : ∃ n, fuel = n+1 := ⟨fuel-1,by omega⟩
    have head : q.streamData = none := chain.head
    refine ⟨q.heap,?_,fun a => counted.gone ?_⟩
    · simp only [clearQueue,head]
    · by_contra owes
      exact absurd ((inside a).mp (Nat.pos_of_ne_zero owes)) List.not_mem_nil
  | cons p cells ih =>
    obtain ⟨fuel,rfl⟩ : ∃ n, fuel = n+1 := ⟨fuel-1,by omega⟩
    obtain ⟨apart,nodup⟩ := List.nodup_cons.mp nodup
    have head : q.streamData = some p := chain.head
    have owes := (inside p).mpr List.mem_cons_self
    obtain ⟨cell,found,count⟩ := counted.alive owes
    have next : q.next p = some cells.head? := (show Chain q.next q.streamData ([]++p::cells) from chain).next_eq
    rw [Queue.next,RefHeap.read,found] at next
    have link : cell.item.next = cells.head? := Option.some.inj next
    obtain ⟨h,unlinked,still,_,others⟩ := counted.modify (a := p) (f := fun buf => {buf with next := none}) owes
    obtain ⟨k,released,rest,kept⟩ := release_times {q with heap := h,streamData := cell.item.next} still
      (k := cell.count) (Nat.le_of_eq count)
    have same : ∀ a ∈ cells, read k a = read q.heap a := fun a member => by
      have differs : a ≠ p := fun same => apart (same ▸ member)
      rw [kept a differs]
      exact others a differs
    have shorter : Chain (Queue.next {q with heap := k,streamData := cell.item.next}) cell.item.next cells := by
      rw [link]
      exact (show Chain q.next q.streamData ([p]++cells) from chain).suffix.congr fun a member =>
        congrArg (Option.map _) (same a member)
    obtain ⟨last,ran,empty⟩ := ih shorter rest nodup
      (fun a => by
        by_cases here : a = p
        · subst a
          rw [List.count_replicate_self,count,Nat.sub_self]
          exact ⟨fun owes => absurd owes (Nat.lt_irrefl 0),fun member => absurd member apart⟩
        · have none_here : (List.replicate cell.count p).count a = 0 := by
            rw [List.count_replicate]
            simp [Ne.symm here]
          rw [none_here,Nat.sub_zero,inside a,List.mem_cons]
          simp [here])
      (show cells.length < fuel by simp only [List.length_cons] at fuelled; omega)
    refine ⟨last,?_,empty⟩
    simp only [clearQueue,head,found,Option.bind_some,unlinked]
    rw [released,Option.bind_some]
    exact ran

theorem Queue.Inv.clear (inv : q.Inv [] before window) (none_held : q.possibleStart = []) :
    ∃ r, clearQueue (q.fresh+1) q = some r ∧ r.Inv [] [] [] ∧ r.mount = q.mount ∧ r.produced = q.produced := by
  have length := inv.length_le
  obtain ⟨h,cleared,empty⟩ := clear_queue (before++window) inv.chain inv.counted inv.nodup
    (fun a => ⟨fun owes => by
      by_contra outside
      rw [inv.owed_zero outside] at owes
      exact absurd owes (Nat.lt_irrefl 0),inv.owed_pos⟩) (show (before++window).length < q.fresh+1 by omega)
  refine ⟨_,cleared,?_,rfl,rfl⟩
  exact {
    chain := .nil
    tail := rfl
    burst := rfl
    open_ := fun _ => rfl
    nodup := List.nodup_nil
    size := rfl
    offset := rfl
    counted := ⟨fun a => by simp [RefHeap.count,empty a,Queue.owed,none_held],fun a c found => by
      dsimp only at found
      rw [empty a] at found
      cases found⟩
    inside := fun a member => by simp [none_held] at member
    fresh := fun a _ => empty a }

theorem empty_inv (mount : Nat) : (Queue.empty mount : Queue α).Inv [] [] [] where
  chain := .nil
  tail := rfl
  burst := rfl
  open_ := fun _ => rfl
  nodup := List.nodup_nil
  size := rfl
  offset := rfl
  counted := counted_empty
  inside := nofun
  fresh := fun _ _ => rfl

end Icecast
