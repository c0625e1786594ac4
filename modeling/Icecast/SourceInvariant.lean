import Icecast.ListenerInvariant

namespace Icecast
open RefHeap Linked

variable {α : Type u} {δ : Type v} {plugins : Nat → Plugin α δ} {q r : Queue α}
  {refs before window : List Nat} {m : Mount}

-- What a listener was sent since it was placed, also when it has left.
def SentPlain (plugins : Nat → Plugin α δ) (q : Queue α) (c : Listener δ) : Prop :=
  Plain plugins c → ∀ start, c.placedAt = some start → c.delivered <+: q.produced.drop start

theorem Follows.sent {c : Listener δ} (follows : Follows plugins q c) : SentPlain plugins q c :=
  fun plain start placed => (follows plain start placed).1

theorem SentPlain.grow {c : Listener δ} (sent : SentPlain plugins q c) (produced : r.produced = q.produced++more) :
    SentPlain plugins r c := fun plain start placed => by
  apply (sent plain start placed).trans
  rw [produced,List.drop_append]
  exact List.prefix_append _ _

theorem SentPlain.kept {c : Listener δ} (sent : SentPlain plugins q c) (kept : q.Kept r cells) :
    SentPlain plugins r c := by
  obtain ⟨h,rfl,_⟩ := kept
  exact sent

-- A listener of a source, as far as it matters to the source's queue.
def InOrder (plugins : Nat → Plugin α δ) (q : Queue α) (c : Listener δ) : Prop :=
  ListenerOk q.mount c ∧ Follows plugins q c

theorem InOrder.kept {c : Listener δ} (order : InOrder plugins q c) (kept : q.Kept r cells)
    (inside : ∀ a ∈ c.refbuf.refs, a ∈ cells) : InOrder plugins r c :=
  ⟨by rw [kept.mount]; exact order.1,order.2.kept kept inside⟩

-- Whether a listener still reads the refbuf at the head of the queue.
def AtHead (q : Queue α) (c : Listener δ) : Prop := ∃ a, c.refbuf = .queue q.mount a ∧ q.streamData = some a

theorem Served.sendToListener {c : Listener δ} {env : Nat → Turn δ} (served : Served plugins q refs before window c)
    (format : m.format = some f) (ran : sendToListener plugins m env deletionExpected q c = some (r,d)) :
    q.Kept r (before++window) ∧ Served plugins r refs before window d ∧
      (deletionExpected = true → AtHead r d → d.error = true) := by
  obtain ⟨⟨s,e⟩,looped,same⟩ := Option.map_eq_some_iff.mp ran
  cases same
  obtain ⟨kept,next⟩ := served.sendLoop format looped
  refine ⟨kept,next.error _,fun expected head => ?_⟩
  obtain ⟨a,queued,first⟩ := head
  dsimp only at queued ⊢
  rw [queued,expected]
  simp [first]

theorem Served.free {c : Listener δ} (served : Served plugins q refs before window c) :
    ∃ r, freeClient q c = some r ∧ q.Kept r (before++window) ∧ r.Inv refs before window := by
  unfold freeClient
  split
  · rename_i zero
    obtain ⟨_,data,own⟩ := served.ok.unanswered zero
    have queue := served.queue
    rw [own] at queue ⊢
    exact ⟨q,rfl,.refl q _,queue⟩
  · exact served.queue.releaseBuf served.ok.home

section Lists
variable {env : Nat → Nat → Turn δ}

theorem sendAll_inv (clients : List (Listener δ)) (inv : q.Inv (queueRefs clients++refs) before window)
    (contents : ∃ start, q.Contents start (before++window)) (order : ∀ c ∈ clients, InOrder plugins q c)
    (format : m.format = some f) (ran : sendAll plugins m env deletionExpected q clients = some p) :
    q.Kept p.queue (before++window) ∧ p.queue.Inv (queueRefs p.kept++refs) before window ∧
      (∀ c ∈ p.kept, InOrder plugins p.queue c) ∧ (∀ c ∈ p.dropped, SentPlain plugins p.queue c) ∧
      (deletionExpected = true → ∀ c ∈ p.kept, ¬AtHead p.queue c) := by
  induction clients generalizing q refs p with
  | nil =>
    cases Option.some.inj ran
    exact ⟨.refl q _,inv,nofun,nofun,fun _ => nofun⟩
  | cons c rest ih =>
    obtain ⟨ok,follows⟩ := order c List.mem_cons_self
    rw [queueRefs_cons,List.append_assoc] at inv
    have served : Served plugins q (queueRefs rest++refs) before window c := ⟨inv,contents,ok,follows⟩
    unfold sendAll at ran
    obtain ⟨⟨s,d⟩,sent,more⟩ := Option.bind_eq_some_iff.mp ran
    obtain ⟨kept,next,slow⟩ := served.sendToListener format sent
    have listed : ∀ e ∈ rest, ∀ a ∈ e.refbuf.refs, a ∈ before++window := fun e member a held => by
      refine inv.inside a (List.mem_append_left _ (List.mem_append_right _ (List.mem_append_left _ ?_)))
      exact List.mem_flatMap.mpr ⟨e,member,held⟩
    have others : ∀ e ∈ rest, InOrder plugins s e := fun e member =>
      (order e (List.mem_cons_of_mem _ member)).kept kept (listed e member)
    dsimp only at more
    split at more
    · obtain ⟨t,freed,last⟩ := Option.bind_eq_some_iff.mp more
      obtain ⟨p',ran',same⟩ := Option.map_eq_some_iff.mp last
      cases same
      obtain ⟨t',done,kept_too,inv_too⟩ := next.free
      cases Option.some.inj (freed.symm.trans done)
      obtain ⟨start,contents⟩ := next.contents
      obtain ⟨kept_last,inv_last,order_last,sent_last,slow_last⟩ := ih inv_too ⟨start,contents.kept kept_too⟩
        (fun e member => (others e member).kept kept_too (listed e member)) ran'
      refine ⟨(kept.trans kept_too).trans kept_last,inv_last,order_last,fun e member => ?_,slow_last⟩
      rcases List.mem_cons.mp member with rfl | later
      · exact (next.follows.sent.kept kept_too).kept kept_last
      · exact sent_last e later
    · rename_i fine
      obtain ⟨p',ran',same⟩ := Option.map_eq_some_iff.mp more
      cases same
      have queue : s.Inv (queueRefs rest++(d.refbuf.refs++refs)) before window :=
        next.queue.perm (List.perm_append_comm_assoc _ _ _)
      obtain ⟨kept_last,inv_last,order_last,sent_last,slow_last⟩ := ih queue next.contents others ran'
      refine ⟨kept.trans kept_last,?_,fun e member => ?_,sent_last,fun expected e member head => ?_⟩
      · rw [queueRefs_cons,List.append_assoc]
        exact inv_last.perm (List.perm_append_comm_assoc _ _ _)
      · rcases List.mem_cons.mp member with rfl | later
        · exact InOrder.kept ⟨next.ok,next.follows⟩ kept_last next.inside
        · exact order_last e later
      · rcases List.mem_cons.mp member with rfl | later
        · refine fine (slow expected ?_)
          obtain ⟨h,same,_⟩ := kept_last
          obtain ⟨a,queued,first⟩ := head
          dsimp only at queued first
          rw [same] at queued first
          exact ⟨a,queued,first⟩
        · exact slow_last expected e later head

theorem sendAll_total (total : Total plugins) (env : Nat → Nat → Turn δ) (deletionExpected : Bool)
    (clients : List (Listener δ)) (inv : q.Inv (queueRefs clients++refs) before window)
    (contents : ∃ start, q.Contents start (before++window)) (order : ∀ c ∈ clients, InOrder plugins q c)
    (format : m.format = some f) : ∃ p, sendAll plugins m env deletionExpected q clients = some p := by
  induction clients generalizing q refs with
  | nil => exact ⟨_,rfl⟩
  | cons c rest ih =>
    obtain ⟨ok,follows⟩ := order c List.mem_cons_self
    rw [queueRefs_cons,List.append_assoc] at inv
    have served : Served plugins q (queueRefs rest++refs) before window c := ⟨inv,contents,ok,follows⟩
    obtain ⟨s,e,looped⟩ := served.sendLoop_total total (env c.id) 10 0 format
    obtain ⟨d,sent⟩ : ∃ d, sendToListener plugins m (env c.id) deletionExpected q c = some (s,d) :=
      ⟨_,by rw [sendToListener,looped,Option.map_some]⟩
    obtain ⟨kept,next,_⟩ := served.sendToListener format sent
    have listed : ∀ e ∈ rest, ∀ a ∈ e.refbuf.refs, a ∈ before++window := fun e member a held => by
      refine inv.inside a (List.mem_append_left _ (List.mem_append_right _ (List.mem_append_left _ ?_)))
      exact List.mem_flatMap.mpr ⟨e,member,held⟩
    have others : ∀ e ∈ rest, InOrder plugins s e := fun e member =>
      (order e (List.mem_cons_of_mem _ member)).kept kept (listed e member)
    unfold sendAll
    rw [sent,Option.bind_some]
    dsimp only
    split
    · obtain ⟨t,freed,kept_too,inv_too⟩ := next.free
      obtain ⟨start,contents⟩ := next.contents
      obtain ⟨p,ran⟩ := ih inv_too ⟨start,contents.kept kept_too⟩
        (fun e member => (others e member).kept kept_too (listed e member))
      exact ⟨_,by rw [freed,Option.bind_some,ran,Option.map_some]⟩
    · have queue : s.Inv (queueRefs rest++(d.refbuf.refs++refs)) before window :=
        next.queue.perm (List.perm_append_comm_assoc _ _ _)
      obtain ⟨p,ran⟩ := ih queue next.contents others
      exact ⟨_,by rw [ran,Option.map_some]⟩

end Lists

theorem InOrder.same {c : Listener δ} (order : InOrder plugins q c) (mount : r.mount = q.mount)
    (produced : r.produced = q.produced++more)
    (fixed : ∀ a ∈ c.refbuf.refs, r.fixedAt a = q.fixedAt a) : InOrder plugins r c :=
  ⟨by rw [mount]; exact order.1,order.2.same produced fixed⟩

theorem queueRefs_perm {xs ys : List (Listener δ)} (same : xs.Perm ys) : (queueRefs xs).Perm (queueRefs ys) :=
  same.flatMap_right _

theorem mem_queueRefs {clients : List (Listener δ)} (member : c ∈ clients) (held : a ∈ c.refbuf.refs) :
    a ∈ queueRefs clients :=
  List.mem_flatMap.mpr ⟨c,member,held⟩

theorem acceptPending_inv (plugins : Nat → Plugin α δ) (maxListeners : Int)
    (pending : List (Listener δ)) (s : Accepted α δ)
    (inv : s.queue.Inv (queueRefs s.clientTree++queueRefs pending) before window)
    (contents : ∃ start, s.queue.Contents start (before++window))
    (order : ∀ c ∈ s.clientTree++pending, InOrder plugins s.queue c)
    (sent : ∀ c ∈ s.refused, SentPlain plugins s.queue c) :
    ∃ t, acceptPending maxListeners s pending = some t ∧ s.queue.Kept t.queue (before++window) ∧
      t.queue.Inv (queueRefs t.clientTree) before window ∧ (∀ c ∈ t.clientTree, InOrder plugins t.queue c) ∧
      (∀ c ∈ t.clientTree, c ∈ s.clientTree ∨ c ∈ pending) ∧ (∀ c ∈ t.refused, SentPlain plugins t.queue c) := by
  induction pending generalizing s with
  | nil =>
    rw [queueRefs_nil,List.append_nil] at inv
    rw [List.append_nil] at order
    exact ⟨s,rfl,.refl _ _,inv,order,fun c member => .inl member,sent⟩
  | cons c rest ih =>
    obtain ⟨ok,follows⟩ := order c (by simp)
    have swapped : s.queue.Inv (c.refbuf.refs++(queueRefs s.clientTree++queueRefs rest)) before window :=
      inv.perm (List.perm_append_comm_assoc _ _ _)
    have served : Served plugins s.queue (queueRefs s.clientTree++queueRefs rest) before window c :=
      ⟨swapped,contents,ok,follows⟩
    unfold acceptPending
    split
    · obtain ⟨q,freed,kept,next⟩ := served.free
      obtain ⟨start,held⟩ := contents
      have listed : ∀ e ∈ s.clientTree++rest, ∀ a ∈ e.refbuf.refs, a ∈ before++window := fun e member a held =>
        next.inside a (List.mem_append_left _ (by
          rw [←queueRefs_append]
          exact mem_queueRefs member held))
      obtain ⟨t,ran,kept_too,inv_too,order_too,origin,sent_too⟩ := ih {s with queue := q,refused := s.refused++[c]} next
        ⟨start,held.kept kept⟩
        (fun e member => (order e (by simp at member ⊢; tauto)).kept kept (listed e member))
        (fun e member => by
          rcases List.mem_append.mp member with old | last
          · exact (sent e old).kept kept
          · rw [List.mem_singleton.mp last]
            exact follows.sent.kept kept)
      refine ⟨t,by rw [freed,Option.bind_some]; exact ran,kept.trans kept_too,inv_too,order_too,fun e member => ?_,sent_too⟩
      rcases origin e member with old | later
      · exact .inl old
      · exact .inr (List.mem_cons_of_mem _ later)
    · have perm := insertClient_perm c s.clientTree
      obtain ⟨t,ran,kept_too,inv_too,order_too,origin,sent_too⟩ :=
        ih {s with clientTree := insertClient c s.clientTree,listeners := s.listeners+1}
        (inv.perm (by
          apply (List.perm_append_comm_assoc _ _ _).trans
          rw [←List.append_assoc]
          exact List.Perm.append_right _ (queueRefs_perm perm).symm))
        contents
        (fun e member => order e (by
          have := perm.mem_iff (a := e)
          simp at member this ⊢
          tauto))
        sent
      refine ⟨t,ran,kept_too,inv_too,order_too,fun e member => ?_,sent_too⟩
      rcases origin e member with old | later
      · rcases List.mem_cons.mp (perm.mem_iff.mp old) with rfl | listed
        · exact .inr List.mem_cons_self
        · exact .inl listed
      · exact .inr (List.mem_cons_of_mem _ later)

-- A source between two steps.
structure Source.Inv (plugins : Nat → Plugin α δ) (s : Source α δ) (before window : List Nat) : Prop where
  queue : s.queue.Inv (queueRefs (s.clientTree++s.pendingTree)) before window
  contents : ∃ start, s.queue.Contents start (before++window)
  order : ∀ c ∈ s.clientTree++s.pendingTree, InOrder plugins s.queue c
  pending : ∀ c ∈ s.pendingTree, c.checkBuffer ≠ .advance
  departed : ∀ c ∈ s.departed, SentPlain plugins s.queue c
  format : s.phase ≠ .idle → ∃ f, s.mount.format = some f

theorem reserve_inv (mount : Nat) : (Source.reserve mount : Source α δ).Inv plugins [] [] where
  queue := empty_inv mount
  contents := ⟨0,rfl⟩
  order := nofun
  pending := nofun
  departed := nofun
  format := fun busy => absurd rfl busy

theorem settle_inv {s : Source α δ} (inv : s.Inv plugins before window) (busy : s.phase ≠ .idle) :
    ∃ t rest dropped, settle s = some t ∧ before = dropped++rest ∧ t.Inv plugins rest window ∧
    t.clientTree = s.clientTree ∧
      t.pendingTree = s.pendingTree ∧ t.queue.mount = s.queue.mount ∧
      t.queue.total (rest++window) ≤ s.queue.total (before++window) := by
  unfold settle
  dsimp only
  split
  · rename_i some_left
    have nonempty : before++window ≠ [] := fun empty => by
      have head := inv.queue.chain.head
      rw [empty,List.head?_nil] at head
      rw [head] at some_left
      cases some_left
    have short := inv.queue.length_le
    rw [List.length_append] at short
    obtain ⟨q,dropped,rest,ran,split,trimmed,fixed,apart,mount,produced⟩ :=
      inv.queue.trim nonempty (show before.length < s.queue.fresh+1 by omega)
    refine ⟨{s with
      prevListeners := s.listeners,phase := .top,queue := q
      running := s.running && !decide (s.listeners ≠ s.prevListeners ∧ s.listeners = 0 ∧ s.onDemand) && true},
      rest,dropped,by rw [ran,Option.map_some],split,?_,rfl,rfl,mount,?_⟩
    swap
    · have less : q.total (rest++window) ≤ s.queue.total (before++window) := by
        rw [split,List.append_assoc,total_append s.queue,total_congr fixed]
        exact Nat.le_add_left _ _
      exact less
    obtain ⟨start,contents⟩ := inv.contents
    rw [split,List.append_assoc] at contents
    obtain ⟨later,contents⟩ := contents.suffix
    exact {
      queue := trimmed
      contents := ⟨later,contents.congr fixed produced⟩
      order := fun c member => by
        refine (inv.order c member).same mount (show q.produced = s.queue.produced++[] by rw [produced,
          List.append_nil]) fun a held => fixed a ?_
        exact trimmed.inside a (List.mem_append_left _ (mem_queueRefs member held))
      pending := inv.pending
      departed := fun c member => (inv.departed c member).grow
        (show q.produced = s.queue.produced++[] by rw [produced,List.append_nil])
      format := fun _ => inv.format busy }
  · exact ⟨_,before,[],rfl,rfl,
      ⟨inv.queue,inv.contents,inv.order,inv.pending,inv.departed,fun _ => inv.format busy⟩,rfl,rfl,rfl,Nat.le_refl _⟩

theorem pass_served {s : Source α δ} (inv : s.Inv plugins before window) (mid : s.phase = .mid)
    (sent : sendAll plugins s.mount env s.removeFromQ s.queue s.clientTree = some p) :
    ∃ t rest dropped, s.pass plugins env = some t ∧ before = dropped++rest ∧ t.Inv plugins rest window ∧
      t.queue.mount = s.queue.mount ∧ t.queue.total (rest++window) ≤ s.queue.total (before++window) ∧
      (s.removeFromQ = true → ∀ c ∈ t.clientTree, ¬AtHead s.queue c) := by
  have busy : s.phase ≠ .idle := by rw [mid]; decide
  obtain ⟨f,format⟩ := inv.format busy
  have all := inv.queue
  rw [queueRefs_append] at all
  obtain ⟨kept,inv_sent,order_sent,departed_sent,slow⟩ := sendAll_inv s.clientTree all inv.contents
    (fun c member => inv.order c (List.mem_append_left _ member)) format sent
  obtain ⟨start,contents⟩ := inv.contents
  have inside : ∀ c ∈ s.pendingTree, ∀ a ∈ c.refbuf.refs, a ∈ before++window := fun c member a held =>
    inv.queue.inside a (List.mem_append_left _ (mem_queueRefs (List.mem_append_right _ member) held))
  obtain ⟨accepted,took,kept_too,inv_accepted,order_accepted,origin,refused⟩ :=
    acceptPending_inv plugins s.maxListeners s.pendingTree
    ⟨p.queue,p.kept,s.listeners-UInt64.ofNat p.dropped.length,[]⟩ inv_sent ⟨start,contents.kept kept⟩
    (fun c member => by
      rcases List.mem_append.mp member with served | waiting
      · exact order_sent c served
      · exact (inv.order c (List.mem_append_right _ waiting)).kept kept (inside c waiting))
    nofun
  have both := kept.trans kept_too
  have before_settle : Source.Inv plugins {s with
      queue := accepted.queue,clientTree := accepted.clientTree,pendingTree := [],listeners := accepted.listeners
      departed := s.departed++p.dropped++accepted.refused} before window :=
    { queue := by
        dsimp only
        rw [List.append_nil]
        exact inv_accepted
      contents := ⟨start,contents.kept both⟩
      order := fun c member => by
        dsimp only at member
        rw [List.append_nil] at member
        exact order_accepted c member
      pending := nofun
      departed := fun c member => by
        rcases List.mem_append.mp member with earlier | last
        · rcases List.mem_append.mp earlier with old | dropped
          · exact (inv.departed c old).kept both
          · exact (departed_sent c dropped).kept kept_too
        · exact refused c last
      format := fun _ => ⟨f,format⟩ }
  obtain ⟨u,remaining,dropped,settled,split,final,clients,_,mount,less⟩ := settle_inv before_settle busy
  refine ⟨u,remaining,dropped,?_,split,final,mount.trans both.mount,Nat.le_trans less (Nat.le_of_eq both.total),
    fun expected c member head => ?_⟩
  · rw [Source.pass,sent,Option.bind_some,took,Option.bind_some]
    exact settled
  rw [clients] at member
  obtain ⟨a,queued,first⟩ := head
  rcases origin c member with served | waiting
  · refine slow expected c served ⟨a,?_,?_⟩
    · rw [queued,kept.mount]
    · obtain ⟨h,same,_⟩ := kept
      rw [same]
      exact first
  · have idle := ((inv.order c (List.mem_append_right _ waiting)).1.other (inv.pending c waiting)).1
    rw [queued] at idle
    cases idle

theorem pass_inv {s : Source α δ} (inv : s.Inv plugins before window) (mid : s.phase = .mid)
    (ran : s.pass plugins env = some t) :
    ∃ rest dropped, before = dropped++rest ∧ t.Inv plugins rest window ∧ t.queue.mount = s.queue.mount ∧
      t.queue.total (rest++window) ≤ s.queue.total (before++window) ∧
      (s.removeFromQ = true → ∀ c ∈ t.clientTree, ¬AtHead s.queue c) := by
  obtain ⟨p,sent,_⟩ := Option.bind_eq_some_iff.mp ran
  obtain ⟨u,rest,dropped,done,result⟩ := pass_served inv mid sent
  cases Option.some.inj (done.symm.trans ran)
  exact ⟨rest,dropped,result⟩

theorem pass_total {s : Source α δ} (total : Total plugins) (inv : s.Inv plugins before window) (mid : s.phase = .mid)
    (env : Nat → Nat → Turn δ) : ∃ t, s.pass plugins env = some t := by
  obtain ⟨f,format⟩ := inv.format (by rw [mid]; decide)
  have all := inv.queue
  rw [queueRefs_append] at all
  obtain ⟨p,sent⟩ := sendAll_total total env s.removeFromQ s.clientTree all inv.contents
    (fun c member => inv.order c (List.mem_append_left _ member)) format
  obtain ⟨t,_,_,done,_⟩ := pass_served inv mid sent
  exact ⟨t,done⟩

theorem produce_inv {s : Source α δ} (inv : s.Inv plugins before window) (busy : s.phase ≠ .idle) (zap : Bool)
    (page : Option (Page α)) :
    ∃ t moved rest, s.produce zap page = some t ∧ t.Inv plugins moved rest ∧ t.queue.mount = s.queue.mount ∧
      t.queue.total (moved++rest) = s.queue.total (before++window)+pageBytes page := by
  obtain ⟨q,moved,rest,added,made,queue,cells,adds,mount,fixed⟩ := inv.queue.produce zap page
  refine ⟨_,moved,rest,by rw [Source.produce,made,Option.map_some],?_,mount,by rw [cells]; exact adds.total fixed⟩
  obtain ⟨start,contents⟩ := inv.contents
  obtain ⟨more,produced⟩ := adds.more
  exact {
    queue := queue
    contents := by
      refine ⟨start,?_⟩
      rw [cells]
      exact adds.contents contents fixed
    order := fun c member => (inv.order c member).same mount produced fun a held =>
      fixed a (inv.queue.inside a (List.mem_append_left _ (mem_queueRefs member held)))
    pending := inv.pending
    departed := fun c member => (inv.departed c member).grow produced
    format := fun _ => inv.format busy }

-- A listener that holds nothing of any queue.
def Detached (c : Listener δ) : Prop :=
  c.checkBuffer ≠ .advance ∧ c.refbuf.refs = [] ∧ c.placedAt = none ∧
    (c.respcode = 0 → c.checkBuffer = .http ∧ ∃ data, c.refbuf = .own data)

theorem Detached.order {c : Listener δ} (detached : Detached c) (q : Queue α) : InOrder plugins q c :=
  ⟨⟨fun advance => absurd advance detached.1,fun _ => ⟨detached.2.1,detached.2.2.1⟩,detached.2.2.2⟩,
    .unplaced detached.2.2.1⟩

theorem InOrder.detached {c : Listener δ} (order : InOrder plugins q c) (idle : c.checkBuffer ≠ .advance) :
    Detached c :=
  ⟨idle,(order.1.other idle).1,(order.1.other idle).2,order.1.unanswered⟩

theorem Served.detach {c : Listener δ} (served : Served plugins q refs before window c) :
    ∃ r d, detachClient m q c = some (r,d) ∧ q.Kept r (before++window) ∧ r.Inv refs before window ∧ Detached d := by
  unfold detachClient
  by_cases http : c.checkBuffer = .http
  · rw [if_neg (by simp [http])]
    have idle : c.checkBuffer ≠ .advance := by rw [http]; decide
    have detached := InOrder.detached ⟨served.ok,served.follows⟩ idle
    have queue := served.queue
    rw [detached.2.1] at queue
    exact ⟨q,c,rfl,.refl q _,queue,detached⟩
  · rw [if_pos http]
    obtain ⟨r,set,kept,inv⟩ := Queue.Inv.setNull (c := c) served.queue served.ok.home
    rw [set,Option.map_some]
    refine ⟨r,_,rfl,kept,inv,⟨nofun,rfl,rfl,fun zero => ?_⟩⟩
    exact absurd (served.ok.unanswered zero).1 http

theorem detachClients_inv (clients : List (Listener δ)) (inv : q.Inv (queueRefs clients++refs) before window)
    (contents : ∃ start, q.Contents start (before++window)) (order : ∀ c ∈ clients, InOrder plugins q c) :
    ∃ r moved, detachClients m q clients = some (r,moved) ∧ q.Kept r (before++window) ∧ r.Inv refs before window ∧
      ∀ c ∈ moved, Detached c := by
  induction clients generalizing q with
  | nil => exact ⟨q,[],rfl,.refl q _,inv,nofun⟩
  | cons c rest ih =>
    obtain ⟨ok,follows⟩ := order c List.mem_cons_self
    rw [queueRefs_cons,List.append_assoc] at inv
    have served : Served plugins q (queueRefs rest++refs) before window c := ⟨inv,contents,ok,follows⟩
    obtain ⟨r,d,took,kept,next,detached⟩ := served.detach (m := m)
    obtain ⟨start,contents⟩ := contents
    obtain ⟨s,moved,ran,kept_too,last,all⟩ := ih next ⟨start,contents.kept kept⟩ fun e member =>
      (order e (List.mem_cons_of_mem _ member)).kept kept fun a held =>
        inv.inside a (List.mem_append_left _
          (List.mem_append_right _ (List.mem_append_left _ (mem_queueRefs member held))))
    refine ⟨s,d::moved,?_,kept.trans kept_too,last,fun e member => ?_⟩
    · rw [detachClients,took,Option.bind_some]
      dsimp only
      rw [ran,Option.map_some]
    · rcases List.mem_cons.mp member with rfl | later
      · exact detached
      · exact all e later

theorem insert_all_perm (moved tree : List (Listener δ)) :
    (moved.foldl (fun tree c => insertClient c tree) tree).Perm (moved++tree) := by
  induction moved generalizing tree with
  | nil => exact .refl _
  | cons c rest ih =>
    apply (ih (insertClient c tree)).trans
    apply (List.Perm.append_left rest (insertClient_perm c tree)).trans
    exact List.perm_middle

theorem detached_refs {clients : List (Listener δ)} (all : ∀ c ∈ clients, Detached c) : queueRefs clients = [] := by
  rw [queueRefs,List.flatMap_eq_nil_iff]
  exact fun c member => (all c member).2.1

theorem Source.Inv.receive {s : Source α δ} (inv : s.Inv plugins before window)
    (same : tree.Perm (moved++s.pendingTree))
    (all : ∀ c ∈ moved, Detached c) (request : Bool) :
    Source.Inv plugins {s with pendingTree := tree,onDemandReq := request} before window where
  queue := by
    apply inv.queue.perm
    rw [queueRefs_append,queueRefs_append]
    apply List.Perm.append_left _
    have refs := queueRefs_perm same
    rw [queueRefs_append,detached_refs all,List.nil_append] at refs
    exact refs.symm
  contents := inv.contents
  order := fun c member => by
    rcases List.mem_append.mp member with served | waiting
    · exact inv.order c (List.mem_append_left _ served)
    · rcases List.mem_append.mp (same.mem_iff.mp waiting) with new | old
      · exact (all c new).order _
      · exact inv.order c (List.mem_append_right _ old)
  pending := fun c member => by
    rcases List.mem_append.mp (same.mem_iff.mp member) with new | old
    · exact (all c new).1
    · exact inv.pending c old
  departed := inv.departed
  format := inv.format

-- source_move_clients between two sources, or with nothing moved.
theorem move_inv {s d : Source α δ} (inv : s.Inv plugins before window) (inv_d : d.Inv plugins before_d window_d) :
    ∃ t e, sourceMoveClients plugins s d = some (t,e) ∧ t.Inv plugins before window ∧ e.Inv plugins before_d window_d ∧
      t.queue.mount = s.queue.mount ∧ e.queue.mount = d.queue.mount ∧
      t.queue.total (before++window) = s.queue.total (before++window) ∧
      e.queue = d.queue ∧ (s.queue.mount = d.queue.mount → t = s ∧ e = d) := by
  unfold sourceMoveClients
  by_cases move : movable plugins s d = true
  · have apart : s.queue.mount ≠ d.queue.mount := by
      unfold movable at move
      intro same
      simp [same] at move
    have all : s.queue.Inv (queueRefs (s.pendingTree++s.clientTree)++[]) before window := by
      rw [List.append_nil]
      exact inv.queue.perm (queueRefs_perm List.perm_append_comm)
    obtain ⟨q,moved,took,kept,emptied,detached⟩ := detachClients_inv (m := s.mount) (s.pendingTree++s.clientTree) all
      inv.contents (fun c member => inv.order c (by simp at member ⊢; tauto))
    rw [if_pos move,took,Option.map_some]
    refine ⟨_,_,rfl,?_,inv_d.receive (insert_all_perm moved d.pendingTree) detached _,kept.mount,rfl,kept.total,
      rfl,fun same => absurd same apart⟩
    obtain ⟨start,contents⟩ := inv.contents
    exact {
      queue := emptied
      contents := ⟨start,contents.kept kept⟩
      order := nofun
      pending := nofun
      departed := fun c member => by
        rcases List.mem_append.mp member with earlier | served
        · rcases List.mem_append.mp earlier with old | waiting
          · exact (inv.departed c old).kept kept
          · exact (inv.order c (List.mem_append_right _ waiting)).2.sent.kept kept
        · exact (inv.order c (List.mem_append_left _ served)).2.sent.kept kept
      format := inv.format }
  · rw [if_neg move]
    exact ⟨s,d,rfl,inv,inv_d,rfl,rfl,rfl,rfl,fun _ => ⟨rfl,rfl⟩⟩

theorem freeClients_inv (clients : List (Listener δ)) (inv : q.Inv (queueRefs clients) before window)
    (contents : ∃ start, q.Contents start (before++window)) (order : ∀ c ∈ clients, InOrder plugins q c) :
    ∃ r, freeClients q clients = some r ∧ q.Kept r (before++window) ∧ r.Inv [] before window := by
  induction clients generalizing q with
  | nil => exact ⟨q,rfl,.refl q _,inv⟩
  | cons c rest ih =>
    obtain ⟨ok,follows⟩ := order c List.mem_cons_self
    have served : Served plugins q (queueRefs rest) before window c := ⟨inv,contents,ok,follows⟩
    obtain ⟨r,freed,kept,next⟩ := served.free
    obtain ⟨start,contents⟩ := contents
    obtain ⟨s,ran,kept_too,last⟩ := ih next ⟨start,contents.kept kept⟩ fun e member =>
      (order e (List.mem_cons_of_mem _ member)).kept kept fun a held =>
        inv.inside a (List.mem_append_left _ (List.mem_append_right _ (mem_queueRefs member held)))
    refine ⟨s,?_,kept.trans kept_too,last⟩
    rw [freeClients,List.foldlM_cons,freed]
    exact ran

theorem clear_inv {s : Source α δ} (inv : s.Inv plugins before window) :
    ∃ t, s.clear = some t ∧ t.Inv plugins [] [] ∧ t.queue.mount = s.queue.mount := by
  obtain ⟨q,freed,kept,queue⟩ := freeClients_inv (s.clientTree++s.pendingTree) inv.queue inv.contents inv.order
  obtain ⟨r,zapped,plain,data,_,none_held⟩ := queue.freeCodecs
  obtain ⟨t,cleared,empty,mount,produced⟩ := plain.clear none_held
  refine ⟨_,by rw [Source.clear,freed,Option.bind_some,zapped,Option.bind_some,cleared,Option.map_some],?_,
    mount.trans (data.mount.trans kept.mount)⟩
  have all : t.produced = s.queue.produced := by
    rw [produced,data.produced]
    obtain ⟨h,rfl,_⟩ := kept
    rfl
  exact {
    queue := empty
    contents := ⟨t.produced.length,rfl⟩
    order := nofun
    pending := nofun
    departed := fun c member => by
      have grown : t.produced = s.queue.produced++[] := by rw [all,List.append_nil]
      rcases List.mem_append.mp member with earlier | waiting
      · rcases List.mem_append.mp earlier with old | served
        · exact (inv.departed c old).grow grown
        · exact (inv.order c (List.mem_append_left _ served)).2.sent.grow grown
      · exact (inv.order c (List.mem_append_right _ waiting)).2.sent.grow grown
    format := fun busy => absurd rfl busy }

end Icecast
