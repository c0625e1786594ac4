import Icecast.OggHeaders

namespace Icecast.Ogg
open RefHeap Linked Transition

-- A call of format_ogg_attach_header: the page, and where malloc puts its refbuf.
abbrev Arrival := OggPage × Nat

def bosPages (calls : List Arrival) : List Nat := (calls.filter (·.1.bos)).map (·.2)

def otherPages (calls : List Arrival) : List Nat := (calls.filter (!·.1.bos)).map (·.2)

-- The BOS pages as they arrived, then the others as they arrived.
def order (calls : List Arrival) : List Nat := bosPages calls++otherPages calls

structure InOrder (s : Pages) (i : Nat) (calls : List Arrival) : Prop where
  chain : Chain (nextOf s.heap) (s.infos i).headerPages (order calls)
  bosEnd : (s.infos i).bosEnd = (bosPages calls).getLast?.elim .headerPages .next
  tail : (s.infos i).headerPagesTail = (order calls).getLast?
  bytes : ∀ c ∈ calls, (read s.heap c.2).map (·.bytes) = some c.1.bytes

theorem order_bos {page : OggPage} (calls : List Arrival) (a : Nat) (bos : page.bos = true) :
    order (calls++[(page,a)]) = bosPages calls++a::otherPages calls := by
  simp [order,bosPages,otherPages,bos]

theorem order_other {page : OggPage} (calls : List Arrival) (a : Nat) (other : page.bos = false) :
    order (calls++[(page,a)]) = order calls++[a] := by
  simp [order,bosPages,otherPages,other]

theorem bosPages_snoc (calls : List Arrival) (page : OggPage) (a : Nat) :
    bosPages (calls++[(page,a)]) = if page.bos then bosPages calls++[a] else bosPages calls := by
  cases bos : page.bos <;> simp [bosPages,bos]

theorem mem_order : a ∈ order calls ↔ ∃ c ∈ calls, c.2 = a := by
  simp only [order,bosPages,otherPages,List.mem_append,List.mem_map,List.mem_filter]
  constructor
  · rintro (⟨c,⟨member,_⟩,rfl⟩ | ⟨c,⟨member,_⟩,rfl⟩) <;> exact ⟨c,member,rfl⟩
  · rintro ⟨c,member,rfl⟩
    cases bos : c.1.bos with
    | true => exact .inl ⟨c,⟨member,bos⟩,rfl⟩
    | false => exact .inr ⟨c,⟨member,by simp [bos]⟩,rfl⟩

section Link

variable {h : Heap HeaderPage}

theorem chain_apart (chain : Chain (nextOf h) p cells) (free : h a = none) : a ∉ cells := by
  intro member
  obtain ⟨q,found⟩ := chain.mem member
  rw [nextOf,read_none.mpr free] at found
  cases found

theorem link_front (bytes : List UInt8) (serial : Nat) (chain : Chain (nextOf h) p cells) (free : h a = none) :
    Chain (nextOf (alloc h a ⟨bytes,p,serial⟩)) (some a) (a::cells) := by
  refine .cons (by rw [nextOf,read_alloc]; rfl) (chain.congr fun b member => nextOf_congr (read_congr (assign_other ?_)))
  exact fun same => chain_apart chain free (same ▸ member)

theorem link_behind (bytes : List UInt8) (serial : Nat)
    (chain : Chain (nextOf h) p (front++b::back)) (free : h a = none) :
    ∃ k, modify (alloc h a ⟨bytes,back.head?,serial⟩) b (link (some a)) = some k ∧
    Chain (nextOf k) p (front++b::a::back) ∧
      (read k a).map (·.bytes) = some bytes ∧ (∀ c, c ≠ a → (read k c).map (·.bytes) = (read h c).map (·.bytes)) ∧
      ∀ c, c ≠ a → c ≠ b → k c = h c := by
  have unlisted := chain_apart chain free
  have apart : b ≠ a := fun same => unlisted (by simp [same])
  have others : ∀ c, c ≠ a → alloc h a ⟨bytes,back.head?,serial⟩ c = h c := fun c other => assign_other other
  obtain ⟨old,there,linked⟩ := Option.map_eq_some_iff.mp chain.next_eq
  have same : read (alloc h a ⟨bytes,back.head?,serial⟩) b = some old := (read_congr (others b apart)).trans there
  obtain ⟨k,done,here,elsewhere⟩ := modify_total same (link (some a))
  have new : read k a = some ⟨bytes,back.head?,serial⟩ := (read_congr (elsewhere a (Ne.symm apart))).trans read_alloc
  have kept : ∀ c, c ≠ a → c ≠ b → k c = h c := fun c new other => (elsewhere c other).trans (others c new)
  refine ⟨k,done,chain.insert (by rw [nextOf,here]; rfl) ?_ fun c member => ?_,by rw [new]; rfl,fun c other => ?_,kept⟩
  · rw [nextOf,new,chain.next_eq]
    rfl
  · refine nextOf_congr (read_congr (kept c ?_ ?_))
    · rintro rfl
      exact unlisted (by simp at member ⊢; tauto)
    · rintro rfl
      have nodup := chain.nodup
      simp [List.nodup_append] at nodup member
      rcases member with before | after
      · exact (nodup.2.2 c before).1 rfl
      · exact nodup.2.1.1 after
  · by_cases own : c = b
    · subst own
      rw [here,there]
      rfl
    · rw [read_congr (kept c other own)]

end Link

variable {s t : Pages} {calls : List Arrival}

theorem InOrder.put (listed : InOrder s i calls) (free : s.heap a = none)
    (chain : Chain (nextOf k) info.headerPages (order (calls++[(page,a)])))
    (bosEnd : info.bosEnd = if page.bos then .next a else (s.infos i).bosEnd)
    (tail : info.headerPagesTail = (order (calls++[(page,a)])).getLast?)
    (new : (read k a).map (·.bytes) = some page.bytes)
    (same : ∀ c, c ≠ a → (read k c).map (·.bytes) = (read s.heap c).map (·.bytes)) :
    InOrder ({s with heap := k,made := s.made+1}.setInfo i info) i (calls++[(page,a)]) := by
  have own : ({s with heap := k,made := s.made+1}.setInfo i info).infos i = info := if_pos rfl
  refine ⟨?_,?_,?_,fun c member => ?_⟩
  · rw [own]
    exact chain
  · rw [own,bosEnd,bosPages_snoc]
    cases page.bos with
    | true => simp
    | false => exact listed.bosEnd
  · rw [own]
    exact tail
  · rcases List.mem_append.mp member with before | last
    · have here := listed.bytes c before
      have other : c.2 ≠ a := by
        intro spot
        rw [spot,read_none.mpr free] at here
        cases here
      exact (same c.2 other).trans here
    · cases List.mem_singleton.mp last
      exact new

-- A call of format_ogg_attach_header is done, with its page in its place.
def Attaches (s : Pages) (i : Nat) (calls : List Arrival) (page : OggPage) (a : Nat) : Prop :=
  ∃ k info, attachHeader s i page a = some ({s with heap := k,made := s.made+1}.setInfo i info) ∧
    InOrder ({s with heap := k,made := s.made+1}.setInfo i info) i (calls++[(page,a)]) ∧ ∀ b, b ≠ a →
      b ∉ order calls → k b = s.heap b

theorem InOrder.attach_bos (listed : InOrder s i calls) {page : OggPage} (bos : page.bos = true)
    (free : s.heap a = none) :
    Attaches s i calls page a := by
  have head := listed.chain.head
  have placed := order_bos calls a bos
  cases last : (bosPages calls).getLast? with
  | none =>
    have empty := List.getLast?_eq_none_iff.mp last
    have first : (s.infos i).bosEnd = .headerPages := by rw [listed.bosEnd,last]; rfl
    have same : order calls = otherPages calls := by rw [order,empty,List.nil_append]
    refine ⟨alloc s.heap a (link (s.infos i).headerPages ⟨page.bytes,none,s.made⟩),_,
      by rw [attachHeader,if_pos bos,first]
      ,listed.put free ?_ (if_pos bos).symm ?_ ?_ ?_,fun b other _ => assign_other other⟩
    · rw [placed,empty,List.nil_append,←same]
      exact link_front page.bytes s.made listed.chain free
    · rw [placed,empty,List.nil_append,←same,head,listed.tail]
      cases order calls <;> simp [List.getLast?_cons]
    · rw [read_alloc]
      rfl
    · exact fun c other => congrArg _ (read_congr (assign_other other))
  | some b =>
    obtain ⟨front,split⟩ := List.getLast?_eq_some_iff.mp last
    have spot : (s.infos i).bosEnd = .next b := by rw [listed.bosEnd,last]; rfl
    have whole : order calls = front++b::otherPages calls := by simp [order,split]
    have chain := listed.chain
    rw [whole] at chain
    obtain ⟨old,there,linked⟩ := Option.map_eq_some_iff.mp chain.next_eq
    obtain ⟨k,done,longer,new,same,kept⟩ := link_behind page.bytes s.made chain free
    have shape : order (calls++[(page,a)]) = front++b::a::otherPages calls := by rw [placed,split]; simp
    refine ⟨k,⟨(s.infos i).headerPages,if old.next.isNone then some a else (s.infos i).headerPagesTail,.next a⟩,?_
      ,listed.put free (shape ▸ longer) (if_pos bos).symm ?_ new same,fun c other unlisted => kept c other ?_⟩
    · rw [attachHeader,if_pos bos,spot]
      dsimp only
      rw [there,Option.bind_some,linked]
      exact congrArg (Option.map _) done
    · rw [shape,linked,listed.tail,whole]
      cases otherPages calls <;> simp [List.getLast?_append,List.getLast?_cons]
    · rintro rfl
      exact unlisted (by simp [whole])

theorem InOrder.attach_other (listed : InOrder s i calls) {page : OggPage} (bos : page.bos = false)
    (free : s.heap a = none) :
    Attaches s i calls page a := by
  have head := listed.chain.head
  have notBos : ¬page.bos = true := by simp [bos]
  have placed := order_other calls a bos
  have ends : (if page.bos then BosEnd.next a else (s.infos i).bosEnd) = (s.infos i).bosEnd := if_neg notBos
  cases last : (order calls).getLast? with
  | none =>
    have empty := List.getLast?_eq_none_iff.mp last
    have absent : (s.infos i).headerPages = none := by rw [head,empty]; rfl
    refine ⟨_,⟨some a,some a,(s.infos i).bosEnd⟩,?_,
      listed.put (k := alloc s.heap a ⟨page.bytes,none,s.made⟩) free ?_ ends.symm ?_ ?_ ?_
      ,fun b other _ => assign_other other⟩
    · rw [attachHeader,if_neg notBos,listed.tail,last,absent]
      rfl
    · have alone := link_front page.bytes s.made listed.chain free
      rw [absent,empty] at alone
      rw [placed,empty]
      exact alone
    · rw [placed,empty]
      rfl
    · rw [read_alloc]
      rfl
    · exact fun c other => congrArg _ (read_congr (assign_other other))
  | some b =>
    obtain ⟨front,split⟩ := List.getLast?_eq_some_iff.mp last
    have chain := listed.chain
    rw [split] at chain
    obtain ⟨k,done,longer,new,same,kept⟩ := link_behind page.bytes s.made chain free
    have shape : order (calls++[(page,a)]) = front++[b,a] := by rw [placed,split]; simp
    have nonempty : (s.infos i).headerPages.isNone = false := by
      rw [head,split]
      cases front <;> rfl
    refine ⟨k,⟨(s.infos i).headerPages,some a,(s.infos i).bosEnd⟩,?_,
      listed.put free (shape ▸ longer) ends.symm ?_ new same
      ,fun c other unlisted => kept c other ?_⟩
    · rw [attachHeader,if_neg notBos,listed.tail,last,nonempty]
      exact congrArg (Option.map _) done
    · rw [shape]
      simp [List.getLast?_append]
    · rintro rfl
      exact unlisted (by simp [split])

theorem InOrder.attach (listed : InOrder s i calls) (page : OggPage) (free : s.heap a = none) :
    Attaches s i calls page a := by
  cases bos : page.bos with
  | true => exact listed.attach_bos bos free
  | false => exact listed.attach_other bos free

theorem InOrder.attach_all (listed : InOrder s i calls) (more : List Arrival) (free : ∀ c ∈ more, s.heap c.2 = none)
    (apart : (more.map (·.2)).Nodup) :
    ∃ u, runFrom Pages.next s (more.map fun c => .attach i c.1 c.2) = some u ∧ InOrder u i (calls++more) := by
  induction more generalizing s calls with
  | nil => exact ⟨s,rfl,by rwa [List.append_nil]⟩
  | cons c more ih =>
    obtain ⟨fresh,apart⟩ := List.nodup_cons.mp apart
    have here := free c List.mem_cons_self
    obtain ⟨k,info,done,next,kept⟩ := listed.attach c.1 here
    have still : ∀ e ∈ more, k e.2 = none := by
      intro e member
      have unused := free e (List.mem_cons_of_mem _ member)
      have other : e.2 ≠ c.2 := fun same => fresh (List.mem_map.mpr ⟨e,member,same⟩)
      rw [kept e.2 other (fun old => chain_apart listed.chain unused old)]
      exact unused
    obtain ⟨u,ran,all⟩ := ih next still apart
    refine ⟨u,?_,?_⟩
    · have step : s.next (.attach i c.1 c.2) = some ({s with heap := k,made := s.made+1}.setInfo i info) :=
        (if_pos (Option.isNone_iff_eq_none.mpr here)).trans done
      rw [List.map_cons,runFrom,step]
      exact ran
    · rw [List.append_assoc] at all
      exact all

theorem freed_in_order (freed : freeHeaders s i = some t) : InOrder t i [] := by
  obtain ⟨h,_,rfl⟩ := Option.map_eq_some_iff.mp freed
  have own : ({s with heap := h}.setInfo i .blank).infos i = .blank := if_pos rfl
  exact ⟨by rw [own]; exact .nil,by rw [own]; rfl,by rw [own]; rfl,fun c member => nomatch member⟩

theorem map_bytes {h : Heap HeaderPage} (bytes : ∀ c ∈ calls, (read h c.2).map (·.bytes) = some c.1.bytes) :
    pagesOf h (calls.map (·.2)) = calls.map (·.1.bytes) := by
  rw [pagesOf,List.map_map]
  refine List.map_congr_left fun c member => ?_
  rw [Function.comp,bytes c member]
  rfl

theorem InOrder.pages (listed : InOrder s i calls) : pagesOf s.heap (order calls) =
    (calls.filter (·.1.bos)).map (·.1.bytes)++(calls.filter (!·.1.bos)).map (·.1.bytes) := by
  have within : ∀ p, ∀ c ∈ calls.filter p, (read s.heap c.2).map (·.bytes) = some c.1.bytes := fun p c member =>
    listed.bytes c (List.mem_filter.mp member).1
  rw [pagesOf,order,List.map_append]
  exact congrArg₂ _ (map_bytes (within _)) (map_bytes (within _))

-- The pages attached since the list was freed: the BOS pages as they came, then the others as they
-- came, each once, and both pointers where they belong.
theorem header_order (freed : freeHeaders s i = some t) (calls : List Arrival) (free : ∀ c ∈ calls, t.heap c.2 = none)
    (apart : (calls.map (·.2)).Nodup) :
    ∃ u, runFrom Pages.next t (calls.map fun c => .attach i c.1 c.2) = some u ∧
    InOrder u i calls ∧ (order calls).Nodup ∧
      pagesOf u.heap (order calls) = (calls.filter (·.1.bos)).map
      (·.1.bytes)++(calls.filter (!·.1.bos)).map (·.1.bytes) := by
  obtain ⟨u,ran,listed⟩ := (freed_in_order freed).attach_all calls free apart
  exact ⟨u,ran,listed,listed.chain.nodup,listed.pages⟩

-- A header page, two BOS pages and one more header page, on a list that was freed with a page on it.
def mixed : List Arrival := [(laterPage,1),(bosPage,2),(⟨true,[3],by decide⟩,3),(⟨false,[4],by decide⟩,4)]

theorem header_order_mixed : ∃ s t u : Pages, (s.infos 0).headerPages = some 0 ∧
    runFrom Pages.next t (mixed.map fun c => .attach 0 c.1 c.2) = some u ∧ InOrder u 0 mixed ∧ (order mixed).Nodup ∧
      pagesOf u.heap (order mixed) = (mixed.filter (·.1.bos)).map
      (·.1.bytes)++(mixed.filter (!·.1.bos)).map (·.1.bytes) := by
  obtain ⟨s,ran,on⟩ := Option.map_eq_some_iff.mp
    (show (Pages.initial.next (.attach 0 bosPage 0)).map (fun s => (s.infos 0).headerPages) =
      some (some 0) by decide +kernel)
  have fine : ((Pages.initial.next (.attach 0 bosPage 0)).bind fun s => freeHeaders s 0).map
      (fun t => mixed.all fun c => (t.heap c.2).isNone) = some true := by decide +kernel
  rw [ran,Option.bind_some] at fine
  obtain ⟨t,freed,all⟩ := Option.map_eq_some_iff.mp fine
  obtain ⟨u,whole⟩ := header_order freed mixed
    (fun c member => Option.isNone_iff_eq_none.mp (List.all_eq_true.mp all c member))
    (by decide)
  exact ⟨s,t,u,on,whole⟩

section Sources

-- The pages of source `i` since its list was freed, in a run of all sources.
def arrive (i : Nat) (calls : List Arrival) : PageEvent → List Arrival
  | .attach j page a => if i = j then calls++[(page,a)] else calls
  | .freeHeaders j => if i = j then [] else calls
  | .complete _ _ | .release _ => calls

def arrived (i : Nat) (events : List PageEvent) : List Arrival := events.foldl (arrive i) []

theorem arrived_snoc (i : Nat) (events : List PageEvent) (event : PageEvent) :
    arrived i (events++[event]) = arrive i (arrived i events) event := by
  rw [arrived,List.foldl_append]
  rfl

variable {calls : Nat → List Arrival} {lists : Nat → List Nat}

theorem InOrder.congr {calls : List Arrival} (listed : InOrder s i calls) (info : t.infos i = s.infos i)
    (reads : ∀ a ∈ order calls, read t.heap a = read s.heap a) : InOrder t i calls := by
  refine ⟨?_,info ▸ listed.bosEnd,info ▸ listed.tail,fun c member => ?_⟩
  · rw [info]
    exact listed.chain.congr fun a member => nextOf_congr (reads a member)
  · rw [reads c.2 (mem_order.mpr ⟨c,member,rfl⟩)]
    exact listed.bytes c member

theorem attach_in_order (inv : s.Inv lists) (listed : ∀ j, InOrder s j (calls j)) (free : s.heap a = none)
    (step : attachHeader s i page a = some t) (j : Nat) : InOrder t j (arrive j (calls j) (.attach i page a)) := by
  obtain ⟨k,info,done,next,kept⟩ := (listed i).attach page free
  cases Option.some.inj (done.symm.trans step)
  unfold arrive
  dsimp only
  by_cases own : j = i
  · subst own
    rw [if_pos rfl]
    exact next
  · rw [if_neg own]
    refine (listed j).congr (if_neg own) fun b member => read_congr (kept b ?_ fun other => own ?_)
    · exact fun same => chain_apart (listed j).chain free (same ▸ member)
    · rw [(listed j).chain.unique (inv.chain j)] at member
      rw [(listed i).chain.unique (inv.chain i)] at other
      exact inv.disjoint j i b member other

theorem step_in_order (inv : s.Inv lists) (listed : ∀ j, InOrder s j (calls j)) (one : s.step event t) (j : Nat) :
    InOrder t j (arrive j (calls j) event) := by
  have enabled := Pages.step_enabled one
  have same : order (calls j) = lists j := (listed j).chain.unique (inv.chain j)
  cases event with
  | attach i page a => exact attach_in_order inv listed (Option.isNone_iff_eq_none.mp enabled) ((if_pos enabled).symm.trans one) j
  | freeHeaders i =>
    obtain ⟨u,done,_,infos,reads⟩ := freeHeaders_inv inv i
    cases Option.some.inj (((if_pos enabled).trans done).symm.trans one)
    unfold arrive
    dsimp only
    by_cases own : j = i
    · subst own
      rw [if_pos rfl]
      exact freed_in_order done
    · rw [if_neg own]
      exact (listed j).congr (by rw [infos]; exact if_neg own) (same ▸ reads j own)
  | complete i bytes =>
    obtain ⟨u,done,_,infos,reads⟩ := complete_inv inv i bytes
    cases Option.some.inj (((if_pos enabled).trans done).symm.trans one)
    exact (listed j).congr (by rw [infos]) fun a _ => reads a
  | release d =>
    obtain ⟨u,done,_,_,infos,reads⟩ := release_inv inv (of_decide_eq_true enabled)
    cases Option.some.inj (((if_pos enabled).trans done).symm.trans one)
    exact (listed j).congr (by rw [infos]) (same ▸ reads j)

theorem runs_in_order (path : Runs Pages.apartStep Pages.initial events s) : ∀ i, InOrder s i (arrived i events) := by
  obtain ⟨_,listed⟩ : (∃ lists, s.Inv lists) ∧ ∀ i, InOrder s i (arrived i events) := by
    induction path with
    | nil => exact ⟨⟨_,Pages.initial_inv⟩,fun i => ⟨.nil,rfl,rfl,fun c member => nomatch member⟩⟩
    | snoc _ one ih =>
      obtain ⟨⟨lists,inv⟩,listed⟩ := ih
      refine ⟨Pages.apartStep_inv inv one,fun i => ?_⟩
      rw [arrived_snoc]
      exact step_in_order inv listed one.2 i
  exact listed

end Sources

end Icecast.Ogg
