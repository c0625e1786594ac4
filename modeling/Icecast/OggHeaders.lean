import Icecast.Lib.Transition
import Icecast.Lib.RefHeap
import Icecast.Lib.Linked

namespace Icecast.Ogg
open RefHeap Linked

-- What the plugin copies of an ogg_page; its header alone is 27 bytes.
structure OggPage where
  bos : Bool
  bytes : List UInt8
  header : bytes ≠ []
deriving DecidableEq,Repr

-- The refbuf of a header page without its _count. `serial` only records which page it is.
structure HeaderPage where
  bytes : List UInt8
  next : Option Nat
  serial : Nat
deriving DecidableEq,Repr

-- Where bos_end points: at header_pages, or at the next of a page.
inductive BosEnd where
  | headerPages
  | next (a : Nat)
deriving DecidableEq,Repr

-- The fields of ogg_state_t for the header pages.
structure OggInfo where
  headerPages : Option Nat
  headerPagesTail : Option Nat
  bosEnd : BosEnd
deriving DecidableEq,Repr

def OggInfo.blank : OggInfo := ⟨none,none,.headerPages⟩

-- A data refbuf of a source after complete_buffer. `took`, `chain` and `headers` only
-- record the header pages it referenced: their addresses, which page the first one is
-- (its address and its serial), their bytes.
structure DataBuf where
  id : Nat
  source : Nat
  bytes : List UInt8
  associated : Option Nat
  took : List Nat
  chain : Option (Nat × Nat)
  headers : List (List UInt8)
deriving DecidableEq,Repr

-- The header pages of all ogg sources and the data refbufs that are not released yet.
structure Pages where
  heap : Heap HeaderPage
  made : Nat
  infos : Nat → OggInfo
  live : List DataBuf
  completed : Nat

def Pages.initial : Pages := ⟨RefHeap.empty,0,fun _ => .blank,[],0⟩

def Pages.setInfo (s : Pages) (i : Nat) (info : OggInfo) :
    Pages := {s with infos := fun j => if j = i then info else s.infos j}

def link (a : Option Nat) (page : HeaderPage) : HeaderPage := {page with next := a}

-- The operations on the pages are none when they touch a page that is freed.
-- format_ogg_attach_header, with the address malloc returns.
def attachHeader (s : Pages) (i : Nat) (page : OggPage) (a : Nat) : Option Pages :=
  let info := s.infos i
  let refbuf : HeaderPage := ⟨page.bytes,none,s.made⟩
  if page.bos then
    match info.bosEnd with
    | .headerPages =>
      some ({s with heap := alloc s.heap a (link info.headerPages refbuf),made := s.made+1}.setInfo i
        ⟨some a,if info.headerPages.isNone then some a else info.headerPagesTail,.next a⟩)
    | .next b =>
      (read s.heap b).bind fun last =>
      (modify (alloc s.heap a (link last.next refbuf)) b (link (some a))).map fun h =>
        {s with heap := h,made := s.made+1}.setInfo i
          ⟨info.headerPages,if last.next.isNone then some a else info.headerPagesTail,.next a⟩
  else
    (match info.headerPagesTail with
      | some tail => modify (alloc s.heap a refbuf) tail (link (some a))
      | none => some (alloc s.heap a refbuf)).map fun h =>
    {s with heap := h,made := s.made+1}.setInfo i
      ⟨if info.headerPages.isNone then some a else info.headerPages,some a,info.bosEnd⟩

-- A walk along next that drops a reference to every page. It takes as fuel more than the
-- number of pages there are.
def releaseWalk (drop : Heap HeaderPage → Nat → Option (Heap HeaderPage)) : Nat → Heap HeaderPage → Option Nat →
    Option (Heap HeaderPage)
  | _,h,none => some h
  | 0,_,some _ => none
  | fuel+1,h,some a => (h a).bind fun header => (drop h a).bind fun h => releaseWalk drop fuel h header.item.next

-- The loop of format_ogg_free_headers.
def releasePages : Nat → Heap HeaderPage → Option Nat → Option (Heap HeaderPage) := releaseWalk release

def freeHeaders (s : Pages) (i : Nat) : Option Pages :=
  (releasePages (s.made+1) s.heap (s.infos i).headerPages).map fun h => {s with heap := h}.setInfo i .blank

-- The loop of complete_buffer, with the pages it referenced.
def addrefPages : Nat → Heap HeaderPage → Option Nat → Option (Heap HeaderPage × List Nat)
  | _,h,none => some (h,[])
  | 0,_,some _ => none
  | fuel+1,h,some a =>
    (h a).bind fun header => (addref h a).bind fun h => (addrefPages fuel h header.item.next).map fun
      (h,took) => (h,a::took)

def pagesOf (h : Heap HeaderPage) (pages : List Nat) : List (List UInt8) :=
  pages.map fun a => ((read h a).map (·.bytes)).getD []

def completeBuffer (s : Pages) (i : Nat) (bytes : List UInt8) : Option Pages :=
  let header := (s.infos i).headerPages
  (addrefPages (s.made+1) s.heap header).map fun (h,took) =>
    {s with
      heap := h,completed := s.completed+1
      live := s.live++[⟨s.completed,i,bytes,header,took,header.bind fun a => (read s.heap a).map ((a,·.serial)),
        pagesOf s.heap took⟩]}

-- refbuf_release_associated: a page that goes is unlinked first.
def unlinkRelease (h : Heap HeaderPage) (a : Nat) : Option (Heap HeaderPage) :=
  (h a).bind fun toGo => (if toGo.count = 1 then modify h a (link none) else some h).bind (release · a)

def releaseAssociated : Nat → Heap HeaderPage → Option Nat → Option (Heap HeaderPage) := releaseWalk unlinkRelease

-- The last refbuf_release of a data refbuf.
def releaseData (s : Pages) (d : DataBuf) : Option Pages :=
  (releaseAssociated (s.made+1) s.heap d.associated).map fun h => {s with heap := h,live := s.live.erase d}

inductive PageEvent where
  | attach (i : Nat) (page : OggPage) (a : Nat)
  | freeHeaders (i : Nat)
  | complete (i : Nat) (bytes : List UInt8)
  | release (d : DataBuf)

def PageEvent.enabled (s : Pages) : PageEvent → Bool
  | .attach _ _ a => (s.heap a).isNone
  | .release d => d ∈ s.live
  | _ => true

def Pages.next (s : Pages) (event : PageEvent) : Option Pages :=
  if event.enabled s then
    match event with
    | .attach i page a => attachHeader s i page a
    | .freeHeaders i => Ogg.freeHeaders s i
    | .complete i bytes => completeBuffer s i bytes
    | .release d => releaseData s d
  else none

def Pages.step (s : Pages) (event : PageEvent) (t : Pages) : Prop := s.next event = some t

-- The page a new one is linked behind.
def behind (s : Pages) (i : Nat) (page : OggPage) : Option Nat :=
  if page.bos then match (s.infos i).bosEnd with | .headerPages => none | .next b => some b
  else (s.infos i).headerPagesTail

-- No live data refbuf holds the page that a new one is linked behind.
def Apart (s : Pages) : PageEvent → Prop
  | .attach i page _ => ∀ b ∈ behind s i page, ∀ d ∈ s.live, b ∉ d.took
  | _ => True

instance : Decidable (Apart s event) :=
  match event with
  | .attach i page _ => inferInstanceAs (Decidable (∀ b ∈ behind s i page, ∀ d ∈ s.live, b ∉ d.took))
  | .freeHeaders _ | .complete _ _ | .release _ => .isTrue trivial

def Pages.apartStep (s : Pages) (event : PageEvent) (t : Pages) : Prop := Apart s event ∧ s.step event t

def Pages.apartNext (s : Pages) (event : PageEvent) : Option Pages := if Apart s event then s.next event else none

def nextOf (h : Heap HeaderPage) (a : Nat) : Option (Option Nat) := (read h a).map (·.next)

open Classical in
-- The references to a page: that of the list it is on, and those of the data refbufs.
noncomputable def Pages.owed (s : Pages) (lists : Nat → List Nat) (a : Nat) : Nat :=
  (if ∃ i, a ∈ lists i then 1 else 0)+(s.live.flatMap (·.took)).count a

-- What never changes in a header page.
def fixedAt (h : Heap HeaderPage) (a : Nat) : Option (List UInt8 × Nat) :=
  (read h a).map fun page => (page.bytes,page.serial)

theorem nextOf_eq (found : nextOf h a = some p) : ∃ c, h a = some c ∧ c.item.next = p := by
  obtain ⟨page,there,same⟩ := Option.map_eq_some_iff.mp found
  obtain ⟨c,cell,rfl⟩ := Option.map_eq_some_iff.mp there
  exact ⟨c,cell,same⟩

theorem nextOf_congr (same : read k a = read h a) : nextOf k a = nextOf h a := by rw [nextOf,nextOf,same]

theorem addrefPages_all (chain : Chain (nextOf h) p cells) (counted : Counted h owed) (owes : ∀ a ∈ cells, 0 < owed a)
    (enough : cells.length ≤ fuel) :
    ∃ k, addrefPages fuel h p = some (k,cells) ∧ Counted k (fun a => owed a+cells.count a) ∧
    ∀ a, read k a = read h a := by
  induction cells generalizing h owed fuel p with
  | nil =>
    cases chain
    cases fuel <;> exact ⟨h,rfl,counted.congr (by simp),fun _ => rfl⟩
  | cons a rest ih =>
    cases chain with
    | cons here later =>
      obtain ⟨c,cell,rfl⟩ := nextOf_eq here
      obtain ⟨k,one,counted,same⟩ := counted.addref (owes a List.mem_cons_self)
      obtain ⟨fuel,rfl⟩ : ∃ less, fuel = less+1 := ⟨fuel-1,by simp at enough; omega⟩
      obtain ⟨m,all,counted,kept⟩ := ih (later.congr fun b _ => nextOf_congr (same b)) counted
        (fun b member => by have := owes b (List.mem_cons_of_mem _ member); omega) (by simpa using enough)
      refine ⟨m,?_,counted.congr fun b => ?_,fun b => (kept b).trans (same b)⟩
      · simp [addrefPages,cell,one,all]
      · simp [List.count_cons]
        omega

-- Dropping one reference to a page: the pages that stay are as they were.
def Drops (drop : Heap HeaderPage → Nat → Option (Heap HeaderPage)) : Prop :=
  ∀ h owed a, Counted h owed → 0 < owed a → ∃ k, drop h a = some k ∧ Counted k (fun b => owed b-[a].count b) ∧
    ∀ b, [a].count b < owed b → read k b = read h b

theorem release_drops : Drops release := fun _ _ _ counted owes => counted.release owes

theorem unlinkRelease_drops : Drops unlinkRelease := by
  intro h owed a counted owes
  obtain ⟨c,cell,counts⟩ := counted.alive owes
  by_cases last : c.count = 1
  · obtain ⟨k,linked,counted,_,others⟩ := counted.modify (f := link none) owes
    obtain ⟨m,released,counted,kept⟩ := counted.release owes
    refine ⟨m,by simp [unlinkRelease,cell,last,linked,released],counted,fun b more => ?_⟩
    have other : b ≠ a := by
      rintro rfl
      simp at more
      omega
    exact (kept b more).trans (others b other)
  · obtain ⟨m,released,counted,kept⟩ := counted.release owes
    exact ⟨m,by simp [unlinkRelease,cell,last,released],counted,kept⟩

theorem releaseWalk_all (drops : Drops drop) (chain : Chain (nextOf h) p cells) (counted : Counted h owed)
    (owes : ∀ a ∈ cells, 0 < owed a) (enough : cells.length ≤ fuel) :
    ∃ k, releaseWalk drop fuel h p = some k ∧ Counted k (fun a => owed a-cells.count a) ∧
      ∀ a, cells.count a < owed a → read k a = read h a := by
  have nodup := chain.nodup
  induction cells generalizing h owed fuel p with
  | nil =>
    cases chain
    cases fuel <;> exact ⟨h,rfl,counted.congr (by simp),fun _ _ => rfl⟩
  | cons a rest ih =>
    cases chain with
    | cons here later =>
      obtain ⟨fresh,nodup⟩ := List.nodup_cons.mp nodup
      obtain ⟨c,cell,rfl⟩ := nextOf_eq here
      obtain ⟨k,one,counted,same⟩ := drops h owed a counted (owes a List.mem_cons_self)
      obtain ⟨fuel,rfl⟩ : ∃ less, fuel = less+1 := ⟨fuel-1,by simp at enough; omega⟩
      have untouched : ∀ b ∈ rest, [a].count b < owed b := fun b member => by
        have other : b ≠ a := fun same => fresh (same ▸ member)
        simpa [count_single other] using owes b (List.mem_cons_of_mem _ member)
      obtain ⟨m,all,counted,kept⟩ := ih (later.congr fun b member => nextOf_congr (same b (untouched b member))) counted
        (fun b member => by have := untouched b member; omega) (by simpa using enough) nodup
      refine ⟨m,?_,counted.congr fun b => ?_,fun b more => ?_⟩
      · simp [releaseWalk,cell,one,all]
      · simp [List.count_cons]
        omega
      · have split : (a::rest).count b = [a].count b+rest.count b := by
          simp [List.count_cons]
          omega
        exact (kept b (by omega)).trans (same b (by omega))

-- `lists` are the header pages on the lists of the sources, in list order.
structure Pages.Inv (s : Pages) (lists : Nat → List Nat) : Prop where
  chain : ∀ i, Chain (nextOf s.heap) (s.infos i).headerPages (lists i)
  tail : ∀ i, (s.infos i).headerPagesTail = (lists i).getLast?
  bosEnd : ∀ i b, (s.infos i).bosEnd = .next b → b ∈ lists i
  disjoint : ∀ i j a, a ∈ lists i → a ∈ lists j → i = j
  took : ∀ d ∈ s.live, Chain (nextOf s.heap) d.associated d.took
  recorded : ∀ d ∈ s.live, d.headers = pagesOf s.heap d.took ∧
    d.chain = d.associated.bind fun a => (fixedAt s.heap a).map ((a,·.2))
  serials : ∀ a b x y n, fixedAt s.heap a = some (x,n) → fixedAt s.heap b = some (y,n) → a = b
  counted : Counted s.heap (s.owed lists)
  within : Within s.heap s.made
  made : ∀ a x n, fixedAt s.heap a = some (x,n) → n < s.made ∧ x ≠ []

variable {s t : Pages} {lists : Nat → List Nat}

theorem Pages.Inv.listed_owed (_ : s.Inv lists) (member : a ∈ lists i) : 0 < s.owed lists a := by
  have listed : ∃ i, a ∈ lists i := ⟨i,member⟩
  simp only [Pages.owed,if_pos listed]
  omega

theorem Pages.Inv.took_owed (_ : s.Inv lists) (member : d ∈ s.live) (held : a ∈ d.took) : 0 < s.owed lists a := by
  have : a ∈ s.live.flatMap (·.took) := List.mem_flatMap.mpr ⟨d,member,held⟩
  have := List.count_pos_iff.mpr this
  unfold Pages.owed
  omega

theorem owed_congr (live : t.live = s.live) (listed : (∃ i, a ∈ other i) ↔ ∃ i, a ∈ lists i) :
    t.owed other a = s.owed lists a := by
  unfold Pages.owed
  rw [live,propext listed]

theorem pagesOf_congr (same : ∀ a ∈ cells, fixedAt k a = fixedAt h a) : pagesOf k cells = pagesOf h cells := by
  induction cells with
  | nil => rfl
  | cons a rest ih =>
    have here := congrArg (Option.map Prod.fst) (same a List.mem_cons_self)
    simp only [fixedAt,Option.map_map] at here
    have rest := ih fun b member => same b (List.mem_cons_of_mem _ member)
    simp only [pagesOf,List.map_cons] at rest ⊢
    exact congrArg₂ _ (congrArg (Option.getD · []) here) rest

theorem fixedAt_congr (same : read k a = read h a) : fixedAt k a = fixedAt h a := by rw [fixedAt,fixedAt,same]

theorem Pages.Inv.recorded_congr (inv : s.Inv lists) (member : d ∈ s.live)
    (same : ∀ a ∈ d.took, fixedAt k a = fixedAt s.heap a) :
    d.headers = pagesOf k d.took ∧ d.chain = d.associated.bind fun a => (fixedAt k a).map ((a,·.2)) := by
  obtain ⟨headers,chain⟩ := inv.recorded d member
  refine ⟨headers.trans (pagesOf_congr same).symm,chain.trans ?_⟩
  cases head : d.associated with
  | none => rfl
  | some a =>
    have first := (inv.took d member).head
    have : a ∈ d.took := List.mem_of_head? (first.symm.trans head)
    simp [same a this]

theorem Pages.Inv.behind_mem (inv : s.Inv lists) (linked : behind s i page = some b) : b ∈ lists i := by
  unfold behind at linked
  split at linked
  · split at linked
    · cases linked
    · cases linked
      exact inv.bosEnd i _ ‹_›
  · exact List.mem_of_getLast? ((inv.tail i).symm.trans linked)

theorem Pages.initial_inv : Pages.initial.Inv fun _ => [] where
  chain := fun _ => .nil
  tail := fun _ => rfl
  bosEnd := fun _ _ linked => nomatch linked
  disjoint := nofun
  took := nofun
  recorded := nofun
  serials := nofun
  counted := counted_empty.congr fun _ => by simp [Pages.owed,Pages.initial]
  within := within_empty
  made := nofun

-- What attaching a page to the list of source `i` does, wherever it is linked.
structure Attached (s : Pages) (lists : Nat → List Nat) (i : Nat) (page : OggPage) (a : Nat)
    (k : Heap HeaderPage) (info : OggInfo)
    (cells : List Nat) : Prop where
  counted : Counted k fun b => s.owed lists b+[a].count b
  chain : Chain (nextOf k) info.headerPages cells
  tail : info.headerPagesTail = cells.getLast?
  bosEnd : ∀ b, info.bosEnd = .next b → b ∈ cells
  members : ∀ b, b ∈ cells ↔ b = a ∨ b ∈ lists i
  added : fixedAt k a = some (page.bytes,s.made)
  fixed : ∀ b, b ≠ a → fixedAt k b = fixedAt s.heap b
  kept : ∀ b, b ≠ a → behind s i page ≠ some b → read k b = read s.heap b

theorem Attached.disjoint (new : Attached s lists i page a k info cells) (inv : s.Inv lists)
    (unlisted : ∀ j, a ∉ lists j) (j l b : Nat)
    (left : b ∈ Function.update lists i cells j) (right : b ∈ Function.update lists i cells l) : j = l := by
  have mem : ∀ j b, b ∈ Function.update lists i cells j → (j = i ∧ b = a) ∨ b ∈ lists j := fun j b member => by
    by_cases own : j = i
    · subst own
      rw [Function.update_self,new.members] at member
      exact member.imp (⟨rfl,·⟩) id
    · rw [Function.update_of_ne own] at member
      exact .inr member
  rcases mem j b left with ⟨first,new⟩ | left <;> rcases mem l b right with ⟨second,again⟩ | right
  · exact first.trans second.symm
  · exact absurd (new ▸ right) (unlisted l)
  · exact absurd (again ▸ left) (unlisted j)
  · exact inv.disjoint j l b left right

theorem Attached.serials (new : Attached s lists i page a k info cells) (inv : s.Inv lists) (b c : Nat)
    (x y : List UInt8) (n : Nat)
    (left : fixedAt k b = some (x,n)) (right : fixedAt k c = some (y,n)) : b = c := by
  have older : ∀ b x, b ≠ a → fixedAt k b = some (x,n) → n < s.made := fun b x other found =>
    (inv.made b x n ((new.fixed b other).symm.trans found)).1
  have newest : ∀ x, fixedAt k a = some (x,n) → n = s.made := fun x found =>
    congrArg Prod.snd (Option.some.inj (found.symm.trans new.added))
  by_cases first : b = a <;> by_cases second : c = a
  · rw [first,second]
  · have := older c y second right
    have := newest x (first ▸ left)
    omega
  · have := older b x first left
    have := newest y (second ▸ right)
    omega
  · exact inv.serials b c x y n ((new.fixed b first).symm.trans left) ((new.fixed c second).symm.trans right)

theorem Attached.made (new : Attached s lists i page a k info cells) (inv : s.Inv lists) (b : Nat)
    (x : List UInt8) (n : Nat)
    (found : fixedAt k b = some (x,n)) : n < s.made+1 ∧ x ≠ [] := by
  by_cases same : b = a
  · subst same
    have same := Option.some.inj (new.added.symm.trans found)
    cases same
    exact ⟨Nat.lt_succ_self _,page.header⟩
  · obtain ⟨older,nonempty⟩ := inv.made b x n ((new.fixed b same).symm.trans found)
    exact ⟨Nat.lt_succ_of_lt older,nonempty⟩

theorem Attached.owed (new : Attached s lists i page a k info cells) (unowed : s.owed lists a = 0) (b : Nat) :
    s.owed lists b+[a].count b = Pages.owed ({s with heap := k,made := s.made+1}.setInfo i info)
    (Function.update lists i cells) b := by
  by_cases same : b = a
  · subst same
    have listed : ∃ j, b ∈ Function.update lists i cells j := ⟨i,by simp [new.members]⟩
    rw [unowed,Pages.owed,if_pos listed]
    unfold Pages.owed at unowed
    change 0+[b].count b = 1+(s.live.flatMap (·.took)).count b
    simp
    omega
  · have listed : (∃ j, b ∈ Function.update lists i cells j) ↔ ∃ j, b ∈ lists j := by
      refine exists_congr fun j => ?_
      by_cases own : j = i
      · subst own
        simp [new.members,same]
      · simp [own]
    rw [count_single same,Nat.add_zero]
    exact (owed_congr (by rfl) listed).symm

theorem Attached.inv (new : Attached s lists i page a k info cells) (inv : s.Inv lists) (free : s.heap a = none)
    (apart : Apart s (.attach i page a)) :
    ({s with heap := k,made := s.made+1}.setInfo i info).Inv (Function.update lists i cells) := by
  have unowed := inv.counted.owed_zero free
  have unlisted : ∀ j, a ∉ lists j := fun j member => by
    have := inv.listed_owed member
    omega
  have untook : ∀ d ∈ s.live, a ∉ d.took := fun d member held => by
    have := inv.took_owed member held
    omega
  have others : ∀ d ∈ s.live, ∀ b ∈ d.took, read k b = read s.heap b := fun d member b held =>
    new.kept b (fun same => untook d member (same ▸ held)) fun linked => apart b linked d member held
  refine ⟨fun j => ?_,fun j => ?_,fun j b => ?_,new.disjoint inv unlisted,?_,?_,new.serials inv,
    new.counted.congr (new.owed unowed),?_,new.made inv⟩
  · by_cases own : j = i
    · subst own
      simpa [Pages.setInfo] using new.chain
    · simp only [Pages.setInfo,if_neg own,Function.update_of_ne own]
      refine (inv.chain j).congr fun b member => nextOf_congr (new.kept b ?_ ?_)
      · exact fun same => unlisted j (same ▸ member)
      · exact fun linked => own (inv.disjoint _ _ b member (inv.behind_mem linked))
  · by_cases own : j = i
    · subst own
      simpa [Pages.setInfo] using new.tail
    · simpa [Pages.setInfo,own] using inv.tail j
  · by_cases own : j = i
    · subst own
      simpa [Pages.setInfo] using new.bosEnd b
    · simpa [Pages.setInfo,own] using inv.bosEnd j b
  · exact fun d member => (inv.took d member).congr fun b held => nextOf_congr (others d member b held)
  · exact fun d member => inv.recorded_congr member fun b held => fixedAt_congr (others d member b held)
  · exact (inv.within.alloc (show HeaderPage from ⟨[],none,
      0⟩) (a := a)).counted ((inv.counted.alloc _ free).1) new.counted fun _ owes => owes

theorem fixedAt_link (h : Heap HeaderPage) (same : read k b = (read h b).map (link p)) : fixedAt k b = fixedAt h b := by
  rw [fixedAt,same,fixedAt,Option.map_map]
  rfl

theorem nextOf_link (same : read k b = (read h b).map (link p)) (there : read h b = some page) :
    nextOf k b = some p := by
  rw [nextOf,same,there]
  rfl

theorem attached_head (page : OggPage) (info : OggInfo) (inv : s.Inv lists) (free : s.heap a = none)
    (head : info.headerPages = some a)
    (tail : info.headerPagesTail = (a::lists i).getLast?) (bosEnd : ∀ c, info.bosEnd = .next c → c ∈ a::lists i) :
    Attached s lists i page a
    (alloc s.heap a (link (s.infos i).headerPages ⟨page.bytes,none,s.made⟩)) info (a::lists i) := by
  obtain ⟨counted,new,others⟩ := inv.counted.alloc (link (s.infos i).headerPages ⟨page.bytes,none,s.made⟩) free
  refine ⟨counted,head ▸ .cons (by rw [nextOf,new]; rfl) ?_,tail,bosEnd,?_,?_,?_,?_⟩
  · refine (inv.chain i).congr fun b member => nextOf_congr (others b ?_)
    rintro rfl
    have := inv.listed_owed member
    have := inv.counted.owed_zero free
    omega
  · simp
  · rw [fixedAt,new]
    rfl
  · exact fun b other => fixedAt_congr (others b other)
  · exact fun b other _ => others b other

theorem attach_behind (page : OggPage) (inv : s.Inv lists) (free : s.heap a = none) (split : lists i = front++b::back)
    (linked : behind s i page = some b) (last : nextOf s.heap b = some next) :
    ∃ k, modify (alloc s.heap a (link next ⟨page.bytes,none,s.made⟩)) b (link (some a)) = some k ∧
      ∀ info : OggInfo, info.headerPages = (s.infos i).headerPages →
      info.headerPagesTail = (front++b::a::back).getLast? →
        (∀ c, info.bosEnd = .next c → c ∈ front++b::a::back) →
        Attached s lists i page a k info (front++b::a::back) := by
  obtain ⟨allocated,new,others⟩ := inv.counted.alloc (link next ⟨page.bytes,none,s.made⟩) free
  have listed : b ∈ lists i := by simp [split]
  have owes := inv.listed_owed listed
  have unlisted : a ∉ lists i := fun member => by
    have := inv.listed_owed member
    have := inv.counted.owed_zero free
    omega
  have apart : b ≠ a := fun same => unlisted (same ▸ listed)
  obtain ⟨k,done,counted,here,elsewhere⟩ := allocated.modify (f := link (some a)) (a := b) (by omega)
  have kept : ∀ c, c ≠ a → c ≠ b → read k c = read s.heap c :=
    fun c new other => (elsewhere c other).trans (others c new)
  have here : read k b = (read s.heap b).map (link (some a)) := here.trans (by rw [others b apart])
  refine ⟨k,done,fun info head tail bosEnd => ⟨counted,?_,tail,bosEnd,?_,?_,?_,?_⟩⟩
  · have chain := inv.chain i
    have nodup := chain.nodup
    rw [split] at chain nodup unlisted
    obtain ⟨page',there,_⟩ := Option.map_eq_some_iff.mp last
    rw [head]
    refine chain.insert (nextOf_link here there) ?_ fun c member => nextOf_congr (kept c ?_ ?_)
    · rw [nextOf,elsewhere a (Ne.symm apart),new,last]
      rfl
    · rintro rfl
      exact unlisted (by simp at member ⊢; tauto)
    · rintro rfl
      simp [List.nodup_append] at nodup member
      rcases member with before | after
      · exact (nodup.2.2 c before).1 rfl
      · exact nodup.2.1.1 after
  · intro c
    rw [split]
    simp
    tauto
  · rw [fixedAt,elsewhere a (Ne.symm apart),new]
    rfl
  · intro c other
    by_cases same : c = b
    · subst same
      exact fixedAt_link s.heap here
    · exact fixedAt_congr (kept c other same)
  · intro c other notLinked
    exact kept c other fun same => notLinked (same ▸ linked)

theorem attach_front (page : OggPage) (inv : s.Inv lists) (free : s.heap a = none) (linked : behind s i page = none) :
    ∃ k info, attachHeader s i page a = some ({s with heap := k,made := s.made+1}.setInfo i info) ∧
      Attached s lists i page a k info (a::lists i) := by
  have head := (inv.chain i).head
  have ends := inv.tail i
  unfold behind at linked
  cases bos : page.bos with
  | true =>
    rw [if_pos bos] at linked
    have bosEnd : (s.infos i).bosEnd = .headerPages := by
      split at linked
      · assumption
      · cases linked
    refine ⟨_,_,by rw [attachHeader,if_pos bos,bosEnd],attached_head page _ inv free rfl ?_ fun c linked => ?_⟩
    · cases listed : lists i <;> simp_all [List.getLast?_cons]
    · cases linked
      exact List.mem_cons_self
  | false =>
    have notBos : ¬page.bos = true := by simp [bos]
    rw [if_neg notBos] at linked
    have empty : lists i = [] := List.getLast?_eq_none_iff.mp (ends.symm.trans linked)
    have absent : (s.infos i).headerPages = none := by simpa [empty] using head
    have attached := attached_head page ⟨some a,some a,(s.infos i).bosEnd⟩ inv free rfl
      (by simp [empty]) fun c linked =>
      List.mem_cons_of_mem _ (inv.bosEnd i c linked)
    refine ⟨_,_,?_,attached⟩
    rw [attachHeader,if_neg notBos,linked,absent]
    rfl

theorem attach_at (page : OggPage) (inv : s.Inv lists) (free : s.heap a = none) (linked : behind s i page = some b)
    (split : lists i = front++b::back) :
    ∃ k info, attachHeader s i page a = some ({s with heap := k,made := s.made+1}.setInfo i info) ∧
      Attached s lists i page a k info (front++b::a::back) := by
  have head := (inv.chain i).head
  have ends := inv.tail i
  have chain := inv.chain i
  rw [split] at chain ends
  obtain ⟨k,done,attached⟩ := attach_behind page inv free split linked chain.next_eq
  unfold behind at linked
  cases bos : page.bos with
  | true =>
    rw [if_pos bos] at linked
    have bosEnd : (s.infos i).bosEnd = .next b := by
      split at linked
      · cases linked
      · cases linked
        assumption
    obtain ⟨last,there,same⟩ := Option.map_eq_some_iff.mp chain.next_eq
    refine ⟨k,⟨(s.infos i).headerPages,if last.next.isNone then some a else (s.infos i).headerPagesTail,.next a⟩,?_
      ,attached _ rfl ?_ fun c linked => ?_⟩
    · rw [attachHeader,if_pos bos,bosEnd]
      dsimp only
      rw [there,Option.bind_some,same,done]
      rfl
    · rw [same]
      cases back with
      | nil => simp [List.getLast?_append]
      | cons c rest => simp [ends,List.getLast?_append,List.getLast?_cons]
    · cases linked
      simp
  | false =>
    have notBos : ¬page.bos = true := by simp [bos]
    rw [if_neg notBos] at linked
    -- nothing stands behind the last page
    have last : back = [] := by
      cases back with
      | nil => rfl
      | cons c rest =>
        have nodup := (List.nodup_append.mp chain.nodup).2.1
        have again : (c::rest).getLast? =
          some b := by simpa [List.getLast?_append,List.getLast?_cons] using ends.symm.trans linked
        exact absurd (List.mem_of_getLast? again) (List.nodup_cons.mp nodup).1
    subst last
    have nonempty : (s.infos i).headerPages.isNone = false := by
      rw [head,split]
      cases front <;> rfl
    refine ⟨k,_,?_,attached ⟨(s.infos i).headerPages,some a,(s.infos i).bosEnd⟩ rfl
      (by simp [List.getLast?_append]) fun c linked => ?_⟩
    · rw [attachHeader,if_neg notBos,linked,nonempty]
      change (modify (alloc s.heap a (link none ⟨page.bytes,none,s.made⟩)) b (link (some a))).map _ = _
      rw [List.head?_nil] at done
      rw [done]
      rfl
    · have := inv.bosEnd i c linked
      rw [split] at this
      simp at this ⊢
      tauto

theorem attach_attached (page : OggPage) (inv : s.Inv lists) (free : s.heap a = none) :
    ∃ k info cells, attachHeader s i page a = some ({s with heap := k,made := s.made+1}.setInfo i info) ∧
      Attached s lists i page a k info cells := by
  cases linked : behind s i page with
  | none =>
    obtain ⟨k,info,done,attached⟩ := attach_front page inv free linked
    exact ⟨k,info,_,done,attached⟩
  | some b =>
    obtain ⟨front,back,split⟩ := List.append_of_mem (inv.behind_mem linked)
    obtain ⟨k,info,done,attached⟩ := attach_at page inv free linked split
    exact ⟨k,info,_,done,attached⟩

theorem Pages.Inv.shrunk (inv : s.Inv lists) (counted : Counted t.heap other) (made : t.made = s.made)
    (kept : ∀ a, 0 < other a → 0 < s.owed lists a ∧ read t.heap a = read s.heap a) :
    (∀ a b x y n, fixedAt t.heap a = some (x,n) → fixedAt t.heap b = some (y,n) → a = b) ∧
    Within t.heap t.made ∧ ∀ a x n, fixedAt t.heap a = some (x,n) → n < t.made ∧ x ≠ [] := by
  have older : ∀ a x, fixedAt t.heap a = some x → fixedAt s.heap a = some x := fun a x found => by
    obtain ⟨page,there,_⟩ := Option.map_eq_some_iff.mp found
    rw [←fixedAt_congr (kept a (counted.unread there)).2,found]
  refine ⟨?_,made ▸ inv.within.counted inv.counted counted fun a owes => (kept a owes).1,?_⟩
  · exact fun a b x y n left right => inv.serials a b x y n (older a _ left) (older b _ right)
  · exact fun a x n found => made ▸ inv.made a x n (older a _ found)

theorem Pages.Inv.walk_fuel (inv : s.Inv lists) (chain : Chain (nextOf s.heap) p cells)
    (owes : ∀ a ∈ cells, 0 < s.owed lists a) : cells.length ≤ s.made+1 :=
  Nat.le_succ_of_le (inv.within.chain_length inv.counted chain.nodup owes)

theorem count_listed (inv : s.Inv lists) : (lists i).count a = if a ∈ lists i then 1 else 0 := by
  split
  · exact List.count_eq_one_of_mem (inv.chain i).nodup ‹_›
  · exact List.count_eq_zero.mpr ‹_›

theorem freeHeaders_inv (inv : s.Inv lists) (i : Nat) :
    ∃ t, freeHeaders s i = some t ∧ t.Inv (Function.update lists i []) ∧ t.infos = (s.setInfo i .blank).infos ∧
      ∀ j, j ≠ i → ∀ a ∈ lists j, read t.heap a = read s.heap a := by
  have owes : ∀ a ∈ lists i, 0 < s.owed lists a := fun a member => inv.listed_owed member
  obtain ⟨k,walked,counted,kept⟩ := releaseWalk_all release_drops (inv.chain i) inv.counted owes
    (inv.walk_fuel (inv.chain i) owes)
  have listed : ∀ a, (∃ j, a ∈ Function.update lists i [] j) ↔ ∃ j, j ≠ i ∧ a ∈ lists j := fun a => by
    refine exists_congr fun j => ?_
    by_cases own : j = i
    · subst own
      simp
    · simp [own]
  have owed : ∀ a, s.owed lists a-(lists i).count a = Pages.owed ({s with heap := k}.setInfo i .blank)
    (Function.update lists i []) a := by
    intro a
    rw [count_listed inv,Pages.owed,Pages.owed]
    change _ = _+(s.live.flatMap (·.took)).count a
    by_cases member : a ∈ lists i
    · have alone : ¬∃ j, a ∈ Function.update lists i [] j := by
        rw [listed]
        rintro ⟨j,other,again⟩
        exact other (inv.disjoint _ _ a again member)
      rw [if_pos member,if_neg alone,if_pos ⟨i,member⟩]
      omega
    · have same : (∃ j, a ∈ Function.update lists i [] j) ↔ ∃ j, a ∈ lists j := by
        rw [listed]
        exact ⟨fun ⟨j,_,there⟩ => ⟨j,there⟩,fun ⟨j,there⟩ => ⟨j,fun same => member (same ▸ there),there⟩⟩
      rw [if_neg member,propext same,Nat.sub_zero]
  have held : ∀ d ∈ s.live, ∀ a ∈ d.took, read k a = read s.heap a := fun d member a there => kept a (by
    have : a ∈ s.live.flatMap (·.took) := List.mem_flatMap.mpr ⟨d,member,there⟩
    have := List.count_pos_iff.mpr this
    rw [count_listed inv,Pages.owed]
    by_cases onList : a ∈ lists i
    · rw [if_pos onList,if_pos ⟨i,onList⟩]
      omega
    · rw [if_neg onList]
      omega)
  have stay : ∀ j, j ≠ i → ∀ a ∈ lists j, read k a = read s.heap a := fun j own a member => kept a (by
    have other : a ∉ lists i := fun again => own (inv.disjoint _ _ a member again)
    simpa [count_listed inv,other] using inv.listed_owed member)
  obtain ⟨serials,within,made⟩ := inv.shrunk (t := {s with heap := k}.setInfo i .blank) counted rfl fun a owes =>
    ⟨by omega,kept a (by omega)⟩
  refine ⟨{s with heap := k}.setInfo i .blank,by rw [freeHeaders,releasePages,walked]; rfl
    ,⟨fun j => ?_,fun j => ?_,fun j b => ?_,?_,?_,?_,serials,counted.congr owed,within,made⟩,rfl,stay⟩
  · by_cases own : j = i
    · subst own
      simpa [Pages.setInfo,OggInfo.blank] using .nil
    · simp only [Pages.setInfo,if_neg own,Function.update_of_ne own]
      exact (inv.chain j).congr fun a member => nextOf_congr (stay j own a member)
  · by_cases own : j = i
    · subst own
      simp [Pages.setInfo,OggInfo.blank]
    · simpa [Pages.setInfo,own] using inv.tail j
  · by_cases own : j = i
    · subst own
      simp [Pages.setInfo,OggInfo.blank]
    · simpa [Pages.setInfo,own] using inv.bosEnd j b
  · intro j l a left right
    by_cases first : j = i
    · subst first
      simp at left
    · by_cases second : l = i
      · subst second
        simp at right
      · simp only [Function.update_of_ne first,Function.update_of_ne second] at left right
        exact inv.disjoint j l a left right
  · exact fun d member => (inv.took d member).congr fun a there => nextOf_congr (held d member a there)
  · exact fun d member => inv.recorded_congr member fun a there => fixedAt_congr (held d member a there)

theorem complete_inv (inv : s.Inv lists) (i : Nat) (bytes : List UInt8) :
    ∃ t, completeBuffer s i bytes = some t ∧ t.Inv lists ∧ t.infos = s.infos ∧ ∀ a, read t.heap a = read s.heap a := by
  have owes : ∀ a ∈ lists i, 0 < s.owed lists a := fun a member => inv.listed_owed member
  obtain ⟨k,walked,counted,same⟩ := addrefPages_all (inv.chain i) inv.counted owes (inv.walk_fuel (inv.chain i) owes)
  have fixed : ∀ a, fixedAt k a = fixedAt s.heap a := fun a => fixedAt_congr (same a)
  have links : ∀ a, nextOf k a = nextOf s.heap a := fun a => nextOf_congr (same a)
  refine ⟨_,by rw [completeBuffer]; dsimp only; rw [walked]; rfl,?_⟩
  refine ⟨?_,rfl,same⟩
  refine ⟨fun j => (inv.chain j).congr fun a _ => links a,inv.tail,inv.bosEnd,inv.disjoint,?_,?_,?_,?_,?_,?_⟩
  · intro d member
    rcases List.mem_append.mp member with old | new
    · exact (inv.took d old).congr fun a _ => links a
    · cases List.mem_singleton.mp new
      exact (inv.chain i).congr fun a _ => links a
  · intro d member
    rcases List.mem_append.mp member with old | new
    · exact inv.recorded_congr old fun a _ => fixed a
    · cases List.mem_singleton.mp new
      refine ⟨(pagesOf_congr fun a _ => fixed a).symm,?_⟩
      simp only [fixed]
      cases (s.infos i).headerPages with
      | none => rfl
      | some a =>
        simp only [Option.bind_some,fixedAt,Option.map_map]
        rfl
  · simpa only [fixed] using inv.serials
  · refine counted.congr fun a => ?_
    simp [Pages.owed]
    omega
  · refine inv.within.counted inv.counted counted fun a owes => ?_
    by_cases member : a ∈ lists i
    · exact inv.listed_owed member
    · have := List.count_eq_zero.mpr member
      omega
  · simpa only [fixed] using inv.made

theorem count_erase_took {live : List DataBuf} (member : d ∈ live) :
    ((live.erase d).flatMap (·.took)).count a+d.took.count a = (live.flatMap (·.took)).count a := by
  have same := ((List.perm_cons_erase member).flatMap_right (·.took)).count_eq a
  simp only [List.flatMap_cons,List.count_append] at same
  omega

theorem release_inv (inv : s.Inv lists) (member : d ∈ s.live) :
    ∃ t, releaseData s d = some t ∧
    t.Inv lists ∧ (∀ a, count t.heap a+d.took.count a = count s.heap a) ∧ t.infos = s.infos ∧
      ∀ j, ∀ a ∈ lists j, read t.heap a = read s.heap a := by
  have owes : ∀ a ∈ d.took, 0 < s.owed lists a := fun a held => inv.took_owed member held
  obtain ⟨k,walked,counted,kept⟩ :=
    releaseWalk_all unlinkRelease_drops (inv.took d member) inv.counted owes (inv.walk_fuel (inv.took d member) owes)
  have split : ∀ a, Pages.owed {s with heap := k,live := s.live.erase d} lists a+d.took.count a =
    s.owed lists a := fun a => by
    have := count_erase_took (a := a) member
    simp only [Pages.owed]
    omega
  have counted : Counted k (Pages.owed {s with heap := k,live := s.live.erase d} lists) := counted.congr fun a => by
    have := split a
    omega
  have same : ∀ a, 0 < Pages.owed {s with heap := k,live := s.live.erase d} lists a →
    read k a = read s.heap a := fun a owes =>
    kept a (by have := split a; omega)
  have listed : ∀ j, ∀ a ∈ lists j, read k a = read s.heap a := fun j a there => same a (by
    have onList : ∃ j, a ∈ lists j := ⟨j,there⟩
    simp only [Pages.owed,if_pos onList]
    omega)
  have held : ∀ e ∈ s.live.erase d, ∀ a ∈ e.took, read k a = read s.heap a := fun e there a took => same a (by
    have : a ∈ (s.live.erase d).flatMap (·.took) := List.mem_flatMap.mpr ⟨e,there,took⟩
    have := List.count_pos_iff.mpr this
    simp only [Pages.owed]
    omega)
  obtain ⟨serials,within,made⟩ := inv.shrunk (t := {s with heap := k,live := s.live.erase d}) counted rfl fun a owes =>
    ⟨by have := split a; omega,same a owes⟩
  refine ⟨{s with heap := k,live := s.live.erase d},
    by rw [releaseData,releaseAssociated,walked]; rfl,⟨?_,inv.tail,inv.bosEnd,
    inv.disjoint,?_,?_,serials,counted,within,made⟩,?_,rfl,listed⟩
  · exact fun j => (inv.chain j).congr fun a there => nextOf_congr (listed j a there)
  · exact fun e there => (inv.took e (List.mem_of_mem_erase there)).congr fun a took =>
      nextOf_congr (held e there a took)
  · exact fun e there => inv.recorded_congr (List.mem_of_mem_erase there) fun a took =>
      fixedAt_congr (held e there a took)
  · intro a
    rw [counted.counts,inv.counted.counts]
    exact split a

theorem Pages.next_total (inv : s.Inv lists) (apart : Apart s event) (enabled : event.enabled s = true) :
    ∃ t other, s.step event t ∧ t.Inv other := by
  cases event with
  | attach i page a =>
    have free : s.heap a = none := Option.isNone_iff_eq_none.mp enabled
    obtain ⟨k,info,cells,done,attached⟩ := attach_attached page inv free
    exact ⟨_,_,(if_pos enabled).trans done,attached.inv inv free apart⟩
  | freeHeaders i =>
    obtain ⟨t,done,inv,_⟩ := freeHeaders_inv inv i
    exact ⟨t,_,(if_pos enabled).trans done,inv⟩
  | complete i bytes =>
    obtain ⟨t,done,inv,_⟩ := complete_inv inv i bytes
    exact ⟨t,_,(if_pos enabled).trans done,inv⟩
  | release d =>
    obtain ⟨t,done,inv,_⟩ := release_inv inv (of_decide_eq_true enabled)
    exact ⟨t,_,(if_pos enabled).trans done,inv⟩

theorem Pages.step_enabled (one : s.step event t) : event.enabled s = true := by
  by_contra off
  exact absurd ((if_neg off).symm.trans one) (by simp)

theorem Pages.apartStep_inv (inv : s.Inv lists) (one : s.apartStep event t) : ∃ other, t.Inv other := by
  obtain ⟨next,other,step,inv⟩ := Pages.next_total inv one.1 (Pages.step_enabled one.2)
  cases Option.some.inj (step.symm.trans one.2)
  exact ⟨other,inv⟩

-- Every page has one reference for the list it is on and one for every live data refbuf
-- that added one, the last release of a data refbuf drops those it took, and a page is
-- freed exactly when there are none.
structure Sound (s : Pages) (lists : Nat → List Nat) : Prop where
  chain : ∀ i, Chain (nextOf s.heap) (s.infos i).headerPages (lists i)
  count : ∀ a, RefHeap.count s.heap a = s.owed lists a
  freed : ∀ a, s.heap a = none ↔ s.owed lists a = 0
  paired : ∀ d t, s.step (.release d) t → ∀ a, RefHeap.count t.heap a+d.took.count a = RefHeap.count s.heap a

theorem Pages.Inv.sound (inv : s.Inv lists) : Sound s lists where
  chain := inv.chain
  count := inv.counted.counts
  freed := fun _ => inv.counted.freed_iff
  paired := fun d t one => by
    have enabled := Pages.step_enabled one
    obtain ⟨next,done,_,paired,_⟩ := release_inv inv (of_decide_eq_true enabled)
    cases Option.some.inj (((if_pos enabled).trans done).symm.trans one)
    exact paired

theorem runs_sound (path : Transition.Runs Pages.apartStep Pages.initial events s) :
    (∃ lists, Sound s lists) ∧ ∀ event, event.enabled s = true → Apart s event → ∃ t, s.step event t := by
  obtain ⟨lists,inv⟩ : ∃ lists, s.Inv lists := by
    induction path with
    | nil => exact ⟨_,Pages.initial_inv⟩
    | snoc _ one ih => exact ih.elim fun _ inv => Pages.apartStep_inv inv one
  refine ⟨⟨lists,inv.sound⟩,fun event enabled apart => ?_⟩
  obtain ⟨t,_,step,_⟩ := Pages.next_total inv apart enabled
  exact ⟨t,step⟩

theorem Pages.apartNext_sound (next : Pages.apartNext s event = some t) : s.apartStep event t := by
  unfold Pages.apartNext at next
  split at next
  · exact ⟨‹_›,next⟩
  · cases next

def bosPage : OggPage := ⟨true,[1],by decide⟩

def laterPage : OggPage := ⟨false,[2],by decide⟩

-- Two chains, the second started while the data of the first is queued.
def twoChains : List PageEvent :=
  [.attach 0 bosPage 0,.attach 0 laterPage 1,.complete 0 [7],.freeHeaders 0,.attach 0 bosPage 2,.complete 0 [8]
  ,.release ⟨0,0,[7],some 0,[0,1],some (0,0),[[1],[2]]⟩]

theorem runs_sound_two_chains : ∃ s : Pages, (count s.heap 0,count s.heap 1,count s.heap 2) = (0,0,2) ∧
    (∃ lists, Sound s lists) ∧ ∀ event, event.enabled s = true → Apart s event → ∃ t, s.step event t := by
  have ran : (Transition.runFrom Pages.apartNext Pages.initial twoChains).map (fun s =>
      (count s.heap 0,count s.heap 1,count s.heap 2)) = some (0,0,2) := by decide +kernel
  obtain ⟨s,ran,same⟩ := Option.map_eq_some_iff.mp ran
  exact ⟨s,same,runs_sound (Transition.runFrom_sound Pages.apartNext_sound ran)⟩

-- A skeleton header page after the first data page of an opus stream.
def lateHeader : List PageEvent :=
  [.attach 0 bosPage 0,.attach 0 bosPage 1,.attach 0 laterPage 2,.complete 0 [7],.attach 0 laterPage 3
  ,.release ⟨0,0,[7],some 0,[0,1,2],some (0,0),[[1],[1],[2]]⟩]

-- The last page of the list is freed, and the next data page is handled by a walk over it.
theorem late_header_unsound : ∃ s, Transition.Runs Pages.step Pages.initial lateHeader s ∧
    (¬∃ lists, Sound s lists) ∧ ¬∃ t, s.step (.complete 0 [8]) t := by
  have ran : (Transition.runFrom Pages.next Pages.initial lateHeader).map (fun s =>
      ((s.infos 0).headerPages,[0,1,2,3].map (nextOf s.heap),(s.next (.complete 0 [8])).isNone)) =
      some (some 0,[some (some 1),some (some 2),some (some 3),none],true) := by decide +kernel
  obtain ⟨s,ran,same⟩ := Option.map_eq_some_iff.mp ran
  simp only [List.map_cons,List.map_nil,Prod.mk.injEq,List.cons.injEq,Option.isNone_iff_eq_none] at same
  obtain ⟨head,⟨first,second,third,gone,_⟩,stuck⟩ := same
  refine ⟨s,Transition.runFrom_sound id ran,?_,fun ⟨t,one⟩ => nomatch stuck.symm.trans one⟩
  rintro ⟨lists,sound⟩
  have chain := sound.chain 0
  generalize lists 0 = cells at chain
  rw [head] at chain
  cases chain with
  | cons a rest =>
    cases Option.some.inj (first.symm.trans a)
    cases rest with
    | cons b rest =>
      cases Option.some.inj (second.symm.trans b)
      cases rest with
      | cons c rest =>
        cases Option.some.inj (third.symm.trans c)
        cases rest with
        | cons d _ => cases gone.symm.trans d

end Icecast.Ogg
