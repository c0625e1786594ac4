import Mathlib.Data.List.Induction
import Mathlib.Order.Basic
import Icecast.Ebml

namespace Icecast.EbmlSegments
open Ebml Transition

-- The clusters of a stream that have at least a byte behind their id.
def occurrences (bytes : List UInt8) : List Nat := (List.range (bytes.length-4)).filter (idAt bytes)

-- The stream was cut before its first cluster, and at each one a refbuf was started.
structure Segmented (s : Source) : Prop where
  header : s.header = (occurrences s.received).head?.map (s.received.take ·)
  starts : ∀ p, p ∈ syncs (storedHeader s).length s.refbufs ↔ p ∈ occurrences s.received

-- The stream does not begin with a cluster, each cluster lies in one read with a byte of that
-- read behind its id, and no read has two such clusters.
structure Visible (chunks : List (List UInt8)) : Prop where
  later : 0 ∉ occurrences chunks.flatten
  whole : ∀ p ∈ occurrences chunks.flatten, ∃ front c back, chunks = front++c::back ∧ front.flatten.length ≤ p ∧
    p+5 ≤ front.flatten.length+c.length
  single : ∀ c ∈ chunks, ∀ b b', b+4 < c.length → b'+4 < c.length → idAt c b = true → idAt c b' = true → b = b'

-- The reads up to the one with the first cluster fit the header buffer together.
def Fits (chunks : List (List UInt8)) : Prop :=
  ∀ front c back, chunks = front++c::back → (∀ p ∈ occurrences chunks.flatten, front.flatten.length ≤ p) →
    front.flatten.length+c.length ≤ headerMax

-- A round of ebml_get_buffer on any read. A source that has ended reads no more.
def Feed (s : Source) (event : Event) (t : Source) : Prop :=
  match event with
  | .take => s.running = true ∧ 0 < ebmlReadSpace s.ebml ∧ next s .take = some t
  | .read input =>
    if s.running then ebmlReadSpace s.ebml ≤ 0 ∧ input.length ≤ slice ∧ next s (.read input) = some t else t = s

-- The source still runs, has the whole stream, and cut it at every cluster.
structure Cut (s : Source) (stream : List UInt8) : Prop extends Segmented s where
  running : s.running = true
  whole : s.received = stream

-- The size of the header and the clusters that are found in reads from `offset` on.
def scan (size offset : Nat) : List (List UInt8) → Nat × List Nat
  | [] => (size,[])
  | c::chunks =>
    let r := scanRead size offset c
    let rest := scan r.1 (offset+c.length) chunks
    (rest.1,r.2++rest.2)

theorem scan_append (size offset : Nat) (front back : List (List UInt8)) :
    scan size offset (front++back) = ((scan (scan size offset front).1 (offset+front.flatten.length) back).1,
      (scan size offset front).2++(scan (scan size offset front).1 (offset+front.flatten.length) back).2) := by
  induction front generalizing size offset with
  | nil => simp [scan]
  | cons c front ih =>
    rw [List.cons_append,scan,scan,ih]
    simp only [List.flatten_cons,List.length_append,Nat.add_assoc,List.append_assoc]

theorem mem_occurrences {bytes : List UInt8} : p ∈ occurrences bytes ↔ p+4 < bytes.length ∧ idAt bytes p = true := by
  simp only [occurrences,List.mem_filter,List.mem_range]
  exact and_congr (by omega) Iff.rfl

theorem mem_scan : p ∈ (scan size offset chunks).2 ↔ ∃ front c back, chunks = front++c::back ∧
    p ∈ (scanRead (scan size offset front).1 (offset+front.flatten.length) c).2 := by
  induction chunks generalizing size offset with
  | nil => simp [scan]
  | cons c chunks ih =>
    rw [scan,List.mem_append,ih]
    constructor
    · rintro (here | ⟨front,d,back,same,found⟩)
      · exact ⟨[],c,chunks,rfl,by simpa [scan] using here⟩
      · refine ⟨c::front,d,back,by rw [same]; rfl,?_⟩
        simpa [scan,Nat.add_assoc] using found
    · rintro ⟨front,d,back,same,found⟩
      cases front with
      | nil =>
        cases same
        exact .inl (by simpa [scan] using found)
      | cons e front =>
        cases same
        exact .inr ⟨front,d,back,rfl,by simpa [scan,Nat.add_assoc] using found⟩

theorem scanRead_occurrence (found : p ∈ (scanRead size front.flatten.length c).2) :
    p ∈ occurrences (front++c::back).flatten := by
  obtain ⟨b,less,here,same⟩ := scanRead_found found
  rw [mem_occurrences,List.flatten_append,List.flatten_cons,same,idAt_after,List.length_append,List.length_append]
  exact ⟨by omega,idAt_append here⟩

theorem occurrence_here {front back : List (List UInt8)} {c : List UInt8}
    (within : p ∈ occurrences (front++c::back).flatten)
    (after : front.flatten.length ≤ p) (before : p+5 ≤ front.flatten.length+c.length) :
    ∃ b, p = front.flatten.length+b ∧ b+4 < c.length ∧ idAt c b = true := by
  obtain ⟨b,same⟩ := Nat.exists_eq_add_of_le after
  refine ⟨b,same,by omega,?_⟩
  have here := (mem_occurrences.mp within).2
  rw [List.flatten_append,List.flatten_cons,same,idAt_after] at here
  simp only [idAt,decide_eq_true_eq] at here ⊢
  rw [List.drop_append_of_le_length (by omega),List.take_append_of_le_length (by rw [List.length_drop]; omega)] at here
  exact here

theorem scanRead_ge (found : p ∈ (scanRead size offset c).2) : offset ≤ p ∧ p < offset+c.length := by
  obtain ⟨b,less,_,same⟩ := scanRead_found found
  omega

theorem scanRead_length : (scanRead size offset c).2.length ≤ 1 := by
  unfold scanRead
  split
  · split
    · split <;> simp
    · simp
  · cases ((offsets c).filter (idAt c)).getLast? <;> simp

theorem scanRead_single (found : p ∈ (scanRead size offset c).2) (found' : q ∈ (scanRead size offset c).2) : p = q := by
  have length : (scanRead size offset c).2.length ≤ 1 := scanRead_length
  cases marks : (scanRead size offset c).2 with
  | nil =>
    rw [marks] at found
    cases found
  | cons x rest =>
    rw [marks] at found found' length
    have absent : rest = [] := List.eq_nil_of_length_eq_zero (by rw [List.length_cons] at length; omega)
    rw [absent] at found found'
    exact (List.mem_singleton.mp found).trans (List.mem_singleton.mp found').symm

theorem scan_size (size offset : Nat) (chunks : List (List UInt8)) (before : size ≤ offset) :
    (scan size offset chunks).1 ≤ offset+chunks.flatten.length ∧
    (size ≠ 0 → (scan size offset chunks).1 = size) ∧
    (size = 0 → (scan size offset chunks).1 = 0 ∧ (scan size offset chunks).2 = [] ∨
      (scan size offset chunks).1 ≠ 0 ∧ (scan size offset chunks).1 ∈ (scan size offset chunks).2 ∧
        ∀ p ∈ (scan size offset chunks).2, (scan size offset chunks).1 ≤ p) := by
  induction chunks generalizing size offset with
  | nil => exact ⟨by simpa [scan] using before,fun _ => rfl,fun zero => .inl ⟨zero,rfl⟩⟩
  | cons c chunks ih =>
    rw [scan]
    dsimp only
    have read : (scanRead size offset c).1 ≤ offset+c.length ∧ (size ≠ 0 → (scanRead size offset c).1 = size) ∧
        (size = 0 → (scanRead size offset c).1 = 0 ∧ (scanRead size offset c).2 = [] ∨
          (scanRead size offset c).1 ≠ 0 ∧ (scanRead size offset c).2 = [(scanRead size offset c).1]) := by
      unfold scanRead
      split
      · rename_i zero
        split
        · rename_i b first
          have less := offset_lt (List.mem_of_find?_eq_some first)
          split
          · exact ⟨by simp,fun other => absurd zero other,fun _ => .inl ⟨rfl,rfl⟩⟩
          · rename_i filled
            exact ⟨by dsimp only; omega,fun other => absurd zero other,fun _ => .inr ⟨filled,rfl⟩⟩
        · exact ⟨by simp,fun other => absurd zero other,fun _ => .inl ⟨rfl,rfl⟩⟩
      · rename_i other
        exact ⟨by dsimp only; omega,fun _ => rfl,fun zero => absurd zero other⟩
    obtain ⟨within,same,fresh⟩ := read
    obtain ⟨within',same',fresh'⟩ := ih (scanRead size offset c).1 (offset+c.length) within
    refine ⟨by rw [List.flatten_cons,List.length_append]; omega,fun other => ?_,fun zero => ?_⟩
    · rw [same' (by rw [same other]; exact other),same other]
    · rcases fresh zero with ⟨absent,noMarks⟩ | ⟨filled,marks⟩
      · rw [noMarks,List.nil_append]
        exact fresh' absent
      · rw [marks,same' filled]
        refine .inr ⟨filled,List.mem_append_left _ (List.mem_singleton.mpr rfl),fun p found => ?_⟩
        rcases List.mem_append.mp found with here | later
        · exact Nat.le_of_eq (List.mem_singleton.mp here).symm
        · obtain ⟨front,d,back,_,found⟩ := mem_scan.mp later
          have := (scanRead_ge found).1
          omega

theorem scan_occurrence (found : p ∈ (scan 0 0 chunks).2) : p ∈ occurrences chunks.flatten := by
  obtain ⟨front,c,back,same,found⟩ := mem_scan.mp found
  rw [Nat.zero_add] at found
  rw [same]
  exact scanRead_occurrence found

theorem scan_positive (found : p ∈ (scan 0 0 chunks).2) : p ≠ 0 := by
  obtain ⟨_,_,fresh⟩ := scan_size 0 0 chunks (Nat.le_refl 0)
  rcases fresh rfl with ⟨_,absent⟩ | ⟨filled,_,first⟩
  · rw [absent] at found
    cases found
  · have := first p found
    omega

theorem chunk_unique {front front' back back' : List (List UInt8)} {c c' : List UInt8}
    (same : front++c::back = front'++c'::back')
    (after : front.flatten.length ≤ p) (before : p < front.flatten.length+c.length) (after' : front'.flatten.length ≤ p)
    (before' : p < front'.flatten.length+c'.length) : front = front' ∧ c = c' := by
  rcases List.append_eq_append_iff.mp same with ⟨middle,later,rest⟩ | ⟨middle,later,rest⟩
  · cases middle with
    | nil =>
      rw [List.append_nil] at later
      exact ⟨later.symm,(List.cons.inj rest).1⟩
    | cons d middle =>
      rw [later,List.flatten_append,List.flatten_cons,List.length_append,List.length_append,
        ←(List.cons.inj rest).1] at after'
      omega
  · cases middle with
    | nil =>
      rw [List.append_nil] at later
      exact ⟨later,(List.cons.inj rest).1.symm⟩
    | cons d middle =>
      rw [later,List.flatten_append,List.flatten_cons,List.length_append,List.length_append,
        ←(List.cons.inj rest).1] at after
      omega

theorem occurrence_there {front back : List (List UInt8)} {c : List UInt8} (less : b+4 < c.length)
    (here : idAt c b = true) :
    front.flatten.length+b ∈ occurrences (front++c::back).flatten := by
  rw [mem_occurrences,List.flatten_append,List.flatten_cons,idAt_after,List.length_append,List.length_append]
  exact ⟨by omega,idAt_append here⟩

theorem visible_of_scan (all : ∀ p ∈ occurrences chunks.flatten, p ∈ (scan 0 0 chunks).2) : Visible chunks where
  later := fun zero => scan_positive (all 0 zero) rfl
  whole := fun p within => by
    obtain ⟨front,c,back,same,found⟩ := mem_scan.mp (all p within)
    rw [Nat.zero_add] at found
    obtain ⟨b,less,_,place⟩ := scanRead_found found
    exact ⟨front,c,back,same,by omega,by omega⟩
  single := fun c member b b' less less' here here' => by
    obtain ⟨front,back,same⟩ := List.append_of_mem member
    have marked : ∀ b, b+4 < c.length → idAt c b = true →
      front.flatten.length+b ∈ (scanRead (scan 0 0 front).1 front.flatten.length c).2 := by
      intro b less here
      have within : front.flatten.length+b ∈ occurrences (front++c::back).flatten := occurrence_there less here
      rw [←same] at within
      obtain ⟨front',c',back',same',found⟩ := mem_scan.mp (all _ within)
      rw [Nat.zero_add] at found
      have range := scanRead_ge found
      obtain ⟨one,two⟩ := chunk_unique (p := front.flatten.length+b) (same.symm.trans same')
        (Nat.le_add_right _ _) (by omega) range.1 range.2
      rw [one,two]
      rwa [one] at found
    have equal := scanRead_single (marked b less here) (marked b' less' here')
    omega

theorem scan_of_visible (visible : Visible chunks) (within : p ∈ occurrences chunks.flatten) :
    p ∈ (scan 0 0 chunks).2 := by
  obtain ⟨front,c,back,same,after,before⟩ := visible.whole p within
  have positive : p ≠ 0 := fun zero => visible.later (zero ▸ within)
  rw [same] at within
  obtain ⟨b,place,less,here⟩ := occurrence_here within after before
  refine mem_scan.mpr ⟨front,c,back,same,?_⟩
  have member : c ∈ chunks := by
    rw [same]
    exact List.mem_append_right _ List.mem_cons_self
  have inside : b ∈ offsets c := List.mem_range.mpr (by omega)
  rw [Nat.zero_add,scanRead]
  split
  · cases found : (offsets c).find? (idAt c) with
    | none => exact absurd here (List.find?_eq_none.mp found b inside)
    | some b' =>
      have same := visible.single c member b b' less (offset_lt (List.mem_of_find?_eq_some found)) here
        (List.find?_some found)
      rw [←same]
      dsimp only
      rw [if_neg (by omega),place]
      exact List.mem_singleton.mpr rfl
  · cases found : ((offsets c).filter (idAt c)).getLast? with
    | none =>
      have absent := List.getLast?_eq_none_iff.mp found
      have filled : b ∈ (offsets c).filter (idAt c) := List.mem_filter.mpr ⟨inside,here⟩
      rw [absent] at filled
      cases filled
    | some b' =>
      have within' := List.mem_of_getLast? found
      have same := visible.single c member b b' less (offset_lt (List.mem_of_mem_filter within')) here
        (List.mem_filter.mp within').2
      rw [←same,place]
      exact List.mem_singleton.mpr rfl

theorem runs_scan (run : Runs Step start events s) : (s.ebml.headerSize,marks s) = scan 0 0 (reads events) := by
  induction run with
  | nil => simp [scan,reads,marks,pending,start,create,syncs]
  | snoc earlier last ih =>
    rename_i event t
    obtain ⟨marked,received⟩ := runs_marked earlier
    have size := congrArg Prod.fst ih
    have found := congrArg Prod.snd ih
    dsimp only at size found
    rw [reads_append,scan_append,←size,←found,Nat.zero_add,←received]
    cases event with
    | take =>
      obtain ⟨t',ran,_,_,same,size',_⟩ := take_spec marked.toInv last.1
      rw [last.2] at ran
      cases ran
      simp [reads,scan,same,size']
    | read input =>
      obtain ⟨t',ran,_,_,size',more⟩ := read_spec marked.toInv last.1
      rw [last.2] at ran
      cases ran
      simp [reads,scan,more,size']

theorem head_of_least {xs : List Nat} (sorted : xs.Pairwise (· < ·)) (member : p ∈ xs)
    (least : ∀ q ∈ xs, p ≤ q) : xs.head? = some p := by
  cases xs with
  | nil => cases member
  | cons x xs =>
    have first := least x List.mem_cons_self
    rcases List.mem_cons.mp member with same | later
    · rw [same]
      rfl
    · have less := List.rel_of_pairwise_cons sorted later
      omega

theorem occurrences_sorted (bytes : List UInt8) : (occurrences bytes).Pairwise (· < ·) :=
  List.Pairwise.filter _ List.pairwise_lt_range

theorem run_segmented (run : Runs Step start events s) (drained : Drained s) : Segmented s ↔
    Visible (reads events) := by
  obtain ⟨marked,received⟩ := runs_marked run
  have found := runs_scan run
  have size := congrArg Prod.fst found
  have cuts := congrArg Prod.snd found
  dsimp only at size cuts
  obtain ⟨_,_,fresh⟩ := scan_size 0 0 (reads events) (Nat.le_refl 0)
  have started : syncs (storedHeader s).length s.refbufs = (scan 0 0 (reads events)).2 := by
    rw [←cuts,marks,pending]
    rcases drained.idle marked.toInv with gathering | ⟨handing,idle⟩
    · rw [if_pos gathering.size,List.append_nil]
    · rw [if_neg (by have := handing.size; omega),if_neg (by omega),if_neg (by omega),List.append_nil]
  constructor
  · intro segmented
    refine visible_of_scan fun p within => ?_
    rw [←started]
    refine (segmented.starts p).mpr ?_
    rwa [received]
  · intro visible
    have both : ∀ p, p ∈ (scan 0 0 (reads events)).2 ↔ p ∈ occurrences s.received := by
      rw [received]
      exact fun p => ⟨scan_occurrence,scan_of_visible visible⟩
    refine ⟨?_,by rw [started]; exact both⟩
    rcases drained.idle marked.toInv with gathering | ⟨handing,_⟩
    · rw [←size,gathering.size] at fresh
      rcases fresh rfl with ⟨_,absent⟩ | ⟨other,_⟩
      · have empty : occurrences s.received = [] := by
          refine List.eq_nil_iff_forall_not_mem.mpr fun p within => ?_
          have here := (both p).mpr within
          rw [absent] at here
          cases here
        rw [gathering.noHeader,empty]
        rfl
      · exact absurd rfl other
    · obtain ⟨h,stored,length,bytes⟩ := handing.bytes
      rw [←size] at fresh
      rcases fresh rfl with ⟨zero,_⟩ | ⟨_,member,least⟩
      · have filled := handing.size
        omega
      · rw [head_of_least (occurrences_sorted s.received) ((both _).mp member) fun q within =>
          least q ((both q).mpr within),
          stored,←bytes,List.append_assoc,←length,Option.map_some,List.take_left]

-- What ebml_wrote returns.
theorem wrote_all (ran : ebmlWrote e input = some r)
    (fits : e.headerSize = 0 → e.headerPosition+input.length ≤ headerMax) :
    r.2 = input.length := by
  unfold ebmlWrote at ran
  split at ran
  · rename_i zero
    rw [if_neg (Nat.not_lt.mpr (fits zero))] at ran
    obtain ⟨header,_,ran⟩ := Option.bind_eq_some_iff.mp ran
    dsimp only at ran
    split at ran
    · obtain ⟨buffer,_,rfl⟩ := Option.map_eq_some_iff.mp ran
      rfl
    · cases ran
      rfl
  · obtain ⟨buffer,_,rfl⟩ := Option.map_eq_some_iff.mp ran
    rfl

theorem read_overflow {s : Source} (gathering : Gathering s) (large : headerMax < s.received.length+input.length) :
    next s (.read input) = some {s with running := false} := by
  have wrote : ebmlWrote s.ebml input = some (s.ebml,-1) := by
    rw [ebmlWrote,if_pos gathering.size,gathering.count,if_pos large]
  have other : (-1 : Int) ≠ input.length := by omega
  rw [next,wrote,Option.map_some,if_neg other]

theorem step_running {s t : Source} (step : Step s event t) (running : s.running = true) : t.running = true := by
  cases event with
  | take =>
    obtain ⟨r,_,rfl⟩ := Option.map_eq_some_iff.mp step.2
    split <;> exact running
  | read input =>
    obtain ⟨r,ran,rfl⟩ := Option.map_eq_some_iff.mp step.2
    rw [if_pos (wrote_all ran step.1.2.2)]
    exact running

theorem step_feed {s t : Source} (step : Step s event t) (running : s.running = true) : Feed s event t := by
  cases event with
  | take => exact ⟨running,step.1,step.2⟩
  | read input =>
    rw [Feed,if_pos running]
    exact ⟨step.1.1,step.1.2.1,step.2⟩

theorem runs_feed (run : Runs Step start events s) : s.running = true ∧ Runs Feed start events s := by
  induction run with
  | nil => exact ⟨rfl,.nil⟩
  | snoc _ last ih => exact ⟨step_running last ih.1,.snoc ih.2 (step_feed last ih.1)⟩

-- No read came that is too large for what is left of the header buffer.
def Held (chunks : List (List UInt8)) : Prop :=
  ∀ front c back, chunks = front++c::back → (scan 0 0 front).1 = 0 → front.flatten.length+c.length ≤ headerMax

theorem held_append (held : Held (chunks++[c])) : Held chunks :=
  fun front d back same none_found => held front d (back++[c]) (by rw [same]; simp) none_found

theorem held_snoc (held : Held chunks) (last : (scan 0 0 chunks).1 = 0 → chunks.flatten.length+c.length ≤ headerMax) :
    Held (chunks++[c]) := by
  intro front d back same none_found
  rcases List.eq_nil_or_concat back with rfl | ⟨back,e,rfl⟩
  · obtain ⟨rfl,one⟩ := List.append_inj' same rfl
    cases one
    exact last none_found
  · obtain ⟨rfl,_⟩ := List.append_inj' (show chunks++[c] = (front++d::back)++[e] by rw [same]; simp) rfl
    exact held front d back rfl none_found

theorem feed_runs (run : Runs Feed start events s) :
    (s.running = true ∧ Runs Step start events s ∧ Held (reads events)) ∨
    (s.running = false ∧ ¬Held (reads events)) := by
  induction run with
  | nil =>
    refine .inl ⟨rfl,.nil,fun front c back same => ?_⟩
    exact absurd same (by simp [reads])
  | snoc earlier last ih =>
    rename_i labels middle event t
    rw [reads_append]
    cases event with
    | take =>
      obtain ⟨running,space,ran⟩ := last
      rcases ih with ⟨_,run,held⟩ | ⟨ended,_⟩
      · have step : Step middle .take t := ⟨space,ran⟩
        exact .inl ⟨step_running step running,.snoc run step,by simpa [reads] using held⟩
      · rw [ended] at running
        cases running
    | read input =>
      dsimp only [Feed] at last
      rcases ih with ⟨running,run,held⟩ | ⟨ended,unheld⟩
      · rw [if_pos running] at last
        obtain ⟨space,small,ran⟩ := last
        obtain ⟨marked,received⟩ := runs_marked run
        have size := congrArg Prod.fst (runs_scan run)
        dsimp only at size
        by_cases fits : (scan 0 0 (reads labels)).1 = 0 → (reads labels).flatten.length+input.length ≤ headerMax
        · have step : Step middle (.read input) t := by
            refine ⟨⟨space,small,fun zero => ?_⟩,ran⟩
            rw [(marked.toInv.gathering zero).count,received]
            exact fits (size.symm.trans zero)
          exact .inl ⟨step_running step running,.snoc run step,held_snoc held fits⟩
        · obtain ⟨zero,large⟩ := Classical.not_imp.mp fits
          have stopped := read_overflow (marked.toInv.gathering (size.trans zero))
            (by rw [received]; exact Nat.not_le.mp large)
          rw [stopped] at ran
          cases ran
          exact .inr ⟨rfl,fun held => large (held _ input [] rfl zero)⟩
      · rw [if_neg (by simp [ended])] at last
        exact .inr ⟨last ▸ ended,fun held => unheld (held_append held)⟩

theorem unscanned_iff (visible : Visible (front++back)) :
    (scan 0 0 front).1 = 0 ↔ ∀ p ∈ occurrences (front++back).flatten, front.flatten.length ≤ p := by
  obtain ⟨_,_,fresh⟩ := scan_size 0 0 front (Nat.le_refl 0)
  have parts := congrArg Prod.snd (scan_append 0 0 front back)
  dsimp only at parts
  constructor
  · intro zero p within
    have none_marked : (scan 0 0 front).2 = [] := by
      rcases fresh rfl with ⟨_,empty⟩ | ⟨other,_⟩
      · exact empty
      · exact absurd zero other
    have found := scan_of_visible visible within
    rw [parts,none_marked,List.nil_append] at found
    obtain ⟨_,_,_,_,found⟩ := mem_scan.mp found
    have := (scanRead_ge found).1
    omega
  · intro behind
    rcases fresh rfl with ⟨zero,_⟩ | ⟨_,member,_⟩
    · exact zero
    · have within : (scan 0 0 front).1 ∈ (scan 0 0 (front++back)).2 := by
        rw [parts]
        exact List.mem_append_left _ member
      have late := behind _ (scan_occurrence within)
      obtain ⟨before,c,after,same,found⟩ := mem_scan.mp member
      have early := (scanRead_ge found).2
      have length := congrArg (fun chunks => chunks.flatten.length) same
      simp only [List.flatten_append,List.flatten_cons,List.length_append] at length
      omega

theorem fits_iff (visible : Visible chunks) : Fits chunks ↔ Held chunks := by
  refine forall_congr' fun front => forall_congr' fun c => forall_congr' fun back => ?_
  refine imp_congr_right fun same => ?_
  rw [same] at visible ⊢
  rw [unscanned_iff visible]

theorem fits_of_small (small : chunks.flatten.length ≤ headerMax) : Fits chunks := by
  intro front c back same _
  rw [same] at small
  simp only [List.flatten_append,List.flatten_cons,List.length_append] at small
  omega

theorem feed_cut (run : Runs Feed start events s) (drained : Drained s) :
    Cut s (reads events).flatten ↔ Visible (reads events) ∧ Fits (reads events) := by
  rcases feed_runs run with ⟨running,run,held⟩ | ⟨ended,unheld⟩
  · have segmented := run_segmented run drained
    constructor
    · intro cut
      have visible := segmented.mp cut.toSegmented
      exact ⟨visible,(fits_iff visible).mpr held⟩
    · intro ⟨visible,_⟩
      exact ⟨segmented.mpr visible,running,(runs_marked run).2⟩
  · constructor
    · intro cut
      exact absurd cut.running (by simp [ended])
    · intro ⟨visible,fits⟩
      exact absurd ((fits_iff visible).mp fits) unheld

-- Two ways of cutting one stream.
theorem runs_segmented (stream : List UInt8) (run : Runs Feed start events s) (run' : Runs Feed start events' s')
    (same : (reads events).flatten = stream) (same' : (reads events').flatten = stream)
    (drained : Drained s) (drained' : Drained s') :
    Cut s stream ∧ Cut s' stream ↔
      (Visible (reads events) ∧ Fits (reads events)) ∧ Visible (reads events') ∧ Fits (reads events') := by
  have first := feed_cut run drained
  have second := feed_cut run' drained'
  rw [same] at first
  rw [same'] at second
  exact and_congr first second

-- Any reads of at most EBML_SLICE_SIZE bytes can be made, and all that comes be handed out.
theorem fed (chunks : List (List UInt8)) (small : ∀ c ∈ chunks, c.length ≤ slice) :
    ∃ events s, Runs Feed start events s ∧ reads events = chunks ∧ Drained s := by
  induction chunks using List.reverseRecOn with
  | nil => exact ⟨[],start,.nil,rfl,Int.le_refl 0⟩
  | append_singleton chunks c ih =>
    obtain ⟨events,s,run,same,drained⟩ := ih fun d member => small d (List.mem_append_left _ member)
    have short := small c (List.mem_append_right _ (List.mem_singleton_self c))
    have read : reads (events++[.read c]) = chunks++[c] := by rw [reads_append,same]; rfl
    rcases feed_runs run with ⟨running,steps,_⟩ | ⟨ended,_⟩
    · obtain ⟨marked,received⟩ := runs_marked steps
      by_cases fits : s.ebml.headerSize = 0 → s.received.length+c.length ≤ headerMax
      · have enabled : Enabled s (.read c) :=
          ⟨drained,short,fun zero => by rw [(marked.toInv.gathering zero).count]; exact fits zero⟩
        obtain ⟨t,ran,kept,_⟩ := read_spec marked.toInv enabled
        obtain ⟨n,u,takes,emptied⟩ := drains kept
        have whole := (Runs.snoc steps ⟨enabled,ran⟩).append (takes.imp fun step => step.1)
        refine ⟨_,u,(runs_feed whole).2,?_,emptied.drained⟩
        rw [reads_append,reads_takes,List.append_nil,read]
      · obtain ⟨zero,large⟩ := Classical.not_imp.mp fits
        have stopped := read_overflow (marked.toInv.gathering zero) (Nat.not_le.mp large)
        have one : Feed s (.read c) {s with running := false} := by
          rw [Feed,if_pos running]
          exact ⟨drained,short,stopped⟩
        exact ⟨_,_,.snoc run one,read,drained⟩
    · have one : Feed s (.read c) s := by rw [Feed,if_neg (by simp [ended])]
      exact ⟨_,s,.snoc run one,read,drained⟩

theorem runs_segmented_opening : ∃ s s', Drained s ∧ Drained s' ∧ Cut s opening ∧ Cut s' opening := by
  obtain ⟨events,s,run,chunks,drained⟩ := fed [opening] (by decide)
  obtain ⟨events',s',run',chunks',drained'⟩ := fed [opening.take 3,opening.drop 3] (by decide)
  have cut := runs_segmented opening run run' (by simp [chunks]) (by simp [chunks']) drained drained'
  rw [chunks,chunks'] at cut
  have both := cut.mpr ⟨⟨visible_of_scan (by decide),fits_of_small (by decide)⟩,visible_of_scan (by decide),
    fits_of_small (by decide)⟩
  exact ⟨s,s',drained,drained',both.1,both.2⟩

-- The same stream, cut within the id of its cluster.
theorem id_straddles : ∃ s s' events events', Runs Feed start events s ∧ Runs Feed start events' s' ∧
    (reads events).flatten = opening ∧ (reads events').flatten = opening ∧ Drained s ∧ Drained s' ∧ Cut s opening ∧
    s.header = some (opening.take 4) ∧ s'.running = true ∧ s'.header = none ∧ s'.refbufs = [] ∧ ¬Cut s' opening := by
  obtain ⟨events,s,run,chunks,drained⟩ := fed [opening] (by decide)
  obtain ⟨events',s',run',chunks',drained'⟩ := fed [opening.take 6,opening.drop 6] (by decide)
  have cut : Cut s opening := by
    have cut := (feed_cut run drained).mpr
      (by rw [chunks]; exact ⟨visible_of_scan (by decide),fits_of_small (by decide)⟩)
    rwa [chunks] at cut
  have ends : s'.running = true ∧ Runs Step start events' s' := by
    rcases feed_runs run' with ⟨running,steps,_⟩ | ⟨_,unheld⟩
    · exact ⟨running,steps⟩
    · refine absurd (fun front c back same _ => ?_) unheld
      have length := congrArg (fun chunks => chunks.flatten.length) (chunks'.symm.trans same)
      have ten : ([opening.take 6,opening.drop 6].flatten).length ≤ headerMax := by decide
      simp only [List.flatten_append,List.flatten_cons,List.length_append] at length ten
      omega
  have size : s'.ebml.headerSize = 0 := by
    have found := congrArg Prod.fst (runs_scan ends.2)
    rw [chunks'] at found
    exact found.trans (by decide)
  have gathering := (runs_marked ends.2).1.toInv.gathering size
  refine ⟨s,s',_,_,run,run',by simp [chunks],by simp [chunks'],drained,drained',cut,?_,ends.1,gathering.noHeader,
    gathering.noRefbufs,fun cut => ?_⟩
  · rw [cut.header,cut.whole]
    decide
  · have header := cut.header
    rw [gathering.noHeader,cut.whole] at header
    exact absurd header (by decide)

end Icecast.EbmlSegments
