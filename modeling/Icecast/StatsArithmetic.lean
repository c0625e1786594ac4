import Icecast.Stats

namespace Icecast.StatsArithmetic
open Bytes Stats

-- What the arithmetic calls do to a number.
inductive Op where
  | inc
  | dec
  | add (v : UInt64)
  | sub (v : UInt64)
deriving DecidableEq

def Op.amount : Op → Int
  | .inc => 1
  | .dec => -1
  | .add v => v.toNat
  | .sub v => -(v.toNat : Int)

def Op.call (source : Option Text) (name : Text) : Op → Call
  | .inc => .inc source (some name)
  | .dec => .dec source (some name)
  | .add v => .add source (some name) v
  | .sub v => .sub source (some name) v

def total (ops : List Op) : Int := (ops.map Op.amount).sum

def Fits (z : Int) : Prop := -2^31 ≤ z ∧ z < 2^31
def Fits64 (z : Int) : Prop := -2^63 ≤ z ∧ z < 2^63

instance decideFits (z : Int) : Decidable (Fits z) := inferInstanceAs (Decidable (-2^31 ≤ z ∧ z < 2^31))

-- INC, DEC and ADD stay within an int, SUB within the 15 characters of a text.
def Op.Fair (z : Int) : Op → Prop
  | .sub v => v.toNat < 10^15 ∧ -10^14 < z-v.toNat ∧ z-v.toNat < 10^15
  | op => Fits z ∧ Fits op.amount ∧ Fits (z+op.amount)

def FairFrom : Int → List Op → Prop
  | _,[] => True
  | z,op::ops => op.Fair z ∧ FairFrom (z+op.amount) ops

-- Events that the stats thread takes from its queue.
def processAll : Trees → List Call → Except Fault Trees
  | tree,[] => .ok tree
  | tree,c::calls => (processEvent tree c.build).bind fun r => processAll r.1 calls

theorem modify_ok {node : Node} (changed : change (some node.value) e = .ok r) (keeps : e.action ≠ .remove)
    (operand : e.action = .set → e.value.isSome = true) : ∃ out, modifyNodeEvent node e = .ok out := by
  unfold modifyNodeEvent
  cases action : e.action with
  | remove => exact absurd action keeps
  | hidden => exact ⟨_,rfl⟩
  | set =>
    obtain ⟨text,filled⟩ := Option.isSome_iff_exists.mp (operand action)
    rw [filled]
    exact ⟨_,rfl⟩
  | inc | dec | add | sub =>
    unfold change at changed
    rw [action] at changed
    obtain ⟨z,value,_⟩ := bind_ok changed
    dsimp only
    rw [value]
    exact ⟨_,rfl⟩

theorem process_ok (named : e.name = some name) (changed : change (lookup tree e.source name) e = .ok r)
    (keeps : e.action ≠ .remove)
    (operand : e.action = .set → e.value.isSome = true)
    (there : e.value.isSome = true ∨ (lookup tree e.source name).isSome = true) :
    ∃ tree' e', processEvent tree e = .ok (tree',e') := by
  unfold processEvent
  cases source : e.source with
  | none =>
    rw [source] at changed there
    dsimp only
    unfold processGlobalEvent
    rw [named,findNode_named]
    unfold lookup at changed there
    cases found : Keyed.find Node.name tree.globals name with
    | some node =>
      rw [found] at changed
      obtain ⟨out,modified⟩ := modify_ok changed keeps operand
      simp only [bind,Except.bind,if_neg keeps,modified]
      exact ⟨_,_,rfl⟩
    | none =>
      rw [found] at there
      obtain ⟨text,filled⟩ := Option.isSome_iff_exists.mp (there.resolve_right (by rintro ⟨⟩))
      simp only [bind,Except.bind,if_neg keeps,filled,pointer,Option.elim]
      exact ⟨_,_,rfl⟩
  | some source' =>
    rw [source] at changed
    dsimp only
    unfold processSourceEvent
    obtain ⟨_,_,_,_,values⟩ := findSource_spec tree e source'
    rw [←values] at changed
    rw [if_neg fun both => keeps both.2,named]
    generalize findSource tree e source' = made at changed
    obtain ⟨made,snode⟩ := made
    dsimp only at changed ⊢
    have stat : ∃ out, processStat snode e name = .ok out := by
      unfold processStat
      unfold valueIn at changed
      cases found : Keyed.find Node.name snode.stats name with
      | none =>
        dsimp only
        rw [if_neg keeps]
        split <;> exact ⟨_,rfl⟩
      | some node =>
        rw [found] at changed
        obtain ⟨out,modified⟩ := modify_ok changed keeps operand
        simp only [bind,Except.bind,if_neg keeps,modified]
        exact ⟨_,rfl⟩
    obtain ⟨out,ran⟩ := stat
    simp only [bind,Except.bind,ran]
    exact ⟨_,_,rfl⟩

theorem atoi_ofInt (fits : Fits z) : atoi (Decimal.ofInt z) = .ok z := by
  rw [atoi,Decimal.toInt_ofInt]
  exact if_pos fits

theorem atoll_ofInt (fits : Fits64 z) : atoll (Decimal.ofInt z) = .ok z := by
  rw [atoll,Decimal.toInt_ofInt]
  exact if_pos fits

theorem shown_eq (low : -10^14 < z) (high : z < 10^15) : shown z = Decimal.ofInt z :=
  List.take_of_length_le (Decimal.length_ofInt low high (by decide))

theorem signed_eq {v : UInt64} (small : v.toNat < 2^63) : signedLong v = v.toNat := if_pos small

theorem change_value (value : newValue text e = .ok y) (arith : e.action = .inc ∨ e.action = .dec ∨
    e.action = .add ∨ e.action = .sub) :
    change (some text) e = .ok (some (shown y),some (e.value.getD (shown y))) := by
  unfold change
  rcases arith with action | action | action | action <;> simp [action,value,bind,Except.bind]

theorem fits_shown (fits : Fits y) : shown y = Decimal.ofInt y := by
  unfold Fits at fits
  exact shown_eq (by omega) (by omega)

theorem op_value {op : Op} (fair : op.Fair z) (fits : Fits64 z) (source : Option Text) (name : Text) :
    newValue (Decimal.ofInt z) (op.call source name).build = .ok (z+op.amount) ∧
    shown (z+op.amount) = Decimal.ofInt (z+op.amount) := by
  cases op with
  | inc =>
    obtain ⟨old,_,new⟩ := fair
    refine ⟨?_,fits_shown new⟩
    simp only [newValue,Op.call,Call.build,atoi_ofInt old,bind,Except.bind]
    exact if_pos new
  | dec =>
    obtain ⟨old,_,new⟩ := fair
    refine ⟨?_,fits_shown new⟩
    simp only [newValue,Op.call,Call.build,atoi_ofInt old,bind,Except.bind]
    exact if_pos new
  | add v =>
    obtain ⟨old,operand,new⟩ := fair
    have small : v.toNat < 2^63 := by
      have high : (v.toNat : Int) < 2^31 := operand.2
      omega
    refine ⟨?_,fits_shown new⟩
    have text : shown (signedLong v) = Decimal.ofInt v.toNat := by
      rw [signed_eq small]
      exact fits_shown operand
    have read : atoi (Decimal.ofInt v.toNat) = .ok (v.toNat : Int) := atoi_ofInt operand
    simp only [newValue,Op.call,Call.build,text,atoi_ofInt old,pointer,Option.elim,read,bind,Except.bind]
    exact if_pos new
  | sub v =>
    obtain ⟨operand,low,high⟩ := fair
    have small : v.toNat < 2^63 := by omega
    refine ⟨?_,shown_eq (by simp only [Op.amount]; omega) (by simp only [Op.amount]; omega)⟩
    have text : shown (signedLong v) = Decimal.ofInt v.toNat := by
      rw [signed_eq small]
      exact shown_eq (by omega) (by omega)
    have read : atoll (Decimal.ofInt v.toNat) = .ok (v.toNat : Int) := atoll_ofInt ⟨by omega,by omega⟩
    simp only [newValue,Op.call,Call.build,text,atoll_ofInt fits,pointer,Option.elim,read,bind,Except.bind]
    exact if_pos ⟨by omega,by omega⟩

theorem op_step {op : Op} (fair : op.Fair z) (fits : Fits64 z)
    (there : lookup tree source name = some (Decimal.ofInt z)) :
    ∃ tree' e', processEvent tree (op.call source name).build = .ok (tree',e') ∧
    lookup tree' source name = some (Decimal.ofInt (z+op.amount)) := by
  obtain ⟨value,text⟩ := op_value fair fits source name
  have built : (op.call source name).build.source = source ∧ (op.call source name).build.name = some name ∧
      ((op.call source name).build.action = .inc ∨ (op.call source name).build.action = .dec ∨
        (op.call source name).build.action = .add ∨
        (op.call source name).build.action = .sub) := by
    cases op <;> simp [Op.call,Call.build,buildEvent]
  obtain ⟨source_,named,arith⟩ := built
  have changed := change_value value arith
  rw [text] at changed
  have there' : lookup tree (op.call source name).build.source name =
    some (Decimal.ofInt z) := by rw [source_]; exact there
  obtain ⟨tree',e',ran⟩ := process_ok named (by rw [there']; exact changed)
    (by rcases arith with a | a | a | a <;> rw [a] <;> rintro ⟨⟩)
    (by rcases arith with a | a | a | a <;> rw [a] <;> rintro ⟨⟩) (.inr (by rw [there']; rfl))
  obtain ⟨_,_,new,changed',looked⟩ := process_change ran named
  rw [there',changed] at changed'
  have same := congrArg Prod.fst (Except.ok.inj changed')
  refine ⟨tree',e',ran,?_⟩
  rw [looked,if_pos ⟨source_.symm,rfl⟩]
  exact same.symm

theorem fair_fits {op : Op} (fair : op.Fair z) : Fits64 (z+op.amount) := by
  cases op with
  | sub v =>
    obtain ⟨_,low,high⟩ := fair
    exact ⟨by simp only [Op.amount]; omega,by simp only [Op.amount]; omega⟩
  | inc | dec | add v =>
    obtain ⟨_,_,low,high⟩ := fair
    exact ⟨by omega,by omega⟩

theorem ops_exact (ops : List Op) (tree : Trees) (z : Int) (fair : FairFrom z ops) (fits : Fits64 z)
    (there : lookup tree source name = some (Decimal.ofInt z)) :
    ∃ tree', processAll tree (ops.map (·.call source name)) = .ok tree' ∧
    lookup tree' source name = some (Decimal.ofInt (z+total ops)) := by
  induction ops generalizing tree z with
  | nil => exact ⟨tree,rfl,by rw [there]; simp [total]⟩
  | cons op ops ih =>
    obtain ⟨first,rest⟩ := fair
    obtain ⟨tree',e',ran,now⟩ := op_step first fits there
    obtain ⟨tree'',ran',final⟩ := ih tree' (z+op.amount) rest (fair_fits first) now
    refine ⟨tree'',?_,?_⟩
    · rw [List.map_cons,processAll,ran]
      exact ran'
    · rw [final,total,total,List.map_cons,List.sum_cons,Int.add_assoc]

theorem set_step (tree : Trees) (source : Option Text) (name text : Text) :
    ∃ tree' e', processEvent tree (Call.event source (some name) (some text)).build = .ok (tree',e') ∧
    lookup tree' source name = some text := by
  have changed : change (lookup tree source name) (Call.event source (some name) (some text)).build = .ok
    (some text,some text) := by
    cases lookup tree source name <;> rfl
  obtain ⟨tree',e',ran⟩ := process_ok (e := (Call.event source (some name) (some text)).build) rfl changed nofun
    (fun _ => rfl) (.inl rfl)
  obtain ⟨_,_,new,changed',looked⟩ := process_change ran rfl
  have same := congrArg Prod.fst (Except.ok.inj (changed.symm.trans changed'))
  refine ⟨tree',e',ran,?_⟩
  rw [looked]
  exact (if_pos ⟨rfl,rfl⟩).trans same.symm

-- Every event finds what it needs in the tree it comes to. What does not fit its type ends the run.
def SoundAlong : Trees → List Call → Prop
  | _,[] => True
  | tree,c::calls => Sound tree c.build ∧ ∀ tree' e', processEvent tree c.build = .ok (tree',e') → SoundAlong tree' calls

theorem processAll_null (calls : List Call) (tree : Trees) :
    processAll tree calls ≠ .error .null ↔ SoundAlong tree calls := by
  induction calls generalizing tree with
  | nil =>
    refine iff_of_true (fun same => ?_) trivial
    cases same
  | cons c calls ih =>
    have one := process_null tree c
    rw [processAll,SoundAlong,←one]
    cases ran : processEvent tree c.build with
    | error fault =>
      refine ⟨fun whole => ⟨fun same => whole (congrArg (Except.bind · _) same),fun _ _ done => ?_⟩,
        fun both same => both.1 ?_⟩
      · cases done
      · cases fault with
        | null => rfl
        | range => cases same
    | ok r =>
      refine (ih r.1).trans ⟨fun later => ⟨fun same => ?_,fun tree' e' done => ?_⟩,fun both => both.2 r.1 r.2 rfl⟩
      · cases same
      · cases done
        exact later

-- A stat that is set to a number and counts within the widths of the conversions holds the exact
-- sum, whatever else the tree holds; no event but an unsound one meets a NULL, and no run without one.
theorem stats_arithmetic (tree : Trees) :
    (∀ source name z ops, Fits64 z → FairFrom z ops →
      ∃ tree', processAll tree (.event source (some name) (some (Decimal.ofInt z))::ops.map
      (·.call source name)) = .ok tree' ∧
        lookup tree' source name = some (Decimal.ofInt (z+total ops))) ∧
    (∀ c : Call, processEvent tree c.build ≠ .error .null ↔ Sound tree c.build) ∧
    ∀ calls, processAll tree calls ≠ .error .null ↔ SoundAlong tree calls := by
  refine ⟨fun source name z ops fits fair => ?_,process_null tree,fun calls => processAll_null calls tree⟩
  obtain ⟨tree',e',ran,there⟩ := set_step tree source name (Decimal.ofInt z)
  obtain ⟨tree'',ran',final⟩ := ops_exact ops tree' z fair fits there
  refine ⟨tree'',?_,final⟩
  rw [processAll,ran]
  exact ran'

-- Counts of a busy server, and a removed stat that is set again.
theorem stats_arithmetic_busy :
    (∃ tree, processAll empty
    (.event none (some [108]) (some (Decimal.ofInt 7))::[Op.inc,.add 1000000,.dec,.sub 900000000000].map
    (·.call none [108])) = .ok tree ∧
      lookup tree none [108] = some (Decimal.ofInt (-899998999993))) ∧
    processEvent empty (Call.add none (some [108]) 5).build ≠ .error .null := by
  have fair : FairFrom 7 [.inc,.add 1000000,.dec,.sub 900000000000] := by
    refine ⟨?_,?_,?_,?_,trivial⟩
    · exact ⟨by decide,by decide,by decide⟩
    · exact ⟨by decide,by decide,by decide⟩
    · exact ⟨by decide,by decide,by decide⟩
    · exact ⟨by decide,by decide,by decide⟩
  exact ⟨(stats_arithmetic empty).1 none [108] 7 _ ⟨by decide,by decide⟩ fair,
    ((stats_arithmetic empty).2.1 _).mpr (.inr (.inl rfl))⟩

-- A difference that does not fit its 16 bytes, a sum beyond an int, and INC on no stat.
theorem texts_cut :
    (processAll empty [.event none (some [108]) (some (Decimal.ofInt 0)),
    .sub none (some [108]) 1000000000000000]).map (lookup · none [108]) =
      .ok (some (Decimal.ofInt (-10000000000000))) ∧
    processAll empty [.event none (some [108]) (some (Decimal.ofInt 2147483647)),
    .inc none (some [108])] = .error .range ∧
    processAll empty [.inc none (some [108])] = .error .null := by
  refine ⟨by decide +kernel,by decide +kernel,by decide +kernel⟩

end Icecast.StatsArithmetic
