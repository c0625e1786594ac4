import Mathlib.Data.List.Basic

namespace Bytes

abbrev Text := List UInt8

-- The bytes of an ASCII literal, without the terminating NUL.
def ascii (text : String) : List UInt8 := text.toList.map fun c => UInt8.ofNat c.toNat

-- The C string that starts at the head of a buffer.
def cstr (buf : List UInt8) : List UInt8 := buf.takeWhile (· ≠ 0)

-- strstr: the rest of the string from the first occurrence of the pattern.
def strstr (pattern : List UInt8) : List UInt8 → Option (List UInt8)
  | [] => if pattern = [] then some [] else none
  | hay@(_::rest) => if pattern.isPrefixOf hay then some hay else strstr pattern rest

-- The part of a buffer a read of `count` bytes at `offset` sees; none reads outside.
def slice (buf : List UInt8) (offset count : Nat) : Option (List UInt8) :=
  if offset+count ≤ buf.length then some ((buf.drop offset).take count) else none

-- memcpy of a block into a buffer at an offset; none writes outside.
def memcpy (dst : List UInt8) (offset : Nat) (block : List UInt8) : Option (List UInt8) :=
  if offset+block.length ≤ dst.length then
    some (dst.take offset++block++dst.drop (offset+block.length))
  else none

-- memmove inside one buffer.
def memmove (buf : List UInt8) (dst src count : Nat) : Option (List UInt8) :=
  (slice buf src count).bind (memcpy buf dst)

-- snprintf of an already expanded text; the terminating NUL is written too.
def snprintf (buf : List UInt8) (offset room : Nat) (text : List UInt8) : Option (List UInt8) :=
  if room = 0 then some buf else memcpy buf offset (text.take (room-1)++[0])

theorem slice_eq (fits : offset+count ≤ buf.length) :
    slice buf offset count = some ((buf.drop offset).take count) := if_pos fits

theorem length_slice (read : slice buf offset count = some block) : block.length = count := by
  unfold slice at read
  split at read
  · rename_i fits
    cases Option.some.inj read
    simp only [List.length_take,List.length_drop]
    omega
  · cases read

theorem memcpy_eq (fits : offset+block.length ≤ dst.length) :
    memcpy dst offset block = some (dst.take offset++block++dst.drop (offset+block.length)) := if_pos fits

theorem length_memcpy (wrote : memcpy dst offset block = some next) : next.length = dst.length := by
  unfold memcpy at wrote
  split at wrote
  · rename_i fits
    cases Option.some.inj wrote
    simp only [List.length_append,List.length_take,List.length_drop]
    omega
  · cases wrote

theorem take_memcpy (wrote : memcpy dst offset block = some next) :
    next.take (offset+block.length) = dst.take offset++block := by
  unfold memcpy at wrote
  split at wrote
  · rename_i fits
    cases Option.some.inj wrote
    have width : (dst.take offset++block).length = offset+block.length := by
      simp only [List.length_append,List.length_take]
      omega
    rw [←width,List.take_left']
    rfl
  · cases wrote

theorem memcpy_append (fits : block.length ≤ rest.length) :
    memcpy (front++rest) front.length block = some (front++block++rest.drop block.length) := by
  rw [memcpy_eq (by rw [List.length_append]; omega),List.take_left,List.drop_length_add_append]

theorem memmove_total (inside : dst+count ≤ buf.length) (fits : src+count ≤ buf.length) :
    ∃ next, memmove buf dst src count = some next := by
  have width : ((buf.drop src).take count).length = count := length_slice (slice_eq fits)
  rw [memmove,slice_eq fits,Option.bind_some,memcpy_eq (by omega)]
  exact ⟨_,rfl⟩

theorem memmove_spec (moved : memmove buf dst src count = some next) :
    next.length = buf.length ∧ next.take (dst+count) = buf.take dst++(buf.drop src).take count := by
  obtain ⟨block,read,wrote⟩ := Option.bind_eq_some_iff.mp moved
  have width := length_slice read
  unfold slice at read
  split at read
  · cases Option.some.inj read
    have front := take_memcpy wrote
    rw [width] at front
    exact ⟨length_memcpy wrote,front⟩
  · cases read

theorem snprintf_total (text : List UInt8) (inside : offset+room ≤ buf.length) :
    ∃ next, snprintf buf offset room text = some next := by
  unfold snprintf
  split
  · exact ⟨buf,rfl⟩
  · refine ⟨_,memcpy_eq ?_⟩
    simp only [List.length_append,List.length_take,List.length_singleton]
    omega

theorem length_snprintf (printed : snprintf buf offset room text = some next) : next.length = buf.length := by
  unfold snprintf at printed
  split at printed
  · rw [Option.some.inj printed]
  · exact length_memcpy printed

theorem strstr_spec (found : strstr pattern text = some rest) : rest <:+ text ∧ pattern <+: rest := by
  induction text with
  | nil =>
    unfold strstr at found
    split at found
    · rename_i none_left
      cases found
      exact ⟨List.suffix_refl [],none_left ▸ List.prefix_refl []⟩
    · cases found
  | cons b text ih =>
    unfold strstr at found
    split at found
    · rename_i here
      cases found
      exact ⟨List.suffix_refl _,List.isPrefixOf_iff_prefix.mp here⟩
    · obtain ⟨behind,starts⟩ := ih found
      exact ⟨behind.trans (List.suffix_cons b text),starts⟩

theorem snprintf_zeros (front text : List UInt8) (room : Nat) :
    snprintf (front++List.replicate room 0) front.length room text =
      some (front++text.take (room-1)++List.replicate (room-(text.take (room-1)).length) 0) := by
  have short : (text.take (room-1)).length ≤ room-1 := List.length_take_le _ _
  unfold snprintf
  split
  · rename_i empty
    subst empty
    simp
  · rename_i positive
    have width : (text.take (room-1)++[0]).length = (text.take (room-1)).length+1 := by
      rw [List.length_append,List.length_singleton]
    rw [memcpy_append (by rw [width,List.length_replicate]; omega),width,List.drop_replicate,
      show room-(text.take (room-1)).length = (room-((text.take (room-1)).length+1))+1 by omega,List.replicate_succ]
    simp only [List.append_assoc,List.singleton_append]

theorem take_snprintf (wrote : snprintf buf offset room text = some next) (fits : text.length < room) :
    next.take (offset+text.length) = buf.take offset++text := by
  unfold snprintf at wrote
  rw [if_neg (by omega),List.take_of_length_le (by omega)] at wrote
  have inside : offset ≤ buf.length := by
    unfold memcpy at wrote
    split at wrote
    · omega
    · cases wrote
  have front := congrArg (List.take (offset+text.length)) (take_memcpy wrote)
  have width : (buf.take offset++text).length = offset+text.length := by
    rw [List.length_append,List.length_take,Nat.min_eq_left inside]
  rw [List.take_take,← List.append_assoc,← width,List.take_left,width,List.length_append,
    Nat.min_eq_left (by omega)] at front
  exact front

theorem cstr_whole {text : List UInt8} (clean : 0 ∉ text) : cstr text = text := by
  have whole : ∀ b ∈ text, decide (b ≠ 0) = true := fun b member => decide_eq_true fun zero :
    b = 0 => clean (zero ▸ member)
  unfold cstr
  rw [←List.append_nil text,List.takeWhile_append_of_pos whole]
  rfl

theorem cstr_stop {front back : List UInt8} : cstr (front++0::back) = cstr front := by
  induction front with
  | nil => rfl
  | cons c front ih =>
    unfold cstr at ih ⊢
    simp only [List.cons_append,List.takeWhile_cons,ih]

theorem cstr_nuls {text nuls : List UInt8} (zero : ∀ c ∈ nuls, c = 0) : cstr (text++nuls) = cstr text := by
  cases nuls with
  | nil => rw [List.append_nil]
  | cons c nuls =>
    rw [zero c List.mem_cons_self]
    exact cstr_stop

theorem cstr_padded {text : List UInt8} (clean : 0 ∉ text) (n : Nat) : cstr (text++List.replicate n 0) = text :=
  (cstr_nuls fun _ => List.eq_of_mem_replicate).trans (cstr_whole clean)

theorem snprintf_head (printed : snprintf buf (offset+1) room text = some next) : next.head? = buf.head? := by
  unfold snprintf at printed
  split at printed
  · rw [Option.some.inj printed]
  · unfold memcpy at printed
    split at printed
    · rename_i fits
      cases Option.some.inj printed
      cases buf with
      | nil =>
        rw [List.length_nil] at fits
        omega
      | cons _ _ => rfl
    · cases printed

end Bytes
