import RCore.Lib.Bytes

/-!
# Byte-addressed memory

A memory is a function from addresses to bytes. Words are stored little-endian at any address and
may cross every boundary the caller has in mind; the lemmas say which addresses a store leaves
alone.
-/

namespace RCore

/-- A memory of bytes. -/
abbrev Mem := Nat → UInt8

namespace Mem

/-- The `n` bytes from `a` on. -/
def bytes (m : Mem) (a n : Nat) : List UInt8 := (List.range n).map fun k => m (a + k)

/-- Overwrite the bytes from `a` on. -/
def write (m : Mem) (a : Nat) (bs : List UInt8) : Mem :=
  fun x => if a ≤ x ∧ x < a + bs.length then bs.getD (x - a) 0 else m x

/-- The little-endian number in the `w` bytes from `a` on. -/
def word (w : Nat) (m : Mem) (a : Nat) : Nat := leDecode (m.bytes a w)

/-- Overwrite the `w` bytes from `a` on with a little-endian number. -/
def setWord (w : Nat) (m : Mem) (a v : Nat) : Mem := m.write a (leEncode w v)

variable {m m' : Mem} {a b n w v : Nat}

@[simp] theorem bytes_length (m : Mem) (a n : Nat) : (m.bytes a n).length = n := by
  simp [bytes]

theorem bytes_congr (h : ∀ k, k < n → m' (b + k) = m (a + k)) : m'.bytes b n = m.bytes a n := by
  unfold bytes
  apply List.map_congr_left
  intro k hk
  exact h k (List.mem_range.mp hk)

theorem word_congr (h : ∀ k, k < w → m' (b + k) = m (a + k)) : m'.word w b = m.word w a := by
  unfold word
  rw [bytes_congr h]

/-- Words are equal if and only if their bytes are. -/
theorem word_eq_iff : m'.word w b = m.word w a ↔ ∀ k < w, m' (b + k) = m (a + k) := by
  refine ⟨fun h k hk => ?_, word_congr⟩
  have hbytes : m'.bytes b w = m.bytes a w := leDecode_inj (by rw [bytes_length, bytes_length]) h
  have hall := List.map_inj_left.mp hbytes
  exact hall k (List.mem_range.mpr hk)

theorem write_of_not_mem {bs : List UInt8} {x : Nat} (h : x < a ∨ a + bs.length ≤ x) :
    m.write a bs x = m x := by
  unfold write
  rw [if_neg (by omega)]

theorem write_of_mem {bs : List UInt8} {k : Nat} (h : k < bs.length) :
    m.write a bs (a + k) = bs.getD k 0 := by
  unfold write
  rw [if_pos (by omega), Nat.add_sub_cancel_left]

theorem write_getElem {bs : List UInt8} {k : Nat} (h : k < bs.length) : m.write a bs (a + k) = bs[k] := by
  rw [write_of_mem h, List.getD_eq_getElem?_getD, List.getElem?_eq_getElem h, Option.getD_some]

/-- A store of two lists is one of each. -/
theorem write_append (m : Mem) (a : Nat) (bs cs : List UInt8) :
    m.write a (bs ++ cs) = (m.write a bs).write (a + bs.length) cs := by
  funext x
  unfold write
  rw [List.length_append]
  by_cases hcs : a + bs.length ≤ x ∧ x < a + bs.length + cs.length
  · rw [if_pos (by omega), if_pos hcs, List.getD_eq_getElem?_getD, List.getElem?_append_right (by omega),
      List.getD_eq_getElem?_getD, Nat.sub_sub]
  · rw [if_neg hcs]
    by_cases hbs : a ≤ x ∧ x < a + bs.length
    · rw [if_pos (by omega), if_pos hbs, List.getD_eq_getElem?_getD, List.getElem?_append_left (by omega),
        List.getD_eq_getElem?_getD]
    · rw [if_neg (by omega), if_neg hbs]

/-- A store of what is there changes nothing. -/
theorem write_eq_self {bs : List UInt8} (h : ∀ k (hk : k < bs.length), m (a + k) = bs[k]) : m.write a bs = m := by
  funext x
  by_cases hx : a ≤ x ∧ x < a + bs.length
  · obtain ⟨k, rfl⟩ := Nat.exists_eq_add_of_le hx.1
    have hk : k < bs.length := by omega
    rw [write_of_mem hk, h k hk, List.getD_eq_getElem?_getD, List.getElem?_eq_getElem hk, Option.getD_some]
  · exact write_of_not_mem (by omega)

theorem bytes_write_same (m : Mem) (a : Nat) (bs : List UInt8) :
    (m.write a bs).bytes a bs.length = bs := by
  apply List.ext_getElem
  · simp
  · intro k hk hk'
    simp only [bytes, List.getElem_map, List.getElem_range]
    rw [write_of_mem hk']
    simp [hk']

/-- A part of what has been stored. -/
theorem bytes_write {bs : List UInt8} {o : Nat} (h : o + n ≤ bs.length) :
    (m.write a bs).bytes (a + o) n = (bs.drop o).take n := by
  apply List.ext_getElem
  · rw [bytes_length, List.length_take, List.length_drop]
    omega
  · intro k hk _
    rw [bytes_length] at hk
    have hin : o + k < bs.length := by omega
    simp only [bytes, List.getElem_map, List.getElem_range, List.getElem_take, List.getElem_drop]
    rw [Nat.add_assoc, write_of_mem hin, List.getD_eq_getElem?_getD, List.getElem?_eq_getElem hin, Option.getD_some]

/-- A word of a list of words that has been stored. -/
theorem word_write_packed {ws : List Nat} {i : Nat} (hi : i < ws.length) :
    (m.write a (ws.flatMap (leEncode w))).word w (a + w * i) = ws[i] % 256 ^ w := by
  have hfits : w * i + w ≤ (ws.flatMap (leEncode w)).length := by
    rw [length_flatMap_packed (leEncode_length w), ← Nat.mul_succ]
    exact Nat.mul_le_mul_left w hi
  have hslice := take_drop_flatMap_packed (leEncode_length w) ws [] hi
  rw [List.append_nil] at hslice
  rw [word, bytes_write hfits, hslice, leDecode_leEncode]

theorem setWord_of_not_mem {x : Nat} (h : x < a ∨ a + w ≤ x) : m.setWord w a v x = m x := by
  apply write_of_not_mem
  rw [leEncode_length]
  exact h

theorem word_setWord_same (m : Mem) (a w v : Nat) : (m.setWord w a v).word w a = v % 256 ^ w := by
  unfold word setWord
  have hb := bytes_write_same m a (leEncode w v)
  rw [leEncode_length] at hb
  rw [hb, leDecode_leEncode]

theorem word_setWord_of_disjoint (h : b + n ≤ a ∨ a + w ≤ b) :
    (m.setWord w a v).word n b = m.word n b := by
  apply word_congr
  intro k hk
  apply setWord_of_not_mem
  omega

theorem word_lt (m : Mem) (w a : Nat) : m.word w a < 256 ^ w := by
  have h := leDecode_lt (m.bytes a w)
  rwa [bytes_length] at h

theorem word_zero (h : ∀ k, k < w → m (a + k) = 0) : m.word w a = 0 := by
  have hb : m.bytes a w = List.replicate w 0 := by
    apply List.ext_getElem
    · simp
    · intro k hk _
      simp only [bytes, List.getElem_map, List.getElem_range, List.getElem_replicate]
      exact h k (by simpa using hk)
  unfold word
  rw [hb, leDecode_replicate_zero]

end Mem

/-! ## Sizes

A numeral of `Fin n` is the same term in every module if that `n` is not zero has a name.
-/

instance neZero_32 : NeZero (32 : Nat) := ⟨by decide⟩

instance neZero_512 : NeZero (512 : Nat) := ⟨by decide⟩

end RCore
