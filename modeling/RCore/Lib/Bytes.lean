import Mathlib.Data.List.Basic
import Mathlib.Data.List.Nodup
import Mathlib.Data.List.Range
import Mathlib.Data.List.Perm.Basic
import Mathlib.Data.List.Perm.Lattice
import Mathlib.Data.Nat.Bitwise
import Mathlib.Logic.Function.Basic
import Mathlib.Tactic.Linarith
import Mathlib.Tactic.Ring

/-!
# Fixed-size byte arrays

A disk block and a physical frame are arrays of bytes that the code reads and writes through casts:
as bytes, as little-endian words, as packed records. `Bytes n` is such an array; `slice` and
`splice` are the two byte-level accesses, `word` and `setWord` the little-endian ones. Every access
outside the array reads zero and writes nothing, so the bounds stand in the lemmas and not in the
operations; the callers check them where the code does.
-/

namespace RCore

/-! ## Little-endian numbers -/

/-- The number a little-endian byte string denotes. -/
def leDecode : List UInt8 → Nat
  | [] => 0
  | b :: bs => b.toNat + 256 * leDecode bs

/-- The `w` low bytes of a number, least significant first. -/
def leEncode : Nat → Nat → List UInt8
  | 0, _ => []
  | w + 1, v => UInt8.ofNat v :: leEncode w (v / 256)

@[simp] theorem leEncode_length (w v : Nat) : (leEncode w v).length = w := by
  induction w generalizing v with
  | zero => rfl
  | succ w ih => simp [leEncode, ih]

theorem leDecode_lt (bs : List UInt8) : leDecode bs < 256 ^ bs.length := by
  induction bs with
  | nil => simp [leDecode]
  | cons b bs ih =>
    have hb : b.toNat < 256 := b.toNat_lt
    simp only [leDecode, List.length_cons, pow_succ]
    omega

theorem leDecode_leEncode (w v : Nat) : leDecode (leEncode w v) = v % 256 ^ w := by
  induction w generalizing v with
  | zero => simp [leEncode, leDecode, Nat.mod_one]
  | succ w ih =>
    have hb : (UInt8.ofNat v).toNat = v % 256 := by simp
    simp only [leEncode, leDecode, ih, hb]
    rw [pow_succ, Nat.mul_comm (256 ^ w) 256, Nat.mod_mul]

/-- Strings of one length denote different numbers. -/
theorem leDecode_inj {as bs : List UInt8} (hlen : as.length = bs.length) (h : leDecode as = leDecode bs) : as = bs := by
  induction as generalizing bs with
  | nil => exact (List.length_eq_zero_iff.mp hlen.symm).symm
  | cons a as ih =>
    cases bs with
    | nil => cases hlen
    | cons b bs =>
      have ha : a.toNat < 256 := a.toNat_lt
      have hb : b.toNat < 256 := b.toNat_lt
      simp only [leDecode] at h
      rw [ih (Nat.succ.inj hlen) (by omega), UInt8.toNat_inj.mp (by omega : a.toNat = b.toNat)]

/-- Bytes that are all zero denote zero. -/
theorem leDecode_replicate_zero (w : Nat) : leDecode (List.replicate w 0) = 0 := by
  induction w with
  | zero => rfl
  | succ w ih => simp [List.replicate_succ, leDecode, ih]

/-! ## Packed records -/

section Packed

variable {α β : Type} {f : α → List β} {w : Nat} (hw : ∀ a, (f a).length = w)
include hw

theorem length_flatMap_packed (l : List α) : (l.flatMap f).length = w * l.length := by
  induction l with
  | nil => rfl
  | cons a l ih =>
    rw [List.flatMap_cons, List.length_append, hw, ih, List.length_cons]
    ring

/-- Record `k` of a list of packed records. -/
theorem take_drop_flatMap_packed (l : List α) (t : List β) {k : Nat} (hk : k < l.length) :
    ((l.flatMap f ++ t).drop (w * k)).take w = f l[k] := by
  induction l generalizing k with
  | nil => exact absurd hk (Nat.not_lt_zero k)
  | cons a l ih =>
    cases k with
    | zero =>
      rw [Nat.mul_zero, List.drop_zero, List.flatMap_cons, List.append_assoc]
      exact List.take_left' (hw a)
    | succ k =>
      rw [List.flatMap_cons, List.append_assoc, show w * (k + 1) = w + w * k by ring,
        ← List.drop_drop, List.drop_left' (hw a), ih (Nat.lt_of_succ_lt_succ hk)]
      rfl

end Packed

/-- A map that never fails. -/
theorem mapM_some {α β : Type} {f : α → Option β} {g : α → β} {l : List α} (h : ∀ x ∈ l, f x = some (g x)) :
    l.mapM f = some (l.map g) := by
  induction l with
  | nil => rfl
  | cons x l ih =>
    rw [List.mapM_cons, h x List.mem_cons_self, ih fun y hy => h y (List.mem_cons_of_mem _ hy)]
    rfl

/-- A map that does not fail goes through the list. -/
theorem mapM_eq_some {α β : Type} {f : α → Option β} {l : List α} {l' : List β} :
    l.mapM f = some l' ↔ List.Forall₂ (fun x y => f x = some y) l l' := by
  induction l generalizing l' with
  | nil => simp [eq_comm]
  | cons x l ih =>
    rw [List.mapM_cons, List.forall₂_cons_left_iff]
    constructor
    · intro h
      obtain ⟨y, hy, hrest⟩ := Option.bind_eq_some_iff.mp h
      obtain ⟨ys, hys, hcons⟩ := Option.bind_eq_some_iff.mp hrest
      cases hcons
      exact ⟨y, ys, hy, ih.mp hys, rfl⟩
    · rintro ⟨y, ys, hy, hys, rfl⟩
      rw [hy, ih.mpr hys]
      rfl

/-- An array of `n` bytes. -/
abbrev Bytes (n : Nat) := Vector UInt8 n

namespace Bytes

variable {n : Nat}

/-- The byte at position `i`, zero outside the array. -/
def byte (b : Bytes n) (i : Nat) : UInt8 := b[i]?.getD 0

/-- The array of zeros. -/
def zero (n : Nat) : Bytes n := Vector.replicate n 0

/-- The `len` bytes from `off` on. -/
def slice (b : Bytes n) (off len : Nat) : List UInt8 :=
  (List.range len).map fun k => b.byte (off + k)

/-- Overwrite the bytes from `off` on with `src`. -/
def splice (b : Bytes n) (off : Nat) (src : List UInt8) : Bytes n :=
  Vector.ofFn fun i => if off ≤ i ∧ i < off + src.length then src.getD (i - off) 0 else b[i]

/-- The little-endian number in the `w` bytes from `off` on. -/
def word (w : Nat) (b : Bytes n) (off : Nat) : Nat := leDecode (b.slice off w)

/-- Overwrite the `w` bytes from `off` on with a little-endian number. -/
def setWord (w : Nat) (b : Bytes n) (off v : Nat) : Bytes n := b.splice off (leEncode w v)

@[simp] theorem byte_zero (i : Nat) : (zero n).byte i = 0 := by
  unfold byte zero
  by_cases h : i < n <;> simp [h]

theorem ext_byte {a b : Bytes n} (h : ∀ i, i < n → a.byte i = b.byte i) : a = b := by
  apply Vector.ext
  intro i hi
  simpa [byte, hi] using h i hi

theorem byte_splice (b : Bytes n) (off : Nat) (src : List UInt8) (i : Nat) :
    (b.splice off src).byte i =
      if off ≤ i ∧ i < off + src.length ∧ i < n then src.getD (i - off) 0 else b.byte i := by
  by_cases hi : i < n
  · simp only [byte, splice, hi, and_true, Option.getD_some, Vector.getElem?_eq_getElem,
      Vector.getElem_ofFn]
    rfl
  · simp [byte, splice, hi]

theorem byte_splice_of_lt (b : Bytes n) {off i : Nat} {src : List UInt8}
    (h : i < off ∨ off + src.length ≤ i) : (b.splice off src).byte i = b.byte i := by
  rw [byte_splice, if_neg (by omega)]

@[simp] theorem splice_nil (b : Bytes n) (off : Nat) : b.splice off [] = b := by
  apply ext_byte
  intro i _
  rw [byte_splice_of_lt]
  simp only [List.length_nil]
  omega

@[simp] theorem slice_length (b : Bytes n) (off len : Nat) : (b.slice off len).length = len := by
  simp [slice]

/-- A slice depends only on the bytes of its range. -/
theorem slice_congr {m : Nat} {a : Bytes n} {b : Bytes m} {off off' len : Nat}
    (h : ∀ k, k < len → a.byte (off + k) = b.byte (off' + k)) :
    a.slice off len = b.slice off' len := by
  unfold slice
  apply List.map_congr_left
  intro k hk
  exact h k (List.mem_range.mp hk)

theorem slice_splice_same (b : Bytes n) {off : Nat} {src : List UInt8}
    (h : off + src.length ≤ n) : (b.splice off src).slice off src.length = src := by
  apply List.ext_getElem
  · simp
  · intro k hk hk'
    simp only [slice, List.getElem_map, List.getElem_range]
    rw [byte_splice, if_pos (by omega)]
    simp [hk']

theorem slice_splice_disjoint (b : Bytes n) {off off' len : Nat} {src : List UInt8}
    (h : off' + len ≤ off ∨ off + src.length ≤ off') :
    (b.splice off src).slice off' len = b.slice off' len :=
  slice_congr fun k hk => byte_splice_of_lt b (by omega)

theorem word_lt (w : Nat) (b : Bytes n) (off : Nat) : word w b off < 256 ^ w := by
  simpa [word] using leDecode_lt (b.slice off w)

@[simp] theorem word_zero (w off : Nat) : word w (zero n) off = 0 := by
  have hs : (zero n).slice off w = List.replicate w 0 := by
    simp [slice, List.map_const']
  rw [word, hs, leDecode_replicate_zero]

theorem word_setWord_same (w : Nat) (b : Bytes n) {off v : Nat} (h : off + w ≤ n) :
    word w (setWord w b off v) off = v % 256 ^ w := by
  have hs : (b.splice off (leEncode w v)).slice off (leEncode w v).length = leEncode w v :=
    slice_splice_same b (by simpa using h)
  simp only [leEncode_length] at hs
  rw [word, setWord, hs, leDecode_leEncode]

theorem word_splice_disjoint (w : Nat) (b : Bytes n) {off off' : Nat} {src : List UInt8}
    (h : off' + w ≤ off ∨ off + src.length ≤ off') :
    word w (b.splice off src) off' = word w b off' := by
  rw [word, word, slice_splice_disjoint b h]

theorem word_setWord_disjoint (w w' : Nat) (b : Bytes n) {off off' v : Nat}
    (h : off' + w' ≤ off ∨ off + w ≤ off') :
    word w' (setWord w b off v) off' = word w' b off' :=
  word_splice_disjoint w' b (by simpa using h)

/-- Two words of one array of words: writing entry `j` changes entry `j` alone. -/
theorem word_setWord_entry (w : Nat) (b : Bytes n) {j k v : Nat} (hj : w * j + w ≤ n) :
    word w (setWord w b (w * j) v) (w * k) =
      if k = j then v % 256 ^ w else word w b (w * k) := by
  by_cases h : k = j
  · subst h
    rw [if_pos rfl, word_setWord_same w b hj]
  · rw [if_neg h, word_setWord_disjoint]
    rcases Nat.lt_or_gt_of_ne h with h | h
    · left
      calc w * k + w = w * (k + 1) := by ring
        _ ≤ w * j := Nat.mul_le_mul_left w h
    · right
      calc w * j + w = w * (j + 1) := by ring
        _ ≤ w * k := Nat.mul_le_mul_left w h

end Bytes

end RCore
