import RCore.Lib.Mem

/-!
# Strings pushed below an array of pointers

A list of strings is stored in a memory, each with a final NUL, one below the other from an address
downwards; their addresses go into an array of words above them. What is laid out stays as long as the
addresses of the strings and of the array are left alone.
-/

namespace RCore.Mem

variable {m m' : Mem} {slot top : Nat} {b : UInt8} {bs : List UInt8} {strings : List (List UInt8)}

/-- The bytes that strings take. -/
def stringsSize (strings : List (List UInt8)) : Nat := (strings.map fun string => string.length + 1).sum

/-- The addresses of strings pushed from `top` downwards. -/
def stringsBelow (top : Nat) : List (List UInt8) → List Nat
  | [] => []
  | string :: strings => (top - (string.length + 1)) :: stringsBelow (top - (string.length + 1)) strings

/-- Push strings from `top` downwards, and their addresses from `slot` upwards. -/
def pushStrings (m : Mem) (slot top : Nat) : List (List UInt8) → Mem
  | [] => m
  | string :: strings =>
    pushStrings ((m.setWord 8 slot (top - (string.length + 1))).write (top - (string.length + 1)) (string ++ [0]))
      (slot + 8) (top - (string.length + 1)) strings

/-- The strings are there, and their addresses. -/
def Laid (m : Mem) : Nat → Nat → List (List UInt8) → Prop
  | _, _, [] => True
  | slot, top, string :: strings =>
    m.word 8 slot = top - (string.length + 1) ∧
      m.bytes (top - (string.length + 1)) (string.length + 1) = string ++ [0] ∧
      Laid m (slot + 8) (top - (string.length + 1)) strings

theorem stringsSize_cons (string : List UInt8) (strings : List (List UInt8)) :
    stringsSize (string :: strings) = string.length + 1 + stringsSize strings := by
  rw [stringsSize, List.map_cons, List.sum_cons]
  rfl

theorem length_stringsBelow (top : Nat) (strings : List (List UInt8)) :
    (stringsBelow top strings).length = strings.length := by
  induction strings generalizing top with
  | nil => rfl
  | cons string strings ih => rw [stringsBelow, List.length_cons, List.length_cons, ih]

/-! ## Stores -/

theorem pushStrings_of_not_mem {x : Nat} (hroom : stringsSize strings ≤ top)
    (hx : x < top - stringsSize strings ∨ top ≤ x) (hslot : x < slot ∨ slot + 8 * strings.length ≤ x) :
    m.pushStrings slot top strings x = m x := by
  induction strings generalizing m slot top with
  | nil => rfl
  | cons string strings ih =>
    rw [stringsSize_cons] at hroom hx
    rw [List.length_cons] at hslot
    rw [pushStrings, ih (by omega) (by omega) (by omega)]
    rw [write_of_not_mem, setWord_of_not_mem]
    · omega
    · rw [List.length_append, List.length_singleton]
      omega

/-- **What is pushed is laid out**, if the strings stay below the array. -/
theorem laid_pushStrings (hroom : stringsSize strings ≤ top) (hle : top ≤ slot) (hlt : top < 256 ^ 8) :
    (m.pushStrings slot top strings).Laid slot top strings := by
  induction strings generalizing m slot top with
  | nil => trivial
  | cons string strings ih =>
    rw [stringsSize_cons] at hroom
    refine ⟨?_, ?_, ih (by omega) (by omega) (by omega)⟩
    · rw [pushStrings, word_congr (m := m.setWord 8 slot (top - (string.length + 1))), word_setWord_same,
        Nat.mod_eq_of_lt (by omega)]
      intro j hj
      rw [pushStrings_of_not_mem (by omega) (by omega) (by omega)]
      apply write_of_not_mem
      rw [List.length_append, List.length_singleton]
      omega
    · have hlen : (string ++ [0]).length = string.length + 1 := by
        rw [List.length_append, List.length_singleton]
      have hback := bytes_write_same (m.setWord 8 slot (top - (string.length + 1)))
        (top - (string.length + 1)) (string ++ [0])
      rw [hlen] at hback
      refine (bytes_congr fun j hj => ?_).trans hback
      rw [pushStrings]
      exact pushStrings_of_not_mem (by omega) (by omega) (by omega)

/-! ## What is laid out -/

theorem stringsBelow_bounds (hroom : stringsSize strings ≤ top) {i : Nat} {p : Nat} {string : List UInt8}
    (hp : (stringsBelow top strings)[i]? = some p) (hs : strings[i]? = some string) :
    top - stringsSize strings ≤ p ∧ p + (string.length + 1) ≤ top := by
  induction strings generalizing top i with
  | nil => cases hs
  | cons head strings ih =>
    rw [stringsSize_cons] at hroom ⊢
    cases i with
    | zero =>
      cases hp
      cases hs
      omega
    | succ i =>
      have hi := ih (by omega) hp hs
      omega

theorem Laid.get (h : m.Laid slot top strings) {i p : Nat} {string : List UInt8}
    (hp : (stringsBelow top strings)[i]? = some p) (hs : strings[i]? = some string) :
    m.word 8 (slot + 8 * i) = p ∧ m.bytes p (string.length + 1) = string ++ [0] := by
  induction strings generalizing slot top i with
  | nil => cases hs
  | cons head strings ih =>
    obtain ⟨hword, hbytes, hrest⟩ := h
    cases i with
    | zero =>
      cases hp
      cases hs
      exact ⟨hword, hbytes⟩
    | succ i =>
      have hi := ih hrest hp hs
      rw [Nat.add_assoc, Nat.add_comm 8] at hi
      exact hi

/-- The strings do not overlap. -/
theorem pairwise_stringsBelow (hroom : stringsSize strings ≤ top) :
    ((stringsBelow top strings).zip strings).Pairwise fun p q => q.1 + (q.2.length + 1) ≤ p.1 := by
  induction strings generalizing top with
  | nil => exact List.Pairwise.nil
  | cons string strings ih =>
    rw [stringsSize_cons] at hroom
    refine List.Pairwise.cons ?_ (ih (by omega))
    intro q hq
    obtain ⟨i, hi⟩ := List.mem_iff_getElem?.mp hq
    obtain ⟨hp, hs⟩ := List.getElem?_zip_eq_some.mp hi
    exact (stringsBelow_bounds (by omega) hp hs).2

end RCore.Mem
