import Mathlib.Data.Nat.ModEq
import RCore.Lib.Comp

/-!
# User buffers

The buffers of `os/src/mm/page_table.rs` that a system call reads from or writes to: the pieces of
user memory they are made of, and the iterator over their bytes.
-/

namespace RCore.Mm

/-- A `&'static mut [u8]`: where it starts in physical memory, and its length. -/
structure Slice where
  start : Nat
  len : Nat
  deriving DecidableEq

/-- `UserBuffer` -/
structure UserBuffer where
  buffers : List Slice

namespace UserBuffer

/-- `UserBuffer::len` -/
def len (buf : UserBuffer) : Nat := (buf.buffers.map Slice.len).sum

end UserBuffer

/-- `UserBufferIterator` -/
structure UserBufferIterator where
  buffers : List Slice
  currentBuffer : Nat
  currentIdx : Nat

/-- `UserBuffer::into_iter` -/
def UserBuffer.intoIter (buf : UserBuffer) : UserBufferIterator where
  buffers := buf.buffers
  currentBuffer := 0
  currentIdx := 0

/-- `UserBufferIterator::next`: the address of a byte. The index into an empty slice is out of
bounds. -/
def UserBufferIterator.next {σ : Type} (it : UserBufferIterator) :
    Comp σ (Option Nat × UserBufferIterator) :=
  match it.buffers[it.currentBuffer]? with
  | none => return (none, it)
  | some b => do
    Comp.assert (it.currentIdx < b.len)
    let r := b.start + it.currentIdx
    if it.currentIdx + 1 = b.len then
      return (some r, { it with currentIdx := 0, currentBuffer := it.currentBuffer + 1 })
    else
      return (some r, { it with currentIdx := it.currentIdx + 1 })

/-! ## The bytes of a buffer -/

/-- The addresses of a slice. -/
def Slice.addresses (b : Slice) : List Nat := List.range' b.start b.len

/-- The addresses of a buffer, in order. -/
def UserBuffer.addresses (buf : UserBuffer) : List Nat := buf.buffers.flatMap Slice.addresses

theorem UserBuffer.length_addresses (buf : UserBuffer) : buf.addresses.length = buf.len := by
  rw [addresses, len, List.length_flatMap]
  congr 1
  apply List.map_congr_left
  intro b _
  rw [Slice.addresses, List.length_range']

namespace UserBufferIterator

variable {σ : Type}

/-- The addresses still to come. -/
def left (it : UserBufferIterator) : List Nat :=
  ((it.buffers.drop it.currentBuffer).flatMap Slice.addresses).drop it.currentIdx

theorem left_intoIter (buf : UserBuffer) : buf.intoIter.left = buf.addresses := rfl

/-- **The iterator yields the addresses one by one.** -/
theorem next_wlp (it : UserBufferIterator) (s : σ) : it.next.wlp (fun r s' => s' = s ∧
    r.2.buffers = it.buffers ∧ r.1 = it.left.head? ∧ r.2.left = it.left.tail ∧
      (r.1 = none → r.2 = it)) s := by
  rw [next]
  cases hb : it.buffers[it.currentBuffer]? with
  | none =>
    have hnil : it.buffers.drop it.currentBuffer = [] :=
      List.drop_eq_nil_of_le (List.getElem?_eq_none_iff.mp hb)
    simp only [Comp.wlp_pure]
    refine ⟨trivial, trivial, ?_, ?_, fun _ => trivial⟩
    · rw [left, hnil]
      simp
    · rw [left, hnil]
      simp
  | some b =>
    simp only [Comp.wlp_bind, Comp.wlp_assert]
    intro hlt
    obtain ⟨hi, rfl⟩ := List.getElem?_eq_some_iff.mp hb
    -- the rest of the current slice, and the slices after it
    have hcons : it.left = (it.buffers[it.currentBuffer].start + it.currentIdx) ::
        (List.range' (it.buffers[it.currentBuffer].start + it.currentIdx + 1)
          (it.buffers[it.currentBuffer].len - it.currentIdx - 1) ++
          (it.buffers.drop (it.currentBuffer + 1)).flatMap Slice.addresses) := by
      rw [left, List.drop_eq_getElem_cons hi, List.flatMap_cons, List.drop_append_of_le_length, Slice.addresses,
        List.drop_range', Nat.mul_one]
      · obtain ⟨n, hn⟩ := Nat.exists_eq_add_of_lt hlt
        have hsub : it.buffers[it.currentBuffer].len - it.currentIdx = n + 1 := by omega
        rw [hsub, List.range'_succ, List.cons_append, Nat.add_sub_cancel]
      · rw [Slice.addresses, List.length_range']
        omega
    split
    · next hend =>
      rw [Comp.wlp_pure]
      refine ⟨rfl, rfl, ?_, ?_, fun hc => by cases hc⟩
      · rw [hcons, List.head?_cons]
      · have hzero : it.buffers[it.currentBuffer].len - it.currentIdx - 1 = 0 := by omega
        rw [hcons, List.tail_cons, hzero, List.range'_zero, List.nil_append]
        rfl
    · rw [Comp.wlp_pure]
      refine ⟨rfl, rfl, ?_, ?_, fun hc => by cases hc⟩
      · rw [hcons, List.head?_cons]
      · rw [hcons, List.tail_cons, left]
        simp only
        rw [List.drop_eq_getElem_cons hi, List.flatMap_cons, List.drop_append_of_le_length, Slice.addresses,
          List.drop_range', Nat.mul_one, Nat.add_assoc, Nat.sub_sub]
        rw [Slice.addresses, List.length_range']
        omega

/-- No slice that is still to come is empty. -/
structure Ok (it : UserBufferIterator) : Prop where
  current : ∀ b, it.buffers[it.currentBuffer]? = some b → it.currentIdx < b.len
  nonempty : ∀ b ∈ it.buffers, 0 < b.len

theorem ok_intoIter {buf : UserBuffer} (h : ∀ b ∈ buf.buffers, 0 < b.len) : buf.intoIter.Ok :=
  ⟨fun b hb => h b (List.mem_of_getElem? hb), h⟩

/-- Such an iterator does not panic. -/
theorem next_ok {it : UserBufferIterator} (h : it.Ok) (s : σ) : it.next.wp (fun r _ => r.2.Ok) s := by
  rw [next]
  cases hb : it.buffers[it.currentBuffer]? with
  | none =>
    simp only [Comp.wp_pure]
    exact h
  | some b =>
    have hlt := h.current b hb
    simp only [Comp.wp_bind, Comp.wp_assert]
    refine ⟨hlt, ?_⟩
    split
    · rw [Comp.wp_pure]
      exact ⟨fun c hc => h.nonempty c (List.mem_of_getElem? hc), h.nonempty⟩
    · next hne =>
      rw [Comp.wp_pure]
      refine ⟨fun c hc => ?_, h.nonempty⟩
      have hcb : b = c := Option.some.inj (hb.symm.trans hc)
      subst hcb
      show it.currentIdx + 1 < b.len
      omega

end UserBufferIterator

end RCore.Mm
