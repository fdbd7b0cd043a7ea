import RCore.Mm.Verify.Starved
import RCore.Mm.Verify.UserStack

/-!
# Structures in user memory

A system call translates the address of a structure once and stores the whole structure at the physical
address. Behind the end of a page that is another frame than the next page's, unless the two frames follow
each other.
-/

namespace RCore.Mm

variable {L : Layout} {rest : List Nat} {s s' : Phys} {ms : MemorySet} {m m' : Mem} {p i size : Nat}
  {e e' : PageTableEntry} {bs : List UInt8}

/-! ## The claim and its condition -/

/-- The page behind that of `p`. -/
def nextPage (p : Nat) : Nat := pageOf (usizeAdd p (4096 - p % 4096))

/-- All pages that `size` bytes at `p` meet are mapped. -/
def MappedAt (m : Mem) (ms : MemorySet) (p size : Nat) : Prop :=
  ∀ i < size, ms.translate m (pageOf (usizeAdd p i)) ≠ none

/-- The bytes `bs` have been copied to the virtual addresses from `p` on, and nothing else has changed. -/
structure CopiedOut (m m' : Mem) (ms : MemorySet) (p : Nat) (bs : List UInt8) : Prop where
  bytes : ∀ i (hi : i < bs.length), userByte m' (PageTable.fromToken ms.token) (usizeAdd p i) = some bs[i]
  frame : ∀ x, (∀ i < bs.length,
    (PageTable.fromToken ms.token).translateVa m (VirtAddr.ofUsize (usizeAdd p i)) ≠ some x) → m' x = m x

/-- The frames of the page of `p` and of the next page follow each other. -/
def FramesFollow (m : Mem) (ms : MemorySet) (p : Nat) : Prop :=
  ∃ e e', ms.translate m (pageOf p) = some e ∧ ms.translate m (nextPage p) = some e' ∧ e'.ppn = e.ppn + 1

/-- What belongs on the next page is there already, and also in the frame behind that of the page of `p`. -/
def AlreadyThere (m : Mem) (ms : MemorySet) (p : Nat) (bs : List UInt8) : Prop :=
  ∃ e e', ms.translate m (pageOf p) = some e ∧ ms.translate m (nextPage p) = some e' ∧
    ∀ j (hj : 4096 - p % 4096 + j < bs.length), m (e'.ppn * 4096 + j) = bs[4096 - p % 4096 + j] ∧
      m ((e.ppn + 1) * 4096 + j) = bs[4096 - p % 4096 + j]

/-- Where a store of `bs` at the address of the first byte is right: on one page, on two frames that follow each
other, or if it changes nothing behind the first page. -/
def StoredRight (m : Mem) (ms : MemorySet) (p : Nat) (bs : List UInt8) : Prop :=
  p % 4096 + bs.length ≤ 4096 ∨ FramesFollow m ms p ∨ AlreadyThere m ms p bs

/-! ## Addresses -/

theorem pageOf_first (hi : p % 4096 + i < 4096) : pageOf (usizeAdd p i) = pageOf p := by
  show (p + i) % 2 ^ 64 % 2 ^ 39 / 4096 = p % 2 ^ 39 / 4096
  omega

theorem pageOf_next (hi : 4096 ≤ p % 4096 + i) (hlt : p % 4096 + i < 8192) : pageOf (usizeAdd p i) = nextPage p := by
  show (p + i) % 2 ^ 64 % 2 ^ 39 / 4096 = (p + (4096 - p % 4096)) % 2 ^ 64 % 2 ^ 39 / 4096
  omega

theorem pageOf_ne_nextPage (p : Nat) : pageOf p ≠ nextPage p := by
  show p % 2 ^ 39 / 4096 ≠ (p + (4096 - p % 4096)) % 2 ^ 64 % 2 ^ 39 / 4096
  omega

theorem usizeAdd_mod (p i : Nat) : usizeAdd p i % 4096 = (p % 4096 + i) % 4096 := by
  unfold usizeAdd
  omega

theorem Good.translateVa_first (h : Good L rest s ms) (he : ms.translate m (pageOf p) = some e)
    (hi : p % 4096 + i < 4096) : (PageTable.fromToken ms.token).translateVa m (VirtAddr.ofUsize (usizeAdd p i)) =
      some (e.ppn * 4096 + (p % 4096 + i)) := by
  have hpage : (VirtAddr.ofUsize (usizeAdd p i)).floor = pageOf p := pageOf_first hi
  rw [h.translateVa_eq, hpage, he, Option.map_some, usizeAdd_mod, Nat.mod_eq_of_lt hi]

theorem Good.translateVa_next (h : Good L rest s ms) (he' : ms.translate m (nextPage p) = some e')
    (hi : 4096 ≤ p % 4096 + i) (hlt : p % 4096 + i < 8192) :
    (PageTable.fromToken ms.token).translateVa m (VirtAddr.ofUsize (usizeAdd p i)) =
      some (e'.ppn * 4096 + (p % 4096 + i - 4096)) := by
  have hpage : (VirtAddr.ofUsize (usizeAdd p i)).floor = nextPage p := pageOf_next hi hlt
  have hoff : (p % 4096 + i) % 4096 = p % 4096 + i - 4096 := by omega
  rw [h.translateVa_eq, hpage, he', Option.map_some, usizeAdd_mod, hoff]

/-- The physical address of the byte `i` of a structure at `p`, whose pages have the entries `e` and `e'`. -/
def physAt (e e' : PageTableEntry) (p i : Nat) : Nat :=
  if p % 4096 + i < 4096 then e.ppn * 4096 + (p % 4096 + i) else e'.ppn * 4096 + (p % 4096 + i - 4096)

theorem Good.translateVa_at (h : Good L rest s ms) (he : ms.translate s.mem (pageOf p) = some e)
    (he' : 4096 ≤ p % 4096 + i → ms.translate s.mem (nextPage p) = some e') (hi : p % 4096 + i < 8192) :
    (PageTable.fromToken ms.token).translateVa s.mem (VirtAddr.ofUsize (usizeAdd p i)) = some (physAt e e' p i) := by
  rw [physAt]
  split
  · next hlt => exact h.translateVa_first he hlt
  · next hge => exact h.translateVa_next (he' (Nat.le_of_not_lt hge)) (Nat.le_of_not_lt hge) hi

/-! ## The store -/

/-- When no translation changes, the claim is about physical addresses. -/
theorem copiedOut_iff (h : Good L rest s ms) (h' : Good L rest s' ms)
    (hsame : ∀ v, ms.translate s'.mem v = ms.translate s.mem v) (hlen : bs.length ≤ 4096)
    (he : ms.translate s.mem (pageOf p) = some e)
    (he' : 4096 < p % 4096 + bs.length → ms.translate s.mem (nextPage p) = some e') :
    CopiedOut s.mem s'.mem ms p bs ↔ (∀ i (hi : i < bs.length), s'.mem (physAt e e' p i) = bs[i]) ∧
      ∀ x, (∀ i < bs.length, physAt e e' p i ≠ x) → s'.mem x = s.mem x := by
  have hbound : ∀ i, i < bs.length → p % 4096 + i < 8192 := fun i hi => by omega
  have hat : ∀ i, i < bs.length → (PageTable.fromToken ms.token).translateVa s.mem
      (VirtAddr.ofUsize (usizeAdd p i)) = some (physAt e e' p i) := by
    intro i hi
    exact h.translateVa_at he (fun hge => he' (by omega)) (hbound i hi)
  have hbyte : ∀ i, i < bs.length → userByte s'.mem (PageTable.fromToken ms.token) (usizeAdd p i) =
      some (s'.mem (physAt e e' p i)) := by
    intro i hi
    rw [userByte, h'.translateVa_at ((hsame _).trans he) (fun hge => (hsame _).trans (he' (by omega))) (hbound i hi),
      Option.map_some]
  constructor
  · rintro ⟨hbytes, hframe⟩
    refine ⟨fun i hi => ?_, fun x hx => hframe x fun i hi => ?_⟩
    · exact Option.some.inj ((hbyte i hi).symm.trans (hbytes i hi))
    · rw [hat i hi]
      exact fun hc => hx i hi (Option.some.inj hc)
  · rintro ⟨hbytes, hframe⟩
    refine ⟨fun i hi => ?_, fun x hx => hframe x fun i hi hc => ?_⟩
    · rw [hbyte i hi, hbytes i hi]
    · exact hx i hi ((hat i hi).trans (congrArg some hc))

/-- A store on one page. -/
theorem copiedOut_one (h : Good L rest s ms) (hfr : ms.Framed) (he : ms.translate s.mem (pageOf p) = some e)
    (hfits : p % 4096 + bs.length ≤ 4096) :
    CopiedOut s.mem (s.mem.write (e.ppn * 4096 + p % 4096) bs) ms p bs := by
  generalize hs' : ({ s with mem := s.mem.write (e.ppn * 4096 + p % 4096) bs } : Phys) = s'
  have hpa : (e.ppn * 4096 + p % 4096) / 4096 = e.ppn := by omega
  have hoff : (e.ppn * 4096 + p % 4096) % 4096 + bs.length ≤ 4096 := by omega
  obtain ⟨h', hsame⟩ := h.store_keeps hfr he hpa hoff hs'.symm
  have hmem : s.mem.write (e.ppn * 4096 + p % 4096) bs = s'.mem := by rw [← hs']
  have hat : ∀ i, i < bs.length → physAt e e p i = e.ppn * 4096 + p % 4096 + i := by
    intro i hi
    rw [physAt, if_pos (by omega), Nat.add_assoc]
  rw [hmem, copiedOut_iff h h' hsame (by omega) he (fun hc => absurd hc (by omega)), ← hmem]
  refine ⟨fun i hi => ?_, fun x hx => ?_⟩
  · rw [hat i hi, Mem.write_getElem hi]
  · apply Mem.write_of_not_mem
    by_contra hc
    have hi : x - (e.ppn * 4096 + p % 4096) < bs.length := by omega
    apply hx _ hi
    rw [hat _ hi]
    omega

/-- A store across the end of a page, in two parts. -/
theorem write_across (m : Mem) (f : Nat) (hacross : 4096 < p % 4096 + bs.length) :
    m.write (f * 4096 + p % 4096) bs =
      (m.write (f * 4096 + p % 4096) (bs.take (4096 - p % 4096))).write ((f + 1) * 4096) (bs.drop (4096 - p % 4096)) := by
  have hend : f * 4096 + p % 4096 + (bs.take (4096 - p % 4096)).length = (f + 1) * 4096 := by
    rw [List.length_take]
    omega
  rw [← hend, ← Mem.write_append, List.take_append_drop]

/-- If what goes behind the first page is there, only the first page changes. -/
theorem write_eq_first (m : Mem) (f : Nat) (hacross : 4096 < p % 4096 + bs.length)
    (hthere : ∀ j (hj : 4096 - p % 4096 + j < bs.length), m ((f + 1) * 4096 + j) = bs[4096 - p % 4096 + j]) :
    m.write (f * 4096 + p % 4096) bs = m.write (f * 4096 + p % 4096) (bs.take (4096 - p % 4096)) := by
  rw [write_across m f hacross]
  apply Mem.write_eq_self
  intro j hj
  rw [List.length_drop] at hj
  rw [List.getElem_drop, ← hthere j (by omega)]
  apply Mem.write_of_not_mem
  rw [List.length_take]
  omega

/-- The part on the first page. -/
theorem store_first_keeps {s₁ : Phys} (h : Good L rest s ms) (hfr : ms.Framed)
    (he : ms.translate s.mem (pageOf p) = some e)
    (hs₁ : s₁ = { s with mem := s.mem.write (e.ppn * 4096 + p % 4096) (bs.take (4096 - p % 4096)) }) :
    Good L rest s₁ ms ∧ ∀ v, ms.translate s₁.mem v = ms.translate s.mem v := by
  have hpa : (e.ppn * 4096 + p % 4096) / 4096 = e.ppn := by omega
  refine h.store_keeps hfr he hpa ?_ hs₁
  rw [List.length_take]
  omega

section Across

variable (h : Good L rest s ms) (hfr : ms.Framed) (he : ms.translate s.mem (pageOf p) = some e)
  (he' : ms.translate s.mem (nextPage p) = some e') (hlen : bs.length ≤ 4096)
  (hacross : 4096 < p % 4096 + bs.length)

include h hfr he he' hlen hacross

/-- On frames that follow each other the store is right. -/
theorem copiedOut_follow (hnext : e'.ppn = e.ppn + 1) :
    CopiedOut s.mem (s.mem.write (e.ppn * 4096 + p % 4096) bs) ms p bs := by
  generalize hs₁ : ({ s with mem := s.mem.write (e.ppn * 4096 + p % 4096) (bs.take (4096 - p % 4096)) } : Phys) = s₁
  generalize hs₂ : ({ s₁ with mem := s₁.mem.write (e'.ppn * 4096) (bs.drop (4096 - p % 4096)) } : Phys) = s₂
  obtain ⟨h₁, hsame₁⟩ := store_first_keeps h hfr he hs₁.symm
  have hpa : e'.ppn * 4096 / 4096 = e'.ppn := Nat.mul_div_cancel _ (by decide)
  have hoff : e'.ppn * 4096 % 4096 + (bs.drop (4096 - p % 4096)).length ≤ 4096 := by
    rw [List.length_drop]
    omega
  obtain ⟨h₂, hsame₂⟩ := h₁.store_keeps hfr ((hsame₁ _).trans he') hpa hoff hs₂.symm
  have hmem : s.mem.write (e.ppn * 4096 + p % 4096) bs = s₂.mem := by
    rw [write_across _ _ hacross, ← hs₂, ← hs₁, hnext]
  have hat : ∀ i, i < bs.length → physAt e e' p i = e.ppn * 4096 + p % 4096 + i := by
    intro i hi
    rw [physAt, hnext]
    split <;> omega
  rw [hmem, copiedOut_iff h h₂ (fun v => (hsame₂ v).trans (hsame₁ v)) hlen he (fun _ => he'), ← hmem]
  refine ⟨fun i hi => ?_, fun x hx => ?_⟩
  · rw [hat i hi, Mem.write_getElem hi]
  · apply Mem.write_of_not_mem
    by_contra hc
    have hi : x - (e.ppn * 4096 + p % 4096) < bs.length := by omega
    apply hx _ hi
    rw [hat _ hi]
    omega

/-- The first part alone is right exactly if what belongs on the next page is there. -/
theorem copiedOut_first_iff {s₁ : Phys}
    (hs₁ : s₁ = { s with mem := s.mem.write (e.ppn * 4096 + p % 4096) (bs.take (4096 - p % 4096)) }) :
    CopiedOut s.mem s₁.mem ms p bs ↔
      ∀ j (hj : 4096 - p % 4096 + j < bs.length), s.mem (e'.ppn * 4096 + j) = bs[4096 - p % 4096 + j] := by
  obtain ⟨h₁, hsame₁⟩ := store_first_keeps h hfr he hs₁
  have hne : e.ppn ≠ e'.ppn := fun hc => pageOf_ne_nextPage p
    (h.ppn_inj hfr (VirtAddr.floor_lt _) (VirtAddr.floor_lt _) he he' hc)
  have hnext : ∀ j < 4096, s₁.mem (e'.ppn * 4096 + j) = s.mem (e'.ppn * 4096 + j) := by
    intro j hj
    rw [hs₁]
    apply Mem.write_of_not_mem
    rw [List.length_take]
    omega
  rw [copiedOut_iff h h₁ hsame₁ hlen he (fun _ => he')]
  constructor
  · rintro ⟨hbytes, -⟩ j hj
    have hat : physAt e e' p (4096 - p % 4096 + j) = e'.ppn * 4096 + j := by
      rw [physAt, if_neg (by omega)]
      omega
    rw [← hbytes _ hj, hat, hnext j (by omega)]
  · intro hthere
    refine ⟨fun i hi => ?_, fun x hx => ?_⟩
    · rw [physAt]
      split
      · next hlt =>
        have hi' : i < (bs.take (4096 - p % 4096)).length := by
          rw [List.length_take]
          omega
        rw [hs₁, ← Nat.add_assoc]
        simp only
        rw [Mem.write_getElem hi', List.getElem_take]
      · next hge =>
        obtain ⟨j, rfl⟩ : ∃ j, i = 4096 - p % 4096 + j := ⟨i - (4096 - p % 4096), by omega⟩
        have hj : p % 4096 + (4096 - p % 4096 + j) - 4096 = j := by omega
        rw [hj, hnext j (by omega), hthere j hi]
    · rw [hs₁]
      apply Mem.write_of_not_mem
      rw [List.length_take]
      by_contra hc
      have hi : x - (e.ppn * 4096 + p % 4096) < bs.length := by omega
      apply hx _ hi
      rw [physAt, if_pos (by omega)]
      omega

omit hfr in
/-- The frame behind the first page is not the structure's, so a right store does not change it. -/
theorem CopiedOut.behind (hapart : e'.ppn ≠ e.ppn + 1)
    (hcopied : CopiedOut s.mem (s.mem.write (e.ppn * 4096 + p % 4096) bs) ms p bs) {j : Nat}
    (hj : 4096 - p % 4096 + j < bs.length) : s.mem ((e.ppn + 1) * 4096 + j) = bs[4096 - p % 4096 + j] := by
  have hx : (e.ppn + 1) * 4096 + j = e.ppn * 4096 + p % 4096 + (4096 - p % 4096 + j) := by omega
  rw [← hcopied.frame _ fun i hi => ?_, hx, Mem.write_getElem hj]
  rw [h.translateVa_at he (fun _ => he') (by omega), Ne, Option.some.injEq, physAt]
  split <;> omega

/-- On other frames the store is right exactly if it changes nothing behind the first page. -/
theorem copiedOut_apart_iff (hapart : e'.ppn ≠ e.ppn + 1) :
    CopiedOut s.mem (s.mem.write (e.ppn * 4096 + p % 4096) bs) ms p bs ↔
      ∀ j (hj : 4096 - p % 4096 + j < bs.length), s.mem (e'.ppn * 4096 + j) = bs[4096 - p % 4096 + j] ∧
        s.mem ((e.ppn + 1) * 4096 + j) = bs[4096 - p % 4096 + j] := by
  have hfirst := copiedOut_first_iff h hfr he he' hlen hacross rfl
  constructor
  · intro hcopied j hj
    have hbehind := fun j hj => hcopied.behind h he he' hlen hacross hapart (j := j) hj
    rw [write_eq_first _ _ hacross hbehind] at hcopied
    exact ⟨hfirst.mp hcopied j hj, hbehind j hj⟩
  · intro hthere
    rw [write_eq_first _ _ hacross fun j hj => (hthere j hj).2]
    exact hfirst.mpr fun j hj => (hthere j hj).1

end Across

/-- **When the store of a structure at the address of its first byte is right.** -/
theorem copiedOut_store_iff (h : Good L rest s ms) (hfr : ms.Framed) (hmapped : MappedAt s.mem ms p bs.length)
    (hlen : bs.length ≤ 4096) (he : ms.translate s.mem (pageOf p) = some e) :
    CopiedOut s.mem (s.mem.write (e.ppn * 4096 + p % 4096) bs) ms p bs ↔ StoredRight s.mem ms p bs := by
  by_cases hfits : p % 4096 + bs.length ≤ 4096
  · exact iff_of_true (copiedOut_one h hfr he hfits) (Or.inl hfits)
  · have hacross : 4096 < p % 4096 + bs.length := Nat.lt_of_not_le hfits
    have hnext : ms.translate s.mem (nextPage p) ≠ none := by
      rw [← pageOf_next (p := p) (i := 4096 - p % 4096) (by omega) (by omega)]
      exact hmapped _ (by omega)
    obtain ⟨e', he'⟩ := Option.ne_none_iff_exists'.mp hnext
    by_cases hfollow : e'.ppn = e.ppn + 1
    · exact iff_of_true (copiedOut_follow h hfr he he' hlen hacross hfollow)
        (Or.inr (Or.inl ⟨e, e', he, he', hfollow⟩))
    · rw [copiedOut_apart_iff h hfr he he' hlen hacross hfollow]
      constructor
      · intro hthere
        exact Or.inr (Or.inr ⟨e, e', he, he', hthere⟩)
      · rintro (hc | ⟨d, d', hd, hd', hc⟩ | ⟨d, d', hd, hd', hthere⟩)
        · exact absurd hc hfits
        · cases he.symm.trans hd
          cases he'.symm.trans hd'
          exact absurd hc hfollow
        · cases he.symm.trans hd
          cases he'.symm.trans hd'
          exact hthere

/-! ## `sys_get_time` and `sys_fstat` -/

section Calls

variable {pt : PageTable} {start stop fuel : Nat}

theorem translatedRound_start (pt : PageTable) (stop start : Nat) (s : Phys) :
    (translatedRound pt stop start).wlp (fun r s' => s' = s ∧
      ∃ e, pt.translate s.mem (pageOf start) = some e ∧ r.1.start = e.ppn * 4096 + start % 4096) s := by
  rw [translatedRound]
  simp only [Comp.wlp_bind, Comp.wlp_get, Comp.wlp_unwrap, VirtAddr.pageOffset_ofUsize]
  intro e he
  split
  · rw [Comp.wlp_pure]
    exact ⟨rfl, e, he, rfl⟩
  · simp only [Comp.wlp_bind, Comp.wlp_assert, Comp.wlp_pure]
    exact fun _ => ⟨trivial, e, he, rfl⟩

/-- The loop pushes behind what it has. -/
theorem translatedLoop_extends (pt : PageTable) (stop fuel start : Nat) (v : List Slice) (s : Phys) :
    (translatedLoop pt stop fuel start v).wlp (fun r s' => s' = s ∧ ∀ bs, r = some bs → v <+: bs) s := by
  induction fuel generalizing start v with
  | zero =>
    rw [translatedLoop, Comp.wlp_pure]
    refine ⟨rfl, fun bs hbs => ?_⟩
    split at hbs
    · cases hbs
    · cases hbs
      exact List.prefix_refl _
  | succ fuel ih =>
    rw [translatedLoop]
    split
    · rw [Comp.wlp_bind]
      refine (translatedRound_start pt stop start s).mono ?_
      rintro ⟨slice, next⟩ _ ⟨rfl, -⟩
      refine (ih next (v ++ [slice])).mono ?_
      rintro r _ ⟨rfl, hr⟩
      exact ⟨rfl, fun bs hbs => (List.prefix_append v [slice]).trans (hr bs hbs)⟩
    · rw [Comp.wlp_pure]
      refine ⟨rfl, fun bs hbs => ?_⟩
      cases hbs
      exact List.prefix_refl _

/-- The first slice begins at the first byte of the buffer. -/
theorem translatedByteBuffers_head (fuel token p len : Nat) (s : Phys) :
    (translatedByteBuffers fuel token p len).wlp (fun r s' => s' = s ∧ ∀ b bs, r = some (b :: bs) →
      ∃ e, (PageTable.fromToken token).translate s.mem (pageOf p) = some e ∧
        b.start = e.ppn * 4096 + p % 4096) s := by
  rw [translatedByteBuffers]
  cases fuel with
  | zero =>
    rw [translatedLoop, Comp.wlp_pure]
    refine ⟨rfl, fun b bs hbs => ?_⟩
    split at hbs <;> cases hbs
  | succ fuel =>
    rw [translatedLoop]
    split
    · rw [Comp.wlp_bind]
      refine (translatedRound_start _ _ p s).mono ?_
      rintro ⟨slice, next⟩ _ ⟨rfl, e, he, hstart⟩
      refine (translatedLoop_extends _ _ fuel next ([] ++ [slice]) _).mono ?_
      rintro r _ ⟨rfl, hr⟩
      refine ⟨rfl, fun b bs hbs => ⟨e, he, ?_⟩⟩
      obtain ⟨t, ht⟩ := hr _ hbs
      cases ht
      exact hstart
    · rw [Comp.wlp_pure]
      refine ⟨rfl, fun b bs hbs => ?_⟩
      cases hbs

theorem length_timeVal (t : TimeVal) : t.asBytes.length = 16 := by
  rw [TimeVal.asBytes, List.length_append, leEncode_length, leEncode_length]

theorem length_stat (st : Stat) : st.asBytes.length = 80 := by
  have hpad : (st.pad.toList.flatMap (leEncode 8)).length = 56 := by
    rw [length_flatMap_packed (leEncode_length 8), Vector.length_toList]
  rw [Stat.asBytes, List.length_append, hpad]
  simp only [List.length_append, leEncode_length]

/-- What `sys_get_time` has stored when it returns 0. -/
theorem sysGetTime_stored (h : Good L rest s ms) {us : Nat}
    (hrun : (sysGetTime fuel ms.token p us).run s = some (some 0, s')) :
    ∃ e, ms.translate s.mem (pageOf p) = some e ∧
      s'.mem = s.mem.write (e.ppn * 4096 + p % 4096) (TimeVal.asBytes ⟨us / 1000000, us % 1000000⟩) := by
  have hwlp : (sysGetTime fuel ms.token p us).wlp (fun r s' => r = some 0 →
      ∃ e, ms.translate s.mem (pageOf p) = some e ∧
        s'.mem = s.mem.write (e.ppn * 4096 + p % 4096) (TimeVal.asBytes ⟨us / 1000000, us % 1000000⟩)) s := by
    rw [sysGetTime, Comp.wlp_bind]
    refine (translatedByteBuffers_head fuel ms.token p 16 s).mono ?_
    rintro (_ | (_ | ⟨b, bs⟩)) _ ⟨rfl, hhead⟩
    · rw [Comp.wlp_pure]
      intro hc
      cases hc
    · rw [Comp.wlp_pure]
      intro hc
      cases hc
    · simp only [Comp.wlp_bind, storePhys, Comp.wlp_modify, Comp.wlp_pure]
      intro _
      obtain ⟨e, he, hstart⟩ := hhead b bs rfl
      rw [h.translate_token] at he
      rw [hstart]
      exact ⟨e, he, rfl⟩
  exact hwlp _ _ hrun rfl

/-- What `sys_fstat` has stored when it returns 0. -/
theorem sysFstat_stored {File : Type} (h : Good L rest s ms) {fdTable : List (Option File)} {fstat : File → Stat}
    {fd : Nat} (hrun : (sysFstat fdTable fstat fuel ms.token fd p).run s = some (some 0, s')) :
    ∃ file e, fdTable[fd]? = some (some file) ∧ ms.translate s.mem (pageOf p) = some e ∧
      s'.mem = s.mem.write (e.ppn * 4096 + p % 4096) (fstat file).asBytes := by
  have hwlp : (sysFstat fdTable fstat fuel ms.token fd p).wlp (fun r s' => r = some 0 →
      ∃ file e, fdTable[fd]? = some (some file) ∧ ms.translate s.mem (pageOf p) = some e ∧
        s'.mem = s.mem.write (e.ppn * 4096 + p % 4096) (fstat file).asBytes) s := by
    rw [sysFstat]
    split
    · rw [Comp.wlp_pure]
      intro hc
      cases hc
    · rw [Comp.wlp_bind]
      refine (translatedByteBuffers_head fuel ms.token p 80 s).mono ?_
      rintro (_ | (_ | ⟨b, bs⟩)) _ ⟨rfl, hhead⟩
      · rw [Comp.wlp_pure]
        intro hc
        cases hc
      · rw [Comp.wlp_pure]
        intro hc
        cases hc
      · simp only [Comp.wlp_bind, Comp.wlp_unwrap]
        intro o ho
        cases o with
        | none =>
          rw [Comp.wlp_pure]
          intro hc
          cases hc
        | some file =>
          simp only [Comp.wlp_bind, storePhys, Comp.wlp_modify, Comp.wlp_pure]
          intro _
          obtain ⟨e, he, hstart⟩ := hhead b bs rfl
          rw [h.translate_token] at he
          rw [hstart]
          exact ⟨file, e, ho, he, rfl⟩
  exact hwlp _ _ hrun rfl

/-- With its pages mapped, `sys_get_time` returns 0. -/
theorem sysGetTime_returns {token us : Nat} (hlt : p + 16 < 2 ^ 39)
    (hmapped : ∀ a, p ≤ a → a < p + 16 → (PageTable.fromToken token).translate s.mem (pageOf a) ≠ none) :
    ∃ s', (sysGetTime 2 token p us).run s = some (some 0, s') := by
  obtain ⟨bs, hrun, haddr, -, -⟩ := translatedByteBuffers_exact hlt hmapped
  cases bs with
  | nil =>
    have hlen := congrArg List.length haddr
    rw [List.length_map, List.length_map, List.length_range'] at hlen
    cases hlen
  | cons b bs =>
    rw [sysGetTime, Comp.run_bind, hrun 2 (by decide)]
    exact ⟨_, rfl⟩

end Calls

/-! ## A program on scattered frames -/

/-- Every other frame of four megabytes from `f` on. -/
def everyOther (f : Nat) : List Nat := (List.range 512).map fun i => f + 2 * i

theorem mem_everyOther {f x : Nat} : x ∈ everyOther f ↔ ∃ i < 512, f + 2 * i = x := by
  simp only [everyOther, List.mem_map, List.mem_range]

theorem nodup_everyOther (f : Nat) : (everyOther f).Nodup := by
  rw [everyOther]
  exact List.nodup_range.map fun i j h => by omega

theorem length_everyOther (f : Nat) : (everyOther f).length = 512 := by
  rw [everyOther, List.length_map, List.length_range]

attribute [irreducible] everyOther

/-- An allocator that has only the frames of even number left. -/
def scattered : Phys where
  mem := fun _ => 0
  frames := ⟨memoryEnd / 4096, memoryEnd / 4096, everyOther smallKernel.firstFrame⟩
  starved := false

/-- The frames of odd number, which others hold. -/
def oddFrames : List Nat := everyOther (smallKernel.firstFrame + 1)

theorem held_scattered : Held smallKernel.firstFrame scattered.frames oddFrames := by
  have hend : memoryEnd / 4096 = smallKernel.firstFrame + 1024 := by decide
  have hrange : ∀ x ∈ oddFrames ++ everyOther smallKernel.firstFrame,
      smallKernel.firstFrame ≤ x ∧ x < memoryEnd / 4096 := by
    intro x hx
    rw [hend]
    rcases List.mem_append.mp hx with hx | hx
    · obtain ⟨i, hi, rfl⟩ := mem_everyOther.mp hx
      omega
    · obtain ⟨i, hi, rfl⟩ := mem_everyOther.mp hx
      omega
  have hnodup : (oddFrames ++ everyOther smallKernel.firstFrame).Nodup := by
    refine List.nodup_append.mpr ⟨nodup_everyOther _, nodup_everyOther _, fun x hx y hy => ?_⟩
    obtain ⟨i, -, rfl⟩ := mem_everyOther.mp hx
    obtain ⟨j, -, rfl⟩ := mem_everyOther.mp hy
    omega
  exact ⟨⟨hnodup, hrange⟩, (by decide : smallKernel.firstFrame ≤ memoryEnd / 4096), Nat.le_refl _,
    (by decide : memoryEnd / 4096 ≤ 2 ^ 44)⟩

/-- No two frames of a space that is built from these follow each other. -/
theorem even_of_scattered (h : Good smallKernel oddFrames s ms) (hall : AllUsed (memoryEnd / 4096) s) {f : Nat}
    (hf : f ∈ ms.frames) : f % 2 = 0 := by
  have hend : memoryEnd / 4096 = smallKernel.firstFrame + 1024 := by decide
  have heven : smallKernel.firstFrame % 2 = 0 := by decide
  have howned : f ∈ ms.owned ++ oddFrames := List.mem_append_left _ (List.mem_append_right _ hf)
  have hle := h.held.le_of_mem howned
  have hlt := h.held.ledger.lt_of_mem howned
  rw [hall.1, hend] at hlt
  by_contra hodd
  have hin : f ∈ oddFrames := by
    refine mem_everyOther.mpr ⟨(f - smallKernel.firstFrame) / 2, ?_, ?_⟩
    · omega
    · omega
  exact (List.disjoint_of_nodup_append h.held.nodup) (List.mem_append_right _ hf) hin

/-- A program on such frames, with a byte that is not 0 at the beginning of its second stack page. -/
theorem exists_scattered : ∃ s ms e e', UserSpace smallKernel oddFrames s ms ∧
    ms.translate s.mem 0x12 = some e ∧ ms.translate s.mem 0x13 = some e' ∧ e'.ppn ≠ e.ppn + 1 ∧
    s.mem (e'.ppn * 4096) = 1 := by
  have hfree : 0 + 19 ≤ scattered.frames.free := by
    show 0 + 19 ≤ (everyOther smallKernel.firstFrame).length + (memoryEnd / 4096 - memoryEnd / 4096)
    rw [length_everyOther]
    decide
  obtain ⟨⟨ms, sp, entry⟩, s, hrun, h⟩ := fromElf_ok held_scattered [] (by decide) 0 hfree
  have hu : UserSpace smallKernel oddFrames s ms := .fromElf held_scattered hrun
  have hall : AllUsed (memoryEnd / 4096) s :=
    (kept_allUsed _).fromElf smallKernel (onePage []) scattered ⟨rfl, rfl⟩ _ _ hrun
  obtain ⟨hgood, hfr⟩ := hu.good
  have hpage : ∀ v, 0x12 ≤ v ∧ v < 0x14 → ∃ e, ms.translate s.mem v = some e ∧ e.ppn % 2 = 0 := by
    intro v hv
    have hmapped := h.mapped hfr (p := (0x12, 0x14)) (by decide) hv
    rw [hgood.translate_token] at hmapped
    obtain ⟨e, he⟩ := Option.ne_none_iff_exists'.mp hmapped
    have hne : v ≠ trampolineVpn := by
      unfold trampolineVpn
      omega
    exact ⟨e, he, even_of_scattered hgood hall (hgood.ppn_mem hfr (by omega) hne he)⟩
  obtain ⟨e, he, heven⟩ := hpage 0x12 (by decide)
  obtain ⟨e', he', heven'⟩ := hpage 0x13 (by decide)
  generalize hs' : ({ s with mem := s.mem.write (e'.ppn * 4096) [1] } : Phys) = s'
  have hfits : e'.ppn * 4096 % 4096 + ([1] : List UInt8).length ≤ 4096 := by
    rw [Nat.mul_mod_left]
    decide
  obtain ⟨hu', hkeeps⟩ := hu.store he' (Nat.mul_div_cancel _ (by decide)) hfits hs'.symm
  refine ⟨s', ms, e, e', hu', (hkeeps _).trans he, (hkeeps _).trans he', by omega, ?_⟩
  have hbyte : s.mem.write (e'.ppn * 4096) [1] (e'.ppn * 4096 + 0) = 1 := Mem.write_of_mem Nat.one_pos
  rw [Nat.add_zero] at hbyte
  rw [← hs']
  exact hbyte

end RCore.Mm
