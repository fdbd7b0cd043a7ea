import RCore.EasyFs.Layout

/-!
# The block tree of an inode

Growing a file takes its new blocks from a list, in a fixed order: the direct blocks, the single
indirect block and the blocks behind it, the double indirect block, and then each second-level index
block followed by the blocks behind it. Number the blocks of a file by their place in this order.
`ptr d di p` is the pointer that the tree stores for place `p`, `dataPos k` the place of data block
`k`, and a tree over `n` data blocks has the places below `totalBlocksFor n`.

In these terms the three operations on the tree are simple: `get_block_id` reads one place
(`getBlockId_spec`), `increase_size` appends its list to the places in use and moves none of them
(`increaseSize_spec`), and `clear_size` returns the whole list (`clearSize_spec`).
-/

namespace RCore.EasyFs

open RCore Prog

/-! ## Entries of an index block -/

@[simp] theorem u32At_setU32_same (b : Block) {j : Nat} (hj : j < 128) (v : UInt32) :
    u32At (setU32 b j v) j = v := by
  have hb : 4 * j + 4 ≤ blockSz := by
    show 4 * j + 4 ≤ 512
    omega
  have hv : v.toNat % 256 ^ 4 = v.toNat := Nat.mod_eq_of_lt v.toNat_lt
  unfold u32At setU32
  rw [Bytes.word_setWord_same 4 b hb, hv, UInt32.ofNat_toNat]

theorem u32At_setU32_ne (b : Block) {j k : Nat} (hj : j < 128) (hk : k ≠ j) (v : UInt32) :
    u32At (setU32 b j v) k = u32At b k := by
  have hb : 4 * j + 4 ≤ blockSz := by
    show 4 * j + 4 ≤ 512
    omega
  unfold u32At setU32
  rw [Bytes.word_setWord_entry 4 b hb, if_neg hk]

namespace DiskInode

/-! ## Places -/

/-- The pointer for place `158 + r`, given the content of the double indirect block. -/
def ptr2 (d : Disk) (indirect2 : Block) (r : Nat) : UInt32 :=
  if r % 129 = 0 then
    u32At indirect2 (r / 129)
  else
    u32At (d (u32At indirect2 (r / 129)).toNat) (r % 129 - 1)

/-- The pointer the tree of `di` stores for place `p`. -/
def ptr (d : Disk) (di : DiskInode) (p : Nat) : UInt32 :=
  if h : p < 28 then
    di.direct[p]
  else if p = 28 then
    di.indirect1
  else if p < 157 then
    u32At (d di.indirect1.toNat) (p - 29)
  else if p = 157 then
    di.indirect2
  else
    ptr2 d (d di.indirect2.toNat) (p - 158)

/-- The place of data block `k`. -/
def dataPos (k : Nat) : Nat :=
  if k < 28 then k else if k < 156 then k + 1 else k + 3 + (k - 156) / 128

/-- The places of the index blocks. -/
def IndexPos (p : Nat) : Prop := p = 28 ∨ p = 157 ∨ (158 ≤ p ∧ (p - 158) % 129 = 0)

instance (p : Nat) : Decidable (IndexPos p) :=
  inferInstanceAs (Decidable (p = 28 ∨ p = 157 ∨ (158 ≤ p ∧ (p - 158) % 129 = 0)))

/-- All blocks of an inode of `n` data blocks, in the order of their places. -/
def blockList (d : Disk) (di : DiskInode) (n : Nat) : List UInt32 :=
  (List.range (totalBlocksFor n)).map (ptr d di)

theorem totalBlocksFor_eq (n : Nat) :
    totalBlocksFor n =
      if n ≤ 28 then n else if n ≤ 156 then n + 1 else n + 2 + (n - 156 + 127) / 128 := by
  simp only [totalBlocksFor, inodeDirectCount, indirect1Bound, inodeIndirect1Count]
  split_ifs <;> omega

theorem totalBlocksFor_mono {m n : Nat} (h : m ≤ n) : totalBlocksFor m ≤ totalBlocksFor n := by
  rw [totalBlocksFor_eq, totalBlocksFor_eq]
  split_ifs <;> omega

theorem dataPos_lt {k n : Nat} (h : k < n) : dataPos k < totalBlocksFor n := by
  rw [totalBlocksFor_eq]
  unfold dataPos
  split_ifs <;> omega

theorem le_dataPos {k n : Nat} (h : n ≤ k) : totalBlocksFor n ≤ dataPos k := by
  rw [totalBlocksFor_eq]
  unfold dataPos
  split_ifs <;> omega

theorem dataPos_inj {j k : Nat} (h : dataPos j = dataPos k) : j = k := by
  unfold dataPos at h
  split_ifs at h <;> omega

theorem dataPos_not_index (k : Nat) : ¬ IndexPos (dataPos k) := by
  unfold IndexPos dataPos
  split_ifs <;> omega

/-- Every place is that of an index block or of a data block of the tree. -/
theorem pos_cases {p n : Nat} (h : p < totalBlocksFor n) :
    IndexPos p ∨ ∃ k, k < n ∧ dataPos k = p := by
  rw [totalBlocksFor_eq] at h
  by_cases h1 : p < 28
  · refine .inr ⟨p, ?_, ?_⟩
    · split_ifs at h <;> omega
    · simp [dataPos, h1]
  by_cases h2 : p = 28
  · exact .inl (.inl h2)
  by_cases h3 : p < 157
  · refine .inr ⟨p - 1, ?_, ?_⟩
    · split_ifs at h <;> omega
    · unfold dataPos
      split_ifs <;> omega
  by_cases h4 : p = 157
  · exact .inl (.inr (.inl h4))
  by_cases h5 : (p - 158) % 129 = 0
  · exact .inl (.inr (.inr ⟨by omega, h5⟩))
  · refine .inr ⟨156 + (p - 158) / 129 * 128 + ((p - 158) % 129 - 1), ?_, ?_⟩
    · split_ifs at h <;> omega
    · unfold dataPos
      split_ifs <;> omega

/-! ## Looking up a data block -/

/-- `get_block_id` reads the pointer of the data block's place and changes nothing. -/
theorem getBlockId_spec (d : Disk) (di : DiskInode) {k : Nat} (hk : k < indirect2Bound) :
    (di.getBlockId k).wp (fun b d' => b = ptr d di (dataPos k) ∧ d' = d) d := by
  have hk' : k < 16540 := hk
  unfold getBlockId
  by_cases h1 : k < 28
  · simp [h1, ptr, dataPos]
  by_cases h2 : k < 156
  · have hp : dataPos k = k + 1 := by simp [dataPos, h1, h2]
    have hptr : ptr d di (k + 1) = u32At (d di.indirect1.toNat) (k - 28) := by
      unfold ptr
      rw [dif_neg (by omega), if_neg (by omega), if_pos (by omega)]
      congr 1
    simp [h1, h2, hp, hptr]
  · have hp : dataPos k = 158 + (129 * ((k - 156) / 128) + (k - 156) % 128 + 1) := by
      unfold dataPos
      split_ifs
      omega
    have hdiv : (129 * ((k - 156) / 128) + (k - 156) % 128 + 1) / 129 = (k - 156) / 128 := by omega
    have hmod : (129 * ((k - 156) / 128) + (k - 156) % 128 + 1) % 129 = (k - 156) % 128 + 1 := by
      omega
    have hptr : ptr d di (dataPos k) =
        u32At (d (u32At (d di.indirect2.toNat) ((k - 156) / 128)).toNat) ((k - 156) % 128) := by
      rw [hp]
      unfold ptr ptr2
      rw [dif_neg (by omega), if_neg (by omega), if_neg (by omega), if_neg (by omega)]
      rw [Nat.add_sub_cancel_left, hdiv, hmod, if_neg (by omega), Nat.add_sub_cancel]
    simp [h1, h2, hk', hptr]

/-! ## Growing

`T` is the list of all blocks the grown tree will have. `Filled T d di m bs` says that the first `m`
places already hold their blocks of `T` and that `bs` is what is left of `T`; each phase of
`increase_size` moves `m` on. -/

/-- The first `m` places hold their entries of `T`, and `bs` is the rest of `T`. -/
structure Filled (T : List UInt32) (d : Disk) (di : DiskInode) (m : Nat) (bs : List UInt32) :
    Prop where
  rest : bs = T.drop m
  ptr_eq : ∀ p, p < m → ptr d di p = T.getD p 0

/-- Two disks differ only at blocks of `T` whose places satisfy `S`. -/
def SameOff (T : List UInt32) (S : Nat → Prop) (d d' : Disk) : Prop :=
  ∀ b, (∀ p, p < T.length → S p → (T.getD p 0).toNat ≠ b) → d' b = d b

theorem SameOff.refl (T : List UInt32) (S : Nat → Prop) (d : Disk) : SameOff T S d d :=
  fun _ _ => rfl

theorem SameOff.trans {T : List UInt32} {S : Nat → Prop} {d e f : Disk} (h : SameOff T S d e)
    (h' : SameOff T S e f) : SameOff T S d f :=
  fun b hb => (h' b hb).trans (h b hb)

theorem SameOff.mono {T : List UInt32} {S S' : Nat → Prop} {d d' : Disk} (h : SameOff T S d d')
    (hS : ∀ p, S p → S' p) : SameOff T S' d d' :=
  fun b hb => h b fun p hp hs => hb p hp (hS p hs)

theorem SameOff.update {T : List UInt32} {S : Nat → Prop} (d : Disk) {p : Nat}
    (hp : p < T.length) (hs : S p) (b : Block) :
    SameOff T S d (Function.update d (T.getD p 0).toNat b) :=
  fun _ hne => Function.update_of_ne (hne p hp hs).symm _ _

theorem drop_eq_cons {T : List UInt32} {m : Nat} (h : m < T.length) :
    T.drop m = T.getD m 0 :: T.drop (m + 1) := by
  rw [List.drop_eq_getElem_cons h]
  simp [h]

theorem wp_next {T : List UInt32} {m : Nat} (h : m < T.length)
    (Q : UInt32 × List UInt32 → Disk → Prop) (d : Disk) :
    (next (T.drop m)).wp Q d ↔ Q (T.getD m 0, T.drop (m + 1)) d := by
  rw [drop_eq_cons h]
  exact wp_pure _ Q d

/-- Distinct places of a list without repetitions hold distinct blocks. -/
theorem getD_toNat_ne {T : List UInt32} (hT : T.Nodup) {p q : Nat} (hp : p < T.length)
    (hq : q < T.length) (hne : p ≠ q) : (T.getD p 0).toNat ≠ (T.getD q 0).toNat := by
  intro h
  have h' : T.getD p 0 = T.getD q 0 := UInt32.toNat_inj.mp h
  simp only [List.getD_eq_getElem _ _ hp, List.getD_eq_getElem _ _ hq] at h'
  exact hne ((List.Nodup.getElem_inj_iff hT).mp h')

theorem fillDirect_spec (T : List UInt32) (d : Disk) (n current : Nat) (di : DiskInode)
    (hn : current + n ≤ 28) (hlen : current + n ≤ T.length) :
    (fillDirect n current di (T.drop current)).wp (fun r d' =>
      d' = d ∧ r.2 = T.drop (current + n) ∧ r.1 = { di with direct := r.1.direct } ∧
      ∀ k (hk : k < 28), r.1.direct[k] =
        if current ≤ k ∧ k < current + n then T.getD k 0 else di.direct[k]) d := by
  induction n generalizing current di with
  | zero =>
    simp only [fillDirect, wp_pure, Nat.add_zero, true_and]
    intro k hk
    rw [if_neg (by omega)]
  | succ n ih =>
    simp only [fillDirect, wp_bind]
    rw [wp_next (by omega)]
    have hrec := ih (current + 1) { di with direct := di.direct.setIfInBounds current (T.getD current 0) }
      (by omega) (by omega)
    refine wp_mono hrec ?_
    rintro ⟨di', bs⟩ d' ⟨rfl, hbs, hdi, hdir⟩
    refine ⟨rfl, by rw [hbs]; congr 1; omega, hdi, ?_⟩
    intro k hk
    rw [hdir k hk]
    by_cases hc : k = current
    · subst hc
      rw [if_neg (by omega), if_pos (by omega), Vector.getElem_setIfInBounds]
      simp
    · by_cases hr : current + 1 ≤ k ∧ k < current + 1 + n
      · rw [if_pos hr, if_pos (by omega)]
      · rw [if_neg hr, if_neg (by omega), Vector.getElem_setIfInBounds]
        simp [Ne.symm hc]

theorem fillIndirect1_spec (T : List UInt32) (d : Disk) (n current base : Nat) (b : Block)
    (hn : current + n ≤ 128) (hlen : base + current + n ≤ T.length) :
    (fillIndirect1 n current b (T.drop (base + current))).wp (fun r d' =>
      d' = d ∧ r.1 = T.drop (base + current + n) ∧
      ∀ k, u32At r.2 k =
        if current ≤ k ∧ k < current + n then T.getD (base + k) 0 else u32At b k) d := by
  induction n generalizing current b with
  | zero =>
    simp only [fillIndirect1, wp_pure, Nat.add_zero, true_and]
    intro k
    rw [if_neg (by omega)]
  | succ n ih =>
    simp only [fillIndirect1, wp_bind]
    rw [wp_next (by omega)]
    have hrec := ih (current + 1) (setU32 b current (T.getD (base + current) 0)) (by omega) (by omega)
    refine wp_mono hrec ?_
    rintro ⟨bs, b'⟩ d' ⟨rfl, hbs, hent⟩
    refine ⟨rfl, by rw [hbs]; congr 1; omega, ?_⟩
    intro k
    rw [hent k]
    by_cases hc : k = current
    · subst hc
      rw [if_neg (by omega), if_pos (by omega), u32At_setU32_same b (by omega)]
    · by_cases hr : current + 1 ≤ k ∧ k < current + 1 + n
      · rw [if_pos hr, if_pos (by omega)]
      · rw [if_neg hr, if_neg (by omega), u32At_setU32_ne b (by omega) hc]

/-- The places of the second-level index blocks. -/
def SubPos (p : Nat) : Prop := 158 ≤ p ∧ (p - 158) % 129 = 0

/-- The first place that `j` data blocks behind the double indirect block leave free. -/
def startPos (j : Nat) : Nat := 158 + 129 * (j / 128) + if j % 128 = 0 then 0 else j % 128 + 1

/-- One round of the double indirect loop: with entry `j` filled in, the places before the next
start hold their blocks. -/
theorem ptr2_update {T : List UInt32} (hT : T.Nodup) {d : Disk} {i2 : Block} {j : Nat}
    (hlen : startPos (j + 1) ≤ T.length)
    (hpre : ∀ r, 158 + r < 158 + 129 * (j / 128) + 1 + j % 128 → ptr2 d i2 r = T.getD (158 + r) 0) :
    ∀ r, 158 + r < startPos (j + 1) →
      ptr2 (Function.update d (T.getD (158 + 129 * (j / 128)) 0).toNat
        (setU32 (d (T.getD (158 + 129 * (j / 128)) 0).toNat) (j % 128)
          (T.getD (158 + 129 * (j / 128) + 1 + j % 128) 0))) i2 r = T.getD (158 + r) 0 := by
  have hend : startPos (j + 1) = 158 + 129 * (j / 128) + 2 + j % 128 := by
    unfold startPos
    split_ifs <;> omega
  rw [hend] at hlen ⊢
  -- a second-level block is found through an entry the round does not change
  have hsub : ∀ a, a ≤ j / 128 → u32At i2 a = T.getD (158 + 129 * a) 0 := by
    intro a ha
    have := hpre (129 * a) (by omega)
    unfold ptr2 at this
    rw [if_pos (by omega), Nat.mul_div_cancel_left _ (by decide)] at this
    exact this
  intro r hr
  unfold ptr2
  by_cases hm : r % 129 = 0
  · rw [if_pos hm, hsub _ (by omega)]
    congr 1
    omega
  · rw [if_neg hm, hsub _ (by omega)]
    by_cases ha : r / 129 = j / 128
    · rw [ha, Function.update_self]
      by_cases hb : r % 129 - 1 = j % 128
      · rw [hb, u32At_setU32_same _ (by omega)]
        congr 1
        omega
      · rw [u32At_setU32_ne _ (by omega) hb]
        have := hpre r (by omega)
        unfold ptr2 at this
        rw [if_neg hm, hsub _ (by omega), ha] at this
        exact this
    · rw [Function.update_of_ne (getD_toNat_ne hT (by omega) (by omega) (by omega))]
      have := hpre r (by omega)
      unfold ptr2 at this
      rw [if_neg hm, hsub _ (by omega)] at this
      exact this

theorem fillIndirect2_spec {T : List UInt32} (hT : T.Nodup) (n : Nat) :
    ∀ (j : Nat) (d : Disk) (i2 : Block), j + n ≤ 16384 → startPos (j + n) ≤ T.length →
      (∀ r, 158 + r < startPos j → ptr2 d i2 r = T.getD (158 + r) 0) →
      (fillIndirect2 n (j / 128) (j % 128) i2 (T.drop (startPos j))).wp (fun r d' =>
        r.1 = T.drop (startPos (j + n)) ∧
        (∀ q, 158 + q < startPos (j + n) → ptr2 d' r.2 q = T.getD (158 + q) 0) ∧
        SameOff T SubPos d d') d := by
  induction n with
  | zero =>
    intro j d i2 _ _ hpre
    simp only [fillIndirect2, wp_pure]
    exact ⟨rfl, hpre, SameOff.refl T SubPos d⟩
  | succ n ih =>
    intro j d i2 hj hlen hpre
    have hmono : startPos (j + 1) ≤ startPos (j + (n + 1)) := by
      unfold startPos
      split_ifs <;> omega
    have hend : startPos (j + 1) = 158 + 129 * (j / 128) + 2 + j % 128 := by
      unfold startPos
      split_ifs <;> omega
    -- the second-level block: taken from the list at its first entry, found in `i2` afterwards
    have key : ∀ i2' : Block,
        (∀ r, 158 + r < 158 + 129 * (j / 128) + 1 + j % 128 →
          ptr2 d i2' r = T.getD (158 + r) 0) →
        (do
          let bs ← withModify (u32At i2' (j / 128)).toNat fun indirect1 => do
            let taken ← next (T.drop (158 + 129 * (j / 128) + 1 + j % 128))
            pure (taken.2, setU32 indirect1 (j % 128) taken.1)
          if j % 128 + 1 = 128 then fillIndirect2 n (j / 128 + 1) 0 i2' bs
          else fillIndirect2 n (j / 128) (j % 128 + 1) i2' bs : EfsM _).wp (fun r d' =>
            r.1 = T.drop (startPos (j + (n + 1))) ∧
            (∀ q, 158 + q < startPos (j + (n + 1)) → ptr2 d' r.2 q = T.getD (158 + q) 0) ∧
            SameOff T SubPos d d') d := by
      intro i2' hpre'
      have hs : u32At i2' (j / 128) = T.getD (158 + 129 * (j / 128)) 0 := by
        have := hpre' (129 * (j / 128)) (by omega)
        unfold ptr2 at this
        rw [if_pos (by omega), Nat.mul_div_cancel_left _ (by decide)] at this
        exact this
      have hstep := ptr2_update hT (Nat.le_trans hmono hlen) hpre'
      have hplace : 158 + 129 * (j / 128) < T.length := by omega
      have hoff := SameOff.update (S := SubPos) d hplace ⟨by omega, by omega⟩
        (setU32 (d (T.getD (158 + 129 * (j / 128)) 0).toNat) (j % 128)
          (T.getD (158 + 129 * (j / 128) + 1 + j % 128) 0))
      have hrec := ih (j + 1) _ i2' (by omega) (by rw [show j + 1 + n = j + (n + 1) by omega]; exact hlen) hstep
      rw [show j + 1 + n = j + (n + 1) by omega] at hrec
      simp only [wp_bind, wp_withModify, hs]
      rw [wp_next (by omega)]
      simp only [wp_pure]
      have hdrop : 158 + 129 * (j / 128) + 1 + j % 128 + 1 = startPos (j + 1) := by omega
      rw [hdrop]
      by_cases hc : j % 128 + 1 = 128
      · rw [if_pos hc]
        rw [show (j + 1) / 128 = j / 128 + 1 by omega, show (j + 1) % 128 = 0 by omega] at hrec
        exact wp_mono hrec fun r d' h => ⟨h.1, h.2.1, hoff.trans h.2.2⟩
      · rw [if_neg hc]
        rw [show (j + 1) / 128 = j / 128 by omega, show (j + 1) % 128 = j % 128 + 1 by omega] at hrec
        exact wp_mono hrec fun r d' h => ⟨h.1, h.2.1, hoff.trans h.2.2⟩
    simp only [fillIndirect2, wp_bind, wp_assert, inodeIndirect1Count]
    refine ⟨by omega, ?_⟩
    by_cases hb : j % 128 = 0
    · have hst : startPos j = 158 + 129 * (j / 128) := by
        unfold startPos
        rw [if_pos hb, Nat.add_zero]
      rw [if_pos hb, hst]
      simp only [wp_bind]
      rw [wp_next (by omega)]
      simp only [wp_pure]
      have hk := key (setU32 i2 (j / 128) (T.getD (158 + 129 * (j / 128)) 0)) ?_
      · rw [hb, Nat.add_zero] at hk
        simp only [wp_bind] at hk
        rw [hb]
        exact hk
      · intro r hr
        have hdiv : r / 129 ≤ j / 128 := by omega
        unfold ptr2
        by_cases hrj : r = 129 * (j / 128)
        · have hm : r % 129 = 0 := by omega
          rw [if_pos hm, show r / 129 = j / 128 by omega, u32At_setU32_same _ (by omega), hrj]
        · have hlt : r / 129 < j / 128 := by omega
          have hne : r / 129 ≠ j / 128 := by omega
          have := hpre r (by rw [hst]; omega)
          unfold ptr2 at this
          rw [u32At_setU32_ne _ (by omega) hne]
          exact this
    · have hst : startPos j = 158 + 129 * (j / 128) + 1 + j % 128 := by
        unfold startPos
        rw [if_neg hb]
        omega
      rw [if_neg hb, hst]
      simp only [wp_bind, wp_pure]
      have hk := key i2 (by rw [← hst]; exact hpre)
      simp only [wp_bind] at hk
      exact hk

/-! ### The phases of `increase_size` -/

/-- The fields `increase_size` and `clear_size` leave alone. -/
def SameMeta (di di' : DiskInode) : Prop :=
  di'.inodeId = di.inodeId ∧ di'.nlink = di.nlink ∧ di'.type = di.type

section Phases

variable {T : List UInt32} {d : Disk} {di : DiskInode} {cur tot : Nat} {bs : List UInt32}

theorem ptr_direct {p : Nat} (h : p < 28) : ptr d di p = di.direct[p] := by
  simp [ptr, h]

theorem ptr_indirect1 : ptr d di 28 = di.indirect1 := by
  simp [ptr]

theorem ptr_single {p : Nat} (h1 : 29 ≤ p) (h2 : p < 157) :
    ptr d di p = u32At (d di.indirect1.toNat) (p - 29) := by
  unfold ptr
  rw [dif_neg (by omega), if_neg (by omega), if_pos h2]

theorem ptr_indirect2 : ptr d di 157 = di.indirect2 := by
  simp [ptr]

theorem ptr_double {p : Nat} (h : 158 ≤ p) :
    ptr d di p = ptr2 d (d di.indirect2.toNat) (p - 158) := by
  unfold ptr
  rw [dif_neg (by omega), if_neg (by omega), if_neg (by omega), if_neg (by omega)]

theorem ptr_sub {a : Nat} :
    ptr d di (158 + 129 * a) = u32At (d di.indirect2.toNat) a := by
  rw [ptr_double (by omega), Nat.add_sub_cancel_left]
  unfold ptr2
  rw [if_pos (by omega), Nat.mul_div_cancel_left _ (by decide)]

/-- Pointers up to place `p` read only the inode and the index blocks at the places before `p`. -/
theorem ptr_congr {d' : Disk} {di' : DiskInode} {p : Nat}
    (hdir : p < 28 → di'.direct = di.direct)
    (h1 : 28 ≤ p → di'.indirect1 = di.indirect1) (h2 : 157 ≤ p → di'.indirect2 = di.indirect2)
    (hd : ∀ q, q < p → IndexPos q → d' (ptr d di q).toNat = d (ptr d di q).toNat) :
    ptr d' di' p = ptr d di p := by
  by_cases hp1 : p < 28
  · simp only [ptr_direct hp1, hdir hp1]
  by_cases hp2 : p = 28
  · subst hp2
    rw [ptr_indirect1, ptr_indirect1, h1 (le_refl _)]
  by_cases hp3 : p < 157
  · have := hd 28 (by omega) (.inl rfl)
    rw [ptr_indirect1] at this
    rw [ptr_single (by omega) hp3, ptr_single (by omega) hp3, h1 (by omega), this]
  by_cases hp4 : p = 157
  · subst hp4
    rw [ptr_indirect2, ptr_indirect2, h2 (le_refl _)]
  have hi2 := hd 157 (by omega) (.inr (.inl rfl))
  rw [ptr_indirect2] at hi2
  rw [ptr_double (by omega), ptr_double (by omega), h2 (by omega), hi2]
  unfold ptr2
  by_cases hm : (p - 158) % 129 = 0
  · rw [if_pos hm, if_pos hm]
  · have hs := hd (158 + 129 * ((p - 158) / 129)) (by omega) (.inr (.inr ⟨by omega, by omega⟩))
    rw [ptr_sub] at hs
    rw [if_neg hm, if_neg hm, hs]

theorem phaseDirect (hF : Filled T d di (totalBlocksFor cur) bs) (hle : cur ≤ tot)
    (hlen : T.length = totalBlocksFor tot) :
    (fillDirect (min tot 28 - cur) cur di bs).wp (fun r d' =>
      d' = d ∧ Filled T d r.1 (max (totalBlocksFor cur) (min tot 28)) r.2 ∧
        r.1 = { di with direct := r.1.direct }) d := by
  rw [totalBlocksFor_eq] at hF hlen ⊢
  by_cases hc : cur < 28
  · rw [if_pos (by omega)] at hF ⊢
    rw [hF.rest]
    have hlen' : cur + (min tot 28 - cur) ≤ T.length := by
      rw [hlen]
      split_ifs <;> omega
    refine wp_mono (fillDirect_spec T d _ cur di (by omega) hlen') ?_
    rintro ⟨di', bs'⟩ d' ⟨rfl, hbs, hdi, hdir⟩
    have hm : cur + (min tot 28 - cur) = max cur (min tot 28) := by omega
    rw [hm] at hbs hdir
    refine ⟨rfl, ⟨hbs, ?_⟩, hdi⟩
    intro p hp
    have hp28 : p < 28 := by omega
    rw [ptr_direct hp28, hdir p hp28]
    by_cases hpc : cur ≤ p
    · rw [if_pos ⟨hpc, hp⟩]
    · rw [if_neg (by omega), ← ptr_direct hp28]
      exact hF.ptr_eq p (by omega)
  · have hz : min tot 28 - cur = 0 := by omega
    rw [hz]
    simp only [fillDirect, wp_pure, true_and, and_true]
    have hm : max (if cur ≤ 28 then cur else if cur ≤ 156 then cur + 1
        else cur + 2 + (cur - 156 + 127) / 128) (min tot 28) =
        if cur ≤ 28 then cur else if cur ≤ 156 then cur + 1
          else cur + 2 + (cur - 156 + 127) / 128 := by
      split_ifs <;> omega
    rw [hm]
    exact hF

/-- Storing the block of the next place in the inode fills that place. -/
theorem Filled.step {m : Nat} {di' : DiskInode} (hF : Filled T d di m bs)
    (hptr : ∀ p, p < m → ptr d di' p = ptr d di p) (hm : ptr d di' m = T.getD m 0) :
    Filled T d di' (m + 1) (T.drop (m + 1)) := by
  refine ⟨rfl, fun p hp => ?_⟩
  by_cases hpm : p = m
  · rw [hpm, hm]
  · rw [hptr p (by omega)]
    exact hF.ptr_eq p (by omega)

/-- The new single indirect block takes place 28. -/
theorem Filled.indirect1 (hF : Filled T d di (max (totalBlocksFor cur) 28) bs) (hc : cur ≤ 28) :
    bs = T.drop 28 ∧
      Filled T d { di with indirect1 := T.getD 28 0 } (max (totalBlocksFor cur) 29) (T.drop (28 + 1)) := by
  have hpos := totalBlocksFor_eq cur
  rw [if_pos hc] at hpos
  rw [show max (totalBlocksFor cur) 28 = 28 by omega] at hF
  rw [show max (totalBlocksFor cur) 29 = 28 + 1 by omega]
  refine ⟨hF.rest, hF.step (fun p hp => ?_) ptr_indirect1⟩
  exact ptr_congr (fun _ => rfl) (fun h => absurd h (by omega)) (fun _ => rfl) (fun _ _ _ => rfl)

/-- The new double indirect block takes place 157. -/
theorem Filled.indirect2 (hF : Filled T d di (max (totalBlocksFor cur) 157) bs) (hc : cur ≤ 156) :
    bs = T.drop 157 ∧
      Filled T d { di with indirect2 := T.getD 157 0 } (max (totalBlocksFor cur) 158) (T.drop (157 + 1)) := by
  have hle : totalBlocksFor cur ≤ 157 := by
    rw [totalBlocksFor_eq]
    split_ifs <;> omega
  rw [show max (totalBlocksFor cur) 157 = 157 by omega] at hF
  rw [show max (totalBlocksFor cur) 158 = 157 + 1 by omega]
  refine ⟨hF.rest, hF.step (fun p hp => ?_) ptr_indirect2⟩
  exact ptr_congr (fun _ => rfl) (fun _ => rfl) (fun h => absurd h (by omega)) (fun _ _ _ => rfl)

/-- A file that has the single indirect block has place 28 filled. -/
theorem Filled.had_indirect1 (hF : Filled T d di (max (totalBlocksFor cur) 28) bs) (hc : ¬cur ≤ 28) :
    Filled T d di (max (totalBlocksFor cur) 29) bs := by
  have hM : max (totalBlocksFor cur) 28 = max (totalBlocksFor cur) 29 := by
    rw [totalBlocksFor_eq]
    split_ifs <;> omega
  rwa [hM] at hF

/-- A file that has the double indirect block has place 157 filled. -/
theorem Filled.had_indirect2 (hF : Filled T d di (max (totalBlocksFor cur) 157) bs) (hc : ¬cur ≤ 156) :
    Filled T d di (max (totalBlocksFor cur) 158) bs := by
  have hM : max (totalBlocksFor cur) 157 = max (totalBlocksFor cur) 158 := by
    rw [totalBlocksFor_eq]
    split_ifs <;> omega
  rwa [hM] at hF

theorem phaseIndirect1 (hcur : cur ≤ tot) (htot : 28 < tot)
    (hlen : T.length = totalBlocksFor tot)
    (hF : Filled T d di (max (totalBlocksFor cur) 29) bs) :
    (withModify di.indirect1.toNat fun indirect1 =>
      fillIndirect1 (min (tot - 28) 128 - (max cur 28 - 28)) (max cur 28 - 28) indirect1 bs :
        EfsM (List UInt32)).wp (fun bs' d' =>
      Filled T d' di (max (totalBlocksFor cur) (29 + min (tot - 28) 128)) bs' ∧
        SameOff T IndexPos d d') d := by
  have hlen28 : 28 < T.length := by
    rw [hlen, totalBlocksFor_eq]
    split_ifs <;> omega
  have hi1 : di.indirect1 = T.getD 28 0 := by
    rw [← ptr_indirect1 (d := d)]
    exact hF.ptr_eq 28 (by omega)
  rw [wp_withModify]
  by_cases hc : cur ≤ 156
  · have hm : max (totalBlocksFor cur) 29 = 29 + (max cur 28 - 28) := by
      rw [totalBlocksFor_eq]
      split_ifs <;> omega
    have hm' : max (totalBlocksFor cur) (29 + min (tot - 28) 128) =
        29 + (max cur 28 - 28) + (min (tot - 28) 128 - (max cur 28 - 28)) := by
      rw [totalBlocksFor_eq]
      split_ifs <;> omega
    have hT' : 29 + (max cur 28 - 28) + (min (tot - 28) 128 - (max cur 28 - 28)) ≤ T.length := by
      rw [hlen, totalBlocksFor_eq]
      split_ifs <;> omega
    rw [hm] at hF
    rw [hF.rest]
    refine wp_mono (fillIndirect1_spec T d _ _ 29 _ (by omega) hT') ?_
    rintro ⟨bs', b'⟩ d' ⟨rfl, hbs, hent⟩
    rw [hm', hi1]
    refine ⟨⟨hbs, ?_⟩, SameOff.update _ hlen28 (.inl rfl) _⟩
    intro p hp
    by_cases hp29 : p < 29
    · rw [← hF.ptr_eq p (by omega)]
      apply ptr_congr (fun _ => rfl) (fun _ => rfl) (fun _ => rfl)
      intro q hq hqi
      unfold IndexPos at hqi
      omega
    · rw [ptr_single (by omega) (by omega), hi1, Function.update_self, hent]
      by_cases hpc : max cur 28 - 28 ≤ p - 29
      · rw [if_pos (by omega)]
        congr 1
        omega
      · rw [if_neg (by omega), ← ptr_single (by omega) (by omega)]
        exact hF.ptr_eq p (by omega)
  · have hz : min (tot - 28) 128 - (max cur 28 - 28) = 0 := by omega
    have hm : max (totalBlocksFor cur) (29 + min (tot - 28) 128) = max (totalBlocksFor cur) 29 := by
      rw [totalBlocksFor_eq]
      split_ifs <;> omega
    rw [hz, hm]
    simp only [fillIndirect1, wp_pure, Function.update_eq_self]
    exact ⟨hF, SameOff.refl T IndexPos d⟩

theorem phaseIndirect2 (hT : T.Nodup) (hcur : cur ≤ tot) (htot : 156 < tot) (hmax : tot ≤ 16540)
    (hlen : T.length = totalBlocksFor tot)
    (hF : Filled T d di (max (totalBlocksFor cur) 158) bs) :
    (withModify di.indirect2.toNat fun indirect2 =>
      fillIndirect2 (tot - 28 - 128 - (max (max cur 28 - 28) 128 - 128))
        ((max (max cur 28 - 28) 128 - 128) / 128) ((max (max cur 28 - 28) 128 - 128) % 128)
        indirect2 bs : EfsM (List UInt32)).wp (fun _ d' =>
      (∀ p, p < T.length → ptr d' di p = T.getD p 0) ∧ SameOff T IndexPos d d') d := by
  have hj : max (max cur 28 - 28) 128 - 128 = max cur 156 - 156 := by omega
  have hn : tot - 28 - 128 - (max cur 156 - 156) = tot - 156 - (max cur 156 - 156) := by omega
  have hstart : max (totalBlocksFor cur) 158 = startPos (max cur 156 - 156) := by
    rw [totalBlocksFor_eq]
    unfold startPos
    split_ifs <;> omega
  have hend : startPos (max cur 156 - 156 + (tot - 156 - (max cur 156 - 156))) = T.length := by
    rw [hlen, totalBlocksFor_eq]
    unfold startPos
    split_ifs <;> omega
  have hlong : 158 < T.length := by
    rw [hlen, totalBlocksFor_eq]
    split_ifs <;> omega
  have hi2 : di.indirect2 = T.getD 157 0 := by
    rw [← ptr_indirect2 (d := d)]
    exact hF.ptr_eq 157 (by omega)
  rw [wp_withModify, hj, hn, hF.rest, hstart]
  have hspec := fillIndirect2_spec hT (tot - 156 - (max cur 156 - 156)) (max cur 156 - 156) d
    (d di.indirect2.toNat) (by omega) (le_of_eq hend) (by
      intro r hr
      have := hF.ptr_eq (158 + r) (by omega)
      rw [ptr_double (by omega), Nat.add_sub_cancel_left] at this
      exact this)
  refine wp_mono hspec ?_
  rintro ⟨bs', b'⟩ d' ⟨-, hptr, hoff⟩
  rw [hend] at hptr
  rw [hi2]
  refine ⟨?_, ?_⟩
  · intro p hp
    by_cases hp158 : p < 158
    · -- the places before the double indirect tree are untouched
      rw [← hF.ptr_eq p (by omega)]
      apply ptr_congr (fun _ => rfl) (fun _ => rfl) (fun _ => rfl)
      intro q hq hqi
      have hq28 : q = 28 ∨ q = 157 := by
        unfold IndexPos at hqi
        omega
      rcases hq28 with rfl | rfl
      · rw [hF.ptr_eq 28 (by omega),
          Function.update_of_ne (getD_toNat_ne hT (by omega) (by omega) (by omega))]
        apply hoff
        intro q' hq' hs
        have h158 := hs.1
        exact getD_toNat_ne hT hq' (by omega) (by omega)
      · omega
    · rw [ptr_double (by omega), hi2, Function.update_self]
      have hq := hptr (p - 158) (by omega)
      rw [show 158 + (p - 158) = p by omega] at hq
      rw [← hq]
      -- a second-level block is not the double indirect block
      have hs := hptr (129 * ((p - 158) / 129)) (by omega)
      unfold ptr2 at hs
      rw [if_pos (by omega), Nat.mul_div_cancel_left _ (by decide)] at hs
      unfold ptr2
      split
      · rfl
      · rw [hs, Function.update_of_ne (getD_toNat_ne hT (by omega) (by omega) (by omega))]
  · apply SameOff.trans (hoff.mono fun q hq => .inr (.inr hq))
    exact SameOff.update _ (by omega) (.inr (.inl rfl)) _

/-- The places of `T` are all filled: what `increase_size` has to reach. -/
structure Grown (T : List UInt32) (d : Disk) (di : DiskInode) (d' : Disk) (di' : DiskInode) :
    Prop where
  ptr_eq : ∀ p, p < T.length → ptr d' di' p = T.getD p 0
  size_eq : di'.size = di.size
  sameMeta : SameMeta di di'
  sameOff : SameOff T IndexPos d d'

theorem growIndirect2_spec (hT : T.Nodup) (hcur : cur ≤ tot) (htot : 156 < tot)
    (hmax : tot ≤ 16540) (hlen : T.length = totalBlocksFor tot)
    (hF : Filled T d di (max (totalBlocksFor cur) 157) bs) :
    (growIndirect2 di (max (max cur 28 - 28) 128) (tot - 28) bs).wp
      (fun di' d' => Grown T d di d' di') d := by
  have hlong : 158 ≤ T.length := by
    rw [hlen, totalBlocksFor_eq]
    split_ifs <;> omega
  simp only [growIndirect2, inodeIndirect1Count]
  by_cases hc : cur ≤ 156
  · obtain ⟨rfl, hF'⟩ := hF.indirect2 hc
    rw [if_pos (by omega)]
    simp only [wp_bind]
    rw [wp_next (by omega)]
    simp only [wp_pure]
    have hphase := phaseIndirect2 hT hcur htot hmax hlen hF'
    refine wp_mono hphase ?_
    rintro _ d' ⟨hptr, hoff⟩
    exact ⟨hptr, rfl, ⟨rfl, rfl, rfl⟩, hoff⟩
  · rw [if_neg (by omega)]
    simp only [wp_bind, wp_pure]
    refine wp_mono (phaseIndirect2 hT hcur htot hmax hlen (hF.had_indirect2 hc)) ?_
    rintro _ d' ⟨hptr, hoff⟩
    exact ⟨hptr, rfl, ⟨rfl, rfl, rfl⟩, hoff⟩

/-- `growIndirect1` once the single indirect block is there. -/
theorem growIndirect1_tail (hT : T.Nodup) (hcur : cur ≤ tot) (htot : 28 < tot)
    (hmax : tot ≤ 16540) (hlen : T.length = totalBlocksFor tot)
    (hF : Filled T d di (max (totalBlocksFor cur) 29) bs) :
    (do
      let bs ← withModify di.indirect1.toNat fun indirect1 =>
        fillIndirect1 (min (tot - 28) 128 - (max cur 28 - 28)) (max cur 28 - 28) indirect1 bs
      if tot - 28 > 128 then
        growIndirect2 di (max (max cur 28 - 28) (min (tot - 28) 128)) (tot - 28) bs
      else
        pure di : EfsM DiskInode).wp (fun di' d' => Grown T d di d' di') d := by
  have hpos := totalBlocksFor_eq tot
  simp only [wp_bind]
  refine wp_mono (phaseIndirect1 hcur htot hlen hF) ?_
  rintro bs' d' ⟨hF', hoff⟩
  by_cases h156 : tot - 28 > 128
  · have hm : 29 + min (tot - 28) 128 = 157 := by omega
    have hc : max (max cur 28 - 28) (min (tot - 28) 128) = max (max cur 28 - 28) 128 := by omega
    rw [hm] at hF'
    rw [if_pos h156, hc]
    refine wp_mono (growIndirect2_spec hT hcur (by omega) hmax hlen hF') ?_
    intro di' d'' hG
    exact ⟨hG.ptr_eq, hG.size_eq, hG.sameMeta, hoff.trans hG.sameOff⟩
  · have hm : max (totalBlocksFor cur) (29 + min (tot - 28) 128) = T.length := by
      rw [if_neg (by omega), if_pos (by omega)] at hpos
      rw [hlen]
      have := totalBlocksFor_mono hcur
      omega
    rw [hm] at hF'
    rw [if_neg h156, wp_pure]
    exact ⟨hF'.ptr_eq, rfl, ⟨rfl, rfl, rfl⟩, hoff⟩

theorem growIndirect1_spec (hT : T.Nodup) (hcur : cur ≤ tot) (htot : 28 < tot)
    (hmax : tot ≤ 16540) (hlen : T.length = totalBlocksFor tot)
    (hF : Filled T d di (max (totalBlocksFor cur) 28) bs) :
    (growIndirect1 di (max cur 28) tot bs).wp (fun di' d' => Grown T d di d' di') d := by
  have hlong : 29 ≤ T.length := by
    rw [hlen, totalBlocksFor_eq]
    split_ifs <;> omega
  simp only [growIndirect1, inodeDirectCount, inodeIndirect1Count]
  by_cases hc : cur ≤ 28
  · obtain ⟨rfl, hF'⟩ := hF.indirect1 hc
    have htail := growIndirect1_tail hT hcur htot hmax hlen hF'
    rw [if_pos (by omega)]
    simp only [wp_bind] at htail ⊢
    rw [wp_next (by omega)]
    simp only [wp_pure] at htail ⊢
    refine wp_mono htail fun a d' h => wp_mono h ?_
    intro di' d'' hG
    exact ⟨hG.ptr_eq, hG.size_eq, hG.sameMeta, hG.sameOff⟩
  · rw [if_neg (by omega)]
    have htail := growIndirect1_tail hT hcur htot hmax hlen (hF.had_indirect1 hc)
    simpa only [wp_bind, wp_pure] using htail

end Phases

theorem blockList_length (d : Disk) (di : DiskInode) (n : Nat) :
    (blockList d di n).length = totalBlocksFor n := by
  simp [blockList]

theorem blockList_getD (d : Disk) (di : DiskInode) {n p : Nat} (h : p < totalBlocksFor n) :
    (blockList d di n).getD p 0 = ptr d di p := by
  simp [blockList, h]

/-- Before it grows, a tree has filled the places it has. -/
theorem Filled.start (d : Disk) (di : DiskInode) (newSize : UInt32) (v : List UInt32) (cur : Nat) :
    Filled (blockList d di cur ++ v) d { di with size := newSize } (totalBlocksFor cur) v := by
  refine ⟨?_, fun p hp => ?_⟩
  · rw [← blockList_length d di cur, List.drop_left]
  · have hp' : p < (blockList d di cur).length := by rw [blockList_length]; exact hp
    rw [List.getD_append _ _ _ _ hp', blockList_getD d di hp]
    rfl

/-- **Growing appends.** With as many distinct new blocks as the new size needs, `increase_size`
appends them to the block list and writes to index blocks only. -/
theorem increaseSize_spec {d : Disk} {di : DiskInode} {newSize : UInt32} {v : List UInt32}
    {cur tot : Nat} (hcur : di.dataBlocks.toNat = cur) (htot : (dataBlocksOf newSize).toNat = tot)
    (hle : cur ≤ tot) (hmax : tot ≤ 16540)
    (hv : v.length = totalBlocksFor tot - totalBlocksFor cur)
    (hT : (blockList d di cur ++ v).Nodup) :
    (di.increaseSize newSize v).wp (fun di' d' =>
      blockList d' di' tot = blockList d di cur ++ v ∧ di'.size = newSize ∧ SameMeta di di' ∧
        SameOff (blockList d di cur ++ v) IndexPos d d') d := by
  have hmono := totalBlocksFor_mono hle
  have hpos := totalBlocksFor_eq tot
  have hlen : (blockList d di cur ++ v).length = totalBlocksFor tot := by
    rw [List.length_append, blockList_length, hv]
    omega
  have hF := Filled.start d di newSize v cur
  generalize blockList d di cur ++ v = T at *
  -- a grown tree has the block list `T`
  have finish : ∀ (d' : Disk) (di' : DiskInode), Grown T d { di with size := newSize } d' di' →
      blockList d' di' tot = T ∧ di'.size = newSize ∧ SameMeta di di' ∧
        SameOff T IndexPos d d' := by
    intro d' di' hG
    refine ⟨?_, hG.size_eq, hG.sameMeta, hG.sameOff⟩
    apply List.ext_getElem
    · rw [blockList_length, hlen]
    · intro p hp hp'
      simpa [blockList, hp'] using hG.ptr_eq p hp'
  have htot' : ({ di with size := newSize } : DiskInode).dataBlocks.toNat = tot := htot
  simp only [increaseSize, inodeDirectCount, hcur, htot', wp_bind]
  refine wp_mono (phaseDirect hF hle hlen) ?_
  rintro ⟨di1, bs1⟩ d1 ⟨rfl, hF1, hdi1⟩
  simp only at hF1 hdi1 ⊢
  have hback : ∀ (d' : Disk) (di' : DiskInode), Grown T d1 di1 d' di' →
      Grown T d1 { di with size := newSize } d' di' := by
    intro d' di' hG
    rw [hdi1] at hG
    exact ⟨hG.ptr_eq, hG.size_eq, hG.sameMeta, hG.sameOff⟩
  by_cases h28 : tot > 28
  · have hc : max cur (min tot 28) = max cur 28 := by omega
    rw [show min tot 28 = 28 by omega] at hF1
    rw [if_pos h28, hc]
    refine wp_mono (growIndirect1_spec hT hle h28 hmax hlen hF1) ?_
    intro di' d' hG
    exact finish d' di' (hback d' di' hG)
  · rw [if_neg h28, wp_pure]
    rw [show max (totalBlocksFor cur) (min tot 28) = T.length by
      rw [if_pos (by omega)] at hpos
      omega] at hF1
    exact finish d1 di1 (hback d1 di1 ⟨hF1.ptr_eq, rfl, ⟨rfl, rfl, rfl⟩, SameOff.refl T IndexPos d1⟩)

/-! ## Clearing -/

/-- The pointers of the first `b` entries behind second-level block `a`, after that block's own. -/
theorem map_ptr2_sub (d : Disk) (i2 : Block) (a : Nat) {b : Nat} (hb : b ≤ 128) :
    (List.range (b + 1)).map (fun r => ptr2 d i2 (129 * a + r)) =
      u32At i2 a :: (List.range b).map (u32At (d (u32At i2 a).toNat)) := by
  rw [List.range_succ_eq_map, List.map_cons, List.map_map]
  congr 1
  · unfold ptr2
    rw [Nat.add_zero, if_pos (by omega), Nat.mul_div_cancel_left _ (by decide)]
  · apply List.map_congr_left
    intro i hi
    have hi' : i < 128 := Nat.lt_of_lt_of_le (List.mem_range.mp hi) hb
    have hdiv : (129 * a + (i + 1)) / 129 = a := by omega
    have hmod : (129 * a + (i + 1)) % 129 = i + 1 := by omega
    show ptr2 d i2 (129 * a + (i + 1)) = _
    unfold ptr2
    rw [hdiv, hmod, if_neg (by omega), Nat.add_sub_cancel]

theorem collectIndirect2_spec (d : Disk) (i2 : Block) (n a : Nat) :
    (collectIndirect2 i2 n a).wp (fun v d' =>
      d' = d ∧ v = (List.range (129 * n)).map fun r => ptr2 d i2 (129 * a + r)) d := by
  induction n generalizing a with
  | zero => simp [collectIndirect2]
  | succ n ih =>
    simp only [collectIndirect2, wp_bind, wp_withModify, wp_pure, Function.update_eq_self]
    refine wp_mono (ih (a + 1)) ?_
    rintro v d' ⟨rfl, rfl⟩
    refine ⟨rfl, ?_⟩
    rw [show 129 * (n + 1) = 128 + 1 + 129 * n by omega, List.range_add, List.map_append,
      map_ptr2_sub _ _ _ (le_refl 128), List.map_map]
    congr 1
    apply List.map_congr_left
    intro r _
    show _ = ptr2 d' i2 (129 * a + (128 + 1 + r))
    congr 1
    omega

theorem map_ptr_direct (d : Disk) (di : DiskInode) {k : Nat} (hk : k ≤ 28) :
    (List.range k).map (ptr d di) = di.direct.toList.take k := by
  apply List.ext_getElem
  · simp [hk]
  · intro i hi _
    have hi' : i < 28 := by
      simp only [List.length_map, List.length_range] at hi
      omega
    simp [ptr_direct hi']

theorem map_ptr_single (d : Disk) (di : DiskInode) {k : Nat} (hk : k ≤ 128) :
    (List.range (29 + k)).map (ptr d di) =
      di.direct.toList.take 28 ++ [di.indirect1] ++
        (List.range k).map (u32At (d di.indirect1.toNat)) := by
  rw [show 29 + k = 28 + 1 + k by omega, List.range_add, List.map_append, List.range_add,
    List.map_append, map_ptr_direct d di (le_refl 28)]
  congr 1
  rw [List.map_map]
  apply List.map_congr_left
  intro i hi
  have hi' : i < 128 := Nat.lt_of_lt_of_le (List.mem_range.mp hi) hk
  show ptr d di (28 + 1 + i) = _
  rw [ptr_single (by omega) (by omega), show 28 + 1 + i - 29 = i by omega]

theorem map_ptr_double (d : Disk) (di : DiskInode) (k : Nat) :
    (List.range (158 + k)).map (ptr d di) =
      di.direct.toList.take 28 ++ [di.indirect1] ++
        (List.range 128).map (u32At (d di.indirect1.toNat)) ++ [di.indirect2] ++
        (List.range k).map (ptr2 d (d di.indirect2.toNat)) := by
  rw [show 158 + k = 29 + 128 + 1 + k by omega, List.range_add, List.map_append, List.range_add,
    List.map_append, map_ptr_single d di (le_refl 128)]
  congr 1
  rw [List.map_map]
  apply List.map_congr_left
  intro i _
  show ptr d di (29 + 128 + 1 + i) = _
  rw [ptr_double (by omega), show 29 + 128 + 1 + i - 158 = i by omega]

/-- **Clearing returns every block.** `clear_size` returns the block list and changes no block. -/
theorem clearSize_spec (d : Disk) {di : DiskInode} {n : Nat} (hn : di.dataBlocks.toNat = n)
    (hmax : n ≤ 16540) :
    di.clearSize.wp (fun r d' =>
      d' = d ∧ r.1 = blockList d di n ∧ r.2.size = 0 ∧ SameMeta di r.2) d := by
  have hpos := totalBlocksFor_eq n
  simp only [clearSize, hn, inodeDirectCount, inodeIndirect1Count, inodeIndirect2Count]
  unfold blockList
  by_cases h28 : n > 28
  · rw [if_pos h28]
    simp only [wp_bind, wp_withModify, wp_pure, Function.update_eq_self]
    by_cases h156 : n - 28 > 128
    · rw [if_pos h156]
      simp only [wp_bind, wp_assert]
      refine ⟨by omega, ?_⟩
      rw [wp_withModify, wp_bind]
      refine wp_mono (collectIndirect2_spec d (d di.indirect2.toNat) _ 0) ?_
      rintro full d' ⟨rfl, hfull⟩
      have hmin : min n 28 = 28 := by omega
      have hmin' : min (n - 28) 128 = 128 := by omega
      by_cases hb : (n - 28 - 128) % 128 > 0
      · -- the last second-level block is partly used
        rw [if_pos hb]
        simp only [wp_bind, wp_withModify, wp_pure, Function.update_eq_self, true_and]
        have htotal : totalBlocksFor n =
            158 + (129 * ((n - 28 - 128) / 128) + ((n - 28 - 128) % 128 + 1)) := by
          rw [hpos]
          split_ifs <;> omega
        have hlast := map_ptr2_sub d' (d' di.indirect2.toNat) ((n - 28 - 128) / 128)
          (Nat.le_of_lt (Nat.mod_lt (n - 28 - 128) (by decide : 128 > 0)))
        refine ⟨?_, rfl, rfl, rfl⟩
        rw [htotal, map_ptr_double, List.range_add, List.map_append, List.map_map, hfull, hmin,
          hmin', ← hlast]
        simp only [Nat.mul_zero, Nat.zero_add]
        rfl
      · rw [if_neg hb]
        simp only [wp_bind, wp_pure, List.append_nil, Function.update_eq_self, true_and]
        have htotal : totalBlocksFor n = 158 + 129 * ((n - 28 - 128) / 128) := by
          rw [hpos]
          split_ifs <;> omega
        refine ⟨?_, rfl, rfl, rfl⟩
        rw [htotal, map_ptr_double, hfull, hmin, hmin']
        simp only [Nat.mul_zero, Nat.zero_add]
    · rw [if_neg h156, wp_pure]
      have htotal : totalBlocksFor n = 29 + (n - 28) := by
        rw [hpos]
        split_ifs <;> omega
      refine ⟨rfl, ?_, rfl, rfl, rfl, rfl⟩
      rw [htotal, map_ptr_single d di (by omega)]
      have hmin : min n 28 = 28 := by omega
      have hmin' : min (n - 28) 128 = n - 28 := by omega
      rw [hmin, hmin']
  · rw [if_neg h28, wp_pure]
    have htotal : totalBlocksFor n = n := by
      rw [hpos, if_pos (by omega)]
    refine ⟨rfl, ?_, rfl, rfl, rfl, rfl⟩
    rw [htotal, map_ptr_direct d di (by omega)]
    have hmin : min n 28 = n := by omega
    rw [hmin]

/-! ## Data blocks and index blocks -/

/-- The pointer to data block `k`, as `get_block_id` follows it. -/
def dataBlock (d : Disk) (di : DiskInode) (k : Nat) : UInt32 :=
  if h : k < inodeDirectCount then
    di.direct[k]
  else if k < indirect1Bound then
    u32At (d di.indirect1.toNat) (k - inodeDirectCount)
  else
    u32At (d (u32At (d di.indirect2.toNat) ((k - indirect1Bound) / inodeIndirect1Count)).toNat)
      ((k - indirect1Bound) % inodeIndirect1Count)

/-- The index blocks of an inode of `n` data blocks: `indirect1`, `indirect2` and the second-level
blocks, those that are in use. -/
def indexBlocks (d : Disk) (di : DiskInode) (n : Nat) : List UInt32 :=
  (if n > inodeDirectCount then [di.indirect1] else []) ++
    if n > indirect1Bound then
      di.indirect2 :: (List.range ((n - indirect1Bound + inodeIndirect1Count - 1) /
        inodeIndirect1Count)).map (u32At (d di.indirect2.toNat))
    else []

/-- The blocks of an inode. -/
def inodeBlocks (d : Disk) (di : DiskInode) : List UInt32 :=
  (List.range di.dataBlocks.toNat).map (dataBlock d di) ++ indexBlocks d di di.dataBlocks.toNat

theorem dataBlock_eq (d : Disk) (di : DiskInode) (k : Nat) :
    dataBlock d di k = ptr d di (dataPos k) := by
  unfold dataBlock
  by_cases h1 : k < 28
  · rw [dif_pos h1, dataPos, if_pos h1, ptr_direct h1]
  rw [dif_neg h1]
  by_cases h2 : k < 156
  · rw [if_pos h2, dataPos, if_neg h1, if_pos h2, ptr_single (by omega) (by omega)]
    rfl
  · rw [if_neg h2, dataPos, if_neg h1, if_neg h2, ptr_double (by omega)]
    have hdiv : (k + 3 + (k - 156) / 128 - 158) / 129 = (k - 156) / 128 := by omega
    have hmod : (k + 3 + (k - 156) / 128 - 158) % 129 = (k - 156) % 128 + 1 := by omega
    unfold ptr2
    rw [hdiv, hmod, if_neg (by omega), Nat.add_sub_cancel]

/-- The places of the index blocks of a tree over `n` data blocks. -/
def indexPlaces (n : Nat) : List Nat :=
  (if n > 28 then [28] else []) ++
    if n > 156 then 157 :: (List.range ((n - 156 + 127) / 128)).map (158 + 129 * ·) else []

theorem mem_indexPlaces {n p : Nat} :
    p ∈ indexPlaces n ↔ IndexPos p ∧ p < totalBlocksFor n := by
  have htot := totalBlocksFor_eq n
  unfold indexPlaces IndexPos
  rw [List.mem_append]
  by_cases h1 : n > 28
  · by_cases h2 : n > 156
    · rw [if_neg (by omega), if_neg (by omega)] at htot
      simp only [if_pos h1, if_pos h2, List.mem_cons, List.not_mem_nil, or_false, List.mem_map,
        List.mem_range]
      constructor
      · rintro (rfl | rfl | ⟨a, ha, rfl⟩)
        · omega
        · omega
        · omega
      · rintro ⟨rfl | rfl | ⟨h3, h4⟩, h5⟩
        · exact .inl rfl
        · exact .inr (.inl rfl)
        · exact .inr (.inr ⟨(p - 158) / 129, by omega, by omega⟩)
    · rw [if_neg (by omega), if_pos (by omega)] at htot
      simp only [if_pos h1, if_neg h2, List.mem_singleton, List.not_mem_nil, or_false]
      omega
  · rw [if_pos (by omega)] at htot
    simp only [if_neg h1, if_neg (show ¬ n > 156 by omega), List.not_mem_nil, or_false, false_iff]
    omega

theorem indexPlaces_nodup (n : Nat) : (indexPlaces n).Nodup := by
  have hsub : ((List.range ((n - 156 + 127) / 128)).map (158 + 129 * ·)).Nodup :=
    List.nodup_range.map fun a b (h : 158 + 129 * a = 158 + 129 * b) => by omega
  unfold indexPlaces
  by_cases h1 : n > 28
  · by_cases h2 : n > 156
    · simp only [if_pos h1, if_pos h2]
      refine List.nodup_cons.mpr ⟨fun hmem => ?_, List.nodup_cons.mpr ⟨fun hmem => ?_, hsub⟩⟩
      · rcases List.mem_cons.mp hmem with h | h
        · omega
        · obtain ⟨a, _, ha⟩ := List.mem_map.mp h
          omega
      · obtain ⟨a, _, ha⟩ := List.mem_map.mp hmem
        omega
    · simp [h1, h2]
  · simp [h1, show ¬ n > 156 by omega]

/-- The places of the data blocks and of the index blocks are all places of the tree. -/
theorem places_perm (n : Nat) :
    ((List.range n).map dataPos ++ indexPlaces n).Perm (List.range (totalBlocksFor n)) := by
  refine (List.perm_ext_iff_of_nodup ?_ List.nodup_range).mpr ?_
  · refine List.nodup_append.mpr ⟨List.nodup_range.map fun _ _ h => dataPos_inj h,
      indexPlaces_nodup n, ?_⟩
    intro p hp q hq heq
    obtain ⟨k, _, rfl⟩ := List.mem_map.mp hp
    exact dataPos_not_index k (heq ▸ (mem_indexPlaces.mp hq).1)
  · intro p
    rw [List.mem_append, List.mem_map, List.mem_range, mem_indexPlaces]
    constructor
    · rintro (⟨k, hk, rfl⟩ | ⟨_, h⟩)
      · exact dataPos_lt (List.mem_range.mp hk)
      · exact h
    · intro h
      rcases pos_cases h with hi | ⟨k, hk, rfl⟩
      · exact .inr ⟨hi, h⟩
      · exact .inl ⟨k, List.mem_range.mpr hk, rfl⟩

/-- The blocks of an inode are those of its tree, in another order. -/
theorem inodeBlocks_perm (d : Disk) (di : DiskInode) :
    (inodeBlocks d di).Perm (blockList d di di.dataBlocks.toNat) := by
  have hindex : indexBlocks d di di.dataBlocks.toNat =
      (indexPlaces di.dataBlocks.toNat).map (ptr d di) := by
    unfold indexBlocks indexPlaces
    rw [List.map_append]
    congr 1
    · split_ifs
      · rw [List.map_singleton, ptr_indirect1]
      · rfl
    · split_ifs
      · rw [List.map_cons, ptr_indirect2, List.map_map]
        congr 1
        apply List.map_congr_left
        intro a _
        exact ptr_sub.symm
      · rfl
  have hdata : (List.range di.dataBlocks.toNat).map (dataBlock d di) =
      ((List.range di.dataBlocks.toNat).map dataPos).map (ptr d di) := by
    rw [List.map_map]
    apply List.map_congr_left
    intro k _
    exact dataBlock_eq d di k
  unfold inodeBlocks blockList
  rw [hindex, hdata, ← List.map_append]
  exact (places_perm _).map _

end DiskInode

end RCore.EasyFs
