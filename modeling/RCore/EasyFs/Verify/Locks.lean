import RCore.EasyFs.Verify.Durable
import RCore.EasyFs.Verify.Touched

/-!
# The locks that the routines hold

`get_block_cache(id).lock()` spins for ever on a block whose lock the caller holds. A routine that takes one lock at a
time is `orderly` if the blocks it takes are none of those that are held (`Nests.orderly_flat`). Two routines take a lock
inside another one: `increase_size` and `clear_size` work on the second-level index blocks while they hold the double
indirect block. These are different blocks because the tree of an inode names no block twice.
-/

namespace RCore.EasyFs

open RCore Prog CacheState DiskInode

/-! ## Flat routines -/

namespace Nests

variable {w : Bool} {m n : Nat} {α : Type} {p : EfsM α} {d : Disk} {held : List Nat}

/-- A routine that takes no handle. -/
theorem orderly_zero (hp : Nests w m p) (hm : m = 0) : p.orderly n d held := by
  induction hp generalizing d with
  | ret a => exact orderly_pure a
  | abort => exact orderly_abort
  | bind hp hf ihp ihf => exact orderly_bind (ihp hm) fun a d' _ => ihf a hm
  | read i hf ih => cases hm
  | modify i hf ih => cases hm

theorem touches_zero {S : Nat → Prop} (hp : Nests w m p) (hm : m = 0) : p.touches S d := by
  induction hp generalizing d with
  | ret a => exact touches_pure a
  | abort => exact touches_abort
  | bind hp hf ihp ihf => exact touches_bind.mpr ⟨ihp hm, fun a d' _ => ihf a hm⟩
  | read i hf ih => cases hm
  | modify i hf ih => cases hm

/-- A routine that takes one handle at a time takes none that is held if it touches none that is. -/
theorem orderly_flat (hp : Nests w m p) (hm : m ≤ 1) (hn : held.length ≤ n) (ht : p.touches (· ∉ held) d) :
    p.orderly n d held := by
  induction hp generalizing d with
  | ret a => exact orderly_pure a
  | abort => exact orderly_abort
  | bind hp hf ihp ihf =>
    obtain ⟨h1, h2⟩ := touches_bind.mp ht
    exact orderly_bind (ihp hm h1) fun a d' he => ihf a hm (h2 a d' he)
  | read i hf ih => exact orderly_withRead (touches_withRead.mp ht).1 hn ((hf _).orderly_zero (by omega))
  | modify i hf ih => exact orderly_withModify (touches_withModify.mp ht).1 hn ((hf _).orderly_zero (by omega))

end Nests

/-! ## Orderly routines on the cache -/

/-- A caller names the handle of a block by the block. -/
def handlesOf (held : List Nat) : List ((Unit × Nat) × Nat) := held.map fun i => (((), i), i)

/-- The cache stands for `d`, and the handles alive are those of the blocks `held`. -/
def Holding (d : Disk) (held : List Nat) (s : CacheState Unit) : Prop := Sim s ⟨fun _ => d, handlesOf held⟩

section OnCache

variable {d : Disk} {held : List Nat} {s : CacheState Unit} {i : Nat}

theorem lookup_handlesOf (hi : i ∈ held) : (handlesOf held).lookup ((), i) = some i := by
  induction held with
  | nil => exact absurd hi List.not_mem_nil
  | cons j held ih =>
    show List.lookup ((), i) ((((), j), j) :: handlesOf held) = some i
    by_cases hij : i = j
    · rw [hij, List.lookup_cons_self]
    · have hne : (((), i) == ((), j)) = false := beq_false_of_ne fun h => hij (Prod.mk.inj h).2
      rw [List.lookup_cons, hne]
      exact ih (List.mem_of_ne_of_mem hij hi)

theorem eraseP_handlesOf (i : Nat) (held : List Nat) :
    ((handlesOf held).eraseP fun x => x.1 = ((), i)) = handlesOf (held.erase i) := by
  rw [handlesOf, List.eraseP_map, List.erase_eq_eraseP, handlesOf]
  congr 2
  funext j
  by_cases hij : i = j
  · simp [hij]
  · simp [hij, Ne.symm hij]

/-- The handle of a block that is held shows the content of the block. -/
theorem Holding.deref (hs : Holding d held s) (hi : i ∈ held) : ∃ arc p c, s.handles.lookup ((), i) = some arc ∧
    p ∈ s.queue ∧ p.2 = arc ∧ p.1 = i ∧ s.arena[arc]? = some c ∧ c.cache = d i := by
  rcases lookup_cases ((), i) hs.handles with ⟨arc, b, hl, hl', hmem, hn⟩ | ⟨-, hnone⟩
  · rw [lookup_handlesOf hi] at hl'
    cases hl'
    obtain ⟨p, hp, harc, hpi, c, hc, -, hcache⟩ := Sim.deref hs hmem hn
    exact ⟨arc, p, c, hl, hp, harc, hpi, hc, hcache⟩
  · rw [lookup_handlesOf hi] at hnone
    cases hnone

/-- A handle is there to be had. -/
theorem Holding.take (hs : Holding d held s) (hroom : held.length < blockCacheMaxNum) (i : Nat) :
    ∃ s₁, (takeHandle ((), i) i).run s = some ((), s₁) ∧ Holding d (i :: held) s₁ := by
  have hlen : s.handles.length = held.length := by rw [hs.handles.length_eq, handlesOf, List.length_map]
  rcases hs.get i (d := ()) (b := i) fun _ _ _ _ _ => rfl with ⟨s₁, hrun, hsim, -⟩ | ⟨hmiss, hfull, huse, -⟩
  · refine ⟨s₁, ?_, hsim⟩
    rw [CacheState.step, Comp.run_bind] at hrun
    obtain ⟨⟨_, s₂⟩, htake, heq⟩ := Option.bind_eq_some_iff.mp hrun
    cases heq
    exact htake
  · exact absurd huse (not_full_of_hasRoom i hs.rep (fun _ _ _ _ => by rw [hlen]; exact hroom) hmiss hfull)

/-- **Running through the cache.** A routine in whose run the handles are taken in order, and never too many at a time,
does on the cache what it does on the plain store: the cache is never asked for a block when it is full of blocks in
use. -/
theorem locks_cached_run {α : Type} {p : EfsM α} {n : Nat} (hn : n < blockCacheMaxNum)
    {Q : α → Disk → List Nat → Prop} (hp : p.locks n Q d held) (hs : Holding d held s) :
    (∃ a d' s' held', p.exec d = some (a, d') ∧ (cached p).run s = some (a, s') ∧ Q a d' held' ∧ Holding d' held' s') ∨
      p.exec d = none ∧ (cached p).run s = none := by
  induction p generalizing d held s with
  | ret a => exact .inl ⟨a, d, s, held, rfl, rfl, locks_pure.mp hp, hs⟩
  | abort => exact .inr ⟨rfl, rfl⟩
  | acquire i k ih =>
    obtain ⟨-, hlen, hk⟩ := locks_acquire.mp hp
    obtain ⟨s₁, htake, hs₁⟩ := hs.take (Nat.lt_of_le_of_lt hlen hn) i
    obtain ⟨arc, _, c, hl, -, -, -, hc, hcache⟩ := hs₁.deref List.mem_cons_self
    have hrun : (cached (acquire i k)).run s = (cached (k (d i))).run s₁ := by
      simp only [cached, Comp.run_bind, htake, Option.bind_some, CacheState.lookup, Comp.run_get, hl, Comp.unwrap,
        Comp.run_pure, CacheState.deref, hc, hcache]
    rw [hrun]
    exact ih (d i) hk hs₁
  | store i b k ih =>
    obtain ⟨hi, hk⟩ := locks_store.mp hp
    obtain ⟨arc, p, c, hl, hpq, rfl, rfl, hc, -⟩ := hs.deref hi
    have hsim := Sim.assign hs hpq hc b
    rw [writeBlock_unit] at hsim
    have hrun : (cached (store p.1 b k)).run s =
        (cached k).run { s with arena := s.arena.set p.2 { c with cache := b, modified := true } } := by
      simp only [cached, Comp.run_bind, Option.bind_some, CacheState.lookup, Comp.run_get, hl, Comp.unwrap, Comp.run_pure,
        CacheState.deref, hc, CacheState.assign, Comp.run_modify]
    rw [hrun]
    exact ih hk hsim
  | release i k ih =>
    obtain ⟨hi, hk⟩ := locks_release.mp hp
    obtain ⟨arc, p, c, hl, hpq, harc, -⟩ := hs.deref hi
    have hdrop := dropArc_run (s := { s with handles := s.handles.eraseP fun x => x.1 = ((), i) })
      (List.mem_map.mpr ⟨p, hpq, harc⟩)
    have hrun : (cached (release i k)).run s =
        (cached k).run { s with handles := s.handles.eraseP fun x => x.1 = ((), i) } := by
      simp only [cached, dropHandle, Comp.run_bind, Option.bind_some, CacheState.lookup, Comp.run_get, hl, Comp.unwrap,
        Comp.run_pure, Comp.run_modify, hdrop]
    have hsim : Holding d (held.erase i) { s with handles := s.handles.eraseP fun x => x.1 = ((), i) } := by
      refine ⟨hs.rep.fewerHandles List.eraseP_subset, ?_⟩
      have herase : List.Forall₂ s.Names (s.handles.eraseP fun x => x.1 = ((), i))
          ((handlesOf held).eraseP fun x => x.1 = ((), i)) := forall₂_eraseP hs.handles
      rw [eraseP_handlesOf] at herase
      exact herase
    rw [hrun]
    exact ih hk hsim
  | sync k ih =>
    obtain ⟨rfl, hk⟩ := locks_sync.mp hp
    obtain ⟨s', hsync, hrep, hkeep, -⟩ := blockCacheSyncAll_run hs.rep
    have hrun : (cached (Prog.sync k)).run s = (cached k).run s' := by
      simp only [cached, Comp.run_bind, hsync, Option.bind_some]
    have hsim : Holding d [] s' := by
      refine ⟨hrep, ?_⟩
      rw [hkeep.handles]
      exact hs.handles.imp fun _ _ hn => hn.mono hkeep
    rw [hrun]
    exact ih hk hsim

/-- A routine that starts with no handle, and drops what it takes. -/
theorem orderly_runsAlike {α : Type} {p : EfsM α} {n : Nat} (hn : n < blockCacheMaxNum) (hp : p.orderly n d [])
    (hs : AtRest d s) : RunsAlike p d s fun d' s' => AtRest d' s' := by
  have hhold : Holding d [] s := ⟨hs.rep, by rw [hs.idle]; exact List.Forall₂.nil⟩
  rcases locks_cached_run hn (orderly_iff.mp hp) hhold with ⟨a, d', s', held', he, hr, rfl, hs'⟩ | hnone
  · exact .inl ⟨a, d', s', he, hr, hs'.rep, List.forall₂_nil_right_iff.mp hs'.handles⟩
  · exact .inr hnone

end OnCache

/-! ## Bitmaps -/

theorem Bitmap.alloc_touches (bm : Bitmap) (d : Disk) : bm.alloc.touches (bm.startBlockId ≤ ·) d := by
  unfold Bitmap.alloc
  generalize 0 = blockId
  induction bm.blocks generalizing blockId d with
  | zero => exact touches_pure _
  | succ k ih =>
    refine touches_withModify_bind.mpr ⟨Nat.le_add_right _ _, ?_⟩
    split
    · exact touches_pure _
    · exact ih _ _

theorem Bitmap.dealloc_touches (bm : Bitmap) (bit : Nat) (d : Disk) :
    (bm.dealloc bit).touches (bm.startBlockId ≤ ·) d :=
  touches_withModify.mpr ⟨Nat.le_add_right _ _, touches_bind.mpr ⟨touches_assert _, fun _ _ _ => touches_pure _⟩⟩

namespace EasyFileSystem

variable (fs : EasyFileSystem) (d : Disk)

theorem allocData_touches : fs.allocData.touches (fs.dataBitmap.startBlockId ≤ ·) d :=
  touches_bind.mpr ⟨fs.dataBitmap.alloc_touches d, fun bit _ _ =>
    touches_bind.mpr ⟨touches_unwrap bit, fun _ _ _ => touches_pure _⟩⟩

theorem allocBlocks_touches (k : Nat) :
    (Inode.allocBlocks fs k).touches (fs.dataBitmap.startBlockId ≤ ·) d := by
  induction k generalizing d with
  | zero => exact touches_pure _
  | succ k ih =>
    refine touches_bind.mpr ⟨fs.allocData_touches d, fun b d' _ => ?_⟩
    exact touches_bind.mpr ⟨ih d', fun _ _ _ => touches_pure _⟩

theorem deallocBlocks_touches {bs : List UInt32} (h : ∀ b ∈ bs, fs.dataBitmap.startBlockId ≤ b.toNat) :
    (Inode.deallocBlocks fs bs).touches (fs.dataBitmap.startBlockId ≤ ·) d := by
  induction bs generalizing d with
  | nil => exact touches_pure _
  | cons b bs ih =>
    obtain ⟨hb, hbs⟩ := List.forall_mem_cons.mp h
    refine touches_bind.mpr ⟨?_, fun _ d' _ => ih d' hbs⟩
    exact touches_withModify_bind.mpr ⟨hb, fs.dataBitmap.dealloc_touches _ _⟩

end EasyFileSystem

/-! ## Growing -/

namespace DiskInode

theorem fillIndirect2_touches {S : UInt32 → Prop} (k : Nat) : ∀ (a0 b0 : Nat) (indirect2 : Block) (bs : List UInt32)
    (d : Disk), (∀ b ∈ bs, S b) → (b0 ≠ 0 → S (u32At indirect2 a0)) →
      (fillIndirect2 k a0 b0 indirect2 bs).touches (fun x => ∃ b, S b ∧ b.toNat = x) d := by
  induction k with
  | zero => exact fun _ _ _ _ _ _ _ => touches_pure _
  | succ k ih =>
    intro a0 b0 indirect2 bs d hbs hsub
    refine touches_bind.mpr ⟨touches_assert _, fun _ e he => ?_⟩
    obtain ⟨ha, -⟩ := (wp_assert ..).mp (wp_eq_iff.mpr he)
    extract_lets rest
    -- the second-level block is there: one more entry of it
    have hrest : ∀ r : Block × List UInt32, (∀ b ∈ r.2, S b) → S (u32At r.1 a0) → ∀ e,
        (rest r).touches (fun x => ∃ b, S b ∧ b.toNat = x) e := by
      rintro ⟨i2, bs⟩ hbs hs e
      refine touches_bind.mpr ⟨touches_withModify.mpr ⟨⟨_, hs, rfl⟩, ?_⟩, fun bs' e' he => ?_⟩
      · exact touches_bind.mpr ⟨(next_nests (w := true) (n := 0) bs).touches_zero rfl, fun _ _ _ => touches_pure _⟩
      · have hbs' : ∀ b ∈ bs', S b := by
          cases bs with
          | nil => cases he
          | cons b bs =>
            cases he
            exact fun c hc => hbs c (List.mem_cons_of_mem _ hc)
        split
        · exact ih _ _ _ _ _ hbs' fun h => absurd rfl h
        · exact ih _ _ _ _ _ hbs' fun _ => hs
    split
    · -- its number is the next one of the list
      cases bs with
      | nil => exact touches_abort
      | cons b bs =>
        obtain ⟨hb, hbs'⟩ := List.forall_mem_cons.mp hbs
        exact hrest (setU32 indirect2 a0 b, bs) hbs' (by rwa [u32At_setU32_same _ ha]) _
    · exact hrest (indirect2, bs) hbs (hsub ‹_›) _

section Phases

variable {T : List UInt32} {d : Disk} {di : DiskInode} {cur tot : Nat} {bs : List UInt32} {n : Nat} {held : List Nat}

theorem getD_mem_drop {k p : Nat} (hk : k ≤ p) (hp : p < T.length) : T.getD p 0 ∈ T.drop k := by
  rw [List.mem_drop_iff_getElem]
  refine ⟨p - k, by omega, ?_⟩
  rw [List.getD_eq_getElem _ _ hp]
  congr 1
  omega

variable (hT : T.Nodup) (htot : 156 < tot) (hlen : T.length = totalBlocksFor tot)
  (hheld : ∀ b ∈ T, b.toNat ∉ held) (hn : held.length + 1 ≤ n)
include hT htot hlen hheld hn

theorem growIndirect2_orderly (hcur : cur ≤ tot) (hF : Filled T d di (max (totalBlocksFor cur) 157) bs) :
    (growIndirect2 di (max (max cur 28 - 28) 128) (tot - 28) bs).orderly n d held := by
  have hlong : 158 < T.length := by
    rw [hlen, totalBlocksFor_eq]
    split_ifs <;> omega
  have hmono := totalBlocksFor_mono hcur
  rw [← hlen] at hmono
  unfold growIndirect2
  extract_lets current' total' rest
  have hj : current' = max cur 156 - 156 := show max (max cur 28 - 28) 128 - 128 = max cur 156 - 156 by omega
  clear_value current' total'
  have hrest : ∀ (di : DiskInode) (bs : List UInt32), Filled T d di (max (totalBlocksFor cur) 158) bs →
      (rest (di, bs)).orderly n d held := by
    intro di bs hF
    have hi2 : di.indirect2 = T.getD 157 0 := by
      rw [← ptr_indirect2 (d := d)]
      exact hF.ptr_eq 157 (by omega)
    have hmem : di.indirect2 ∈ T := by
      rw [hi2, List.getD_eq_getElem _ _ (by omega)]
      exact List.getElem_mem _
    refine orderly_bind (orderly_withModify (hheld _ hmem) (by omega) ?_) fun _ _ _ => orderly_pure _
    refine (fillIndirect2_nests (n := 0) _ _ _ _ _).orderly_flat (Nat.le_refl 1) hn ?_
    refine (fillIndirect2_touches (S := (· ∈ T.drop 158)) _ _ _ _ _ d ?_ fun hb0 => ?_).mono ?_
    · intro b hb
      rw [hF.rest, show max (totalBlocksFor cur) 158 = 158 + (max (totalBlocksFor cur) 158 - 158) by omega,
        ← List.drop_drop] at hb
      exact List.mem_of_mem_drop hb
    · -- a second-level block that has entries is in the tree
      have hne : (max cur 156 - 156) % 128 ≠ 0 := hj ▸ hb0
      rw [show max cur 156 - 156 = cur - 156 by omega] at hj hne
      have hpos : 158 + 129 * ((cur - 156) / 128) < totalBlocksFor cur := by
        rw [totalBlocksFor_eq]
        split_ifs <;> omega
      show u32At (d di.indirect2.toNat) (current' / 128) ∈ _
      rw [hj, ← ptr_sub, hF.ptr_eq _ (by omega)]
      exact getD_mem_drop (by omega) (by omega)
    · rintro x ⟨b, hb, rfl⟩ hmem'
      rcases List.mem_cons.mp hmem' with heq | hmem'
      · have hdrop := drop_eq_cons (show 157 < T.length by omega)
        have hnd := (List.drop_sublist 157 T).nodup hT
        rw [hdrop, List.nodup_cons, ← hi2] at hnd
        exact hnd.1 (UInt32.toNat_inj.mp heq ▸ hb)
      · exact hheld b (List.mem_of_mem_drop hb) hmem'
  by_cases hc : cur ≤ 156
  · obtain ⟨rfl, hF'⟩ := hF.indirect2 hc
    rw [if_pos (show max (max cur 28 - 28) 128 = 128 by omega), drop_eq_cons (by omega)]
    exact hrest _ _ hF'
  · rw [if_neg (show ¬max (max cur 28 - 28) 128 = 128 by omega)]
    exact hrest _ _ (hF.had_indirect2 hc)

omit hT htot in
/-- The part of `growIndirect1` after its new block. -/
theorem growIndirect1_tail_orderly (hT : T.Nodup) (hcur : cur ≤ tot) (htot : 28 < tot)
    (hF : Filled T d di (max (totalBlocksFor cur) 29) bs) :
    (do
      let bs ← withModify di.indirect1.toNat fun indirect1 =>
        fillIndirect1 (min (tot - 28) 128 - (max cur 28 - 28)) (max cur 28 - 28) indirect1 bs
      if tot - 28 > 128 then
        growIndirect2 di (max (max cur 28 - 28) (min (tot - 28) 128)) (tot - 28) bs
      else
        pure di : EfsM DiskInode).orderly n d held := by
  have hlong : 28 < T.length := by
    rw [hlen, totalBlocksFor_eq]
    split_ifs <;> omega
  have hi1 : di.indirect1 ∈ T := by
    rw [← ptr_indirect1 (d := d), hF.ptr_eq 28 (by omega), List.getD_eq_getElem _ _ hlong]
    exact List.getElem_mem _
  refine (orderly_withModify (hheld _ hi1) (by omega) ((fillIndirect1_nests (w := true) (n := 0) _ _ _ _).orderly_zero rfl)).bind
    (phaseIndirect1 hcur htot hlen hF).wlp ?_
  rintro bs' d' ⟨hF', -⟩
  by_cases h156 : tot - 28 > 128
  · rw [show 29 + min (tot - 28) 128 = 157 by omega] at hF'
    rw [if_pos h156, show max (max cur 28 - 28) (min (tot - 28) 128) = max (max cur 28 - 28) 128 by omega]
    exact growIndirect2_orderly hT (by omega) hlen hheld hn hcur hF'
  · rw [if_neg h156]
    exact orderly_pure di

omit hT htot in
theorem growIndirect1_orderly (hT : T.Nodup) (hcur : cur ≤ tot) (htot : 28 < tot)
    (hF : Filled T d di (max (totalBlocksFor cur) 28) bs) :
    (growIndirect1 di (max cur 28) tot bs).orderly n d held := by
  have hlong : 28 < T.length := by
    rw [hlen, totalBlocksFor_eq]
    split_ifs <;> omega
  unfold growIndirect1
  by_cases hc : cur ≤ 28
  · obtain ⟨rfl, hF'⟩ := hF.indirect1 hc
    rw [if_pos (show max cur 28 = 28 by omega), drop_eq_cons hlong]
    exact growIndirect1_tail_orderly hlen hheld hn hT hcur htot hF'
  · rw [if_neg (show ¬max cur 28 = 28 by omega)]
    exact growIndirect1_tail_orderly hlen hheld hn hT hcur htot (hF.had_indirect1 hc)

end Phases

variable {d : Disk} {di : DiskInode} {n : Nat} {held : List Nat}

/-- `increase_size` takes the index blocks of the grown tree, each while at most the double indirect block is held. -/
theorem increaseSize_orderly {newSize : UInt32} {v : List UInt32} {cur tot : Nat} (hcur : di.dataBlocks.toNat = cur)
    (htot : (dataBlocksOf newSize).toNat = tot) (hle : cur ≤ tot)
    (hv : v.length = totalBlocksFor tot - totalBlocksFor cur) (hT : (blockList d di cur ++ v).Nodup)
    (hheld : ∀ b ∈ blockList d di cur ++ v, b.toNat ∉ held) (hn : held.length + 1 ≤ n) :
    (di.increaseSize newSize v).orderly n d held := by
  have hmono := totalBlocksFor_mono hle
  have hlen : (blockList d di cur ++ v).length = totalBlocksFor tot := by
    rw [List.length_append, blockList_length, hv]
    omega
  have hF := Filled.start d di newSize v cur
  have htot' : ({ di with size := newSize } : DiskInode).dataBlocks.toNat = tot := htot
  simp only [increaseSize, inodeDirectCount, hcur, htot']
  refine ((fillDirect_nests (w := true) (n := 0) _ _ _ _).orderly_zero rfl).bind (phaseDirect hF hle hlen).wlp ?_
  rintro ⟨di1, bs1⟩ d1 ⟨rfl, hF1, -⟩
  dsimp only at hF1 ⊢
  by_cases h28 : tot > 28
  · rw [show min tot 28 = 28 by omega] at hF1
    rw [if_pos h28, show max cur (min tot 28) = max cur 28 by omega]
    exact growIndirect1_orderly hlen hheld hn hT hle h28 hF1
  · rw [if_neg h28]
    exact orderly_pure di1

/-! ## Clearing -/

theorem collectIndirect2_touches {S : Nat → Prop} (indirect2 : Block) (k : Nat) : ∀ (a : Nat) (d : Disk),
    (∀ j, a ≤ j → j < a + k → S (u32At indirect2 j).toNat) → (collectIndirect2 indirect2 k a).touches S d := by
  induction k with
  | zero => exact fun _ _ _ => touches_pure _
  | succ k ih =>
    intro a d h
    refine touches_withModify_bind.mpr ⟨h a (Nat.le_refl a) (by omega), ?_⟩
    refine touches_bind.mpr ⟨ih (a + 1) _ fun j h1 h2 => h j (by omega) (by omega), fun _ _ _ => touches_pure _⟩

/-- `clear_size` takes the index blocks of the tree, each while at most the double indirect block is held. -/
theorem clearSize_orderly {k : Nat} (hk : di.dataBlocks.toNat = k) (hT : (blockList d di k).Nodup)
    (hheld : ∀ b ∈ blockList d di k, b.toNat ∉ held) (hn : held.length + 1 ≤ n) : di.clearSize.orderly n d held := by
  have hpos := totalBlocksFor_eq k
  have hmem : ∀ {p}, p < totalBlocksFor k → (ptr d di p).toNat ∉ held := fun hp =>
    hheld _ (List.mem_map_of_mem (List.mem_range.mpr hp))
  simp only [clearSize, hk, inodeDirectCount, inodeIndirect1Count, inodeIndirect2Count]
  by_cases h28 : k > 28
  · rw [if_pos h28]
    have h1 : di.indirect1.toNat ∉ held := by
      rw [← ptr_indirect1 (d := d)]
      exact hmem (by split_ifs at hpos <;> omega)
    refine orderly_bind (orderly_withModify h1 (by omega) (orderly_pure _)) fun v e he => ?_
    obtain ⟨-, rfl⟩ : _ ∧ e = d := by
      have hwp := (wp_withModify ..).mp (wp_eq_iff.mpr he)
      rw [wp_pure, Function.update_eq_self] at hwp
      exact ⟨hwp.1, hwp.2.symm⟩
    by_cases h156 : k - 28 > 128
    · rw [if_pos h156]
      generalize hm : k - 28 - 128 = m
      refine orderly_bind (orderly_assert _) fun _ e' he' => ?_
      obtain ⟨-, rfl⟩ : _ ∧ e' = e := by
        have hwp := (wp_assert ..).mp (wp_eq_iff.mpr he')
        exact ⟨hwp.1, hwp.2.2.symm⟩
      rw [if_neg (by omega), if_neg (by omega)] at hpos
      have h2 : di.indirect2.toNat ∉ held := by
        rw [← ptr_indirect2 (d := e')]
        exact hmem (by omega)
      -- the second-level blocks in use are in the tree, and none of them is the double indirect block
      have hsub : ∀ j, 158 + 129 * j < totalBlocksFor k →
          (u32At (e' di.indirect2.toNat) j).toNat ∉ di.indirect2.toNat :: held := by
        intro j hj hin
        rw [← ptr_sub] at hin
        rcases List.mem_cons.mp hin with heq | hin
        · rw [← ptr_indirect2 (d := e')] at heq
          exact ptr_toNat_ne hT hj (by omega) (by omega) heq
        · exact hmem hj hin
      refine orderly_bind (orderly_withModify h2 (by omega) ?_) fun _ _ _ => orderly_pure _
      refine orderly_bind ((collectIndirect2_nests (n := 0) _ _ _).orderly_flat (Nat.le_refl 1) hn
        (collectIndirect2_touches _ _ _ _ fun j _ hj => hsub j (by omega))) fun full e he => ?_
      obtain rfl := ((collectIndirect2_spec e' (e' di.indirect2.toNat) (m / 128) 0).wlp _ _ he).1
      by_cases hb : m % 128 > 0
      · rw [if_pos hb]
        refine orderly_bind (orderly_withModify (hsub (m / 128) (by omega)) hn (orderly_pure _)) fun _ _ _ => ?_
        exact orderly_bind (orderly_pure _) fun _ _ _ => orderly_pure _
      · rw [if_neg hb]
        exact orderly_bind (orderly_pure _) fun _ _ _ => orderly_pure _
    · rw [if_neg h156]
      exact orderly_pure _
  · rw [if_neg h28]
    exact orderly_pure _

end DiskInode

end RCore.EasyFs
