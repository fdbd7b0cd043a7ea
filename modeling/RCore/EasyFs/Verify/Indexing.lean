import RCore.EasyFs.Verify.FileRep

/-!
# The index of a file over its whole life

`total_blocks` counts, `increase_size` fills, `get_block_id` looks up and `clear_size` collects. Over any ascending sizes the
blocks that are given are the tree's blocks in the order of their places, so the four agree at every size.
-/

namespace RCore.EasyFs.DiskInode

open RCore Prog

/-! ## Growing in steps -/

/-- Calls of `increase_size` one after the other. -/
def grow : DiskInode → List (UInt32 × List UInt32) → EfsM DiskInode
  | di, [] => pure di
  | di, (newSize, v) :: steps => do
    let di ← di.increaseSize newSize v
    grow di steps

/-- The blocks that are given. -/
def given (steps : List (UInt32 × List UInt32)) : List UInt32 := steps.flatMap Prod.snd

/-- The sizes ascend from `size` on, and every step is given as many blocks as `blocks_num_needed` says
(`blocksNumNeeded_exec`). -/
def Ascending : UInt32 → List (UInt32 × List UInt32) → Prop
  | _, [] => True
  | size, (newSize, v) :: steps => size ≤ newSize ∧ newSize.toNat ≤ indirect2Bound * blockSz ∧
      v.length = (totalBlocks newSize - totalBlocks size).toNat ∧ Ascending newSize steps

/-- The size after the steps. -/
def lastSize : UInt32 → List (UInt32 × List UInt32) → UInt32
  | size, [] => size
  | _, (newSize, _) :: steps => lastSize newSize steps

variable {d d' : Disk} {di di' : DiskInode} {blocks : List UInt32} {steps : List (UInt32 × List UInt32)}

theorem blocksNumNeeded_exec (d : Disk) {newSize : UInt32} (hle : di.size ≤ newSize) :
    (di.blocksNumNeeded newSize).exec d = some (totalBlocks newSize - totalBlocks di.size, d) := by
  refine wp_eq_iff.mp ?_
  rw [blocksNumNeeded, wp_bind, wp_assert, wp_pure]
  exact ⟨hle, rfl, rfl⟩

/-- The tree of an inode has these blocks, in the order of their places. -/
structure HasBlocks (d : Disk) (di : DiskInode) (blocks : List UInt32) : Prop where
  small : di.size.toNat ≤ 16540 * 512
  list : blockList d di di.dataBlocks.toNat = blocks

theorem HasBlocks.dataBlocks_le (h : HasBlocks d di blocks) : di.dataBlocks.toNat ≤ 16540 := by
  have hdata : di.dataBlocks.toNat = fileBlocks di.size.toNat := dataBlocksOf_toNat h.small
  have hsmall := h.small
  unfold fileBlocks at hdata
  omega

theorem HasBlocks.length (h : HasBlocks d di blocks) : blocks.length = totalBlocksFor di.dataBlocks.toNat := by
  rw [← h.list, blockList_length]

/-- One call of `increase_size` puts its blocks behind those that are there. -/
theorem HasBlocks.increaseSize (h : HasBlocks d di blocks) {newSize : UInt32} {v : List UInt32} (hle : di.size ≤ newSize)
    (hmax : newSize.toNat ≤ 16540 * 512) (hlen : v.length = (totalBlocks newSize - totalBlocks di.size).toNat)
    (hnew : (blocks ++ v).Nodup) : (di.increaseSize newSize v).wp (fun di' d' =>
      HasBlocks d' di' (blocks ++ v) ∧ di'.size = newSize) d := by
  have hle' : di.size.toNat ≤ newSize.toNat := UInt32.le_iff_toNat_le.mp hle
  have hold : di.dataBlocks.toNat = fileBlocks di.size.toNat := dataBlocksOf_toNat h.small
  have hgrown : (dataBlocksOf newSize).toNat = fileBlocks newSize.toNat := dataBlocksOf_toNat hmax
  have hmono := fileBlocks_mono hle'
  have hcount : v.length = totalBlocksFor (fileBlocks newSize.toNat) - totalBlocksFor (fileBlocks di.size.toNat) := by
    have hge : totalBlocks di.size ≤ totalBlocks newSize := by
      rw [UInt32.le_iff_toNat_le, toNat_totalBlocks h.small, toNat_totalBlocks hmax]
      exact totalBlocksFor_mono hmono
    rw [hlen, UInt32.toNat_sub_of_le _ _ hge, toNat_totalBlocks h.small, toNat_totalBlocks hmax]
  have hbound : fileBlocks newSize.toNat ≤ 16540 := by
    unfold fileBlocks
    omega
  rw [← h.list, hold] at hnew
  refine wp_mono (increaseSize_spec hold hgrown hmono hbound hcount hnew) ?_
  rintro di' d' ⟨hlist, hsize, -, -⟩
  refine ⟨⟨by rw [hsize]; exact hmax, ?_⟩, hsize⟩
  rw [show di'.dataBlocks.toNat = fileBlocks newSize.toNat by rw [← hgrown, dataBlocks, hsize], hlist, ← hold, h.list]

/-- Any number of calls put all their blocks behind those that are there. -/
theorem HasBlocks.grow (h : HasBlocks d di blocks) (hasc : Ascending di.size steps) (hnew : (blocks ++ given steps).Nodup) :
    (DiskInode.grow di steps).wp (fun di' d' => HasBlocks d' di' (blocks ++ given steps) ∧ di'.size = lastSize di.size steps)
      d := by
  induction steps generalizing d di blocks with
  | nil =>
    rw [DiskInode.grow, wp_pure, given, List.flatMap_nil, List.append_nil]
    exact ⟨h, rfl⟩
  | cons step steps ih =>
    obtain ⟨newSize, v⟩ := step
    obtain ⟨hle, hmax, hlen, hasc⟩ := hasc
    rw [given, List.flatMap_cons, ← List.append_assoc] at hnew ⊢
    rw [DiskInode.grow, wp_bind]
    refine wp_mono (h.increaseSize hle hmax hlen (List.nodup_append.mp hnew).1) ?_
    rintro di₁ d₁ ⟨h₁, rfl⟩
    exact ih h₁ hasc hnew

/-! ## The four traversals -/

/-- `get_block_id` finds the block at the place of a data block. -/
theorem HasBlocks.lookup (h : HasBlocks d di blocks) {i : Nat} (hi : i < di.dataBlocks.toNat) :
    ∃ b, (di.getBlockId i).exec d = some (b, d) ∧ blocks[dataPos i]? = some b := by
  have hle := h.dataBlocks_le
  have hplace : dataPos i < blocks.length := h.length ▸ dataPos_lt hi
  obtain ⟨b, d₁, hexec, rfl, rfl⟩ := getBlockId_spec d di (show i < indirect2Bound from Nat.lt_of_lt_of_le hi hle)
  refine ⟨_, hexec, ?_⟩
  have hget := blockList_getD d₁ di (dataPos_lt hi)
  rw [h.list] at hget
  rw [← hget, List.getD_eq_getElem _ _ hplace, List.getElem?_eq_getElem hplace]

/-- What the tree of an inode is after it was given `blocks`. -/
structure Indexed (d : Disk) (di : DiskInode) (blocks : List UInt32) : Prop where
  /-- Every data block has a block. -/
  lookup : ∀ i, i < di.dataBlocks.toNat → ∃ b ∈ blocks, (di.getBlockId i).exec d = some (b, d)
  /-- No two have the same. -/
  distinct : ∀ i j b, i < di.dataBlocks.toNat → j < di.dataBlocks.toNat → (di.getBlockId i).exec d = some (b, d) →
    (di.getBlockId j).exec d = some (b, d) → i = j
  /-- The data and index blocks are all blocks that were given: none was left over. -/
  parts : (inodeBlocks d di).Perm blocks
  count : (inodeBlocks d di).length = (totalBlocks di.size).toNat

theorem HasBlocks.indexed (h : HasBlocks d di blocks) (hnew : blocks.Nodup) : Indexed d di blocks := by
  have hparts : (inodeBlocks d di).Perm blocks := h.list ▸ inodeBlocks_perm d di
  refine ⟨fun i hi => ?_, fun i j b hi hj hbi hbj => ?_, hparts, ?_⟩
  · obtain ⟨b, hexec, hget⟩ := h.lookup hi
    exact ⟨b, List.mem_of_getElem? hget, hexec⟩
  · obtain ⟨bi, hexeci, hgeti⟩ := h.lookup hi
    obtain ⟨bj, hexecj, hgetj⟩ := h.lookup hj
    rw [hbi] at hexeci
    rw [hbj] at hexecj
    cases hexeci
    cases hexecj
    have hplace : dataPos i < blocks.length := h.length ▸ dataPos_lt hi
    exact dataPos_inj ((List.getElem?_inj hplace hnew).mp (hgeti.trans hgetj.symm))
  · have hdata : di.dataBlocks.toNat = fileBlocks di.size.toNat := dataBlocksOf_toNat h.small
    rw [hparts.length_eq, h.length, toNat_totalBlocks h.small, hdata]

/-- What growing in steps leaves. -/
structure GrownTo (d : Disk) (di : DiskInode) (steps : List (UInt32 × List UInt32)) (d' : Disk) (di' : DiskInode) : Prop where
  exec : (grow di steps).exec d = some (di', d')
  size : di'.size = lastSize di.size steps
  indexed : Indexed d' di' (given steps)
  /-- An index that comes into use in a step gets a block of that step, and keeps it. -/
  stable : ∀ before newSize v after, steps = before ++ (newSize, v) :: after → ∃ d₁ di₁ d₂ di₂,
    (grow di before).exec d = some (di₁, d₁) ∧ (di₁.increaseSize newSize v).exec d₁ = some (di₂, d₂) ∧
      ∀ i, di₁.dataBlocks.toNat ≤ i → i < di₂.dataBlocks.toNat → ∃ b ∈ v,
        (di₂.getBlockId i).exec d₂ = some (b, d₂) ∧ (di'.getBlockId i).exec d' = some (b, d')
  /-- `clear_size` returns the blocks. -/
  cleared : ∃ bs di'', di'.clearSize.exec d' = some ((bs, di''), d') ∧ bs.Perm (given steps) ∧ di''.size = 0

theorem HasBlocks.start (d : Disk) (hsize : di.size = 0) : HasBlocks d di [] := by
  have hzero : di.dataBlocks.toNat = 0 := by
    rw [dataBlocks, hsize]
    rfl
  refine ⟨?_, ?_⟩
  · rw [hsize]
    exact Nat.zero_le _
  · rw [hzero]
    rfl

theorem ascending_append {size : UInt32} {before after : List (UInt32 × List UInt32)} (h : Ascending size (before ++ after)) :
    Ascending size before ∧ Ascending (lastSize size before) after := by
  induction before generalizing size with
  | nil => exact ⟨trivial, h⟩
  | cons step before ih =>
    obtain ⟨newSize, v⟩ := step
    obtain ⟨hle, hmax, hlen, h⟩ := h
    obtain ⟨hbefore, hafter⟩ := ih h
    exact ⟨⟨hle, hmax, hlen, hbefore⟩, hafter⟩

/-- A block that an index has keeps its place when others are put behind. -/
theorem HasBlocks.kept {v rest : List UInt32} (h : HasBlocks d di (blocks ++ v)) (h' : HasBlocks d' di' (blocks ++ v ++ rest))
    {i : Nat} (hold : blocks.length ≤ dataPos i) (hi : i < di.dataBlocks.toNat) :
    ∃ b ∈ v, (di.getBlockId i).exec d = some (b, d) ∧ (di'.getBlockId i).exec d' = some (b, d') := by
  obtain ⟨b, hexec, hget⟩ := h.lookup hi
  have hplace : dataPos i < (blocks ++ v).length := h.length ▸ dataPos_lt hi
  have hi' : i < di'.dataBlocks.toNat := by
    by_contra hge
    have hle := le_dataPos (Nat.le_of_not_lt hge)
    rw [← h'.length, List.length_append] at hle
    omega
  obtain ⟨b', hexec', hget'⟩ := h'.lookup hi'
  rw [List.getElem?_append_left hplace, hget] at hget'
  cases hget'
  rw [List.getElem?_append_right hold] at hget
  exact ⟨b, List.mem_of_getElem? hget, hexec, hexec'⟩

/-- An inode of size 0 can be grown, whatever it and the disk hold. -/
theorem grownTo (d : Disk) (hsize : di.size = 0) (hasc : Ascending 0 steps) (hnew : (given steps).Nodup) :
    ∃ d' di', GrownTo d di steps d' di' := by
  have hstart : HasBlocks d di [] := .start d hsize
  obtain ⟨di', d', hexec, hblocks, hlast⟩ := hstart.grow (hsize ▸ hasc) hnew
  rw [List.nil_append] at hblocks
  refine ⟨d', di', hexec, hlast, hblocks.indexed hnew, ?_, ?_⟩
  · rintro before newSize v after rfl
    obtain ⟨hbefore, hle, hmax, hlen, hafter⟩ := ascending_append hasc
    have hgiven : given (before ++ (newSize, v) :: after) = given before ++ v ++ given after := by
      rw [given, List.flatMap_append, List.flatMap_cons, List.append_assoc]
      rfl
    rw [hgiven] at hnew hblocks
    have hnew₂ := (List.nodup_append.mp hnew).1
    obtain ⟨di₁, d₁, hexec₁, h₁, hsize₁⟩ := hstart.grow (hsize ▸ hbefore) (List.nodup_append.mp hnew₂).1
    rw [List.nil_append] at h₁
    rw [hsize] at hsize₁
    obtain ⟨di₂, d₂, hexec₂, h₂, -⟩ := h₁.increaseSize (by rw [hsize₁]; exact hle) hmax (by rw [hsize₁]; exact hlen) hnew₂
    refine ⟨d₁, di₁, d₂, di₂, hexec₁, hexec₂, fun i hi hi₂ => h₂.kept hblocks ?_ hi₂⟩
    rw [h₁.length]
    exact le_dataPos hi
  · obtain ⟨⟨bs, di''⟩, _, hclear, rfl, rfl, hzero, -⟩ := clearSize_spec d' rfl hblocks.dataBlocks_le
    refine ⟨_, di'', hclear, ?_, hzero⟩
    rw [hblocks.list]

/-- **The index of a file is exact at every size.** An initialized inode grows through any ascending sizes, each time with as
many new blocks as `blocks_num_needed` says: no `unwrap` fails and all blocks are used, every index finds the block that it was
given when it came into use, and `clear_size` returns all blocks. The inode that it leaves can be grown in the same way. -/
theorem block_indexing_exact (inodeId : UInt32) (type : DiskInodeType) (d : Disk) (steps : List (UInt32 × List UInt32))
    (hasc : Ascending 0 steps) (hnew : (given steps).Nodup) : ∃ d' di', GrownTo d (initialized inodeId type) steps d' di' ∧
      ∃ bs di'', di'.clearSize.exec d' = some ((bs, di''), d') ∧ bs.Perm (given steps) ∧ di''.size = 0 ∧
        ∀ d₁ steps', Ascending 0 steps' → (given steps').Nodup → ∃ d₂ di₂, GrownTo d₁ di'' steps' d₂ di₂ := by
  have hzero : (initialized inodeId type).size = 0 := rfl
  obtain ⟨d', di', h⟩ := grownTo d hzero hasc hnew
  obtain ⟨bs, di'', hclear, hperm, hzero'⟩ := h.cleared
  exact ⟨d', di', h, bs, di'', hclear, hperm, hzero', fun d₁ steps' hasc' hnew' => grownTo d₁ hzero' hasc' hnew'⟩

/-- A file of two blocks that grows to thirty, with a single indirect block. -/
theorem block_indexing_exact_thirty : ∃ d' di', GrownTo (fun _ => Bytes.zero blockSz) (initialized 1 .file)
    [(600, [1, 2]), (15000, (List.range 29).map fun k => UInt32.ofNat (k + 3))] d' di' ∧ di'.size = 15000 := by
  obtain ⟨d', di', h, -⟩ := block_indexing_exact 1 .file (fun _ => Bytes.zero blockSz)
    [(600, [1, 2]), (15000, (List.range 29).map fun k => UInt32.ofNat (k + 3))]
    ⟨by decide, by decide, by decide, by decide, by decide, by decide, trivial⟩ (by decide)
  exact ⟨d', di', h, h.size⟩

end RCore.EasyFs.DiskInode
