import RCore.EasyFs.Verify.Unlink
import RCore.Fs.Unix
import RCore.Fs.Verify.Inode

/-!
# Names and files on a disk

`Stored g names files` says that a disk has the file system that the names and files of a `Unix` stand for: file
`j` is inode `j + 1`. The lemmas here are what each call of an inode does to it. Where a call takes blocks, it
asks only that the names and files after it fit on the disk (`Unix.Fits`).
-/

namespace RCore.Fs

open RCore Prog EasyFs DiskInode

/-- The blocks that `n` bytes take, with the index blocks. -/
def blocksOf (n : Nat) : Nat := totalBlocksFor (fileBlocks n)

theorem blocksOf_mono {m n : Nat} (h : m ≤ n) : blocksOf m ≤ blocksOf n := totalBlocksFor_mono (fileBlocks_mono h)

namespace Unix

/-- The blocks that the directory and the files take. -/
def blocks (u : Unix) : Nat := blocksOf (32 * u.names.length) + (u.files.map fun f => blocksOf f.bytes.length).sum

/-- The names and files fit on a disk: names fit into their records, the directory is not the largest one (behind
whose records `unlinkat` could not write), there is an inode for every file, no file is larger than its pointers
reach, and there are blocks for all. -/
structure Fits (g : Geometry) (u : Unix) : Prop where
  names : ∀ p ∈ u.names, DirEntry.Proper p.1
  records : 32 * u.names.length < indirect2Bound * blockSz
  inodes : u.files.length < 3 * g.inodeAreaBlocks.toNat
  sizes : ∀ f ∈ u.files, f.bytes.length ≤ indirect2Bound * blockSz
  blocks : u.blocks ≤ g.capacity

/-- Whether the names and files fit depends on nothing else. -/
theorem Fits.of_eq {g : Geometry} {u v : Unix} (h : u.Fits g) (hnames : v.names = u.names) (hfiles : v.files = u.files) :
    v.Fits g := by
  refine ⟨?_, ?_, ?_, ?_, ?_⟩
  · rw [hnames]
    exact h.names
  · rw [hnames]
    exact h.records
  · rw [hfiles]
    exact h.inodes
  · rw [hfiles]
    exact h.sizes
  · rw [Unix.blocks, hnames, hfiles]
    exact h.blocks

theorem overwrite_eq (c : List UInt8) (off : Nat) (buf : List UInt8) :
    overwrite c off buf = FileRep.writeContent c off buf := by
  have htake : (FileRep.padTo c (off + buf.length)).take off = (c ++ List.replicate (off - c.length) 0).take off := by
    rw [FileRep.padTo, List.take_append, List.take_append, List.take_replicate, List.take_replicate]
    congr 2
    omega
  have hdrop : (FileRep.padTo c (off + buf.length)).drop (off + buf.length) = c.drop (off + buf.length) := by
    rcases Nat.le_total (off + buf.length) c.length with hle | hle
    · rw [FileRep.padTo_of_le hle]
    · rw [List.drop_eq_nil_of_le hle, List.drop_eq_nil_of_le]
      rw [FileRep.padTo_length]
      omega
  rw [overwrite, FileRep.writeContent, bufSplice, htake, hdrop]

theorem overwrite_length (c : List UInt8) (off : Nat) (buf : List UInt8) :
    (overwrite c off buf).length = max c.length (off + buf.length) := by
  rw [overwrite_eq, FileRep.writeContent_length]

/-- What is written to a file that fits ends before the last byte that its pointers reach. -/
theorem Fits.offset_le {g : Geometry} {u : Unix} {j off : Nat} {f : UnixFile} {buf : List UInt8}
    (h : (u.setBytes j (overwrite f.bytes off buf)).Fits g) (hf : u.files[j]? = some f) :
    off + buf.length ≤ indirect2Bound * blockSz := by
  have hmem : ({ f with bytes := overwrite f.bytes off buf } : UnixFile) ∈ (u.setBytes j (overwrite f.bytes off buf)).files := by
    refine List.mem_of_getElem? (i := j) ?_
    rw [setBytes, List.getElem?_modify, hf]
    exact congrArg some (if_pos rfl)
  have hsize := h.sizes _ hmem
  rw [overwrite_length] at hsize
  exact Nat.le_trans (Nat.le_max_right _ _) hsize

/-- The sum over a list, when one element changes. -/
theorem sum_modify {α : Type} (l : List α) {j : Nat} (hj : j < l.length) (f : α → α) (w : α → Nat) :
    ((l.modify j f).map w).sum + w l[j] = (l.map w).sum + w (f l[j]) := by
  induction l generalizing j with
  | nil => cases hj
  | cons a l ih =>
    cases j with
    | zero =>
      show w (f a) + (l.map w).sum + w a = w a + (l.map w).sum + w (f a)
      omega
    | succ j =>
      have hj' : j < l.length := Nat.lt_of_succ_lt_succ hj
      have hrest := ih hj'
      show w a + ((l.modify j f).map w).sum + w l[j] = w a + (l.map w).sum + w (f l[j])
      omega

end Unix

/-- The directory of the names, as records know it. -/
def bindings (names : List (String × Nat)) : Bindings := names.map fun p => (p.1, UInt32.ofNat (p.2 + 1))

/-- An inode as a file. -/
def unixFile (n : Node) : UnixFile := ⟨n.content, n.nlink⟩

/-- The disk `d` stores the names and the files. -/
structure Stored (g : Geometry) (names : List (String × Nat)) (files : List UnixFile) (root : Node) (nodes : List Node)
    (d : Disk) : Prop where
  named : Named g (bindings names) root nodes d
  nodes : nodes.map unixFile = files
  targets : ∀ p ∈ names, p.2 < files.length

namespace Stored

variable {g : Geometry} {u : Unix} {root : Node} {nodes : List Node} {d : Disk} {name : String} {j : Nat}
  (hl : g.Laid) (h : Stored g u.names u.files root nodes d)

include h in
theorem length_nodes : nodes.length = u.files.length := by rw [← h.nodes, List.length_map]

theorem length_records (u : Unix) : (records (bindings u.names)).length = u.names.length := by
  rw [records, bindings, List.length_map, List.length_map]

include h in
/-- The inode of a file. -/
theorem node (hj : j < u.files.length) : ∃ hn : j < nodes.length, u.files[j]? = some (unixFile nodes[j]) := by
  have hn : j < nodes.length := by rwa [h.length_nodes]
  refine ⟨hn, ?_⟩
  rw [← h.nodes, List.getElem?_map, List.getElem?_eq_getElem hn]
  rfl

include h in
theorem find_lt (hf : u.find name = some j) : j < u.files.length := by
  obtain ⟨p, hp, rfl⟩ := Option.map_eq_some_iff.mp hf
  exact h.targets p (List.mem_of_find?_eq_some hp)

theorem lookup_bindings (u : Unix) (name : String) :
    lookup name (bindings u.names) = (u.find name).map fun j => UInt32.ofNat (j + 1) := by
  rw [lookup, bindings, List.find?_map, Option.map_map, Unix.find, Option.map_map]
  rfl

include h in
theorem scan_eq (name : String) :
    scan name (records (bindings u.names)) = some ((u.find name).map fun j => UInt32.ofNat (j + 1)) := by
  rw [h.named.scan_eq, lookup_bindings]

include h in
theorem used_eq : g.used d = u.blocks := by
  have hnode : ∀ n ∈ nodes, n.blocks.length = blocksOf n.content.length := by
    intro n hn
    obtain ⟨i, hi, rfl⟩ := List.mem_iff_getElem.mp hn
    exact (h.named.state.inv.rep (i + 1) (Nat.succ_lt_succ hi)).file.length
  have hsum : (nodes.flatMap Node.blocks).length = (u.files.map fun f => blocksOf f.bytes.length).sum := by
    rw [List.length_flatMap, List.map_congr_left hnode, ← h.nodes, List.map_map]
    rfl
  rw [h.named.state.inv.owned.used, List.flatMap_cons, List.length_append, hsum, h.named.state.root_blocks, length_records]
  rfl

/-! ## Looking -/

include hl h in
theorem find_exec (name : String) : (g.toEfs.rootInode.find g.toEfs name).exec d =
    some ((u.find name).map fun j => g.toEfs.inode (UInt32.ofNat (j + 1)), d) := by
  rw [h.named.find hl, lookup_bindings, Option.map_map]
  rfl

include hl h in
theorem ls_exec : g.toEfs.rootInode.ls.exec d = some (u.names.map Prod.fst, d) := by
  rw [h.named.ls hl, bindings, List.map_map]
  rfl

include hl h in
/-- What `fstat` reads of a file. -/
theorem fstat_exec {o : OSInode} {f : UnixFile} (ho : o.inner.inode = g.toEfs.inode (UInt32.ofNat (j + 1)))
    (hf : u.files[j]? = some f) :
    o.fstat.exec d = some (⟨0, j + 1, StatMode.FILE, f.nlink.toNat, Vector.replicate 7 0⟩, d) := by
  obtain ⟨hj, -⟩ := List.getElem?_eq_some_iff.mp hf
  obtain ⟨hn, hnode⟩ := h.node hj
  rw [hf] at hnode
  obtain rfl := Option.some.inj hnode
  have hrep : NodeRep d (g.slot d (j + 1)) (j + 1) nodes[j] := h.named.state.inv.rep (j + 1) (Nat.succ_lt_succ hn)
  have hread : ∀ {α : Type} (k : DiskInode → EfsM α), (o.inner.inode.readDiskInode k).exec d = (k (g.slot d (j + 1))).exec d := by
    intro α k
    rw [ho, h.named.state.inv.exec_readInode hl.sound (Nat.succ_lt_succ hn)]
  have hdir : (g.slot d (j + 1)).isDir = false := by
    rw [isDir, hrep.type, h.named.state.dir.areFiles _ (List.getElem_mem hn)]
    rfl
  have hsmall := h.named.state.files_le
  have hid : (g.slot d (j + 1)).inodeId.toNat = j + 1 := by
    rw [hrep.id, UInt32.toNat_ofNat']
    omega
  have hmode : o.inner.inode.mode.exec d = some (.file, d) := by
    rw [Inode.mode, hread, hdir]
    rfl
  have hino : o.inner.inode.inodeId.exec d = some ((g.slot d (j + 1)).inodeId, d) := by
    rw [Inode.inodeId, hread]
    rfl
  have hnlink : o.inner.inode.nlink.exec d = some (nodes[j].nlink, d) := by
    rw [Inode.nlink, hread, ← hrep.nlink]
    rfl
  rw [OSInode.fstat, exec_bind, hmode, Option.bind_some, exec_bind, hino, Option.bind_some, exec_bind, hnlink,
    Option.bind_some, hid]
  rfl

/-! ## Changing -/

/-- A file of the disk changes as the file of the model. -/
theorem map_modify {f : Node → Node} {f' : UnixFile → UnixFile} (hn : j < nodes.length)
    (hf : unixFile (f nodes[j]) = f' (unixFile nodes[j])) :
    (nodes.modify j f).map unixFile = (nodes.map unixFile).modify j f' := by
  apply List.ext_getElem
  · simp only [List.length_map, List.length_modify]
  · intro k _ _
    rw [List.getElem_map, List.getElem_modify, List.getElem_modify, List.getElem_map]
    split
    · rename_i hjk
      subst hjk
      exact hf
    · rfl

include h in
/-- The names stay, and one file changes. -/
theorem modify {d' : Disk} {f : Node → Node} {f' : UnixFile → UnixFile} (hn : j < nodes.length)
    (hf : unixFile (f nodes[j]) = f' (unixFile nodes[j]))
    (hst : State g (records (bindings u.names)) root (nodes.modify j f) d') :
    Stored g u.names (u.files.modify j f') root (nodes.modify j f) d' := by
  refine ⟨⟨hst, h.named.proper, h.named.nodup⟩, ?_, fun p hp => ?_⟩
  · rw [map_modify hn hf, h.nodes]
  · rw [List.length_modify]
    exact h.targets p hp

include hl h in
theorem clear_exec (hj : j < u.files.length) : ∃ d' root nodes,
    ((g.toEfs.inode (UInt32.ofNat (j + 1))).clear g.toEfs).exec d = some ((), d') ∧
      Stored g (u.setBytes j []).names (u.setBytes j []).files root nodes d' := by
  obtain ⟨hn, -⟩ := h.node hj
  have hsmall := h.named.state.files_le
  have hval : (UInt32.ofNat (j + 1)).toNat = j + 1 := by
    rw [UInt32.toNat_ofNat']
    omega
  have hadm : Admissible g d (.clear (UInt32.ofNat (j + 1))) := by
    show 0 < (UInt32.ofNat (j + 1)).toNat ∧ (UInt32.ofNat (j + 1)).toNat < g.inodes d
    rw [hval, h.named.state.inodes_eq hl]
    omega
  obtain ⟨_, d', hexec, hst⟩ := h.named.state.clear hl hadm
  rw [hval, Nat.add_sub_cancel] at hst
  exact ⟨d', root, _, hexec, h.modify hn rfl hst⟩

include h in
/-- There is room for one more record if the names and files fit with it. -/
theorem roomForRecord {v : Unix} (hfits : v.Fits g) (hnames : v.names.length = u.names.length + 1)
    (hblocks : (v.files.map fun f => blocksOf f.bytes.length).sum = (u.files.map fun f => blocksOf f.bytes.length).sum) :
    32 * (records (bindings u.names)).length + 32 ≤ 16540 * 512 ∧ g.used d +
      FileRep.blocksFor (32 * (records (bindings u.names)).length) (32 * (records (bindings u.names)).length + 32) ≤ g.capacity := by
  have hrecords : 32 * v.names.length < 16540 * 512 := hfits.records
  have hcap := hfits.blocks
  have hmono := blocksOf_mono (show 32 * u.names.length ≤ 32 * (u.names.length + 1) by omega)
  rw [hnames] at hrecords
  rw [Unix.blocks, hnames, hblocks] at hcap
  rw [length_records, h.used_eq, Unix.blocks]
  refine ⟨by omega, ?_⟩
  show _ + (blocksOf (max (32 * u.names.length) (32 * u.names.length + 32)) - blocksOf (32 * u.names.length)) ≤ _
  rw [Nat.max_eq_right (by omega), show 32 * u.names.length + 32 = 32 * (u.names.length + 1) from rfl]
  omega

include h in
/-- A record more, of a name that was not bound. -/
theorem extend {d' : Disk} {root' : Node} {nodes' : List Node} {files' : List UnixFile} (hnew : u.find name = none)
    (hproper : DirEntry.Proper name) (hst : State g (records (bindings u.names) ++ [DirEntry.made name (UInt32.ofNat (j + 1))])
      root' nodes' d') (hnodes : nodes'.map unixFile = files') (hlen : u.files.length ≤ files'.length) (hj : j < files'.length) :
    Stored g (u.names ++ [(name, j)]) files' root' nodes' d' := by
  have hlook : lookup name (bindings u.names) = none := by rw [lookup_bindings, hnew, Option.map_none]
  refine ⟨?_, hnodes, fun p hp => ?_⟩
  · rw [bindings, List.map_append, List.map_singleton]
    exact h.named.extend hproper hlook hst
  · rcases List.mem_append.mp hp with hp | hp
    · exact Nat.lt_of_lt_of_le (h.targets p hp) hlen
    · rw [List.mem_singleton.mp hp]
      exact hj

include h in
/-- There is an inode and a record for one more file if the names and files fit with it. -/
theorem roomForFile (hfits : (u.addFile name).Fits g) : (nodes.length + 1 < 3 * g.inodeAreaBlocks.toNat) ∧
    32 * (records (bindings u.names)).length + 32 ≤ 16540 * 512 ∧ g.used d +
      FileRep.blocksFor (32 * (records (bindings u.names)).length) (32 * (records (bindings u.names)).length + 32) ≤ g.capacity := by
  have hsum : ((u.addFile name).files.map fun f => blocksOf f.bytes.length).sum =
      (u.files.map fun f => blocksOf f.bytes.length).sum := by
    rw [Unix.addFile, List.map_append, List.sum_append]
    rfl
  have hid := hfits.inodes
  rw [Unix.addFile, List.length_append, List.length_singleton, ← h.length_nodes] at hid
  exact ⟨hid, h.roomForRecord hfits List.length_append hsum⟩

include hl h in
theorem create_exec (hnew : u.find name = none) (hfits : (u.addFile name).Fits g) : ∃ d' root nodes,
    (g.toEfs.rootInode.create g.toEfs name).exec d =
      some (some (g.toEfs.inode (UInt32.ofNat (u.files.length + 1))), d') ∧
      Stored g (u.addFile name).names (u.addFile name).files root nodes d' := by
  have hproper : DirEntry.Proper name := hfits.names _ (List.mem_append_right _ List.mem_cons_self)
  have hscan := h.scan_eq name
  rw [hnew] at hscan
  obtain ⟨hid, hmax, hspace⟩ := h.roomForFile hfits
  obtain ⟨_, d', hexec, rfl, bs, hinv⟩ :=
    h.named.state.inv.create_new hl h.named.state.dir hscan (Nat.le_succ_of_le hproper.1) hid hmax hspace
  have hst := h.named.state.addFile hinv
  rw [h.length_nodes] at hst hexec
  refine ⟨d', _, _, hexec, h.extend hnew hproper hst ?_ ?_ ?_⟩
  · rw [List.map_append, h.nodes]
    rfl
  · rw [Unix.addFile, List.length_append]
    exact Nat.le_add_right _ _
  · rw [Unix.addFile, List.length_append]
    exact Nat.lt_succ_self _

include hl h in
/-- `linkat` that has nothing to link. -/
theorem linkat_old {oldpath newpath : String} (hold : u.find newpath ≠ none ∨ u.find oldpath = none) :
    (g.toEfs.rootInode.linkat g.toEfs oldpath newpath).exec d = some (-1, d) := by
  have hscan := h.scan_eq newpath
  have hscan' := h.scan_eq oldpath
  refine h.named.state.inv.linkat_old hl h.named.state.dir.toIsDir ?_
  cases hf : u.find newpath with
  | some j =>
    rw [hf] at hscan
    exact .inl ⟨_, hscan⟩
  | none =>
    rw [hf] at hscan
    rw [hold.resolve_left (not_not.mpr hf)] at hscan'
    exact .inr ⟨hscan, hscan'⟩

include hl h in
theorem linkat_new {oldpath newpath : String} (hnew : u.find newpath = none) (hold : u.find oldpath = some j)
    (hfits : (u.addName newpath j).Fits g) : ∃ d' root nodes,
    (g.toEfs.rootInode.linkat g.toEfs oldpath newpath).exec d = some (0, d') ∧
      Stored g (u.addName newpath j).names (u.addName newpath j).files root nodes d' := by
  have hproper : DirEntry.Proper newpath := hfits.names _ (List.mem_append_right _ List.mem_cons_self)
  have hj := h.find_lt hold
  obtain ⟨hn, -⟩ := h.node hj
  have hscan := h.scan_eq newpath
  have hscan' := h.scan_eq oldpath
  rw [hnew] at hscan
  rw [hold] at hscan'
  have hsum : ((u.addName newpath j).files.map fun f => blocksOf f.bytes.length).sum =
      (u.files.map fun f => blocksOf f.bytes.length).sum :=
    congrArg List.sum (Inv.map_modify_of_eq u.files j fun _ => rfl)
  obtain ⟨hmax, hspace⟩ := h.roomForRecord hfits List.length_append hsum
  obtain ⟨_, d', hexec, rfl, bs, hinv⟩ := h.named.state.inv.linkat_new hl h.named.state.dir hscan hscan' hn
    (Nat.le_succ_of_le hproper.1) hmax hspace
  have hst := h.named.state.addRecord hn hinv
  refine ⟨d', _, _, hexec, h.extend hnew hproper hst ?_ ?_ ?_⟩
  · rw [Unix.addName, ← h.nodes]
    exact map_modify hn rfl
  · rw [Unix.addName, List.length_modify]
  · rw [Unix.addName, List.length_modify]
    exact hj

include hl h in
theorem unlinkat_absent (hf : u.find name = none) :
    (g.toEfs.rootInode.unlinkat g.toEfs name).exec d = some (-1, d) := by
  refine h.named.unlinkat_absent hl ?_
  rw [lookup_bindings, hf, Option.map_none]

include hl h in
theorem unlinkat_present (hf : u.find name = some j) (hfits : 32 * u.names.length < indirect2Bound * blockSz) :
    ∃ d' root nodes, (g.toEfs.rootInode.unlinkat g.toEfs name).exec d = some (0, d') ∧
      Stored g u.names (u.files.modify j fun f => { f with nlink := f.nlink - 1 }) root nodes d' := by
  obtain ⟨hn, -⟩ := h.node (h.find_lt hf)
  have hscan := h.scan_eq name
  rw [hf] at hscan
  have hroom : g.sizeOf d 0 < indirect2Bound * blockSz := by
    rw [h.named.state.sizeOf_root, length_records]
    exact hfits
  obtain ⟨_, d', hexec, rfl, hst⟩ := h.named.state.unlinkat_exec hl hroom hn hscan
  exact ⟨d', root, _, hexec, h.modify hn rfl hst⟩

/-! ## Reading and writing open files -/

section Transfers

variable {o : OSInode} {f : UnixFile} {buf : List (List UInt8)}
  (ho : o.inner.inode = g.toEfs.inode (UInt32.ofNat (j + 1))) (hf : u.files[j]? = some f) (hbuf : IsBuffer buf)

include hl h ho hf hbuf in
theorem read_exec (hoff : o.inner.offset < 2 ^ 64) : ∃ r,
    (o.read buf).exec d = some ((((f.bytes.drop o.inner.offset).take buf.flatten.length).length, r,
      o.advance ((f.bytes.drop o.inner.offset).take buf.flatten.length).length), d) ∧
    r.flatten = (f.bytes.drop o.inner.offset).take buf.flatten.length ++
      buf.flatten.drop ((f.bytes.drop o.inner.offset).take buf.flatten.length).length := by
  obtain ⟨hj, -⟩ := List.getElem?_eq_some_iff.mp hf
  obtain ⟨hn, hnode⟩ := h.node hj
  rw [hf] at hnode
  obtain rfl := Option.some.inj hnode
  obtain ⟨r, hexec, -, hflat⟩ := OSInode.read_spec hl h.named.state hn ho hbuf hoff rfl
  exact ⟨r, hexec, hflat⟩

include h hf in
theorem length_le : f.bytes.length ≤ indirect2Bound * blockSz := by
  obtain ⟨hj, -⟩ := List.getElem?_eq_some_iff.mp hf
  obtain ⟨hn, hnode⟩ := h.node hj
  rw [hf] at hnode
  obtain rfl := Option.some.inj hnode
  exact (h.named.state.inv.rep (j + 1) (Nat.succ_lt_succ hn)).file.bound

include hl h ho hf in
theorem readAll_exec (hoff : o.inner.offset = 0) : (o.readAll (indirect2Bound * blockSz + 1)).exec d =
    some (some (f.bytes, o.advance f.bytes.length), d) := by
  have hle := h.length_le hf
  obtain ⟨hj, -⟩ := List.getElem?_eq_some_iff.mp hf
  obtain ⟨hn, hnode⟩ := h.node hj
  rw [hf] at hnode
  obtain rfl := Option.some.inj hnode
  have hfuel : nodes[j].content.length - o.inner.offset < indirect2Bound * blockSz + 1 :=
    Nat.lt_succ_of_le (Nat.le_trans (Nat.sub_le _ _) hle)
  have hread := OSInode.readAll_spec hl h.named.state hn ho (hoff ▸ by decide) hfuel
  rwa [hoff, List.drop_zero] at hread

include h hf in
/-- There are blocks for other bytes if the files fit with them. -/
theorem roomForBytes {off : Nat} {bytes : List UInt8} (hfits : (u.setBytes j (Unix.overwrite f.bytes off bytes)).Fits g) :
    g.used d + FileRep.blocksFor f.bytes.length (off + bytes.length) ≤ g.capacity := by
  obtain ⟨hj, hget⟩ := List.getElem?_eq_some_iff.mp hf
  have hcap := hfits.blocks
  have hsum := Unix.sum_modify u.files hj (fun f' => { f' with bytes := Unix.overwrite f.bytes off bytes })
    (fun f => blocksOf f.bytes.length)
  dsimp only at hsum
  rw [Unix.overwrite_length, hget] at hsum
  have hmono := blocksOf_mono (Nat.le_max_left f.bytes.length (off + bytes.length))
  rw [h.used_eq]
  show u.blocks + (blocksOf (max f.bytes.length (off + bytes.length)) - blocksOf f.bytes.length) ≤ _
  rw [Unix.blocks] at hcap ⊢
  have hcap : blocksOf (32 * u.names.length) + ((u.files.modify j fun f' =>
    { f' with bytes := Unix.overwrite f.bytes off bytes }).map fun f => blocksOf f.bytes.length).sum ≤ _ := hcap
  omega

include hl h ho hf hbuf in
theorem write_exec (hne : buf.flatten ≠ [])
    (hfits : (u.setBytes j (Unix.overwrite f.bytes o.inner.offset buf.flatten)).Fits g) : ∃ d' root nodes,
    (o.write g.toEfs buf).exec d = some ((buf.flatten.length, o.advance buf.flatten.length), d') ∧
      Stored g u.names (u.setBytes j (Unix.overwrite f.bytes o.inner.offset buf.flatten)).files root nodes d' := by
  obtain ⟨readable, writable, off, inode⟩ := o
  obtain rfl : inode = g.toEfs.inode (UInt32.ofNat (j + 1)) := ho
  have hmax : off + buf.flatten.length ≤ 16540 * 512 := hfits.offset_le hf
  have hroom := h.roomForBytes hf hfits
  obtain ⟨hj, -⟩ := List.getElem?_eq_some_iff.mp hf
  obtain ⟨hn, hnode⟩ := h.node hj
  rw [hf] at hnode
  obtain rfl := Option.some.inj hnode
  dsimp only
  have hnil : buf ≠ [] := fun hnil => hne (hbuf.flatten_eq_nil.mpr hnil)
  obtain ⟨_, d', hexec, rfl, k, hst, hcontent, hlinks⟩ := OSInode.writeLoop_spec hl buf nodes d off 0 hn h.named.state
    hbuf.nonempty (fun hc => absurd hc hnil) hmax hroom
  refine ⟨d', root, _, ?_, h.modify hn ?_ hst⟩
  · rw [OSInode.write, exec_bind, hexec, Option.bind_some, Nat.zero_add]
    rfl
  · rw [unixFile, hcontent, hlinks, ← Unix.overwrite_eq]
    rfl

end Transfers

end Stored

end RCore.Fs
