import RCore.EasyFs.Verify.Contents

/-!
# The root directory as a map from names to inodes

With names of at most 27 bytes and no NUL, the records of the root directory are a list of bindings,
in the order in which the names were bound. `create_refinesDir` says that `create`, `linkat`, `find`
and `ls` read and extend this list, and that the link count of a file is the number of its names.
-/

namespace RCore.EasyFs

open RCore Prog DiskInode

/-- The names of a directory with their inode numbers, in the order in which they were bound. -/
abbrev Bindings := List (String × UInt32)

/-- The inode number a name is bound to. -/
def lookup (name : String) (b : Bindings) : Option UInt32 :=
  (b.find? fun p => p.1 = name).map (·.2)

/-- The number of names bound to inode `i`. -/
def linkCount (b : Bindings) (i : Nat) : Nat := b.countP fun p => p.2.toNat = i

/-- The records of a list of bindings. -/
def records (b : Bindings) : List DirEntry := b.map fun p => DirEntry.made p.1 p.2

section Bindings

variable {b : Bindings} (hp : ∀ p ∈ b, DirEntry.Proper p.1)
include hp

theorem scan_records (name : String) : scan name (records b) = some (lookup name b) := by
  induction b with
  | nil => rfl
  | cons p b ih =>
    have hname := DirEntry.getName_made (hp p List.mem_cons_self) p.2
    have ih' := ih fun q hq => hp q (List.mem_cons_of_mem _ hq)
    unfold records lookup at ih'
    simp only [records, List.map_cons, scan, hname, Option.bind_some, lookup, List.find?_cons]
    by_cases heq : p.1 = name
    · simp [heq, DirEntry.made]
    · simpa [heq] using ih'

theorem names_records : names (records b) = some (b.map (·.1)) := by
  induction b with
  | nil => rfl
  | cons p b ih =>
    have hname := DirEntry.getName_made (hp p List.mem_cons_self) p.2
    have ih' := ih fun q hq => hp q (List.mem_cons_of_mem _ hq)
    unfold records at ih'
    simp only [records, List.map_cons, names, hname, Option.bind_some, ih', Option.map_some]

end Bindings

theorem lookup_eq_none {name : String} {b : Bindings} :
    lookup name b = none ↔ name ∉ b.map (·.1) := by
  unfold lookup
  rw [Option.map_eq_none_iff, List.find?_eq_none]
  simp only [decide_eq_true_eq, List.mem_map, not_exists, not_and]

theorem mem_of_lookup {name : String} {b : Bindings} {id : UInt32} (h : lookup name b = some id) :
    (name, id) ∈ b := by
  obtain ⟨p, hp, rfl⟩ := Option.map_eq_some_iff.mp h
  have hname := List.find?_some hp
  rw [decide_eq_true_eq] at hname
  rw [← hname]
  exact List.mem_of_find?_eq_some hp

/-! ## What the calls should do -/

/-- The names of a call fit a directory record. -/
def Call.Proper : Call → Prop
  | .create name => DirEntry.Proper name
  | .linkat oldpath newpath => DirEntry.Proper oldpath ∧ DirEntry.Proper newpath
  | .find name => DirEntry.Proper name
  | _ => True

/-- What a call does to the bindings `b` of the root directory on the disk `d`. -/
def Call.DirSpec (g : Geometry) (fs : EasyFileSystem) :
    Call → Bindings → Disk → Answer → Bindings → Disk → Prop
  | .create name, b, d, a, b', d' =>
      ((∃ id, lookup name b = some id) ∧ a = .inode none ∧ b' = b ∧ d' = d) ∨
        (lookup name b = none ∧ ∃ id : UInt32, id.toNat ∉ g.allocated d ∧ id.toNat ∈ g.allocated d' ∧
          (g.slot d' id.toNat).type = .file ∧ (g.slot d' id.toNat).size = 0 ∧
          a = .inode (some (fs.inode id)) ∧ b' = b ++ [(name, id)])
  | .linkat oldpath newpath, b, d, a, b', d' =>
      (((∃ id, lookup newpath b = some id) ∨ lookup oldpath b = none) ∧ a = .status (-1) ∧
          b' = b ∧ d' = d) ∨
        (lookup newpath b = none ∧ ∃ id, lookup oldpath b = some id ∧ a = .status 0 ∧
          b' = b ++ [(newpath, id)])
  | .find name, b, d, a, b', d' => a = .inode ((lookup name b).map fs.inode) ∧ b' = b ∧ d' = d
  | .ls, b, d, a, b', d' => a = .names (b.map (·.1)) ∧ b' = b ∧ d' = d
  | .writeAt .., b, _, _, b', _ => b' = b
  | .readAt .., b, d, _, b', d' => b' = b ∧ d' = d
  | .clear _, b, _, _, b', _ => b' = b

/-- What can be seen of the bindings `b` on the disk `d`: no name is bound twice, the inode that a
name is bound to knows its own number, and the link count of a file is the number of its names. -/
structure DirView (g : Geometry) (fs : EasyFileSystem) (b : Bindings) (d : Disk) : Prop where
  nodup : (b.map (·.1)).Nodup
  ids : ∀ p ∈ b, (fs.inode p.2).inodeId.exec d = some (p.2, d)
  nlinks : ∀ i ∈ g.allocated d, i ≠ 0 →
    ∃ v, (fs.inode (UInt32.ofNat i)).nlink.exec d = some (v, d) ∧ v.toNat = linkCount b i

/-- From a disk whose root directory has the bindings `b`, each call of the sequence returns and
does what `Call.DirSpec` says, and the bindings can be seen on every disk on the way. -/
def RefinesDir (g : Geometry) (fs : EasyFileSystem) : Bindings → Disk → List Call → Prop
  | b, d, [] => DirView g fs b d
  | b, d, call :: calls => DirView g fs b d ∧ (Admissible g d call → call.Proper →
      ∃ a d' b', (call.run fs).exec d = some (a, d') ∧ call.DirSpec g fs b d a b' d' ∧
        RefinesDir g fs b' d' calls)

/-! ## Bindings on a disk -/

/-- The disk `d` stores a root directory with the bindings `b`. -/
structure Named (g : Geometry) (b : Bindings) (root : Node) (files : List Node) (d : Disk) :
    Prop where
  state : State g (records b) root files d
  proper : ∀ p ∈ b, DirEntry.Proper p.1
  nodup : (b.map (·.1)).Nodup

/-- The link count of a file is the number of its names. -/
def Linked (b : Bindings) (files : List Node) : Prop :=
  ∀ j (hj : j < files.length), files[j].nlink.toNat = linkCount b (j + 1)

theorem linkCount_append (b : Bindings) (name : String) (id : UInt32) (i : Nat) :
    linkCount (b ++ [(name, id)]) i = linkCount b i + if id.toNat = i then 1 else 0 := by
  unfold linkCount
  rw [List.countP_append, List.countP_singleton]
  simp only [decide_eq_true_eq]

namespace Linked

variable {b : Bindings} {files : List Node}

/-- Calls that change the bytes of a file. -/
theorem setFile (h : Linked b files) (j : Nat) {f : Node → Node}
    (hf : ∀ n, (f n).nlink = n.nlink) : Linked b (files.modify j f) := by
  intro k hk
  rw [List.length_modify] at hk
  rw [List.getElem_modify]
  split_ifs
  · rw [hf]
    exact h k hk
  · exact h k hk

/-- A new file has one name. -/
theorem addFile (h : Linked b files) (name : String) (hsmall : files.length + 1 < 2 ^ 32)
    (hb : ∀ p ∈ b, p.2.toNat ≤ files.length) :
    Linked (b ++ [(name, UInt32.ofNat (files.length + 1))]) (files ++ [⟨[], 1, .file, []⟩]) := by
  have hval : (UInt32.ofNat (files.length + 1)).toNat = files.length + 1 := by
    rw [UInt32.toNat_ofNat']
    omega
  intro k hk
  rw [List.length_append, List.length_singleton] at hk
  rw [linkCount_append, hval]
  by_cases hkn : k = files.length
  · subst hkn
    have hzero : linkCount b (files.length + 1) = 0 := by
      unfold linkCount
      rw [List.countP_eq_zero]
      intro p hp
      have hle := hb p hp
      rw [decide_eq_true_eq]
      omega
    rw [List.getElem_concat_length rfl, hzero, if_pos rfl]
    rfl
  · rw [List.getElem_append_left (by omega), if_neg (by omega), Nat.add_zero]
    exact h k (by omega)

/-- One name more for a file. -/
theorem addRecord (h : Linked b files) (name : String) {j : Nat} (hj : j < files.length)
    (hsmall : files.length < 2 ^ 32 - 1) (hb : b.length < 2 ^ 32 - 1) :
    Linked (b ++ [(name, UInt32.ofNat (j + 1))])
      (files.modify j fun n => { n with nlink := n.nlink + 1 }) := by
  have hval : (UInt32.ofNat (j + 1)).toNat = j + 1 := by
    rw [UInt32.toNat_ofNat']
    omega
  intro k hk
  rw [List.length_modify] at hk
  rw [linkCount_append, hval, List.getElem_modify]
  by_cases hjk : j = k
  · subst hjk
    have hcount : linkCount b (j + 1) ≤ b.length := List.countP_le_length
    rw [if_pos rfl, if_pos rfl]
    show (files[j].nlink + 1).toNat = _
    rw [UInt32.toNat_add, h j hj, UInt32.toNat_one]
    exact Nat.mod_eq_of_lt (by omega)
  · rw [if_neg hjk, if_neg (by omega), Nat.add_zero]
    exact h k hk

end Linked

namespace Named

variable {g : Geometry} {b : Bindings} {root : Node} {files : List Node} {d d' : Disk}

theorem scan_eq (h : Named g b root files d) (name : String) :
    scan name (records b) = some (lookup name b) :=
  scan_records h.proper name

theorem length_le (h : Named g b root files d) : b.length ≤ 264640 := by
  have hle := h.state.records_le
  unfold records at hle
  rwa [List.length_map] at hle

/-- The file that a bound inode number denotes. -/
theorem target (h : Named g b root files d) {p : String × UInt32} (hp : p ∈ b) :
    ∃ j, j < files.length ∧ p.2 = UInt32.ofNat (j + 1) ∧ p.2.toNat = j + 1 := by
  have ht : 0 < p.2.toNat ∧ p.2.toNat ≤ files.length :=
    h.state.dir.targets (DirEntry.made p.1 p.2) (List.mem_map.mpr ⟨p, hp, rfl⟩)
  refine ⟨p.2.toNat - 1, by omega, ?_, by omega⟩
  rw [Nat.sub_add_cancel ht.1, UInt32.ofNat_toNat]

/-- A name more. -/
theorem extend (h : Named g b root files d) {name : String} {id : UInt32} {root' : Node}
    {files' : List Node} (hname : DirEntry.Proper name) (hnew : lookup name b = none)
    (hst : State g (records b ++ [DirEntry.made name id]) root' files' d') :
    Named g (b ++ [(name, id)]) root' files' d' := by
  refine ⟨?_, ?_, ?_⟩
  · have hrec : records (b ++ [(name, id)]) = records b ++ [DirEntry.made name id] := by
      simp [records]
    rw [hrec]
    exact hst
  · intro p hp
    rcases List.mem_append.mp hp with hp | hp
    · exact h.proper p hp
    · rw [List.mem_singleton.mp hp]
      exact hname
  · rw [List.map_append, List.map_singleton]
    refine List.nodup_append.mpr ⟨h.nodup, List.nodup_singleton _, ?_⟩
    intro x hx y hy heq
    have hxn : x = name := heq.trans (List.mem_singleton.mp hy)
    exact lookup_eq_none.mp hnew (hxn ▸ hx)

theorem find (hl : g.Laid) (h : Named g b root files d) (name : String) :
    (g.toEfs.rootInode.find g.toEfs name).exec d =
      some ((lookup name b).map g.toEfs.inode, d) := by
  rw [h.state.inv.find_exec h.state.dir.toIsDir hl.sound, h.scan_eq]
  rfl

theorem ls (hl : g.Laid) (h : Named g b root files d) :
    g.toEfs.rootInode.ls.exec d = some (b.map (·.1), d) := by
  rw [h.state.inv.ls_exec h.state.dir.toIsDir hl.sound, names_records h.proper]
  rfl

theorem view (hl : g.Laid) (h : Named g b root files d) (hlinks : Linked b files) :
    DirView g g.toEfs b d := by
  refine ⟨h.nodup, ?_, ?_⟩
  · intro p hp
    obtain ⟨j, hj, heq, _⟩ := h.target hp
    have hi : j + 1 < (root :: files).length := Nat.succ_lt_succ hj
    rw [heq, Inode.inodeId, h.state.inv.exec_readInode hl.sound hi]
    show some ((g.slot d (j + 1)).inodeId, d) = _
    rw [(h.state.inv.rep (j + 1) hi).id]
  · intro i hi hne
    have hi' := (h.state.mem_allocated hl).mp hi
    obtain ⟨j, rfl⟩ := Nat.exists_eq_succ_of_ne_zero hne
    have hj : j < files.length := Nat.lt_of_succ_lt_succ hi'
    have hrep : NodeRep d (g.slot d (j + 1)) (j + 1) files[j] := h.state.inv.rep (j + 1) hi'
    refine ⟨(g.slot d (j + 1)).nlink, ?_, ?_⟩
    · rw [Inode.nlink, h.state.inv.exec_readInode hl.sound hi']
      rfl
    · rw [hrep.nlink]
      exact hlinks j hj

theorem create (hl : g.Laid) (h : Named g b root files d) (hlinks : Linked b files)
    {name : String} (hadm : Admissible g d (.create name)) (hname : DirEntry.Proper name) :
    ∃ r d' b' root' files', (g.toEfs.rootInode.create g.toEfs name).exec d = some (r, d') ∧
      (Call.create name).DirSpec g g.toEfs b d (.inode r) b' d' ∧
      Named g b' root' files' d' ∧ Linked b' files' := by
  have hscan := h.scan_eq name
  cases hlook : lookup name b with
  | some id =>
    rw [hlook] at hscan
    exact ⟨none, d, b, root, files, h.state.inv.create_old hl h.state.dir.toIsDir hscan,
      .inl ⟨⟨id, hlook⟩, rfl, rfl, rfl⟩, h, hlinks⟩
  | none =>
    rw [hlook] at hscan
    have hid := hadm.1
    rw [h.state.inodes_eq hl] at hid
    obtain ⟨hmax, hspace⟩ := h.state.roomForRecord hadm.2
    have hfit : (nameBytes name).length ≤ 28 := Nat.le_succ_of_le hname.1
    obtain ⟨r, d', hexec, rfl, bs, hinv⟩ :=
      h.state.inv.create_new hl h.state.dir hscan hfit hid hmax hspace
    have hfiles := h.state.files_le
    have hval : (UInt32.ofNat (files.length + 1)).toNat = files.length + 1 := by
      rw [UInt32.toNat_ofNat']
      omega
    have hst := h.state.addFile hinv
    have hrep := hst.last
    have htargets : ∀ p ∈ b, p.2.toNat ≤ files.length := by
      intro p hp
      obtain ⟨j, hj, _, hpj⟩ := h.target hp
      omega
    refine ⟨_, d', _, _, _, hexec, .inr ⟨hlook, _, ?_, ?_, ?_, ?_, rfl, rfl⟩,
      h.extend hname hlook hst, hlinks.addFile name (by omega) htargets⟩
    · rw [hval, h.state.mem_allocated hl, List.length_cons]
      exact Nat.lt_irrefl _
    · rw [hval, hst.mem_allocated hl]
      simp
    · rw [hval, hrep.type]
    · rw [hval]
      exact UInt32.toNat_inj.mp hrep.file.size

theorem linkat (hl : g.Laid) (h : Named g b root files d) (hlinks : Linked b files)
    {oldpath newpath : String} (hadm : Admissible g d (.linkat oldpath newpath))
    (hname : DirEntry.Proper newpath) :
    ∃ r d' b' root' files',
      (g.toEfs.rootInode.linkat g.toEfs oldpath newpath).exec d = some (r, d') ∧
      (Call.linkat oldpath newpath).DirSpec g g.toEfs b d (.status r) b' d' ∧
      Named g b' root' files' d' ∧ Linked b' files' := by
  have hscan := h.scan_eq newpath
  have hscan' := h.scan_eq oldpath
  have hstay : ∀ (_ : (∃ id, scan newpath (records b) = some (some id)) ∨
      scan newpath (records b) = some none ∧ scan oldpath (records b) = some none)
      (_ : (∃ id, lookup newpath b = some id) ∨ lookup oldpath b = none),
      ∃ r d' b' root' files',
        (g.toEfs.rootInode.linkat g.toEfs oldpath newpath).exec d = some (r, d') ∧
        (Call.linkat oldpath newpath).DirSpec g g.toEfs b d (.status r) b' d' ∧
        Named g b' root' files' d' ∧ Linked b' files' := fun hs hb =>
    ⟨-1, d, b, root, files, h.state.inv.linkat_old hl h.state.dir.toIsDir hs,
      .inl ⟨hb, rfl, rfl, rfl⟩, h, hlinks⟩
  cases hlook : lookup newpath b with
  | some id =>
    rw [hlook] at hscan
    exact hstay (.inl ⟨id, hscan⟩) (.inl ⟨id, hlook⟩)
  | none =>
    rw [hlook] at hscan
    cases hlook' : lookup oldpath b with
    | none =>
      rw [hlook'] at hscan'
      exact hstay (.inr ⟨hscan, hscan'⟩) (.inr hlook')
    | some id =>
      rw [hlook'] at hscan'
      obtain ⟨j, hj, rfl⟩ := Inv.target h.state.dir hscan'
      obtain ⟨hmax, hspace⟩ := h.state.roomForRecord hadm
      have hfit : (nameBytes newpath).length ≤ 28 := Nat.le_succ_of_le hname.1
      have hfiles := h.state.files_le
      have hlen := h.length_le
      obtain ⟨r, d', hexec, rfl, bs, hinv⟩ :=
        h.state.inv.linkat_new hl h.state.dir hscan hscan' hj hfit hmax hspace
      exact ⟨0, d', _, _, _, hexec, .inr ⟨hlook, _, hlook', rfl, rfl⟩,
        h.extend hname hlook (h.state.addRecord hj hinv),
        hlinks.addRecord newpath hj (by omega) (by omega)⟩

/-- One call: an admissible call with proper names returns and does what `Call.DirSpec` says. -/
theorem step (hl : g.Laid) (h : Named g b root files d) (hlinks : Linked b files) {call : Call}
    (hadm : Admissible g d call) (hproper : call.Proper) :
    ∃ a d' b' root' files', (call.run g.toEfs).exec d = some (a, d') ∧
      call.DirSpec g g.toEfs b d a b' d' ∧ Named g b' root' files' d' ∧ Linked b' files' := by
  cases call with
  | create name =>
    obtain ⟨r, d', b', root', files', hexec, hspec, h'⟩ := h.create hl hlinks hadm hproper
    exact ⟨.inode r, d', b', root', files', by rw [Call.run, exec_bind_pure, hexec]; rfl, hspec, h'⟩
  | linkat oldpath newpath =>
    obtain ⟨r, d', b', root', files', hexec, hspec, h'⟩ := h.linkat hl hlinks hadm hproper.2
    exact ⟨.status r, d', b', root', files', by rw [Call.run, exec_bind_pure, hexec]; rfl, hspec, h'⟩
  | find name =>
    exact ⟨_, d, b, root, files, by rw [Call.run, exec_bind_pure, h.find hl]; rfl,
      ⟨rfl, rfl, rfl⟩, h, hlinks⟩
  | ls =>
    exact ⟨_, d, b, root, files, by rw [Call.run, exec_bind_pure, h.ls hl]; rfl,
      ⟨rfl, rfl, rfl⟩, h, hlinks⟩
  | writeAt ino offset buf =>
    obtain ⟨r, d', hexec, _, bs, hst⟩ := h.state.writeAt hl hadm
    exact ⟨_, d', b, root, _, by rw [Call.run, exec_bind_pure, hexec]; rfl, rfl,
      ⟨hst, h.proper, h.nodup⟩, hlinks.setFile _ fun _ => rfl⟩
  | readAt ino offset buf =>
    obtain ⟨r, d', hexec, rfl, s, _, rfl⟩ := h.state.readAt hl hadm
    exact ⟨.bytes s.length (s ++ buf.drop s.length), d', b, root, files,
      by rw [Call.run, exec_bind, hexec]; rfl, ⟨rfl, rfl⟩, h, hlinks⟩
  | clear ino =>
    obtain ⟨r, d', hexec, hst⟩ := h.state.clear hl hadm
    exact ⟨.done, d', b, root, _, by rw [Call.run, exec_bind, hexec]; rfl, rfl,
      ⟨hst, h.proper, h.nodup⟩, hlinks.setFile _ fun _ => rfl⟩

theorem refinesDir (hl : g.Laid) (calls : List Call) :
    ∀ (b : Bindings) (root : Node) (files : List Node) (d : Disk), Named g b root files d →
      Linked b files → RefinesDir g g.toEfs b d calls := by
  induction calls with
  | nil => exact fun b root files d h hlinks => h.view hl hlinks
  | cons call calls ih =>
    intro b root files d h hlinks
    refine ⟨h.view hl hlinks, fun hadm hproper => ?_⟩
    obtain ⟨a, d', b', root', files', hexec, hspec, h', hlinks'⟩ := h.step hl hlinks hadm hproper
    exact ⟨a, d', b', hexec, hspec, ih b' root' files' d' h' hlinks'⟩

end Named

/-- The bindings of a fresh file system: none. -/
theorem Named.init {total ib : UInt32} {dev d : Disk} {fs : EasyFileSystem}
    (h : (Geometry.compute total ib).NoUnderflow)
    (harea : 0 < (Geometry.compute total ib).inodeAreaBlocks.toNat)
    (he : (EasyFileSystem.create total ib).exec dev = some (fs, d)) :
    fs = (Geometry.compute total ib).toEfs ∧
      Named (Geometry.compute total ib) [] ⟨[], 1, .directory, []⟩ [] d := by
  obtain ⟨hfs, hst⟩ := State.init h harea he
  exact ⟨hfs, hst, fun p hp => absurd hp List.not_mem_nil, List.nodup_nil⟩

/-- **The root directory is a map from names to inodes.** On every file system that `create` makes,
every sequence of admissible calls with proper names returns, reads and extends the bindings as it
should, and keeps the link count of every file equal to the number of its names. -/
theorem create_refinesDir (total ib : UInt32) (dev : Disk) (fs : EasyFileSystem) (d : Disk)
    (h : (Geometry.compute total ib).NoUnderflow)
    (harea : 0 < (Geometry.compute total ib).inodeAreaBlocks.toNat)
    (he : (EasyFileSystem.create total ib).exec dev = some (fs, d)) (calls : List Call) :
    RefinesDir (Geometry.compute total ib) fs [] d calls := by
  obtain ⟨rfl, hn⟩ := Named.init h harea he
  exact Named.refinesDir (Geometry.compute_laid h) calls _ _ _ d hn fun j hj =>
    absurd hj (Nat.not_lt_zero j)

/-- Two names for one file in the packer's image. -/
theorem create_refinesDir_packer : ∃ fs d,
    (EasyFileSystem.create 32768 1).exec (fun _ => Bytes.zero blockSz) = some (fs, d) ∧
      RefinesDir (Geometry.compute 32768 1) fs [] d
        [.create "a", .linkat "a" "b", .linkat "c" "d", .find "b", .writeAt 1 0 [7], .ls] := by
  obtain ⟨fs, d, he, _⟩ := create_spec (fun _ => Bytes.zero blockSz)
    (show (Geometry.compute 32768 1).NoUnderflow by decide) (by decide)
  exact ⟨fs, d, he, create_refinesDir 32768 1 _ fs d (by decide) (by decide) he _⟩

end RCore.EasyFs
