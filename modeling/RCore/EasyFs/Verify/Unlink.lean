import Mathlib.Logic.Relation
import RCore.EasyFs.Verify.Names

/-!
# `unlinkat`

`unlinkat` finds the record of a name and is meant to cover it with zeros, but it writes the zeros
at `file_count * DIRENT_SZ`, behind the last record. There the directory file ends, so the write has
no bytes (`writeAt_end`): the record stays, while the link count of the file goes down. So on every
directory that `create`, `linkat` and `unlinkat` can build, `unlinkat` does what it should exactly
for the names that are not there (`unlinkRemoves_iff`).
-/

namespace RCore.EasyFs

open RCore Prog DiskInode

/-! ## The write at the end of the directory -/

/-- The look-up behind the largest file panics. -/
theorem getBlockId_abort (di : DiskInode) {k : Nat} (hk : ¬k < indirect2Bound) : di.getBlockId k = abort := by
  have hbound : ¬k < 16540 := hk
  rw [getBlockId, dif_neg (show ¬k < 28 by omega), if_neg (show ¬k < 156 by omega), if_neg hk]

theorem getBlockId_exec {di : DiskInode} {k : Nat} {d d' : Disk} {b : UInt32}
    (he : (di.getBlockId k).exec d = some (b, d')) : d' = d := by
  by_cases hk : k < indirect2Bound
  · exact ((getBlockId_spec d di hk).wlp b d' he).2
  · rw [getBlockId_abort di hk] at he
    cases he

/-- A write at the end of a file, without growing it, changes nothing. -/
theorem writeAt_end {di : DiskInode} {buf : List UInt8} {d d' : Disk} {r : Nat}
    (hsize : di.size.toNat + buf.length < 2 ^ 64)
    (he : (di.writeAt di.size.toNat buf).exec d = some (r, d')) : d' = d := by
  have hlast : min ((di.size.toNat + buf.length) % 2 ^ 64) di.size.toNat = di.size.toNat := by
    rw [Nat.mod_eq_of_lt hsize]
    omega
  have hwp := wp_eq_iff.mpr he
  simp only [DiskInode.writeAt, hlast, Nat.sub_self, Nat.zero_add, writeLoop, wp_bind, wp_assert,
    wp_withModify, wp_pure] at hwp
  obtain ⟨_, b, e, hget, hwp⟩ := hwp
  have hdone : min ((di.size.toNat / blockSz + 1) * blockSz) di.size.toNat = di.size.toNat := by
    show min ((di.size.toNat / 512 + 1) * 512) di.size.toNat = di.size.toNat
    omega
  rw [hdone, if_pos rfl, Nat.sub_self, List.take_zero, Bytes.splice_nil, wp_pure,
    Function.update_eq_self] at hwp
  exact hwp.2.symm.trans (getBlockId_exec hget)

/-- It returns, unless the file has the largest size. -/
theorem writeAt_end_returns {di : DiskInode} {buf : List UInt8} {d : Disk} (hroom : di.size.toNat < indirect2Bound * blockSz)
    (hsize : di.size.toNat + buf.length < 2 ^ 64) : ∃ r, (di.writeAt di.size.toNat buf).exec d = some (r, d) := by
  have hlast : min ((di.size.toNat + buf.length) % 2 ^ 64) di.size.toNat = di.size.toNat := by
    rw [Nat.mod_eq_of_lt hsize]
    omega
  have hblock : di.size.toNat / blockSz < indirect2Bound := Nat.div_lt_of_lt_mul (by rwa [Nat.mul_comm])
  have hwp : (di.writeAt di.size.toNat buf).wp (fun _ _ => True) d := by
    simp only [DiskInode.writeAt, hlast, Nat.sub_self, Nat.zero_add, writeLoop, wp_bind, wp_assert, wp_withModify, wp_pure]
    refine ⟨Nat.le_refl _, wp_mono (getBlockId_spec d di hblock) fun b e _ => ?_⟩
    have hdone : min ((di.size.toNat / blockSz + 1) * blockSz) di.size.toNat = di.size.toNat := by
      show min ((di.size.toNat / 512 + 1) * 512) di.size.toNat = di.size.toNat
      omega
    rw [if_pos hdone, wp_pure]
    trivial
  obtain ⟨r, d', he, _⟩ := hwp
  exact ⟨r, writeAt_end hsize he ▸ he⟩

section Loop

variable {d : Disk} {di : DiskInode} {es : List DirEntry} {bs : List UInt32}
  (h : FileRep d di (es.flatMap DirEntry.asBytes) bs)
include h

/-- The loop of `unlinkat` leaves the disk as it is. -/
theorem unlinkLoop_exec (path : String) {r : Int} {d' : Disk} (n : Nat) :
    ∀ (i : Nat) (buf : List UInt8), i + n = es.length → buf.length = 32 →
      (Inode.unlinkLoop path di es.length n i buf).exec d = some (r, d') → d' = d := by
  have hsize := records_size h
  have hbound := h.bound
  rw [length_flatMap_packed DirEntry.asBytes_length] at hbound
  induction n with
  | zero =>
    intro i buf _ _ he
    cases he
    rfl
  | succ n ih =>
    intro i buf hin hbuf he
    have hi : i < es.length := by omega
    simp only [Inode.unlinkLoop, exec_bind, readDirent_exec h hi hbuf, Option.bind_some,
      DirEntry.ofBytes_asBytes, exec_unwrap] at he
    cases hn : es[i].getName with
    | none =>
      rw [hn] at he
      cases he
    | some nm =>
      rw [hn] at he
      simp only [Option.map_some, Option.bind_some] at he
      by_cases heq : nm = path
      · rw [if_pos heq, exec_bind_pure] at he
        obtain ⟨⟨k, e⟩, hw, hpair⟩ := Option.map_eq_some_iff.mp he
        cases hpair
        have hoff : es.length * direntSz = di.size.toNat := by
          rw [hsize, Nat.mul_comm]
        rw [hoff] at hw
        exact writeAt_end (by rw [DirEntry.asBytes_length]; omega) hw
      · rw [if_neg heq] at he
        exact ih (i + 1) _ (by omega) (DirEntry.asBytes_length _) he

/-- It finds the name where the scan of the records does, if the directory has not the largest size. -/
theorem unlinkLoop_scan (hroom : 32 * es.length < indirect2Bound * blockSz) {path : String} {found : Option UInt32}
    (n : Nat) : ∀ (i : Nat) (buf : List UInt8), i + n = es.length → buf.length = 32 →
      scan path (es.drop i) = some found →
        (Inode.unlinkLoop path di es.length n i buf).exec d = some (if found.isSome then 0 else -1, d) := by
  have hsize := records_size h
  have hbound := h.bound
  rw [length_flatMap_packed DirEntry.asBytes_length] at hbound
  induction n with
  | zero =>
    intro i buf hin _ hscan
    rw [List.drop_eq_nil_of_le (by omega)] at hscan
    cases hscan
    rfl
  | succ n ih =>
    intro i buf hin hbuf hscan
    have hi : i < es.length := by omega
    rw [List.drop_eq_getElem_cons hi] at hscan
    obtain ⟨nm, hn, hrest⟩ := Option.bind_eq_some_iff.mp hscan
    simp only [Inode.unlinkLoop, exec_bind, readDirent_exec h hi hbuf, Option.bind_some, DirEntry.ofBytes_asBytes,
      exec_unwrap, hn, Option.map_some]
    by_cases heq : nm = path
    · rw [if_pos heq] at hrest
      cases hrest
      have hoff : es.length * direntSz = di.size.toNat := by rw [hsize, Nat.mul_comm]
      obtain ⟨k, hw⟩ := writeAt_end_returns (d := d) (hsize ▸ hroom)
        (show di.size.toNat + DirEntry.newZeros.asBytes.length < 2 ^ 64 by rw [DirEntry.asBytes_length]; omega)
      rw [if_pos heq, exec_bind_pure, hoff, hw]
      rfl
    · rw [if_neg heq] at hrest ⊢
      exact ih (i + 1) _ (by omega) (DirEntry.asBytes_length _) hrest

end Loop

namespace State

variable {g : Geometry} {es : List DirEntry} {root : Node} {files : List Node} {d d' : Disk}

/-- The number of records that `unlinkat` reads off the size. -/
theorem count_eq (h : State g es root files d) : (g.slot d 0).size.toNat / direntSz = es.length := by
  rw [records_size (h.inv.root_rep h.dir.toIsDir).2]
  exact Nat.mul_div_cancel_left _ (by decide)

/-- `unlinkat` of a name that is not there. -/
theorem unlinkat_absent (hl : g.Laid) (h : State g es root files d) {path : String}
    (hscan : scan path es = some none) :
    (g.toEfs.rootInode.unlinkat g.toEfs path).exec d = some (-1, d) := by
  have hexec := h.inv.lookup_exec h.dir.toIsDir hl.sound path
  rw [hscan] at hexec
  rw [Inode.unlinkat, exec_bind, hexec]
  rfl

/-- Storing the disk inode of the root directory back as it is. -/
theorem storeRoot (hl : g.Laid) (h : State g es root files d) :
    State g es root files (Function.update d (1 + g.inodeBitmapBlocks.toNat + 0 / 3)
      ((g.slot d 0).encode (d (1 + g.inodeBitmapBlocks.toNat + 0 / 3)) (0 % 3 * 136))) := by
  have hpos : 0 < (root :: files).length := Nat.succ_pos _
  exact ⟨h.inv.store hl.sound hpos (h.inv.rep 0 hpos) (h.inv.split hpos)
    (fun b (hb : b ∈ []) => absurd hb List.not_mem_nil) fun x _ _ => rfl, h.dir⟩

/-- Taking a link from a file. -/
theorem unlinkTarget (hl : g.Laid) (h : State g es root files d) {j : Nat} (hj : j < files.length) :
    ((g.toEfs.inode (UInt32.ofNat (j + 1))).modifyDiskInode fun di => pure ((), di.decNlink)).wp
      (fun _ d' => State g es root (files.modify j fun n => { n with nlink := n.nlink - 1 }) d') d :=
  wp_mono (h.inv.setNlink hl hj (· - 1)) fun _ _ hinv => ⟨hinv, h.dir.setFile j fun _ => rfl⟩

/-- `unlinkat` of a name that is there, when its loop returns. -/
theorem unlinkat_of_loop (hl : g.Laid) (h : State g es root files d) {path : String} {j : Nat} (hj : j < files.length)
    (hscan : scan path es = some (some (UInt32.ofNat (j + 1)))) {res : Int}
    (hloop : (Inode.unlinkLoop path (g.slot d 0) es.length es.length 0 DirEntry.newZeros.asBytes).exec d =
      some (res, d)) :
    (g.toEfs.rootInode.unlinkat g.toEfs path).wp (fun r d' => r = res ∧ State g es root
      (if res = 0 then files.modify j fun n => { n with nlink := n.nlink - 1 } else files) d') d := by
  have hexec := h.inv.lookup_exec h.dir.toIsDir hl.sound path
  rw [hscan] at hexec
  have hcount := h.count_eq
  have harea := h.inv.inArea
  rw [List.length_cons] at harea
  have h1 := h.storeRoot hl
  rw [Inode.unlinkat, wp_bind_of_exec hexec]
  simp only [wp_bind]
  refine (Geometry.wp_modifyDiskInode hl.sound (i := 0) (by omega) (by omega) _ _ d).mpr ?_
  simp only [hcount]
  rw [wp_bind_of_exec hloop, wp_pure]
  by_cases hres : res = 0
  · have hfind := h1.inv.find_exec h1.dir.toIsDir hl.sound path
    rw [hscan] at hfind
    rw [if_pos hres, wp_bind_of_exec hfind]
    simp only [Option.map_some, wp_bind, wp_unwrap_some, wp_pure, if_pos hres]
    exact wp_mono (h1.unlinkTarget hl hj) fun _ _ hst => ⟨trivial, hst⟩
  · rw [if_neg hres, wp_pure, if_neg hres]
    exact ⟨rfl, h1⟩

/-- `unlinkat` of a name that is there leaves the records as they are. -/
theorem unlinkat_present (hl : g.Laid) (h : State g es root files d) {path : String} {id : UInt32}
    (hscan : scan path es = some (some id)) {r : Int}
    (he : (g.toEfs.rootInode.unlinkat g.toEfs path).exec d = some (r, d')) :
    ∃ files', State g es root files' d' := by
  cases hloop : (Inode.unlinkLoop path (g.slot d 0) es.length es.length 0 DirEntry.newZeros.asBytes).exec d with
  | some p =>
    obtain ⟨res, e⟩ := p
    have hfile := (h.inv.root_rep h.dir.toIsDir).2
    have hed := unlinkLoop_exec hfile path _ 0 _ (by omega) (DirEntry.asBytes_length _) hloop
    subst hed
    obtain ⟨j, hj, rfl⟩ := Inv.target h.dir hscan
    exact ⟨_, ((h.unlinkat_of_loop hl hj hscan hloop).wlp r d' he).2⟩
  | none =>
    -- the call does not return without its loop
    have hexec := h.inv.lookup_exec h.dir.toIsDir hl.sound path
    rw [hscan] at hexec
    have harea := h.inv.inArea
    rw [List.length_cons] at harea
    have hwp := wp_eq_iff.mpr he
    rw [Inode.unlinkat, wp_bind_of_exec hexec] at hwp
    simp only [wp_bind] at hwp
    have hmod := (Geometry.wp_modifyDiskInode hl.sound (i := 0) (by omega) (by omega) _ _ d).mp hwp
    simp only [h.count_eq, wp_bind] at hmod
    obtain ⟨_, _, hsome, _⟩ := hmod
    rw [hloop] at hsome
    cases hsome

/-- What `unlinkat` of a name that is there does, if the directory has not the largest size. -/
theorem unlinkat_exec (hl : g.Laid) (h : State g es root files d) (hroom : g.sizeOf d 0 < indirect2Bound * blockSz)
    {path : String} {j : Nat} (hj : j < files.length) (hscan : scan path es = some (some (UInt32.ofNat (j + 1)))) :
    (g.toEfs.rootInode.unlinkat g.toEfs path).wp (fun r d' =>
      r = 0 ∧ State g es root (files.modify j fun n => { n with nlink := n.nlink - 1 }) d') d := by
  have hloop := unlinkLoop_scan (h.inv.root_rep h.dir.toIsDir).2 (h.sizeOf_root ▸ hroom) es.length 0
    DirEntry.newZeros.asBytes (by omega) (DirEntry.asBytes_length _) hscan
  exact h.unlinkat_of_loop hl hj hscan hloop

end State

namespace Named

variable {g : Geometry} {b : Bindings} {root : Node} {files : List Node} {d d' : Disk}

/-- `unlinkat` of a name that is not bound. -/
theorem unlinkat_absent (hl : g.Laid) (h : Named g b root files d) {path : String}
    (hlook : lookup path b = none) :
    (g.toEfs.rootInode.unlinkat g.toEfs path).exec d = some (-1, d) :=
  h.state.unlinkat_absent hl (by rw [h.scan_eq, hlook])

/-- `unlinkat` of a name that is bound leaves the bindings as they are. -/
theorem unlinkat_present (hl : g.Laid) (h : Named g b root files d) {path : String} {id : UInt32}
    (hlook : lookup path b = some id) {r : Int}
    (he : (g.toEfs.rootInode.unlinkat g.toEfs path).exec d = some (r, d')) :
    ∃ files', Named g b root files' d' := by
  obtain ⟨files', hst⟩ := h.state.unlinkat_present hl (by rw [h.scan_eq, hlook]) he
  exact ⟨files', hst, h.proper, h.nodup⟩

theorem create_named (hl : g.Laid) (h : Named g b root files d) {name : String}
    (hadm : Admissible g d (.create name)) (hname : DirEntry.Proper name) {r : Option Inode}
    (he : (g.toEfs.rootInode.create g.toEfs name).exec d = some (r, d')) :
    ∃ b' root' files', Named g b' root' files' d' := by
  rcases h.state.create hl hadm he with ⟨_, rfl, _⟩ | ⟨hs, _, bs, hst⟩
  · exact ⟨b, root, files, h⟩
  · rw [h.scan_eq] at hs
    exact ⟨_, _, _, h.extend hname (Option.some.inj hs) hst⟩

theorem linkat_named (hl : g.Laid) (h : Named g b root files d) {oldpath newpath : String}
    (hadm : Admissible g d (.linkat oldpath newpath)) (hname : DirEntry.Proper newpath) {r : Int}
    (he : (g.toEfs.rootInode.linkat g.toEfs oldpath newpath).exec d = some (r, d')) :
    ∃ b' root' files', Named g b' root' files' d' := by
  rcases h.state.linkat hl hadm he with ⟨_, rfl, _⟩ | ⟨j, _, hs, _, _, bs, hst⟩
  · exact ⟨b, root, files, h⟩
  · rw [h.scan_eq] at hs
    exact ⟨_, _, _, h.extend hname (Option.some.inj hs) hst⟩

theorem unlinkat_named (hl : g.Laid) (h : Named g b root files d) {path : String} {r : Int}
    (he : (g.toEfs.rootInode.unlinkat g.toEfs path).exec d = some (r, d')) :
    ∃ files', Named g b root files' d' := by
  cases hlook : lookup path b with
  | none =>
    rw [h.unlinkat_absent hl hlook] at he
    cases he
    exact ⟨files, h⟩
  | some id => exact h.unlinkat_present hl hlook he

end Named

/-! ## Directories that the calls can build -/

/-- A call of `create`, `linkat` or `unlinkat` that returns. -/
inductive DirStep (g : Geometry) (fs : EasyFileSystem) : Disk → Disk → Prop
  | create {d d' : Disk} {name : String} {r : Option Inode} (hadm : Admissible g d (.create name))
      (hname : DirEntry.Proper name) (he : (fs.rootInode.create fs name).exec d = some (r, d')) :
      DirStep g fs d d'
  | linkat {d d' : Disk} {oldpath newpath : String} {r : Int}
      (hadm : Admissible g d (.linkat oldpath newpath)) (hold : DirEntry.Proper oldpath)
      (hnew : DirEntry.Proper newpath)
      (he : (fs.rootInode.linkat fs oldpath newpath).exec d = some (r, d')) : DirStep g fs d d'
  | unlinkat {d d' : Disk} {path : String} {r : Int} (hname : DirEntry.Proper path)
      (he : (fs.rootInode.unlinkat fs path).exec d = some (r, d')) : DirStep g fs d d'

/-- The name `path` is bound on `d`, to the inode `ino`. -/
def FoundAt (fs : EasyFileSystem) (path : String) (d : Disk) (ino : Option Inode) : Prop :=
  (fs.rootInode.find fs path).exec d = some (ino, d)

/-- What `unlinkat` of the bound name `path` should do: the call returns 0, the name is gone, every
other name still resolves to the same inode, the link count of the file is one less, and the bytes
of the files are the same. -/
structure Unlinked (g : Geometry) (fs : EasyFileSystem) (path : String) (ino : Inode) (d d' : Disk) :
    Prop where
  returns : (fs.rootInode.unlinkat fs path).exec d = some (0, d')
  gone : FoundAt fs path d' none
  unlisted : ∃ l, fs.rootInode.ls.exec d' = some (l, d') ∧ path ∉ l
  others : ∀ other r, DirEntry.Proper other → other ≠ path → FoundAt fs other d r →
    FoundAt fs other d' r
  nlink : ∃ v : UInt32, v ≠ 0 ∧ ino.nlink.exec d = some (v, d) ∧
    ino.nlink.exec d' = some (v - 1, d')
  bytes : ∀ i ∈ g.allocated d, i ≠ 0 → ∀ offset buf n buf',
    ((fs.inode (UInt32.ofNat i)).readAt offset buf).exec d = some ((n, buf'), d) →
      ((fs.inode (UInt32.ofNat i)).readAt offset buf).exec d' = some ((n, buf'), d')

/-- `unlinkat` removes exactly the name `path` if it is bound, and returns -1 and changes nothing if
it is not. -/
def UnlinkRemoves (g : Geometry) (fs : EasyFileSystem) (path : String) (d : Disk) : Prop :=
  (∀ ino, FoundAt fs path d (some ino) → ∃ d', Unlinked g fs path ino d d') ∧
    (FoundAt fs path d none → (fs.rootInode.unlinkat fs path).exec d = some (-1, d))

namespace Named

variable {g : Geometry} {b : Bindings} {root : Node} {files : List Node} {d d' : Disk}

theorem run (hl : g.Laid) (h : Named g b root files d)
    (hrun : Relation.ReflTransGen (DirStep g g.toEfs) d d') :
    ∃ b' root' files', Named g b' root' files' d' := by
  induction hrun with
  | refl => exact ⟨b, root, files, h⟩
  | tail _ hstep ih =>
    obtain ⟨b1, root1, files1, h1⟩ := ih
    cases hstep with
    | create hadm hname he => exact h1.create_named hl hadm hname he
    | linkat hadm _ hnew he => exact h1.linkat_named hl hadm hnew he
    | unlinkat _ he =>
      obtain ⟨files2, h2⟩ := h1.unlinkat_named hl he
      exact ⟨b1, root1, files2, h2⟩

/-- A bound name survives `unlinkat`. -/
theorem not_unlinkRemoves (hl : g.Laid) (h : Named g b root files d) {path : String} {id : UInt32}
    (hlook : lookup path b = some id) : ¬ UnlinkRemoves g g.toEfs path d := by
  rintro ⟨hpresent, _⟩
  have hfound : FoundAt g.toEfs path d (some (g.toEfs.inode id)) := by
    have hf := h.find hl path
    rw [hlook] at hf
    exact hf
  obtain ⟨d', hu⟩ := hpresent _ hfound
  obtain ⟨files', h'⟩ := h.unlinkat_present hl hlook hu.returns
  have hgone := hu.gone
  unfold FoundAt at hgone
  rw [h'.find hl path, hlook] at hgone
  cases hgone

theorem unlinkRemoves_iff (hl : g.Laid) (h : Named g b root files d) (path : String) :
    UnlinkRemoves g g.toEfs path d ↔ FoundAt g.toEfs path d none := by
  have hf := h.find hl path
  cases hlook : lookup path b with
  | none =>
    rw [hlook] at hf
    constructor
    · exact fun _ => hf
    · refine fun _ => ⟨fun ino hino => ?_, fun _ => h.unlinkat_absent hl hlook⟩
      unfold FoundAt at hino
      rw [hf] at hino
      cases hino
  | some id =>
    rw [hlook] at hf
    constructor
    · exact fun hr => absurd hr (h.not_unlinkRemoves hl hlook)
    · intro hnone
      unfold FoundAt at hnone
      rw [hf] at hnone
      cases hnone

end Named

/-- **When `unlinkat` removes a name.** On every directory that `create`, `linkat` and `unlinkat`
build on a file system that `create` makes, `unlinkat` of a proper name does what it should exactly
when the name is not bound. -/
theorem unlinkat_removes_iff (total ib : UInt32) (dev : Disk) (fs : EasyFileSystem) (d : Disk)
    (h : (Geometry.compute total ib).NoUnderflow)
    (harea : 0 < (Geometry.compute total ib).inodeAreaBlocks.toNat)
    (he : (EasyFileSystem.create total ib).exec dev = some (fs, d)) (d' : Disk)
    (hrun : Relation.ReflTransGen (DirStep (Geometry.compute total ib) fs) d d') (path : String) :
    UnlinkRemoves (Geometry.compute total ib) fs path d' ↔ FoundAt fs path d' none := by
  obtain ⟨rfl, hn⟩ := Named.init h harea he
  have hl := Geometry.compute_laid h
  obtain ⟨b', root', files', hn'⟩ := hn.run hl hrun
  exact hn'.unlinkRemoves_iff hl path

/-- The packer's image with one file, `a`. -/
theorem packer_with_file : ∃ d d' id root files,
    (EasyFileSystem.create 32768 1).exec (fun _ => Bytes.zero blockSz) =
      some ((Geometry.compute 32768 1).toEfs, d) ∧
    Relation.ReflTransGen (DirStep (Geometry.compute 32768 1) (Geometry.compute 32768 1).toEfs)
      d d' ∧
    Named (Geometry.compute 32768 1) [("a", id)] root files d' := by
  have hu : (Geometry.compute 32768 1).NoUnderflow := by decide
  obtain ⟨fs, d, he, _⟩ := create_spec (fun _ => Bytes.zero blockSz) hu (by decide)
  obtain ⟨rfl, hn⟩ := Named.init hu (by decide) he
  have hadm := packer_admissible hn.state "a"
  have hname : DirEntry.Proper "a" := by decide
  obtain ⟨r, d', b', root', files', hexec, hspec, hn', _⟩ :=
    hn.create (Geometry.compute_laid hu) (fun j hj => absurd hj (Nat.not_lt_zero j)) hadm hname
  rcases hspec with ⟨⟨_, hnone⟩, _⟩ | ⟨_, id, _, _, _, _, _, rfl⟩
  · cases hnone
  · exact ⟨d, d', id, root', files', he, .single (.create hadm hname hexec), hn'⟩

/-- In the packer's image with one file. -/
theorem unlinkat_removes_iff_packer : ∃ d d',
    (EasyFileSystem.create 32768 1).exec (fun _ => Bytes.zero blockSz) =
      some ((Geometry.compute 32768 1).toEfs, d) ∧
    Relation.ReflTransGen (DirStep (Geometry.compute 32768 1) (Geometry.compute 32768 1).toEfs)
      d d' ∧
    (UnlinkRemoves (Geometry.compute 32768 1) (Geometry.compute 32768 1).toEfs "a" d' ↔
      FoundAt (Geometry.compute 32768 1).toEfs "a" d' none) := by
  obtain ⟨d, d', _, _, _, he, hrun, _⟩ := packer_with_file
  exact ⟨d, d', he, hrun,
    unlinkat_removes_iff 32768 1 _ _ d (by decide) (by decide) he d' hrun "a"⟩

/-- `unlinkat("a")` right after `create("a")` leaves the name in place. -/
theorem not_unlinkRemoves_packer :
    ¬ ∀ (total ib : UInt32) (dev : Disk) (fs : EasyFileSystem) (d d' : Disk) (path : String),
      (Geometry.compute total ib).NoUnderflow →
      0 < (Geometry.compute total ib).inodeAreaBlocks.toNat →
      (EasyFileSystem.create total ib).exec dev = some (fs, d) →
      Relation.ReflTransGen (DirStep (Geometry.compute total ib) fs) d d' →
      DirEntry.Proper path → UnlinkRemoves (Geometry.compute total ib) fs path d' := by
  intro h
  obtain ⟨d, d', id, root, files, he, hrun, hn⟩ := packer_with_file
  exact hn.not_unlinkRemoves (Geometry.compute_laid (by decide)) (show lookup "a" _ = some id from rfl)
    (h 32768 1 _ _ d d' "a" (by decide) (by decide) he hrun (by decide))

end RCore.EasyFs
