import RCore.EasyFs.Verify.Handles
import RCore.EasyFs.Verify.Unlink

/-!
# What is on the device when a call returns

`create`, `write_at` and `clear` end with `block_cache_sync_all`, so the device then holds what the
cache stands for. `linkat` and `unlinkat` do not (in `linkat` the call is commented out): what they
changed stays in the cache until it is evicted or the next call flushes it. In a run in which no
`linkat` and no `unlinkat` finds anything to change, the device is up to date after every call
(`durable_of_harmless`).

`Carries P Q p d` is the rule of this module: from a cache that stands for `d`, with no handle held
and with `P`, the routine `p` does on the cache what it does on the store, and `Q` holds after it.
-/

namespace RCore.EasyFs

open RCore Prog CacheState

/-! ## Routines between calls -/

/-- The cache stands for `d`, and nobody holds a handle. -/
structure AtRest (d : Disk) (s : CacheState Unit) : Prop where
  rep : Rep (fun _ => d) s
  idle : s.handles = []

theorem AtRest.current_eq {d : Disk} {s : CacheState Unit} (h : AtRest d s) : s.current () = d :=
  funext fun b => h.rep.current_eq () b

/-- Nothing is asked of the device. -/
def Whatever (_ : Disk) (_ : CacheState Unit) : Prop := True

/-- The device holds what the cache stands for. -/
def Settled (d : Disk) (s : CacheState Unit) : Prop := s.devices () = d

/-- The device holds `b` in block `i`. -/
def OnDevice (i : Nat) (b : Block) (_ : Disk) (s : CacheState Unit) : Prop := s.devices () i = b

/-- From a cache at rest with `P`, `p` does what it does on the store, and leaves a cache at rest
with `Q`. -/
def Carries (P Q : Disk → CacheState Unit → Prop) {α : Type} (p : EfsM α) (d : Disk) : Prop :=
  ∀ s, AtRest d s → P d s → RunsAlike p d s fun d' s' => AtRest d' s' ∧ Q d' s'

namespace Carries

variable {P Q R : Disk → CacheState Unit → Prop} {α β : Type} {p : EfsM α} {d : Disk}

theorem bind {f : α → EfsM β} (hp : Carries P Q p d)
    (hf : ∀ a d', p.exec d = some (a, d') → Carries Q R (f a) d') : Carries P R (p >>= f) d := by
  intro s hs hP
  unfold RunsAlike
  rw [exec_bind, cached_bind]
  rcases hp s hs hP with ⟨a, d₁, s₁, he, hr, hs₁, hQ⟩ | ⟨he, hr⟩
  · rw [he, hr, Option.bind_some, Option.bind_some]
    exact hf a d₁ he s₁ hs₁ hQ
  · rw [he, hr]
    exact Or.inr ⟨rfl, rfl⟩

theorem pure (a : α) : Carries P P (pure a : EfsM α) d :=
  fun s hs hP => Or.inl ⟨a, d, s, rfl, rfl, hs, hP⟩

theorem assert {c : Prop} [Decidable c] : Carries P P (Prog.assert c : EfsM Unit) d := by
  unfold Prog.assert
  split
  · exact .pure ()
  · exact fun s _ _ => Or.inr ⟨rfl, rfl⟩

theorem forget (h : Carries Whatever Q p d) : Carries P Q p d :=
  fun s hs _ => h s hs trivial

/-- A routine that may store blocks. -/
theorem stores {w : Bool} {n : Nat} (hp : Nests w n p) (hn : n ≤ blockCacheMaxNum) :
    Carries Whatever Whatever p d := by
  intro s hs _
  have hroom : s.handles.length + n ≤ blockCacheMaxNum := by
    rw [hs.idle, List.length_nil]
    omega
  rcases hp.cached_run hs.rep hroom with ⟨a, d', s', he, hr, ho⟩ | hnone
  · exact Or.inl ⟨a, d', s', he, hr, ⟨ho.rep, ho.handles.trans hs.idle⟩, trivial⟩
  · exact Or.inr hnone

/-- A routine that only reads writes nothing to the device but what is modified in the cache. -/
theorem reads {n : Nat} (hp : Nests false n p) (hn : n ≤ blockCacheMaxNum)
    (hPQ : ∀ s s', P d s → (∀ b, s.devices () b = d b → s'.devices () b = d b) → Q d s') :
    Carries P Q p d := by
  intro s hs hP
  have hroom : s.handles.length + n ≤ blockCacheMaxNum := by
    rw [hs.idle, List.length_nil]
    omega
  rcases hp.cached_run hs.rep hroom with ⟨a, d', s', he, hr, ho⟩ | hnone
  · obtain ⟨rfl, hdev⟩ := ho.readOnly rfl
    exact Or.inl ⟨a, d', s', he, hr, ⟨ho.rep, ho.handles.trans hs.idle⟩, hPQ s s' hP hdev⟩
  · exact Or.inr hnone

theorem reads_settled {n : Nat} (hp : Nests false n p) (hn : n ≤ blockCacheMaxNum) :
    Carries Settled Settled p d :=
  reads hp hn fun _ _ hP hdev => funext fun b => hdev b (congrFun hP b)

theorem reads_onDevice {n i : Nat} (hp : Nests false n p) (hn : n ≤ blockCacheMaxNum) :
    Carries (OnDevice i (d i)) (OnDevice i (d i)) p d :=
  reads hp hn fun _ _ hP hdev => hdev i hP

/-- The block that a routine modifies is not written while its handle is held. -/
theorem modify_onDevice {n : Nat} {b : Block} (i : Nat) {f : Block → EfsM (α × Block)}
    (hf : ∀ b, Nests true n (f b)) (hn : n + 1 ≤ blockCacheMaxNum) :
    Carries (OnDevice i b) (OnDevice i b) (withModify i f) d := by
  intro s hs hP
  have hroom : s.handles.length + (n + 1) ≤ blockCacheMaxNum := by
    rw [hs.idle, List.length_nil]
    omega
  rcases withModify_run i (fun _ h₁ hroom₁ => (hf (d i)).cached_run h₁ hroom₁) hs.rep hroom with
    ⟨a, d', s', he, hr, ho, hstill⟩ | hnone
  · exact Or.inl ⟨a, d', s', he, hr, ⟨ho.rep, ho.handles.trans hs.idle⟩, hstill.trans hP⟩
  · exact Or.inr hnone

theorem modifyDiskInode_onDevice {n : Nat} {b : Block} (ino : Inode)
    {f : DiskInode → EfsM (α × DiskInode)} (hf : ∀ di, Nests true n (f di))
    (hn : n + 1 ≤ blockCacheMaxNum) :
    Carries (OnDevice ino.blockId b) (OnDevice ino.blockId b) (ino.modifyDiskInode f) d :=
  modify_onDevice ino.blockId (fun _ => .bind .assert fun _ => .bind (hf _) fun _ => .ret _) hn

/-- `block_cache_sync_all`. -/
theorem sync : Carries Whatever Settled (Prog.sync (Pure.pure ()) : EfsM Unit) d := by
  intro s hs _
  obtain ⟨s', hrun, hrep, hkeep, _, hdev⟩ := blockCacheSyncAll_run hs.rep
  refine Or.inl ⟨(), d, s', rfl, ?_, ⟨hrep, hkeep.handles.trans hs.idle⟩, congrFun hdev ()⟩
  show (cached (Prog.sync (Prog.ret ()))).run s = _
  simp only [cached, Comp.run_bind, hrun, Option.bind_some, Comp.run_pure]

/-- A routine, then `block_cache_sync_all`, then a result. -/
theorem synced {n : Nat} {f : α → EfsM β} (hp : Nests true n p) (hn : n ≤ blockCacheMaxNum)
    (hf : ∀ a d', Carries Whatever Settled (f a) d') : Carries Whatever Settled (p >>= f) d :=
  (stores hp hn).bind fun a d' _ => hf a d'

end Carries

/-! ## The calls -/

section Calls

variable (fs : EasyFileSystem) (d : Disk)

/-- The lookup that `create`, `linkat` and `unlinkat` start with. -/
theorem lookup_settled (ino : Inode) (name : String) :
    Carries Settled Settled (ino.readDiskInode fun di => do
      Prog.assert (di.isDir = true)
      Inode.findInodeId name di) d :=
  .reads_settled (ino.lookup_nests (n := 0) name) (by decide)

theorem create_settled (name : String) :
    Carries Settled Settled (fs.rootInode.create fs name) d := by
  unfold Inode.create
  refine (lookup_settled d fs.rootInode name).bind fun found d₁ _ => ?_
  split
  · exact .pure none
  · refine (Carries.synced (fs.allocInode_nests (n := 0)) (by decide) fun id d₂ => ?_).forget
    refine .synced (Inode.modifyDiskInode_nests (n := 0) _ fun _ => .ret _) (by decide) fun _ d₃ => ?_
    refine .synced (Inode.modifyDiskInode_nests (n := 2) _ fun di =>
      .bind (Inode.appendDirent_nests fs (n := 0) (DirEntry.new_nests _ _) di) fun _ => .ret _)
      (by decide) fun _ d₄ => ?_
    exact Carries.sync.bind fun _ _ _ => .pure _

theorem writeAt_settled (ino : Inode) (offset : Nat) (buf : List UInt8) :
    Carries Settled Settled (ino.writeAt fs offset buf) d := by
  unfold Inode.writeAt
  refine (Carries.synced (ino.modifyDiskInode_nests (n := 2) fun di =>
    .bind (Inode.increaseSize_nests fs (n := 0) _ di) fun di' =>
      .bind (DiskInode.writeAt_nests di' _ _) fun _ => .ret _) (by decide) fun _ d₁ => ?_).forget
  exact Carries.sync.bind fun _ _ _ => .pure _

theorem clear_settled (ino : Inode) : Carries Settled Settled (ino.clear fs) d := by
  unfold Inode.clear
  refine (Carries.synced (ino.modifyDiskInode_nests (n := 2) fun di =>
    .bind (DiskInode.clearSize_nests (n := 0) di) fun r => .bind .assert fun _ =>
      .bind (Inode.deallocBlocks_nests fs _) fun _ => .ret _) (by decide) fun _ d₁ => ?_).forget
  exact Carries.sync

/-- `find` and the lookup of the other calls see the same. -/
theorem lookup_of_foundAt {path : String} {r : Option Inode} {d : Disk} (h : FoundAt fs path d r) :
    ∃ id : Option UInt32, id.map fs.inode = r ∧ (fs.rootInode.readDiskInode fun di => do
      Prog.assert (di.isDir = true)
      Inode.findInodeId path di).exec d = some (id, d) := by
  have hwp := wp_eq_iff.mpr h
  simp only [Inode.find, Inode.readDiskInode, wp_withRead, wp_bind, wp_assert, wp_pure] at hwp
  obtain ⟨hfit, id, d', he, hr, rfl⟩ := hwp
  refine ⟨id, hr, ?_⟩
  have hdir : (DiskInode.decode (d' fs.rootInode.blockId) fs.rootInode.blockOffset).isDir = true := by
    have hwp' := wp_eq_iff.mpr he
    simp only [Inode.findInodeId, wp_bind, wp_assert] at hwp'
    exact hwp'.1
  rw [← wp_eq_iff]
  simp only [Inode.readDiskInode, wp_withRead, wp_bind, wp_assert]
  exact ⟨hfit, hdir, wp_eq_iff.mpr he⟩

theorem linkat_settled {oldpath newpath : String}
    (h : (∃ ino, FoundAt fs newpath d (some ino)) ∨ FoundAt fs oldpath d none) :
    Carries Settled Settled (fs.rootInode.linkat fs oldpath newpath) d := by
  unfold Inode.linkat
  refine (lookup_settled d fs.rootInode newpath).bind fun found d₁ hfound => ?_
  split
  · exact .pure _
  · rename_i hnone
    rcases h with ⟨ino, hnew⟩ | hold
    · obtain ⟨id, hid, he⟩ := lookup_of_foundAt fs hnew
      rw [he] at hfound
      cases hfound
      rw [Bool.not_eq_true, Option.isSome_eq_false_iff, Option.isNone_iff_eq_none] at hnone
      rw [hnone] at hid
      cases hid
    · obtain ⟨id, hid, he⟩ := lookup_of_foundAt fs hold
      have hd : d₁ = d :=
        (fs.rootInode.lookup_nests (n := 0) newpath).exec_same (by decide) hfound
      subst hd
      refine (lookup_settled d₁ fs.rootInode oldpath).bind fun old d₂ hlook => ?_
      rw [he] at hlook
      cases hlook
      cases id with
      | none => exact .pure _
      | some id => cases hid

theorem unlinkat_settled {path : String} (h : FoundAt fs path d none) :
    Carries Settled Settled (fs.rootInode.unlinkat fs path) d := by
  unfold Inode.unlinkat
  obtain ⟨id, hid, he⟩ := lookup_of_foundAt fs h
  refine (lookup_settled d fs.rootInode path).bind fun found d₁ hlook => ?_
  rw [he] at hlook
  cases hlook
  cases id with
  | none => exact .pure _
  | some id => cases hid

end Calls

/-- A call of a client. -/
inductive FsCall
  | call (c : Call)
  | unlinkat (path : String)

namespace FsCall

def run (fs : EasyFileSystem) : FsCall → EfsM Answer
  | call c => c.run fs
  | unlinkat path => do
    let r ← fs.rootInode.unlinkat fs path
    pure (.status r)

/-- A `linkat` or `unlinkat` that finds nothing to change on the disk `d`, and any other call. -/
def Harmless (fs : EasyFileSystem) (d : Disk) : FsCall → Prop
  | call (.linkat oldpath newpath) =>
      (∃ ino, FoundAt fs newpath d (some ino)) ∨ FoundAt fs oldpath d none
  | unlinkat path => FoundAt fs path d none
  | _ => True

theorem run_settled (fs : EasyFileSystem) {d : Disk} {c : FsCall} (h : c.Harmless fs d) :
    Carries Settled Settled (c.run fs) d := by
  cases c with
  | unlinkat path => exact (unlinkat_settled fs d h).bind fun _ _ _ => .pure _
  | call c =>
    cases c with
    | create name => exact (create_settled fs d name).bind fun _ _ _ => .pure _
    | linkat oldpath newpath => exact (linkat_settled fs d h).bind fun _ _ _ => .pure _
    | find name =>
      exact .reads_settled (.bind (fs.rootInode.find_nests fs (n := 0) name) fun _ => .ret _)
        (by decide)
    | ls => exact .reads_settled (.bind (fs.rootInode.ls_nests (n := 0)) fun _ => .ret _) (by decide)
    | writeAt ino offset buf =>
      exact (writeAt_settled fs d (fs.inode ino) offset buf).bind fun _ _ _ => .pure _
    | readAt ino offset buf =>
      exact .reads_settled (.bind ((fs.inode ino).readAt_nests (n := 0) offset buf) fun _ => .ret _)
        (by decide)
    | clear ino => exact (clear_settled fs d (fs.inode ino)).bind fun _ _ _ => .pure _

end FsCall

/-! ## Runs -/

/-- A file system that has just been made, or opened, on the device `dev`. -/
inductive Mounted (dev : Disk) (fs : EasyFileSystem) (s : CacheState Unit) : Prop
  | create (total ib : UInt32)
      (h : (cached (EasyFileSystem.create total ib)).run (empty fun _ => dev) = some (fs, s))
  | opened (h : (cached EasyFileSystem.open_).run (empty fun _ => dev) = some (fs, s))

/-- A call that meets `ok` and returns. -/
inductive FsStep (fs : EasyFileSystem) (ok : Disk → FsCall → Prop) :
    CacheState Unit → CacheState Unit → Prop
  | call {s s' : CacheState Unit} {a : Answer} (c : FsCall) (hok : ok (s.current ()) c)
      (hrun : (cached (c.run fs)).run s = some (a, s')) : FsStep fs ok s s'

/-- The device holds the content of every block, and on a copy of it, with nothing cached, every
routine sees what it sees here. -/
structure Durable (s : CacheState Unit) : Prop where
  device : ∀ b, s.devices () b = s.current () b
  copy : ∀ {w : Bool} {α : Type} (p : EfsM α), Nests w blockCacheMaxNum p →
    ((cached p).run (empty s.devices)).map Prod.fst = ((cached p).run s).map Prod.fst

theorem AtRest.empty (dev : Disk) : AtRest dev (CacheState.empty fun _ => dev) :=
  ⟨Rep.empty _, rfl⟩

theorem AtRest.durable {d : Disk} {s : CacheState Unit} (h : AtRest d s) (hs : Settled d s) :
    Durable s := by
  refine ⟨fun b => ?_, fun p hp => ?_⟩
  · rw [h.current_eq, hs]
  · -- both runs do what `exec` does on `d`
    have hdev : s.devices = fun _ => d := funext fun _ => hs
    have hfst : ∀ s₀, AtRest d s₀ →
        ((cached p).run s₀).map Prod.fst = (p.exec d).map Prod.fst := by
      intro s₀ h₀
      rcases Carries.stores hp (Nat.le_refl _) _ h₀ trivial with ⟨a, _, s₁, he, hr, _⟩ | ⟨he, hr⟩
      · rw [he, hr]
        rfl
      · rw [he, hr]
        rfl
    rw [hdev, hfst _ (AtRest.empty d), hfst s h]

/-- The state a routine returns with. -/
theorem Carries.returns {P Q : Disk → CacheState Unit → Prop} {α : Type} {p : EfsM α} {d : Disk}
    {s s' : CacheState Unit} {a : α} (hp : Carries P Q p d) (hs : AtRest d s) (hP : P d s)
    (hrun : (cached p).run s = some (a, s')) :
    ∃ d', p.exec d = some (a, d') ∧ AtRest d' s' ∧ Q d' s' := by
  rcases hp s hs hP with ⟨a', d', s₁, he, hr, hq⟩ | ⟨_, hr⟩
  · rw [hrun] at hr
    cases hr
    exact ⟨d', he, hq⟩
  · rw [hrun] at hr
    cases hr

/-- The cached run of a routine that returns on the store. -/
theorem Carries.runs {P Q : Disk → CacheState Unit → Prop} {α : Type} {p : EfsM α} {d d' : Disk}
    {s : CacheState Unit} {a : α} (hp : Carries P Q p d) (hs : AtRest d s) (hP : P d s)
    (he : p.exec d = some (a, d')) :
    ∃ s', (cached p).run s = some (a, s') ∧ AtRest d' s' ∧ Q d' s' := by
  rcases hp s hs hP with ⟨a', d₁, s₁, he', hr, hq⟩ | ⟨he', _⟩
  · rw [he] at he'
    cases he'
    exact ⟨s₁, hr, hq⟩
  · rw [he] at he'
    cases he'

theorem EasyFileSystem.create_settled (total ib : UInt32) (d : Disk) :
    Carries Whatever Settled (EasyFileSystem.create total ib) d := by
  unfold EasyFileSystem.create
  extract_lets g efs
  refine .synced (EasyFileSystem.clearBlocks_nests (n := 0) _ _) (by decide) fun _ _ => ?_
  refine .synced (.modify (n := 0) 0 fun _ => .ret _) (by decide) fun _ _ => ?_
  refine .synced (efs.allocInode_nests (n := 0)) (by decide) fun _ _ => ?_
  refine .synced (n := 0) .assert (by decide) fun _ _ => ?_
  refine .synced (.modify (n := 0) _ fun _ => .bind .assert fun _ => .ret _) (by decide)
    fun _ _ => ?_
  exact Carries.sync.bind fun _ _ _ => .pure _

theorem EasyFileSystem.open_settled (d : Disk) :
    Carries Settled Settled EasyFileSystem.open_ d :=
  .reads_settled (.read 0 (n := 0) fun _ => .bind .assert fun _ => .ret _) (by decide)

theorem Mounted.settled {dev : Disk} {fs : EasyFileSystem} {s : CacheState Unit}
    (h : Mounted dev fs s) : ∃ d, AtRest d s ∧ Settled d s := by
  cases h with
  | create total ib h =>
    obtain ⟨d, _, hs⟩ := (EasyFileSystem.create_settled total ib dev).returns (.empty dev) trivial h
    exact ⟨d, hs⟩
  | opened h =>
    obtain ⟨d, _, hs⟩ := (EasyFileSystem.open_settled dev).returns (.empty dev) rfl h
    exact ⟨d, hs⟩

/-- A harmless call leaves the device up to date. -/
theorem FsStep.settled {fs : EasyFileSystem} {s s' : CacheState Unit} {d : Disk}
    (h : FsStep fs (fun d c => c.Harmless fs d) s s') (hs : AtRest d s) (hset : Settled d s) :
    ∃ d', AtRest d' s' ∧ Settled d' s' := by
  cases h with
  | call c hok hrun =>
    rw [hs.current_eq] at hok
    obtain ⟨d', _, hs'⟩ := (c.run_settled fs hok).returns hs hset hrun
    exact ⟨d', hs'⟩

/-- **Calls are durable, but for `linkat` and `unlinkat`.** In every run in which no `linkat` and no
`unlinkat` has anything to change, the device is up to date after every call. -/
theorem durable_of_harmless (dev : Disk) (fs : EasyFileSystem) (s s' : CacheState Unit)
    (hm : Mounted dev fs s)
    (hrun : Relation.ReflTransGen (FsStep fs fun d c => c.Harmless fs d) s s') : Durable s' := by
  have hsettled : ∃ d, AtRest d s' ∧ Settled d s' := by
    induction hrun with
    | refl => exact hm.settled
    | tail _ hstep ih =>
      obtain ⟨d, hs, hset⟩ := ih
      exact hstep.settled hs hset
  obtain ⟨d, hs, hset⟩ := hsettled
  exact hs.durable hset

/-! ## A link that is not on the device -/

section Link

variable {d : Disk}

/-- `linkat` to a file whose inode is in the block of the root inode leaves this block on the device
as it was. -/
theorem linkat_onDevice (fs : EasyFileSystem) {oldpath : String} (newpath : String)
    {id : UInt32} (hold : FoundAt fs oldpath d (some (fs.inode id)))
    (hblock : (fs.inode id).blockId = fs.rootInode.blockId) :
    Carries (OnDevice fs.rootInode.blockId (d fs.rootInode.blockId))
      (OnDevice fs.rootInode.blockId (d fs.rootInode.blockId))
      (fs.rootInode.linkat fs oldpath newpath) d := by
  unfold Inode.linkat
  have hlook := fs.rootInode.lookup_nests (w := false) (n := 0)
  refine (Carries.reads_onDevice (hlook newpath) (by decide)).bind fun found d₁ hfound => ?_
  obtain rfl := (hlook newpath).exec_same (by decide) hfound
  split
  · exact .pure _
  · refine (Carries.reads_onDevice (hlook oldpath) (by decide)).bind fun old d₂ hold' => ?_
    obtain rfl := (hlook oldpath).exec_same (by decide) hold'
    cases old with
    | none => exact .pure _
    | some oldId =>
      have hfind := fs.rootInode.find_nests fs (w := false) (n := 0) oldpath
      refine (Carries.reads_onDevice hfind (by decide)).bind fun target d₃ htarget => ?_
      rw [hold] at htarget
      cases htarget
      refine (Carries.reads_onDevice (n := 0) (.unwrap _) (by decide)).bind fun target d₃ htarget => ?_
      cases htarget
      refine (Carries.reads_onDevice ((fs.inode id).readDiskInode_nests (n := 0) fun _ => .assert)
        (by decide)).bind fun _ d₃ hfile => ?_
      obtain rfl := ((fs.inode id).readDiskInode_nests (n := 0) fun _ => .assert).exec_same
        (by decide) hfile
      refine (Carries.reads_onDevice hfind (by decide)).bind fun target d₄ htarget => ?_
      rw [hold] at htarget
      cases htarget
      refine (Carries.reads_onDevice (n := 0) (.unwrap _) (by decide)).bind fun target d₄ htarget => ?_
      cases htarget
      -- the two modifications of the block
      rw [← hblock]
      refine (Carries.modifyDiskInode_onDevice (n := 0) _ (fun _ => .ret _) (by decide)).bind
        fun _ d₅ _ => ?_
      refine Carries.bind (Carries.assert.bind fun _ _ _ => .pure _) fun dirent d₆ _ => ?_
      rw [hblock]
      refine (Carries.modifyDiskInode_onDevice (n := 2) _ (fun di =>
        .bind (Inode.appendDirent_nests fs (n := 0) (.ret dirent) di) fun _ => .ret _)
        (by decide)).bind fun _ d₇ _ => ?_
      exact .pure _

end Link

/-- The packer's image with one file `a`, which then gets the name `b` too. -/
theorem packer_link : ∃ (d d₁ d₂ : Disk) (r : Option Inode),
    (EasyFileSystem.create 32768 1).exec (fun _ => Bytes.zero blockSz) =
      some ((Geometry.compute 32768 1).toEfs, d) ∧
    ((Call.create "a").run (Geometry.compute 32768 1).toEfs).exec d = some (.inode r, d₁) ∧
    ((Call.linkat "a" "b").run (Geometry.compute 32768 1).toEfs).exec d₁ = some (.status 0, d₂) ∧
    FoundAt (Geometry.compute 32768 1).toEfs "a" d₁
      (some ((Geometry.compute 32768 1).toEfs.inode 1)) ∧ d₂ 2 ≠ d₁ 2 := by
  have hu : (Geometry.compute 32768 1).NoUnderflow := by decide
  have hl := Geometry.compute_laid hu
  obtain ⟨fs, d, he, _⟩ := create_spec (fun _ => Bytes.zero blockSz) hu (by decide)
  obtain ⟨rfl, hn⟩ := Named.init hu (by decide) he
  have hadm := packer_admissible hn.state "a"
  have hid := hadm.1
  rw [hn.state.inodes_eq hl] at hid
  obtain ⟨hmax, hspace⟩ := hn.state.roomForRecord hadm.2
  obtain ⟨r, d₁, hcreate, _, bs, hinv⟩ := hn.state.inv.create_new hl hn.state.dir
    (hn.scan_eq "a") (by decide) hid hmax hspace
  have hst := hn.state.addFile hinv
  have hn₁ := hn.extend (by decide) rfl hst
  have hroot := (hinv.rep 0 (Nat.succ_pos _)).file
  have hlen := hroot.size.symm.trans hst.sizeOf_root
  have hused : (Geometry.compute 32768 1).used d₁ = 1 := by
    rw [hinv.owned.used]
    show (bs ++ []).length = 1
    rw [List.append_nil, show bs = _ from hroot.blocks.symm, DiskInode.blockList_length, hlen]
    rfl
  obtain ⟨r', d₂, hlink, rfl, bs', hinv₂⟩ := hinv.linkat_new hl hst.dir (j := 0)
    (hn₁.scan_eq "b") (hn₁.scan_eq "a") (by decide) (by decide) (by decide)
    (by rw [hused]; decide)
  refine ⟨d, d₁, d₂, r, he, ?_, ?_, hn₁.find hl "a", ?_⟩
  · rw [Call.run, exec_bind, hcreate]
    rfl
  · rw [Call.run, exec_bind, hlink]
    rfl
  · intro heq
    have hone := (hinv.rep 1 (Nat.succ_lt_succ (Nat.succ_pos _))).nlink
    have htwo := (hinv₂.rep 1 (Nat.succ_lt_succ (Nat.succ_pos _))).nlink
    have hslot : (Geometry.compute 32768 1).slot d₂ 1 = (Geometry.compute 32768 1).slot d₁ 1 :=
      congrArg (fun b => DiskInode.decode b (1 % 3 * 136)) heq
    rw [hslot, hone] at htwo
    exact absurd (show (1 : UInt32) = 2 from htwo) (by decide)

/-- On the packer's image with one file. -/
theorem durable_of_harmless_packer : ∃ dev fs s s', Mounted dev fs s ∧
    FsStep fs (fun d c => c.Harmless fs d) s s' ∧ Durable s' := by
  obtain ⟨d, d₁, d₂, r, he, hcreate, _⟩ := packer_link
  obtain ⟨s, hs, hrest, hset⟩ := (EasyFileSystem.create_settled 32768 1 _).runs (.empty _) trivial he
  obtain ⟨s₁, hs₁, _⟩ := (FsCall.run_settled (Geometry.compute 32768 1).toEfs
    (c := .call (.create "a")) trivial).runs hrest hset hcreate
  have hm : Mounted _ (Geometry.compute 32768 1).toEfs s := .create 32768 1 hs
  have hstep : FsStep (Geometry.compute 32768 1).toEfs
      (fun d c => c.Harmless (Geometry.compute 32768 1).toEfs d) s s₁ :=
    .call (.call (.create "a")) trivial hs₁
  exact ⟨_, _, s, s₁, hm, hstep, durable_of_harmless _ _ _ _ hm (.single hstep)⟩

/-- `linkat("a", "b")` right after `create("a")`. -/
theorem not_durable_packer : ¬ ∀ (dev : Disk) (fs : EasyFileSystem) (s s' : CacheState Unit),
    Mounted dev fs s → Relation.ReflTransGen (FsStep fs fun _ _ => True) s s' → Durable s' := by
  intro h
  obtain ⟨d, d₁, d₂, r, he, hcreate, hlink, hfound, hne⟩ := packer_link
  obtain ⟨s, hs, hrest, hset⟩ := (EasyFileSystem.create_settled 32768 1 _).runs (.empty _) trivial he
  obtain ⟨s₁, hs₁, hrest₁, hset₁⟩ := (FsCall.run_settled (Geometry.compute 32768 1).toEfs
    (c := .call (.create "a")) trivial).runs hrest hset hcreate
  have hblock : ((Geometry.compute 32768 1).toEfs.inode 1).blockId =
      (Geometry.compute 32768 1).toEfs.rootInode.blockId := by decide
  have hroot : (Geometry.compute 32768 1).toEfs.rootInode.blockId = 2 := by decide
  have hdev := linkat_onDevice (Geometry.compute 32768 1).toEfs "b" hfound hblock
  rw [hroot] at hdev
  obtain ⟨s₂, hs₂, hrest₂, hset₂⟩ := (hdev.bind fun r d' _ => Carries.pure (Answer.status r)).runs
    hrest₁ (congrFun hset₁ 2) hlink
  have hdur := h _ _ s s₂ (.create 32768 1 hs)
    (.tail (.single (.call (.call (.create "a")) trivial hs₁))
      (.call (.call (.linkat "a" "b")) trivial hs₂))
  have hcur := hdur.device 2
  rw [hrest₂.current_eq] at hcur
  exact hne (hcur.symm.trans hset₂)

end RCore.EasyFs
