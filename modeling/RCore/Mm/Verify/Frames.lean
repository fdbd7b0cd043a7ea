import RCore.Lib.Ledger
import RCore.Mm.FrameAllocator

/-!
# The frame allocator and its ledger

`Held lo a held` is the invariant of the allocator: the frames from `lo` on that are not free are
exactly those listed in `held`. Every function of the memory manager is verified against the list of
the frames it owns and the list of all others, and must leave the contents of the others alone.
-/

namespace RCore.Mm

/-- The allocator manages the frames from `lo` on and `held` lists those that are out. -/
structure Held (lo : Nat) (a : StackFrameAllocator) (held : List Nat) : Prop where
  ledger : Ledger lo a.current a.recycled held
  lo_le : lo ≤ a.current
  le_end : a.current ≤ a.end_
  end_le : a.end_ ≤ 2 ^ 44

namespace Held

variable {lo f : Nat} {a : StackFrameAllocator} {held held' : List Nat}

theorem perm (h : Held lo a held) (hp : held.Perm held') : Held lo a held' :=
  ⟨h.ledger.perm hp, h.lo_le, h.le_end, h.end_le⟩

theorem lt_of_mem (h : Held lo a held) (hf : f ∈ held) : f < 2 ^ 44 := by
  have hlt := h.ledger.lt_of_mem hf
  have hle := h.le_end
  have hend := h.end_le
  omega

theorem le_of_mem (h : Held lo a held) (hf : f ∈ held) : lo ≤ f := h.ledger.le_of_mem hf

theorem nodup (h : Held lo a held) : held.Nodup := h.ledger.nodup_held

end Held

/-! ## Contents of frames -/

/-- The frames in `fs` have the same bytes in both memories. -/
def SameOn (fs : List Nat) (m m' : Mem) : Prop := ∀ f ∈ fs, ∀ x, x / 4096 = f → m' x = m x

namespace SameOn

variable {fs gs : List Nat} {m m' m'' : Mem}

theorem refl (fs : List Nat) (m : Mem) : SameOn fs m m := fun _ _ _ _ => rfl

theorem trans (h : SameOn fs m m') (h' : SameOn fs m' m'') : SameOn fs m m'' := by
  intro f hf x hx
  rw [h' f hf x hx, h f hf x hx]

theorem mono (h : SameOn fs m m') (hs : gs ⊆ fs) : SameOn gs m m' :=
  fun f hf => h f (hs hf)

theorem single {f : Nat} (h : SameOn fs m m') (hf : f ∈ fs) : SameOn [f] m m' := by
  apply h.mono
  intro g hg
  rw [List.mem_singleton] at hg
  rw [hg]
  exact hf

theorem zeroFrame {f : Nat} (hf : f ∉ fs) (m : Mem) : SameOn fs m (zeroFrame m f) := by
  intro g hg x hx
  unfold Mm.zeroFrame
  rw [if_neg]
  intro h
  subst hx
  exact hf (h ▸ hg)

theorem copyFrame {f : Nat} (hf : f ∉ fs) (m : Mem) (src : Nat) :
    SameOn fs m (copyFrame m f src) := by
  intro g hg x hx
  unfold Mm.copyFrame
  rw [if_neg]
  intro h
  subst hx
  exact hf (h ▸ hg)

/-- A store that stays inside a frame changes that frame only. -/
theorem write {f a : Nat} {bs : List UInt8} (hf : f ∉ fs) (ha : a / 4096 = f)
    (hb : a % 4096 + bs.length ≤ 4096) (m : Mem) : SameOn fs m (m.write a bs) := by
  intro g hg x hx
  apply Mem.write_of_not_mem
  by_contra hc
  have hxf : x / 4096 = f := by omega
  exact hf (by rw [← hxf, hx]; exact hg)

theorem setWord {f a w v : Nat} (hf : f ∉ fs) (ha : a / 4096 = f) (hb : a % 4096 + w ≤ 4096)
    (m : Mem) : SameOn fs m (m.setWord w a v) :=
  write hf ha (by rw [leEncode_length]; exact hb) m

end SameOn

/-! ## Allocation -/

/-- The frame `f` was taken from the allocator between `s` and `s'`. -/
structure Taken (lo : Nat) (held : List Nat) (s : Phys) (f : Nat) (s' : Phys) : Prop where
  held : Held lo s'.frames (f :: held)
  mem : s'.mem = zeroFrame s.mem f
  free : s'.frames.free + 1 = s.frames.free
  starved : s'.starved = s.starved

namespace Taken

variable {lo f : Nat} {held : List Nat} {s s' : Phys}

theorem not_mem (h : Taken lo held s f s') : f ∉ held :=
  (List.nodup_cons.mp h.held.nodup).1

theorem same (h : Taken lo held s f s') : SameOn held s.mem s'.mem := by
  rw [h.mem]
  exact SameOn.zeroFrame h.not_mem s.mem

end Taken

theorem frameAlloc_of_free_pos {lo : Nat} {held : List Nat} {s : Phys} (h : Held lo s.frames held)
    (hpos : 0 < s.frames.free) :
    ∃ f s', frameAlloc.run s = some (some f, s') ∧ Taken lo held s f s' := by
  obtain ⟨m, ⟨cur, stop, recycled⟩, starved⟩ := s
  cases recycled with
  | cons f rest =>
    refine ⟨f, _, rfl, ?_, rfl, ?_, rfl⟩
    · exact ⟨h.ledger.reuse, h.lo_le, h.le_end, h.end_le⟩
    · simp only [StackFrameAllocator.free, List.length_cons]
      omega
  | nil =>
    simp only [StackFrameAllocator.free, List.length_nil] at hpos
    have hlt : cur ≠ stop := by omega
    have hle := h.le_end
    refine ⟨cur, ⟨zeroFrame m cur, ⟨cur + 1, stop, []⟩, starved⟩, ?_, ?_, rfl, ?_, rfl⟩
    · simp [frameAlloc, StackFrameAllocator.alloc, hlt]
    · refine ⟨h.ledger.bump h.lo_le, Nat.le_succ_of_le h.lo_le, ?_, h.end_le⟩
      simp only at hle ⊢
      omega
    · simp only [StackFrameAllocator.free, List.length_nil]
      omega

theorem frameAlloc_of_free_eq_zero {lo : Nat} {held : List Nat} {s : Phys}
    (h : Held lo s.frames held) (hzero : s.frames.free = 0) :
    frameAlloc.run s = some (none, { s with starved := true }) := by
  obtain ⟨m, ⟨cur, stop, recycled⟩, starved⟩ := s
  have hle := h.le_end
  cases recycled with
  | cons f rest =>
    simp [StackFrameAllocator.free] at hzero
  | nil =>
    simp only [StackFrameAllocator.free, List.length_nil] at hzero hle
    have heq : cur = stop := by omega
    simp [frameAlloc, StackFrameAllocator.alloc, heq]

/-- `unwrap` of an allocation: it panics exactly when no frame is free. -/
theorem frameAlloc_cases {lo : Nat} {held : List Nat} {s : Phys} (h : Held lo s.frames held) :
    (s.frames.free = 0 ∧ frameAlloc.run s = some (none, { s with starved := true })) ∨
      ∃ f s', frameAlloc.run s = some (some f, s') ∧ Taken lo held s f s' := by
  rcases Nat.eq_zero_or_pos s.frames.free with hz | hp
  · exact Or.inl ⟨hz, frameAlloc_of_free_eq_zero h hz⟩
  · exact Or.inr (frameAlloc_of_free_pos h hp)

/-! ## Release -/

theorem frameDealloc_run {lo f : Nat} {held : List Nat} {s : Phys}
    (h : Held lo s.frames (f :: held)) :
    ∃ s', (frameDealloc f).run s = some ((), s') ∧ Held lo s'.frames held ∧ s'.mem = s.mem ∧
      s'.frames.free = s.frames.free + 1 ∧ s'.starved = s.starved := by
  obtain ⟨m, ⟨cur, stop, recycled⟩, starved⟩ := s
  have hlt : f < cur := h.ledger.lt_of_mem (List.mem_cons_self)
  have hnm : f ∉ recycled := h.ledger.not_mem_free (List.mem_cons_self)
  refine ⟨⟨m, ⟨cur, stop, f :: recycled⟩, starved⟩, ?_, ?_, rfl, ?_, rfl⟩
  · have hc : ¬ (f ≥ cur ∨ f ∈ recycled) := by
      intro hc
      rcases hc with hc | hc
      · omega
      · exact hnm hc
    simp [frameDealloc, StackFrameAllocator.dealloc, hc, Comp.unwrap]
  · exact ⟨h.ledger.giveBack, h.lo_le, h.le_end, h.end_le⟩
  · simp only [StackFrameAllocator.free, List.length_cons]
    omega

/-- Dropping frames that are held gives them back and changes nothing else. -/
theorem dropFrames_run {lo : Nat} {fs held : List Nat} {s : Phys}
    (h : Held lo s.frames (fs ++ held)) :
    ∃ s', (dropFrames fs).run s = some ((), s') ∧ Held lo s'.frames held ∧ s'.mem = s.mem ∧
      s'.frames.free = s.frames.free + fs.length ∧ s'.starved = s.starved := by
  induction fs generalizing s with
  | nil => exact ⟨s, rfl, h, rfl, rfl, rfl⟩
  | cons f fs ih =>
    obtain ⟨s₁, hrun₁, hheld₁, hmem₁, hfree₁, hst₁⟩ := frameDealloc_run h
    obtain ⟨s₂, hrun₂, hheld₂, hmem₂, hfree₂, hst₂⟩ := ih hheld₁
    refine ⟨s₂, ?_, hheld₂, hmem₂.trans hmem₁, ?_, hst₂.trans hst₁⟩
    · simp [dropFrames, hrun₁, hrun₂]
    · rw [hfree₂, hfree₁, List.length_cons]
      omega

end RCore.Mm
