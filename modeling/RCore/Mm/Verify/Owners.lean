import Mathlib.Data.List.Perm.Subperm
import RCore.Mm.Verify.Frames

/-!
# The owners of frames

Anyone may take frames, write to memory and drop the trackers that there are, in any order. What the allocator has handed out
and what has been given back stay apart, and together they are the frames up to `current`.
-/

namespace RCore.Mm

/-- Physical memory, and the frames of the `FrameTracker`s that there are. -/
structure Owners where
  phys : Phys
  live : List Nat

/-- What an owner can do. -/
inductive OwnerOp where
  | alloc
  /-- Drop the tracker at a place of `live`. -/
  | drop (i : Nat)
  /-- Write; `mem` is what memory holds then. -/
  | store (mem : Mem)

namespace Owners

/-- A new allocator after `init`, and no trackers. -/
def start (l r : Nat) (mem : Mem) : Owners := ⟨⟨mem, StackFrameAllocator.new.init l r, false⟩, []⟩

/-- A function of the memory manager. -/
def onPhys {α : Type} (x : Comp Phys α) : Comp Owners α := Comp.zoom phys (fun s phys => { s with phys }) x

/-- One step, and the frame that it hands out. -/
def step : OwnerOp → Comp Owners (Option Nat)
  | .alloc => do
    let frame ← onPhys frameAlloc
    Comp.modify fun s => { s with live := frame.toList ++ s.live }
    return frame
  | .drop i => do
    let s ← Comp.get
    match s.live[i]? with
    | some frame => do
      onPhys (frameDealloc frame)
      Comp.modify fun s => { s with live := s.live.eraseIdx i }
      return none
    | none => return none
  | .store mem => do
    Comp.modify fun s => { s with phys := { s.phys with mem } }
    return none

/-- The states after any number of steps. -/
inductive Reached (l r : Nat) : Owners → Prop
  | start (mem : Mem) : Reached l r (start l r mem)
  | step {s s' : Owners} {frame : Option Nat} (op : OwnerOp) (hs : Reached l r s)
      (h : (step op).run s = some (frame, s')) : Reached l r s'

/-- Every frame has one owner at most. -/
structure OneOwner (l r : Nat) (s : Owners) : Prop where
  distinct : s.live.Nodup
  inRange : ∀ f ∈ s.live, l ≤ f ∧ f < r
  recycled : s.phys.frames.recycled.Nodup
  disjoint : ∀ f ∈ s.phys.frames.recycled, f ∉ s.live
  covered : ∀ f, (f ∈ s.live ∨ f ∈ s.phys.frames.recycled) ↔ l ≤ f ∧ f < s.phys.frames.current
  alloc_none : (∃ s', (step .alloc).run s = some (none, s')) ↔ s.live.length = r - l
  no_panic : ∀ op, ∃ frame s', (step op).run s = some (frame, s')
  zeroed : ∀ f s', (step .alloc).run s = some (some f, s') → ∀ x, x / 4096 = f → s'.phys.mem x = 0

/-- What holds after every step. -/
structure Inv (l r : Nat) (s : Owners) : Prop where
  held : Held l s.phys.frames s.live
  end_eq : s.phys.frames.end_ = r
  count : s.live.length + s.phys.frames.free = r - l

section Steps

variable {l r : Nat} {s s' : Owners} {frame : Option Nat}

theorem frameAlloc_end {p p' : Phys} {o : Option Nat} (h : frameAlloc.run p = some (o, p')) :
    p'.frames.end_ = p.frames.end_ := by
  obtain ⟨m, ⟨cur, stop, recycled⟩, starved⟩ := p
  cases recycled with
  | cons f rest =>
    cases h
    rfl
  | nil =>
    by_cases hend : cur = stop
    · simp only [frameAlloc, StackFrameAllocator.alloc, hend, if_true, Comp.run_bind, Comp.run_get, Option.bind_some] at h
      cases h
      rfl
    · simp only [frameAlloc, StackFrameAllocator.alloc, hend, if_false, Comp.run_bind, Comp.run_get, Option.bind_some] at h
      cases h
      rfl

theorem frameDealloc_end {p p' : Phys} {f : Nat} (h : (frameDealloc f).run p = some ((), p')) :
    p'.frames.end_ = p.frames.end_ := by
  simp only [frameDealloc, Comp.run_bind, Comp.run_get, Option.bind_some, StackFrameAllocator.dealloc] at h
  split at h
  · cases h
  · cases h
    rfl

/-- `frame_alloc` succeeds with a frame that is not held, or there is none left. -/
theorem alloc_cases (h : Inv l r s) :
    (s.live.length = r - l ∧ ∃ s', (step .alloc).run s = some (none, s') ∧ Inv l r s') ∨
      s.live.length < r - l ∧ ∃ f s', (step .alloc).run s = some (some f, s') ∧ Inv l r s' ∧
        s'.phys.mem = zeroFrame s.phys.mem f := by
  have hcount := h.count
  rcases frameAlloc_cases h.held with ⟨hzero, hrun⟩ | ⟨f, p, hrun, ht⟩
  · refine .inl ⟨by omega, { s with phys := { s.phys with starved := true } }, ?_, h.held, h.end_eq, hcount⟩
    rw [step, onPhys, Comp.run_bind, Comp.run_zoom, hrun]
    rfl
  · have hfree := ht.free
    refine .inr ⟨by omega, f, ⟨p, f :: s.live⟩, ?_, ⟨ht.held, (frameAlloc_end hrun).trans h.end_eq, ?_⟩, ht.mem⟩
    · rw [step, onPhys, Comp.run_bind, Comp.run_zoom, hrun]
      rfl
    · show (f :: s.live).length + p.frames.free = r - l
      rw [List.length_cons]
      omega

theorem drop_run (h : Inv l r s) (i : Nat) : ∃ s', (step (.drop i)).run s = some (none, s') ∧ Inv l r s' := by
  by_cases hi : i < s.live.length
  · have hperm : s.live.Perm (s.live[i] :: s.live.eraseIdx i) := (List.getElem_cons_eraseIdx_perm hi).symm
    obtain ⟨p, hrun, hheld, -, hfree, -⟩ := frameDealloc_run (h.held.perm hperm)
    have hcount := h.count
    refine ⟨⟨p, s.live.eraseIdx i⟩, ?_, hheld, (frameDealloc_end hrun).trans h.end_eq, ?_⟩
    · rw [step, Comp.run_bind, Comp.run_get, Option.bind_some, List.getElem?_eq_getElem hi]
      simp only [onPhys, Comp.run_bind, Comp.run_zoom, hrun]
      rfl
    · show (s.live.eraseIdx i).length + p.frames.free = r - l
      rw [List.length_eraseIdx_of_lt hi]
      omega
  · refine ⟨s, ?_, h⟩
    rw [step, Comp.run_bind, Comp.run_get, Option.bind_some, List.getElem?_eq_none (Nat.le_of_not_lt hi)]
    rfl

/-- No step panics, and what holds before it holds after it. -/
theorem step_run (h : Inv l r s) (op : OwnerOp) : ∃ frame s', (step op).run s = some (frame, s') ∧ Inv l r s' := by
  cases op with
  | alloc =>
    rcases alloc_cases h with ⟨-, s', hrun, h'⟩ | ⟨-, f, s', hrun, h', -⟩
    · exact ⟨none, s', hrun, h'⟩
    · exact ⟨some f, s', hrun, h'⟩
  | drop i =>
    obtain ⟨s', hrun, h'⟩ := drop_run h i
    exact ⟨none, s', hrun, h'⟩
  | store mem => exact ⟨none, _, rfl, h.held, h.end_eq, h.count⟩

/-- What has been handed out and what has been given back are the frames up to `current`. -/
theorem Inv.covered (h : Inv l r s) (f : Nat) :
    (f ∈ s.live ∨ f ∈ s.phys.frames.recycled) ↔ l ≤ f ∧ f < s.phys.frames.current := by
  have hle := h.held.lo_le
  have hend := h.held.le_end
  have hcount := h.count
  have heq := h.end_eq
  unfold StackFrameAllocator.free at hcount
  have hsub : s.live ++ s.phys.frames.recycled ⊆ List.range' l (s.phys.frames.current - l) := by
    intro x hx
    have hrange := h.held.ledger.range x hx
    rw [List.mem_range'_1]
    omega
  have hperm : (s.live ++ s.phys.frames.recycled).Perm (List.range' l (s.phys.frames.current - l)) := by
    refine (List.subperm_of_subset h.held.ledger.nodup hsub).perm_of_length_le ?_
    rw [List.length_range', List.length_append]
    omega
  rw [← List.mem_append, hperm.mem_iff, List.mem_range'_1]
  omega

theorem Inv.oneOwner (h : Inv l r s) : s.OneOwner l r := by
  refine ⟨h.held.nodup, fun f hf => ?_, ?_, fun f hf hlive => h.held.ledger.not_mem_free hlive hf, h.covered, ?_,
    fun op => ?_, fun f s' hrun x hx => ?_⟩
  · have hlt := h.held.ledger.lt_of_mem hf
    have hend := h.held.le_end
    rw [h.end_eq] at hend
    exact ⟨h.held.le_of_mem hf, Nat.lt_of_lt_of_le hlt hend⟩
  · exact (List.nodup_append.mp h.held.ledger.nodup).2.1
  · rcases alloc_cases h with ⟨hfull, hnone⟩ | ⟨hlt, f, s', hrun, -⟩
    · obtain ⟨s', hrun, -⟩ := hnone
      exact ⟨fun _ => hfull, fun _ => ⟨s', hrun⟩⟩
    · refine ⟨?_, fun hfull => by omega⟩
      rintro ⟨s'', hnone⟩
      rw [hrun] at hnone
      cases hnone
  · obtain ⟨frame, s', hrun, -⟩ := step_run h op
    exact ⟨frame, s', hrun⟩
  · rcases alloc_cases h with ⟨-, s'', hnone, -⟩ | ⟨-, f', s'', hsome, -, hmem⟩
    · rw [hnone] at hrun
      cases hrun
    · rw [hsome] at hrun
      cases hrun
      rw [hmem, zeroFrame, if_pos hx]

theorem Inv.start (hle : l ≤ r) (hr : r ≤ 2 ^ 44) (mem : Mem) : Inv l r (start l r mem) :=
  ⟨⟨⟨List.nodup_nil, fun _ hx => absurd hx List.not_mem_nil⟩, Nat.le_refl l, hle, hr⟩, rfl,
    (Nat.zero_add _).trans (Nat.zero_add _)⟩

theorem Reached.inv (hle : l ≤ r) (hr : r ≤ 2 ^ 44) (hs : Reached l r s) : Inv l r s := by
  induction hs with
  | start mem => exact .start hle hr mem
  | step op _ hrun ih =>
    obtain ⟨frame, s', hrun', h'⟩ := step_run ih op
    rw [hrun] at hrun'
    cases hrun'
    exact h'

end Steps

/-- **Every frame has one owner.** After any steps of its owners, an allocator of the frames from `l` to `r` has handed out no
frame twice, no frame is both handed out and given back, and a frame comes zeroed. -/
theorem frames_have_one_owner {l r : Nat} (hle : l ≤ r) (hr : r ≤ 2 ^ 44) {s : Owners} (hs : Reached l r s) : s.OneOwner l r :=
  (hs.inv hle hr).oneOwner

/-- A frame is taken, written to and given back. -/
theorem frames_have_one_owner_reused : ∃ s : Owners, s.OneOwner 3 5 ∧ s.live = [] ∧ s.phys.frames.recycled = [3] := by
  have h₁ := Reached.step .alloc (Reached.start (l := 3) (r := 5) fun _ => 1) rfl
  have h₂ := Reached.step (.store fun _ => 2) h₁ rfl
  have h₃ := Reached.step (.drop 0) h₂ rfl
  exact ⟨_, frames_have_one_owner (by decide) (by decide) h₃, rfl, rfl⟩

end Owners

end RCore.Mm
