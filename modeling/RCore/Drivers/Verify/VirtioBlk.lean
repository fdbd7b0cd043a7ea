import RCore.Drivers.VirtioBlk
import RCore.Mm.Verify.Frames

/-!
# The owners of DMA frames

`virtio_dma_dealloc` gives frames back and leaves their trackers in `QUEUE_FRAMES`. So frames have one owner up to the first
call of it for a page, and never again.
-/

namespace RCore.Drivers.DmaState

open RCore Mm

/-- No frame is held by a tracker and given back, and no two trackers hold the same frame. -/
structure OwnedOnce (s : DmaState) : Prop where
  distinct : (s.live ++ s.queueFrames).Nodup
  disjoint : ∀ f ∈ s.live ++ s.queueFrames, f ∉ s.phys.frames.recycled

/-- What holds up to the first call of `virtio_dma_dealloc` for a page. -/
structure Inv (l : Nat) (s : DmaState) : Prop where
  held : Held l s.phys.frames (s.live ++ s.queueFrames)
  /-- The driver's ranges are in `QUEUE_FRAMES`. -/
  queued : ∀ pa pages, (pa, pages) ∈ s.obtained → ∀ i < pages, pa / 4096 + i ∈ s.queueFrames

variable {l r : Nat} {s s' : DmaState}

theorem Inv.ownedOnce (h : Inv l s) : s.OwnedOnce := ⟨h.held.nodup, fun _ hf => h.held.ledger.not_mem_free hf⟩

/-- The loop adds the frames from its base on to `QUEUE_FRAMES`. -/
theorem dmaAllocLoop_wlp (n : Nat) : ∀ (i base : Nat) (s : DmaState), Held l s.phys.frames (s.live ++ s.queueFrames) →
    (∀ j < i, base + j ∈ s.queueFrames) → (dmaAllocLoop n i base).wlp (fun base' s' =>
      Held l s'.phys.frames (s'.live ++ s'.queueFrames) ∧ s'.live = s.live ∧ s'.obtained = s.obtained ∧
        s.queueFrames ⊆ s'.queueFrames ∧ ∀ j < i + n, base' + j ∈ s'.queueFrames) s := by
  induction n with
  | zero =>
    intro i base s hheld hbase
    rw [dmaAllocLoop, Comp.wlp_pure]
    exact ⟨hheld, rfl, rfl, List.Subset.refl _, hbase⟩
  | succ n ih =>
    intro i base s hheld hbase
    rw [dmaAllocLoop, Comp.wlp_bind]
    intro frame s₁ hrun
    rw [onPhys, Comp.run_zoom] at hrun
    rcases frameAlloc_cases hheld with ⟨-, hnone⟩ | ⟨f, p, hsome, ht⟩
    · rw [hnone] at hrun
      cases hrun
      rw [Comp.unwrap, Comp.wlp_bind, Comp.wlp_panic]
      trivial
    · rw [hsome] at hrun
      cases hrun
      rw [Comp.wlp_bind, Comp.unwrap, Comp.wlp_pure, Comp.wlp_bind, Comp.wlp_assert]
      intro hf
      rw [Comp.wlp_bind, Comp.wlp_modify]
      have hperm : (f :: (s.live ++ s.queueFrames)).Perm (s.live ++ (s.queueFrames ++ [f])) := by
        rw [← List.append_assoc]
        exact (List.perm_append_singleton f _).symm
      have hbase' : ∀ j < i + 1, (if i = 0 then f else base) + j ∈ s.queueFrames ++ [f] := by
        intro j hj
        rcases Nat.lt_succ_iff_lt_or_eq.mp hj with hlt | rfl
        · rw [if_neg (by omega)]
          exact List.mem_append_left _ (hbase j hlt)
        · rw [← hf]
          exact List.mem_append_right _ (List.mem_singleton_self f)
      refine (ih (i + 1) _ { s with phys := p, queueFrames := s.queueFrames ++ [f] } (ht.held.perm hperm) hbase').mono ?_
      rintro base' s' ⟨hheld', hlive, hobtained, hsub, hall⟩
      refine ⟨hheld', hlive, hobtained, fun x hx => hsub (List.mem_append_left _ hx), fun j hj => hall j (by omega)⟩

/-- The loop gives its frames back and leaves `QUEUE_FRAMES` alone. -/
theorem dmaDeallocLoop_wlp (n : Nat) : ∀ (ppn : Nat) (s : DmaState), (dmaDeallocLoop n ppn).wlp (fun _ s' =>
    s'.live = s.live ∧ s'.queueFrames = s.queueFrames ∧ s.phys.frames.recycled ⊆ s'.phys.frames.recycled ∧
      ∀ j < n, ppn + j ∈ s'.phys.frames.recycled) s := by
  induction n with
  | zero =>
    intro ppn s
    rw [dmaDeallocLoop, Comp.wlp_pure]
    exact ⟨rfl, rfl, List.Subset.refl _, fun j hj => absurd hj (Nat.not_lt_zero j)⟩
  | succ n ih =>
    intro ppn s
    rw [dmaDeallocLoop, Comp.wlp_bind]
    intro u s₁ hrun
    rw [onPhys, Comp.run_zoom, frameDealloc, Comp.run_bind, Comp.run_get, Option.bind_some, StackFrameAllocator.dealloc] at hrun
    split at hrun
    · cases hrun
    · cases hrun
      refine (ih (ppn + 1) _).mono ?_
      rintro _ s' ⟨hlive, hqueue, hsub, hall⟩
      refine ⟨hlive, hqueue, fun x hx => hsub (List.mem_cons_of_mem ppn hx), fun j hj => ?_⟩
      cases j with
      | zero => exact hsub List.mem_cons_self
      | succ j =>
        have hj' := hall j (Nat.lt_of_succ_lt_succ hj)
        rwa [Nat.add_assoc, Nat.add_comm 1 j] at hj'

/-! ## Steps -/

theorem alloc_inv (h : Inv l s) (hrun : (step .alloc).run s = some ((), s')) : Inv l s' := by
  rw [step, Comp.run_bind, onPhys, Comp.run_zoom] at hrun
  rcases frameAlloc_cases h.held with ⟨-, hnone⟩ | ⟨f, p, hsome, ht⟩
  · rw [hnone] at hrun
    cases hrun
    exact ⟨h.held, h.queued⟩
  · rw [hsome] at hrun
    cases hrun
    exact ⟨ht.held, h.queued⟩

theorem drop_inv (h : Inv l s) {i : Nat} (hrun : (step (.drop i)).run s = some ((), s')) : Inv l s' := by
  rw [step, Comp.run_bind, Comp.run_get, Option.bind_some] at hrun
  by_cases hi : i < s.live.length
  · have hperm : (s.live ++ s.queueFrames).Perm (s.live[i] :: (s.live.eraseIdx i ++ s.queueFrames)) := by
      rw [← List.cons_append]
      exact (List.getElem_cons_eraseIdx_perm hi).symm.append_right _
    obtain ⟨p, hdealloc, hheld, -⟩ := frameDealloc_run (h.held.perm hperm)
    rw [List.getElem?_eq_getElem hi] at hrun
    simp only [onPhys, Comp.run_bind, Comp.run_zoom, hdealloc] at hrun
    cases hrun
    exact ⟨hheld, h.queued⟩
  · rw [List.getElem?_eq_none (Nat.le_of_not_lt hi)] at hrun
    cases hrun
    exact h

theorem dmaAlloc_inv (h : Inv l s) {pages : Nat} (hrun : (step (.dmaAlloc pages)).run s = some ((), s')) : Inv l s' := by
  have hwlp : (step (.dmaAlloc pages)).wlp (fun _ s' => Inv l s') s := by
    rw [step, virtioDmaAlloc, Comp.wlp_bind, Comp.wlp_bind]
    refine (dmaAllocLoop_wlp pages 0 0 s h.held fun j hj => absurd hj (Nat.not_lt_zero j)).mono ?_
    rintro base s₁ ⟨hheld, -, hobtained, hsub, hall⟩
    rw [Comp.wlp_pure, Comp.wlp_modify]
    refine ⟨hheld, fun pa n hmem i hi => ?_⟩
    rcases List.mem_cons.mp hmem with heq | hold
    · cases heq
      rw [Nat.mul_div_cancel _ (by decide)]
      exact hall i (by omega)
    · exact hsub (h.queued pa n (hobtained ▸ hold) i hi)
  exact hwlp () s' hrun

/-- Without a page, `virtio_dma_dealloc` does nothing. -/
theorem dmaDealloc_zero {pa : Nat} (hrun : (step (.dmaDealloc pa 0)).run s = some ((), s')) : s' = s := by
  have hwlp : (step (.dmaDealloc pa 0)).wlp (fun _ s' => s' = s) s := by
    rw [step, virtioDmaDealloc, Comp.wlp_bind, Comp.wlp_bind, Comp.wlp_assert]
    intro _
    rw [Comp.wlp_bind, dmaDeallocLoop, Comp.wlp_pure, Comp.wlp_pure, Comp.wlp_pure]
  exact hwlp () s' hrun

/-- With one, its first frame is given back and held by a tracker. -/
theorem dmaDealloc_owned_twice (h : Inv l s) {pa pages : Nat} (ha : s.Allowed (.dmaDealloc pa pages)) (hpos : 0 < pages)
    (hrun : (step (.dmaDealloc pa pages)).run s = some ((), s')) : ¬s'.OwnedOnce := by
  have hwlp : (step (.dmaDealloc pa pages)).wlp (fun _ s' => s'.queueFrames = s.queueFrames ∧
      pa / 4096 + 0 ∈ s'.phys.frames.recycled) s := by
    rw [step, virtioDmaDealloc, Comp.wlp_bind, Comp.wlp_bind, Comp.wlp_assert]
    intro _
    rw [Comp.wlp_bind]
    refine (dmaDeallocLoop_wlp pages (pa / 4096) s).mono ?_
    rintro _ s₁ ⟨-, hqueue, -, hall⟩
    rw [Comp.wlp_pure, Comp.wlp_pure]
    exact ⟨hqueue, hall 0 hpos⟩
  obtain ⟨hqueue, hfreed⟩ := hwlp () s' hrun
  intro howned
  refine howned.disjoint _ (List.mem_append_right _ ?_) hfreed
  rw [hqueue]
  exact h.queued pa pages ha 0 hpos

/-! ## Runs -/

theorem Runs.head {ops : List DmaOp} {states : List DmaState} (hrun : Runs s ops states) : s ∈ states := by
  cases hrun with
  | nil => exact List.mem_singleton_self s
  | cons => exact List.mem_cons_self

theorem Runs.ownedOnce_iff {ops : List DmaOp} {states : List DmaState} (hrun : Runs s ops states) (h : Inv l s) :
    (∀ t ∈ states, t.OwnedOnce) ↔ ∀ pa pages, DmaOp.dmaDealloc pa pages ∈ ops → pages = 0 := by
  induction hrun with
  | nil s =>
    refine ⟨fun _ pa pages hmem => absurd hmem List.not_mem_nil, fun _ t ht => ?_⟩
    rw [List.mem_singleton.mp ht]
    exact h.ownedOnce
  | @cons s s' op ops states ha hstep hrest ih =>
    -- a step that is no such call keeps the invariant, and the rest decides
    have hkeeps (hop : ∀ pa pages, op = .dmaDealloc pa pages → pages = 0) : Inv l s' := by
      cases op with
      | alloc => exact alloc_inv h hstep
      | drop i => exact drop_inv h hstep
      | dmaAlloc pages => exact dmaAlloc_inv h hstep
      | dmaDealloc pa pages =>
        obtain rfl := hop pa pages rfl
        rw [dmaDealloc_zero hstep]
        exact h
    constructor
    · intro howned
      have hop : ∀ pa pages, op = .dmaDealloc pa pages → pages = 0 := by
        rintro pa pages rfl
        by_contra hpos
        refine dmaDealloc_owned_twice h ha (Nat.pos_of_ne_zero hpos) hstep (howned s' ?_)
        exact List.mem_cons_of_mem s hrest.head
      have hnext := (ih (hkeeps hop)).mp fun t ht => howned t (List.mem_cons_of_mem s ht)
      intro pa pages hmem
      rcases List.mem_cons.mp hmem with heq | hlater
      · exact hop pa pages heq.symm
      · exact hnext pa pages hlater
    · intro hops t ht
      rcases List.mem_cons.mp ht with rfl | hlater
      · exact h.ownedOnce
      · have hop : ∀ pa pages, op = .dmaDealloc pa pages → pages = 0 := fun pa pages heq =>
          hops pa pages (heq ▸ List.mem_cons_self)
        exact (ih (hkeeps hop)).mpr (fun pa pages hmem => hops pa pages (List.mem_cons_of_mem op hmem)) t hlater

/-- **When frames are owned once.** In a run of `frame_alloc`, drops, `virtio_dma_alloc` and `virtio_dma_dealloc`, every frame
has one owner at most in every state, exactly if no call of `virtio_dma_dealloc` is for a page. -/
theorem owned_once_iff {l r : Nat} (hle : l ≤ r) (hr : r ≤ 2 ^ 44) (mem : Mem) {ops : List DmaOp} {states : List DmaState}
    (hrun : Runs (start l r mem) ops states) :
    (∀ s ∈ states, s.OwnedOnce) ↔ ∀ pa pages, DmaOp.dmaDealloc pa pages ∈ ops → pages = 0 := by
  refine hrun.ownedOnce_iff (l := l) ⟨⟨⟨List.nodup_nil, fun _ hx => ?_⟩, Nat.le_refl l, hle, hr⟩, fun _ _ hmem => ?_⟩
  · exact absurd hx List.not_mem_nil
  · exact absurd hmem List.not_mem_nil

/-- Two pages for the driver, and one for someone else. -/
theorem owned_once_queue : ∃ states, Runs (start 3 9 fun _ => 0) [.dmaAlloc 2, .alloc] states ∧
    states.length = 3 ∧ ∀ s ∈ states, s.OwnedOnce := by
  have hrun := @Runs.cons (start 3 9 fun _ => 0) _ (.dmaAlloc 2) _ _ trivial rfl
    (@Runs.cons _ _ .alloc _ _ trivial rfl (.nil _))
  refine ⟨_, hrun, rfl, (owned_once_iff (by decide) (by decide) _ hrun).mpr fun pa pages hmem => ?_⟩
  rcases List.mem_cons.mp hmem with heq | hmem
  · cases heq
  · cases List.mem_singleton.mp hmem

/-- A page is given back: the next `frame_alloc` hands out a frame that a tracker in `QUEUE_FRAMES` holds. -/
theorem freed_behind_queue : ∃ states, Runs (start 3 9 fun _ => 0) [.dmaAlloc 1, .dmaDealloc (3 * 4096) 1, .alloc] states ∧
    (∃ s ∈ states, 3 ∈ s.queueFrames ∧ 3 ∈ s.phys.frames.recycled) ∧ ∃ s ∈ states, 3 ∈ s.queueFrames ∧ 3 ∈ s.live := by
  have hrun := @Runs.cons (start 3 9 fun _ => 0) _ (.dmaAlloc 1) _ _ trivial rfl
    (@Runs.cons _ _ (.dmaDealloc (3 * 4096) 1) _ _ List.mem_cons_self rfl (@Runs.cons _ _ .alloc _ _ trivial rfl (.nil _)))
  refine ⟨_, hrun, ⟨_, List.mem_cons_of_mem _ (List.mem_cons_of_mem _ List.mem_cons_self), ?_, ?_⟩,
    ⟨_, List.mem_cons_of_mem _ (List.mem_cons_of_mem _ (List.mem_cons_of_mem _ List.mem_cons_self)), ?_, ?_⟩⟩
  · exact List.mem_cons_self
  · exact List.mem_cons_self
  · exact List.mem_cons_self
  · exact List.mem_cons_self

end RCore.Drivers.DmaState
