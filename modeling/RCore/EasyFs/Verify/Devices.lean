import RCore.EasyFs.Verify.Transparent

/-!
# Two devices and one cache

The cache finds a block by its number alone, although every entry remembers its device. Two callers
on different devices stay apart as long as no request meets an entry with the same number of another
device (`devices_apart`): what a caller on the device `A` sees, and the contents it leaves on `A`, are
then as if it had been alone. A request that does meet such an entry is given the other device's
block (`not_devicesApart_two`).
-/

namespace RCore.EasyFs

namespace CacheState

variable {δ : Type} [DecidableEq δ]

/-! ## One caller of a store -/

/-- The store `b` is what a caller on the device `A` sees of the store `a`. -/
structure Restricts (A : δ) (a b : Store δ) : Prop where
  content : b.content A = a.content A
  handles : b.handles = a.handles.filter fun h => h.1.1 = A

theorem lookup_filter (A : δ) (name : Nat) (l : List ((δ × Nat) × Nat)) :
    (l.filter fun h => h.1.1 = A).lookup (A, name) = l.lookup (A, name) := by
  induction l with
  | nil => rfl
  | cons x l ih =>
    obtain ⟨n, b⟩ := x
    by_cases hn : n.1 = A
    · rw [List.filter_cons_of_pos (by simpa using hn), List.lookup_cons, List.lookup_cons, ih]
    · have hne : ((A, name) == n) = false := by
        apply beq_false_of_ne
        rintro rfl
        exact hn rfl
      rw [List.filter_cons_of_neg (by simpa using hn), List.lookup_cons, hne, ih]

theorem filter_eraseP (A : δ) (n : δ × Nat) (l : List ((δ × Nat) × Nat)) :
    ((l.eraseP fun h => h.1 = n).filter fun h => h.1.1 = A) =
      if n.1 = A then (l.filter fun h => h.1.1 = A).eraseP fun h => h.1 = n
      else l.filter fun h => h.1.1 = A := by
  induction l with
  | nil => simp
  | cons x l ih =>
    by_cases hx : x.1 = n
    · rw [List.eraseP_cons_of_pos (by simpa using hx)]
      by_cases hn : n.1 = A
      · rw [if_pos hn, List.filter_cons_of_pos (by simpa [hx] using hn),
          List.eraseP_cons_of_pos (by simpa using hx)]
      · rw [if_neg hn, List.filter_cons_of_neg (by simpa [hx] using hn)]
    · rw [List.eraseP_cons_of_neg (by simpa using hx)]
      by_cases hA : x.1.1 = A
      · rw [List.filter_cons_of_pos (by simpa using hA), List.filter_cons_of_pos (by simpa using hA),
          List.eraseP_cons_of_neg (by simpa using hx), ih]
        split <;> rfl
      · rw [List.filter_cons_of_neg (by simpa using hA), List.filter_cons_of_neg (by simpa using hA),
          ih]

section Restricts

variable {A d : δ} {a a' b : Store δ} {op : CacheOp} {r : List UInt8}

/-- An operation on `A` sees the same bytes and leaves the same contents of `A`. -/
theorem Restricts.step_same (h : Restricts A a b) (hrun : (Store.step A op).run a = some (r, a')) :
    ∃ b', (Store.step A op).run b = some (r, b') ∧ Restricts A a' b' := by
  have hlook : ∀ name, b.handles.lookup (A, name) = a.handles.lookup (A, name) := by
    intro name
    rw [h.handles, lookup_filter]
  cases op with
  | get name blockId =>
    cases hrun
    refine ⟨{ b with handles := ((A, name), blockId) :: b.handles }, rfl, h.content, ?_⟩
    simp only
    rw [List.filter_cons_of_pos (by simp), h.handles]
  | read name offset size =>
    rw [Store.run_read, Option.bind_eq_some_iff] at hrun
    obtain ⟨x, hl, hrun⟩ := hrun
    split at hrun
    · next hfit =>
      cases hrun
      refine ⟨b, ?_, h⟩
      rw [Store.run_read, hlook, hl, Option.bind_some, if_pos hfit, h.content]
    · cases hrun
  | modify name offset size f =>
    rw [Store.run_modify, Option.bind_eq_some_iff] at hrun
    obtain ⟨x, hl, hrun⟩ := hrun
    split at hrun
    · next hfit =>
      cases hrun
      rw [Store.run_modify, hlook, hl, Option.bind_some, if_pos hfit, h.content]
      refine ⟨_, rfl, ?_, h.handles⟩
      simp only [writeBlock, Function.update_self, h.content]
    · cases hrun
  | drop name =>
    rw [Store.run_drop, Option.bind_eq_some_iff] at hrun
    obtain ⟨x, hl, hrun⟩ := hrun
    cases hrun
    rw [Store.run_drop, hlook, hl, Option.bind_some]
    refine ⟨_, rfl, h.content, ?_⟩
    simp only
    rw [filter_eraseP, if_pos rfl, h.handles]
  | syncAll =>
    cases hrun
    exact ⟨b, rfl, h⟩

/-- An operation on another device changes nothing on `A`. -/
theorem Restricts.step_other (h : Restricts A a b) (hd : d ≠ A)
    (hrun : (Store.step d op).run a = some (r, a')) : Restricts A a' b := by
  cases op with
  | get name blockId =>
    cases hrun
    refine ⟨h.content, ?_⟩
    simp only
    rw [List.filter_cons_of_neg (by simpa using hd), h.handles]
  | read name offset size =>
    rw [Store.run_read, Option.bind_eq_some_iff] at hrun
    obtain ⟨x, hl, hrun⟩ := hrun
    split at hrun
    · cases hrun
      exact h
    · cases hrun
  | modify name offset size f =>
    rw [Store.run_modify, Option.bind_eq_some_iff] at hrun
    obtain ⟨x, hl, hrun⟩ := hrun
    split at hrun
    · cases hrun
      refine ⟨?_, h.handles⟩
      simp only [writeBlock]
      rw [Function.update_of_ne hd.symm, h.content]
    · cases hrun
  | drop name =>
    rw [Store.run_drop, Option.bind_eq_some_iff] at hrun
    obtain ⟨x, hl, hrun⟩ := hrun
    cases hrun
    refine ⟨h.content, ?_⟩
    simp only
    rw [filter_eraseP, if_neg hd, h.handles]
  | syncAll =>
    cases hrun
    exact h

end Restricts

/-! ## A cache with one device -/

/-- All block caches are of the device `A`. -/
def OnlyOn (A : δ) (s : CacheState δ) : Prop := ∀ c ∈ s.arena, c.blockDevice = A

section OnlyOn

variable {A : δ} {s : CacheState δ}

omit [DecidableEq δ] in
theorem OnlyOn.set (h : OnlyOn A s) {arc : Nat} {c c' : BlockCache δ} (hc : s.arena[arc]? = some c)
    (hd : c'.blockDevice = c.blockDevice) : ∀ x ∈ s.arena.set arc c', x.blockDevice = A := by
  intro x hx
  rcases List.mem_or_eq_of_mem_set hx with hx | rfl
  · exact h x hx
  · rw [hd]
    exact h c (List.mem_of_getElem? hc)

theorem sync_onlyOn (h : OnlyOn A s) (arc : Nat) : (sync arc).wlp (fun _ s' => OnlyOn A s') s := by
  unfold sync deref assign
  simp only [Comp.wlp_bind, Comp.wlp_get, Comp.wlp_unwrap]
  intro c hc
  split
  · simp only [Comp.wlp_bind, Comp.wlp_modify]
    exact h.set hc rfl
  · simpa using h

theorem syncEach_onlyOn (h : OnlyOn A s) (arcs : List Nat) :
    (syncEach arcs).wlp (fun _ s' => OnlyOn A s') s := by
  induction arcs generalizing s with
  | nil => simpa [syncEach] using h
  | cons arc arcs ih =>
    rw [syncEach, Comp.wlp_bind]
    refine (sync_onlyOn h arc).mono ?_
    intro _ s' h'
    exact ih h'

theorem dropArc_onlyOn (h : OnlyOn A s) (arc : Nat) :
    (dropArc arc).wlp (fun _ s' => OnlyOn A s') s := by
  unfold dropArc
  simp only [Comp.wlp_bind, Comp.wlp_get]
  split
  · exact sync_onlyOn h arc
  · simpa using h

theorem makeRoom_onlyOn (h : OnlyOn A s) : makeRoom.wlp (fun _ s' => OnlyOn A s') s := by
  unfold makeRoom
  simp only [Comp.wlp_bind, Comp.wlp_get]
  split
  · simp only [Comp.wlp_bind, Comp.wlp_unwrap, Comp.wlp_modify]
    intro idx _ pair _
    apply dropArc_onlyOn
    exact h
  · simpa using h

theorem getBlockCache_onlyOn (h : OnlyOn A s) (b : Nat) :
    (getBlockCache b A).wlp (fun _ s' => OnlyOn A s') s := by
  unfold getBlockCache
  simp only [Comp.wlp_bind, Comp.wlp_get]
  split
  · simpa using h
  · simp only [Comp.wlp_bind]
    refine (makeRoom_onlyOn h).mono ?_
    intro _ s' h'
    simp only [new, Comp.wlp_bind, Comp.wlp_get, Comp.wlp_modify, Comp.wlp_pure]
    intro c hc
    simp only [List.mem_append, List.mem_singleton] at hc
    rcases hc with hc | rfl
    · exact h' c hc
    · rfl

/-- A caller on `A` brings no other device into the cache. -/
theorem step_onlyOn (h : OnlyOn A s) (op : CacheOp) :
    (step A op).wlp (fun _ s' => OnlyOn A s') s := by
  cases op with
  | get name b =>
    simp only [step, takeHandle, Comp.wlp_bind, Comp.wlp_modify, Comp.wlp_pure]
    exact getBlockCache_onlyOn h b
  | read name offset size =>
    simp only [step, CacheState.read, lookup, deref, Comp.wlp_bind, Comp.wlp_get, Comp.wlp_unwrap,
      Comp.wlp_assert, Comp.wlp_pure]
    intro _ _ _ _ _
    exact h
  | modify name offset size f =>
    simp only [step, CacheState.modify, lookup, deref, assign, Comp.wlp_bind, Comp.wlp_get,
      Comp.wlp_unwrap, Comp.wlp_assert, Comp.wlp_modify, Comp.wlp_pure]
    intro arc _ c hc _
    exact h.set hc rfl
  | drop name =>
    simp only [step, dropHandle, lookup, Comp.wlp_bind, Comp.wlp_get, Comp.wlp_unwrap,
      Comp.wlp_modify, Comp.wlp_pure]
    intro arc _
    apply dropArc_onlyOn
    exact h
  | syncAll =>
    simp only [step, blockCacheSyncAll, Comp.wlp_bind, Comp.wlp_get, Comp.wlp_pure]
    exact syncEach_onlyOn h _

omit [DecidableEq δ] in
theorem OnlyOn.noClash (h : OnlyOn A s) (b : Nat) : s.NoClash A b :=
  fun _ _ _ c hc => h c (List.mem_of_getElem? hc)

end OnlyOn

/-! ## Interleaved callers -/

/-- A request does not meet an entry of another device. -/
def Fits (s : CacheState δ) (d : δ) (op : CacheOp) : Prop :=
  ∀ name b, op = .get name b → s.NoClash d b

/-- The bytes that the operations on `A` have seen. -/
def resultsOn (A : δ) (ops : List (δ × CacheOp)) (rs : List (List UInt8)) : List (List UInt8) :=
  ((ops.zip rs).filter fun x => x.1.1 = A).map Prod.snd

/-- If the operations, on whatever devices, run to their end, those on `A` alone run to their end
too, see the same bytes, and leave the same contents on `A`. -/
def DevicesApart (A : δ) (devices : δ → Nat → Block) (ops : List (δ × CacheOp)) : Prop :=
  ∀ rs s, (steps ops).run (empty devices) = some (rs, s) →
    ∃ s', (steps (ops.filter fun x => x.1 = A)).run (empty devices) =
        some (resultsOn A ops rs, s') ∧
      s'.current A = s.current A ∧
      ∀ t t', blockCacheSyncAll.run s = some ((), t) → blockCacheSyncAll.run s' = some ((), t') →
        t'.devices A = t.devices A

theorem mem_of_forall₂ {α β : Type} {R : α → β → Prop} {l : List α} {l' : List β}
    (h : List.Forall₂ R l l') : (∀ x ∈ l, ∃ y ∈ l', R x y) ∧ ∀ y ∈ l', ∃ x ∈ l, R x y := by
  induction h with
  | nil => simp
  | @cons x y l l' hxy _ ih =>
    refine ⟨?_, ?_⟩
    · intro z hz
      rw [List.mem_cons] at hz
      rcases hz with rfl | hz
      · exact ⟨y, List.mem_cons_self, hxy⟩
      · obtain ⟨w, hw, hr⟩ := ih.1 z hz
        exact ⟨w, List.mem_cons_of_mem _ hw, hr⟩
    · intro z hz
      rw [List.mem_cons] at hz
      rcases hz with rfl | hz
      · exact ⟨x, List.mem_cons_self, hxy⟩
      · obtain ⟨w, hw, hr⟩ := ih.2 z hz
        exact ⟨w, List.mem_cons_of_mem _ hw, hr⟩

section Apart

variable {A : δ} {s s' : CacheState δ} {a b : Store δ}

omit [DecidableEq δ] in
/-- The entries of a handle's block, on both sides of a simulation. -/
theorem Sim.entry_of_handle (h : Sim s a) {x' : (δ × Nat) × Nat} (hx : x' ∈ a.handles) :
    ∃ p ∈ s.queue, p.1 = x'.2 ∧ p.2 ∈ s.handles.map Prod.snd := by
  obtain ⟨x, hx, _, c, hc, _, hb⟩ := (mem_of_forall₂ h.handles).2 x' hx
  obtain ⟨p, hp, harc⟩ := List.mem_map.mp (h.rep.handles x hx)
  obtain ⟨c', hc', hb', _⟩ := h.rep.cached p hp
  rw [harc, hc] at hc'
  cases hc'
  exact ⟨p, hp, hb'.symm.trans hb, List.mem_map.mpr ⟨x, hx, harc.symm⟩⟩

omit [DecidableEq δ] in
theorem Sim.handle_of_entry (h : Sim s a) {p : Nat × Nat} (hp : p ∈ s.queue)
    (huse : p.2 ∈ s.handles.map Prod.snd) : ∃ x' ∈ a.handles, x'.2 = p.1 := by
  obtain ⟨x, hx, harc⟩ := List.mem_map.mp huse
  obtain ⟨x', hx', _, c, hc, _, hb⟩ := (mem_of_forall₂ h.handles).1 x hx
  obtain ⟨c', hc', hb', _⟩ := h.rep.cached p hp
  rw [← harc, hc] at hc'
  cases hc'
  exact ⟨x', hx', hb.symm.trans hb'⟩

/-- If the cache of the lone caller is full of blocks in use, so is the shared one, and with the same
blocks. -/
theorem full_of_full (h : Sim s a) (h' : Sim s' b) (hr : Restricts A a b) {blockId : Nat}
    (hmiss : ∀ p ∈ s'.queue, p.1 ≠ blockId) (hfull : s'.queue.length = blockCacheMaxNum)
    (huse : ∀ p ∈ s'.queue, p.2 ∈ s'.handles.map Prod.snd) :
    (∀ p ∈ s.queue, p.1 ≠ blockId) ∧ s.queue.length = blockCacheMaxNum ∧
      ∀ p ∈ s.queue, p.2 ∈ s.handles.map Prod.snd := by
  have hin : ∀ p ∈ s'.queue, ∃ q ∈ s.queue, q.1 = p.1 ∧ q.2 ∈ s.handles.map Prod.snd := by
    intro p hp
    obtain ⟨x, hx, hb⟩ := h'.handle_of_entry hp (huse p hp)
    rw [hr.handles] at hx
    obtain ⟨q, hq, hqb, hquse⟩ := h.entry_of_handle (List.mem_of_mem_filter hx)
    exact ⟨q, hq, hqb.trans hb, hquse⟩
  have hsub : s'.queue.map Prod.fst ⊆ s.queue.map Prod.fst := by
    intro i hi
    obtain ⟨p, hp, rfl⟩ := List.mem_map.mp hi
    obtain ⟨q, hq, hqb, _⟩ := hin p hp
    exact List.mem_map.mpr ⟨q, hq, hqb⟩
  have hsize := h.rep.size
  have hperm : (s'.queue.map Prod.fst).Perm (s.queue.map Prod.fst) := by
    apply (List.subperm_of_subset h'.rep.ids hsub).perm_of_length_le
    rw [List.length_map, List.length_map, hfull]
    exact hsize
  have hback : ∀ p ∈ s.queue, ∃ q ∈ s'.queue, q.1 = p.1 := by
    intro p hp
    exact List.mem_map.mp (hperm.mem_iff.mpr (List.mem_map.mpr ⟨p, hp, rfl⟩))
  refine ⟨?_, ?_, ?_⟩
  · intro p hp hc
    obtain ⟨q, hq, hqb⟩ := hback p hp
    exact hmiss q hq (hqb.trans hc)
  · have hlen := hperm.length_eq
    rw [List.length_map, List.length_map] at hlen
    omega
  · intro p hp
    obtain ⟨q, hq, hqb⟩ := hback p hp
    obtain ⟨r, hr, hrb, hruse⟩ := hin q hq
    rw [h.rep.entry_ext hp hr (Or.inl (hrb.trans hqb).symm)]
    exact hruse

/-- One operation on `A`, in the shared cache and in the lone caller's. -/
theorem step_apart (h : Sim s a) (h' : Sim s' b) (hr : Restricts A a b) (ho : OnlyOn A s')
    {op : CacheOp} (hfit : s.Fits A op) {r : List UInt8} {t : CacheState δ}
    (hrun : (step A op).run s = some (r, t)) :
    ∃ a' t' b', Sim t a' ∧ (step A op).run s' = some (r, t') ∧ Sim t' b' ∧ Restricts A a' b' ∧
      OnlyOn A t' := by
  rcases step_sim h A op hfit with ⟨r₁, t₁, a', hrun₁, hrun_a, hsim⟩ | ⟨hrun₁, _⟩ |
    ⟨_, _, _, _, _, _, hrun₁⟩
  · rw [hrun] at hrun₁
    cases hrun₁
    obtain ⟨b', hrun_b, hr'⟩ := hr.step_same hrun_a
    rcases step_sim h' A op (fun name c _ => ho.noClash c) with
      ⟨r₂, t', b'', hrun', hrun_b', hsim'⟩ | ⟨_, hrun_b'⟩ | ⟨name, c, rfl, hmiss, hfull, huse, hrun'⟩
    · rw [hrun_b] at hrun_b'
      cases hrun_b'
      exact ⟨a', t', b', hsim, hrun', hsim', hr', step_onlyOn ho op _ _ hrun'⟩
    · rw [hrun_b] at hrun_b'
      cases hrun_b'
    · obtain ⟨hmiss', hfull', huse'⟩ := full_of_full h h' hr hmiss hfull huse
      rcases Sim.get name h (hfit name c rfl) with ⟨_, _, _, hor⟩ | ⟨_, _, _, hnone⟩
      · rcases hor with ⟨p, hp, hpc⟩ | hfree
        · exact absurd hpc (hmiss' p hp)
        · obtain ⟨p, hp, hpf⟩ := hfree hfull'
          exact absurd (huse' p hp) hpf
      · rw [hrun] at hnone
        cases hnone
  · rw [hrun] at hrun₁
    cases hrun₁
  · rw [hrun] at hrun₁
    cases hrun₁

theorem steps_apart (h : Sim s a) (h' : Sim s' b) (hr : Restricts A a b) (ho : OnlyOn A s')
    {ops : List (δ × CacheOp)} (hfit : Along Fits ops s) {rs : List (List UInt8)} {t : CacheState δ}
    (hrun : (steps ops).run s = some (rs, t)) :
    ∃ a' t' b', Sim t a' ∧ (steps (ops.filter fun x => x.1 = A)).run s' =
      some (resultsOn A ops rs, t') ∧ Sim t' b' ∧ Restricts A a' b' := by
  induction ops generalizing s s' a b rs with
  | nil =>
    cases hrun
    exact ⟨a, s', b, h, rfl, h', hr⟩
  | cons x ops ih =>
    obtain ⟨d, op⟩ := x
    obtain ⟨hop, hrest⟩ := hfit
    rw [steps, Comp.run_bind, Option.bind_eq_some_iff] at hrun
    obtain ⟨⟨r, s₁⟩, hstep, hrun⟩ := hrun
    rw [Comp.run_bind, Option.bind_eq_some_iff] at hrun
    obtain ⟨⟨rs', s₂⟩, hsteps, hrun⟩ := hrun
    cases hrun
    simp only at hstep hsteps
    by_cases hd : d = A
    · subst hd
      obtain ⟨a₁, s₁', b₁, hsim, hstep', hsim', hr₁, ho₁⟩ := step_apart h h' hr ho hop hstep
      obtain ⟨a₂, s₂', b₂, hsim₂, hsteps', hsim₂', hr₂⟩ :=
        ih hsim hsim' hr₁ ho₁ (hrest r s₁ hstep) hsteps
      refine ⟨a₂, s₂', b₂, hsim₂, ?_, hsim₂', hr₂⟩
      rw [List.filter_cons_of_pos (by simp), steps, Comp.run_bind, hstep', Option.bind_some,
        Comp.run_bind, hsteps', Option.bind_some, Comp.run_pure]
      simp [resultsOn]
    · rcases step_sim h d op hop with ⟨r₁, t₁, a', hrun₁, hrun_a, hsim⟩ | ⟨hrun₁, _⟩ |
        ⟨_, _, _, _, _, _, hrun₁⟩
      · rw [hstep] at hrun₁
        cases hrun₁
        obtain ⟨a₂, s₂', b₂, hsim₂, hsteps', hsim₂', hr₂⟩ :=
          ih hsim h' (hr.step_other hd hrun_a) ho (hrest r s₁ hstep) hsteps
        refine ⟨a₂, s₂', b₂, hsim₂, ?_, hsim₂', hr₂⟩
        rw [List.filter_cons_of_neg (by simpa using hd), hsteps']
        simp [resultsOn, hd]
      · rw [hstep] at hrun₁
        cases hrun₁
      · rw [hstep] at hrun₁
        cases hrun₁

/-- **Callers on different devices.** In every interleaving in which no request meets an entry of
another device, each caller sees what it would see alone and leaves what it would leave alone. -/
theorem devices_apart (A : δ) (devices : δ → Nat → Block) (ops : List (δ × CacheOp))
    (hfit : Along Fits ops (empty devices)) : DevicesApart A devices ops := by
  intro rs s hrun
  have hr : Restricts A (⟨devices, []⟩ : Store δ) ⟨devices, []⟩ := ⟨rfl, rfl⟩
  have ho : OnlyOn A (empty devices) := fun c hc => absurd hc List.not_mem_nil
  obtain ⟨a', s', b', hsim, hrun', hsim', hr'⟩ :=
    steps_apart (sim_empty devices) (sim_empty devices) hr ho hfit hrun
  refine ⟨s', hrun', ?_, ?_⟩
  · funext b
    rw [hsim.rep.current_eq, hsim'.rep.current_eq, hr'.content]
  · intro t t' ht ht'
    obtain ⟨t₁, hrun₁, _, _, _, hdev₁⟩ := blockCacheSyncAll_run hsim.rep
    obtain ⟨t₂, hrun₂, _, _, _, hdev₂⟩ := blockCacheSyncAll_run hsim'.rep
    rw [ht] at hrun₁
    rw [ht'] at hrun₂
    cases hrun₁
    cases hrun₂
    rw [hdev₁, hdev₂, hr'.content]

/-- The callers use different block numbers. -/
theorem devices_apart_two : DevicesApart false (fun d _ => Vector.replicate blockSz d.toUInt8)
    [(true, .get 0 5), (false, .get 0 6), (false, .read 0 0 1)] := by
  apply devices_apart
  refine ⟨?_, fun _ s hs => ⟨?_, fun _ s' _ => ⟨?_, fun _ _ _ => trivial⟩⟩⟩
  · intro _ _ _ p hp
    cases hp
  · intro name b hop p hp hb
    cases hop
    have hq : s.queue = [(5, 0)] := by
      cases hs
      rfl
    rw [hq, List.mem_singleton] at hp
    rw [hp] at hb
    exact absurd hb (by decide)
  · intro _ _ hop
    cases hop

/-- Both callers ask for block 0. The second one reads the first one's device. -/
theorem not_devicesApart_two :
    ¬ ∀ (A : Bool) (devices : Bool → Nat → Block) (ops : List (Bool × CacheOp)),
      DevicesApart A devices ops := by
  intro h
  obtain ⟨s, hs⟩ : ∃ s, (steps [(true, .get 0 0), (false, .get 0 0), (false, .read 0 0 1)]).run
      (empty fun d _ => Vector.replicate blockSz d.toUInt8) = some ([[], [], [1]], s) := ⟨_, rfl⟩
  obtain ⟨s', hs', _⟩ := h false _ _ _ s hs
  have halone : ∃ t, (steps [(false, .get 0 0), (false, .read 0 0 1)]).run
      (empty fun d _ => Vector.replicate blockSz d.toUInt8) = some ([[], [0]], t) := ⟨_, rfl⟩
  obtain ⟨t, ht⟩ := halone
  have heq := ht.symm.trans hs'
  have hrs : [[], [0]] = resultsOn false
      [(true, .get 0 0), (false, .get 0 0), (false, .read 0 0 1)] [[], [], [1]] :=
    congrArg Prod.fst (Option.some.inj heq)
  exact absurd hrs (by decide)

end Apart

end CacheState

end RCore.EasyFs
