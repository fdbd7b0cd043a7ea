import RCore.EasyFs.Verify.Transparent

/-!
# File-system routines on the block cache

The routines of the file system are programs over blocks. `exec` reads them on a plain store of
blocks, `cached` runs them through the block cache. `Nests w n p` says that `p` never holds more than
`n` handles at a time, and that it stores nothing unless `w`; for such a program the two readings agree
(`Nests.cached_run`): the same result, and a cache that stands for the store `exec` leaves. So what is
proved about `exec` is true of the routines on the cache.
-/

namespace RCore.EasyFs

open RCore Prog CacheState

/-- A program that holds at most `n` handles at a time, and stores blocks only if `w`. -/
inductive Nests : Bool → Nat → {α : Type} → EfsM α → Prop
  | ret {w : Bool} {n : Nat} {α : Type} (a : α) : Nests w n (pure a : EfsM α)
  | abort {w : Bool} {n : Nat} {α : Type} : Nests w n (Prog.abort : EfsM α)
  | bind {w : Bool} {n : Nat} {α β : Type} {p : EfsM α} {f : α → EfsM β} (hp : Nests w n p)
      (hf : ∀ a, Nests w n (f a)) : Nests w n (p >>= f)
  | read {w : Bool} {n : Nat} {α : Type} (i : Nat) {f : Block → EfsM α}
      (hf : ∀ b, Nests w n (f b)) : Nests w (n + 1) (withRead i f)
  | modify {n : Nat} {α : Type} (i : Nat) {f : Block → EfsM (α × Block)}
      (hf : ∀ b, Nests true n (f b)) : Nests true (n + 1) (withModify i f)

theorem cached_bind {α β : Type} (p : EfsM α) (f : α → EfsM β) (s : CacheState Unit) :
    (cached (p >>= f)).run s = ((cached p).run s).bind fun r => (cached (f r.1)).run r.2 := by
  show (cached (p.bind f)).run s = _
  induction p generalizing s with
  | ret a => rfl
  | abort => rfl
  | acquire i k ih =>
    simp only [Prog.bind, cached, Comp.run_bind, Option.bind_assoc, ih]
  | store i b k ih =>
    simp only [Prog.bind, cached, Comp.run_bind, Option.bind_assoc, ih]
  | release i k ih =>
    simp only [Prog.bind, cached, Comp.run_bind, Option.bind_assoc, ih]
  | sync k ih =>
    simp only [Prog.bind, cached, Comp.run_bind, Option.bind_assoc, ih]

/-! ## What a routine does to the cache -/

/-- The cache stands for `d` in `s` and for `d'` in `s'`, after a routine that stores blocks only if
`w` and has dropped its handles. -/
structure Outcome (w : Bool) (d d' : Disk) (s s' : CacheState Unit) : Prop where
  rep : Rep (fun _ => d') s'
  handles : s'.handles = s.handles
  arcs : ∀ (arc : Nat) (c : BlockCache Unit), s.arena[arc]? = some c →
    ∃ c' : BlockCache Unit, s'.arena[arc]? = some c' ∧ c'.blockId = c.blockId
  held : HeldStill s s'
  readOnly : w = false → d' = d ∧ ∀ b, s.devices () b = d b → s'.devices () b = d b

namespace Outcome

variable {w : Bool} {d d₁ d₂ : Disk} {s s₁ s₂ : CacheState Unit}

theorem refl (h : Rep (fun _ => d) s) : Outcome w d d s s :=
  ⟨h, rfl, fun _ c hc => ⟨c, hc, rfl⟩, fun _ _ _ _ => rfl, fun _ => ⟨rfl, fun _ hb => hb⟩⟩

theorem trans (h : Outcome w d d₁ s s₁) (h' : Outcome w d₁ d₂ s₁ s₂) : Outcome w d d₂ s s₂ := by
  refine ⟨h'.rep, h'.handles.trans h.handles, ?_, ?_, ?_⟩
  · intro arc c hc
    obtain ⟨c₁, hc₁, hb₁⟩ := h.arcs arc c hc
    obtain ⟨c₂, hc₂, hb₂⟩ := h'.arcs arc c₁ hc₁
    exact ⟨c₂, hc₂, hb₂.trans hb₁⟩
  · intro x hx c hc
    obtain ⟨c₁, hc₁, hb₁⟩ := h.arcs x.2 c hc
    have hx₁ : x ∈ s₁.handles := by
      rw [h.handles]
      exact hx
    rw [← h.held x hx c hc, ← hb₁]
    exact h'.held x hx₁ c₁ hc₁
  · intro hw
    obtain ⟨rfl, hs⟩ := h.readOnly hw
    obtain ⟨rfl, hs'⟩ := h'.readOnly hw
    exact ⟨rfl, fun b hb => hs' b (hs b hb)⟩

end Outcome

/-! ## Taking and dropping a handle -/

section Handle

variable {d : Disk} {s : CacheState Unit} {i : Nat}

/-- A handle of block `i` has been taken: it is the first one, and has the content of the block. -/
structure Held (d : Disk) (s : CacheState Unit) (i arc : Nat) (s₁ : CacheState Unit) : Prop where
  rep : Rep (fun _ => d) s₁
  handles : s₁.handles = (((), i), arc) :: s.handles
  deref : ∃ c : BlockCache Unit, s₁.arena[arc]? = some c ∧ c.blockId = i ∧ c.cache = d i
  arcs : ∀ (arc : Nat) (c : BlockCache Unit), s.arena[arc]? = some c →
    ∃ c' : BlockCache Unit, s₁.arena[arc]? = some c' ∧ c'.blockId = c.blockId
  held : HeldStill s s₁
  settled : ∀ b, s.devices () b = d b → s₁.devices () b = d b
  /-- A miss finds the block on the device, a hit leaves the device alone. -/
  still : s₁.devices () i = s.devices () i

theorem takeHandle_run (h : Rep (fun _ => d) s) (hroom : s.handles.length < blockCacheMaxNum)
    (i : Nat) : ∃ arc s₁, (takeHandle ((), i) i).run s = some ((), s₁) ∧ Held d s i arc s₁ := by
  have hadd : ∀ s₀ arc, (getBlockCache i ()).run s = some (arc, s₀) → Rep (fun _ => d) s₀ →
      Keeps (fun _ => d) s s₀ → HeldStill s s₀ → (i, arc) ∈ s₀.queue →
      s₀.devices () i = s.devices () i →
      ∃ arc s₁, (takeHandle ((), i) i).run s = some ((), s₁) ∧ Held d s i arc s₁ := by
    intro s₀ arc hrun hrep hkeep hheld hmem hstill
    obtain ⟨c, hc, hb, hv, _⟩ := hrep.cached _ hmem
    refine ⟨arc, { s₀ with handles := (((), i), arc) :: s₀.handles }, ?_, ?_, ?_, ?_, ?_, hheld, ?_,
      hstill⟩
    · simp only [takeHandle, Comp.run_bind, hrun, Option.bind_some, Comp.run_modify]
    · refine ⟨hrep.ids, hrep.size, hrep.cached, hrep.uncached, ?_⟩
      intro x hx
      rw [List.mem_cons] at hx
      rcases hx with rfl | hx
      · exact List.mem_map.mpr ⟨_, hmem, rfl⟩
      · exact hrep.handles x hx
    · simp only
      rw [hkeep.handles]
    · exact ⟨c, hc, hb, hv⟩
    · intro arc' c' hc'
      obtain ⟨c'', hc'', _, hb''⟩ := hkeep.arcs arc' c' hc'
      exact ⟨c'', hc'', hb''⟩
    · intro b hb'
      exact hkeep.settled () b hb'
  rcases getBlockCache_run h i () with ⟨p, hp, rfl, hrun⟩ |
    ⟨hmiss, s₀, arc, _, hrun, hrep, hkeep, hheld, hmem, _, _, _⟩ | ⟨hmiss, hfull, huse, _⟩
  · exact hadd s p.2 hrun h (Keeps.refl _ s) (fun _ _ _ _ => rfl) hp rfl
  · have hdev : s.devices () i = d i := h.uncached () i fun p hp _ _ he => absurd he (hmiss p hp)
    exact hadd s₀ arc hrun hrep hkeep hheld hmem ((hkeep.settled () i hdev).trans hdev.symm)
  · exact absurd huse (not_full_of_hasRoom i h (fun _ _ _ _ => hroom) hmiss hfull)

/-- A routine that ran while the handle of block `i` was held has not written block `i` to the
device, and the handle drops without a trace. -/
theorem dropHandle_run {arc : Nat} {s' : CacheState Unit} {hs : List ((Unit × Nat) × Nat)}
    (h : Rep (fun _ => d) s') (hh : s'.handles = (((), i), arc) :: hs) :
    (dropHandle ((), i)).run s' = some ((), { s' with handles := hs }) ∧
      Rep (fun _ => d) { s' with handles := hs } := by
  have hlook : s'.handles.lookup ((), i) = some arc := by rw [hh, List.lookup_cons_self]
  have herase : (s'.handles.eraseP fun x => x.1 = ((), i)) = hs := by
    rw [hh, List.eraseP_cons_of_pos (by simp)]
  have hmem : (((), i), arc) ∈ s'.handles := by
    rw [hh]
    exact List.mem_cons_self
  refine ⟨?_, h.fewerHandles ?_⟩
  · simp only [dropHandle, CacheState.lookup, Comp.run_bind, Comp.run_get, Option.bind_some, hlook,
      Comp.unwrap, Comp.run_pure, Comp.run_modify, herase]
    exact dropArc_run (s := { s' with handles := hs }) (h.handles _ hmem)
  · rw [hh]
    exact List.subset_cons_self _ _

namespace Held

variable {w : Bool} {d' : Disk} {arc : Nat} {s₁ s₂ : CacheState Unit}

theorem arcs_trans (h : Held d s i arc s₁) (ho : Outcome w d d' s₁ s₂) (arc' : Nat)
    (c : BlockCache Unit) (hc : s.arena[arc']? = some c) :
    ∃ c' : BlockCache Unit, s₂.arena[arc']? = some c' ∧ c'.blockId = c.blockId := by
  obtain ⟨c₁, hc₁, hb₁⟩ := h.arcs arc' c hc
  obtain ⟨c₂, hc₂, hb₂⟩ := ho.arcs arc' c₁ hc₁
  exact ⟨c₂, hc₂, hb₂.trans hb₁⟩

theorem held_trans (h : Held d s i arc s₁) (ho : Outcome w d d' s₁ s₂) : HeldStill s s₂ := by
  intro x hx c hc
  obtain ⟨c₁, hc₁, hb₁⟩ := h.arcs x.2 c hc
  have hx₁ : x ∈ s₁.handles := by
    rw [h.handles]
    exact List.mem_cons_of_mem _ hx
  rw [← h.held x hx c hc, ← hb₁]
  exact ho.held x hx₁ c₁ hc₁

/-- Nothing writes the block while its handle is held. -/
theorem still_trans (h : Held d s i arc s₁) (ho : Outcome w d d' s₁ s₂) :
    s₂.devices () i = s.devices () i := by
  obtain ⟨c, hc, rfl, _⟩ := h.deref
  have hmem : (((), c.blockId), arc) ∈ s₁.handles := by
    rw [h.handles]
    exact List.mem_cons_self
  exact (ho.held _ hmem c hc).trans h.still

end Held

theorem writeBlock_unit (d : Disk) (i : Nat) (b : Block) :
    writeBlock () i b (fun _ => d) = fun _ => Function.update d i b := by
  funext u
  cases u
  rw [writeBlock, Function.update_self]

end Handle

/-! ## The two readings agree -/

section Run

variable {d : Disk} {s : CacheState Unit}

/-- What a routine does on the cache of `s`, and on the plain store `d` it stands for. -/
def RunsAlike {α : Type} (p : EfsM α) (d : Disk) (s : CacheState Unit)
    (Q : Disk → CacheState Unit → Prop) : Prop :=
  (∃ a d' s', p.exec d = some (a, d') ∧ (cached p).run s = some (a, s') ∧ Q d' s') ∨
    (p.exec d = none ∧ (cached p).run s = none)

theorem withRead_run {w : Bool} {n : Nat} {α : Type} (i : Nat) {f : Block → EfsM α}
    (hf : ∀ s₁, Rep (fun _ => d) s₁ → s₁.handles.length + n ≤ blockCacheMaxNum →
      RunsAlike (f (d i)) d s₁ fun d' s₂ => Outcome w d d' s₁ s₂)
    (h : Rep (fun _ => d) s) (hroom : s.handles.length + (n + 1) ≤ blockCacheMaxNum) :
    RunsAlike (withRead i f) d s fun d' s' => Outcome w d d' s s' := by
  obtain ⟨arc, s₁, htake, hheld⟩ := takeHandle_run h (by omega) i
  obtain ⟨c, hc, hb, hcache⟩ := hheld.deref
  have hlook : s₁.handles.lookup ((), i) = some arc := by
    rw [hheld.handles, List.lookup_cons_self]
  have hrun : (cached (withRead i f)).run s =
      ((cached (f (d i))).run s₁).bind fun r => (cached (release i (Prog.ret r.1))).run r.2 := by
    show (cached (acquire i fun b => (f b).bind fun a => release i (Prog.ret a))).run s = _
    simp only [cached, Comp.run_bind, htake, Option.bind_some, CacheState.lookup, Comp.run_get,
      hlook, Comp.unwrap, Comp.run_pure, CacheState.deref, hc, hcache]
    exact cached_bind (f (d i)) (fun a => release i (Prog.ret a)) s₁
  have hexec : (withRead i f).exec d =
      ((f (d i)).exec d).bind fun r => (release i (Prog.ret r.1) : EfsM α).exec r.2 :=
    exec_bind (f (d i)) (fun a => release i (Prog.ret a)) d
  have hlen : s₁.handles.length + n ≤ blockCacheMaxNum := by
    rw [hheld.handles, List.length_cons]
    omega
  rcases hf s₁ hheld.rep hlen with ⟨a, d', s₂, he, hr, ho⟩ | ⟨he, hr⟩
  · left
    have hh : s₂.handles = (((), i), arc) :: s.handles := by rw [ho.handles, hheld.handles]
    obtain ⟨hdrop, hrep⟩ := dropHandle_run ho.rep hh
    have hstill : HeldStill s s₂ := hheld.held_trans ho
    have harcs := hheld.arcs_trans ho
    refine ⟨a, d', { s₂ with handles := s.handles }, ?_, ?_, hrep, rfl, harcs, hstill, ?_⟩
    · rw [hexec, he]
      rfl
    · rw [hrun, hr, Option.bind_some]
      simp only [cached, Comp.run_bind, hdrop, Option.bind_some, Comp.run_pure]
    · intro hw
      obtain ⟨rfl, hs⟩ := ho.readOnly hw
      exact ⟨rfl, fun b hb => hs b (hheld.settled b hb)⟩
  · right
    refine ⟨?_, ?_⟩
    · rw [hexec, he]
      rfl
    · rw [hrun, hr, Option.bind_none]

/-- The block that is modified is not on the device afterwards: the device has what it had. -/
theorem withModify_run {n : Nat} {α : Type} (i : Nat) {f : Block → EfsM (α × Block)}
    (hf : ∀ s₁, Rep (fun _ => d) s₁ → s₁.handles.length + n ≤ blockCacheMaxNum →
      RunsAlike (f (d i)) d s₁ fun d' s₂ => Outcome true d d' s₁ s₂)
    (h : Rep (fun _ => d) s) (hroom : s.handles.length + (n + 1) ≤ blockCacheMaxNum) :
    RunsAlike (withModify i f) d s fun d' s' =>
      Outcome true d d' s s' ∧ s'.devices () i = s.devices () i := by
  obtain ⟨arc, s₁, htake, hheld⟩ := takeHandle_run h (by omega) i
  obtain ⟨c, hc, hb, hcache⟩ := hheld.deref
  have hlook : s₁.handles.lookup ((), i) = some arc := by
    rw [hheld.handles, List.lookup_cons_self]
  have hrun : (cached (withModify i f)).run s = ((cached (f (d i))).run s₁).bind fun r =>
      (cached (store i r.1.2 (release i (Prog.ret r.1.1)))).run r.2 := by
    show (cached (acquire i fun b => (f b).bind fun r => store i r.2 (release i (Prog.ret r.1)))).run s = _
    simp only [cached, Comp.run_bind, htake, Option.bind_some, CacheState.lookup, Comp.run_get,
      hlook, Comp.unwrap, Comp.run_pure, CacheState.deref, hc, hcache]
    exact cached_bind (f (d i)) (fun r => store i r.2 (release i (Prog.ret r.1))) s₁
  have hexec : (withModify i f).exec d = ((f (d i)).exec d).bind fun r =>
      (store i r.1.2 (release i (Prog.ret r.1.1)) : EfsM α).exec r.2 :=
    exec_bind (f (d i)) (fun r => store i r.2 (release i (Prog.ret r.1))) d
  have hlen : s₁.handles.length + n ≤ blockCacheMaxNum := by
    rw [hheld.handles, List.length_cons]
    omega
  rcases hf s₁ hheld.rep hlen with ⟨⟨a, b'⟩, d', s₂, he, hr, ho⟩ | ⟨he, hr⟩
  · left
    have hh : s₂.handles = (((), i), arc) :: s.handles := by rw [ho.handles, hheld.handles]
    have hlook₂ : s₂.handles.lookup ((), i) = some arc := by rw [hh, List.lookup_cons_self]
    obtain ⟨c₂, hc₂, hb₂⟩ := ho.arcs arc c hc
    obtain ⟨p, hp, harc⟩ := List.mem_map.mp (ho.rep.handles (((), i), arc) (by
      rw [hh]
      exact List.mem_cons_self))
    simp only at harc
    subst harc
    obtain ⟨c₃, hc₃, hb₃, _⟩ := ho.rep.cached p hp
    rw [hc₂] at hc₃
    cases hc₃
    have hpi : p.1 = i := by rw [← hb₃, hb₂, hb]
    have hrep₃ := ho.rep.assign hp hc₂ b'
    rw [hpi, writeBlock_unit] at hrep₃
    obtain ⟨hdrop, hrep⟩ := dropHandle_run hrep₃ hh
    have hlt : p.2 < s₂.arena.length := (List.getElem?_eq_some_iff.mp hc₂).1
    have hheld' : HeldStill s s₂ := hheld.held_trans ho
    have hstill : s₂.devices () i = s.devices () i := hheld.still_trans ho
    refine ⟨a, Function.update d' i b', _, ?_, ?_, ⟨hrep, rfl, ?_, hheld',
      fun hw => Bool.noConfusion hw⟩, hstill⟩
    · rw [hexec, he]
      rfl
    · rw [hrun, hr, Option.bind_some]
      simp only [cached, Comp.run_bind, Option.bind_some, CacheState.lookup, Comp.run_get, hlook₂,
        Comp.unwrap, Comp.run_pure, CacheState.deref, hc₂, CacheState.assign, Comp.run_modify,
        hdrop]
    · intro arc' c' hc'
      obtain ⟨c₄, hc₄, hb₄⟩ := hheld.arcs_trans ho arc' c' hc'
      by_cases hq : p.2 = arc'
      · subst hq
        rw [hc₂] at hc₄
        cases hc₄
        exact ⟨_, List.getElem?_set_self hlt, hb₄⟩
      · refine ⟨c₄, ?_, hb₄⟩
        simp only
        rw [List.getElem?_set_ne hq]
        exact hc₄
  · right
    refine ⟨?_, ?_⟩
    · rw [hexec, he]
      rfl
    · rw [hrun, hr, Option.bind_none]

/-- **Running through the cache.** A routine that never holds too many handles does on the cache what
it does on the plain store. -/
theorem Nests.cached_run {w : Bool} {n : Nat} {α : Type} {p : EfsM α} (hp : Nests w n p)
    (h : Rep (fun _ => d) s) (hroom : s.handles.length + n ≤ blockCacheMaxNum) :
    RunsAlike p d s fun d' s' => Outcome w d d' s s' := by
  induction hp generalizing d s with
  | ret a => exact Or.inl ⟨a, d, s, rfl, rfl, Outcome.refl h⟩
  | abort => exact Or.inr ⟨rfl, rfl⟩
  | bind hp hf ihp ihf =>
    unfold RunsAlike
    rw [exec_bind, cached_bind]
    rcases ihp h hroom with ⟨a, d₁, s₁, he, hr, ho⟩ | ⟨he, hr⟩
    · rw [he, hr, Option.bind_some, Option.bind_some]
      rcases ihf a ho.rep (by rw [ho.handles]; exact hroom) with ⟨b, d₂, s₂, he', hr', ho'⟩ | hnone
      · exact Or.inl ⟨b, d₂, s₂, he', hr', ho.trans ho'⟩
      · exact Or.inr hnone
    · rw [he, hr]
      exact Or.inr ⟨rfl, rfl⟩
  | read i hf ih => exact withRead_run i (fun _ h₁ hroom₁ => ih _ h₁ hroom₁) h hroom
  | modify i hf ih =>
    rcases withModify_run i (fun _ h₁ hroom₁ => ih _ h₁ hroom₁) h hroom with
      ⟨a, d', s', he, hr, ho, _⟩ | hnone
    · exact Or.inl ⟨a, d', s', he, hr, ho⟩
    · exact Or.inr hnone

/-- A routine that stores nothing leaves the store as it is. -/
theorem Nests.exec_same {n : Nat} {α : Type} {p : EfsM α} (hp : Nests false n p)
    (hn : n ≤ blockCacheMaxNum) {a : α} {d' : Disk} (he : p.exec d = some (a, d')) : d' = d := by
  have hroom : (CacheState.empty fun _ : Unit => d).handles.length + n ≤ blockCacheMaxNum := by
    show 0 + n ≤ blockCacheMaxNum
    omega
  rcases hp.cached_run (Rep.empty _) hroom with ⟨a', d'', s', he', _, ho⟩ | ⟨he', _⟩
  · rw [he] at he'
    cases he'
    exact (ho.readOnly rfl).1
  · rw [he] at he'
    cases he'

end Run

end RCore.EasyFs
