import RCore.EasyFs.Verify.Cache

/-!
# The block cache is a store

`Store` is what the callers of the cache see: the content of every block of every device, and the
block each of their handles is for. `Sim` relates a state of the cache to a store, and `step_sim` says
that an operation on the one is the operation on the other, with the same bytes read, as long as
`get_block_cache` is not asked for a block whose number the cache holds for another device.
`cache_transparent` draws the conclusion for one device.
-/

namespace RCore.EasyFs

/-! ## The store -/

/-- The contents of the blocks, and the handles with the blocks they are for. -/
structure Store (δ : Type) where
  content : δ → Nat → Block
  handles : List ((δ × Nat) × Nat)

namespace Store

variable {δ : Type} [DecidableEq δ]

/-- The block of a handle. -/
def lookup (name : δ × Nat) : Comp (Store δ) Nat := do
  let a ← Comp.get
  Comp.unwrap (a.handles.lookup name)

/-- One operation of a caller on the device `d`, with the bytes it sees. -/
def step (d : δ) : CacheOp → Comp (Store δ) (List UInt8)
  | .get name blockId => do
    Comp.modify fun a => { a with handles := ((d, name), blockId) :: a.handles }
    return []
  | .read name offset size => do
    let b ← lookup (d, name)
    Comp.assert (offset + size ≤ blockSz ∧ offset < blockSz)
    let a ← Comp.get
    return (a.content d b).slice offset size
  | .modify name offset size f => do
    let b ← lookup (d, name)
    Comp.assert (offset + size ≤ blockSz ∧ offset < blockSz)
    let a ← Comp.get
    let old := (a.content d b).slice offset size
    let new := (a.content d b).splice offset ((f old).take size)
    Comp.modify fun a => { a with content := CacheState.writeBlock d b new a.content }
    return old
  | .drop name => do
    let _ ← lookup (d, name)
    Comp.modify fun a => { a with handles := a.handles.eraseP fun h => h.1 = (d, name) }
    return []
  | .syncAll => return []

section Run

variable {d : δ} {name offset size : Nat} {f : List UInt8 → List UInt8} {a : Store δ}

theorem run_read : (step d (.read name offset size)).run a = (a.handles.lookup (d, name)).bind fun b =>
    if offset + size ≤ blockSz ∧ offset < blockSz then some ((a.content d b).slice offset size, a) else none := by
  simp only [step, lookup, Comp.run_bind, Comp.run_get, Option.bind_some]
  cases a.handles.lookup (d, name) with
  | none => rfl
  | some b =>
    simp only [Comp.unwrap, Comp.assert, Comp.run_pure, Option.bind_some]
    split <;> rfl

theorem run_modify : (step d (.modify name offset size f)).run a = (a.handles.lookup (d, name)).bind fun b =>
    if offset + size ≤ blockSz ∧ offset < blockSz then
      some ((a.content d b).slice offset size, { a with
        content := CacheState.writeBlock d b
          ((a.content d b).splice offset ((f ((a.content d b).slice offset size)).take size)) a.content })
    else none := by
  simp only [step, lookup, Comp.run_bind, Comp.run_get, Option.bind_some]
  cases a.handles.lookup (d, name) with
  | none => rfl
  | some b =>
    simp only [Comp.unwrap, Comp.assert, Comp.run_pure, Option.bind_some]
    split <;> rfl

theorem run_drop : (step d (.drop name)).run a = (a.handles.lookup (d, name)).bind fun _ =>
    some ([], { a with handles := a.handles.eraseP fun h => h.1 = (d, name) }) := by
  simp only [step, lookup, Comp.run_bind, Comp.run_get, Option.bind_some]
  cases a.handles.lookup (d, name) <;> rfl

end Run

/-- A sequence of operations, each on a device, with the bytes each of them sees. -/
def steps : List (δ × CacheOp) → Comp (Store δ) (List (List UInt8))
  | [] => return []
  | (d, op) :: ops => do
    let r ← step d op
    let rs ← steps ops
    return r :: rs

end Store

namespace CacheState

variable {δ : Type}

/-! ## The simulation -/

/-- The handle `h` of the cache is the handle `h'` of the store. -/
def Names (s : CacheState δ) (h h' : (δ × Nat) × Nat) : Prop :=
  h.1 = h'.1 ∧ ∃ c : BlockCache δ, s.arena[h.2]? = some c ∧ c.blockDevice = h.1.1 ∧ c.blockId = h'.2

/-- The cache is in a state that stands for the store `a`. -/
structure Sim (s : CacheState δ) (a : Store δ) : Prop where
  rep : Rep a.content s
  handles : List.Forall₂ s.Names s.handles a.handles

/-- The cache holds no block with number `b` of a device other than `d`. -/
def NoClash (s : CacheState δ) (d : δ) (b : Nat) : Prop :=
  ∀ p ∈ s.queue, p.1 = b → ∀ c : BlockCache δ, s.arena[p.2]? = some c → c.blockDevice = d

theorem sim_empty (devices : δ → Nat → Block) : Sim (empty devices) ⟨devices, []⟩ :=
  ⟨Rep.empty devices, List.Forall₂.nil⟩

section Names

variable {s s' : CacheState δ} {l l' : List ((δ × Nat) × Nat)} {name : δ × Nat}

theorem Names.mono {h h' : (δ × Nat) × Nat} {v : δ → Nat → Block} (hn : s.Names h h')
    (hk : Keeps v s s') : s'.Names h h' := by
  obtain ⟨he, c, hc, hd, hb⟩ := hn
  obtain ⟨c', hc', hd', hb'⟩ := hk.arcs h.2 c hc
  exact ⟨he, c', hc', hd'.trans hd, hb'.trans hb⟩

variable [DecidableEq δ]

/-- A name is bound on both sides, to the same block, or on neither. -/
theorem lookup_cases (name : δ × Nat) (h : List.Forall₂ s.Names l l') :
    (∃ arc b, l.lookup name = some arc ∧ l'.lookup name = some b ∧ (name, arc) ∈ l ∧
      s.Names (name, arc) (name, b)) ∨ (l.lookup name = none ∧ l'.lookup name = none) := by
  induction h with
  | nil => exact Or.inr ⟨rfl, rfl⟩
  | @cons x x' l l' hx _ ih =>
    obtain ⟨n, arc⟩ := x
    obtain ⟨n', b⟩ := x'
    obtain rfl : n = n' := hx.1
    by_cases hn : name = n
    · subst hn
      exact Or.inl ⟨arc, b, List.lookup_cons_self, List.lookup_cons_self, List.mem_cons_self, hx⟩
    · have hb : (name == n) = false := beq_false_of_ne hn
      rw [List.lookup_cons, List.lookup_cons, hb]
      rcases ih with ⟨arc', b', hl, hl', hmem, hnames⟩ | hnone
      · exact Or.inl ⟨arc', b', hl, hl', List.mem_cons_of_mem _ hmem, hnames⟩
      · exact Or.inr hnone

theorem forall₂_eraseP (h : List.Forall₂ s.Names l l') :
    List.Forall₂ s.Names (l.eraseP fun x => x.1 = name) (l'.eraseP fun x => x.1 = name) := by
  induction h with
  | nil => exact List.Forall₂.nil
  | @cons x x' l l' hx hl ih =>
    by_cases hn : x.1 = name
    · rw [List.eraseP_cons_of_pos (by simpa using hn),
        List.eraseP_cons_of_pos (by simpa [hx.1] using hn)]
      exact hl
    · rw [List.eraseP_cons_of_neg (by simpa using hn),
        List.eraseP_cons_of_neg (by simpa [hx.1] using hn)]
      exact List.Forall₂.cons hx ih

end Names

section Step

variable {s : CacheState δ} {a : Store δ} {d : δ}

/-- A handle of the store has a cached block with the content of the store. -/
theorem Sim.deref {name : δ × Nat} {arc b : Nat} (h : Sim s a) (hmem : (name, arc) ∈ s.handles)
    (hn : s.Names (name, arc) (name, b)) :
    ∃ p ∈ s.queue, p.2 = arc ∧ p.1 = b ∧ ∃ c : BlockCache δ, s.arena[arc]? = some c ∧
      c.blockDevice = name.1 ∧ c.cache = a.content name.1 b := by
  obtain ⟨p, hp, harc⟩ := List.mem_map.mp (h.rep.handles _ hmem)
  simp only at harc
  obtain ⟨_, c, hc, hd, hb⟩ := hn
  simp only at hc hd hb
  obtain ⟨c', hc', hb', hv, _⟩ := h.rep.cached p hp
  rw [harc, hc] at hc'
  cases hc'
  refine ⟨p, hp, harc, hb'.symm.trans hb, c, hc, hd, ?_⟩
  rw [hv, ← hb', hb, hd]

variable [DecidableEq δ]

/-- What `get_block_cache` does to the simulation. -/
theorem Sim.get (name : Nat) {b : Nat} (h : Sim s a) (hclash : s.NoClash d b) :
    (∃ s', (step d (.get name b)).run s = some ([], s') ∧
      Sim s' { a with handles := ((d, name), b) :: a.handles } ∧
      ((∃ p ∈ s.queue, p.1 = b) ∨
        (s.queue.length = blockCacheMaxNum → ∃ p ∈ s.queue, p.2 ∉ s.handles.map Prod.snd))) ∨
    ((∀ p ∈ s.queue, p.1 ≠ b) ∧ s.queue.length = blockCacheMaxNum ∧
      (∀ p ∈ s.queue, p.2 ∈ s.handles.map Prod.snd) ∧ (step d (.get name b)).run s = none) := by
  have hstep : (step d (.get name b)).run s = ((getBlockCache b d).run s).bind fun r =>
      some ([], { r.2 with handles := ((d, name), r.1) :: r.2.handles }) := by
    simp only [step, takeHandle, Comp.run_bind, Comp.run_modify, Comp.run_pure]
    cases (getBlockCache b d).run s <;> rfl
  have hadd : ∀ s' arc, Rep a.content s' → List.Forall₂ s'.Names s'.handles a.handles →
      (∃ c : BlockCache δ, s'.arena[arc]? = some c ∧ c.blockDevice = d) → (b, arc) ∈ s'.queue →
      Sim { s' with handles := ((d, name), arc) :: s'.handles }
        { a with handles := ((d, name), b) :: a.handles } := by
    rintro s' arc hrep hnames ⟨c, hc, hd⟩ hmem
    obtain ⟨c', hc', hb', _⟩ := hrep.cached _ hmem
    simp only at hc' hb'
    rw [hc] at hc'
    cases hc'
    refine ⟨⟨hrep.ids, hrep.size, hrep.cached, hrep.uncached, ?_⟩,
      List.Forall₂.cons ⟨rfl, c, hc, hd, hb'⟩ hnames⟩
    intro x hx
    rw [List.mem_cons] at hx
    rcases hx with rfl | hx
    · exact List.mem_map.mpr ⟨_, hmem, rfl⟩
    · exact hrep.handles x hx
  rcases getBlockCache_run h.rep b d with ⟨p, hp, hb, hrun⟩ |
    ⟨_, s', arc, c, hrun, hrep, hkeep, _, hmem, hc, hd, hfree⟩ | ⟨hmiss, hfull, huse, hrun⟩
  · left
    obtain ⟨c, hc, _⟩ := h.rep.cached p hp
    refine ⟨_, by rw [hstep, hrun, Option.bind_some], hadd s p.2 h.rep h.handles ?_ ?_,
      Or.inl ⟨p, hp, hb⟩⟩
    · exact ⟨c, hc, hclash p hp hb c hc⟩
    · rw [← hb]
      exact hp
  · left
    refine ⟨_, by rw [hstep, hrun, Option.bind_some], hadd s' arc hrep ?_ ⟨c, hc, hd⟩ hmem,
      Or.inr hfree⟩
    rw [hkeep.handles]
    exact h.handles.imp fun _ _ hn => hn.mono hkeep
  · right
    exact ⟨hmiss, hfull, huse, by rw [hstep, hrun, Option.bind_none]⟩

/-- A cached block that a handle is for is changed: the content changes at that block. -/
theorem Sim.assign (h : Sim s a) {p : Nat × Nat} {c : BlockCache δ} (hp : p ∈ s.queue)
    (hc : s.arena[p.2]? = some c) (new : Block) :
    Sim { s with arena := s.arena.set p.2 { c with cache := new, modified := true } }
      { a with content := writeBlock c.blockDevice p.1 new a.content } := by
  refine ⟨h.rep.assign hp hc new, h.handles.imp fun x x' hx => ?_⟩
  obtain ⟨he, c₁, hc₁, hd₁, hb₁⟩ := hx
  have hlt : p.2 < s.arena.length := (List.getElem?_eq_some_iff.mp hc).1
  by_cases harc : p.2 = x.2
  · rw [← harc, hc] at hc₁
    cases hc₁
    refine ⟨he, { c with cache := new, modified := true }, ?_, hd₁, hb₁⟩
    simp only
    rw [← harc]
    exact List.getElem?_set_self hlt
  · refine ⟨he, c₁, ?_, hd₁, hb₁⟩
    simp only
    rw [List.getElem?_set_ne harc]
    exact hc₁

/-- **One operation.** The cache and the store see the same bytes, or both panic; or the cache panics
because every entry of a full queue is in use. -/
theorem step_sim (h : Sim s a) (d : δ) (op : CacheOp)
    (hclash : ∀ name b, op = .get name b → s.NoClash d b) :
    (∃ r s' a', (step d op).run s = some (r, s') ∧ (Store.step d op).run a = some (r, a') ∧
      Sim s' a') ∨
    ((step d op).run s = none ∧ (Store.step d op).run a = none) ∨
    (∃ name b, op = .get name b ∧ (∀ p ∈ s.queue, p.1 ≠ b) ∧ s.queue.length = blockCacheMaxNum ∧
      (∀ p ∈ s.queue, p.2 ∈ s.handles.map Prod.snd) ∧ (step d op).run s = none) := by
  cases op with
  | get name b =>
    rcases Sim.get name h (hclash name b rfl) with ⟨s', hrun, hsim, _⟩ | hfull
    · exact Or.inl ⟨[], s', _, hrun, rfl, hsim⟩
    · exact Or.inr (Or.inr ⟨name, b, rfl, hfull⟩)
  | read name offset size =>
    rcases lookup_cases (d, name) h.handles with
      ⟨arc, b, hl, hl', hmem, hn⟩ | ⟨hl, hl'⟩
    · obtain ⟨p, hp, _, _, c, hc, _, hcache⟩ := h.deref hmem hn
      by_cases hfit : offset + size ≤ blockSz ∧ offset < blockSz
      · left
        refine ⟨c.cache.slice offset size, s, a, ?_, ?_, h⟩
        · simp only [step, read, lookup, CacheState.deref, Comp.run_bind, Comp.run_get,
            Option.bind_some, hl, Comp.unwrap, Comp.run_pure, hc, Comp.assert, if_pos hfit]
        · rw [Store.run_read, hl', Option.bind_some, if_pos hfit, hcache]
      · right; left
        refine ⟨?_, ?_⟩
        · simp only [step, read, lookup, CacheState.deref, Comp.run_bind, Comp.run_get,
            Option.bind_some, hl, Comp.unwrap, Comp.run_pure, hc, Comp.assert, if_neg hfit,
            Comp.run_panic, Option.bind_none]
        · rw [Store.run_read, hl', Option.bind_some, if_neg hfit]
    · right; left
      refine ⟨?_, ?_⟩
      · simp only [step, read, lookup, Comp.run_bind, Comp.run_get, Option.bind_some, hl,
          Comp.unwrap, Comp.run_panic, Option.bind_none]
      · rw [Store.run_read, hl', Option.bind_none]
  | modify name offset size f =>
    rcases lookup_cases (d, name) h.handles with
      ⟨arc, b, hl, hl', hmem, hn⟩ | ⟨hl, hl'⟩
    · obtain ⟨p, hp, rfl, rfl, c, hc, hd, hcache⟩ := h.deref hmem hn
      simp only at hd hcache
      by_cases hfit : offset + size ≤ blockSz ∧ offset < blockSz
      · left
        obtain ⟨new, hnew⟩ : ∃ new, new = c.cache.splice offset
            ((f (c.cache.slice offset size)).take size) := ⟨_, rfl⟩
        have hsim := h.assign hp hc new
        rw [hd] at hsim
        refine ⟨c.cache.slice offset size, _,
          { a with content := writeBlock d p.1 new a.content }, ?_, ?_, hsim⟩
        · simp only [step, CacheState.modify, lookup, CacheState.deref, CacheState.assign,
            Comp.run_bind, Comp.run_get, Option.bind_some, hl, Comp.unwrap, Comp.run_pure, hc,
            Comp.assert, if_pos hfit, Comp.run_modify, hnew, hd]
        · rw [Store.run_modify, hl', Option.bind_some, if_pos hfit, hnew, hcache]
      · right; left
        refine ⟨?_, ?_⟩
        · simp only [step, CacheState.modify, lookup, CacheState.deref, Comp.run_bind, Comp.run_get,
            Option.bind_some, hl, Comp.unwrap, Comp.run_pure, hc, Comp.assert, if_neg hfit,
            Comp.run_panic, Option.bind_none]
        · rw [Store.run_modify, hl', Option.bind_some, if_neg hfit]
    · right; left
      refine ⟨?_, ?_⟩
      · simp only [step, CacheState.modify, lookup, Comp.run_bind, Comp.run_get, Option.bind_some,
          hl, Comp.unwrap, Comp.run_panic, Option.bind_none]
      · rw [Store.run_modify, hl', Option.bind_none]
  | drop name =>
    rcases lookup_cases (d, name) h.handles with
      ⟨arc, b, hl, hl', hmem, hn⟩ | ⟨hl, hl'⟩
    · left
      refine ⟨[], { s with handles := s.handles.eraseP fun x => x.1 = (d, name) },
        { a with handles := a.handles.eraseP fun x => x.1 = (d, name) }, ?_, ?_,
        ⟨h.rep.fewerHandles List.eraseP_subset, forall₂_eraseP h.handles⟩⟩
      · simp only [step, dropHandle, lookup, Comp.run_bind, Comp.run_get, Option.bind_some, hl,
          Comp.unwrap, Comp.run_pure, Comp.run_modify]
        have hdrop := dropArc_run
          (s := { s with handles := s.handles.eraseP fun x => x.1 = (d, name) })
          (h.rep.handles _ hmem)
        rw [hdrop, Option.bind_some]
      · rw [Store.run_drop, hl', Option.bind_some]
    · right; left
      refine ⟨?_, ?_⟩
      · simp only [step, dropHandle, lookup, Comp.run_bind, Comp.run_get, Option.bind_some, hl,
          Comp.unwrap, Comp.run_panic, Option.bind_none]
      · simp only [Store.step, Store.lookup, Comp.run_bind, Comp.run_get, Option.bind_some, hl',
          Comp.unwrap, Comp.run_panic, Option.bind_none]
  | syncAll =>
    left
    obtain ⟨s', hrun, hrep, hkeep, _, _⟩ := blockCacheSyncAll_run h.rep
    refine ⟨[], s', a, ?_, rfl, hrep, ?_⟩
    · simp only [step, Comp.run_bind, hrun, Option.bind_some, Comp.run_pure]
    · rw [hkeep.handles]
      exact h.handles.imp fun _ _ hn => hn.mono hkeep

end Step

/-! ## Runs -/

/-- `P` holds of every operation of a run, and of the state before it. -/
def Along [DecidableEq δ] (P : CacheState δ → δ → CacheOp → Prop) :
    List (δ × CacheOp) → CacheState δ → Prop
  | [], _ => True
  | (d, op) :: ops, s => P s d op ∧ ∀ r s', (step d op).run s = some (r, s') → Along P ops s'

/-- When a block is requested that is not cached, fewer handles are alive than the cache has
entries. -/
def HasRoom (s : CacheState δ) (_ : δ) (op : CacheOp) : Prop :=
  ∀ name b, op = .get name b → (∀ p ∈ s.queue, p.1 ≠ b) → s.handles.length < blockCacheMaxNum

/-- What a state of the cache of one device promises when the blocks have the contents `v`. -/
structure Transparent (v : Nat → Block) (s : CacheState Unit) : Prop where
  current : ∀ b, s.current () b = v b
  ids : (s.queue.map Prod.fst).Nodup
  size : s.queue.length ≤ blockCacheMaxNum
  alive : ∀ h ∈ s.handles, ∃ p ∈ s.queue, p.2 = h.2
  synced : ∃ s', blockCacheSyncAll.run s = some ((), s') ∧ s'.devices () = v

section OneDevice

variable {s : CacheState Unit} {a : Store Unit}

theorem Sim.transparent (h : Sim s a) : Transparent (a.content ()) s := by
  obtain ⟨s', hrun, _, _, _, hdev⟩ := blockCacheSyncAll_run h.rep
  refine ⟨fun b => h.rep.current_eq () b, h.rep.ids, h.rep.size, ?_, s', hrun, by rw [hdev]⟩
  intro x hx
  exact List.mem_map.mp (h.rep.handles x hx)

theorem not_full_of_hasRoom (name : Nat) {b : Nat} {v : Unit → Nat → Block} (h : Rep v s)
    (hroom : s.HasRoom () (.get name b)) (hmiss : ∀ p ∈ s.queue, p.1 ≠ b)
    (hfull : s.queue.length = blockCacheMaxNum) :
    ¬ ∀ p ∈ s.queue, p.2 ∈ s.handles.map Prod.snd := by
  intro huse
  have hsub : s.queue.map Prod.snd ⊆ s.handles.map Prod.snd := by
    intro arc harc
    obtain ⟨p, hp, rfl⟩ := List.mem_map.mp harc
    exact huse p hp
  have hle := (List.subperm_of_subset h.arcs_nodup hsub).length_le
  have hlt := hroom name b rfl hmiss
  rw [List.length_map, List.length_map] at hle
  omega

theorem steps_sim (h : Sim s a) {ops : List (Unit × CacheOp)} (hroom : Along HasRoom ops s) :
    (∃ rs s' a', (steps ops).run s = some (rs, s') ∧ (Store.steps ops).run a = some (rs, a') ∧
      Sim s' a') ∨ ((steps ops).run s = none ∧ (Store.steps ops).run a = none) := by
  induction ops generalizing s a with
  | nil => exact Or.inl ⟨[], s, a, rfl, rfl, h⟩
  | cons x ops ih =>
    obtain ⟨⟨⟩, op⟩ := x
    obtain ⟨hop, hrest⟩ := hroom
    rcases step_sim h () op (fun _ _ _ _ _ _ _ _ => rfl) with
      ⟨r, s', a', hrun, hrun', hsim⟩ | ⟨hrun, hrun'⟩ | ⟨name, b, rfl, hmiss, hfull, huse, _⟩
    · rcases ih hsim (hrest r s' hrun) with ⟨rs, s'', a'', hs, ha, hsim'⟩ | ⟨hs, ha⟩
      · refine Or.inl ⟨r :: rs, s'', a'', ?_, ?_, hsim'⟩
        · rw [steps, Comp.run_bind, hrun, Option.bind_some, Comp.run_bind, hs, Option.bind_some,
            Comp.run_pure]
        · rw [Store.steps, Comp.run_bind, hrun', Option.bind_some, Comp.run_bind, ha,
            Option.bind_some, Comp.run_pure]
      · refine Or.inr ⟨?_, ?_⟩
        · rw [steps, Comp.run_bind, hrun, Option.bind_some, Comp.run_bind, hs, Option.bind_none]
        · rw [Store.steps, Comp.run_bind, hrun', Option.bind_some, Comp.run_bind, ha,
            Option.bind_none]
    · refine Or.inr ⟨?_, ?_⟩
      · rw [steps, Comp.run_bind, hrun, Option.bind_none]
      · rw [Store.steps, Comp.run_bind, hrun', Option.bind_none]
    · exact absurd huse (not_full_of_hasRoom _ h.rep hop hmiss hfull)

/-- **The cache of one device.** In every run that starts with an empty cache and has room whenever a
block is loaded, the callers see the bytes of a plain store of blocks, and the cache panics only where
the store does: on a handle nobody holds or bytes outside a block. The queue holds a block once and no
more than sixteen blocks, live handles are for blocks in the queue, and syncing brings every block to
the device. -/
theorem cache_transparent (device : Nat → Block) (ops : List (Unit × CacheOp))
    (hroom : Along HasRoom ops (empty fun _ => device)) :
    (∃ rs s a, (steps ops).run (empty fun _ => device) = some (rs, s) ∧
      (Store.steps ops).run ⟨fun _ => device, []⟩ = some (rs, a) ∧ Transparent (a.content ()) s) ∨
    ((steps ops).run (empty fun _ => device) = none ∧
      (Store.steps ops).run ⟨fun _ => device, []⟩ = none) := by
  rcases steps_sim (sim_empty fun _ => device) hroom with ⟨rs, s, a, hs, ha, hsim⟩ | hnone
  · exact Or.inl ⟨rs, s, a, hs, ha, hsim.transparent⟩
  · exact Or.inr hnone

/-- A block is taken, changed and dropped. -/
theorem cache_transparent_one : ∃ rs s a,
    (steps [((), .get 0 7), ((), .modify 0 4 2 fun _ => [1, 2]), ((), .drop 0)]).run
      (empty fun _ _ => Bytes.zero blockSz) = some (rs, s) ∧
    (Store.steps [((), .get 0 7), ((), .modify 0 4 2 fun _ => [1, 2]), ((), .drop 0)]).run
      ⟨fun _ _ => Bytes.zero blockSz, []⟩ = some (rs, a) ∧ Transparent (a.content ()) s := by
  have hroom : Along HasRoom
      [((), .get 0 7), ((), .modify 0 4 2 fun _ => [1, 2]), ((), .drop 0)]
      (empty fun _ _ => Bytes.zero blockSz) := by
    refine ⟨?_, fun _ s _ => ⟨?_, fun _ s _ => ⟨?_, fun _ _ _ => trivial⟩⟩⟩
    · intro _ _ _ _
      decide
    · intro _ _ hc
      cases hc
    · intro _ _ hc
      cases hc
  rcases cache_transparent (fun _ => Bytes.zero blockSz) _ hroom with h | h
  · exact h
  · exact absurd h.2 (by decide)

end OneDevice

end CacheState

end RCore.EasyFs
