import RCore.Task.Verify.Table

/-!
# The process tree

`TreeOk` is the invariant of the process tree: every task but `INITPROC` is in the list of children of
the task its parent link points to, and in no other; a zombie has no children. `fork` adds a leaf,
`exit` hangs the children of a task below `INITPROC`, and collecting a zombie takes a leaf away.
-/

namespace RCore.Task.Table

open RCore Mm

variable {B : BinaryHeap}

/-- **The invariant of the process tree** with `INITPROC` at `i`. -/
structure TreeOk (T : Table B) (i : Nat) : Prop where
  init : T.initproc = some i ∧ ∃ e, T.tasks i = some e ∧ e.taskStatus ≠ .zombie
  child : ∀ p e, T.tasks p = some e → ∀ c ∈ e.children,
    c ≠ i ∧ ∃ f, T.tasks c = some f ∧ f.parent = some p
  parent : ∀ c f, T.tasks c = some f → c ≠ i →
    ∃ p e, f.parent = some p ∧ T.tasks p = some e ∧ c ∈ e.children
  nodup : ∀ p e, T.tasks p = some e → e.children.Nodup
  leaf : ∀ a e, T.tasks a = some e → e.taskStatus = .zombie → e.children = []

/-- The tasks `cs` become children of the task at `i`. -/
def adopt (T : Table B) (i : Nat) (cs : List Nat) : Table B :=
  { T with tasks := fun x =>
      if x ∈ cs then (T.tasks x).map fun f => { f with parent := some i }
      else if x = i then (T.tasks x).map fun f => { f with children := f.children ++ cs }
      else T.tasks x }

/-- The task `e` at `a` exits. -/
def exit (T : Table B) (i a : Nat) (e : Entry) (exitCode : Int32) : Table B :=
  { (T.adopt i e.children).put a { e with taskStatus := .zombie, exitCode, children := [] } with
    current := none }

/-- The task `e` at `a` forks: the child `f` gets the next address. -/
def spawn (T : Table B) (a : Nat) (e f : Entry) : Table B :=
  { (T.put T.next f).put a { e with children := e.children ++ [T.next] } with
    pids := T.pids.alloc.2
    next := T.next + 1 }

/-- The task `e` at `a` collects its child `f` at `c`. -/
def reap (T : Table B) (a : Nat) (e : Entry) (children : List Nat) (c : Nat) (f : Entry) : Table B :=
  { (T.put a { e with children := children }).erase c with
    pids := { T.pids with recycled := f.pid :: T.pids.recycled } }

variable {T : Table B} {i a c : Nat} {e f : Entry}

/-! ## The entries of the new tables -/

section Adopt

variable {cs : List Nat}

theorem adopt_child (hc : c ∈ cs) :
    (T.adopt i cs).tasks c = (T.tasks c).map fun f => { f with parent := some i } := if_pos hc

theorem adopt_init (hi : i ∉ cs) :
    (T.adopt i cs).tasks i = (T.tasks i).map fun f => { f with children := f.children ++ cs } := by
  show (if i ∈ cs then _ else if i = i then _ else _) = _
  rw [if_neg hi, if_pos rfl]

theorem adopt_other (hc : c ∉ cs) (hci : c ≠ i) : (T.adopt i cs).tasks c = T.tasks c := by
  show (if c ∈ cs then _ else if c = i then _ else _) = _
  rw [if_neg hc, if_neg hci]

theorem adopt_none (h : T.tasks c = none) : (T.adopt i cs).tasks c = none := by
  simp only [adopt, h, Option.map_none, ite_self]

/-- Adoption changes parents and children, and nothing else of a task. -/
theorem adopt_some (hf : T.tasks c = some f) :
    ∃ parent children, (T.adopt i cs).tasks c = some { f with parent, children } := by
  simp only [adopt, hf, Option.map_some]
  split
  · exact ⟨some i, f.children, rfl⟩
  · split
    · exact ⟨f.parent, f.children ++ cs, rfl⟩
    · exact ⟨f.parent, f.children, rfl⟩

end Adopt

section Exit

variable {exitCode : Int32} {p : Nat} {g ei : Entry}

/-- The parent of a task, after an exit. -/
theorem exit_parent (he : T.tasks a = some e) (hself : a ∉ e.children) (hf : T.tasks c = some f) :
    ∃ f', (T.exit i a e exitCode).tasks c = some f' ∧ (c ∈ e.children → f'.parent = some i) ∧
      (c ∉ e.children → f'.parent = f.parent) := by
  by_cases hca : c = a
  · subst hca
    rw [he] at hf
    cases hf
    exact ⟨_, put_same _ c _, fun hc => absurd hc hself, fun _ => rfl⟩
  · have htask : (T.exit i a e exitCode).tasks c = (T.adopt i e.children).tasks c := put_ne hca
    rw [htask]
    by_cases hc : c ∈ e.children
    · rw [adopt_child hc, hf]
      exact ⟨_, rfl, fun _ => rfl, fun hn => absurd hc hn⟩
    · by_cases hci : c = i
      · subst hci
        rw [adopt_init hc, hf]
        exact ⟨_, rfl, fun hc' => absurd hc' hc, fun _ => rfl⟩
      · rw [adopt_other hc hci]
        exact ⟨f, hf, fun hc' => absurd hc' hc, fun _ => rfl⟩

/-- The children of a task, after an exit. -/
theorem exit_children (hei : T.tasks i = some ei) (hi : i ∉ e.children)
    (hg : (T.exit i a e exitCode).tasks p = some g) : (p = a ∧ g.children = []) ∨
      (p = i ∧ g.children = ei.children ++ e.children ∧ g.taskStatus = ei.taskStatus) ∨
      (p ≠ a ∧ ∃ g₀, T.tasks p = some g₀ ∧ g.children = g₀.children ∧ g.taskStatus = g₀.taskStatus) := by
  rcases put_some hg with ⟨hpa, rfl⟩ | ⟨hpa, hg⟩
  · exact Or.inl ⟨hpa, rfl⟩
  · refine Or.inr ?_
    by_cases hpi : p = i
    · subst hpi
      rw [adopt_init hi, hei] at hg
      cases hg
      exact Or.inl ⟨rfl, rfl, rfl⟩
    · refine Or.inr ⟨hpa, ?_⟩
      by_cases hpc : p ∈ e.children
      · rw [adopt_child hpc] at hg
        obtain ⟨g₀, hg₀, rfl⟩ := Option.map_eq_some_iff.mp hg
        exact ⟨g₀, hg₀, rfl, rfl⟩
      · rw [adopt_other hpc hpi] at hg
        exact ⟨g, hg, rfl, rfl⟩

end Exit

section Spawn

variable {b : Nat} {g : Entry}

theorem spawn_new (hne : T.next ≠ a) : (T.spawn a e f).tasks T.next = some f :=
  (put_ne hne).trans (put_same T T.next f)

/-- What the tasks of the new table come from. -/
theorem spawn_some (hg : (T.spawn a e f).tasks b = some g) : (b = T.next ∧ g = f) ∨
    (b = a ∧ g = { e with children := e.children ++ [T.next] }) ∨ (b ≠ T.next ∧ b ≠ a ∧ T.tasks b = some g) := by
  rcases put_some hg with ⟨hba, rfl⟩ | ⟨hba, hg⟩
  · exact Or.inr (Or.inl ⟨hba, rfl⟩)
  · rcases put_some hg with ⟨hb, rfl⟩ | ⟨hb, hg⟩
    · exact Or.inl ⟨hb, rfl⟩
    · exact Or.inr (Or.inr ⟨hb, hba, hg⟩)

/-- What becomes of the tasks of the old table. -/
theorem spawn_kept (hfresh : T.tasks T.next = none) (he : T.tasks a = some e) (hg : T.tasks b = some g) :
    ∃ g', (T.spawn a e f).tasks b = some g' ∧ g'.parent = g.parent ∧ g'.taskStatus = g.taskStatus ∧
      g.children ⊆ g'.children := by
  by_cases hba : b = a
  · subst hba
    rw [he] at hg
    cases hg
    exact ⟨_, put_same _ b _, rfl, rfl, List.subset_append_left _ _⟩
  · have hold : (T.spawn a e f).tasks b = T.tasks b := (put_ne hba).trans (put_ne (ne_of_none hfresh hg))
    exact ⟨g, hold.trans hg, rfl, rfl, List.Subset.refl _⟩

end Spawn

section Reap

variable {cs : List Nat} {x : Nat} {g : Entry}

/-- What the tasks of the new table come from. -/
theorem reap_some (hg : (T.reap a e cs c f).tasks x = some g) :
    x ≠ c ∧ ((x = a ∧ g = { e with children := cs }) ∨ (x ≠ a ∧ T.tasks x = some g)) := by
  obtain ⟨hxc, hg⟩ := erase_some hg
  exact ⟨hxc, put_some hg⟩

/-- What becomes of the tasks of the old table. -/
theorem reap_kept (he : T.tasks a = some e) (hcs : ∀ x, x ∈ cs ↔ x ∈ e.children ∧ x ≠ c)
    (hg : T.tasks x = some g) (hxc : x ≠ c) : ∃ g', (T.reap a e cs c f).tasks x = some g' ∧
      g'.parent = g.parent ∧ g'.taskStatus = g.taskStatus ∧ ∀ y ∈ g.children, y ≠ c → y ∈ g'.children := by
  have htask : (T.reap a e cs c f).tasks x = (T.put a { e with children := cs }).tasks x := erase_ne hxc
  rw [htask]
  by_cases hxa : x = a
  · subst hxa
    rw [he] at hg
    cases hg
    exact ⟨_, put_same T x _, rfl, rfl, fun y hy hyc => (hcs y).mpr ⟨hy, hyc⟩⟩
  · exact ⟨g, (put_ne hxa).trans hg, rfl, rfl, fun y hy _ => hy⟩

end Reap

namespace TreeOk

/-- A task is in the list of its parent only. -/
theorem child_unique (h : T.TreeOk i) {p q : Nat} {e' : Entry} (hp : T.tasks p = some e)
    (hq : T.tasks q = some e') (hc : c ∈ e.children) (hc' : c ∈ e'.children) : p = q := by
  obtain ⟨_, f, hf, hfp⟩ := h.child p e hp c hc
  obtain ⟨_, g, hg, hgp⟩ := h.child q e' hq c hc'
  rw [hf] at hg
  cases hg
  rw [hfp] at hgp
  exact Option.some.inj hgp

/-- The tree depends on nothing else of the tasks. -/
theorem congr (h : T.TreeOk i) {T' : Table B} (hinit : T'.initproc = T.initproc)
    (hnone : ∀ a, T.tasks a = none → T'.tasks a = none)
    (hsome : ∀ a e, T.tasks a = some e → ∃ f, T'.tasks a = some f ∧ f.parent = e.parent ∧
      f.children = e.children ∧ (f.taskStatus = .zombie ↔ e.taskStatus = .zombie)) : T'.TreeOk i := by
  have hback : ∀ a f, T'.tasks a = some f → ∃ e, T.tasks a = some e ∧ f.parent = e.parent ∧
      f.children = e.children ∧ (f.taskStatus = .zombie ↔ e.taskStatus = .zombie) := by
    intro a f hf
    cases he : T.tasks a with
    | none =>
      rw [hnone a he] at hf
      cases hf
    | some e =>
      obtain ⟨f', hf', hsame⟩ := hsome a e he
      rw [hf] at hf'
      cases hf'
      exact ⟨e, rfl, hsame⟩
  refine ⟨⟨hinit.trans h.init.1, ?_⟩, ?_, ?_, ?_, ?_⟩
  · obtain ⟨e, he, hz⟩ := h.init.2
    obtain ⟨f, hf, _, _, hst⟩ := hsome i e he
    exact ⟨f, hf, fun hc => hz (hst.mp hc)⟩
  · intro p f hf c hc
    obtain ⟨e, he, _, hch, _⟩ := hback p f hf
    rw [hch] at hc
    obtain ⟨hci, g, hg, hgp⟩ := h.child p e he c hc
    obtain ⟨g', hg', hpar, _⟩ := hsome c g hg
    exact ⟨hci, g', hg', hpar.trans hgp⟩
  · intro c f hf hci
    obtain ⟨e, he, hpar, _⟩ := hback c f hf
    obtain ⟨p, g, hp, hg, hmem⟩ := h.parent c e he hci
    obtain ⟨g', hg', _, hch, _⟩ := hsome p g hg
    exact ⟨p, g', hpar.trans hp, hg', by rw [hch]; exact hmem⟩
  · intro p f hf
    obtain ⟨e, he, _, hch, _⟩ := hback p f hf
    rw [hch]
    exact h.nodup p e he
  · intro b f hf hz
    obtain ⟨e, he, _, hch, hst⟩ := hback b f hf
    rw [hch]
    exact h.leaf b e he (hst.mp hz)

/-- A task is replaced by one that is the same to the tree. -/
theorem replace (h : T.TreeOk i) {T' : Table B} (hinit : T'.initproc = T.initproc)
    (htasks : T'.tasks = (T.put a f).tasks) (he : T.tasks a = some e) (hp : f.parent = e.parent)
    (hc : f.children = e.children) (hz : f.taskStatus = .zombie ↔ e.taskStatus = .zombie) :
    T'.TreeOk i := by
  apply h.congr hinit
  · intro b hb
    rw [htasks, put_ne (ne_of_none hb he).symm]
    exact hb
  · intro b g hg
    rw [htasks]
    by_cases hb : b = a
    · subst hb
      rw [he] at hg
      cases hg
      exact ⟨f, put_same T b f, hp, hc, hz⟩
    · rw [put_ne hb]
      exact ⟨g, hg, rfl, rfl, Iff.rfl⟩

/-- A child without children comes in below a task that is not a zombie. -/
theorem spawn (h : T.TreeOk i) (hfresh : T.tasks T.next = none) (he : T.tasks a = some e)
    (hz : e.taskStatus ≠ .zombie) (hp : f.parent = some a) (hc : f.children = []) :
    (T.spawn a e f).TreeOk i := by
  have hnew : (T.spawn a e f).tasks T.next = some f := spawn_new (ne_of_none hfresh he).symm
  refine ⟨⟨h.init.1, ?_⟩, ?_, ?_, ?_, ?_⟩
  · obtain ⟨g, hg, hgz⟩ := h.init.2
    obtain ⟨g', hg', _, hst, _⟩ := spawn_kept hfresh he hg
    exact ⟨g', hg', by rw [hst]; exact hgz⟩
  · intro p g hg c hcm
    have hlist : ∀ g₀, T.tasks p = some g₀ → c ∈ g₀.children →
        c ≠ i ∧ ∃ f', (T.spawn a e f).tasks c = some f' ∧ f'.parent = some p := by
      intro g₀ hg₀ hc₀
      obtain ⟨hci, u, hu, hup⟩ := h.child p g₀ hg₀ c hc₀
      obtain ⟨u', hu', hpar, _⟩ := spawn_kept hfresh he hu
      exact ⟨hci, u', hu', hpar.trans hup⟩
    rcases spawn_some hg with ⟨rfl, rfl⟩ | ⟨rfl, rfl⟩ | ⟨_, _, hg₀⟩
    · rw [hc] at hcm
      cases hcm
    · rcases List.mem_append.mp hcm with hcm | hcm
      · exact hlist e he hcm
      · rw [List.mem_singleton] at hcm
        rw [hcm]
        obtain ⟨_, hi, _⟩ := h.init.2
        exact ⟨(ne_of_none hfresh hi).symm, f, hnew, hp⟩
    · exact hlist g hg₀ hcm
  · intro c g hg hci
    have hfind : ∀ g₀, T.tasks c = some g₀ → g.parent = g₀.parent →
        ∃ p u, g.parent = some p ∧ (T.spawn a e f).tasks p = some u ∧ c ∈ u.children := by
      intro g₀ hg₀ hpar
      obtain ⟨p, u, hup, hu, hmem⟩ := h.parent c g₀ hg₀ hci
      obtain ⟨u', hu', _, _, hsub⟩ := spawn_kept hfresh he hu
      exact ⟨p, u', hpar.trans hup, hu', hsub hmem⟩
    rcases spawn_some hg with ⟨rfl, rfl⟩ | ⟨rfl, rfl⟩ | ⟨_, _, hg₀⟩
    · exact ⟨a, _, hp, put_same _ a _, List.mem_append_right _ List.mem_cons_self⟩
    · exact hfind e he rfl
    · exact hfind g hg₀ rfl
  · intro p g hg
    rcases spawn_some hg with ⟨_, rfl⟩ | ⟨_, rfl⟩ | ⟨_, _, hg₀⟩
    · rw [hc]
      exact List.nodup_nil
    · refine List.nodup_append.mpr ⟨h.nodup a e he, List.nodup_singleton _, ?_⟩
      intro x hx y hy heq
      rw [List.mem_singleton] at hy
      obtain ⟨_, u, hu, _⟩ := h.child a e he x hx
      rw [heq, hy, hfresh] at hu
      cases hu
    · exact h.nodup p g hg₀
  · intro b g hg hgz
    rcases spawn_some hg with ⟨_, rfl⟩ | ⟨_, rfl⟩ | ⟨_, _, hg₀⟩
    · exact hc
    · exact absurd hgz hz
    · exact h.leaf b g hg₀ hgz

/-- **Exit.** The children of the task go to `INITPROC`. -/
theorem exit (h : T.TreeOk i) (he : T.tasks a = some e) (hai : i ≠ a) (hself : a ∉ e.children)
    (exitCode : Int32) : (T.exit i a e exitCode).TreeOk i := by
  obtain ⟨ei, hei, heiz⟩ := h.init.2
  have hi : i ∉ e.children := fun hc => (h.child a e he i hc).1 rfl
  have hti : (T.exit i a e exitCode).tasks i = some { ei with children := ei.children ++ e.children } := by
    refine (put_ne hai).trans ?_
    rw [adopt_init hi, hei]
    rfl
  refine ⟨⟨h.init.1, _, hti, heiz⟩, ?_, ?_, ?_, ?_⟩
  · intro p g hg c hc
    have hlist : ∀ q u, T.tasks q = some u → q ≠ a → c ∈ u.children →
        c ≠ i ∧ ∃ f', (T.exit i a e exitCode).tasks c = some f' ∧ f'.parent = some q := by
      intro q u hu hqa hcu
      obtain ⟨hci, f, hf, hfp⟩ := h.child q u hu c hcu
      obtain ⟨f', hf', _, hkeep⟩ := exit_parent he hself hf
      refine ⟨hci, f', hf', (hkeep ?_).trans hfp⟩
      exact fun hce => hqa (h.child_unique hu he hcu hce)
    rcases exit_children hei hi hg with ⟨_, hnil⟩ | ⟨rfl, hcs, _⟩ | ⟨hpa, g₀, hg₀, hcs, _⟩
    · rw [hnil] at hc
      cases hc
    · rw [hcs] at hc
      rcases List.mem_append.mp hc with hc | hc
      · exact hlist p ei hei hai hc
      · obtain ⟨hci, f, hf, _⟩ := h.child a e he c hc
        obtain ⟨f', hf', hnew, _⟩ := exit_parent he hself hf
        exact ⟨hci, f', hf', hnew hc⟩
    · rw [hcs] at hc
      exact hlist p g₀ hg₀ hpa hc
  · intro c g hg hci
    obtain ⟨f, hf⟩ : ∃ f, T.tasks c = some f := by
      rcases exit_children hei hi hg with ⟨rfl, _⟩ | ⟨hc, _⟩ | ⟨_, g₀, hg₀, _⟩
      · exact ⟨e, he⟩
      · exact absurd hc hci
      · exact ⟨g₀, hg₀⟩
    obtain ⟨f', hf', hnew, hkeep⟩ := exit_parent he hself hf
    rw [hg] at hf'
    cases hf'
    by_cases hc : c ∈ e.children
    · exact ⟨i, _, hnew hc, hti, List.mem_append_right _ hc⟩
    · obtain ⟨p, u, hup, hu, hmem⟩ := h.parent c f hf hci
      have hpa : p ≠ a := by
        rintro rfl
        rw [he] at hu
        cases hu
        exact hc hmem
      obtain ⟨u', hu', _⟩ := exit_parent he hself hu
      refine ⟨p, u', (hkeep hc).trans hup, hu', ?_⟩
      rcases exit_children hei hi hu' with ⟨hp, _⟩ | ⟨rfl, hcs, _⟩ | ⟨_, g₀, hg₀, hcs, _⟩
      · exact absurd hp hpa
      · rw [hei] at hu
        cases hu
        rw [hcs]
        exact List.mem_append_left _ hmem
      · rw [hu] at hg₀
        cases hg₀
        rw [hcs]
        exact hmem
  · intro p g hg
    rcases exit_children hei hi hg with ⟨_, hnil⟩ | ⟨_, hcs, _⟩ | ⟨_, g₀, hg₀, hcs, _⟩
    · rw [hnil]
      exact List.nodup_nil
    · rw [hcs]
      refine List.nodup_append.mpr ⟨h.nodup i ei hei, h.nodup a e he, ?_⟩
      intro x hx y hy heq
      rw [← heq] at hy
      exact hai (h.child_unique hei he hx hy)
    · rw [hcs]
      exact h.nodup p g₀ hg₀
  · intro p g hg hz
    rcases exit_children hei hi hg with ⟨_, hnil⟩ | ⟨_, _, hst⟩ | ⟨_, g₀, hg₀, hcs, hst⟩
    · exact hnil
    · rw [hst] at hz
      exact absurd hz heiz
    · rw [hst] at hz
      rw [hcs]
      exact h.leaf p g₀ hg₀ hz

/-- A zombie is taken out of the list of its parent and dropped. -/
theorem reap (h : T.TreeOk i) (he : T.tasks a = some e) (hf : T.tasks c = some f) (hca : c ≠ a)
    (hz : f.taskStatus = .zombie) {cs : List Nat} (hnd : cs.Nodup)
    (hcs : ∀ x, x ∈ cs ↔ x ∈ e.children ∧ x ≠ c) (hc : c ∈ e.children) :
    (T.reap a e cs c f).TreeOk i := by
  have hic : i ≠ c := fun hc' => (h.child a e he c hc).1 hc'.symm
  refine ⟨⟨h.init.1, ?_⟩, ?_, ?_, ?_, ?_⟩
  · obtain ⟨g, hg, hgz⟩ := h.init.2
    obtain ⟨g', hg', _, hst, _⟩ := reap_kept he hcs hg hic
    exact ⟨g', hg', by rw [hst]; exact hgz⟩
  · intro p g hg x hx
    have hlist : ∀ u, T.tasks p = some u → x ∈ u.children → x ≠ c →
        x ≠ i ∧ ∃ f', (T.reap a e cs c f).tasks x = some f' ∧ f'.parent = some p := by
      intro u hu hxu hxc
      obtain ⟨hxi, w, hw, hwp⟩ := h.child p u hu x hxu
      obtain ⟨w', hw', hpar, _⟩ := reap_kept he hcs hw hxc
      exact ⟨hxi, w', hw', hpar.trans hwp⟩
    obtain ⟨hpc, ⟨rfl, rfl⟩ | ⟨hpa, hg₀⟩⟩ := reap_some hg
    · obtain ⟨hxe, hxc⟩ := (hcs x).mp hx
      exact hlist e he hxe hxc
    · refine hlist g hg₀ hx ?_
      rintro rfl
      exact hpa (h.child_unique hg₀ he hx hc)
  · intro x g hg hxi
    obtain ⟨hxc, hg₀⟩ := reap_some hg
    obtain ⟨g₀, hg₀, hpar⟩ : ∃ g₀, T.tasks x = some g₀ ∧ g.parent = g₀.parent := by
      rcases hg₀ with ⟨rfl, rfl⟩ | ⟨_, hg₀⟩
      · exact ⟨e, he, rfl⟩
      · exact ⟨g, hg₀, rfl⟩
    obtain ⟨p, u, hup, hu, hmem⟩ := h.parent x g₀ hg₀ hxi
    have hpc : p ≠ c := by
      rintro rfl
      rw [hf] at hu
      cases hu
      rw [h.leaf _ f hf hz] at hmem
      cases hmem
    obtain ⟨u', hu', _, _, hsub⟩ := reap_kept he hcs hu hpc
    exact ⟨p, u', hpar.trans hup, hu', hsub x hmem hxc⟩
  · intro p g hg
    rcases (reap_some hg).2 with ⟨_, rfl⟩ | ⟨_, hg₀⟩
    · exact hnd
    · exact h.nodup p g hg₀
  · intro x g hg hgz
    rcases (reap_some hg).2 with ⟨rfl, rfl⟩ | ⟨_, hg₀⟩
    · have hnil := h.leaf _ e he hgz
      rw [hnil] at hc
      cases hc
    · exact h.leaf x g hg₀ hgz

end TreeOk

end RCore.Task.Table
