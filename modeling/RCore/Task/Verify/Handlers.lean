import RCore.Task.Verify.Traps

/-!
# Signal handlers and the program they interrupt

A delivery saves the trap context, and `sys_sigretrun` puts it back; the end of every system call then
stores the result of that call, which is 0, as `a0`. There is one place for the saved context, so that a
second delivery while a handler runs overwrites what the first has saved.
-/

namespace RCore.Task

open RCore Mm SignalFlags

namespace TrapSystem

variable {ok : TrapSystem → TrapOp → Prop} {s s' : TrapSystem} {op : TrapOp} {pid : Nat} {t : TaskInner}

/-! ## Invariants of tasks -/

/-- What every task has that is new and that every change of it keeps, every task has. -/
theorem Reached.task {P : TaskInner → Prop} (hs : Reached ok s) (ht : s.tasks pid = some t)
    (hnew : ∀ cx, P (.new cx)) (hfork : ∀ (t : TaskInner) kernelSp, P (t.fork kernelSp))
    (hkill : ∀ t flag, P t → P { t with signals := t.signals ||| flag })
    (hmove : ∀ s op pid t u, ok s op → s.current = some pid → s.tasks pid = some t → P t → Move op t u → P u) :
    P t := by
  induction hs generalizing pid t with
  | start p cx =>
    have ht' : (if pid = p then some (TaskInner.new cx) else none) = some t := ht
    split at ht'
    · cases ht'
      exact hnew cx
    · cases ht'
  | step op _ hok h ih =>
    rcases step_leaves _ op _ _ h pid t ht with ⟨t₀, hcur, ht₀, hm⟩ | hby
    · exact hmove _ op pid t₀ t hok hcur ht₀ (ih ht₀) hm
    · cases hby with
      | same ht₀ => exact ih ht₀
      | kill ht₀ flag => exact hkill _ flag (ih ht₀)
      | fork _ t₀ kernelSp => exact hfork t₀ kernelSp

theorem Reached.mono {ok' : TrapSystem → TrapOp → Prop} (h : ∀ s op, ok s op → ok' s op) (hs : Reached ok s) :
    Reached ok' s := by
  induction hs with
  | start pid cx => exact .start pid cx
  | step op _ hok hrun ih => exact .step op ih (h _ _ hok) hrun

/-- Steps one after the other, each of which satisfies `ok`. -/
def runs (ok : TrapSystem → TrapOp → Bool) : List TrapOp → TrapSystem → Option TrapSystem
  | [], s => some s
  | op :: ops, s => if ok s op then ((step op).run s).bind fun r => runs ok ops r.2 else none

theorem Reached.runs {ok : TrapSystem → TrapOp → Bool} (ops : List TrapOp) (hs : Reached (fun s op => ok s op = true) s)
    (h : runs ok ops s = some s') : Reached (fun s op => ok s op = true) s' := by
  induction ops generalizing s with
  | nil =>
    cases h
    exact hs
  | cons op ops ih =>
    rw [TrapSystem.runs] at h
    split at h
    · next hok =>
      obtain ⟨⟨_, s₁⟩, hrun, hrest⟩ := Option.bind_eq_some_iff.mp h
      exact ih (hs.step op hok hrun) hrest
    · cases h

/-- A task that runs alone. -/
def lone (cx : TrapContext) : TrapSystem := ⟨fun p => if p = 0 then some (.new cx) else none, none, []⟩

/-- A system call, with its signal phase. -/
def ecall (call : Syscall) : List TrapOp := [.trap (fun _ => 0) 0 0 (.userEnvCall call), .handleSignals, .pass]

/-- A run from a task that starts alone. -/
theorem exists_run (ok : TrapSystem → TrapOp → Bool) (P : TrapSystem → Bool) (ops : List TrapOp)
    (h : (runs ok ops (lone ⟨fun _ => 0, 0, 0, 0, 0, 0⟩)).any P = true) :
    ∃ s, Reached (fun s op => ok s op = true) s ∧ P s = true := by
  obtain ⟨s, hrun, hp⟩ := (Option.any_eq_true _ _).mp h
  exact ⟨s, (Reached.start 0 _).runs ops hrun, hp⟩

/-- The task after such a run. -/
theorem exists_task (ok : TrapSystem → TrapOp → Bool) (P : TaskInner → Bool) (ops : List TrapOp)
    (h : (runs ok ops (lone ⟨fun _ => 0, 0, 0, 0, 0, 0⟩)).any (fun s => (s.tasks 0).any P) = true) :
    ∃ s t, Reached (fun s op => ok s op = true) s ∧ s.tasks 0 = some t ∧ P t = true := by
  obtain ⟨s, hs, hp⟩ := exists_run ok _ ops h
  obtain ⟨t, ht, hp⟩ := (Option.any_eq_true _ _).mp hp
  exact ⟨s, t, hs, ht, hp⟩

/-! ## One handler -/

/-- What a log ends with: no handler, one that has been turned to, one that has made its `sigreturn`,
and the program that has been resumed after that. -/
inductive Phase where
  | program
  | handler (saved : TrapContext)
  | returned (saved : TrapContext)
  | back (saved resumed : TrapContext)

namespace Phase

/-- The next event. -/
def after : Phase → Event → Phase
  | _, .delivered _ saved => .handler saved
  | .handler saved, .sigreturned _ => .returned saved
  | _, .sigreturned _ => .program
  | .handler saved, .resumed _ => .handler saved
  | .returned saved, .resumed cx => .back saved cx
  | _, .resumed _ => .program

/-- What a log ends with. -/
def of (log : List Event) : Phase := log.foldl after .program

@[simp] theorem of_concat (log : List Event) (e : Event) : of (log ++ [e]) = (of log).after e := by
  rw [of, List.foldl_append]
  rfl

/-- A handler that has returned to its program without another delivery. -/
theorem of_back {sig : Nat} {c₀ c c₁ : TrapContext} (l₁ : List Event) {l₂ : List Event}
    (h₂ : ∀ e ∈ l₂, ∃ cx, e = .resumed cx) :
    of (l₁ ++ .delivered sig c₀ :: (l₂ ++ [.sigreturned c, .resumed c₁])) = .back c₀ c₁ := by
  have hrun : ∀ l : List Event, (∀ e ∈ l, ∃ cx, e = .resumed cx) → l.foldl after (.handler c₀) = .handler c₀ := by
    intro l hl
    induction l with
    | nil => rfl
    | cons e l ih =>
      obtain ⟨cx, rfl⟩ := hl e List.mem_cons_self
      exact ih fun e he => hl e (List.mem_cons_of_mem _ he)
  rw [of, List.foldl_append, List.foldl_cons, List.foldl_append]
  show [Event.sigreturned c, .resumed c₁].foldl after (l₂.foldl after (.handler c₀)) = _
  rw [hrun l₂ h₂]
  rfl

end Phase

/-- What a phase says about the task. -/
def Phase.Fits (t : TaskInner) : Phase → Prop
  | .handler saved => t.trapCtxBackup = some saved
  | .returned saved => t.trapCx = saved.setA0 0 ∧ (t.control = .signals ∨ t.control = .loop)
  | _ => True

/-- Every program has been resumed with the saved context, but for `a0`. -/
structure Restored (t : TaskInner) : Prop where
  fits : (Phase.of t.log).Fits t
  back : ∀ l, l <+: t.log → ∀ c₀ c₁, Phase.of l = .back c₀ c₁ → c₁ = c₀.setA0 0

theorem restored_of_nil {t : TaskInner} (h : t.log = []) : Restored t := by
  refine ⟨?_, fun l hl c₀ c₁ hof => ?_⟩
  · rw [h]
    trivial
  · rw [h, List.prefix_nil] at hl
    subst hl
    cases hof

/-- The log is as it was. -/
theorem Restored.of_log {u : TaskInner} (h : Restored t) (hlog : u.log = t.log)
    (hfits : (Phase.of t.log).Fits t → (Phase.of t.log).Fits u) : Restored u := by
  refine ⟨?_, ?_⟩
  · rw [hlog]
    exact hfits h.fits
  · rw [hlog]
    exact h.back

/-- There is one event more. -/
theorem Restored.of_concat {u : TaskInner} {e : Event} (h : Restored t) (hlog : u.log = t.log ++ [e])
    (hfits : ((Phase.of t.log).after e).Fits u)
    (hback : ∀ c₀ c₁, (Phase.of t.log).after e = .back c₀ c₁ → c₁ = c₀.setA0 0) : Restored u := by
  refine ⟨?_, fun l hl c₀ c₁ hof => ?_⟩
  · rw [hlog, Phase.of_concat]
    exact hfits
  · rw [hlog, List.prefix_concat_iff] at hl
    rcases hl with rfl | hl
    · rw [Phase.of_concat] at hof
      exact hback c₀ c₁ hof
    · exact h.back l hl c₀ c₁ hof

/-- A program is not resumed by a scan, and a handler that has returned is over. -/
theorem Restored.scanned {u : TaskInner} (h : Restored t) (hu : t.Scanned 0 u) :
    Restored { u with control := .loop } := by
  rcases hu.delivery with ⟨i, _, _, hturn⟩ | ⟨_, hst⟩
  · exact h.of_concat hturn.log hturn.backup fun _ _ hb => by cases hb
  · refine h.of_log hst.log fun hfits => ?_
    cases hphase : Phase.of t.log with
    | handler saved =>
      rw [hphase] at hfits
      exact hst.backup.trans hfits
    | returned saved =>
      rw [hphase] at hfits
      exact ⟨hst.trapCx.trans hfits.1, Or.inr rfl⟩
    | _ => trivial

/-- A step of a task that has not come to its signals since it last ran its program. -/
theorem Restored.early {u : TaskInner} (h : Restored t) (hc : t.control = .user ∨ t.control = .call)
    (hlog : u.log = t.log) (hb : u.trapCtxBackup = t.trapCtxBackup) : Restored u := by
  refine h.of_log hlog fun hfits => ?_
  cases hphase : Phase.of t.log with
  | handler saved =>
    rw [hphase] at hfits
    exact hb.trans hfits
  | returned saved =>
    rw [hphase] at hfits
    obtain ⟨_, hfit⟩ := hfits
    rcases hc with hc | hc
    · rw [hc] at hfit
      simp at hfit
    · rw [hc] at hfit
      simp at hfit
  | _ => trivial

theorem Restored.move {u : TaskInner} (h : Restored t) (hm : Move op t u) : Restored u := by
  cases hm with
  | trap hc _ cx flag mask actions _ => exact h.early (Or.inl hc) rfl rfl
  | sigreturn hc hb =>
    refine h.of_concat rfl ?_ fun c₀ c₁ hback => ?_
    · cases hphase : Phase.of t.log with
      | handler saved =>
        have hfits := h.fits
        rw [hphase] at hfits
        cases hb.symm.trans hfits
        exact ⟨rfl, Or.inl rfl⟩
      | _ => trivial
    · cases hphase : Phase.of t.log with
      | _ =>
        rw [hphase] at hback
        cases hback
  | wait hc => exact h
  | callReturns hc cx' => exact h.early (Or.inr hc) rfl rfl
  | handleSignals _ hscan => exact h.scanned hscan
  | pass _ _ _ hscan => exact h.scanned hscan
  | resume hc _ _ =>
    have hfits := h.fits
    refine h.of_concat rfl ?_ fun c₀ c₁ hback => ?_
    · cases hphase : Phase.of t.log with
      | handler saved =>
        rw [hphase] at hfits
        exact hfits
      | _ => trivial
    · cases hphase : Phase.of t.log with
      | returned saved =>
        rw [hphase] at hfits hback
        cases hback
        exact hfits.1
      | _ =>
        rw [hphase] at hback
        cases hback

theorem Reached.restored (hs : Reached ok s) (ht : s.tasks pid = some t) : Restored t :=
  hs.task ht (fun _ => restored_of_nil rfl) (fun _ _ => restored_of_nil rfl)
    (fun _ _ h => h.of_log rfl fun hf => by revert hf; exact id) fun _ _ _ _ _ _ _ _ h hm => h.move hm

/-- **What a program is resumed with after a handler.** -/
theorem sigreturn_restores_iff {sig : Nat} {c₀ c c₁ : TrapContext} {l₁ l₂ l₃ : List Event}
    (hs : Reached (fun _ _ => True) s) (ht : s.tasks pid = some t)
    (hlog : t.log = l₁ ++ .delivered sig c₀ :: (l₂ ++ [.sigreturned c, .resumed c₁]) ++ l₃)
    (h₂ : ∀ e ∈ l₂, ∃ cx, e = .resumed cx) :
    (c₁.x = c₀.x ∧ c₁.sstatus = c₀.sstatus ∧ c₁.sepc = c₀.sepc ↔ c₀.x 10 = 0) ∧
    (∀ i ≠ 10, c₁.x i = c₀.x i) ∧ c₁.sstatus = c₀.sstatus ∧ c₁.sepc = c₀.sepc := by
  have hpre : l₁ ++ .delivered sig c₀ :: (l₂ ++ [.sigreturned c, .resumed c₁]) <+: t.log := ⟨l₃, hlog.symm⟩
  have hc₁ : c₁ = c₀.setA0 0 := (hs.restored ht).back _ hpre c₀ c₁ (Phase.of_back l₁ h₂)
  subst hc₁
  have hrest : ∀ i ≠ 10, (c₀.setA0 0).x i = c₀.x i := fun i hi => Function.update_of_ne hi _ _
  refine ⟨⟨fun h => ?_, fun h => ⟨?_, rfl, rfl⟩⟩, hrest, rfl, rfl⟩
  · have h10 : (c₀.setA0 0).x 10 = c₀.x 10 := congrFun h.1 10
    rw [← h10]
    show Function.update c₀.x 10 0 10 = 0
    exact Function.update_self ..
  · show Function.update c₀.x 10 0 = c₀.x
    rw [← h, Function.update_eq_self]

/-- The kind of an event, and `a0`. -/
def brief : Event → Nat × Nat
  | .delivered _ cx => (0, cx.x 10)
  | .sigreturned cx => (1, cx.x 10)
  | .resumed cx => (2, cx.x 10)

theorem exists_resumed {e : Event} {v : Nat} (h : brief e = (2, v)) : ∃ cx, e = .resumed cx ∧ cx.x 10 = v := by
  cases e with
  | resumed cx => exact ⟨cx, rfl, (Prod.mk.inj h).2⟩
  | _ => cases h

/-- A program that unmasks a pending signal is interrupted when the old mask is in `a0`. -/
theorem exists_interrupted : ∃ s t sig c₀ c c₁ l₁ l₂, Reached (fun _ _ => True) s ∧ s.tasks 0 = some t ∧
    t.log = l₁ ++ .delivered sig c₀ :: (l₂ ++ [.sigreturned c, .resumed c₁]) ∧
    (∀ e ∈ l₂, ∃ cx, e = .resumed cx) ∧ c₀.x 10 = 1024 ∧ c₁.x 10 = 0 := by
  obtain ⟨s, t, hs, ht, hbrief⟩ := exists_task (fun _ _ => true)
    (fun t => t.log.map brief = [(2, 0), (2, 0), (2, 0), (0, 1024), (2, 10), (1, 0), (2, 0)])
    (.fetch 0 :: ecall (.sigprocmask 1024) ++ ecall (.sigaction 10 1 1 ⟨4096, 0⟩) ++
      ecall (.kill 0 10) ++ ecall (.sigprocmask 0) ++ ecall .sigreturn) (by decide +kernel)
  have hlog : t.log.map brief = [(2, 0), (2, 0), (2, 0)] ++ [(0, 1024), (2, 10), (1, 0), (2, 0)] :=
    of_decide_eq_true hbrief
  obtain ⟨l₁, l, hl, -, hrest⟩ := List.map_eq_append_iff.mp hlog
  obtain ⟨d, l, rfl, hd, hrest⟩ := List.map_eq_cons_iff.mp hrest
  obtain ⟨e, l, rfl, he, hrest⟩ := List.map_eq_cons_iff.mp hrest
  obtain ⟨r, l, rfl, hr, hrest⟩ := List.map_eq_cons_iff.mp hrest
  obtain ⟨e₁, l, rfl, he₁, hrest⟩ := List.map_eq_cons_iff.mp hrest
  cases List.map_eq_nil_iff.mp hrest
  obtain ⟨c₂, rfl, -⟩ := exists_resumed he
  obtain ⟨c₁, rfl, hc₁⟩ := exists_resumed he₁
  cases d with
  | delivered sig c₀ =>
    cases r with
    | sigreturned c =>
      refine ⟨s, t, sig, c₀, c, c₁, l₁, [.resumed c₂], hs.mono fun _ _ _ => trivial, ht, hl, ?_,
        (Prod.mk.inj hd).2, hc₁⟩
      intro e he
      exact ⟨c₂, List.mem_singleton.mp he⟩
    | _ => cases hr
  | _ => cases hd

/-- The other registers of such a program. -/
theorem sigreturn_restores_rest : ∃ c₀ c₁ : TrapContext, c₀.x 10 = 1024 ∧ (∀ i ≠ 10, c₁.x i = c₀.x i) ∧
    c₁.sstatus = c₀.sstatus ∧ c₁.sepc = c₀.sepc := by
  obtain ⟨s, t, sig, c₀, c, c₁, l₁, l₂, hs, ht, hlog, h₂, h10, -⟩ := exists_interrupted
  have h := sigreturn_restores_iff hs ht (hlog.trans (List.append_nil _).symm) h₂
  exact ⟨c₀, c₁, h10, h.2⟩

/-- It is resumed with another `a0`. -/
theorem sigreturn_clears_a0 : ∃ s t sig c₀ c c₁ l₁ l₂, Reached (fun _ _ => True) s ∧ s.tasks 0 = some t ∧
    t.log = l₁ ++ .delivered sig c₀ :: (l₂ ++ [.sigreturned c, .resumed c₁]) ∧
    (∀ e ∈ l₂, ∃ cx, e = .resumed cx) ∧ c₁.x ≠ c₀.x := by
  obtain ⟨s, t, sig, c₀, c, c₁, l₁, l₂, hs, ht, hlog, h₂, h₀, h₁⟩ := exists_interrupted
  refine ⟨s, t, sig, c₀, c, c₁, l₁, l₂, hs, ht, hlog, h₂, fun h => ?_⟩
  rw [congrFun h 10, h₀] at h₁
  exact absurd h₁ (by decide)

/-! ## Nested handlers -/

/-- The handlers that a log leaves without their `sigreturn`. -/
def activeHandlers (log : List Event) : Nat := log.foldl (fun n e => match e with
  | .delivered _ _ => n + 1
  | .sigreturned _ => n - 1
  | .resumed _ => n) 0

/-- The deliveries and `sigreturn`s of a log match, as the saved contexts of a stack do: each `sigreturn`
gives back, but for `a0`, what its delivery has saved, and that is what the program goes on with. -/
inductive Unwinds : List Event → List TrapContext → Prop
  | nil : Unwinds [] []
  | delivered {log : List Event} {saved : List TrapContext} (h : Unwinds log saved) (sig : Nat) (cx : TrapContext) :
      Unwinds (log ++ [.delivered sig cx]) (cx :: saved)
  | sigreturned {log : List Event} {saved : List TrapContext} {cx : TrapContext} (h : Unwinds log (cx :: saved))
      (a0 : Nat) : Unwinds (log ++ [.sigreturned (cx.setA0 a0)]) saved
  | resumed {log : List Event} {saved : List TrapContext} (h : Unwinds log saved) {cx : TrapContext}
      (hback : ∀ l c, log = l ++ [.sigreturned c] → cx = c) : Unwinds (log ++ [.resumed cx]) saved

theorem Unwinds.activeHandlers {log : List Event} {saved : List TrapContext} (h : Unwinds log saved) :
    activeHandlers log = saved.length := by
  induction h with
  | nil => rfl
  | delivered _ sig cx ih =>
    rw [TrapSystem.activeHandlers, List.foldl_append]
    exact congrArg (· + 1) ih
  | sigreturned _ a0 ih =>
    rw [TrapSystem.activeHandlers, List.foldl_append]
    exact congrArg (· - 1) ih
  | resumed _ _ ih =>
    rw [TrapSystem.activeHandlers, List.foldl_append]
    exact ih

/-- The deliveries to a task and its `sigreturn`s match, and `handling_sig` tells whether a handler runs. -/
def InOrder (t : TaskInner) : Prop := ∃ saved, Unwinds t.log saved ∧ (t.handlingSig = -1 ↔ saved = [])

/-- The task that runs. -/
def currentInner (s : TrapSystem) : Option TaskInner := s.current.bind s.tasks

/-- A `sigreturn` ends a handler. -/
def wellNested (s : TrapSystem) : TrapOp → Bool
  | .trap _ _ _ (.userEnvCall .sigreturn) => s.currentInner.all fun t => 0 < activeHandlers t.log
  | _ => true

/-- No signal is delivered to the program while a handler runs. -/
def single (s : TrapSystem) : TrapOp → Bool
  | .handleSignals => s.currentInner.all fun t => t.handlingSig = -1 ∨ ∀ i < 32, ¬t.Delivers 0 i
  | .pass => s.currentInner.all fun t =>
    t.frozen = false ∨ t.killed = true ∨ t.handlingSig = -1 ∨ ∀ i < 32, ¬t.Delivers 0 i
  | _ => true

/-- What one handler at a time keeps. -/
structure Lone (t : TaskInner) (saved : List TrapContext) : Prop where
  unwinds : Unwinds t.log saved
  handling : t.handlingSig = -1 ↔ saved = []
  backup : saved = [] ∨ ∃ cx, saved = [cx] ∧ t.trapCtxBackup = some cx
  last : ∀ l c, t.log = l ++ [.sigreturned c] → t.trapCx = c ∧ (t.control = .signals ∨ t.control = .loop)

theorem lone_of_nil {t : TaskInner} (h : t.log = []) (hsig : t.handlingSig = -1) : Lone t [] := by
  refine ⟨?_, iff_of_true hsig rfl, Or.inl rfl, fun l c hl => ?_⟩
  · rw [h]
    exact .nil
  · rw [h] at hl
    exact absurd hl.symm (List.append_ne_nil_of_right_ne_nil l (List.cons_ne_nil _ _))

/-- A step of a task that has not come to its signals since it last ran its program. -/
theorem Lone.early {saved : List TrapContext} {u : TaskInner} (h : Lone t saved)
    (hc : t.control = .user ∨ t.control = .call) (hlog : u.log = t.log) (hsig : u.handlingSig = t.handlingSig)
    (hb : u.trapCtxBackup = t.trapCtxBackup) : Lone u saved := by
  refine ⟨hlog ▸ h.unwinds, hsig ▸ h.handling, hb ▸ h.backup, fun l c hl => ?_⟩
  rw [hlog] at hl
  obtain ⟨_, hlast⟩ := h.last l c hl
  rcases hc with hc | hc
  · rw [hc] at hlast
    simp at hlast
  · rw [hc] at hlast
    simp at hlast

/-- A scan delivers a signal only if no handler runs. -/
theorem Lone.scanned {saved : List TrapContext} {u : TaskInner} (h : Lone t saved) (hu : t.Scanned 0 u)
    (hsingle : t.handlingSig = -1 ∨ ∀ i < 32, ¬t.Delivers 0 i) :
    ∃ saved', Lone { u with control := .loop } saved' := by
  rcases hu.delivery with ⟨i, hi, hd, hturn⟩ | ⟨_, hst⟩
  · have hsig : t.handlingSig = -1 := hsingle.resolve_right fun hno => hno i hi hd
    cases h.handling.mp hsig
    refine ⟨[t.trapCx], ?_, ?_, Or.inr ⟨_, rfl, hturn.backup⟩, fun l c hl => ?_⟩
    · show Unwinds u.log _
      rw [hturn.log]
      exact h.unwinds.delivered i t.trapCx
    · show u.handlingSig = -1 ↔ _
      rw [hturn.handlingSig]
      refine iff_of_false ?_ (List.cons_ne_nil _ _)
      omega
    · have hl' : u.log = _ := hl
      rw [hturn.log] at hl'
      cases (List.append_inj' hl' rfl).2
  · refine ⟨saved, ?_, ?_, ?_, fun l c hl => ?_⟩
    · show Unwinds u.log _
      rw [hst.log]
      exact h.unwinds
    · show u.handlingSig = -1 ↔ _
      rw [hst.handlingSig]
      exact h.handling
    · show saved = [] ∨ ∃ cx, saved = [cx] ∧ u.trapCtxBackup = some cx
      rw [hst.backup]
      exact h.backup
    · have hl' : u.log = _ := hl
      rw [hst.log] at hl'
      exact ⟨hst.trapCx.trans (h.last l c hl').1, Or.inr rfl⟩

theorem Lone.move {saved : List TrapContext} {u : TaskInner} (h : Lone t saved) (hm : Move op t u)
    (hcur : s.currentInner = some t) (hnest : s.wellNested op = true) (hsingle : s.single op = true) :
    ∃ saved', Lone u saved' := by
  cases hm with
  | trap hc _ cx flag mask actions _ => exact ⟨saved, h.early (Or.inl hc) rfl rfl rfl⟩
  | sigreturn hc hb =>
    have hact : 0 < activeHandlers t.log := by
      have hn : (s.currentInner.all fun t => decide (0 < activeHandlers t.log)) = true := hnest
      rw [hcur] at hn
      exact of_decide_eq_true hn
    rcases h.backup with rfl | ⟨cx, rfl, hcx⟩
    · rw [h.unwinds.activeHandlers] at hact
      exact absurd hact (Nat.lt_irrefl 0)
    · cases hb.symm.trans hcx
      refine ⟨[], h.unwinds.sigreturned 0, iff_of_true rfl rfl, Or.inl rfl, fun l c hl => ?_⟩
      cases (List.append_inj' hl rfl).2
      exact ⟨rfl, Or.inl rfl⟩
  | wait hc => exact ⟨saved, h⟩
  | callReturns hc cx' => exact ⟨saved, h.early (Or.inr hc) rfl rfl rfl⟩
  | handleSignals _ hscan =>
    rw [single, hcur] at hsingle
    exact h.scanned hscan (of_decide_eq_true hsingle)
  | pass _ hf hk hscan =>
    rw [single, hcur] at hsingle
    have hor := of_decide_eq_true hsingle
    rw [hf, hk] at hor
    simp only [Bool.true_eq_false, Bool.false_eq_true, false_or] at hor
    exact h.scanned hscan hor
  | resume hc _ _ =>
    refine ⟨saved, h.unwinds.resumed fun l c hl => (h.last l c hl).1, h.handling, h.backup, fun l c hl => ?_⟩
    cases (List.append_inj' hl rfl).2

/-- **One handler at a time unwinds.** -/
theorem handlers_unwind (hs : Reached (fun s op => (s.wellNested op && s.single op) = true) s)
    (ht : s.tasks pid = some t) : InOrder t := by
  have h : ∃ saved, Lone t saved := by
    refine hs.task (P := fun t => ∃ saved, Lone t saved) ht (fun _ => ⟨[], lone_of_nil rfl rfl⟩) (fun _ _ => ⟨[], lone_of_nil rfl rfl⟩) ?_ ?_
    · rintro t flag ⟨saved, h⟩
      exact ⟨saved, h.unwinds, h.handling, h.backup, h.last⟩
    · rintro s op pid t u hok hcur ht ⟨saved, h⟩ hm
      obtain ⟨hnest, hsingle⟩ := Bool.and_eq_true_iff.mp hok
      have hinner : s.currentInner = some t := by
        rw [currentInner, hcur]
        exact ht
      exact h.move hm hinner hnest hsingle
  obtain ⟨saved, h⟩ := h
  exact ⟨saved, h.unwinds, h.handling⟩

/-- A handler that runs and returns. -/
theorem handlers_unwind_run : ∃ t, InOrder t ∧ t.handlingSig = -1 ∧ t.log.length = 5 := by
  obtain ⟨s, t, hs, ht, hlast⟩ := exists_task (fun s op => s.wellNested op && s.single op)
    (fun t => t.handlingSig = -1 ∧ t.log.length = 5)
    (.fetch 0 :: ecall (.sigaction 10 1 1 ⟨4096, 0⟩) ++ ecall (.kill 0 10) ++ ecall .sigreturn) (by decide +kernel)
  exact ⟨t, handlers_unwind hs ht, of_decide_eq_true hlast⟩

/-- Of two nested handlers, the first `sigreturn` ends both. -/
theorem nested_handlers_mix : ∃ s t, Reached (fun s op => s.wellNested op = true) s ∧ s.tasks 0 = some t ∧
    ¬InOrder t := by
  obtain ⟨s, t, hs, ht, hlast⟩ := exists_task wellNested
    (fun t => t.handlingSig = -1 ∧ activeHandlers t.log = 1)
    (.fetch 0 :: ecall (.sigaction 10 1 1 ⟨4096, 0⟩) ++ ecall (.sigaction 12 1 1 ⟨8192, 0⟩) ++ ecall (.kill 0 10) ++
      ecall (.kill 0 12) ++ ecall .sigreturn) (by decide +kernel)
  obtain ⟨hsig, hactive⟩ := of_decide_eq_true hlast
  refine ⟨s, t, hs, ht, ?_⟩
  rintro ⟨saved, hunwinds, hiff⟩
  rw [hunwinds.activeHandlers, hiff.mp hsig] at hactive
  exact absurd hactive (by decide)

/-! ## A `sigreturn` without a handler

`sys_sigretrun` does not ask whether a handler runs. It unwraps the saved context, which there is none of before the
first delivery and in a child, and which a `sigreturn` leaves in place.
-/

/-- The context that an event saves. -/
def savedBy : Event → Option TrapContext
  | .delivered _ saved => some saved
  | _ => none

/-- The context that the last delivery of a log has saved. -/
def lastSaved (log : List Event) : Option TrapContext := (log.filterMap savedBy).getLast?

theorem lastSaved_delivered (log : List Event) (sig : Nat) (cx : TrapContext) :
    lastSaved (log ++ [.delivered sig cx]) = some cx := by
  rw [lastSaved, List.filterMap_append]
  exact List.getLast?_concat ..

theorem lastSaved_other (log : List Event) {e : Event} (he : savedBy e = none) :
    lastSaved (log ++ [e]) = lastSaved log := by
  have hnone : [e].filterMap savedBy = [] := by
    rw [List.filterMap_cons, he]
    rfl
  rw [lastSaved, List.filterMap_append, hnone, List.append_nil]
  rfl

/-- The saved context is that of the last delivery. -/
def Backed (t : TaskInner) : Prop := t.trapCtxBackup = lastSaved t.log

theorem Backed.scanned {u : TaskInner} (h : Backed t) (hu : t.Scanned 0 u) (control : Control) :
    Backed { u with control } := by
  rcases hu.delivery with ⟨i, _, _, hturn⟩ | ⟨_, hst⟩
  · show u.trapCtxBackup = lastSaved u.log
    rw [hturn.log, lastSaved_delivered, hturn.backup]
  · show u.trapCtxBackup = lastSaved u.log
    rw [hst.log, hst.backup]
    exact h

theorem Reached.backed (hs : Reached ok s) (ht : s.tasks pid = some t) : Backed t := by
  refine hs.task ht (fun _ => rfl) (fun _ _ => rfl) (fun _ _ h => h) ?_
  intro s op pid t u _ _ _ h hm
  cases hm with
  | trap => exact h
  | sigreturn _ _ => exact h.trans (lastSaved_other t.log rfl).symm
  | wait _ => exact h
  | callReturns _ _ => exact h
  | handleSignals _ hscan => exact h.scanned hscan .loop
  | pass _ _ _ hscan => exact h.scanned hscan .loop
  | resume _ _ _ => exact h.trans (lastSaved_other t.log rfl).symm

/-- The state with another record of the task `pid`. -/
def withTask (s : TrapSystem) (pid : Nat) (u : TaskInner) : TrapSystem :=
  { s with tasks := Function.update s.tasks pid (some u) }

theorem withTask_tasks (s : TrapSystem) (pid : Nat) (u : TaskInner) : (s.withTask pid u).tasks pid = some u :=
  Function.update_self ..

theorem onTask_run {α : Type} (ht : s.tasks pid = some t) (x : Comp TaskInner α) :
    (onTask pid x).run s = (x.run t).map fun r => (r.1, s.withTask pid r.2) := by
  simp only [onTask, Comp.run_bind, Comp.run_get, Option.bind_some, ht, Comp.unwrap, Comp.run_pure]
  cases x.run t with
  | none => rfl
  | some r => rfl

theorem onTask_run_withTask {α : Type} (s : TrapSystem) (pid : Nat) (u : TaskInner) (x : Comp TaskInner α) :
    (onTask pid x).run (s.withTask pid u) = (x.run u).map fun r => (r.1, s.withTask pid r.2) := by
  rw [onTask_run (s.withTask_tasks pid u)]
  simp only [withTask, Function.update_idem]

theorem currentTask_run (hcur : s.current = some pid) : currentTask.run s = some (pid, s) := by
  simp only [currentTask, Comp.run_bind, Comp.run_get, Option.bind_some, hcur, Comp.unwrap, Comp.run_pure]

/-- The `sigreturn` of a program that the current task is in. -/
theorem sigreturn_run (hcur : s.current = some pid) (ht : s.tasks pid = some t) (huser : t.control = .user)
    (x : Fin 32 → Nat) (sstatus sepc : Nat) :
    (step (.trap x sstatus sepc (.userEnvCall .sigreturn))).run s = t.trapCtxBackup.map fun cx =>
      ((), s.withTask pid { t with
        handlingSig := -1, trapCx := cx.setA0 0, control := .signals, log := t.log ++ [.sigreturned (cx.setA0 0)] }) := by
  have hcall : ∀ u, currentTask.run (s.withTask pid u) = some (pid, s.withTask pid u) := fun u => currentTask_run hcur
  have hsave : (TaskInner.allTraps x sstatus sepc).run t =
      some ((), { t with trapCx := t.trapCx.save x sstatus sepc }) := by
    simp [TaskInner.allTraps, Comp.assert, huser]
  simp only [step, Comp.run_bind, currentTask_run hcur, Option.bind_some, onTask_run ht, hsave, Option.map_some,
    onTask_run_withTask, Comp.run_modify, syscall, hcall, TaskInner.sysSigreturn, Comp.run_get]
  cases t.trapCtxBackup with
  | none => rfl
  | some cx =>
    simp only [Comp.unwrap, Comp.run_pure, Option.bind_some, Option.map_some, onTask_run_withTask, endCall,
      Comp.run_modify]
    rfl

/-- **When a `sigreturn` is harmless**, also if no handler runs. It returns to the program that has made it, with all
registers but `a0`, exactly if a signal has been delivered to the task before, and the context that the last delivery
has saved is that of this call, but for `a0`. It panics exactly if none has been. -/
theorem stray_sigreturn_iff (hs : Reached (fun _ _ => True) s) (hcur : s.current = some pid)
    (ht : s.tasks pid = some t) (huser : t.control = .user) (x : Fin 32 → Nat) (sstatus sepc : Nat) :
    ((∃ s' t', (step (.trap x sstatus sepc (.userEnvCall .sigreturn))).run s = some ((), s') ∧
        s'.tasks pid = some t' ∧ t'.trapCx.sepc = usizeAdd sepc 4 ∧
        ∀ i ≠ 10, t'.trapCx.x i = (t.trapCx.save x sstatus sepc).x i) ↔
      ∃ cx, lastSaved t.log = some cx ∧ cx.sepc = usizeAdd sepc 4 ∧
        ∀ i ≠ 10, cx.x i = (t.trapCx.save x sstatus sepc).x i) ∧
    ((step (.trap x sstatus sepc (.userEnvCall .sigreturn))).run s = none ↔ lastSaved t.log = none) := by
  have hbacked : t.trapCtxBackup = lastSaved t.log := hs.backed ht
  rw [sigreturn_run hcur ht huser, hbacked]
  cases lastSaved t.log with
  | none => simp
  | some cx =>
    have ha0 : ∀ i ≠ 10, (cx.setA0 0).x i = cx.x i := fun i hi => Function.update_of_ne hi _ _
    refine ⟨⟨?_, ?_⟩, by simp⟩
    · rintro ⟨s', t', hrun, ht', hsepc, hregs⟩
      cases hrun
      rw [withTask_tasks, Option.some.injEq] at ht'
      subst ht'
      exact ⟨cx, rfl, hsepc, fun i hi => (ha0 i hi).symm.trans (hregs i hi)⟩
    · rintro ⟨cx', hcx, hsepc, hregs⟩
      cases hcx
      exact ⟨_, _, rfl, withTask_tasks .., hsepc, fun i hi => (ha0 i hi).trans (hregs i hi)⟩

/-- The program that has been interrupted behind a system call makes it again as a `sigreturn`, with the same
registers. -/
theorem stray_sigreturn_harmless : ∃ s t s' t', s.tasks 0 = some t ∧ t.handlingSig = -1 ∧
    (step (.trap (fun _ => 0) 0 0 (.userEnvCall .sigreturn))).run s = some ((), s') ∧ s'.tasks 0 = some t' ∧
    t'.trapCx.sepc = 4 ∧ ∀ i ≠ 10, t'.trapCx.x i = (t.trapCx.save (fun _ => 0) 0 0).x i := by
  obtain ⟨s, hs, hp⟩ := exists_run (fun _ _ => true)
    (fun s => s.current = some 0 ∧ ((s.tasks 0).any fun t => (t.handlingSig = -1 ∧ t.control = .user) ∧
      ((lastSaved t.log).any fun cx =>
        cx.sepc = 4 ∧ ∀ i ≠ 10, cx.x i = (t.trapCx.save (fun _ => 0) 0 0).x i) = true) = true)
    (.fetch 0 :: ecall (.sigaction 10 1 1 ⟨4096, 0⟩) ++ ecall (.kill 0 10) ++ ecall .sigreturn) (by decide +kernel)
  obtain ⟨hcur, htask⟩ := of_decide_eq_true hp
  obtain ⟨t, ht, hp⟩ := (Option.any_eq_true _ _).mp htask
  obtain ⟨⟨hidle, huser⟩, hany⟩ := of_decide_eq_true hp
  obtain ⟨cx, hcx, hp⟩ := (Option.any_eq_true _ _).mp hany
  obtain ⟨hsepc, hregs⟩ := of_decide_eq_true hp
  have hiff := (stray_sigreturn_iff (hs.mono fun _ _ _ => trivial) hcur ht huser (fun _ => 0) 0 0).1
  obtain ⟨s', t', hrun, ht', hsepc', hregs'⟩ := hiff.mpr ⟨cx, hcx, hsepc, hregs⟩
  exact ⟨s, t, s', t', ht, hidle, hrun, ht', hsepc', hregs'⟩

/-- The `sigreturn` of a new process panics. -/
theorem stray_sigreturn_panics : ∃ s t, Reached (fun _ _ => True) s ∧ s.current = some 0 ∧ s.tasks 0 = some t ∧
    t.control = .user ∧ t.handlingSig = -1 ∧
    (step (.trap (fun _ => 0) 0 0 (.userEnvCall .sigreturn))).run s = none := by
  obtain ⟨s, hs, hp⟩ := exists_run (fun _ _ => true)
    (fun s => (s.current = some 0 ∧ ((step (.trap (fun _ => 0) 0 0 (.userEnvCall .sigreturn))).run s).isNone = true) ∧
      ((s.tasks 0).any fun t => t.control = .user ∧ t.handlingSig = -1) = true)
    [.fetch 0] (by decide +kernel)
  obtain ⟨⟨hcur, hnone⟩, htask⟩ := of_decide_eq_true hp
  obtain ⟨t, ht, hp⟩ := (Option.any_eq_true _ _).mp htask
  obtain ⟨huser, hidle⟩ := of_decide_eq_true hp
  exact ⟨s, t, hs.mono fun _ _ _ => trivial, hcur, ht, huser, hidle, Option.isNone_iff_eq_none.mp hnone⟩

end TrapSystem

end RCore.Task
