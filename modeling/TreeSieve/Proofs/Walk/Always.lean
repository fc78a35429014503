import TreeSieve.Files.FileSystem
import TreeSieve.Proofs.Path.Rooted

/-!
# What holds of all answers

A walk asks a file system in some monad. What it does whatever the answers are is said once, for
every monad in which a property of all results makes sense.

* `AlwaysMonad` is such a monad: pure computations, and computations with a state.
* `FileSystem.ListsNames` says that a file system lists distinct names, each of one component.
-/

namespace TreeSieve

/-- A monad in which it can be said that all results of a computation have a property. -/
class AlwaysMonad (m : Type → Type) [Monad m] where
  /-- All results of a computation have a property. -/
  Always {α : Type} : m α → (α → Prop) → Prop
  always_of_forall {α : Type} {x : m α} {p : α → Prop} : (∀ a, p a) → Always x p
  always_mono {α : Type} {x : m α} {p q : α → Prop} : Always x p → (∀ a, p a → q a) → Always x q
  always_pure {α : Type} {a : α} {p : α → Prop} : p a → Always (pure a) p
  always_bind {α β : Type} {x : m α} {f : α → m β} {p : β → Prop} :
    Always x (fun a => Always (f a) p) → Always (x >>= f) p

export AlwaysMonad (Always always_of_forall always_mono always_pure always_bind)

instance : AlwaysMonad Id where
  Always x p := p x.run
  always_of_forall h := h _
  always_mono hx h := h _ hx
  always_pure h := h
  always_bind h := h

instance (σ : Type) : AlwaysMonad (StateM σ) where
  Always x p := ∀ s, p (x.run s).1
  always_of_forall h _ := h _
  always_mono hx h s := h _ (hx s)
  always_pure h _ := h
  always_bind h s := h s _

section Rules

variable {m : Type → Type} [Monad m] [AlwaysMonad m] {α β : Type}

/-- Results of `x >>= f` have a property if those of `f a` have it for all `a`. -/
theorem always_bind_any {x : m α} {f : α → m β} {p : β → Prop} (h : ∀ a, Always (f a) p) :
    Always (x >>= f) p :=
  always_bind (always_of_forall h)

/-- Results of `x >>= f` have a property if those of `f a` have it for all `a` that are known to be
results of `x`. -/
theorem always_bind_of {x : m α} {f : α → m β} {p : α → Prop} {q : β → Prop} (hx : Always x p)
    (h : ∀ a, p a → Always (f a) q) : Always (x >>= f) q :=
  always_bind (always_mono hx h)

end Rules

/-- A listing of distinct names, each of one component. -/
structure IsListing (entries : List ListedEntry) : Prop where
  nodup : (entries.map (·.name)).Nodup
  names : ∀ entry ∈ entries, Path.IsEntryName entry.name

/-- A file system that lists distinct names, each of one component, whenever it lists anything. -/
def FileSystem.ListsNames {m : Type → Type} [Monad m] [AlwaysMonad m] (fs : FileSystem m) : Prop :=
  ∀ path, Always (fs.list path) fun answer => ∀ entries, answer = .ok entries → IsListing entries

end TreeSieve
