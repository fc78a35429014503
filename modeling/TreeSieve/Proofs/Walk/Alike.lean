import TreeSieve.Cli.Host
import TreeSieve.Listing.Directory

/-!
# Computations that come to the same

The functions of a walk are written for any monad, so that a walk of a tree that is kept as a state
does what a walk of a tree that does not change does.

* `Likeness` is a relation between the computations of two monads that holds of results and of
  steps one after the other, and `FileSystem.Alike` says that two file systems answer alike.
* `walkThrough_alike` says that whole walks of such file systems are alike.
* `Node.unchanged` relates computations that leave a tree as it is to pure ones, and
  `Node.storedFiles_alike` says that it relates the files of a state to those of the tree.
-/

namespace TreeSieve

/-- A relation between the computations of two monads: the same result is alike, and so are alike
computations that go on alike. -/
structure Likeness (m n : Type → Type) [Monad m] [Monad n] where
  /-- Whether two computations are alike. -/
  Alike : {α : Type} → m α → n α → Prop
  pure : ∀ {α : Type} (a : α), Alike (pure a : m α) (pure a : n α)
  bind : ∀ {α β : Type} {x : m α} {y : n α} {f : α → m β} {g : α → n β}, Alike x y →
    (∀ a, Alike (f a) (g a)) → Alike (x >>= f) (y >>= g)

variable {m n : Type → Type} [Monad m] [Monad n]

/-- File systems that answer alike. -/
structure FileSystem.Alike (likeness : Likeness m n) (fs : FileSystem m) (fs' : FileSystem n) :
    Prop where
  list : ∀ path, likeness.Alike (fs.list path) (fs'.list path)
  read : ∀ path, likeness.Alike (fs.read path) (fs'.read path)
  lstat : ∀ path, likeness.Alike (fs.lstat path) (fs'.lstat path)
  stat : ∀ path, likeness.Alike (fs.stat path) (fs'.stat path)
  realPath : ∀ path, likeness.Alike (fs.realPath path) (fs'.realPath path)

section Functions

variable {likeness : Likeness m n} {fs : FileSystem m} {fs' : FileSystem n}
  (h : fs.Alike likeness fs')

include h

/-! ### Ignore files -/

theorem IgnoreFile.load_alike (cache : MatcherCache) (path : Text) :
    likeness.Alike (IgnoreFile.load fs cache path) (IgnoreFile.load fs' cache path) := by
  unfold IgnoreFile.load
  refine likeness.bind (h.lstat _) fun answer => ?_
  cases answer with
  | error e => exact likeness.pure _
  | ok stats =>
    dsimp only
    split
    · exact likeness.pure _
    · refine likeness.bind (h.read _) fun bytes => ?_
      cases bytes with
      | error e => exact likeness.pure _
      | ok bytes => exact likeness.pure _

theorem Sieve.load_alike (s : Sieve) (path : Text) :
    likeness.Alike (s.load fs path) (s.load fs' path) :=
  likeness.bind (IgnoreFile.load_alike h s.cache path) fun _ => likeness.pure _

namespace Walk

/-! ### Steps -/

theorem lookAtRoot_alike (root : Text) :
    likeness.Alike (lookAtRoot fs root) (lookAtRoot fs' root) := by
  unfold lookAtRoot
  refine likeness.bind (h.lstat root) fun answer => ?_
  cases answer with
  | error e => exact likeness.pure _
  | ok stats =>
    dsimp only
    split
    · refine likeness.bind (h.stat root) fun target => ?_
      cases target with
      | error e => exact likeness.pure _
      | ok target => exact likeness.pure _
    · exact likeness.pure _

theorem start_alike (w : Walk) : likeness.Alike (w.start fs) (w.start fs') := by
  unfold start
  split
  · exact likeness.pure _
  · refine likeness.bind (lookAtRoot_alike h _) fun answer => ?_
    cases answer with
    | error fault => exact likeness.pure _
    | ok stats => exact likeness.pure _

theorem resolve_alike (w : Walk) (item : Candidate) :
    likeness.Alike (w.resolve fs item) (w.resolve fs' item) := by
  unfold resolve
  split
  · exact likeness.pure _
  · refine likeness.bind (h.stat _) fun answer => ?_
    cases answer with
    | error e => exact likeness.pure _
    | ok stats =>
      dsimp only
      split
      · exact likeness.pure _
      · refine likeness.bind (h.realPath _) fun real => ?_
        cases real with
        | error e => exact likeness.pure _
        | ok real =>
          dsimp only
          split
          · exact likeness.pure _
          · exact likeness.pure _

theorem realPathOf_alike (w : Walk) (item : Candidate) :
    likeness.Alike (w.realPathOf fs item) (w.realPathOf fs' item) := by
  unfold realPathOf
  split
  · exact likeness.bind (h.realPath _) fun _ => likeness.pure _
  · exact likeness.pure _

theorem takeIn_alike (w : Walk) (path : Text) :
    likeness.Alike (w.takeIn fs path) (w.takeIn fs' path) :=
  likeness.bind (Sieve.load_alike h w.sieve path) fun _ => likeness.pure _

theorem gather_alike (item : Candidate) (real : Text) (entries : List ListedEntry) : ∀ w : Walk,
    likeness.Alike (gather fs item real w entries) (gather fs' item real w entries) := by
  induction entries with
  | nil => exact fun w => likeness.pure _
  | cons entry rest ih =>
    intro w
    unfold gather
    refine likeness.bind (h.lstat _) fun answer => ?_
    cases answer with
    | error e => exact ih _
    | ok stats =>
      dsimp only
      split
      · exact likeness.bind (takeIn_alike h w _) fun w =>
          likeness.bind (ih w) fun _ => likeness.pure _
      · exact likeness.bind (likeness.pure w) fun w =>
          likeness.bind (ih w) fun _ => likeness.pure _

theorem enqueue_alike (w : Walk) (item : Candidate) (real : Text) :
    likeness.Alike (w.enqueue fs item real) (w.enqueue fs' item real) := by
  unfold enqueue
  split
  · exact likeness.pure _
  · dsimp only
    split
    · exact likeness.pure _
    · refine likeness.bind (h.list _) fun answer => ?_
      match answer with
      | .error e => exact likeness.pure _
      | .ok [] => exact likeness.pure _
      | .ok (entry :: entries) =>
        exact likeness.bind (gather_alike h item real _ _) fun _ => likeness.pure _

theorem lookAtDirectory_alike (w : Walk) (item : Candidate) (stats : FileStats) (real : Text) :
    likeness.Alike (w.lookAtDirectory fs item stats real)
      (w.lookAtDirectory fs' item stats real) := by
  unfold lookAtDirectory
  refine likeness.bind (enqueue_alike h w item real) fun result => ?_
  match result with
  | (.unlistable, w) => exact likeness.pure _
  | (.childless, w) =>
    dsimp only
    split
    · exact likeness.pure _
    · exact likeness.pure _
  | (.mayHaveChildren, w) =>
    dsimp only
    split
    · exact likeness.pure _
    · exact likeness.pure _

theorem lookAt_alike (w : Walk) (item : Candidate) :
    likeness.Alike (lookAt fs w item) (lookAt fs' w item) := by
  unfold lookAt
  refine likeness.bind (resolve_alike h w item) fun result => ?_
  obtain ⟨found, w⟩ := result
  dsimp only
  split
  · split
    · exact lookAtDirectory_alike h w item _ _
    · refine likeness.bind (realPathOf_alike h w item) fun answer => ?_
      cases answer with
      | error e => exact likeness.pure _
      | ok real => exact lookAtDirectory_alike h w item _ real
  · exact likeness.pure _

theorem advance_alike (w : Walk) : likeness.Alike (w.advance fs) (w.advance fs') := by
  unfold advance
  split
  · exact likeness.pure _
  · split
    · exact likeness.pure _
    · split
      · exact likeness.pure _
      · exact lookAt_alike h _ _

/-- On file systems that answer alike, a step of the same walk comes to alike results. -/
theorem step_alike (w : Walk) : likeness.Alike (w.step fs) (w.step fs') := by
  unfold step
  split
  · exact advance_alike h w.begin
  · exact advance_alike h w
  · exact likeness.pure _

/-! ### Whole walks -/

theorem visit_alike {β : Type} (f : Entry → β → ForInStep β) (steps : Nat) :
    ∀ (acc : β) (w : Walk), likeness.Alike (visit fs f steps acc w) (visit fs' f steps acc w) := by
  induction steps with
  | zero => exact fun acc w => likeness.pure _
  | succ steps ih =>
    intro acc w
    unfold visit
    refine likeness.bind (step_alike h w) fun result => ?_
    match result with
    | (.yielded entry, w) =>
      dsimp only
      split
      · exact likeness.pure _
      · exact ih _ w
    | (.withheld _ _, w) => exact ih acc w
    | (.quiet, w) => exact ih acc w
    | (.finished, w) => exact likeness.pure _
    | (.failed e, w) => exact likeness.pure _

end Walk

/-- **Walks of file systems that answer alike come to the same.** -/
theorem walkThrough_alike {β : Type} (steps : Nat) (f : Entry → β → ForInStep β) (acc : β)
    (w : Walk) :
    likeness.Alike (walkThrough fs steps f acc w) (walkThrough fs' steps f acc w) := by
  unfold walkThrough
  refine likeness.bind (Walk.start_alike h w) fun result => ?_
  match result with
  | (.error e, w) => exact likeness.pure _
  | (.ok (), w) => exact likeness.bind (Walk.visit_alike h f steps acc w) fun _ => likeness.pure _

end Functions

namespace Node

/-- A computation on a tree that is kept as a state is like a pure one if it has the same result and
leaves the tree as it is. -/
def unchanged (files : Node) : Likeness (StateM Node) Id where
  Alike x y := (x.run files).run = (y.run, files)
  pure _ := rfl
  bind {α β x y f g} hx hf := by
    rw [StateT.run_bind, Id.run_bind, hx]
    exact hf y.run

/-- A file system that keeps the tree as a state answers as the one that is made for the tree, and
leaves the tree as it is. -/
theorem storedFiles_alike (files : Node) :
    storedFiles.Alike files.unchanged files.diskFileSystem :=
  ⟨fun _ => rfl, fun _ => rfl, fun _ => rfl, fun _ => rfl, fun _ => rfl⟩

/-- A walk of a tree that is kept as a state is a walk of the tree, which stays as it is. -/
theorem run_walkThrough_storedFiles (files : Node) {β : Type} (steps : Nat)
    (f : Entry → β → ForInStep β) (acc : β) (w : Walk) :
    ((walkThrough storedFiles steps f acc w).run files).run
      = ((walkThrough (files.diskFileSystem : FileSystem Id) steps f acc w).run, files) :=
  walkThrough_alike files.storedFiles_alike steps f acc w

end Node

end TreeSieve
