import TreeSieve.Proofs.Walk.Always

/-!
# What is asked and answered

A file system can be asked through one that keeps an account of what was asked and of what was
answered. What a computation does can then be told from its account.

* `Exchange` is a call together with its answer, and `FileSystem.noted` notes the exchanges.
* `FileSystem.Answers` holds of a file system all of whose exchanges have a property.
* `Notes` holds of a computation whose account and result have a property; there is one rule for
  each way to put computations together.
-/

namespace TreeSieve

/-- A call of a file system and what was answered. -/
inductive Exchange where
  | list (path : Text) (answer : Except FileError (List ListedEntry))
  | read (path : Text) (answer : Except FileError (List UInt8))
  | lstat (path : Text) (answer : Except FileError FileStats)
  | stat (path : Text) (answer : Except FileError FileStats)
  | realPath (path : Text) (answer : Except FileError Text)

namespace Exchange

/-- The operation that was called. -/
def operation : Exchange → FileOperation
  | list _ _ => .list
  | read _ _ => .read
  | lstat _ _ => .lstat
  | stat _ _ => .stat
  | realPath _ _ => .realPath

/-- The path that was asked for. -/
def path : Exchange → Text
  | list path _ => path
  | read path _ => path
  | lstat path _ => path
  | stat path _ => path
  | realPath path _ => path

/-- The path of a directory whose listing was asked for. -/
def listed? : Exchange → Option Text
  | list path _ => some path
  | _ => none

/-- An exchange that is no listing of anything but distinct names, each of one component. -/
def ListsNames (exchange : Exchange) : Prop :=
  ∀ path entries, exchange = list path (.ok entries) → IsListing entries

/-- An exchange that is no listing of anything but names of one component, which need not differ. -/
def ListsEntryNames (exchange : Exchange) : Prop :=
  ∀ path entries, exchange = list path (.ok entries) →
    ∀ entry ∈ entries, Path.IsEntryName entry.name

theorem ListsNames.entryNames {exchange : Exchange} (h : exchange.ListsNames) :
    exchange.ListsEntryNames :=
  fun path entries heq => (h path entries heq).names

/-- An exchange whose answer is the one of a file system that does not change. -/
def IsFrom (fs : FileSystem Id) : Exchange → Prop
  | list path answer => (fs.list path).run = answer
  | read path answer => (fs.read path).run = answer
  | lstat path answer => (fs.lstat path).run = answer
  | stat path answer => (fs.stat path).run = answer
  | realPath path answer => (fs.realPath path).run = answer

end Exchange

namespace FileSystem

variable {m : Type → Type} [Monad m]

/-- Makes a call and notes it with its answer. -/
def noting {α : Type} (exchange : α → Exchange) (call : m α) : StateT (List Exchange) m α := do
  let answer ← StateT.lift call
  modify (· ++ [exchange answer])
  return answer

/-- The file system that notes every call with its answer, first one first. -/
def noted (fs : FileSystem m) : FileSystem (StateT (List Exchange) m) where
  list path := noting (.list path) (fs.list path)
  read path := noting (.read path) (fs.read path)
  lstat path := noting (.lstat path) (fs.lstat path)
  stat path := noting (.stat path) (fs.stat path)
  realPath path := noting (.realPath path) (fs.realPath path)

/-- A file system all of whose exchanges have a property. -/
structure Answers [AlwaysMonad m] (fs : FileSystem m) (A : Exchange → Prop) : Prop where
  list : ∀ path, Always (fs.list path) fun answer => A (.list path answer)
  read : ∀ path, Always (fs.read path) fun answer => A (.read path answer)
  lstat : ∀ path, Always (fs.lstat path) fun answer => A (.lstat path answer)
  stat : ∀ path, Always (fs.stat path) fun answer => A (.stat path answer)
  realPath : ∀ path, Always (fs.realPath path) fun answer => A (.realPath path answer)

/-- Each exchange with a file system that does not change has the answer that the file system gives.
-/
theorem answers_isFrom (fs : FileSystem Id) : fs.Answers (Exchange.IsFrom fs) :=
  ⟨fun _ => rfl, fun _ => rfl, fun _ => rfl, fun _ => rfl, fun _ => rfl⟩

/-- A property that holds of all exchanges but listings, and of those that the file system makes,
holds of all exchanges with it. -/
theorem answers_of_list [AlwaysMonad m] {fs : FileSystem m} {A : Exchange → Prop}
    (hlist : ∀ path, Always (fs.list path) fun answer => A (.list path answer))
    (hother : ∀ exchange : Exchange, exchange.operation ≠ .list → A exchange) : fs.Answers A :=
  ⟨hlist, fun _ => always_of_forall fun _ => hother _ nofun,
    fun _ => always_of_forall fun _ => hother _ nofun,
    fun _ => always_of_forall fun _ => hother _ nofun,
    fun _ => always_of_forall fun _ => hother _ nofun⟩

/-- If a file system lists distinct names of one component then all exchanges with it have this
property. -/
theorem ListsNames.answers [AlwaysMonad m] {fs : FileSystem m} (h : fs.ListsNames) :
    fs.Answers Exchange.ListsNames := by
  refine answers_of_list (fun path => always_mono (h path) ?_) ?_
  · intro answer hanswer _ entries heq
    exact hanswer entries (Exchange.list.inj heq).2
  · rintro exchange hne path entries rfl
    exact absurd rfl hne

end FileSystem

section Rules

variable {m : Type → Type} [Monad m] [AlwaysMonad m] {α β : Type}

/-- What is said of all results of a computation is said of them whatever has been noted. -/
instance : AlwaysMonad (StateT (List Exchange) m) where
  Always x p := ∀ noted, Always (x.run noted) fun result => p result.1
  always_of_forall h _ := always_of_forall fun _ => h _
  always_mono hx h noted := always_mono (hx noted) fun _ => h _
  always_pure h _ := always_pure h
  always_bind h noted := always_bind (always_mono (h noted) fun _ hresult => hresult _)

/-- A file system still lists names when its calls are noted. -/
theorem FileSystem.ListsNames.noted {fs : FileSystem m} (h : fs.ListsNames) :
    fs.noted.ListsNames :=
  fun path _ => always_bind (always_bind (always_mono (h path) fun _ hanswer =>
    always_pure (always_bind (always_pure (always_pure hanswer)))))

/-- A computation that notes exchanges with the property `A`, and whose account and result have the
property `P`. -/
def Notes (A : Exchange → Prop) (x : StateT (List Exchange) m α)
    (P : List Exchange → α → Prop) : Prop :=
  ∀ noted, Always (x.run noted) fun result =>
    ∃ calls, result.2 = noted ++ calls ∧ (∀ call ∈ calls, A call) ∧ P calls result.1

variable {A : Exchange → Prop}

theorem Notes.mono {x : StateT (List Exchange) m α} {P Q : List Exchange → α → Prop}
    (hx : Notes A x P) (h : ∀ calls a, P calls a → Q calls a) : Notes A x Q := by
  refine fun noted => always_mono (hx noted) ?_
  rintro ⟨a, more⟩ ⟨calls, hmore, hall, hP⟩
  exact ⟨calls, hmore, hall, h calls a hP⟩

/-- The property of the exchanges may be added to what is known of the account. -/
theorem Notes.answered {x : StateT (List Exchange) m α} {P : List Exchange → α → Prop}
    (hx : Notes A x P) : Notes A x fun calls a => (∀ call ∈ calls, A call) ∧ P calls a := by
  refine fun noted => always_mono (hx noted) ?_
  rintro ⟨a, more⟩ ⟨calls, hmore, hall, hP⟩
  exact ⟨calls, hmore, hall, hall, hP⟩

/-- A computation that makes no calls has an empty account. -/
theorem Notes.pure {P : List Exchange → α → Prop} {a : α} (h : P [] a) :
    Notes A (pure a : StateT (List Exchange) m α) P :=
  fun noted => always_pure
    ⟨[], (List.append_nil noted).symm, fun _ hmem => absurd hmem List.not_mem_nil, h⟩

/-- The account of one computation stands before that of the next. -/
theorem Notes.bind {x : StateT (List Exchange) m α} {f : α → StateT (List Exchange) m β}
    {P : List Exchange → α → Prop} {Q : List Exchange → β → Prop} (hx : Notes A x P)
    (hf : ∀ calls a, P calls a → Notes A (f a) fun later b => Q (calls ++ later) b) :
    Notes A (x >>= f) Q := by
  intro noted
  rw [StateT.run_bind]
  refine always_bind_of (hx noted) ?_
  rintro ⟨a, more⟩ ⟨calls, rfl, hall, hP⟩
  refine always_mono (hf calls a hP (noted ++ calls)) ?_
  rintro ⟨b, most⟩ ⟨later, rfl, hlater, hQ⟩
  refine ⟨calls ++ later, List.append_assoc .., fun call hcall => ?_, hQ⟩
  rcases List.mem_append.mp hcall with hcall | hcall
  · exact hall call hcall
  · exact hlater call hcall

/-- The account of a call is the call with its answer. -/
theorem Notes.call {exchange : α → Exchange} {call : m α}
    (h : Always call fun answer => A (exchange answer)) :
    Notes A (FileSystem.noting exchange call) fun calls answer =>
      calls = [exchange answer] ∧ A (exchange answer) := by
  intro noted
  refine always_bind (always_bind (always_mono h fun answer hanswer => ?_))
  refine always_pure (always_bind (always_pure (always_pure ?_)))
  refine ⟨[exchange answer], rfl, fun other hother => ?_, rfl, hanswer⟩
  exact List.mem_singleton.mp hother ▸ hanswer

end Rules

end TreeSieve
