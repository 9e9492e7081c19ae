/-! # Components

A report declares components, each under a reference that means something in
that report only. Resolving a component gives it a key and an identifier.
-/

namespace ComponentIdentity

abbrev Ref := UInt32

namespace Ref

/-- Zero is never the reference of a component. -/
def isValid (r : Ref) : Bool := decide (0 < r)

theorem isValid_iff (r : Ref) : r.isValid = true ↔ r ≠ 0 := by
  simp only [isValid, decide_eq_true_eq, UInt32.lt_iff_toNat_lt, ne_eq, ← UInt32.toNat_inj]
  simp only [UInt32.toNat_zero]
  omega

end Ref

inductive Kind where
  | project
  | module
  | directory
  | file
  deriving DecidableEq, Repr, Inhabited

namespace Kind

def name : Kind → String
  | project => "PROJECT"
  | module => "MODULE"
  | directory => "DIRECTORY"
  | file => "FILE"

instance : ToString Kind := ⟨name⟩

/-- Position from the outermost kind to the innermost. -/
def rank : Kind → Nat
  | project => 0
  | module => 1
  | directory => 2
  | file => 3

instance : LT Kind := ⟨fun a b => a.rank < b.rank⟩

instance (a b : Kind) : Decidable (a < b) := inferInstanceAs (Decidable (a.rank < b.rank))

def all : List Kind := [project, module, directory, file]

def ofName? (s : String) : Option Kind := all.find? (·.name == s)

def ofRank? (n : Nat) : Option Kind := all[n]?

@[simp]
theorem ofName?_name (k : Kind) : ofName? k.name = some k := by cases k <;> decide

@[simp]
theorem ofRank?_rank (k : Kind) : ofRank? k.rank = some k := by cases k <;> rfl

/-- Projects and modules start a key of their own; directories and files extend one. -/
def isModule : Kind → Bool
  | project | module => true
  | directory | file => false

end Kind

/-- A component as a report declares it. Modules need the key, directories and files the path. -/
structure Component where
  ref : Ref
  kind : Kind
  key : Option String := none
  path : Option String := none
  children : List Ref := []
  deriving DecidableEq, Repr, Inhabited

namespace Component

def withKey (c : Component) (key : String) : Component := { c with key := some key }

def withPath (c : Component) (path : String) : Component := { c with path := some path }

def withChildren (c : Component) (children : List Ref) : Component :=
  { c with children := children }

def project (ref : Ref) (key : String) : Component := withKey { ref, kind := .project } key

def module (ref : Ref) (key : String) : Component := withKey { ref, kind := .module } key

def directory (ref : Ref) (path : String) : Component := withPath { ref, kind := .directory } path

def file (ref : Ref) (path : String) : Component := withPath { ref, kind := .file } path

end Component

structure Metadata where
  root : Ref
  branch : Option String := none
  deriving DecidableEq, Repr, Inhabited

namespace Metadata

/-- An empty text names no branch. -/
def named (branch : Option String) : Option String := branch.filter (· ≠ "")

def withBranch (m : Metadata) (branch : String) : Metadata :=
  { m with branch := named (some branch) }

def effectiveBranch (m : Metadata) : Option String := named m.branch

@[simp]
theorem named_eq_some_iff {b : Option String} {s : String} :
    named b = some s ↔ b = some s ∧ s ≠ "" := by
  simp [named, Option.filter_eq_some_iff]

@[simp]
theorem effectiveBranch_withBranch (m : Metadata) (branch : String) :
    (m.withBranch branch).effectiveBranch = named (some branch) := by
  simp [withBranch, effectiveBranch, named, Option.filter_filter]

end Metadata

structure ResolvedComponent where
  ref : Ref
  key : String
  uuid : String
  deriving DecidableEq, Repr, Inhabited

namespace ResolvedComponent

/-- What stays of a component outside its report. -/
def identity (c : ResolvedComponent) : String × String := (c.uuid, c.key)

def sameIdentity (a b : ResolvedComponent) : Bool := a.identity == b.identity

def identityHash (c : ResolvedComponent) : UInt64 := hash c.identity

theorem sameIdentity_iff {a b : ResolvedComponent} :
    sameIdentity a b = true ↔ a.uuid = b.uuid ∧ a.key = b.key := by
  simp [sameIdentity, identity]

theorem identityHash_eq {a b : ResolvedComponent} (h : sameIdentity a b = true) :
    a.identityHash = b.identityHash := by
  simp only [sameIdentity, beq_iff_eq] at h
  simp only [identityHash, h]

end ResolvedComponent

end ComponentIdentity
