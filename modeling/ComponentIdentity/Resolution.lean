import ComponentIdentity.Index
import ComponentIdentity.Minter
import ComponentIdentity.Resolution.Key

/-! # Resolution

Each visited component gets its key and then an identifier: the one that the
index knows for the key, otherwise a minted one that neither the run nor the
index has. The first failure ends the run.
-/

namespace ComponentIdentity

/-- Computations that may mint; what was taken from the minter stays taken on failure. -/
abbrev Minting := ExceptT Error (StateM Minter)

def Minting.mint : Minting String := ExceptT.mk fun m => (.ok m.mint.1, m.mint.2)

theorem Minting.run_mint {m : Minter} : mint.run m = (.ok m.mint.1, m.mint.2) := rfl

structure Stats where
  resolved : Nat := 0
  reused : Nat := 0
  minted : Nat := 0
  unreachable : Nat := 0
  deriving DecidableEq, Repr, Inhabited

/-- Where an identifier comes from. -/
inductive Origin where
  | reused
  | minted
  deriving DecidableEq, Repr

def Stats.count (stats : Stats) : Origin → Stats
  | .reused => { stats with resolved := stats.resolved + 1, reused := stats.reused + 1 }
  | .minted => { stats with resolved := stats.resolved + 1, minted := stats.minted + 1 }

structure Resolution where
  cache : RefCache
  stats : Stats

/-- How many minted identifiers may be in use before a run gives up. -/
def mintAttempts : Nat := 8

namespace Resolution

/-- A run between two visits. -/
structure State where
  scopes : List Scope := []
  cache : RefCache := .empty
  stats : Stats := {}

/-- The index is asked only if the run itself has not given out the identifier. -/
def inUse (index : IdentityIndex) (cache : RefCache) (uuid : String) : Except Error Bool :=
  if cache.containsUuid uuid then .ok true else index.containsUuid uuid

def mintUnused (index : IdentityIndex) (cache : RefCache) (key : String) : Nat → Minting String
  | 0 => throw (.identifierCollision key)
  | attempts + 1 => do
    let candidate ← Minting.mint
    if ← inUse index cache candidate then mintUnused index cache key attempts
    else return candidate

def identify (index : IdentityIndex) (cache : RefCache) (key : String) :
    Minting (String × Origin) := do
  match ← index.uuidForKey key with
  | some uuid =>
    if cache.containsUuid uuid then throw (.corruptIndex key uuid) else return (uuid, .reused)
  | none => return (← mintUnused index cache key mintAttempts, .minted)

def checkRoot (v : Visit) : Except ReportFault Unit :=
  if v.depth = 0 ∧ v.component.kind ≠ .project then
    .error (.rootKind v.component.ref v.component.kind)
  else .ok ()

def checkKey (cache : RefCache) (r : Ref) (key : String) : Except ReportFault Unit :=
  match cache.getByKey? key with
  | some owner => .error (.sameKey owner.ref r key)
  | none => .ok ()

/-- The key of a visit, if the run can take it, with the scopes from it on. -/
def keyFor (branch : Option String) (s : State) (v : Visit) :
    Except ReportFault (String × List Scope) := do
  checkRoot v
  let (key, scopes) ← Scope.keyOf branch s.scopes v
  checkKey s.cache v.component.ref key
  return (key, scopes)

def visit (index : IdentityIndex) (branch : Option String) (s : State) (v : Visit) :
    Minting State := do
  let (key, scopes) ← ((keyFor branch s v).mapError .malformedReport : Except Error _)
  let (uuid, origin) ← identify index s.cache key
  let cache ← s.cache.put v.component.ref ⟨v.component.ref, key, uuid⟩
  return ⟨scopes, cache, s.stats.count origin⟩

def step (index : IdentityIndex) (branch : Option String) (s : State) :
    Walk.Item → Minting State
  | .error fault => throw (.malformedReport fault)
  | .ok v => visit index branch s v

end Resolution

/-- Resolves every component that the walk of the report reaches. -/
def Report.resolve (report : Report) (index : IdentityIndex) : Minting Resolution := do
  let s ← report.walk.foldlM (Resolution.step index report.branch) {}
  return ⟨s.cache, { s.stats with unreachable := report.size - s.stats.resolved }⟩

end ComponentIdentity
