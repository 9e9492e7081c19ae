import ComponentIdentity.Uuid

/-! # Minters

A minter is a sequence of identifiers and the number of those already taken.
-/

namespace ComponentIdentity

structure Minter where
  ids : Nat → String
  minted : Nat := 0

namespace Minter

instance : Inhabited Minter := ⟨{ ids := fun _ => "" }⟩

def mint (m : Minter) : String × Minter := (m.ids m.minted, { m with minted := m.minted + 1 })

/-- The next `n` identifiers. -/
def upcoming (m : Minter) (n : Nat) : List String :=
  (List.range n).map fun i => m.ids (m.minted + i)

def advance (m : Minter) (n : Nat) : Minter := { m with minted := m.minted + n }

/-- The largest value of the counter that names are made from. -/
def maxCounter : Nat := UInt64.size - 1

/-- The counter of a sequential minter stays at its largest value once it is there. -/
def counter (m : Minter) : Nat := min m.minted maxCounter

/-- The n-th identifier is the one of the name n, in eight bytes, within the namespace. -/
def sequential (space : Uuid) : Minter where
  ids n := (Uuid.nameBased space (Bytes.ofNat64 (min n maxCounter))).toString

def seeded (seed : String) : Minter := sequential (Uuid.nameBased Uuid.oid (Bytes.ofText seed))

def default : Minter := seeded "compref"

/-- Gives the listed identifiers in turn and then the last one for ever. -/
def ofList (ids : List String) : Minter where
  ids n := (ids[n]?).getD (ids.getLastD "")

/-- Random identifiers drawn from a secret: each is a digest of the secret, the run and a count. -/
def random (secret : Bytes) (run : Nat) : Minter where
  ids n := (Uuid.random
    (Sha1.digest (secret ++ Bytes.ofNat64 run ++ Bytes.ofNat64 n))).toString

@[simp]
theorem mint_fst (m : Minter) : m.mint.1 = m.ids m.minted := rfl

@[simp]
theorem mint_snd (m : Minter) : m.mint.2 = m.advance 1 := rfl

end Minter

end ComponentIdentity
