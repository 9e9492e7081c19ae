import ComponentIdentity.RefCache

/-! # Identity indexes

What earlier runs recorded, as a resolution sees it: two questions, either of
which may fail.
-/

namespace ComponentIdentity

structure IdentityIndex where
  uuidForKey : String → Except Error (Option String)
  containsUuid : String → Except Error Bool

end ComponentIdentity
