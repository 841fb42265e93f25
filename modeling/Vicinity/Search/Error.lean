import Vicinity.Entity.Basic
import Vicinity.Group.Error
import Vicinity.Hierarchy.Basic

/-!
# Failures of searches and pairings

Causes of failure in domain terms. A rejected configuration keeps the value it
was rejected for.
-/

set_option autoImplicit false

namespace Vicinity

inductive ConfigFault (α : Type) where
  | tolerance (value : α)
  | radius (value : α)
  | missingRadius
  | noNeighbors
  | missingNeighbors
  | unknownSearchType (name : String)

inductive SearchError (α : Type) where
  | index (fault : IndexError)
  | comm (fault : CommError)
  | lookup (domain range : EntityId)
  | unknownRange (range : EntityId)
  | unsupportedShape (entity : EntityId)
  | unsupportedConfig (fault : ConfigFault α)

end Vicinity
