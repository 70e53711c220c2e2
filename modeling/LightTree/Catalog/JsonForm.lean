import LightTree.Catalog.Basic
import LightTree.Schema.JsonForm

/-!
# The JSON form of a catalog
-/

namespace LightTree

namespace Catalog

def toJson (catalog : Catalog) : Json :=
  .record [("entries", .list NodeKind.toJson catalog.kinds)]

end Catalog

end LightTree
