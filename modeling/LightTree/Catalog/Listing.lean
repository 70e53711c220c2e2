import LightTree.Catalog.Basic
import LightTree.Descriptor.Print

/-!
# Listing a catalog

Each kind takes a line with its category, its symbol and the children it has, and under it, indented,
a line for each of its fields.
-/

namespace LightTree

def FieldDecl.listing (decl : FieldDecl) : String :=
  "    " ++ decl.name ++ ": " ++ decl.descriptor ++ "\n"

def NodeKind.bounds (kind : NodeKind) : String :=
  "(" ++ toString kind.minChildren ++ ".." ++ (kind.maxChildren.map toString).getD "any" ++ ")"

def NodeKind.listing (kind : NodeKind) : String :=
  kind.name ++ " [" ++ kind.category.label ++ "] `" ++ kind.symbol ++ "` children: " ++
    kind.childCategory.label ++ " " ++ kind.bounds ++ "\n" ++
    String.join (kind.fields.map FieldDecl.listing)

def Catalog.listing (catalog : Catalog) : String :=
  String.join (catalog.kinds.map NodeKind.listing)

end LightTree
