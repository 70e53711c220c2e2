import LightTree.Tree.Basic

/-!
# Summaries of trees
-/

namespace LightTree

namespace Tree

def summary (tree : Tree) : String :=
  "Tree \x7b root: BlockId(" ++ tree.root.show ++ "), blocks: " ++ toString tree.nodes.count ++
    ", fields: " ++ toString tree.fields.count ++
    ", config: TreeConfig \x7b max_cascade_depth: " ++ toString tree.settings.maxDepth ++
    ", coalesce_notifications: " ++ toString tree.settings.coalesce ++ " \x7d \x7d"

end Tree

end LightTree
