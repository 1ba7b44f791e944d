import Relevance.Decimal.Text
import Relevance.Tree.Walk

namespace Relevance

def TreeNode.listing : TreeNode → String
  | split feature threshold =>
    "Split \x7b feature: " ++ toString feature ++ ", threshold: "
      ++ threshold.render .listing ++ " \x7d"
  | leaf output => "Leaf \x7b output: " ++ output.render .listing ++ " \x7d"

def Tree.listing (t : Tree) : String :=
  "[" ++ ", ".intercalate (t.preorder.map TreeNode.listing) ++ "]"

end Relevance
