import Scriptlet.Tree
import Scriptlet.Text.Quoted
/-!
Two ways to write a tree: `outline` gives each node, token and missing child a line of its own, in
preorder and indented by depth; `literal` writes all in one line, for messages.
-/

namespace Scriptlet.Tree

/-- The text of a line without its indentation. -/
def caption : Tree → String
  | missing => "-"
  | token kind text _ => kind.name ++ "  " ++ text
  | node label _ _ => label.name

mutual

/-- The lines of a tree below the indentation `pad`. -/
def outline (indent pad : String) : Tree → List String
  | missing => [pad ++ caption missing]
  | token kind text place => [pad ++ caption (token kind text place)]
  | node label place children =>
    (pad ++ caption (node label place children)) :: outlineAll indent (pad ++ indent) children

def outlineAll (indent pad : String) : List Tree → List String
  | [] => []
  | t :: ts => outline indent pad t ++ outlineAll indent pad ts

end

/-- The outline as one text. -/
def pretty (indent : String) (t : Tree) : String :=
  String.intercalate "\n" (outline indent "" t)

mutual

def literal : Tree → String
  | missing => "None"
  | token kind text _ => "Token(" ++ Text.quote kind.name ++ ", " ++ Text.quote text ++ ")"
  | node label _ children =>
    "Tree(" ++ Text.quote label.name ++ ", [" ++ literalAll children ++ "])"

def literalAll : List Tree → String
  | [] => ""
  | [t] => literal t
  | t :: ts => literal t ++ ", " ++ literalAll ts

end

end Scriptlet.Tree
