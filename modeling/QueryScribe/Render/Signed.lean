import QueryScribe.Syntax.Tree

/-!
# Signed numbers

A number literal may stand under pass-through nodes and signs. This view of a node keeps the nodes
that are passed on the way down, so that all of them can be noted as written anew.
-/

namespace QueryScribe

/-- A node as a number with signs. The nodes that are passed come from the top down to the node that
holds the literal, the sign or anything else. -/
inductive Signed
  | literal (passed : List Tree) (core : Tree) (text : String)
  | signed (passed : List Tree) (sign : String) (operand : Tree) (view : Signed)
  | other (passed : List Tree)

namespace Signed

/-- The view of a node below the nodes that were passed. -/
def under (passed : List Tree) : Tree → Signed
  | .leaf id token => other (passed ++ [.leaf id token])
  | .node id rule span children =>
    let t := Tree.node id rule span children
    if rule.isNumber then
      match t.firstToken? with
      | some token => literal (passed ++ [t]) t token.text
      | none => other (passed ++ [t])
    else match children with
      | [.node i r s cs] =>
        if rule.isCategory then other (passed ++ [t]) else under (passed ++ [t]) (.node i r s cs)
      | [.leaf _ sign, operand] =>
        if rule = .factor then signed (passed ++ [t]) sign.text operand (under [] operand)
        else other (passed ++ [t])
      | _ => other (passed ++ [t])

/-- The view of a node. -/
def ofTree (t : Tree) : Signed := under [] t

/-- Whether a number literal stands below the signs. -/
def isNumber : Signed → Bool
  | literal _ _ _ => true
  | signed _ _ _ view => view.isNumber
  | other _ => false

end Signed

end QueryScribe
