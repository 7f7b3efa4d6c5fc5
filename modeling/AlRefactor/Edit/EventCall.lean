import AlRefactor.Declaration.Placement

/-!
# Raising an event in a body
-/

namespace AlRefactor

/-- Where an event is raised: in the first statements of a body or in the last ones. -/
inductive BodyEnd where
  | top | bottom
deriving DecidableEq, Repr

/-- The statements that raise an event, which may report that it did the work of the body. -/
def raiseLines (publisher : Text) (arguments : List Text) (handled : Bool) : List Text :=
  (if handled then [("IsHandled := false;" : Text)] else []) ++
    [publisher ++ "(" ++ Text.join ", " arguments ++ ");"] ++
    (if handled then [("if IsHandled then exit;" : Text)] else [])

namespace Node

/-- What the last statements of a body stand before: an `exit` that ends it, or its `end`. -/
def bottomPlace? (n : Node) : Option (Node × Text) :=
  match n.childNodes.getLast?.filter fun m : Node => m.is NodeKind.exitStatement with
  | some exit => some (exit, exit.lineIndent)
  | none =>
    (n.lastChild? TokenKind.kwEnd).map fun e => (e, e.lineIndent ++ e.lineIndent.indentUnit)

def insertStatements? (n : Node) (lines : List Text) : BodyEnd → Option Edit
  | .top =>
    (n.child? TokenKind.kwBegin).map fun b =>
      let indent := b.lineIndent ++ b.lineIndent.indentUnit
      Edit.insert b.stop (lines.flatMap fun l => n.tree.text.newline ++ indent ++ l)
  | .bottom =>
    n.bottomPlace?.map fun (m, indent) =>
      let newline := n.tree.text.newline
      if m.startsLine then
        Edit.insert m.lineStart (lines.flatMap fun l => indent ++ l ++ newline)
      else
        Edit.insert m.start ((lines.flatMap fun l => newline ++ indent ++ l) ++ newline ++
          m.lineIndent)

def raiseEvent? (n : Node) (publisher : Text) (arguments : List Text) (handled : Bool)
    (place : BodyEnd) : Option Edit :=
  if n.is NodeKind.block then n.insertStatements? (raiseLines publisher arguments handled) place
  else none

end Node

end AlRefactor
