import AlRefactor.Action.Basic

/-!
# Assignments to fields that run their validation
-/

namespace AlRefactor

/-- `receiver.field := value` -/
structure FieldAssignment where
  statement : Node
  receiver : Node
  field : Node
  value : Node

namespace FieldAssignment

/-- The assignment to a member of something with a name at a range. -/
def at? (t : SyntaxTree) (span : Span) : Option FieldAssignment := do
  let statement ← t.findAt? span.start [NodeKind.assignmentStatement]
  match statement.childNodes with
  | target :: value :: _ =>
    if target.is NodeKind.memberAccessExpression then
      let receiver ← target.childNodes.head?
      let field ← target.lastChild? NodeKind.identifierName
      if receiver.is NodeKind.identifierName && !receiver.same field then
        some ⟨statement, receiver, field, value⟩
      else none
    else none
  | _ => none

def onRecord (ts : Trees) (a : FieldAssignment) : Bool :=
  ((a.statement.method?.bind fun m => ts.lookup? m a.receiver.text).map (·.isRecord)).getD false

def validation (a : FieldAssignment) : Text :=
  a.receiver.text ++ ".Validate(" ++ a.field.text ++ ", " ++ a.value.text.trim ++ ")" ++
    (if (a.statement.child? TokenKind.semicolon).isSome then (";" : Text) else [])

def provider : Provider :=
  .ofTarget at? (fun _ => true) fun ctx document _ a => do
    let ts ← ctx.trees
    pure <| if a.onRecord ts then
        [⟨"Convert to validate", .restructuring,
          .change (Change.ofEdits document [⟨a.statement.span, a.validation⟩])⟩]
      else []

end FieldAssignment

end AlRefactor
