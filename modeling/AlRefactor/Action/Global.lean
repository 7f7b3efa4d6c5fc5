import AlRefactor.Action.Basic
import AlRefactor.Edit.VarSection

/-!
# Locals that become globals
-/

namespace AlRefactor

namespace MoveToGlobal

def declarationAt? (t : SyntaxTree) (span : Span) : Option Node := do
  let n ← t.findAt? span.start [NodeKind.variableDeclaration, NodeKind.variableDeclarationName]
  let s ← n.ancestorAmong? [NodeKind.varSection, NodeKind.globalVarSection]
  if s.is NodeKind.varSection then some n else none

/-- The edits that move a local, unless a global has its name. -/
def edits? (n : Node) : Option (List Edit) := do
  let object ← n.object?
  let v := n.toVariable
  if object.globals.any (·.name.sameName v.name) then none
  else
    let insert ← object.declare?
      { Variable.plain v.name v.type with attributes := v.attributes }
    some (Node.undeclare [n] ++ [insert])

def provider : Provider :=
  .ofTarget declarationAt? (fun _ => true) fun _ document _ n =>
    pure <| match edits? n with
      | none => []
      | some es =>
        [⟨"Move '" ++ n.toVariable.name ++ "' to global variables", .restructuring,
          .change (Change.ofEdits document es)⟩]

end MoveToGlobal

end AlRefactor
