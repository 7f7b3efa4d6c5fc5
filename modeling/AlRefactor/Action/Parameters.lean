import AlRefactor.Action.Basic
import AlRefactor.Declaration.Overload

/-!
# Parameters for calls with too many arguments
-/

namespace AlRefactor

namespace CallFix

def callAt? (t : SyntaxTree) (span : Span) : Option Node :=
  t.findAt? span.start [NodeKind.invocationExpression]

def objectsOfType? (word : Text) : Option (List Kind) :=
  ([("codeunit", NodeKind.codeunitObject), ("record", .tableObject), ("page", .pageObject),
    ("report", .reportObject), ("query", .queryObject),
    ("xmlport", .xmlPortObject)].find? fun e => Text.sameLetters e.1 word).map
      fun e => [Kind.node e.2]

/-- The arguments of a call, if the types of all are known. -/
def arguments? (ts : Trees) (caller call : Node) : Option (List Argument) :=
  (call.child? NodeKind.argumentList).bind fun l => l.childNodes.mapM (ts.argument? caller)

/-- The object a call goes to, its document, the name that is called, and whether it is another
object than the caller's. -/
def callee? (ts : Trees) (document : Nat) (caller call : Node) :
    Option (Nat × Node × Text × Bool) := do
  let callee ← call.childNodes.head?
  match callee.kind with
  | .node .identifierName =>
    let object ← call.object?
    some (document, object, callee.text, false)
  | .node .memberAccessExpression =>
    let receiver ← callee.childNodes.head?
    let member ← callee.lastChild? NodeKind.identifierName
    if !receiver.is NodeKind.identifierName || receiver.same member then none
    else
      let v ← ts.lookup? caller receiver.text
      let (word, name) ← v.type.namedObject?
      let (target, object) ← ts.objectNamed? (← objectsOfType? word) name
      some (target, object, member.text, true)
  | _ => none

/-- The procedure that a call would reach with further parameters, and its document. On another
object the parameters that are there have to fit exactly. -/
def target? (ctx : Context) (ts : Trees) (document : Nat) (call : Node) :
    Except Fault (Option (Nat × CallTarget)) :=
  match (do
    let caller ← call.method?
    let arguments ← arguments? ts caller call
    let callee ← callee? ts document caller call
    some (arguments, callee)) with
  | none => .ok none
  | some (arguments, target, object, name, elsewhere) => do
    let found ← CallTarget.find? elsewhere (object.proceduresNamed name) arguments ctx.config
    return found.map fun m => (target, m)

/-- The actions for a procedure that lacks parameters. Events get no overloads. -/
def actionsFor (document : Nat) (m : CallTarget) : List Action :=
  let name := m.method.name.getD []
  let action := fun title kind =>
    ⟨title, .quickFix, .command ⟨kind, document, m.method.commandOffset, m.missing⟩⟩
  action ("Add parameters to '" ++ name ++ "'") .addParameters ::
    if m.isPublisher then []
    else
      [action ("Create overload of '" ++ name ++ "'") (.addOverload false),
       action ("Create overload of '" ++ name ++ "' and mark the old one obsolete")
         (.addOverload true)]

def provider : Provider :=
  .ofTarget callAt? (·.method?.isSome) fun ctx document _ call => do
    let ts ← ctx.trees
    match ← Refactoring.ofFault (target? ctx ts document call) with
    | none => pure []
    | some (target, m) =>
      pure (if m.method.role.acceptsParameters then actionsFor target m else [])

end CallFix

end AlRefactor
