import AlRefactor.Edit.Basic
import AlRefactor.Session.Refactoring

/-!
# Actions, and commands that are carried out later
-/

namespace AlRefactor

/-- The side of a body on which an event is raised. -/
inductive Side where
  | before | after
deriving DecidableEq, Repr

namespace Side

/-- What the names of events on a side start with. -/
def word : Side → Text
  | .before => "OnBefore"
  | .after => "OnAfter"

end Side

/-- What a command does with the procedure, trigger or statements at its offset. -/
inductive Operation where
  | addPublisher (side : Side)
  | addParameters
  | addOverload (obsolete : Bool)
  | extractProcedure (stop : Nat)
deriving DecidableEq, Repr

/-- A change that is worked out when it is asked for. -/
structure Command where
  kind : Operation
  document : Nat
  offset : Nat
  missing : List Variable
deriving DecidableEq, Repr

/-- The group of an action in a menu. -/
inductive ActionKind where
  | quickFix | restructuring | extraction
deriving DecidableEq, Repr

namespace ActionKind

def name : ActionKind → String
  | .quickFix => "quickfix"
  | .restructuring => "refactor.rewrite"
  | .extraction => "refactor.extract"

end ActionKind

/-- What an action does: change documents, or run a command. -/
inductive Effect where
  | change (change : Change)
  | command (command : Command)
deriving DecidableEq, Repr

/-- Something the user can choose to do. -/
structure Action where
  title : Text
  kind : ActionKind
  effect : Effect
deriving DecidableEq, Repr

/-- A change, and the place of a made-up name in the changed document. -/
structure ActionResult where
  change : Change
  rename : Option (Nat × Nat)
deriving DecidableEq, Repr

/-- A source of actions: whether there may be some at a range, and which there are. -/
structure Provider where
  considers : Context → Nat → Span → Refactoring Bool
  actions : Context → Nat → Span → Refactoring (List Action)

namespace Node

/-- Where commands look for a procedure: its name. -/
def commandOffset (n : Node) : Nat :=
  ((n.child? NodeKind.identifierName).map (·.start)).getD n.start

end Node

namespace SyntaxTree

def methodAround? (t : SyntaxTree) (offset : Nat) : Option Node :=
  t.findAt? offset (NodeKind.methods.map .node)

def procedureAround? (t : SyntaxTree) (offset : Nat) : Option Node :=
  t.findAt? offset [NodeKind.methodDeclaration]

end SyntaxTree

namespace Provider

/-- A provider that finds one thing at a range and makes its actions from that. -/
def ofTarget {α : Type} (find? : SyntaxTree → Span → Option α)
    (considered : α → Bool) (make : Context → Nat → SyntaxTree → α → Refactoring (List Action)) :
    Provider where
  considers ctx document span := do
    match ← ctx.tree? document with
    | none => pure false
    | some t => pure (((find? t span).map considered).getD false)
  actions ctx document span := do
    match ← ctx.tree? document with
    | none => pure []
    | some t =>
      match find? t span with
      | none => pure []
      | some a => make ctx document t a

end Provider

end AlRefactor
